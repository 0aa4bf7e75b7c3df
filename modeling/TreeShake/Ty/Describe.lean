import TreeShake.Ty.Basic

set_option autoImplicit false

/-!
The text of a type in diagnostics about definitions.
-/

namespace TreeShake

def Prim.describe : Prim → String
  | unit => "Unit"
  | boolean => "Boolean"
  | char => "Char"
  | byte => "Byte"
  | short => "Short"
  | int => "Int"
  | long => "Long"
  | float => "Float"
  | double => "Double"
  | string => "String"

def ElementType.describe : ElementType → String
  | prim p => "Prim(" ++ p.describe ++ ")"
  | .cls name => "Class(" ++ name.describe ++ ")"

def ArrayType.describe (a : ArrayType) : String :=
  "ArrayTypeRef \x7b base: " ++ a.element.describe ++ ", dimensions: " ++ toString a.dimensions ++
    " \x7d"

mutual

def Ty.describe : Ty → String
  | .any => "Any"
  | .nothing => "Nothing"
  | .null => "Null"
  | .noValue => "NoType"
  | .prim p => "Prim(" ++ p.describe ++ ")"
  | .cls name => "Class(" ++ name.describe ++ ")"
  | .array a => "Array(" ++ a.describe ++ ")"
  | .record fields => "Record([" ++ ", ".intercalate (RecordField.describeAll fields) ++ "])"

def RecordField.describe : RecordField → String
  | ⟨name, ty⟩ => "RecordField \x7b name: " ++ name.describe ++ ", tpe: " ++ ty.describe ++ " \x7d"

def RecordField.describeAll : List RecordField → List String
  | [] => []
  | field :: fields => field.describe :: RecordField.describeAll fields

end

end TreeShake
