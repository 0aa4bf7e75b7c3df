import Std.Data.TreeMap
import TreeShake.Name.WellKnown

set_option autoImplicit false

/-!
Tables of names. A text keeps the index of its first insertion, so a name, once given out, denotes
the same text in every later table.
-/

namespace TreeShake

/-- Texts by index, and the name of each text. -/
structure NameTable where
  texts : Array String := #[]
  names : Std.TreeMap String Name := ∅

namespace NameTable

def size (t : NameTable) : Nat := t.texts.size

/-- How many names there are: an index has 32 bits. -/
def capacity : Nat := 4294967296

/-- There is no index left for a new text. -/
structure Overflow where
  count : Nat
  deriving DecidableEq, Repr

def Overflow.message (fault : Overflow) : String :=
  "interner exceeded capacity: " ++ toString fault.count ++ " strings"

/-- Gives a text the next index. -/
def push (t : NameTable) (text : String) : NameTable :=
  ⟨t.texts.push text, t.names.insert text ⟨t.size⟩⟩

/-- The name of a text, and the table that holds it. -/
def tryIntern (t : NameTable) (text : String) : Except Overflow (Name × NameTable) :=
  match t.names[text]? with
  | some name => .ok (name, t)
  | none => if t.size < capacity then .ok (⟨t.size⟩, t.push text) else .error ⟨t.size⟩

/-- The same for those who cannot go on without the name: only the message of the fault is left. -/
def intern (t : NameTable) (text : String) : Except String (Name × NameTable) :=
  (t.tryIntern text).mapError Overflow.message

/-- The table that holds the text, if there is an index left for it. -/
def add (t : NameTable) (text : String) : NameTable :=
  match t.tryIntern text with
  | .ok (_, later) => later
  | .error _ => t

def internAll (t : NameTable) (texts : List String) : NameTable :=
  texts.foldl add t

/-- The table that holds the reserved texts only. -/
def initial : NameTable := internAll {} Name.reservedTexts

/-- No text was added to the reserved ones. -/
def isEmpty (t : NameTable) : Bool := t.size ≤ Name.reservedTexts.length

/-- What stands for a name that is not in the table. -/
def unknownText : String := "<?>"

def text (t : NameTable) (name : Name) : String :=
  t.texts[name.index]?.getD unknownText

end NameTable

end TreeShake
