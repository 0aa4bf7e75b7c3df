import TreeShake.Name.Table
import TreeShake.Proofs.Arrival
import TreeShake.Ty.Basic

set_option autoImplicit false

/-!
Names and texts correspond. Whatever is asked of a new table, it holds each text once, in the order
in which the texts came first, and from a text to its name and back is the same text. A table grows
at its end only. So a name that was given out denotes its text in every later table, and the reserved
names keep the texts that the linker relies on.
-/

namespace TreeShake

/-- The names that the linker refers to, in the order of their texts. -/
def Name.wellKnown : List Name :=
  [object] ++
    [Prim.unit, .boolean, .char, .byte, .short, .int, .long, .float, .double, .string].map
      Prim.boxedClass ++
    [arithmeticException, defaultConstructor, messageConstructor, staticInitializer, clone,
      topLevelExports]

namespace NameTable

/-- A request for the name of a text. -/
inductive Call where
  | intern (text : String)
  | tryIntern (text : String)
  deriving DecidableEq, Repr

namespace Call

def text : Call → String
  | intern text => text
  | tryIntern text => text

/-- The name that is given out and the table after that, unless there is no name left. -/
def answer? (t : NameTable) : Call → Option (Name × NameTable)
  | intern text => (t.intern text).toOption
  | tryIntern text => (t.tryIntern text).toOption

/-- Both kinds of calls give the same answers. -/
theorem answer?_eq (t : NameTable) (call : Call) :
    call.answer? t = (t.tryIntern call.text).toOption := by
  cases call with
  | intern text =>
    rw [answer?, NameTable.intern, Call.text]
    cases t.tryIntern text <;> rfl
  | tryIntern => rfl

end Call

/-- The table after some calls, unless one of them fails. -/
def after? (t : NameTable) (calls : List Call) : Option NameTable :=
  calls.foldlM (fun t call => (call.answer? t).map Prod.snd) t

/-- The table holds the texts that it has seen, in the order of their first arrivals, and finds the
names of these texts only. -/
structure Holds (t : NameTable) (seen : List String) : Prop where
  texts : t.texts.toList = seen.eraseDups
  inverse : ∀ (text : String) (name : Name),
    t.names[text]? = some name ↔ t.texts[name.index]? = some text

/-- What a call that succeeds does to a table: a text that is stored keeps its name, and another one
gets the next name. -/
structure Registers (t : NameTable) (text : String) (name : Name) (later : NameTable) : Prop where
  denotes : later.texts[name.index]? = some text
  known : text ∈ t.texts → later = t
  grows : later.size = t.size + 1 ↔ text ∉ t.texts

/-- Where there are names for all texts, there are names for the first ones. -/
theorem room_of_append {seen more : List String}
    (room : (seen ++ more).eraseDups.length ≤ capacity) : seen.eraseDups.length ≤ capacity :=
  Nat.le_trans (Arrival.eraseDups_isPrefix seen more).length_le room

theorem text_of_getElem? {t : NameTable} {name : Name} {text : String}
    (found : t.texts[name.index]? = some text) : t.text name = text := by
  rw [NameTable.text, found, Option.getD_some]

/-! One call. -/

namespace Holds

variable {t later : NameTable} {seen more : List String} {name : Name} {text : String}

theorem mem_texts (holds : t.Holds seen) : text ∈ t.texts ↔ text ∈ seen := by
  rw [← Array.mem_toList_iff, holds.texts, List.mem_eraseDups]

theorem size_eq (holds : t.Holds seen) : t.size = seen.eraseDups.length := by
  rw [size, ← Array.length_toList, holds.texts]

theorem not_mem_of_unnamed (holds : t.Holds seen) (unnamed : t.names[text]? = none) :
    text ∉ seen := by
  intro known
  obtain ⟨index, found⟩ := Array.mem_iff_getElem?.mp (holds.mem_texts.mpr known)
  rw [(holds.inverse text ⟨index⟩).mpr found] at unnamed
  cases unnamed

/-- A name denotes the same text in every later table. -/
theorem denotes_later (early : t.Holds seen) (late : later.Holds (seen ++ more))
    (denotes : t.texts[name.index]? = some text) : later.texts[name.index]? = some text := by
  obtain ⟨added, grown⟩ := Arrival.eraseDups_isPrefix seen more
  rw [← early.texts, ← late.texts] at grown
  rw [← Array.getElem?_toList] at denotes ⊢
  obtain ⟨inside, _⟩ := List.getElem?_eq_some_iff.mp denotes
  rwa [← grown, List.getElem?_append_left inside]

/-- A new text at the end leaves the names of the others alone. -/
theorem push (holds : t.Holds seen) (fresh : text ∉ seen) : (t.push text).Holds (seen ++ [text]) where
  texts := by
    rw [NameTable.push, Array.toList_push, holds.texts, Arrival.eraseDups_concat, if_neg fresh]
  inverse other name := by
    have unstored : t.texts[name.index]? ≠ some text := fun found =>
      fresh (holds.mem_texts.mp (Array.mem_of_getElem? found))
    simp only [NameTable.push, Std.TreeMap.getElem?_insert, Array.getElem?_push,
      Std.LawfulEqOrd.compare_eq_iff_eq, size]
    by_cases same : text = other
    · subst same
      rw [if_pos rfl]
      by_cases last : name.index = t.texts.size
      · rw [if_pos last, ← last]
        exact iff_of_true rfl rfl
      · simp only [if_neg last, unstored, iff_false]
        rintro ⟨rfl⟩
        exact last rfl
    · rw [if_neg same, holds.inverse]
      by_cases last : name.index = t.texts.size
      · simp [last, same]
      · rw [if_neg last]

theorem tryIntern (holds : t.Holds seen) (room : (seen ++ [text]).eraseDups.length ≤ capacity) :
    ∃ name later, t.tryIntern text = .ok (name, later) ∧ later.Holds (seen ++ [text]) ∧
      t.Registers text name later := by
  cases found : t.names[text]? with
  | some name =>
    have denotes := (holds.inverse text name).mp found
    have stored := Array.mem_of_getElem? denotes
    have known := holds.mem_texts.mp stored
    refine ⟨name, t, by rw [NameTable.tryIntern, found], ⟨?_, holds.inverse⟩, denotes, ?_, ?_⟩
    · rw [Arrival.eraseDups_concat, if_pos known, holds.texts]
    · exact fun _ => rfl
    · simp [stored]
  | none =>
    have fresh := holds.not_mem_of_unnamed found
    have free : t.size < capacity := by
      rw [Arrival.eraseDups_concat, if_neg fresh, List.length_append, List.length_singleton] at room
      rw [holds.size_eq]
      omega
    have absent : text ∉ t.texts := fun stored => fresh (holds.mem_texts.mp stored)
    refine ⟨⟨t.size⟩, t.push text, ?_, holds.push fresh, ?_, ?_, ?_⟩
    · simp only [NameTable.tryIntern, found, if_pos free]
    · simp [NameTable.push, size]
    · exact fun stored => absurd stored absent
    · simp [NameTable.push, size, absent]

theorem answer? (holds : t.Holds seen) {call : Call}
    (room : (seen ++ [call.text]).eraseDups.length ≤ capacity) :
    ∃ name later, call.answer? t = some (name, later) ∧ later.Holds (seen ++ [call.text]) ∧
      t.Registers call.text name later := by
  obtain ⟨name, later, answered, kept, registers⟩ := holds.tryIntern room
  refine ⟨name, later, ?_, kept, registers⟩
  rw [Call.answer?_eq, answered, Except.toOption]

/-! Many calls. -/

theorem internAll (holds : t.Holds seen) (texts : List String)
    (room : (seen ++ texts).eraseDups.length ≤ capacity) :
    (t.internAll texts).Holds (seen ++ texts) := by
  induction texts generalizing t seen with
  | nil => rwa [List.append_nil]
  | cons text rest ih =>
    rw [List.append_cons] at room ⊢
    obtain ⟨name, later, answered, kept, _⟩ := holds.tryIntern (room_of_append room)
    have added : t.add text = later := by rw [add, answered]
    rw [NameTable.internAll, List.foldl_cons, added]
    exact ih kept room

theorem after? (holds : t.Holds seen) (calls : List Call)
    (room : (seen ++ calls.map Call.text).eraseDups.length ≤ capacity) :
    ∃ later, t.after? calls = some later ∧ later.Holds (seen ++ calls.map Call.text) := by
  induction calls generalizing t seen with
  | nil =>
    rw [List.map_nil, List.append_nil]
    exact ⟨t, rfl, holds⟩
  | cons call rest ih =>
    rw [List.map_cons, List.append_cons] at room ⊢
    obtain ⟨name, next, answered, kept, _⟩ := holds.answer? (room_of_append room)
    obtain ⟨later, performed, all⟩ := ih kept room
    refine ⟨later, ?_, all⟩
    rw [NameTable.after?, List.foldlM_cons, answered]
    exact performed

end Holds

theorem holds_initial : initial.Holds Name.reservedTexts := by
  have blank : NameTable.Holds {} [] := by
    refine ⟨rfl, fun text name => ?_⟩
    simp
  exact blank.internAll Name.reservedTexts (by decide)

namespace Holds

variable {t : NameTable} {seen more : List String}

/-- A name of the table is given out again for its text. -/
theorem answer?_text (holds : t.Holds seen) {name : Name} (inside : name.index < t.size) {call : Call}
    (asked : call.text = t.text name) : call.answer? t = some (name, t) := by
  have stored : t.texts[name.index]? = some call.text := by
    rw [asked, NameTable.text, Array.getElem?_eq_getElem inside, Option.getD_some]
  rw [Call.answer?_eq, NameTable.tryIntern, (holds.inverse _ name).mpr stored, Except.toOption]

theorem text_reserved (holds : t.Holds (Name.reservedTexts ++ more)) {name : Name}
    (reserved : name.index < Name.reservedTexts.length) :
    t.text name = Name.reservedTexts[name.index] := by
  apply text_of_getElem?
  apply holds_initial.denotes_later holds
  have texts : initial.texts.toList = Name.reservedTexts := holds_initial.texts.trans (by decide)
  rw [← Array.getElem?_toList, texts, List.getElem?_eq_getElem reserved]

theorem map_text_wellKnown (holds : t.Holds (Name.reservedTexts ++ more)) :
    Name.wellKnown.map t.text = Name.wellKnownTexts := by
  have reserved : ∀ name ∈ Name.wellKnown, name.index < Name.reservedTexts.length := by decide
  calc Name.wellKnown.map t.text
      = Name.wellKnown.map fun name => Name.reservedTexts[name.index]?.getD unknownText := by
        apply List.map_congr_left
        intro name member
        rw [holds.text_reserved (reserved name member), List.getElem?_eq_getElem, Option.getD_some]
    _ = Name.wellKnownTexts := by decide

end Holds

/-- Names and texts correspond in the table that some calls have led to. -/
structure Corresponds (calls : List Call) (t : NameTable) : Prop where
  texts : t.texts.toList = (Name.reservedTexts ++ calls.map Call.text).eraseDups
  distinct : t.texts.toList.Nodup
  inverse : ∀ (text : String) (name : Name),
    t.names[text]? = some name ↔ t.texts[name.index]? = some text
  again : ∀ (name : Name) (call : Call), name.index < t.size → call.text = t.text name →
    call.answer? t = some (name, t)
  unknown : ∀ name : Name, t.size ≤ name.index → t.text name = "<?>"
  empty : t.text Name.empty = ""
  wellKnown : Name.wellKnown.map t.text = Name.wellKnownTexts

theorem Holds.corresponds {t : NameTable} {calls : List Call}
    (holds : t.Holds (Name.reservedTexts ++ calls.map Call.text)) : Corresponds calls t where
  texts := holds.texts
  distinct := by
    rw [holds.texts]
    exact Arrival.nodup_eraseDups _
  inverse := holds.inverse
  again _ _ inside asked := holds.answer?_text inside asked
  unknown name outside := by
    rw [NameTable.text, Array.getElem?_eq_none outside, Option.getD_none, unknownText]
  empty := holds.text_reserved (by decide)
  wellKnown := holds.map_text_wellKnown

/-- As long as there are names for all texts, every call of a new table succeeds, names and texts
correspond, and a name denotes its text from the moment at which it is given out. -/
theorem names_correspond (calls : List Call)
    (room : (Name.reservedTexts ++ calls.map Call.text).eraseDups.length ≤ capacity) :
    ∃ t, initial.after? calls = some t ∧ Corresponds calls t ∧
      ∀ before call rest, calls = before ++ call :: rest →
        ∃ earlier name later, initial.after? before = some earlier ∧
          call.answer? earlier = some (name, later) ∧ later.after? rest = some t ∧
          earlier.Registers call.text name later ∧
          later.text name = call.text ∧ t.text name = call.text := by
  obtain ⟨t, performed, holds⟩ := holds_initial.after? calls room
  refine ⟨t, performed, holds.corresponds, ?_⟩
  rintro before call rest rfl
  rw [List.map_append, List.map_cons, ← List.append_assoc, List.append_cons] at room holds
  have roomForCall := room_of_append room
  obtain ⟨earlier, first, early⟩ := holds_initial.after? before (room_of_append roomForCall)
  obtain ⟨name, later, answered, kept, registers⟩ := early.answer? roomForCall
  have last : later.after? rest = some t := by
    rw [after?, List.foldlM_append, ← after?, first] at performed
    simpa [after?, answered] using performed
  exact ⟨earlier, name, later, first, answered, last, registers, text_of_getElem? registers.denotes,
    text_of_getElem? (kept.denotes_later holds registers.denotes)⟩

-- Reserved texts may be asked for, and the text that stands for unknown names is one like any other.
theorem names_correspond_mixed :
    let calls : List Call := [.intern "app.Main", .tryIntern "lang.Object", .tryIntern "<?>",
      .intern "", .intern "app.Main"]
    (Name.reservedTexts ++ calls.map Call.text).eraseDups.length ≤ capacity ∧
      ∃ t, initial.after? calls = some t ∧ Corresponds calls t ∧ t.size = 20 ∧
        t.names["app.Main"]? = some ⟨18⟩ ∧ t.names["<?>"]? = some ⟨19⟩ ∧ t.text ⟨20⟩ = "<?>" := by
  intro calls
  have room : (Name.reservedTexts ++ calls.map Call.text).eraseDups.length ≤ capacity := by decide
  obtain ⟨t, performed, corresponds, _⟩ := names_correspond calls room
  have texts : t.texts = (Name.reservedTexts ++ ["app.Main", "<?>"]).toArray := by
    rw [← Array.toList_inj, corresponds.texts]
    decide
  refine ⟨room, t, performed, corresponds, ?_, ?_, ?_, ?_⟩
  · rw [size, texts]
    rfl
  · rw [corresponds.inverse, texts]
    rfl
  · rw [corresponds.inverse, texts]
    rfl
  · apply corresponds.unknown
    rw [size, texts]
    decide

end NameTable

end TreeShake
