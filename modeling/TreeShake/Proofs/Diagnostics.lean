import TreeShake.Reachability.Diagnostic

set_option autoImplicit false

/-!
What a list of diagnostics says: which defects it lists, and whom it names as their referrers. The
table of positions stays in step with the list, so recording through it is recording in the list.
-/

namespace TreeShake.Diagnostic

def Listed (diagnostics : List Diagnostic) (defect : Defect) : Prop :=
  ∃ d ∈ diagnostics, d.defect = defect

def Mentioned (diagnostics : List Diagnostic) (defect : Defect) (referrer : Referrer) : Prop :=
  ∃ d ∈ diagnostics, d.defect = defect ∧ referrer ∈ d.referrers

theorem listed_of_mentioned {diagnostics : List Diagnostic} {defect : Defect} {referrer : Referrer}
    (mentioned : Mentioned diagnostics defect referrer) : Listed diagnostics defect := by
  obtain ⟨d, member, same, _⟩ := mentioned
  exact ⟨d, member, same⟩

theorem mem_refer {d : Diagnostic} {referrer other : Referrer} :
    other ∈ (d.refer referrer).referrers ↔ other = referrer ∨ other ∈ d.referrers := by
  unfold refer
  split
  · next known =>
    constructor
    · exact .inr
    · rintro (rfl | member)
      · exact known
      · exact member
  · simp [or_comm]

/-- Recording without a table: the list is gone through from its start. -/
def record (defect : Defect) (referrer : Referrer) : List Diagnostic → List Diagnostic
  | [] => [⟨defect, [referrer]⟩]
  | d :: rest =>
    if d.defect = defect then d.refer referrer :: rest else d :: record defect referrer rest

theorem record_eq_modify {defect : Defect} {referrer : Referrer} {diagnostics : List Diagnostic}
    {i : Nat} (listed : (diagnostics.map Diagnostic.defect)[i]? = some defect)
    (first : ∀ j, j < i → (diagnostics.map Diagnostic.defect)[j]? ≠ some defect) :
    record defect referrer diagnostics = diagnostics.modify i (·.refer referrer) := by
  induction diagnostics generalizing i with
  | nil => cases listed
  | cons d rest ih =>
    rw [record]
    cases i with
    | zero =>
      rw [if_pos (Option.some.inj listed)]
      rfl
    | succ i =>
      have other : d.defect ≠ defect := fun same => first 0 (Nat.zero_lt_succ i) (congrArg some same)
      rw [if_neg other, ih listed fun j below => first (j + 1) (Nat.succ_lt_succ below)]
      rfl

theorem record_eq_append {defect : Defect} {referrer : Referrer} {diagnostics : List Diagnostic}
    (unlisted : defect ∉ diagnostics.map Diagnostic.defect) :
    record defect referrer diagnostics = diagnostics ++ [⟨defect, [referrer]⟩] := by
  induction diagnostics with
  | nil => rfl
  | cons d rest ih =>
    have other : d.defect ≠ defect := fun same => unlisted (same ▸ List.mem_cons_self)
    rw [record, if_neg other, ih fun member => unlisted (List.mem_cons_of_mem _ member),
      List.cons_append]

/-- The table finds the entry that the list alone would show first. -/
theorem entries_record (log : DiagnosticLog) (defect : Defect) (referrer : Referrer) :
    (log.record defect referrer).entries = record defect referrer log.entries := by
  unfold DiagnosticLog.record
  split
  · next i known =>
    have listed := (log.agree defect i).mp known
    have first : ∀ j, j < i → (log.entries.map Diagnostic.defect)[j]? ≠ some defect := by
      intro j below also
      have known' := (log.agree defect j).mpr also
      rw [known, Option.some.injEq] at known'
      omega
    exact (record_eq_modify listed first).symm
  · next unknown =>
    have unlisted : defect ∉ log.entries.map Diagnostic.defect := by
      intro member
      obtain ⟨i, listed⟩ := List.mem_iff_getElem?.mp member
      rw [← log.agree, unknown] at listed
      cases listed
    exact (record_eq_append unlisted).symm

theorem listed_cons {d : Diagnostic} {rest : List Diagnostic} {defect : Defect} :
    Listed (d :: rest) defect ↔ d.defect = defect ∨ Listed rest defect := by
  simp [Listed]

theorem mentioned_cons {d : Diagnostic} {rest : List Diagnostic} {defect : Defect}
    {referrer : Referrer} :
    Mentioned (d :: rest) defect referrer ↔
      d.defect = defect ∧ referrer ∈ d.referrers ∨ Mentioned rest defect referrer := by
  simp [Mentioned]

theorem listed_record {diagnostics : List Diagnostic} {defect other : Defect}
    {referrer : Referrer} :
    Listed (record defect referrer diagnostics) other ↔ other = defect ∨ Listed diagnostics other := by
  induction diagnostics with
  | nil => simp [record, Listed, eq_comm]
  | cons d rest ih =>
    rw [record]
    split
    · next same =>
      rw [listed_cons, listed_cons, defect_refer, same]
      constructor
      · exact .inr
      · rintro (rfl | listed)
        · exact .inl rfl
        · exact listed
    · rw [listed_cons, listed_cons, ih]
      exact or_left_comm

theorem mentioned_record {diagnostics : List Diagnostic} {defect other : Defect}
    {referrer place : Referrer} :
    Mentioned (record defect referrer diagnostics) other place ↔
      other = defect ∧ place = referrer ∨ Mentioned diagnostics other place := by
  induction diagnostics with
  | nil => simp [record, Mentioned, eq_comm]
  | cons d rest ih =>
    rw [record]
    split
    · next same =>
      rw [mentioned_cons, mentioned_cons, defect_refer, mem_refer, same, and_or_left, or_assoc,
        eq_comm]
    · rw [mentioned_cons, mentioned_cons, ih]
      exact or_left_comm

end TreeShake.Diagnostic
