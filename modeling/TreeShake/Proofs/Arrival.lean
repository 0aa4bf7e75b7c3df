import Mathlib.Data.List.Induction
import Mathlib.Data.List.Nodup

set_option autoImplicit false

/-!
Lists in the order of arrival. What arrives goes to the end if its key is new, and to the entry with
its key otherwise. After any sequence of arrivals there is one entry for each key, and the entries
stand in the order in which their keys came first.
-/

namespace TreeShake.Arrival

variable {α β κ : Type} [DecidableEq κ]

theorem eraseDups_concat (keys : List κ) (k : κ) :
    (keys ++ [k]).eraseDups = if k ∈ keys then keys.eraseDups else keys.eraseDups ++ [k] := by
  rw [List.eraseDups_append]
  by_cases known : k ∈ keys
  · simp [List.removeAll, known]
  · simp [List.removeAll, List.eraseDups_cons, known]

/-- What arrives later goes to the end. -/
theorem eraseDups_isPrefix (keys later : List κ) : keys.eraseDups <+: (keys ++ later).eraseDups := by
  rw [List.eraseDups_append]
  exact List.prefix_append _ _

theorem nodup_eraseDups (keys : List κ) : keys.eraseDups.Nodup := by
  induction keys using List.reverseRecOn with
  | nil => exact List.nodup_nil
  | append_singleton keys k ih =>
    rw [eraseDups_concat]
    by_cases known : k ∈ keys
    · rwa [if_pos known]
    · rw [if_neg known, ← List.concat_eq_append]
      apply List.Nodup.concat _ ih
      rwa [List.mem_eraseDups]

/-- If each arrival puts a new key at the end and leaves the keys alone otherwise, the keys stand in
the order of their first arrivals. -/
theorem map_foldl_eq_eraseDups {key : α → κ} {tag : β → κ} {put : List α → β → List α}
    (step : ∀ entries b, (put entries b).map key =
      if tag b ∈ entries.map key then entries.map key else entries.map key ++ [tag b])
    (arrivals : List β) : (arrivals.foldl put []).map key = (arrivals.map tag).eraseDups := by
  induction arrivals using List.reverseRecOn with
  | nil => rfl
  | append_singleton arrivals b ih =>
    rw [List.foldl_append, List.foldl_cons, List.foldl_nil, step, ih, List.map_append, List.map_cons,
      List.map_nil, eraseDups_concat]
    simp only [List.mem_eraseDups]

end TreeShake.Arrival
