import Unfydqry.Search.EditBuffers

/-! # The two bounded distances

The loops with their buffers and early exits return the distance just when it is within the
threshold: the least number of edits for the one, the usual recurrence for the other. -/

namespace Unfydqry.Search

open EditDistance

theorem within_eq_some (max e d : ℕ) : atMost max e = some d ↔ e = d ∧ d ≤ max := by
  unfold atMost
  split
  · rename_i h
    apply iff_of_false (by simp)
    rintro ⟨rfl, hle⟩
    omega
  · rename_i h
    rw [Option.some.injEq]
    constructor
    · rintro rfl
      exact ⟨rfl, by omega⟩
    · exact fun h => h.1

theorem within_eq_none (max e : ℕ) : atMost max e = none ↔ max < e := by
  unfold atMost
  split
  · rename_i h
    exact iff_of_true rfl h
  · rename_i h
    exact iff_of_false (by simp) h

theorem editTable_whole (a b : Text) : editTable a b a.length b.length = editDist a b := by
  rw [editTable_eq a b a.length b.length (Nat.le_refl _) (Nat.le_refl _), List.take_length,
    List.take_length, editDist_reverse]

theorem isLeast_iff (a b : Text) (d : ℕ) :
    IsLeast {n | Edits n a b} d ↔ editDist a b = d :=
  ⟨fun h => (isLeast_editDist a b).unique h, fun h => h ▸ isLeast_editDist a b⟩

/-- `levenshtein` returns the least number of insertions, deletions and substitutions, and
nothing just when that is above the threshold. -/
theorem levenshtein_least (a b : Text) (max : ℕ) :
    levenshteinIndexed a b max = some (levenshtein a b max) ∧
    (∀ d, levenshtein a b max = some d ↔ IsLeast {n | Edits n a b} d ∧ d ≤ max) ∧
    (levenshtein a b max = none ↔ ∃ d, IsLeast {n | Edits n a b} d ∧ max < d) := by
  refine ⟨levenshteinIndexed_eq a b max, fun d => ?_, ?_⟩
  · rw [levenshtein_eq, editTable_whole, within_eq_some, isLeast_iff]
  · rw [levenshtein_eq, editTable_whole, within_eq_none]
    simp only [isLeast_iff, exists_eq_left']

/-- `osa` returns the value of the recurrence, and nothing just when that is above the
threshold; a row above the threshold decides that. -/
theorem osa_recurrence (a b : Text) (max : ℕ) :
    osaIndexed a b max = some (osa a b max) ∧
    (∀ d, osa a b max = some d ↔ osaTable a b a.length b.length = d ∧ d ≤ max) ∧
    (osa a b max = none ↔ max < osaTable a b a.length b.length) ∧
    ∀ i ≤ a.length, (∀ j ≤ b.length, max < osaTable a b i j) →
      max < osaTable a b a.length b.length := by
  refine ⟨osaIndexed_eq a b max, fun d => ?_, ?_, fun i hi hrow => ?_⟩
  · rw [osa_eq, within_eq_some]
  · rw [osa_eq, within_eq_none]
  · have hlast := exceeds_later (osaTable_row a b) hrow (a.length - i) b.length (Nat.le_refl _)
    rwa [Nat.add_sub_cancel' hi] at hlast

end Unfydqry.Search
