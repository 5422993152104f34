import Unfydqry.Search.EditDist

/-! # The edit distances of words with no common character

Without a common character every cell of the table is the larger of its two indices, so
the distance is the larger of the two lengths. -/

namespace Unfydqry.Search

/-- The cells `j..` of row `i`, `n` of them. -/
def maxRow (i j n : ℕ) : List ℕ := (List.range' j n).map (max i)

theorem maxRow_succ (i j n : ℕ) : maxRow i j (n + 1) = max i j :: maxRow i (j + 1) n := rfl

theorem levenshteinRow_disjoint {x : Char} {ys : Text} (hx : x ∉ ys) (i j : ℕ) :
    levenshteinRow x ys (maxRow i j (ys.length + 1)) (max (i + 1) j) =
      maxRow (i + 1) (j + 1) ys.length := by
  induction ys generalizing j with
  | nil => rfl
  | cons y ys ih =>
    rw [List.mem_cons, not_or] at hx
    have hcell : min (min (max i (j + 1) + 1) (max (i + 1) j + 1)) (max i j + 1) =
        max (i + 1) (j + 1) := by omega
    rw [List.length_cons, maxRow_succ, maxRow_succ, levenshteinRow, if_pos hx.1, hcell,
      ← maxRow_succ, ih hx.2, ← maxRow_succ]

theorem rowMin_maxRow (i n : ℕ) : rowMin (maxRow i 0 (n + 1)) = i := by
  have hfold : ∀ (k j m : ℕ), k ≤ i → i ≤ k → (maxRow i j m).foldl min k = k := by
    intro k j m hk hk'
    induction m generalizing j with
    | zero => rfl
    | succ m ih =>
      have hmin : min k (max i j) = k := by omega
      rw [maxRow_succ, List.foldl_cons, hmin, ih]
  rw [rowMin, maxRow_succ, List.tail_cons, List.headD_cons, Nat.max_zero,
    hfold i _ _ (le_refl i) (le_refl i)]

theorem getLastD_maxRow (i n : ℕ) : (maxRow i 0 (n + 1)).getLastD 0 = max i n := by
  have hlast : maxRow i 0 (n + 1) = maxRow i 0 n ++ [max i n] := by
    rw [maxRow, List.range'_1_concat, List.map_append, Nat.zero_add]
    rfl
  rw [hlast, List.getLastD_concat]

/-- The row of index `i` has minimum `i`, so the loop stops when `i` exceeds the threshold. -/
theorem levenshteinRows_disjoint {b : Text} {threshold : ℕ} (xs : Text) (hxs : ∀ x ∈ xs, x ∉ b)
    {i : ℕ} (hi : i ≤ threshold) :
    levenshteinRows b threshold xs (i + 1) (maxRow i 0 (b.length + 1)) =
      if threshold < i + xs.length then none
      else some (maxRow (i + xs.length) 0 (b.length + 1)) := by
  induction xs generalizing i with
  | nil =>
    exact (if_neg (Nat.not_lt.mpr hi)).symm
  | cons x xs ih =>
    rw [List.forall_mem_cons] at hxs
    have hrow := levenshteinRow_disjoint hxs.1 i 0
    rw [Nat.max_zero] at hrow
    have hcurr : (i + 1) :: levenshteinRow x b (maxRow i 0 (b.length + 1)) (i + 1) =
        maxRow (i + 1) 0 (b.length + 1) := by
      rw [hrow, maxRow_succ, Nat.max_zero]
    rw [levenshteinRows, hcurr, rowMin_maxRow, List.length_cons]
    by_cases hstop : i + 1 > threshold
    · rw [if_pos hstop, if_pos (by omega)]
    · have hnext := ih hxs.2 (Nat.le_of_not_lt hstop)
      have hsum : i + 1 + xs.length = i + (xs.length + 1) := by omega
      rw [if_neg hstop, hnext, hsum]

theorem osaRow_disjoint (px : Option Char) {x : Char} {ys : Text} (hx : x ∉ ys) {py : Option Char}
    (hpy : py ≠ some x) (prev1 prev2 : List ℕ) (left : ℕ) :
    osaRow px x py ys prev1 prev2 left = levenshteinRow x ys prev1 left := by
  induction ys generalizing py prev1 prev2 left with
  | nil =>
    rcases prev1 with _ | ⟨diag, _ | ⟨up, prev1⟩⟩ <;> rfl
  | cons y ys ih =>
    rw [List.mem_cons, not_or] at hx
    have hy : some y ≠ some x := fun h => hx.1 (Option.some.inj h).symm
    rcases prev1 with _ | ⟨diag, _ | ⟨up, prev1⟩⟩
    · rfl
    · rfl
    · have hswap : ¬ (py = some x ∧ px = some y) := fun h => hpy h.1
      simp only [osaRow, levenshteinRow, if_neg hswap, ih hx.2 hy]

theorem osaRows_disjoint {b : Text} (threshold : ℕ) (xs : Text) (hxs : ∀ x ∈ xs, x ∉ b)
    (px : Option Char) (i : ℕ) (prev2 prev1 : List ℕ) :
    osaRows b threshold px xs i prev2 prev1 = levenshteinRows b threshold xs i prev1 := by
  induction xs generalizing px i prev2 prev1 with
  | nil => rfl
  | cons x xs ih =>
    rw [List.forall_mem_cons] at hxs
    simp only [osaRows, levenshteinRows, osaRow_disjoint px hxs.1 (Option.some_ne_none x).symm,
      ih hxs.2]

theorem osa_disjoint {a b : Text} (hab : ∀ x ∈ a, x ∉ b) (threshold : ℕ) :
    osa a b threshold = levenshtein a b threshold := by
  simp only [osa, levenshtein, osaRows_disjoint threshold a hab]

theorem levenshtein_disjoint {a b : Text} (ha : a ≠ []) (hb : b ≠ []) (hab : ∀ x ∈ a, x ∉ b)
    (threshold : ℕ) :
    (levenshtein a b threshold).isSome = true ↔ a.length ≤ threshold ∧ b.length ≤ threshold := by
  have hla : a.length ≠ 0 := fun h => ha (List.length_eq_zero_iff.mp h)
  have hlb : b.length ≠ 0 := fun h => hb (List.length_eq_zero_iff.mp h)
  have hfirst : List.range (b.length + 1) = maxRow 0 0 (b.length + 1) := by
    have hmax : (max 0 : ℕ → ℕ) = id := funext Nat.zero_max
    rw [maxRow, hmax, List.map_id, List.range_eq_range']
  have hrows := levenshteinRows_disjoint a hab (Nat.zero_le threshold)
  simp only [Nat.zero_add] at hrows
  unfold levenshtein absDiff
  rw [if_neg hla, if_neg hlb, hfirst, hrows]
  by_cases hfar : a.length - b.length + (b.length - a.length) > threshold
  · rw [if_pos hfar]
    simp only [Option.isSome_none, Bool.false_eq_true, false_iff]
    omega
  · rw [if_neg hfar]
    by_cases hlong : threshold < a.length
    · rw [if_pos hlong]
      simp only [Option.bind_none, Option.isSome_none, Bool.false_eq_true, false_iff]
      omega
    · rw [if_neg hlong, Option.bind_some, lastWithin, getLastD_maxRow]
      by_cases hout : max a.length b.length > threshold
      · rw [if_pos hout]
        simp only [Option.isSome_none, Bool.false_eq_true, false_iff]
        omega
      · rw [if_neg hout]
        simp only [Option.isSome_some, true_iff]
        omega

end Unfydqry.Search
