import Unfydqry.Lib.EditDistance
import Unfydqry.Search.EditDist

/-! # The rows of the two distances are rows of the tables

Both loops keep whole rows of their table and stop when a row is above the threshold; no later
row gets below it again, so the answer is the last cell if it is within the threshold. -/

namespace Unfydqry.Search

open EditDistance

/-- A distance within the threshold. -/
def atMost (max d : ℕ) : Option ℕ := if d > max then none else some d

/-- The cells `j..` of a row, `n` of them. -/
def cells (D : ℕ → ℕ → ℕ) (i j n : ℕ) : List ℕ := (List.range' j n).map (D i)

theorem cells_succ (D : ℕ → ℕ → ℕ) (i j n : ℕ) :
    cells D i j (n + 1) = D i j :: cells D i (j + 1) n := by
  rw [cells, List.range'_succ, List.map_cons]
  rfl

theorem mem_cells {D : ℕ → ℕ → ℕ} {i j n d : ℕ} :
    d ∈ cells D i j n ↔ ∃ k, j ≤ k ∧ k < j + n ∧ D i k = d := by
  simp only [cells, List.mem_map, List.mem_range'_1, and_assoc]

theorem range_eq_cells {D : ℕ → ℕ → ℕ} (hD : ∀ j, D 0 j = j) (n : ℕ) :
    List.range n = cells D 0 0 n := by
  rw [cells, List.range_eq_range', List.map_congr_left fun j _ => hD j, List.map_id']

theorem lt_rowMin_iff (max d : ℕ) (row : List ℕ) :
    max < rowMin (d :: row) ↔ ∀ e ∈ d :: row, max < e := by
  have hloop : ∀ (row : List ℕ) (d : ℕ),
      max < row.foldl min d ↔ max < d ∧ ∀ e ∈ row, max < e := by
    intro row
    induction row with
    | nil => simp
    | cons e row ih =>
      intro d
      rw [List.foldl_cons, ih, List.forall_mem_cons, ← and_assoc, Nat.lt_min]
  rw [rowMin, List.tail_cons, List.headD_cons, hloop, List.forall_mem_cons]

theorem lt_rowMin_cells {D : ℕ → ℕ → ℕ} {i m max : ℕ} :
    max < rowMin (cells D i 0 (m + 1)) ↔ ∀ k ≤ m, max < D i k := by
  rw [cells_succ, lt_rowMin_iff, ← cells_succ]
  constructor
  · intro h k hk
    exact h (D i k) (mem_cells.mpr ⟨k, Nat.zero_le k, by omega, rfl⟩)
  · intro h d hd
    obtain ⟨k, _, hk, rfl⟩ := mem_cells.mp hd
    exact h k (by omega)

theorem lastWithin_cells (D : ℕ → ℕ → ℕ) (i m max : ℕ) :
    lastWithin max (cells D i 0 (m + 1)) = atMost max (D i m) := by
  have hlast : (cells D i 0 (m + 1)).getLastD 0 = D i m := by
    rw [cells, List.range'_concat, List.map_append, List.map_singleton, List.getLastD_concat]
    simp
  rw [lastWithin, hlast, atMost]

theorem within_of_rowMin {D : ℕ → ℕ → ℕ} (hD : ∀ i j, ∃ k ≤ j, D i k ≤ D (i + 1) j)
    {i n m max : ℕ} (hi : i ≤ n) (h : max < rowMin (cells D i 0 (m + 1))) :
    atMost max (D n m) = none := by
  have hlt := exceeds_later hD (lt_rowMin_cells.mp h) (n - i) m (Nat.le_refl m)
  rw [Nat.add_sub_cancel' hi] at hlt
  exact if_pos hlt

/-! ### Walks along the two words -/

section Split

variable {α : Type}

/-- The element at the end of the part already walked. -/
theorem getElem?_split {a as xs : List α} {x : α} (h : as ++ x :: xs = a) :
    a[as.length]? = some x := by
  rw [← h, List.getElem?_append_right (Nat.le_refl _), Nat.sub_self]
  rfl

theorem split_next {a as xs : List α} {x : α} (h : as ++ x :: xs = a) : (as ++ [x]) ++ xs = a := by
  rw [← List.append_cons, h]

theorem length_snoc (as : List α) (x : α) : (as ++ [x]).length = as.length + 1 :=
  List.length_append

theorem length_split {a as xs : List α} {x : α} (h : as ++ x :: xs = a) :
    as.length + 1 ≤ a.length := by
  rw [← h, List.length_append, List.length_cons]
  omega

theorem drop_eq_cons {b ys : List α} {j : ℕ} {y : α} (h : b.drop j = y :: ys) :
    b[j]? = some y ∧ b.drop (j + 1) = ys := by
  rw [← List.head?_drop, ← List.tail_drop, h]
  exact ⟨rfl, rfl⟩

end Split

/-! ### `levenshtein` -/

section Rows

variable (a b : Text) (i : ℕ) {x : Char} (hx : a[i]? = some x)

include hx

theorem levenshteinRow_cells (j : ℕ) (ys : Text) (hys : b.drop j = ys) :
    levenshteinRow x ys (cells (editTable a b) i j (ys.length + 1)) (editTable a b (i + 1) j) =
      cells (editTable a b) (i + 1) (j + 1) ys.length := by
  induction ys generalizing j with
  | nil =>
    rw [List.length_nil, levenshteinRow]
    · rfl
    · simp
  | cons y ys ih =>
    obtain ⟨hy, hrest⟩ := drop_eq_cons hys
    have hcell : min (min (editTable a b i (j + 1) + 1) (editTable a b (i + 1) j + 1))
        (editTable a b i j + if x ≠ y then 1 else 0) = editTable a b (i + 1) (j + 1) := by
      rw [editTable_succ, hx, hy]
      simp only [Option.some.injEq, ne_eq, ite_not]
    rw [List.length_cons, cells_succ, cells_succ, levenshteinRow]
    simp only [hcell]
    rw [← cells_succ, ih (j + 1) hrest, ← cells_succ]

end Rows

theorem levenshteinRows_cells (a b : Text) (max : ℕ) (as xs : Text) (h : as ++ xs = a) :
    (levenshteinRows b max xs (as.length + 1)
        (cells (editTable a b) as.length 0 (b.length + 1))).bind (lastWithin max) =
      atMost max (editTable a b a.length b.length) := by
  induction xs generalizing as with
  | nil =>
    rw [List.append_nil] at h
    rw [levenshteinRows, Option.bind_some, lastWithin_cells, h]
  | cons x xs ih =>
    have hx := getElem?_split h
    have hrow := levenshteinRow_cells a b as.length hx 0 b rfl
    rw [editTable_zero_right] at hrow
    have hcurr : (as.length + 1) :: levenshteinRow x b
        (cells (editTable a b) as.length 0 (b.length + 1)) (as.length + 1) =
          cells (editTable a b) (as.length + 1) 0 (b.length + 1) := by
      rw [hrow, cells_succ, editTable_zero_right]
    rw [levenshteinRows]
    simp only [hcurr]
    split
    · rename_i hmin
      rw [within_of_rowMin (editTable_row a b) (length_split h) hmin]
      rfl
    · have hrest := ih (as ++ [x]) (split_next h)
      rwa [length_snoc] at hrest

theorem within_of_absDiff {a b max d : ℕ} (hab : a ≤ d + b ∧ b ≤ d + a) (h : absDiff a b > max) :
    atMost max d = none := by
  unfold absDiff at h
  exact if_pos (by omega)

theorem within_of_le {max d : ℕ} (h : d ≤ max) : atMost max d = some d :=
  if_neg (Nat.not_lt.mpr h)

theorem levenshtein_eq (a b : Text) (max : ℕ) :
    levenshtein a b max = atMost max (editTable a b a.length b.length) := by
  have hlen := osaTable_length a b a.length b.length
  have hle := osaTable_le a b a.length b.length
  unfold levenshtein
  split
  · rename_i hdiff
    rw [within_of_absDiff (by omega) hdiff]
  · rename_i hdiff
    unfold absDiff at hdiff
    split
    · rename_i ha
      rw [ha, editTable_zero_left, within_of_le (by omega)]
    · split
      · rename_i hb
        rw [hb, editTable_zero_right, within_of_le (by omega)]
      · rw [range_eq_cells (editTable_zero_left a b)]
        exact levenshteinRows_cells a b max [] a rfl

/-! ### `osa` -/

/-- The element before position `i`, if there is one. -/
def before (a : Text) (i : ℕ) : Option Char := if 0 < i then a[i - 1]? else none

theorem before_eq_some {a : Text} {i : ℕ} {c : Char} :
    before a i = some c ↔ 0 < i ∧ a[i - 1]? = some c := by
  unfold before
  split
  · rename_i hi
    exact ⟨fun h => ⟨hi, h⟩, fun h => h.2⟩
  · rename_i hi
    exact iff_of_false (by simp) fun h => hi h.1

theorem before_isSome {a : Text} {i : ℕ} (hi : i ≤ a.length) :
    (before a i).isSome = decide (0 < i) := by
  unfold before
  split
  · rename_i hpos
    have hlt : i - 1 < a.length := by omega
    rw [List.getElem?_eq_getElem hlt]
    simp [hpos]
  · rename_i hpos
    simp [hpos]

theorem before_succ {a : Text} {i : ℕ} {x : Char} (hx : a[i]? = some x) :
    before a (i + 1) = some x := by
  rw [before, if_pos (Nat.succ_pos i), Nat.add_sub_cancel, hx]

/-- The cell of the recurrence, from the cells beside it and the one two rows and columns
behind. -/
theorem osaTable_cell {a b : Text} {i j : ℕ} {x y : Char} (hx : a[i]? = some x)
    (hy : b[j]? = some y) {two : ℕ} (htwo : 0 < i → two = osaTable a b (i - 1) (j - 1)) :
    (if before b j = some x ∧ before a i = some y then
        min (min (min (osaTable a b i (j + 1) + 1) (osaTable a b (i + 1) j + 1))
          (osaTable a b i j + if x ≠ y then 1 else 0)) (two + 1)
      else min (min (osaTable a b i (j + 1) + 1) (osaTable a b (i + 1) j + 1))
        (osaTable a b i j + if x ≠ y then 1 else 0)) = osaTable a b (i + 1) (j + 1) := by
  have hswap : before b j = some x ∧ before a i = some y ↔
      0 < i ∧ 0 < j ∧ a[i]? = b[j - 1]? ∧ a[i - 1]? = b[j]? := by
    rw [before_eq_some, before_eq_some, hx, hy]
    constructor
    · rintro ⟨⟨hjpos, hbj⟩, hipos, hai⟩
      exact ⟨hipos, hjpos, hbj.symm, hai⟩
    · rintro ⟨hipos, hjpos, hbj, hai⟩
      exact ⟨⟨hjpos, hbj.symm⟩, hipos, hai⟩
  have hcost : (if x ≠ y then 1 else 0) = if a[i]? = b[j]? then 0 else 1 := by
    rw [hx, hy]
    simp only [Option.some.injEq, ne_eq, ite_not]
  rw [osaTable_succ, hcost]
  by_cases h : before b j = some x ∧ before a i = some y
  · rw [if_pos h, if_pos (hswap.mp h), htwo (hswap.mp h).1]
  · rw [if_neg h, if_neg fun h' => h (hswap.mpr h')]

section OsaRows

variable (a b : Text) (i : ℕ) {x : Char} (hx : a[i]? = some x)

include hx

/-- From the second cell on, `prev2` is read two cells behind. -/
theorem osaRow_cells (prev2 : List ℕ) (j : ℕ) (hj : j ≤ b.length)
    (hprev2 : 0 < i → prev2 = cells (osaTable a b) (i - 1) (j - 1) (b.length + 1 - (j - 1)))
    (ys : Text) (hys : b.drop j = ys) :
    osaRow (before a i) x (before b j) ys (cells (osaTable a b) i j (ys.length + 1)) prev2
        (osaTable a b (i + 1) j) =
      cells (osaTable a b) (i + 1) (j + 1) ys.length := by
  induction ys generalizing j prev2 with
  | nil =>
    rw [List.length_nil, osaRow]
    · rfl
    · simp
  | cons y ys ih =>
    obtain ⟨hy, hrest⟩ := drop_eq_cons hys
    have hlt : j < b.length := by
      by_contra hge
      rw [List.getElem?_eq_none (Nat.le_of_not_lt hge)] at hy
      cases hy
    have hnext := before_succ hy
    have htwo : 0 < i → prev2.headD 0 = osaTable a b (i - 1) (j - 1) := by
      intro hi
      have hlen : b.length + 1 - (j - 1) = b.length - (j - 1) + 1 := by omega
      rw [hprev2 hi, hlen, cells_succ, List.headD_cons]
    have hkept : 0 < i → (if (before b j).isSome then prev2.tail else prev2) =
        cells (osaTable a b) (i - 1) (j + 1 - 1) (b.length + 1 - (j + 1 - 1)) := by
      intro hi
      rw [before_isSome hj, hprev2 hi, Nat.add_sub_cancel]
      by_cases hpos : 0 < j
      · have hlen : b.length + 1 - (j - 1) = b.length + 1 - j + 1 := by omega
        rw [if_pos (by simpa using hpos), hlen, cells_succ, List.tail_cons,
          Nat.sub_add_cancel hpos]
      · have hzero : j = 0 := by omega
        rw [hzero, if_neg (by simp)]
    rw [List.length_cons, cells_succ, cells_succ, osaRow]
    simp only [osaTable_cell hx hy htwo]
    rw [← cells_succ, ← hnext, ih _ (j + 1) hlt hkept hrest, ← cells_succ]

end OsaRows

/-- Three rows are kept: the one before the last stands in for `prev2`. -/
theorem osaRows_cells (a b : Text) (max : ℕ) (as xs : Text) (h : as ++ xs = a) (prev2 : List ℕ)
    (hprev2 : 0 < as.length →
      prev2 = cells (osaTable a b) (as.length - 1) 0 (b.length + 1)) :
    (osaRows b max (before a as.length) xs (as.length + 1) prev2
        (cells (osaTable a b) as.length 0 (b.length + 1))).bind (lastWithin max) =
      atMost max (osaTable a b a.length b.length) := by
  induction xs generalizing as prev2 with
  | nil =>
    rw [List.append_nil] at h
    rw [osaRows, Option.bind_some, lastWithin_cells, h]
  | cons x xs ih =>
    have hx := getElem?_split h
    have hfirst : before b 0 = none := rfl
    have hrow := osaRow_cells a b as.length hx prev2 0 (Nat.zero_le _) hprev2 b rfl
    rw [osaTable_zero_right, hfirst] at hrow
    have hcurr : (as.length + 1) :: osaRow (before a as.length) x none b
        (cells (osaTable a b) as.length 0 (b.length + 1)) prev2 (as.length + 1) =
          cells (osaTable a b) (as.length + 1) 0 (b.length + 1) := by
      rw [hrow, cells_succ, osaTable_zero_right]
    have hbefore := before_succ hx
    rw [osaRows]
    simp only [hcurr]
    split
    · rename_i hmin
      rw [within_of_rowMin (osaTable_row a b) (length_split h) hmin]
      rfl
    · have hrest := ih (as ++ [x]) (split_next h)
        (cells (osaTable a b) as.length 0 (b.length + 1))
        fun _ => by rw [length_snoc, Nat.add_sub_cancel]
      rwa [length_snoc, hbefore] at hrest

theorem osa_eq (a b : Text) (max : ℕ) :
    osa a b max = atMost max (osaTable a b a.length b.length) := by
  have hlen := osaTable_length a b a.length b.length
  unfold osa
  split
  · rename_i hdiff
    rw [within_of_absDiff hlen hdiff]
  · rename_i hdiff
    unfold absDiff at hdiff
    split
    · rename_i ha
      rw [ha, osaTable_zero_left, within_of_le (by omega)]
    · split
      · rename_i hb
        rw [hb, osaTable_zero_right, within_of_le (by omega)]
      · rw [range_eq_cells (osaTable_zero_left a b)]
        exact osaRows_cells a b max [] a rfl _ fun h => absurd h (Nat.lt_irrefl 0)

end Unfydqry.Search
