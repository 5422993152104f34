import Unfydqry.Search.EditTable

/-! # The distances with their rolling buffers

The loops of the source with every index they take and every cell they write into a buffer that
still holds an older row; one out of range is a panic. They compute the rows of the recursive
form. -/

namespace Unfydqry.Search

/-- `xs[i] = v`. -/
def setAt (xs : List ℕ) (i v : ℕ) : Option (List ℕ) :=
  if i < xs.length then some (xs.set i v) else none

/-- The loop over `j` of `levenshtein`; it returns `curr` and `row_min`. -/
def levenshteinCells (a b : Text) (i : ℕ) (prev : List ℕ) :
    List ℕ → List ℕ → ℕ → Option (List ℕ × ℕ)
  | [], curr, rowMin => some (curr, rowMin)
  | j :: js, curr, rowMin => do
    let x ← a[i - 1]?
    let y ← b[j - 1]?
    let cost := if x ≠ y then 1 else 0
    let up ← prev[j]?
    let left ← curr[j - 1]?
    let diag ← prev[j - 1]?
    let v := min (min (up + 1) (left + 1)) (diag + cost)
    let curr ← setAt curr j v
    levenshteinCells a b i prev js curr (min rowMin v)

/-- The loop over `i`: after a row the two buffers are swapped. It returns `prev`, unless the
minimum of a row exceeds `max`. -/
def levenshteinLoop (a b : Text) (max : ℕ) :
    List ℕ → List ℕ → List ℕ → Option (Option (List ℕ))
  | [], prev, _ => some (some prev)
  | i :: is, prev, curr => do
    let curr ← setAt curr 0 i
    let (curr, rowMin) ← levenshteinCells a b i prev (List.range' 1 b.length) curr i
    if rowMin > max then some none else levenshteinLoop a b max is curr prev

/-- What is done with the last row. -/
def lastCell (m max : ℕ) : Option (List ℕ) → Option (Option ℕ)
  | none => some none
  | some prev => do
    let d ← prev[m]?
    some (if d > max then none else some d)

def levenshteinIndexed (a b : Text) (max : ℕ) : Option (Option ℕ) :=
  let n := a.length
  let m := b.length
  if absDiff n m > max then some none
  else if n = 0 then some (some m)
  else if m = 0 then some (some n)
  else do
    let last ← levenshteinLoop a b max (List.range' 1 n) (List.range (m + 1))
      (List.replicate (m + 1) 0)
    lastCell m max last

/-- `i > 1 && j > 1 && a[i - 1] == b[j - 2] && a[i - 2] == b[j - 1]`. -/
def swapped (a b : Text) (i j : ℕ) : Option Bool :=
  if i > 1 ∧ j > 1 then do
    let x ← a[i - 1]?
    let y ← b[j - 2]?
    if x = y then do
      let x ← a[i - 2]?
      let y ← b[j - 1]?
      some (x = y)
    else some false
  else some false

/-- `v = v.min(prev2[j - 2] + 1)` under that condition. -/
def exchanged (prev2 : List ℕ) (j v : ℕ) : Bool → Option ℕ
  | true => prev2[j - 2]?.map fun two => min v (two + 1)
  | false => some v

/-- The loop over `j` of `osa`. -/
def osaCells (a b : Text) (i : ℕ) (prev2 prev1 : List ℕ) :
    List ℕ → List ℕ → ℕ → Option (List ℕ × ℕ)
  | [], curr, rowMin => some (curr, rowMin)
  | j :: js, curr, rowMin => do
    let x ← a[i - 1]?
    let y ← b[j - 1]?
    let cost := if x ≠ y then 1 else 0
    let up ← prev1[j]?
    let left ← curr[j - 1]?
    let diag ← prev1[j - 1]?
    let v := min (min (up + 1) (left + 1)) (diag + cost)
    let exchange ← swapped a b i j
    let v ← exchanged prev2 j v exchange
    let curr ← setAt curr j v
    osaCells a b i prev2 prev1 js curr (min rowMin v)

/-- The loop over `i`: after a row the three buffers are rotated. -/
def osaLoop (a b : Text) (max : ℕ) :
    List ℕ → List ℕ → List ℕ → List ℕ → Option (Option (List ℕ))
  | [], _, prev1, _ => some (some prev1)
  | i :: is, prev2, prev1, curr => do
    let curr ← setAt curr 0 i
    let (curr, rowMin) ← osaCells a b i prev2 prev1 (List.range' 1 b.length) curr i
    if rowMin > max then some none else osaLoop a b max is prev1 curr prev2

def osaIndexed (a b : Text) (max : ℕ) : Option (Option ℕ) :=
  let n := a.length
  let m := b.length
  if absDiff n m > max then some none
  else if n = 0 then some (some m)
  else if m = 0 then some (some n)
  else do
    let last ← osaLoop a b max (List.range' 1 n) (List.replicate (m + 1) 0) (List.range (m + 1))
      (List.replicate (m + 1) 0)
    lastCell m max last

/-! ### Buffers -/

section Buffer

variable {α : Type} {xs : List α} {k : ℕ} (hk : xs.length = k) (x y : α) (ys : List α)

include hk

theorem getElem?_middle : (xs ++ x :: ys)[k]? = some x := by
  rw [← hk, getElem?_split rfl]

theorem getElem?_next : (xs ++ x :: y :: ys)[k + 1]? = some y := by
  rw [List.append_cons]
  exact getElem?_middle ((length_snoc xs x).trans (congrArg (· + 1) hk)) y ys

end Buffer

theorem cons_of_length {α : Type} {xs : List α} {n : ℕ} (h : xs.length = n + 1) :
    ∃ x ys, xs = x :: ys ∧ ys.length = n := by
  cases xs with
  | nil => cases h
  | cons x ys => exact ⟨x, ys, rfl, Nat.succ.inj h⟩

theorem setAt_next {xs : List ℕ} {k : ℕ} (hk : xs.length = k) (x y v : ℕ) (ys : List ℕ) :
    setAt (xs ++ x :: y :: ys) (k + 1) v = some (xs ++ x :: v :: ys) := by
  have hlt : k + 1 < (xs ++ x :: y :: ys).length := by
    rw [List.length_append, List.length_cons, List.length_cons]
    omega
  rw [setAt, if_pos hlt, List.set_append_right _ _ (by omega), hk, Nat.add_sub_cancel_left]
  rfl

/-! ### `levenshtein` -/

theorem length_levenshteinRow (x : Char) (ys : Text) (prev : List ℕ) (left : ℕ)
    (h : prev.length = ys.length + 1) : (levenshteinRow x ys prev left).length = ys.length := by
  induction ys generalizing prev left with
  | nil =>
    rw [levenshteinRow]
    · rfl
    · simp
  | cons y ys ih =>
    obtain ⟨diag, prev, rfl, hprev⟩ := cons_of_length h
    obtain ⟨up, prev, rfl, _⟩ := cons_of_length hprev
    rw [levenshteinRow, List.length_cons, List.length_cons, ih (up :: prev) _ hprev]

/-- `pre` are the cells written before `left`, `junk` is what is left of an older row. -/
theorem levenshteinCells_eq (a : Text) (i : ℕ) {x : Char} (hx : a[i]? = some x) (bs ys : Text)
    (ps prev : List ℕ) (hps : ps.length = bs.length) (hprev : prev.length = ys.length + 1)
    (pre junk : List ℕ) (hpre : pre.length = bs.length) (hjunk : junk.length = ys.length)
    (left rowMin : ℕ) :
    levenshteinCells a (bs ++ ys) (i + 1) (ps ++ prev) (List.range' (bs.length + 1) ys.length)
        (pre ++ left :: junk) rowMin =
      some (pre ++ left :: levenshteinRow x ys prev left,
        (levenshteinRow x ys prev left).foldl min rowMin) := by
  induction ys generalizing bs ps prev pre junk left rowMin with
  | nil =>
    rw [List.length_eq_zero_iff.mp hjunk, List.length_nil, List.range'_zero, levenshteinCells,
      levenshteinRow]
    · rfl
    · simp
  | cons y ys ih =>
    obtain ⟨diag, prev, rfl, htail⟩ := cons_of_length hprev
    obtain ⟨up, prev, rfl, _⟩ := cons_of_length htail
    obtain ⟨z, junk, rfl, hleft⟩ := cons_of_length hjunk
    rw [List.length_cons, List.range'_succ, levenshteinCells, levenshteinRow]
    simp only [Nat.add_sub_cancel, hx, getElem?_middle rfl, getElem?_middle hps,
      getElem?_next hps, getElem?_middle hpre, setAt_next hpre, Option.bind_eq_bind,
      Option.bind_some]
    have hrest := ih (bs ++ [y]) (ps ++ [diag]) (up :: prev) (by rw [length_snoc, length_snoc, hps])
      htail (pre ++ [left]) junk (by rw [length_snoc, length_snoc, hpre]) hleft
    rw [length_snoc] at hrest
    simp only [← List.append_cons] at hrest
    rw [hrest]
    rfl

theorem setAt_start {curr : List ℕ} {m : ℕ} (h : curr.length = m + 1) (i : ℕ) :
    ∃ junk, junk.length = m ∧ setAt curr 0 i = some (i :: junk) := by
  obtain ⟨c, junk, rfl, hjunk⟩ := cons_of_length h
  exact ⟨junk, hjunk, rfl⟩

theorem levenshteinLoop_eq (a b : Text) (max : ℕ) (as xs : Text) (h : as ++ xs = a)
    (prev curr : List ℕ) (hprev : prev.length = b.length + 1) (hcurr : curr.length = b.length + 1) :
    levenshteinLoop a b max (List.range' (as.length + 1) xs.length) prev curr =
      some (levenshteinRows b max xs (as.length + 1) prev) := by
  induction xs generalizing as prev curr with
  | nil => rfl
  | cons x xs ih =>
    have hx := getElem?_split h
    obtain ⟨junk, hjunk, hset⟩ := setAt_start hcurr (as.length + 1)
    have hcells := levenshteinCells_eq a as.length hx [] b [] prev rfl hprev [] junk rfl hjunk
      (as.length + 1) (as.length + 1)
    have hrow := length_levenshteinRow x b prev (as.length + 1) hprev
    have hrowMin : (levenshteinRow x b prev (as.length + 1)).foldl min (as.length + 1) =
        rowMin ((as.length + 1) :: levenshteinRow x b prev (as.length + 1)) := rfl
    simp only [List.nil_append, List.length_nil, Nat.zero_add, hrowMin] at hcells
    rw [List.length_cons, List.range'_succ, levenshteinLoop, levenshteinRows]
    simp only [hset, hcells, Option.bind_eq_bind, Option.bind_some]
    by_cases hmin : rowMin ((as.length + 1) :: levenshteinRow x b prev (as.length + 1)) > max
    · rw [if_pos hmin, if_pos hmin]
    · have hrest := ih (as ++ [x]) (split_next h)
        ((as.length + 1) :: levenshteinRow x b prev (as.length + 1)) prev
        (by rw [List.length_cons, hrow]) hprev
      rw [length_snoc] at hrest
      rw [if_neg hmin, if_neg hmin, hrest]

theorem lastCell_eq {m max : ℕ} {last : Option (List ℕ)}
    (h : ∀ row, last = some row → row.length = m + 1) :
    lastCell m max last = some (last.bind (lastWithin max)) := by
  cases last with
  | none => rfl
  | some row =>
    have hlen := h row rfl
    have hlast : row[m]? = some (row.getLastD 0) := by
      have hne : row ≠ [] := by
        rintro rfl
        simp at hlen
      rw [List.getLastD_eq_getLast?, List.getLast?_eq_getElem?, hlen, Nat.add_sub_cancel,
        List.getElem?_eq_getElem (by omega)]
      rfl
    simp only [lastCell, hlast, Option.bind_eq_bind, Option.bind_some, lastWithin]

theorem length_levenshteinRows {b : Text} {max : ℕ} (xs : Text) (i : ℕ) {prev row : List ℕ}
    (hprev : prev.length = b.length + 1) (h : levenshteinRows b max xs i prev = some row) :
    row.length = b.length + 1 := by
  induction xs generalizing i prev with
  | nil =>
    rw [levenshteinRows, Option.some.injEq] at h
    rw [← h, hprev]
  | cons x xs ih =>
    rw [levenshteinRows] at h
    split at h
    · cases h
    · exact ih (i + 1) (by rw [List.length_cons, length_levenshteinRow x b prev i hprev]) h

/-- No index is out of range, and swapping the buffers keeps the last row in `prev`. -/
theorem levenshteinIndexed_eq (a b : Text) (max : ℕ) :
    levenshteinIndexed a b max = some (levenshtein a b max) := by
  have hprev : (List.range (b.length + 1)).length = b.length + 1 := List.length_range
  have hloop := levenshteinLoop_eq a b max [] a rfl (List.range (b.length + 1))
    (List.replicate (b.length + 1) 0) hprev List.length_replicate
  rw [List.length_nil, Nat.zero_add] at hloop
  unfold levenshteinIndexed levenshtein
  simp only [hloop, Option.bind_eq_bind, Option.bind_some,
    lastCell_eq fun row h => length_levenshteinRows a 1 hprev h]
  split
  · rfl
  · split
    · rfl
    · split <;> rfl

/-! ### `osa` -/

theorem swapped_eq {a b : Text} {i j : ℕ} {x y : Char} (hx : a[i]? = some x) (hy : b[j]? = some y) :
    swapped a b (i + 1) (j + 1) =
      some (decide (before b j = some x ∧ before a i = some y)) := by
  unfold swapped before
  by_cases hi : 0 < i
  · by_cases hj : 0 < j
    · have ha : i - 1 < a.length := by
        have hlt := (List.getElem?_eq_some_iff.mp hx).1
        omega
      have hb : j - 1 < b.length := by
        have hlt := (List.getElem?_eq_some_iff.mp hy).1
        omega
      have htwo : ∀ k : ℕ, 0 < k → k + 1 - 2 = k - 1 := fun k _ => by omega
      rw [if_pos (by omega), if_pos hi, if_pos hj]
      simp only [Nat.add_sub_cancel, htwo i hi, htwo j hj, hx, hy, List.getElem?_eq_getElem ha,
        List.getElem?_eq_getElem hb, Option.bind_eq_bind, Option.bind_some, Option.some.injEq]
      by_cases hxy : x = b[j - 1]
      · simp [hxy]
      · simp [hxy, Ne.symm hxy]
    · rw [if_neg (by omega), if_neg hj]
      simp
  · rw [if_neg (by omega), if_neg hi]
    simp

theorem length_osaRow (px : Option Char) (x : Char) (py : Option Char) (ys : Text)
    (prev1 prev2 : List ℕ) (left : ℕ) (h : prev1.length = ys.length + 1) :
    (osaRow px x py ys prev1 prev2 left).length = ys.length := by
  induction ys generalizing py prev1 prev2 left with
  | nil =>
    rw [osaRow]
    · rfl
    · simp
  | cons y ys ih =>
    obtain ⟨diag, prev1, rfl, hprev⟩ := cons_of_length h
    obtain ⟨up, prev1, rfl, _⟩ := cons_of_length hprev
    rw [osaRow, List.length_cons, List.length_cons, ih (some y) (up :: prev1) _ _ hprev]

theorem exchanged_eq {prev2 : List ℕ} {k : ℕ} (hk : k ≤ prev2.length) {P : Prop} [Decidable P]
    (hpos : P → 0 < k) (v : ℕ) :
    exchanged prev2 (k + 1) v (decide P) =
      some (if P then min v ((prev2.drop (k - 1)).headD 0 + 1) else v) := by
  by_cases h : P
  · have hlt : k - 1 < prev2.length := by
      have hone := hpos h
      omega
    have htwo : k + 1 - 2 = k - 1 := by omega
    rw [if_pos h, decide_eq_true h, exchanged, htwo, List.getElem?_eq_getElem hlt,
      List.drop_eq_getElem_cons hlt]
    rfl
  · rw [if_neg h, decide_eq_false h, exchanged]

theorem drop_kept {b : Text} {k : ℕ} (hk : k ≤ b.length) (prev2 : List ℕ) :
    (if (before b k).isSome then (prev2.drop (k - 1)).tail else prev2.drop (k - 1)) =
      prev2.drop k := by
  rw [before_isSome hk]
  by_cases hpos : 0 < k
  · rw [if_pos (by simpa using hpos), List.tail_drop, Nat.sub_add_cancel hpos]
  · have hzero : k = 0 := by omega
    rw [hzero, if_neg (by simp)]

/-- The row two above stays whole; the recursive form keeps the part that is still read. -/
theorem osaCells_eq (a : Text) (i : ℕ) {x : Char} (hx : a[i]? = some x) (bs ys : Text)
    (prev2 ps prev : List ℕ) (hprev2 : prev2.length = (bs ++ ys).length + 1)
    (hps : ps.length = bs.length) (hprev : prev.length = ys.length + 1)
    (pre junk : List ℕ) (hpre : pre.length = bs.length) (hjunk : junk.length = ys.length)
    (left rowMin : ℕ) :
    osaCells a (bs ++ ys) (i + 1) prev2 (ps ++ prev) (List.range' (bs.length + 1) ys.length)
        (pre ++ left :: junk) rowMin =
      some (pre ++ left :: osaRow (before a i) x (before (bs ++ ys) bs.length) ys prev
          (prev2.drop (bs.length - 1)) left,
        (osaRow (before a i) x (before (bs ++ ys) bs.length) ys prev
          (prev2.drop (bs.length - 1)) left).foldl min rowMin) := by
  induction ys generalizing bs ps prev pre junk left rowMin with
  | nil =>
    rw [List.length_eq_zero_iff.mp hjunk, List.length_nil, List.range'_zero, osaCells, osaRow]
    · rfl
    · simp
  | cons y ys ih =>
    obtain ⟨diag, prev, rfl, htail⟩ := cons_of_length hprev
    obtain ⟨up, prev, rfl, _⟩ := cons_of_length htail
    obtain ⟨z, junk, rfl, hleft⟩ := cons_of_length hjunk
    have hy : (bs ++ y :: ys)[bs.length]? = some y := getElem?_split rfl
    have hle : bs.length ≤ (bs ++ y :: ys).length := by
      rw [List.length_append]
      omega
    have hbefore := before_succ hy
    have hlong : bs.length ≤ prev2.length := by
      rw [hprev2]
      exact Nat.le_succ_of_le hle
    have hexchange := exchanged_eq (P := before (bs ++ y :: ys) bs.length = some x ∧
      before a i = some y) hlong fun h => (before_eq_some.mp h.1).1
    rw [List.length_cons, List.range'_succ, osaCells, osaRow]
    simp only [Nat.add_sub_cancel, hx, hy, getElem?_middle hps, getElem?_next hps,
      getElem?_middle hpre, swapped_eq hx hy, hexchange, setAt_next hpre, drop_kept hle,
      Option.bind_eq_bind, Option.bind_some]
    have hrest := ih (bs ++ [y]) (ps ++ [diag]) (up :: prev)
      (by rw [hprev2, ← List.append_cons]) (by rw [length_snoc, length_snoc, hps])
      htail (pre ++ [left]) junk (by rw [length_snoc, length_snoc, hpre]) hleft
    rw [length_snoc] at hrest
    simp only [← List.append_cons, hbefore, Nat.add_sub_cancel] at hrest
    rw [hrest]
    rfl

theorem osaLoop_eq (a b : Text) (max : ℕ) (as xs : Text) (h : as ++ xs = a)
    (prev2 prev1 curr : List ℕ) (hprev2 : prev2.length = b.length + 1)
    (hprev1 : prev1.length = b.length + 1) (hcurr : curr.length = b.length + 1) :
    osaLoop a b max (List.range' (as.length + 1) xs.length) prev2 prev1 curr =
      some (osaRows b max (before a as.length) xs (as.length + 1) prev2 prev1) := by
  induction xs generalizing as prev2 prev1 curr with
  | nil => rfl
  | cons x xs ih =>
    have hx := getElem?_split h
    have hbefore := before_succ hx
    have hfirst : before b 0 = none := rfl
    obtain ⟨junk, hjunk, hset⟩ := setAt_start hcurr (as.length + 1)
    have hcells := osaCells_eq a as.length hx [] b prev2 [] prev1 hprev2 rfl hprev1 [] junk rfl
      hjunk (as.length + 1) (as.length + 1)
    have hrow := length_osaRow (before a as.length) x none b prev1 prev2 (as.length + 1) hprev1
    have hrowMin : (osaRow (before a as.length) x none b prev1 prev2 (as.length + 1)).foldl min
        (as.length + 1) = rowMin ((as.length + 1) ::
          osaRow (before a as.length) x none b prev1 prev2 (as.length + 1)) := rfl
    simp only [List.nil_append, List.length_nil, Nat.zero_add, Nat.zero_sub, List.drop_zero, hfirst,
      hrowMin] at hcells
    rw [List.length_cons, List.range'_succ, osaLoop, osaRows]
    simp only [hset, hcells, Option.bind_eq_bind, Option.bind_some]
    by_cases hmin : rowMin ((as.length + 1) ::
        osaRow (before a as.length) x none b prev1 prev2 (as.length + 1)) > max
    · rw [if_pos hmin, if_pos hmin]
    · have hrest := ih (as ++ [x]) (split_next h) prev1
        ((as.length + 1) :: osaRow (before a as.length) x none b prev1 prev2 (as.length + 1)) prev2
        hprev1 (by rw [List.length_cons, hrow]) hprev2
      rw [length_snoc, hbefore] at hrest
      rw [if_neg hmin, if_neg hmin, hrest]

theorem length_osaRows {b : Text} {max : ℕ} (px : Option Char) (xs : Text) (i : ℕ)
    {prev2 prev1 row : List ℕ} (hprev1 : prev1.length = b.length + 1)
    (h : osaRows b max px xs i prev2 prev1 = some row) : row.length = b.length + 1 := by
  induction xs generalizing px i prev2 prev1 with
  | nil =>
    rw [osaRows, Option.some.injEq] at h
    rw [← h, hprev1]
  | cons x xs ih =>
    rw [osaRows] at h
    split at h
    · cases h
    · exact ih (some x) (i + 1)
        (by rw [List.length_cons, length_osaRow px x none b prev1 prev2 i hprev1]) h

/-- No index is out of range, and rotating the buffers keeps the last two rows in place. -/
theorem osaIndexed_eq (a b : Text) (max : ℕ) : osaIndexed a b max = some (osa a b max) := by
  have hprev1 : (List.range (b.length + 1)).length = b.length + 1 := List.length_range
  have hloop := osaLoop_eq a b max [] a rfl (List.replicate (b.length + 1) 0)
    (List.range (b.length + 1)) (List.replicate (b.length + 1) 0) List.length_replicate hprev1
    List.length_replicate
  have hfirst : before a 0 = none := rfl
  rw [List.length_nil, Nat.zero_add, hfirst] at hloop
  unfold osaIndexed osa
  simp only [hloop, Option.bind_eq_bind, Option.bind_some,
    lastCell_eq fun row h => length_osaRows none a 1 hprev1 h]
  split
  · rfl
  · split
    · rfl
    · split <;> rfl

end Unfydqry.Search
