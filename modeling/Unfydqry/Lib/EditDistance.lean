import Mathlib.Data.List.Basic
import Mathlib.Order.Bounds.Basic

/-! # Edit distances

The least number of insertions, deletions and substitutions between two lists by recursion on
the lists, and the tables of the usual recurrences over their prefixes, with and without the
exchange of neighbours. No cell is less than every cell of the row above it. -/

namespace Unfydqry.EditDistance

variable {α : Type}

/-- One insertion, deletion or substitution. -/
inductive Edit : List α → List α → Prop where
  | insert (u v : List α) (x : α) : Edit (u ++ v) (u ++ x :: v)
  | delete (u v : List α) (x : α) : Edit (u ++ x :: v) (u ++ v)
  | substitute (u v : List α) (x y : α) : Edit (u ++ x :: v) (u ++ y :: v)

/-- `n` edits one after another. -/
inductive Edits : ℕ → List α → List α → Prop where
  | none (a : List α) : Edits 0 a a
  | step {n : ℕ} {a b c : List α} (first : Edit a b) (rest : Edits n b c) : Edits (n + 1) a c

theorem Edit.cons {a b : List α} (h : Edit a b) (z : α) : Edit (z :: a) (z :: b) := by
  cases h with
  | insert u v x => exact .insert (z :: u) v x
  | delete u v x => exact .delete (z :: u) v x
  | substitute u v x y => exact .substitute (z :: u) v x y

theorem Edits.cons {n : ℕ} {a b : List α} (h : Edits n a b) (z : α) :
    Edits n (z :: a) (z :: b) := by
  induction h with
  | none a => exact .none (z :: a)
  | step first _ ih => exact .step (first.cons z) ih

theorem Edit.reverse {a b : List α} (h : Edit a b) : Edit a.reverse b.reverse := by
  cases h with
  | insert u v x => simpa using Edit.insert v.reverse u.reverse x
  | delete u v x => simpa using Edit.delete v.reverse u.reverse x
  | substitute u v x y => simpa using Edit.substitute v.reverse u.reverse x y

theorem Edits.reverse {n : ℕ} {a b : List α} (h : Edits n a b) : Edits n a.reverse b.reverse := by
  induction h with
  | none a => exact .none a.reverse
  | step first _ ih => exact .step first.reverse ih

theorem edits_nil_left (b : List α) : Edits b.length [] b := by
  induction b with
  | nil => exact .none []
  | cons y b ih => exact .step (.insert [] [] y) (ih.cons y)

theorem edits_nil_right (a : List α) : Edits a.length a [] := by
  induction a with
  | nil => exact .none []
  | cons x a ih => exact .step (.delete [] a x) ih

variable [DecidableEq α]

def cost (x y : α) : ℕ := if x = y then 0 else 1

/-- The recursion on the first elements. -/
def editDist : List α → List α → ℕ
  | [], b => b.length
  | _ :: a, [] => a.length + 1
  | x :: a, y :: b =>
    min (min (editDist a (y :: b) + 1) (editDist (x :: a) b + 1)) (editDist a b + cost x y)
termination_by a b => a.length + b.length

theorem editDist_nil_left (b : List α) : editDist [] b = b.length := by rw [editDist]

theorem editDist_nil_right (a : List α) : editDist a [] = a.length := by
  cases a with
  | nil => rw [editDist]
  | cons x a => rw [editDist, List.length_cons]

theorem editDist_cons (x y : α) (a b : List α) :
    editDist (x :: a) (y :: b) =
      min (min (editDist a (y :: b) + 1) (editDist (x :: a) b + 1)) (editDist a b + cost x y) := by
  rw [editDist]

theorem cost_le_one (x y : α) : cost x y ≤ 1 := by
  unfold cost
  split <;> omega

/-! ### The recursion is the least number of edits -/

theorem edits_editDist (a b : List α) : Edits (editDist a b) a b := by
  induction a, b using editDist.induct with
  | case1 b =>
    rw [editDist_nil_left]
    exact edits_nil_left b
  | case2 x a =>
    rw [editDist_nil_right]
    exact edits_nil_right (x :: a)
  | case3 x a y b hdelete hinsert hboth =>
    have hkeep : Edits (editDist a b + cost x y) (x :: a) (y :: b) := by
      unfold cost
      split
      · rename_i heq
        rw [heq]
        exact hboth.cons y
      · exact .step (.substitute [] a x y) (hboth.cons y)
    have hdel : Edits (editDist a (y :: b) + 1) (x :: a) (y :: b) := .step (.delete [] a x) hdelete
    have hins : Edits (editDist (x :: a) b + 1) (x :: a) (y :: b) :=
      .step (.insert [] (x :: a) y) (hinsert.cons y)
    have hmin : editDist (x :: a) (y :: b) = editDist a (y :: b) + 1 ∨
        editDist (x :: a) (y :: b) = editDist (x :: a) b + 1 ∨
        editDist (x :: a) (y :: b) = editDist a b + cost x y := by
      rw [editDist_cons]
      omega
    rcases hmin with h | h | h
    · exact h ▸ hdel
    · exact h ▸ hins
    · exact h ▸ hkeep

theorem editDist_self (a : List α) : editDist a a = 0 := by
  induction a with
  | nil => rw [editDist_nil_left, List.length_nil]
  | cons x a ih =>
    rw [editDist_cons, ih, cost, if_pos rfl]
    omega

/-- Going on from `a` instead of `b` saves at most one edit. -/
def Near (a b : List α) : Prop := ∀ c, editDist a c ≤ editDist b c + 1

theorem near_delete (x : α) (a : List α) : Near (x :: a) a := by
  intro c
  cases c with
  | nil => rw [editDist_nil_right, editDist_nil_right, List.length_cons]
  | cons z c =>
    rw [editDist_cons]
    omega

theorem editDist_insert (a : List α) (z : α) (c : List α) :
    editDist a (z :: c) ≤ editDist a c + 1 := by
  cases a with
  | nil => rw [editDist_nil_left, editDist_nil_left, List.length_cons]
  | cons x a =>
    rw [editDist_cons]
    omega

theorem near_insert (x : α) (a : List α) : Near a (x :: a) := by
  intro c
  induction c with
  | nil =>
    rw [editDist_nil_right, editDist_nil_right, List.length_cons]
    omega
  | cons z c ih =>
    have hz := editDist_insert a z c
    rw [editDist_cons]
    omega

theorem near_substitute (x y : α) (a : List α) : Near (x :: a) (y :: a) := by
  intro c
  induction c with
  | nil =>
    rw [editDist_nil_right, editDist_nil_right, List.length_cons, List.length_cons]
    omega
  | cons z c ih =>
    have hx := cost_le_one x z
    rw [editDist_cons, editDist_cons]
    omega

theorem Near.cons {a b : List α} (h : Near a b) (z : α) : Near (z :: a) (z :: b) := by
  intro c
  induction c with
  | nil =>
    have hnil := h []
    rw [editDist_nil_right, editDist_nil_right] at *
    rw [List.length_cons, List.length_cons]
    omega
  | cons w c ih =>
    have hdelete := h (w :: c)
    have hboth := h c
    rw [editDist_cons, editDist_cons]
    omega

theorem Near.append {a b : List α} (h : Near a b) (u : List α) : Near (u ++ a) (u ++ b) := by
  induction u with
  | nil => exact h
  | cons z u ih => exact ih.cons z

theorem near_of_edit {a b : List α} (h : Edit a b) : Near a b := by
  cases h with
  | insert u v x => exact (near_insert x v).append u
  | delete u v x => exact (near_delete x v).append u
  | substitute u v x y => exact (near_substitute x y v).append u

theorem editDist_le {n : ℕ} {a b : List α} (h : Edits n a b) : editDist a b ≤ n := by
  induction h with
  | none a => exact (editDist_self a).le
  | @step n a b c first _ ih =>
    have hnear := near_of_edit first c
    omega

/-- The recursion computes the least number of edits. -/
theorem isLeast_editDist (a b : List α) : IsLeast {n | Edits n a b} (editDist a b) :=
  ⟨edits_editDist a b, fun _ h => editDist_le h⟩

theorem editDist_reverse (a b : List α) : editDist a.reverse b.reverse = editDist a b := by
  have hle : ∀ a b : List α, editDist a.reverse b.reverse ≤ editDist a b := fun a b =>
    editDist_le (edits_editDist a b).reverse
  apply Nat.le_antisymm (hle a b)
  have hback := hle a.reverse b.reverse
  rwa [List.reverse_reverse, List.reverse_reverse] at hback

/-! ### The tables over prefixes -/

/-- The cell for the first `i` elements of `a` and the first `j` of `b`: delete, insert,
substitute. -/
def editTable (a b : List α) : ℕ → ℕ → ℕ
  | 0, j => j
  | i + 1, 0 => i + 1
  | i + 1, j + 1 =>
    min (min (editTable a b i (j + 1) + 1) (editTable a b (i + 1) j + 1))
      (editTable a b i j + if a[i]? = b[j]? then 0 else 1)
termination_by i j => i + j

/-- The cell with the exchange of two neighbours as one more edit. -/
def osaTable (a b : List α) : ℕ → ℕ → ℕ
  | 0, j => j
  | i + 1, 0 => i + 1
  | i + 1, j + 1 =>
    let v := min (min (osaTable a b i (j + 1) + 1) (osaTable a b (i + 1) j + 1))
      (osaTable a b i j + if a[i]? = b[j]? then 0 else 1)
    if 0 < i ∧ 0 < j ∧ a[i]? = b[j - 1]? ∧ a[i - 1]? = b[j]? then
      min v (osaTable a b (i - 1) (j - 1) + 1)
    else v
termination_by i j => i + j

section Tables

variable (a b : List α) (i j : ℕ)

theorem editTable_zero_left : editTable a b 0 j = j := by rw [editTable]

theorem editTable_zero_right : editTable a b i 0 = i := by
  cases i <;> rw [editTable]

theorem editTable_succ : editTable a b (i + 1) (j + 1) =
    min (min (editTable a b i (j + 1) + 1) (editTable a b (i + 1) j + 1))
      (editTable a b i j + if a[i]? = b[j]? then 0 else 1) := by rw [editTable]

theorem osaTable_zero_left : osaTable a b 0 j = j := by rw [osaTable]

theorem osaTable_zero_right : osaTable a b i 0 = i := by
  cases i <;> rw [osaTable]

theorem osaTable_succ : osaTable a b (i + 1) (j + 1) =
    if 0 < i ∧ 0 < j ∧ a[i]? = b[j - 1]? ∧ a[i - 1]? = b[j]? then
      min (min (min (osaTable a b i (j + 1) + 1) (osaTable a b (i + 1) j + 1))
        (osaTable a b i j + if a[i]? = b[j]? then 0 else 1)) (osaTable a b (i - 1) (j - 1) + 1)
    else min (min (osaTable a b i (j + 1) + 1) (osaTable a b (i + 1) j + 1))
      (osaTable a b i j + if a[i]? = b[j]? then 0 else 1) := by rw [osaTable]

theorem editTable_eq (hi : i ≤ a.length) (hj : j ≤ b.length) :
    editTable a b i j = editDist (a.take i).reverse (b.take j).reverse := by
  induction i, j using editTable.induct with
  | case1 j =>
    rw [editTable_zero_left, List.take_zero, List.reverse_nil, editDist_nil_left,
      List.length_reverse, List.length_take, Nat.min_eq_left hj]
  | case2 i =>
    rw [editTable_zero_right, List.take_zero, List.reverse_nil, editDist_nil_right,
      List.length_reverse, List.length_take, Nat.min_eq_left hi]
  | case3 i j hup hleft hdiag =>
    have hlast : ∀ (l : List α) (k : ℕ) (hk : k < l.length),
        (l.take (k + 1)).reverse = l[k] :: (l.take k).reverse := by
      intro l k hk
      rw [List.take_succ_eq_append_getElem hk, List.reverse_append]
      rfl
    have hcost : (if a[i]? = b[j]? then 0 else 1) = cost a[i] b[j] := by
      simp only [List.getElem?_eq_getElem hi, List.getElem?_eq_getElem hj, Option.some.injEq, cost]
    have hup := hup (by omega) hj
    have hleft := hleft hi (by omega)
    rw [hlast b j hj] at hup
    rw [hlast a i hi] at hleft
    rw [editTable_succ, hup, hleft, hdiag (by omega) (by omega), hcost, hlast a i hi, hlast b j hj,
      editDist_cons]

theorem osaTable_le : osaTable a b i j ≤ editTable a b i j := by
  induction i, j using editTable.induct with
  | case1 j => rw [osaTable_zero_left, editTable_zero_left]
  | case2 i => rw [osaTable_zero_right, editTable_zero_right]
  | case3 i j hup hleft hdiag =>
    rw [osaTable_succ, editTable_succ]
    split <;> omega

theorem osaTable_length : i ≤ osaTable a b i j + j ∧ j ≤ osaTable a b i j + i := by
  induction i, j using osaTable.induct a b with
  | case1 j =>
    rw [osaTable_zero_left]
    omega
  | case2 i =>
    rw [osaTable_zero_right]
    omega
  | case3 i j h hup hleft hdiag hswap =>
    rw [osaTable_succ, if_pos h]
    omega
  | case4 i j h hup hleft hdiag =>
    rw [osaTable_succ, if_neg h]
    omega

theorem editTable_row : ∃ k ≤ j, editTable a b i k ≤ editTable a b (i + 1) j := by
  induction j with
  | zero =>
    refine ⟨0, Nat.le_refl 0, ?_⟩
    rw [editTable_zero_right, editTable_zero_right]
    omega
  | succ j ih =>
    obtain ⟨k, hk, hle⟩ := ih
    have hmin := editTable_succ a b i j
    have hcase : editTable a b i (j + 1) ≤ editTable a b (i + 1) (j + 1) ∨
        editTable a b (i + 1) j ≤ editTable a b (i + 1) (j + 1) ∨
        editTable a b i j ≤ editTable a b (i + 1) (j + 1) := by omega
    rcases hcase with h | h | h
    · exact ⟨j + 1, Nat.le_refl _, h⟩
    · exact ⟨k, by omega, by omega⟩
    · exact ⟨j, by omega, h⟩

theorem osaTable_below : osaTable a b (i + 1) j ≤ osaTable a b i j + 1 := by
  cases j with
  | zero => rw [osaTable_zero_right, osaTable_zero_right]
  | succ j =>
    rw [osaTable_succ]
    split <;> omega

/-- An exchange reads the row before the one above, whose cells are within one edit of the
row above. -/
theorem osaTable_row : ∃ k ≤ j, osaTable a b i k ≤ osaTable a b (i + 1) j := by
  induction j with
  | zero =>
    refine ⟨0, Nat.le_refl 0, ?_⟩
    rw [osaTable_zero_right, osaTable_zero_right]
    omega
  | succ j ih =>
    obtain ⟨k, hk, hle⟩ := ih
    have hcase : osaTable a b i (j + 1) ≤ osaTable a b (i + 1) (j + 1) ∨
        osaTable a b (i + 1) j ≤ osaTable a b (i + 1) (j + 1) ∨
        osaTable a b i j ≤ osaTable a b (i + 1) (j + 1) ∨
        0 < i ∧ osaTable a b (i - 1) (j - 1) + 1 ≤ osaTable a b (i + 1) (j + 1) := by
      rw [osaTable_succ]
      split <;> omega
    rcases hcase with h | h | h | ⟨hi, h⟩
    · exact ⟨j + 1, Nat.le_refl _, h⟩
    · exact ⟨k, by omega, by omega⟩
    · exact ⟨j, by omega, h⟩
    · have hbelow := osaTable_below a b (i - 1) (j - 1)
      rw [Nat.sub_add_cancel hi] at hbelow
      exact ⟨j - 1, by omega, by omega⟩

end Tables

theorem exceeds_later {D : ℕ → ℕ → ℕ} (hD : ∀ i j, ∃ k ≤ j, D i k ≤ D (i + 1) j) {i m max : ℕ}
    (hrow : ∀ k ≤ m, max < D i k) (t : ℕ) : ∀ j ≤ m, max < D (i + t) j := by
  induction t with
  | zero => exact hrow
  | succ t ih =>
    intro j hj
    obtain ⟨k, hk, hle⟩ := hD (i + t) j
    have hlt := ih k (by omega)
    rw [← Nat.add_assoc]
    omega

end Unfydqry.EditDistance
