import Mathlib.Algebra.BigOperators.Group.List.Basic
import Mathlib.Algebra.GroupWithZero.Nat

/-! # Two lists that agree but for some blocks

The blocks are listed in order, each as it stands on the left and on the right. -/

namespace Blocks

variable {α β : Type}

inductive Differ : List (List α × List α) → List α → List α → Prop where
  | nil : Differ [] [] []
  | same (a : α) {bs : List (List α × List α)} {s t : List α} (h : Differ bs s t) :
    Differ bs (a :: s) (a :: t)
  | block (p q : List α) {bs : List (List α × List α)} {s t : List α} (h : Differ bs s t) :
    Differ ((p, q) :: bs) (p ++ s) (q ++ t)

variable {bs : List (List α × List α)} {s t : List α}

theorem Differ.refl (s : List α) : Differ [] s s := by
  induction s with
  | nil => exact .nil
  | cons a s ih => exact .same a ih

theorem Differ.prepend (h : Differ bs s t) (p : List α) : Differ bs (p ++ s) (p ++ t) := by
  induction p with
  | nil => exact h
  | cons a p ih => exact .same a ih

theorem Differ.flatMap (h : Differ bs s t) (g : α → List β) :
    Differ (bs.map fun b => (b.1.flatMap g, b.2.flatMap g)) (s.flatMap g) (t.flatMap g) := by
  induction h with
  | nil => exact .nil
  | same a h ih =>
    rw [List.flatMap_cons, List.flatMap_cons]
    exact ih.prepend (g a)
  | block p q h ih =>
    rw [List.flatMap_append, List.flatMap_append, List.map_cons]
    exact .block _ _ ih

theorem Differ.map (h : Differ bs s t) (g : α → β) :
    Differ (bs.map fun b => (b.1.map g, b.2.map g)) (s.map g) (t.map g) := by
  induction h with
  | nil => exact .nil
  | same a h ih => exact .same (g a) ih
  | block p q h ih =>
    rw [List.map_append, List.map_append, List.map_cons]
    exact .block _ _ ih

/-- A view of lists that their parts determine sees no difference if it sees none in the
blocks. -/
theorem Differ.congr (h : Differ bs s t) {F : List α → β}
    (hF : ∀ {p q s t}, F p = F q → F s = F t → F (p ++ s) = F (q ++ t))
    (hbs : ∀ b ∈ bs, F b.1 = F b.2) : F s = F t := by
  induction h with
  | nil => rfl
  | same a h ih => exact hF (p := [a]) (q := [a]) rfl (ih hbs)
  | block p q h ih =>
    rw [List.forall_mem_cons] at hbs
    exact hF hbs.1 (ih hbs.2)

theorem Differ.eq (h : Differ bs s t) (hbs : ∀ b ∈ bs, b.1 = b.2) : s = t :=
  h.congr (F := id) (fun hp hs => congrArg₂ (· ++ ·) hp hs) hbs

/-- Blocks of one weight differ in the lists. -/
theorem Differ.eq_iff (h : Differ bs s t) (w : α → ℕ) (hw : ∀ a, 0 < w a)
    (hbs : ∀ b ∈ bs, (b.1.map w).sum = (b.2.map w).sum) : s = t ↔ ∀ b ∈ bs, b.1 = b.2 := by
  have hempty : ∀ e : List α, (e.map w).sum = 0 → e = [] := by
    intro e he
    cases e with
    | nil => rfl
    | cons a e =>
      have ha := hw a
      rw [List.map_cons, List.sum_cons] at he
      omega
  refine ⟨fun heq => ?_, h.eq⟩
  induction h with
  | nil => exact fun b hb => by cases hb
  | same a h ih => exact ih hbs (List.cons.inj heq).2
  | block p q h ih =>
    rw [List.forall_mem_cons] at hbs ⊢
    have hsum : (p.map w).sum = (q.map w).sum := hbs.1
    have hpq : p = q := by
      rcases List.append_eq_append_iff.mp heq with ⟨e, rfl, _⟩ | ⟨e, rfl, _⟩
      · rw [List.map_append, List.sum_append] at hsum
        rw [hempty e (by omega), List.append_nil]
      · rw [List.map_append, List.sum_append] at hsum
        rw [hempty e (by omega), List.append_nil]
    subst hpq
    exact ⟨rfl, ih hbs.2 (List.append_cancel_left heq)⟩

/-- Where no block has more of the elements on the right, none has fewer if the lists have as
many. -/
theorem Differ.countP_le (h : Differ bs s t) {p : α → Bool}
    (hbs : ∀ b ∈ bs, b.2.countP p ≤ b.1.countP p) : t.countP p ≤ s.countP p ∧
      (t.countP p = s.countP p → ∀ b ∈ bs, b.2.countP p = b.1.countP p) := by
  induction h with
  | nil => exact ⟨Nat.le_refl 0, by simp⟩
  | same a h ih =>
    obtain ⟨hle, heq⟩ := ih hbs
    rw [List.countP_cons, List.countP_cons]
    exact ⟨by omega, fun h => heq (by omega)⟩
  | block p' q' h ih =>
    rw [List.forall_mem_cons] at hbs
    obtain ⟨hle, heq⟩ := ih hbs.2
    have hblock : q'.countP p ≤ p'.countP p := hbs.1
    rw [List.countP_append, List.countP_append, List.forall_mem_cons]
    exact ⟨by omega, fun h => ⟨by dsimp only; omega, heq (by omega)⟩⟩

theorem Differ.proper [DecidableEq α] (h : Differ bs s t) :
    Differ (bs.filter fun b => b.1 ≠ b.2) s t := by
  induction h with
  | nil => exact .nil
  | same a h ih => exact .same a ih
  | block p q h ih =>
    rw [List.filter_cons]
    split
    · exact .block p q ih
    · rename_i hpq
      obtain rfl : p = q := by simpa using hpq
      exact ih.prepend p

end Blocks
