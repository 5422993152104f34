import Mathlib.Data.List.Perm.Basic
import Mathlib.Data.List.Chain

/-! # Canonical ordering of combining marks

Every element has a combining class; an element of class 0 is a starter. Canonical
ordering sorts each run of non-starters by class and keeps the order within a class. -/

namespace CanonicalOrder

variable {α : Type} (ccc : α → ℕ)

/-- Move `c` behind the non-starters of a lower class at the head of the list. -/
def insert (c : α) : List α → List α
  | [] => [c]
  | x :: s => if 0 < ccc x ∧ ccc x < ccc c then x :: insert c s else c :: x :: s

def reorder : List α → List α
  | [] => []
  | c :: s => insert ccc c (reorder s)

/-- No non-starter stands right after one of a higher class. -/
def Ordered (s : List α) : Prop := s.IsChain fun a b => ccc b = 0 ∨ ccc a ≤ ccc b

theorem insert_perm (c : α) (s : List α) : (insert ccc c s).Perm (c :: s) := by
  induction s with
  | nil => exact List.Perm.refl _
  | cons x s ih =>
    unfold insert
    split
    · exact (ih.cons x).trans (List.Perm.swap c x s)
    · exact List.Perm.refl _

theorem reorder_perm (s : List α) : (reorder ccc s).Perm s := by
  induction s with
  | nil => exact List.Perm.refl _
  | cons c s ih => exact (insert_perm ccc c _).trans (ih.cons c)

variable {ccc}

theorem insert_starter {c : α} (h : ccc c = 0) (s : List α) : insert ccc c s = c :: s := by
  cases s with
  | nil => rfl
  | cons x s =>
    rw [insert, if_neg]
    omega

/-- A starter keeps apart what stands before and after it. -/
theorem insert_append_starter {k : α} (hk : ccc k = 0) (c : α) (s t : List α) :
    insert ccc c (s ++ k :: t) = insert ccc c s ++ k :: t := by
  induction s with
  | nil =>
    rw [List.nil_append, insert, insert, if_neg (by omega)]
    rfl
  | cons x s ih =>
    rw [List.cons_append, insert, insert]
    split
    · rw [ih, List.cons_append]
    · rfl

theorem reorder_append_starter {k : α} (hk : ccc k = 0) (s t : List α) :
    reorder ccc (s ++ k :: t) = reorder ccc s ++ k :: reorder ccc t := by
  induction s with
  | nil => exact insert_starter hk _
  | cons c s ih => rw [List.cons_append, reorder, ih, insert_append_starter hk, reorder]

theorem insert_comm {x c : α} (hx : 0 < ccc x) (hlt : ccc x < ccc c) (s : List α) :
    insert ccc x (insert ccc c s) = insert ccc c (insert ccc x s) := by
  induction s with
  | nil =>
    have hcx : ¬ (0 < ccc c ∧ ccc c < ccc x) := by omega
    simp only [insert, if_neg hcx, if_pos (And.intro hx hlt)]
  | cons y s ih =>
    by_cases hyx : 0 < ccc y ∧ ccc y < ccc x
    · have hyc : 0 < ccc y ∧ ccc y < ccc c := ⟨hyx.1, by omega⟩
      simp only [insert, if_pos hyx, if_pos hyc, ih]
    · by_cases hyc : 0 < ccc y ∧ ccc y < ccc c
      · simp only [insert, if_neg hyx, if_pos hyc, if_pos (And.intro hx hlt)]
      · have hcx : ¬ (0 < ccc c ∧ ccc c < ccc x) := by omega
        simp only [insert, if_neg hyx, if_neg hyc, if_neg hcx, if_pos (And.intro hx hlt)]

theorem reorder_insert_append (c : α) (s t : List α) :
    reorder ccc (insert ccc c s ++ t) = insert ccc c (reorder ccc (s ++ t)) := by
  induction s with
  | nil => rfl
  | cons x s ih =>
    rw [insert]
    split
    · rename_i h
      rw [List.cons_append, reorder, ih, insert_comm h.1 h.2]
      rfl
    · rfl

theorem reorder_reorder_append (s t : List α) :
    reorder ccc (reorder ccc s ++ t) = reorder ccc (s ++ t) := by
  induction s with
  | nil => rfl
  | cons c s ih =>
    rw [reorder, reorder_insert_append, ih]
    rfl

theorem reorder_append_congr {s s' t t' : List α} (hs : reorder ccc s = reorder ccc s')
    (ht : reorder ccc t = reorder ccc t') : reorder ccc (s ++ t) = reorder ccc (s' ++ t') := by
  have hright : ∀ u : List α, reorder ccc (u ++ t) = reorder ccc (u ++ t') := by
    intro u
    induction u with
    | nil => exact ht
    | cons c u ih => rw [List.cons_append, List.cons_append, reorder, reorder, ih]
  rw [hright, ← reorder_reorder_append s, hs, reorder_reorder_append]

theorem reorder_map {f : α → α} {s : List α} (h : ∀ a ∈ s, ccc (f a) = ccc a) :
    reorder ccc (s.map f) = (reorder ccc s).map f := by
  have hinsert : ∀ (c : α) (t : List α), ccc (f c) = ccc c → (∀ a ∈ t, ccc (f a) = ccc a) →
      insert ccc (f c) (t.map f) = (insert ccc c t).map f := by
    intro c t hc ht
    induction t with
    | nil => rfl
    | cons x t ih =>
      rw [List.forall_mem_cons] at ht
      rw [List.map_cons, insert, insert, ht.1, hc]
      split
      · rw [ih ht.2, List.map_cons]
      · rfl
  induction s with
  | nil => rfl
  | cons c s ih =>
    rw [List.forall_mem_cons] at h
    rw [List.map_cons, reorder, reorder, ih h.2]
    exact hinsert c _ h.1 fun a ha => h.2 a ((reorder_perm ccc s).mem_iff.mp ha)

/-- Elements of which no two are non-starters of different classes keep their order. -/
theorem reorder_filter {K : α → Bool} {s : List α}
    (h : ∀ a ∈ s, ∀ b ∈ s, K a = true → K b = true → 0 < ccc a → ¬ ccc a < ccc b) :
    (reorder ccc s).filter K = s.filter K := by
  have hinsert : ∀ (c : α) (t : List α),
      (∀ a ∈ t, K a = true → K c = true → 0 < ccc a → ¬ ccc a < ccc c) →
        (insert ccc c t).filter K = (c :: t).filter K := by
    intro c t ht
    induction t with
    | nil => rfl
    | cons x t ih =>
      rw [List.forall_mem_cons] at ht
      rw [insert]
      split
      · rename_i hx
        have hswap : (c :: x :: t).filter K = (x :: c :: t).filter K := by
          simp only [List.filter_cons]
          split <;> split
          · rename_i hc hkx
            exact absurd hx.2 (ht.1 hkx hc hx.1)
          · rfl
          · rfl
          · rfl
        rw [hswap, List.filter_cons, ih ht.2]
        exact List.filter_cons.symm
      · rfl
  induction s with
  | nil => rfl
  | cons c s ih =>
    have hrest := ih fun a ha b hb =>
      h a (List.mem_cons_of_mem c ha) b (List.mem_cons_of_mem c hb)
    rw [reorder, hinsert c _ fun a ha hKa hKc => ?_, List.filter_cons, hrest, List.filter_cons]
    exact h a (List.mem_cons_of_mem c ((reorder_perm ccc s).mem_iff.mp ha)) c
      List.mem_cons_self hKa hKc

/-! ### A mark that nothing blocks -/

variable (ccc)

/-- `v` stands in the list and only non-starters of a lower class stand before it. -/
def Reaches (v : α) : List α → Prop
  | [] => False
  | b :: s => b = v ∨ 0 < ccc b ∧ ccc b < ccc v ∧ Reaches v s

/-- Every element that satisfies `P` is followed by an unblocked `v`. -/
def AllReach (P : α → Prop) (v : α) : List α → Prop
  | [] => True
  | x :: s => (P x → Reaches ccc v s) ∧ AllReach P v s

variable {ccc} {P : α → Prop} {v : α}

theorem Reaches.append {s : List α} (h : Reaches ccc v s) (t : List α) :
    Reaches ccc v (s ++ t) := by
  induction s with
  | nil => cases h
  | cons b s ih =>
    rcases h with h | ⟨h0, hlt, h⟩
    · exact .inl h
    · exact .inr ⟨h0, hlt, ih h⟩

theorem AllReach.append {s t : List α} (hs : AllReach ccc P v s) (ht : AllReach ccc P v t) :
    AllReach ccc P v (s ++ t) := by
  induction s with
  | nil => exact ht
  | cons x s ih => exact ⟨fun hx => (hs.1 hx).append t, ih hs.2⟩

theorem Reaches.filter {s : List α} (h : Reaches ccc v s) {p : α → Bool} (hv : p v = true) :
    Reaches ccc v (s.filter p) := by
  induction s with
  | nil => cases h
  | cons b s ih =>
    rw [List.filter_cons]
    rcases h with rfl | ⟨h0, hlt, h⟩
    · rw [if_pos hv]
      exact .inl rfl
    · split
      · exact .inr ⟨h0, hlt, ih h⟩
      · exact ih h

theorem AllReach.filter {s : List α} (h : AllReach ccc P v s) {p : α → Bool} (hv : p v = true) :
    AllReach ccc P v (s.filter p) := by
  induction s with
  | nil => trivial
  | cons x s ih =>
    rw [List.filter_cons]
    split
    · exact ⟨fun hx => (h.1 hx).filter hv, ih h.2⟩
    · exact ih h.2

theorem reaches_insert_self (s : List α) : Reaches ccc v (insert ccc v s) := by
  induction s with
  | nil => exact .inl rfl
  | cons x s ih =>
    rw [insert]
    split
    · rename_i h
      exact .inr ⟨h.1, h.2, ih⟩
    · exact .inl rfl

theorem Reaches.insert {s : List α} (h : Reaches ccc v s) {b : α} (h0 : 0 < ccc b)
    (hlt : ccc b < ccc v) : Reaches ccc v (insert ccc b s) := by
  induction s with
  | nil => cases h
  | cons x s ih =>
    rw [CanonicalOrder.insert]
    split
    · rename_i hx
      rcases h with rfl | ⟨_, hxv, h⟩
      · omega
      · exact .inr ⟨hx.1, hxv, ih h⟩
    · exact .inr ⟨h0, hlt, h⟩

theorem Reaches.reorder {s : List α} (h : Reaches ccc v s) : Reaches ccc v (reorder ccc s) := by
  induction s with
  | nil => cases h
  | cons b s ih =>
    rw [CanonicalOrder.reorder]
    rcases h with rfl | ⟨h0, hlt, h⟩
    · exact reaches_insert_self _
    · exact (ih h).insert h0 hlt

theorem AllReach.insert {s : List α} (h : AllReach ccc P v s) (hP : ∀ k, P k → ccc k = 0) {c : α}
    (hc : P c → Reaches ccc v s) : AllReach ccc P v (insert ccc c s) := by
  by_cases hstart : ccc c = 0
  · rw [insert_starter hstart]
    exact ⟨hc, h⟩
  · have hnot : ∀ x, ccc x ≠ 0 → ¬ P x := fun x hx hp => hx (hP x hp)
    clear hc
    induction s with
    | nil => exact ⟨fun hp => absurd hp (hnot c hstart), trivial⟩
    | cons x s ih =>
      rw [CanonicalOrder.insert]
      split
      · rename_i hx
        exact ⟨fun hp => absurd hp (hnot x (by omega)), ih h.2⟩
      · exact ⟨fun hp => absurd hp (hnot c hstart), h⟩

theorem AllReach.reorder {s : List α} (h : AllReach ccc P v s) (hP : ∀ k, P k → ccc k = 0) :
    AllReach ccc P v (reorder ccc s) := by
  induction s with
  | nil => trivial
  | cons c s ih => exact (ih h.2).insert hP fun hp => (h.1 hp).reorder

theorem AllReach.reaches {s t : List α} {k : α} (h : AllReach ccc P v (s ++ k :: t)) (hk : P k) :
    Reaches ccc v t := by
  induction s with
  | nil => exact h.1 hk
  | cons x s ih => exact ih h.2

theorem Reaches.split {s : List α} (h : Reaches ccc v s) :
    ∃ m t, s = m ++ v :: t ∧ ∀ b ∈ m, 0 < ccc b ∧ ccc b < ccc v := by
  induction s with
  | nil => cases h
  | cons b s ih =>
    rcases h with rfl | ⟨h0, hlt, h⟩
    · exact ⟨[], s, rfl, fun b hb => by cases hb⟩
    · obtain ⟨m, t, rfl, hm⟩ := ih h
      exact ⟨b :: m, t, rfl, List.forall_mem_cons.mpr ⟨⟨h0, hlt⟩, hm⟩⟩

/-! ### Decomposition -/

section Decompose

variable {canon : α → List α} {s : List α}
  (hmark : ∀ c ∈ s, 0 < ccc c → canon c = [c])
  (hstart : ∀ c ∈ s, ccc c = 0 → ∃ a l, canon c = a :: l ∧ ccc a = 0)

include hmark hstart

theorem reorder_mark {b : α} (hb : 0 < ccc b) (h : Ordered ccc (b :: s)) :
    reorder ccc (b :: s.flatMap canon) = b :: reorder ccc (s.flatMap canon) := by
  induction s generalizing b with
  | nil => rfl
  | cons c s ih =>
    rw [List.forall_mem_cons] at hmark hstart
    rw [Ordered, List.isChain_cons_cons] at h
    rw [List.flatMap_cons, reorder]
    by_cases hc : ccc c = 0
    · obtain ⟨a, l, hcanon, ha⟩ := hstart.1 hc
      rw [hcanon, List.cons_append, reorder, insert_starter ha, insert, if_neg (by omega)]
    · have hpos : 0 < ccc c := Nat.pos_of_ne_zero hc
      have hle : ccc b ≤ ccc c := h.1.resolve_left hc
      rw [hmark.1 hpos, List.singleton_append, ih hmark.2 hstart.2 hpos h.2, insert,
        if_neg (by omega)]

/-- What is unblocked after decomposition is unblocked before. -/
theorem reaches_of_reorder (hv : 0 < ccc v) (h : Ordered ccc s)
    (hr : Reaches ccc v (reorder ccc (s.flatMap canon))) : Reaches ccc v s := by
  induction s with
  | nil => cases hr
  | cons b s ih =>
    have htail : Ordered ccc s := h.tail
    rw [List.flatMap_cons] at hr
    by_cases hb : ccc b = 0
    · obtain ⟨a, l, hcanon, ha⟩ := hstart b (List.mem_cons_self ..) hb
      rw [hcanon, List.cons_append, reorder, insert_starter ha] at hr
      rcases hr with rfl | ⟨h0, _⟩
      · omega
      · omega
    · have hpos : 0 < ccc b := Nat.pos_of_ne_zero hb
      rw [List.forall_mem_cons] at hmark hstart
      rw [hmark.1 hpos, List.singleton_append, reorder_mark hmark.2 hstart.2 hpos h] at hr
      rcases hr with heq | ⟨h0, hlt, hr⟩
      · exact .inl heq
      · exact .inr ⟨h0, hlt, ih hmark.2 hstart.2 htail hr⟩

end Decompose

end CanonicalOrder
