import Mathlib.Data.List.Chain

/-! # Composition by a table of pairs

A table says which element two neighbours compose to. Here no composite composes again
and no first part of a pair is a second part, so one pass from the left is enough. -/

namespace PairTable

variable {α : Type} (pair : α → α → Option α)

def compose : List α → List α
  | [] => []
  | [a] => [a]
  | a :: b :: s =>
    match pair a b with
    | some c => c :: compose s
    | none => a :: compose (b :: s)

/-- No two neighbours compose. -/
def Composed (s : List α) : Prop := s.IsChain fun a b => pair a b = none

/-- Composites and first parts are never second parts, and composites never first ones. -/
structure Flat : Prop where
  composite_first : ∀ {a b c}, pair a b = some c → ∀ x, pair c x = none
  composite_second : ∀ {a b c}, pair a b = some c → ∀ x, pair x c = none
  first_second : ∀ {a b c}, pair a b = some c → ∀ x, pair x a = none

variable {pair}

theorem compose_pair {a b c : α} (h : pair a b = some c) (s : List α) :
    compose pair (a :: b :: s) = c :: compose pair s := by
  rw [compose, h]

theorem compose_apart {a b : α} (h : pair a b = none) (s : List α) :
    compose pair (a :: b :: s) = a :: compose pair (b :: s) := by
  rw [compose, h]

theorem compose_of_composed {s : List α} (h : Composed pair s) : compose pair s = s := by
  induction s with
  | nil => rfl
  | cons a s ih =>
    cases s with
    | nil => rfl
    | cons b s =>
      rw [Composed, List.isChain_cons_cons] at h
      rw [compose_apart h.1, ih h.2]

theorem compose_ne {s : List α} (h : s ≠ []) : compose pair s ≠ [] := by
  induction s using compose.induct pair with
  | case1 => exact absurd rfl h
  | case2 a => exact h
  | case3 a b s c hab ih =>
    rw [compose_pair hab]
    exact List.cons_ne_nil c _
  | case4 a b s hab ih =>
    rw [compose_apart hab]
    exact List.cons_ne_nil a _

theorem mem_compose {x : α} {s : List α} (h : x ∈ compose pair s) :
    x ∈ s ∨ ∃ a ∈ s, ∃ b ∈ s, pair a b = some x := by
  induction s using compose.induct pair with
  | case1 => exact .inl h
  | case2 a => exact .inl h
  | case3 a b s c hab ih =>
    rw [compose_pair hab] at h
    rcases List.mem_cons.mp h with rfl | h
    · exact .inr ⟨a, by simp, b, by simp, hab⟩
    · rcases ih h with hx | ⟨a', ha, b', hb, hpair⟩
      · exact .inl (by simp [hx])
      · exact .inr ⟨a', by simp [ha], b', by simp [hb], hpair⟩
  | case4 a b s hab ih =>
    rw [compose_apart hab] at h
    rcases List.mem_cons.mp h with rfl | h
    · exact .inl (by simp)
    · rcases ih h with hx | ⟨a', ha, b', hb, hpair⟩
      · exact .inl (List.mem_cons_of_mem _ hx)
      · exact .inr ⟨a', List.mem_cons_of_mem _ ha, b', List.mem_cons_of_mem _ hb, hpair⟩

theorem compose_append {c : α} (h : ∀ a, pair a c = none) (x y : List α) :
    compose pair (x ++ c :: y) = compose pair x ++ compose pair (c :: y) := by
  induction x using compose.induct pair with
  | case1 => rfl
  | case2 a => exact compose_apart (h a) y
  | case3 a b s e hab ih =>
    rw [compose_pair hab, List.cons_append, List.cons_append, List.cons_append,
      compose_pair hab, ih]
  | case4 a b s hab ih =>
    rw [compose_apart hab, List.cons_append, List.cons_append, compose_apart hab,
      ← List.cons_append, ih, List.cons_append]

section Flat

variable (hflat : Flat pair)

include hflat

/-- What a composition starts with composes with nothing before it that the list's own
head does not compose with. -/
theorem pair_head_compose {x a : α} (h : pair x a = none) (s : List α) :
    ∀ y ∈ (compose pair (a :: s)).head?, pair x y = none := by
  intro y hy
  cases s with
  | nil =>
    cases hy
    exact h
  | cons b s =>
    cases hab : pair a b with
    | some c =>
      rw [compose_pair hab] at hy
      cases hy
      exact hflat.composite_second hab x
    | none =>
      rw [compose_apart hab] at hy
      cases hy
      exact h

theorem composed_compose (s : List α) : Composed pair (compose pair s) := by
  induction s using compose.induct pair with
  | case1 => exact List.isChain_nil
  | case2 a => exact List.isChain_singleton a
  | case3 a b s c hab ih =>
    rw [compose_pair hab, Composed, List.isChain_cons]
    exact ⟨fun y _ => hflat.composite_first hab y, ih⟩
  | case4 a b s hab ih =>
    rw [compose_apart hab, Composed, List.isChain_cons]
    exact ⟨fun y hy => pair_head_compose hflat hab s y hy, ih⟩

theorem compose_eq_self_iff (s : List α) : compose pair s = s ↔ Composed pair s := by
  constructor
  · intro h
    rw [← h]
    exact composed_compose hflat s
  · exact compose_of_composed

end Flat

/-! ### Decomposition -/

section Split

variable {split : α → List α}

/-- `split` undoes the table and leaves every other element. -/
structure Undoes (pair : α → α → Option α) (split : α → List α) : Prop where
  composite : ∀ {a b c}, pair a b = some c → split c = [a, b] ∧ split a = [a] ∧ split b = [b]
  other : ∀ c, split c = [c] ∨ ∃ a b, pair a b = some c

variable (hsplit : Undoes pair split)

include hsplit

theorem split_split (c : α) : ∀ a ∈ split c, split a = [a] := by
  intro a ha
  rcases hsplit.other c with h | ⟨x, y, h⟩
  · rw [h, List.mem_singleton] at ha
    rw [ha, h]
  · obtain ⟨hc, hx, hy⟩ := hsplit.composite h
    rw [hc, List.mem_cons, List.mem_singleton] at ha
    rcases ha with rfl | rfl
    · exact hx
    · exact hy

theorem flatMap_compose (s : List α) : (compose pair s).flatMap split = s.flatMap split := by
  induction s using compose.induct pair with
  | case1 => rfl
  | case2 a => rfl
  | case3 a b s c hab ih =>
    obtain ⟨hc, ha, hb⟩ := hsplit.composite hab
    rw [compose_pair hab, List.flatMap_cons, List.flatMap_cons, List.flatMap_cons, ih, hc, ha, hb]
    rfl
  | case4 a b s hab ih => rw [compose_apart hab, List.flatMap_cons, ih, ← List.flatMap_cons]

theorem compose_flatMap (hflat : Flat pair) (s : List α) :
    compose pair (s.flatMap split) = compose pair s := by
  have hcomposite : ∀ {a b c : α}, pair a b = some c → ∀ s,
      compose pair ((c :: s).flatMap split) = c :: compose pair (s.flatMap split) := by
    intro a b c h s
    rw [List.flatMap_cons, (hsplit.composite h).1]
    exact compose_pair h _
  induction s using compose.induct pair with
  | case1 => rfl
  | case2 a =>
    rcases hsplit.other a with h | ⟨x, y, h⟩
    · rw [List.flatMap_singleton, h]
    · exact hcomposite h []
  | case3 a b s c hab ih =>
    obtain ⟨_, ha, hb⟩ := hsplit.composite hab
    rw [List.flatMap_cons, List.flatMap_cons, ha, hb, compose_pair hab, ← ih]
    exact compose_pair hab _
  | case4 a b s hab ih =>
    rw [compose_apart hab, ← ih]
    rcases hsplit.other a with ha | ⟨x, y, h⟩
    · -- the head of what follows is `b` or the first part of `b`
      have hhead : ∃ y t, (b :: s).flatMap split = y :: t ∧ pair a y = none := by
        rcases hsplit.other b with hb | ⟨y, z, h⟩
        · exact ⟨b, s.flatMap split, by rw [List.flatMap_cons, hb]; rfl, hab⟩
        · refine ⟨y, z :: s.flatMap split, ?_, hflat.first_second h a⟩
          rw [List.flatMap_cons, (hsplit.composite h).1]
          rfl
      obtain ⟨y, t, ht, hay⟩ := hhead
      rw [List.flatMap_cons, ha, ht]
      exact compose_apart hay t
    · exact hcomposite h (b :: s)

end Split

end PairTable
