import Mathlib.Data.List.Lex
import Mathlib.Order.Lattice

/-! # Prefix search as a range of the lexicographic order

The lists that start with `q` lie in the half-open range from `q` to the list that
replaces the last element of `q` that has a successor by that successor. Elements
without one are dropped; where such an element is not the largest of its type the
range also holds the lists that diverge upwards from `q` there. -/

namespace PrefixRange

variable {α : Type} [LinearOrder α] (next : α → Option α)

def upperBound : List α → Option (List α)
  | [] => none
  | c :: s =>
    match upperBound s with
    | some u => some (c :: u)
    | none => (next c).map fun n => [n]

def InRange (q v : List α) : Prop := q ≤ v ∧ ∀ u, upperBound next q = some u → v < u

/-- `v` diverges upwards from `q` at an element after which no element has a successor. -/
def Overrun (q v : List α) : Prop :=
  ∃ a g b d w, q = a ++ g :: b ∧ (∀ c ∈ g :: b, next c = none) ∧ v = a ++ d :: w ∧ g < d

variable {next}

omit [LinearOrder α] in
theorem upperBound_eq_none_iff (s : List α) :
    upperBound next s = none ↔ ∀ c ∈ s, next c = none := by
  induction s with
  | nil => simp [upperBound]
  | cons c s ih =>
    rw [upperBound, List.forall_mem_cons, ← ih]
    cases upperBound next s <;> simp

theorem cons_le_cons_iff (c d : α) (s v : List α) :
    c :: s ≤ d :: v ↔ c < d ∨ c = d ∧ s ≤ v := by
  rw [← not_lt, List.cons_lt_cons_iff, ← not_lt (a := v)]
  constructor
  · intro h
    rw [not_or, not_and, not_lt] at h
    rcases h.1.lt_or_eq with hlt | heq
    · exact .inl hlt
    · exact .inr ⟨heq, h.2 heq.symm⟩
  · rintro (hlt | ⟨rfl, hv⟩)
    · exact fun h => h.elim (fun h' => absurd hlt h'.not_gt) fun h' => absurd hlt h'.1.not_gt
    · exact fun h => h.elim (lt_irrefl c) fun h' => hv h'.2

theorem inRange_cons (hnext : ∀ c n, next c = some n → ∀ d, d < n ↔ d ≤ c) (c d : α)
    (s v : List α) :
    InRange next (c :: s) (d :: v) ↔
      c = d ∧ InRange next s v ∨ c < d ∧ ∀ x ∈ c :: s, next x = none := by
  unfold InRange
  rw [cons_le_cons_iff]
  cases hs : upperBound next s with
  | some u =>
    have hsome : ¬ ∀ x ∈ c :: s, next x = none := by
      rw [List.forall_mem_cons, ← upperBound_eq_none_iff, hs]
      simp
    simp only [upperBound, hs, Option.some.injEq, forall_eq', List.cons_lt_cons_iff]
    constructor
    · rintro ⟨hlt | ⟨rfl, hle⟩, hgt | ⟨heq, hu⟩⟩
      · exact absurd hlt hgt.not_gt
      · exact absurd heq hlt.ne'
      · exact absurd hgt (lt_irrefl _)
      · exact .inl ⟨rfl, hle, hu⟩
    · rintro (⟨rfl, hle, hu⟩ | ⟨_, hnone⟩)
      · exact ⟨.inr ⟨rfl, hle⟩, .inr ⟨rfl, hu⟩⟩
      · exact absurd hnone hsome
  | none =>
    have hnone := (upperBound_eq_none_iff s).mp hs
    cases hc : next c with
    | some n =>
      have hlast : d :: v < [n] ↔ d ≤ c := by
        rw [List.cons_lt_cons_iff, hnext c n hc d]
        simp
      simp only [upperBound, hs, hc, Option.map_some, Option.some.injEq, forall_eq', hlast]
      constructor
      · rintro ⟨hlt | ⟨rfl, hle⟩, hdc⟩
        · exact absurd hlt hdc.not_gt
        · exact .inl ⟨rfl, hle, by simp⟩
      · rintro (⟨rfl, hle, _⟩ | ⟨_, hall⟩)
        · exact ⟨.inr ⟨rfl, hle⟩, le_rfl⟩
        · have hcn := hall c (List.mem_cons_self ..)
          rw [hc] at hcn
          cases hcn
    | none =>
      have hall : ∀ x ∈ c :: s, next x = none := List.forall_mem_cons.mpr ⟨hc, hnone⟩
      have hbound : upperBound next (c :: s) = none := (upperBound_eq_none_iff _).mpr hall
      simp only [hbound, reduceCtorEq, false_imp_iff, implies_true, and_true]
      constructor
      · rintro (hlt | heq)
        · exact .inr ⟨hlt, hall⟩
        · exact .inl heq
      · rintro (heq | ⟨hlt, _⟩)
        · exact .inr heq
        · exact .inl hlt

theorem overrun_cons (c d : α) (s v : List α) :
    Overrun next (c :: s) (d :: v) ↔
      c = d ∧ Overrun next s v ∨ c < d ∧ ∀ x ∈ c :: s, next x = none := by
  constructor
  · rintro ⟨a, g, b, x, w, hq, hcap, hv, hlt⟩
    cases a with
    | nil =>
      obtain ⟨rfl, rfl⟩ := List.cons_eq_cons.mp hq
      obtain ⟨rfl, rfl⟩ := List.cons_eq_cons.mp hv
      exact .inr ⟨hlt, hcap⟩
    | cons y a =>
      obtain ⟨rfl, rfl⟩ := List.cons_eq_cons.mp hq
      obtain ⟨rfl, rfl⟩ := List.cons_eq_cons.mp hv
      exact .inl ⟨rfl, a, g, b, x, w, rfl, hcap, rfl, hlt⟩
  · rintro (⟨rfl, a, g, b, x, w, rfl, hcap, rfl, hlt⟩ | ⟨hlt, hcap⟩)
    · exact ⟨c :: a, g, b, x, w, rfl, hcap, rfl, hlt⟩
    · exact ⟨[], c, s, d, v, rfl, hcap, rfl, hlt⟩

/-- The range holds the lists that start with `q` and those that diverge upwards. -/
theorem inRange_iff (hnext : ∀ c n, next c = some n → ∀ d, d < n ↔ d ≤ c) (q v : List α) :
    InRange next q v ↔ q <+: v ∨ Overrun next q v := by
  induction q generalizing v with
  | nil =>
    have hr : InRange next ([] : List α) v := ⟨not_lt.mp (List.not_lt_nil v), by simp [upperBound]⟩
    exact iff_of_true hr (.inl (List.nil_prefix ..))
  | cons c s ih =>
    cases v with
    | nil =>
      have hle : ¬ c :: s ≤ [] := not_le.mpr (List.nil_lt_cons c s)
      refine iff_of_false (fun h => hle h.1) ?_
      rintro (h | ⟨a, g, b, d, w, _, _, hv, _⟩)
      · exact absurd h (by simp)
      · exact absurd hv (by simp)
    | cons d v =>
      rw [inRange_cons hnext, overrun_cons, List.cons_prefix_cons, ih]
      tauto

theorem not_overrun_of_prefix {q v : List α} (h : q <+: v) : ¬ Overrun next q v := by
  rintro ⟨a, g, b, d, w, rfl, _, rfl, hlt⟩
  obtain ⟨t, ht⟩ := h
  rw [List.append_assoc, List.append_cancel_left_eq, List.cons_append, List.cons_eq_cons] at ht
  exact hlt.ne ht.1

end PrefixRange
