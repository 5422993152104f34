import Unfydqry.Binding.Object
import Mathlib.Algebra.BigOperators.Group.Finset.Basic
import Mathlib.Algebra.Order.BigOperators.Group.Finset

/-! # The engine outlives every call

The counter is what the calls in flight and the first `destroy` hold of it, and the
references in Rust are the object's own, the clones of the calls, and the clones that were
never handed over. From these two sums follow that no reference is used that does not exist,
that the object's own is freed at most once, and what is left when the threads are done. -/

/-! ### What a family of parties holds together -/

namespace Tally

variable {ι α : Type} [Fintype ι] (w : α → ℕ) (f : ι → α)

def total : ℕ := ∑ i, w (f i)

theorem le_total (i : ι) : w (f i) ≤ total w f :=
  Finset.single_le_sum (f := fun i => w (f i)) (fun _ _ => Nat.zero_le _) (Finset.mem_univ i)

theorem total_eq_zero_iff : total w f = 0 ↔ ∀ i, w (f i) = 0 := by
  rw [total, Finset.sum_eq_zero_iff]
  exact ⟨fun h i => h i (Finset.mem_univ i), fun h i _ => h i⟩

variable [DecidableEq ι]

/-- One party moves. -/
theorem total_update (i : ι) (a : α) :
    total w (Function.update f i a) + w (f i) = total w f + w a := by
  have hnew := Finset.add_sum_erase Finset.univ (fun j => w (Function.update f i a j))
    (Finset.mem_univ i)
  have hold := Finset.add_sum_erase Finset.univ (fun j => w (f j)) (Finset.mem_univ i)
  have hrest : ∑ j ∈ Finset.univ.erase i, w (Function.update f i a j) =
      ∑ j ∈ Finset.univ.erase i, w (f j) := by
    refine Finset.sum_congr rfl fun j hj => ?_
    rw [Function.update_of_ne (Finset.ne_of_mem_erase hj)]
  rw [Function.update_self] at hnew
  unfold total
  omega

end Tally

namespace Unfydqry.Binding

open Tally

namespace Point

/-- What a thread holds of the counter; the share of a `destroy` is the object's first one. -/
def share : Point → ℕ
  | .flagged | .counted _ | .cloned _ | .inside | .leaving => 1
  | _ => 0

/-- The clones a thread holds. -/
def clones : Point → ℕ
  | .cloned _ | .inside => 1
  | _ => 0

/-- Whether the thread has the reference freed next. -/
def frees : Point → ℕ
  | .cleaning => 1
  | _ => 0

end Point

namespace Rust

theorem clone_of_pos {r : Rust} (h : 0 < r.strong) :
    r.clone = { r with strong := r.strong + 1 } :=
  if_neg (by omega)

theorem drop_of_pos {r : Rust} (h : 0 < r.strong) :
    r.drop = { r with strong := r.strong - 1 } :=
  if_neg (by omega)

end Rust

namespace Caller

def share (t : Caller) : ℕ := t.point.share

def clones (t : Caller) : ℕ := t.point.clones

def frees (t : Caller) : ℕ := t.point.frees

/-- The clones its calls have lost. -/
def lost (t : Caller) : ℕ := t.answers.count .unlowered

theorem not_finished {t : Caller} (h : t.point ≠ .idle) : ¬ t.Finished := fun hf => h hf.2

theorem not_finished_of_todo {t : Caller} {op : Op} {rest : List Op} (h : t.todo = op :: rest) :
    ¬ t.Finished := by
  intro hf
  rw [hf.1] at h
  cases h

end Caller

/-! ### What a step does -/

namespace Object

variable {ι : Type}

theorem clean_cleaned (s : Object ι) : s.clean.cleaned = true := by
  unfold clean
  split
  · assumption
  · rfl

theorem clean_callers (s : Object ι) : s.clean.callers = s.callers := by
  unfold clean
  split <;> rfl

variable [DecidableEq ι]

/-- The steps of a thread, one by one. -/
inductive Moves (s : Object ι) (i : ι) : Object ι → Prop where
  | again {rest : List Op} (hp : (s.callers i).point = .idle)
    (hq : (s.callers i).todo = .destroy :: rest) (hd : s.wasDestroyed = true) :
    Moves s i (s.goes i { s.callers i with todo := rest, point := .idle })
  | flags {rest : List Op} (hp : (s.callers i).point = .idle)
    (hq : (s.callers i).todo = .destroy :: rest) (hd : s.wasDestroyed = false) :
    Moves s i
      { s.goes i { s.callers i with todo := rest, point := .flagged } with wasDestroyed := true }
  | calls {args : List Argument} {rest : List Op} (hp : (s.callers i).point = .idle)
    (hq : (s.callers i).todo = .call args :: rest) :
    Moves s i (s.goes i { s.callers i with todo := rest, point := .called args })
  | refuses {args : List Argument} (hp : (s.callers i).point = .called args)
    (hzero : s.callCounter = 0) : Moves s i (s.goes i ((s.callers i).ends .destroyed .idle))
  | overflows {args : List Argument} (hp : (s.callers i).point = .called args)
    (hmax : s.callCounter = maxLong) : Moves s i (s.goes i ((s.callers i).ends .overflow .idle))
  | reads {args : List Argument} (hp : (s.callers i).point = .called args)
    (hzero : s.callCounter ≠ 0) (hmax : s.callCounter ≠ maxLong) :
    Moves s i (s.goes i { s.callers i with point := .read args s.callCounter })
  | counts {args : List Argument} {c : ℤ} (hp : (s.callers i).point = .read args c)
    (hc : s.callCounter = c) :
    Moves s i
      { s.goes i { s.callers i with point := .counted args } with callCounter := c + 1 }
  | retries {args : List Argument} {c : ℤ} (hp : (s.callers i).point = .read args c)
    (hc : s.callCounter ≠ c) :
    Moves s i (s.goes i { s.callers i with point := .called args })
  | clones {args : List Argument} (hp : (s.callers i).point = .counted args) :
    Moves s i
      { s.goes i { s.callers i with point := .cloned args } with rust := s.rust.clone }
  | lowers {args : List Argument} (hp : (s.callers i).point = .cloned args)
    (hall : (args.all fun a => a.lower.isSome) = true) :
    Moves s i (s.goes i { s.callers i with point := .inside })
  | throws {args : List Argument} (hp : (s.callers i).point = .cloned args)
    (hall : ¬ (args.all fun a => a.lower.isSome) = true) :
    Moves s i (s.goes i ((s.callers i).ends .unlowered .leaving))
  | returns (hp : (s.callers i).point = .inside) :
    Moves s i { s.goes i ((s.callers i).ends .returned .leaving) with rust := s.rust.drop }
  | decrements (hp : (s.callers i).point = .flagged ∨ (s.callers i).point = .leaving) :
    Moves s i (s.decrement i (s.callers i))
  | cleans (hp : (s.callers i).point = .cleaning) :
    Moves s i (s.clean.goes i { s.callers i with point := .idle })

theorem step_cases {s s' : Object ι} {i : ι} (h : s.step i = some s') : s.Moves i s' := by
  unfold step at h
  cases hp : (s.callers i).point with
  | idle =>
    simp only [hp] at h
    cases hq : (s.callers i).todo with
    | nil =>
      rw [hq] at h
      cases h
    | cons op rest =>
      rw [hq] at h
      cases op with
      | destroy =>
        cases hd : s.wasDestroyed with
        | true =>
          simp only [hd, if_true] at h
          exact Option.some.inj h ▸ .again hp hq hd
        | false =>
          simp only [hd, Bool.false_eq_true, if_false] at h
          exact Option.some.inj h ▸ .flags hp hq hd
      | call args => exact Option.some.inj h ▸ .calls hp hq
  | flagged =>
    simp only [hp] at h
    exact Option.some.inj h ▸ .decrements (.inl hp)
  | called args =>
    simp only [hp] at h
    by_cases hzero : s.callCounter = 0
    · rw [if_pos hzero] at h
      exact Option.some.inj h ▸ .refuses hp hzero
    · rw [if_neg hzero] at h
      by_cases hmax : s.callCounter = maxLong
      · rw [if_pos hmax] at h
        exact Option.some.inj h ▸ .overflows hp hmax
      · rw [if_neg hmax] at h
        exact Option.some.inj h ▸ .reads hp hzero hmax
  | read args c =>
    simp only [hp] at h
    by_cases hc : s.callCounter = c
    · rw [if_pos hc] at h
      exact Option.some.inj h ▸ .counts hp hc
    · rw [if_neg hc] at h
      exact Option.some.inj h ▸ .retries hp hc
  | counted args =>
    simp only [hp] at h
    exact Option.some.inj h ▸ .clones hp
  | cloned args =>
    simp only [hp] at h
    by_cases hall : (args.all fun a => a.lower.isSome) = true
    · rw [if_pos hall] at h
      exact Option.some.inj h ▸ .lowers hp hall
    · rw [if_neg hall] at h
      exact Option.some.inj h ▸ .throws hp hall
  | inside =>
    simp only [hp] at h
    exact Option.some.inj h ▸ .returns hp
  | leaving =>
    simp only [hp] at h
    exact Option.some.inj h ▸ .decrements (.inr hp)
  | cleaning =>
    simp only [hp] at h
    exact Option.some.inj h ▸ .cleans hp

end Object

/-! ### The two sums -/

variable {ι : Type}

/-- The first share of the counter, until `destroy`. -/
def Object.first (s : Object ι) : ℕ := if s.wasDestroyed then 0 else 1

/-- The object's own reference, until it is freed. -/
def Object.own (s : Object ι) : ℕ := if s.cleaned then 0 else 1

section Invariant

variable [Fintype ι]

/-- The invariant of an object that threads share. -/
structure Object.Counted (s : Object ι) : Prop where
  counter : s.callCounter = (s.first + total Caller.share s.callers : ℕ)
  max : s.callCounter ≤ maxLong
  strong : s.rust.strong =
    s.own + total Caller.clones s.callers + total Caller.lost s.callers
  /-- Who brought the counter to zero has the reference freed, or has had it freed. -/
  last : s.callCounter = 0 → total Caller.frees s.callers = s.own
  /-- Before that only the cleaner frees it, when the threads are done. -/
  early : s.callCounter ≠ 0 → total Caller.frees s.callers = 0 ∧
    (s.cleaned = true → ∀ i, (s.callers i).Finished)
  fault : s.rust.fault = false
  refused : ∀ i, .destroyed ∈ (s.callers i).answers → s.wasDestroyed = true
  read : ∀ i args c, (s.callers i).point = .read args c → 0 < c ∧ c < maxLong

namespace Object.Counted

variable {s : Object ι} {i : ι} {t : Caller}

theorem start (todo : ι → List Op) : (Object.start todo).Counted := by
  have hzero : ∀ w : Caller → ℕ, (∀ ops, w { todo := ops } = 0) →
      total w (Object.start todo).callers = 0 := by
    intro w hw
    exact (total_eq_zero_iff _ _).mpr fun i => hw (todo i)
  have hshare := hzero Caller.share fun _ => rfl
  have hclones := hzero Caller.clones fun _ => rfl
  have hlost := hzero Caller.lost fun _ => rfl
  have hfrees := hzero Caller.frees fun _ => rfl
  have hone : (Object.start todo).callCounter = 1 := rfl
  refine ⟨?_, ?_, ?_, ?_, ?_, rfl, ?_, ?_⟩
  · rw [hshare]
    rfl
  · rw [hone]
    decide
  · rw [hclones, hlost]
    rfl
  · intro h
    omega
  · intro _
    refine ⟨hfrees, fun h => ?_⟩
    cases h
  · intro i h
    cases h
  · intro i args c h
    cases h

/-- A thread that holds a share keeps the counter above zero and the object uncollected. -/
theorem of_share (hs : s.Counted) (h : (s.callers i).share = 1) :
    1 ≤ s.callCounter ∧ s.cleaned = false := by
  have hle := le_total Caller.share s.callers i
  have hpos : 1 ≤ s.callCounter := by
    rw [hs.counter]
    omega
  refine ⟨hpos, Bool.eq_false_iff.mpr fun hc => ?_⟩
  have hf := (hs.early (by omega)).2 hc i
  rw [Caller.share, hf.2] at h
  cases h

/-- The counter reaches zero after `destroy` only. -/
theorem destroyed_of_zero (hs : s.Counted) (h : s.callCounter = 0) : s.wasDestroyed = true := by
  have hc := hs.counter
  by_contra hd
  rw [Object.first, if_neg hd] at hc
  omega

variable [DecidableEq ι]

/-- A move of one thread, by what it changes of the two sums. -/
theorem moves (hs : s.Counted) {u : Object ι}
    (hcallers : u.callers = Function.update s.callers i t)
    (hcounter : u.callCounter + (s.first + (s.callers i).share : ℕ) =
      s.callCounter + (u.first + t.share : ℕ))
    (hmax : u.callCounter ≤ maxLong)
    (hstrong : u.rust.strong + s.own + (s.callers i).clones + (s.callers i).lost =
      s.rust.strong + u.own + t.clones + t.lost)
    (hlast : u.callCounter = 0 →
      total Caller.frees s.callers + t.frees = u.own + (s.callers i).frees)
    (hearly : u.callCounter ≠ 0 → total Caller.frees s.callers + t.frees = (s.callers i).frees ∧
      u.cleaned = false)
    (hfault : u.rust.fault = false) (hflag : s.wasDestroyed = true → u.wasDestroyed = true)
    (hrefused : .destroyed ∈ t.answers →
      .destroyed ∈ (s.callers i).answers ∨ u.wasDestroyed = true)
    (hread : ∀ args c, t.point = .read args c → 0 < c ∧ c < maxLong) :
    u.Counted := by
  have h1 := total_update Caller.share s.callers i t
  have h2 := total_update Caller.clones s.callers i t
  have h3 := total_update Caller.lost s.callers i t
  have h4 := total_update Caller.frees s.callers i t
  rw [← hcallers] at h1 h2 h3 h4
  have hc := hs.counter
  have hr := hs.strong
  refine ⟨?_, hmax, ?_, ?_, ?_, hfault, ?_, ?_⟩
  · omega
  · omega
  · intro h
    have hl := hlast h
    omega
  · intro h
    obtain ⟨hl, hclean⟩ := hearly h
    exact ⟨by omega, fun hcl => absurd (hclean ▸ hcl) Bool.false_ne_true⟩
  · rw [hcallers]
    refine (Function.forall_update_iff s.callers
      (p := fun _ c => .destroyed ∈ c.answers → u.wasDestroyed = true)).mpr
        ⟨fun ht => ?_, fun j _ hj => hflag (hs.refused j hj)⟩
    exact (hrefused ht).elim (fun h => hflag (hs.refused i h)) id
  · rw [hcallers]
    exact (Function.forall_update_iff s.callers (p := fun _ c => ∀ args n,
      c.point = .read args n → 0 < n ∧ n < maxLong)).mpr ⟨hread, fun j _ => hs.read j⟩

/-- A move that leaves the atomics and the engine as they are. -/
theorem quiet (hs : s.Counted) (hshare : t.share = (s.callers i).share)
    (hclones : t.clones + t.lost = (s.callers i).clones + (s.callers i).lost)
    (hfrees : t.frees = (s.callers i).frees) (hbusy : ¬ (s.callers i).Finished)
    (hrefused : .destroyed ∈ t.answers →
      .destroyed ∈ (s.callers i).answers ∨ s.wasDestroyed = true)
    (hread : ∀ args c, t.point = .read args c → 0 < c ∧ c < maxLong) :
    (s.goes i t).Counted := by
  refine hs.moves (u := s.goes i t) rfl ?_ hs.max ?_ ?_ ?_ hs.fault id hrefused hread
  · show s.callCounter + (s.first + _ : ℕ) = s.callCounter + (s.first + _ : ℕ)
    omega
  · show s.rust.strong + s.own + _ + _ = s.rust.strong + s.own + _ + _
    omega
  · intro h
    have hl := hs.last h
    show _ = s.own + _
    omega
  · intro h
    obtain ⟨hl, hdone⟩ := hs.early h
    refine ⟨by omega, Bool.eq_false_iff.mpr fun hclean => hbusy (hdone hclean i)⟩

/-- `decrementAndGet` by a thread that holds a share. -/
theorem decrement (hs : s.Counted) (hshare : (s.callers i).share = 1)
    (hclones : (s.callers i).clones = 0) (hfrees : (s.callers i).frees = 0) :
    (s.decrement i (s.callers i)).Counted := by
  obtain ⟨hpos, hclean⟩ := hs.of_share hshare
  have hown : s.own = 1 := by rw [Object.own, hclean]; rfl
  have hzero := (hs.early (by omega)).1
  have hmax := hs.max
  by_cases hc : s.callCounter - 1 = 0
  · refine hs.moves (u := s.decrement i (s.callers i))
      (t := { s.callers i with point := .cleaning }) ?_ ?_ ?_ ?_ ?_ ?_ hs.fault id .inl ?_
    · show Function.update _ _ _ = _
      rw [if_pos hc]
    · show s.callCounter - 1 + (s.first + _ : ℕ) = s.callCounter + (s.first + 0 : ℕ)
      omega
    · show s.callCounter - 1 ≤ maxLong
      omega
    · show s.rust.strong + s.own + _ + _ = s.rust.strong + s.own + 0 + (s.callers i).lost
      omega
    · intro _
      show _ + 1 = s.own + _
      omega
    · intro h
      exact absurd hc h
    · intro args c h
      cases h
  · refine hs.moves (u := s.decrement i (s.callers i))
      (t := { s.callers i with point := .idle }) ?_ ?_ ?_ ?_ ?_ ?_ hs.fault id .inl ?_
    · show Function.update _ _ _ = _
      rw [if_neg hc]
    · show s.callCounter - 1 + (s.first + _ : ℕ) = s.callCounter + (s.first + 0 : ℕ)
      omega
    · show s.callCounter - 1 ≤ maxLong
      omega
    · show s.rust.strong + s.own + _ + _ = s.rust.strong + s.own + 0 + (s.callers i).lost
      omega
    · intro h
      exact absurd h hc
    · intro _
      refine ⟨?_, hclean⟩
      show _ + 0 = _
      omega
    · intro args c h
      cases h

/-- `clean` by the thread that brought the counter to zero. -/
theorem cleans (hs : s.Counted) (hfrees : (s.callers i).frees = 1)
    (hshare : (s.callers i).share = 0) (hclones : (s.callers i).clones = 0) :
    (s.clean.goes i { s.callers i with point := .idle }).Counted := by
  have hle := le_total Caller.frees s.callers i
  have hzero : s.callCounter = 0 := by
    by_contra h
    have hnone := (hs.early h).1
    omega
  have hlast := hs.last hzero
  have hclean : s.cleaned = false := by
    by_contra h
    rw [Object.own, if_pos (Bool.eq_true_of_not_eq_false h)] at hlast
    omega
  have hown : s.own = 1 := by rw [Object.own, hclean]; rfl
  have hstrong := hs.strong
  have hkept : s.rust.strong ≠ 0 := by omega
  have hdrop : s.clean =
      { s with cleaned := true, rust := { s.rust with strong := s.rust.strong - 1 } } := by
    rw [Object.clean, hclean, Rust.drop_of_pos (by omega)]
    rfl
  rw [hdrop]
  refine hs.moves (t := { s.callers i with point := .idle }) rfl ?_ hs.max ?_ ?_ ?_ hs.fault id
    .inl ?_
  · show s.callCounter + (s.first + _ : ℕ) = s.callCounter + (s.first + 0 : ℕ)
    omega
  · show s.rust.strong - 1 + s.own + _ + _ = s.rust.strong + 0 + 0 + (s.callers i).lost
    omega
  · intro _
    show _ + 0 = 0 + _
    omega
  · intro h
    exact absurd hzero h
  · intro args c h
    cases h

/-- `destroy` sets the flag: the first share is the thread's. -/
theorem flags (hs : s.Counted) (hd : s.wasDestroyed = false) {rest : List Op}
    (hidle : (s.callers i).point = .idle) (hbusy : ¬ (s.callers i).Finished) :
    ({ s.goes i { s.callers i with todo := rest, point := .flagged } with
      wasDestroyed := true } : Object ι).Counted := by
  have hfirst : s.first = 1 := by rw [Object.first, hd]; rfl
  have hshare : (s.callers i).share = 0 := by rw [Caller.share, hidle]; rfl
  have hclones : (s.callers i).clones = 0 := by rw [Caller.clones, hidle]; rfl
  have hfrees : (s.callers i).frees = 0 := by rw [Caller.frees, hidle]; rfl
  refine hs.moves (t := { s.callers i with todo := rest, point := .flagged }) rfl ?_ hs.max ?_ ?_ ?_
    hs.fault (fun _ => rfl) .inl ?_
  · show s.callCounter + (s.first + _ : ℕ) = s.callCounter + (0 + 1 : ℕ)
    omega
  · show s.rust.strong + s.own + _ + _ = s.rust.strong + s.own + 0 + (s.callers i).lost
    omega
  · intro h
    have hl := hs.last h
    show _ + 0 = s.own + _
    omega
  · intro h
    obtain ⟨hl, hdone⟩ := hs.early h
    refine ⟨?_, Bool.eq_false_iff.mpr fun hclean => hbusy (hdone hclean i)⟩
    show _ + 0 = _
    omega
  · intro args c h
    cases h

/-- The compare-and-set that counts a call. -/
theorem counts (hs : s.Counted) {args : List Argument} {c : ℤ}
    (hp : (s.callers i).point = .read args c) (hc : s.callCounter = c) :
    ({ s.goes i { s.callers i with point := .counted args } with
      callCounter := c + 1 } : Object ι).Counted := by
  obtain ⟨hpos, hmax⟩ := hs.read i args c hp
  have hshare : (s.callers i).share = 0 := by rw [Caller.share, hp]; rfl
  have hclones : (s.callers i).clones = 0 := by rw [Caller.clones, hp]; rfl
  have hfrees : (s.callers i).frees = 0 := by rw [Caller.frees, hp]; rfl
  obtain ⟨hl, hdone⟩ := hs.early (by omega)
  have hclean : s.cleaned = false := by
    by_contra h
    have hidle := (hdone (Bool.eq_true_of_not_eq_false h) i).2
    rw [hp] at hidle
    cases hidle
  refine hs.moves (t := { s.callers i with point := .counted args }) rfl ?_ ?_ ?_ ?_ ?_ hs.fault
    id .inl ?_
  · show c + 1 + (s.first + _ : ℕ) = s.callCounter + (s.first + 1 : ℕ)
    omega
  · show c + 1 ≤ maxLong
    omega
  · show s.rust.strong + s.own + _ + _ = s.rust.strong + s.own + 0 + (s.callers i).lost
    omega
  · intro h
    have hne : c + 1 = 0 := h
    omega
  · intro _
    refine ⟨?_, hclean⟩
    show _ + 0 = _
    omega
  · intro args c h
    cases h

/-- The clone of a counted call is one of a reference that exists. -/
theorem clones (hs : s.Counted) {args : List Argument}
    (hp : (s.callers i).point = .counted args) :
    ({ s.goes i { s.callers i with point := .cloned args } with
      rust := s.rust.clone } : Object ι).Counted := by
  have hshare : (s.callers i).share = 1 := by rw [Caller.share, hp]; rfl
  have hclones : (s.callers i).clones = 0 := by rw [Caller.clones, hp]; rfl
  have hfrees : (s.callers i).frees = 0 := by rw [Caller.frees, hp]; rfl
  obtain ⟨hpos, hclean⟩ := hs.of_share hshare
  have hown : s.own = 1 := by rw [Object.own, hclean]; rfl
  have hl := (hs.early (by omega)).1
  have hstrong := hs.strong
  rw [Rust.clone_of_pos (by omega)]
  refine hs.moves (t := { s.callers i with point := .cloned args }) rfl ?_ hs.max ?_ ?_ ?_
    hs.fault id .inl ?_
  · show s.callCounter + (s.first + _ : ℕ) = s.callCounter + (s.first + 1 : ℕ)
    omega
  · show s.rust.strong + 1 + s.own + _ + _ = s.rust.strong + s.own + 1 + (s.callers i).lost
    omega
  · intro h
    have hne : s.callCounter = 0 := h
    omega
  · intro _
    refine ⟨?_, hclean⟩
    show _ + 0 = _
    omega
  · intro args c h
    cases h

/-- A method returns and drops its clone. -/
theorem returns (hs : s.Counted) (hp : (s.callers i).point = .inside) :
    ({ s.goes i ((s.callers i).ends .returned .leaving) with
      rust := s.rust.drop } : Object ι).Counted := by
  have hshare : (s.callers i).share = 1 := by rw [Caller.share, hp]; rfl
  have hclones : (s.callers i).clones = 1 := by rw [Caller.clones, hp]; rfl
  have hfrees : (s.callers i).frees = 0 := by rw [Caller.frees, hp]; rfl
  have hlost : ((s.callers i).ends .returned .leaving).lost = (s.callers i).lost :=
    List.count_cons_of_ne (by decide)
  obtain ⟨hpos, hclean⟩ := hs.of_share hshare
  have hown : s.own = 1 := by rw [Object.own, hclean]; rfl
  have hl := (hs.early (by omega)).1
  have hstrong := hs.strong
  have hle := le_total Caller.clones s.callers i
  rw [Rust.drop_of_pos (by omega)]
  refine hs.moves (t := (s.callers i).ends .returned .leaving) rfl ?_ hs.max ?_ ?_ ?_ hs.fault id
    ?_ ?_
  · show s.callCounter + (s.first + _ : ℕ) = s.callCounter + (s.first + 1 : ℕ)
    omega
  · rw [hlost]
    show s.rust.strong - 1 + s.own + _ + _ = s.rust.strong + s.own + 0 + _
    omega
  · intro h
    have hne : s.callCounter = 0 := h
    omega
  · intro _
    refine ⟨?_, hclean⟩
    show _ + 0 = _
    omega
  · intro h
    exact .inl ((List.mem_cons.mp h).resolve_left (by decide))
  · intro args c h
    cases h

/-- One step of one thread. -/
theorem step (hs : s.Counted) {s' : Object ι} (h : s.step i = some s') : s'.Counted := by
  cases step_cases h with
  | again hp hq hd =>
    refine hs.quiet ?_ ?_ ?_ (Caller.not_finished_of_todo hq) .inl fun _ c hc => ?_
    · simp only [Caller.share, hp]
    · simp only [Caller.clones, Caller.lost, hp]
    · simp only [Caller.frees, hp]
    · cases hc
  | flags hp hq hd => exact hs.flags hd hp (Caller.not_finished_of_todo hq)
  | calls hp hq =>
    refine hs.quiet ?_ ?_ ?_ (Caller.not_finished_of_todo hq) .inl fun _ c hc => ?_
    · simp only [Caller.share, Point.share, hp]
    · simp only [Caller.clones, Point.clones, Caller.lost, hp]
    · simp only [Caller.frees, Point.frees, hp]
    · cases hc
  | refuses hp hzero =>
    refine hs.quiet ?_ ?_ ?_ (Caller.not_finished (by simp [hp]))
      (fun _ => .inr (hs.destroyed_of_zero hzero)) fun _ c hc => ?_
    · simp only [Caller.share, Caller.ends, Point.share, hp]
    · simp only [Caller.clones, Caller.lost, Caller.ends, Point.clones, hp]
      rw [List.count_cons_of_ne (by decide)]
    · simp only [Caller.frees, Caller.ends, Point.frees, hp]
    · cases hc
  | overflows hp hmax =>
    refine hs.quiet ?_ ?_ ?_ (Caller.not_finished (by simp [hp])) (fun hm => .inl ?_)
      fun _ c hc => ?_
    · simp only [Caller.share, Caller.ends, Point.share, hp]
    · simp only [Caller.clones, Caller.lost, Caller.ends, Point.clones, hp]
      rw [List.count_cons_of_ne (by decide)]
    · simp only [Caller.frees, Caller.ends, Point.frees, hp]
    · exact (List.mem_cons.mp hm).resolve_left (by decide)
    · cases hc
  | reads hp hzero hmax =>
    refine hs.quiet ?_ ?_ ?_ (Caller.not_finished (by simp [hp])) .inl fun _ c hc => ?_
    · simp only [Caller.share, Point.share, hp]
    · simp only [Caller.clones, Caller.lost, Point.clones, hp]
    · simp only [Caller.frees, Point.frees, hp]
    · cases hc
      have hcounter := hs.counter
      have hle := hs.max
      omega
  | counts hp hc => exact hs.counts hp hc
  | retries hp hc =>
    refine hs.quiet ?_ ?_ ?_ (Caller.not_finished (by simp [hp])) .inl fun _ c hc => ?_
    · simp only [Caller.share, Point.share, hp]
    · simp only [Caller.clones, Caller.lost, Point.clones, hp]
    · simp only [Caller.frees, Point.frees, hp]
    · cases hc
  | clones hp => exact hs.clones hp
  | lowers hp hall =>
    refine hs.quiet ?_ ?_ ?_ (Caller.not_finished (by simp [hp])) .inl fun _ c hc => ?_
    · simp only [Caller.share, Point.share, hp]
    · simp only [Caller.clones, Caller.lost, Point.clones, hp]
    · simp only [Caller.frees, Point.frees, hp]
    · cases hc
  | throws hp hall =>
    refine hs.quiet ?_ ?_ ?_ (Caller.not_finished (by simp [hp])) (fun hm => .inl ?_)
      fun _ c hc => ?_
    · simp only [Caller.share, Caller.ends, Point.share, hp]
    · simp only [Caller.clones, Caller.lost, Caller.ends, Point.clones, hp]
      rw [List.count_cons_self]
      omega
    · simp only [Caller.frees, Caller.ends, Point.frees, hp]
    · exact (List.mem_cons.mp hm).resolve_left (by decide)
    · cases hc
  | returns hp => exact hs.returns hp
  | decrements hp =>
    apply hs.decrement
    · rw [Caller.share]
      rcases hp with hp | hp <;> rw [hp] <;> rfl
    · rw [Caller.clones]
      rcases hp with hp | hp <;> rw [hp] <;> rfl
    · rw [Caller.frees]
      rcases hp with hp | hp <;> rw [hp] <;> rfl
  | cleans hp =>
    apply hs.cleans
    · rw [Caller.frees, hp]; rfl
    · rw [Caller.share, hp]; rfl
    · rw [Caller.clones, hp]; rfl

omit [DecidableEq ι] in
/-- The cleaner frees the reference of an object no thread reaches. -/
theorem collect (hs : s.Counted) (hf : ∀ i, (s.callers i).Finished) : s.clean.Counted := by
  cases hclean : s.cleaned with
  | true =>
    rw [Object.clean, if_pos hclean]
    exact hs
  | false =>
    have hown : s.own = 1 := by rw [Object.own, hclean]; rfl
    have hfrees : total Caller.frees s.callers = 0 := by
      refine (total_eq_zero_iff _ _).mpr fun i => ?_
      rw [Caller.frees, (hf i).2]
      rfl
    have hne : s.callCounter ≠ 0 := by
      intro h
      have hl := hs.last h
      omega
    have hstrong := hs.strong
    have hdrop : s.clean =
        { s with cleaned := true, rust := { s.rust with strong := s.rust.strong - 1 } } := by
      rw [Object.clean, hclean, Rust.drop_of_pos (by omega)]
      rfl
    rw [hdrop]
    refine ⟨hs.counter, hs.max, ?_, fun h => absurd h hne, fun _ => ⟨hfrees, fun _ => hf⟩, hs.fault,
      hs.refused, hs.read⟩
    show s.rust.strong - 1 = 0 + total Caller.clones s.callers + total Caller.lost s.callers
    omega

theorem run (hs : s.Counted) {s' : Object ι} (hr : Object.Run s s') : s'.Counted := by
  induction hr with
  | refl => exact hs
  | step i _ h ih => exact ih.step h
  | collect _ hf ih => exact ih.collect hf

end Object.Counted

end Invariant

/-! ### Termination -/

namespace Point

/-- How often the operation may still change the counter. -/
def changes : Point → ℕ
  | .called _ | .read _ _ => 2
  | .flagged | .counted _ | .cloned _ | .inside | .leaving => 1
  | .idle | .cleaning => 0

/-- The steps to the next change of the counter, which has the value `n` now; a value that
was read before a change is read again. -/
def rank (n : ℤ) : Point → ℕ
  | .read _ c => if c = n then 7 else 9
  | .called _ => 8
  | .counted _ => 6
  | .cloned _ => 5
  | .inside => 4
  | .leaving | .flagged => 3
  | .cleaning => 1
  | .idle => 0

end Point

namespace Caller

def changes (t : Caller) : ℕ := 2 * t.todo.length + t.point.changes

def rank (n : ℤ) (t : Caller) : ℕ := 10 * t.todo.length + t.point.rank n

end Caller

namespace Object

section Steps

variable [DecidableEq ι] {s s' : Object ι} {i : ι}

/-- A step brings a thread nearer to its last change of the counter, or to its next one. -/
theorem step_moves (h : s.step i = some s') :
    ∃ t, s'.callers = Function.update s.callers i t ∧
      (t.changes < (s.callers i).changes ∨
        t.changes = (s.callers i).changes ∧ s'.callCounter = s.callCounter ∧
          t.rank s.callCounter < (s.callers i).rank s.callCounter) := by
  cases step_cases h with
  | again hp hq hd =>
    refine ⟨_, rfl, .inl ?_⟩
    simp only [Caller.changes, hp, hq, List.length_cons, Point.changes]
    omega
  | flags hp hq hd =>
    refine ⟨_, rfl, .inl ?_⟩
    simp only [Caller.changes, hp, hq, List.length_cons, Point.changes]
    omega
  | calls hp hq =>
    refine ⟨_, rfl, .inr ⟨?_, rfl, ?_⟩⟩
    · simp only [Caller.changes, hp, hq, List.length_cons, Point.changes]
      omega
    · simp only [Caller.rank, hp, hq, List.length_cons, Point.rank]
      omega
  | refuses hp hzero =>
    refine ⟨_, rfl, .inl ?_⟩
    simp only [Caller.changes, Caller.ends, hp, Point.changes]
    omega
  | overflows hp hmax =>
    refine ⟨_, rfl, .inl ?_⟩
    simp only [Caller.changes, Caller.ends, hp, Point.changes]
    omega
  | reads hp hzero hmax =>
    refine ⟨_, rfl, .inr ⟨?_, rfl, ?_⟩⟩
    · simp only [Caller.changes, hp, Point.changes]
    · simp only [Caller.rank, hp, Point.rank, if_true]
      omega
  | counts hp hc =>
    refine ⟨_, rfl, .inl ?_⟩
    simp only [Caller.changes, hp, Point.changes]
    omega
  | retries hp hc =>
    -- the value that was read is not the counter's any more
    refine ⟨_, rfl, .inr ⟨?_, rfl, ?_⟩⟩
    · simp only [Caller.changes, hp, Point.changes]
    · simp only [Caller.rank, hp, Point.rank, if_neg (Ne.symm hc)]
      omega
  | clones hp =>
    refine ⟨_, rfl, .inr ⟨?_, rfl, ?_⟩⟩
    · simp only [Caller.changes, hp, Point.changes]
    · simp only [Caller.rank, hp, Point.rank]
      omega
  | lowers hp hall =>
    refine ⟨_, rfl, .inr ⟨?_, rfl, ?_⟩⟩
    · simp only [Caller.changes, hp, Point.changes]
    · simp only [Caller.rank, hp, Point.rank]
      omega
  | throws hp hall =>
    refine ⟨_, rfl, .inr ⟨?_, rfl, ?_⟩⟩
    · simp only [Caller.changes, Caller.ends, hp, Point.changes]
    · simp only [Caller.rank, Caller.ends, hp, Point.rank]
      omega
  | returns hp =>
    refine ⟨_, rfl, .inr ⟨?_, rfl, ?_⟩⟩
    · simp only [Caller.changes, Caller.ends, hp, Point.changes]
    · simp only [Caller.rank, Caller.ends, hp, Point.rank]
      omega
  | decrements hp =>
    refine ⟨_, rfl, .inl ?_⟩
    have hzero : (if s.callCounter - 1 = 0 then Point.cleaning else .idle).changes = 0 := by
      split <;> rfl
    rw [Caller.changes, Caller.changes, hzero]
    rcases hp with hp | hp <;> rw [hp] <;> simp only [Point.changes] <;> omega
  | cleans hp =>
    have hcounter : s.clean.callCounter = s.callCounter := by
      unfold clean
      split <;> rfl
    refine ⟨{ s.callers i with point := .idle }, ?_, .inr ⟨?_, hcounter, ?_⟩⟩
    · show Function.update s.clean.callers i _ = _
      rw [clean_callers]
    · simp only [Caller.changes, hp, Point.changes]
    · simp only [Caller.rank, hp, Point.rank]
      omega

/-- No thread ever waits for another. -/
theorem step_isSome (h : ¬ (s.callers i).Finished) : ∃ s', s.step i = some s' := by
  rw [← Option.isSome_iff_exists]
  unfold step
  cases hp : (s.callers i).point with
  | idle =>
    cases hq : (s.callers i).todo with
    | nil => exact absurd ⟨hq, hp⟩ h
    | cons op rest =>
      cases op with
      | destroy =>
        simp only [hp, hq]
        split <;> rfl
      | call args => simp only [hp, hq, Option.isSome_some]
  | called args =>
    simp only [hp]
    split
    · rfl
    · split <;> rfl
  | read args c =>
    simp only [hp]
    split <;> rfl
  | cloned args =>
    simp only [hp]
    split <;> rfl
  | _ => simp only [hp, Option.isSome_some]

end Steps

section Termination

variable [Fintype ι] {s s' : Object ι} {i : ι}

/-- What is left to do: the changes of the counter, and the steps to the next one. -/
def left (s : Object ι) : ℕ × ℕ :=
  (total Caller.changes s.callers, total (Caller.rank s.callCounter) s.callers)

variable [DecidableEq ι]

/-- An increment is tried again only after another thread has changed the counter. -/
theorem step_less (h : s.step i = some s') : Prod.Lex (· < ·) (· < ·) s'.left s.left := by
  obtain ⟨t, hcallers, hmoves⟩ := step_moves h
  have hchanges := total_update Caller.changes s.callers i t
  have hrank := total_update (Caller.rank s.callCounter) s.callers i t
  rw [← hcallers] at hchanges hrank
  obtain hless | ⟨hsame, hcounter, hless⟩ := hmoves
  · exact .left _ _ (by omega)
  · have heq : total Caller.changes s'.callers = total Caller.changes s.callers := by omega
    rw [left, left, heq, hcounter]
    exact .right _ (by omega)

theorem step_wellFounded :
    WellFounded fun s' s : Object ι => ∃ i, s.step i = some s' := by
  have hlex : WellFounded (Prod.Lex (· < ·) (· < ·) : ℕ × ℕ → ℕ × ℕ → Prop) :=
    WellFounded.prod_lex wellFounded_lt wellFounded_lt
  refine Subrelation.wf ?_ (InvImage.wf left hlex)
  intro s' s h
  obtain ⟨i, hi⟩ := h
  exact step_less hi

omit [Fintype ι] in
theorem Run.trans {s t u : Object ι} (h : Run s t) (h' : Run t u) : Run s u := by
  induction h' with
  | refl => exact h
  | step i _ hi ih => exact .step i ih hi
  | collect _ hf ih => exact .collect ih hf

/-- Every run comes to an end. -/
theorem completes (s : Object ι) : ∃ t, Run s t ∧ ∀ i, (t.callers i).Finished := by
  induction step_wellFounded.apply s with
  | intro s _ ih =>
    by_cases hdone : ∀ i, (s.callers i).Finished
    · exact ⟨s, .refl s, hdone⟩
    · rw [not_forall] at hdone
      obtain ⟨i, hi⟩ := hdone
      obtain ⟨u, hu⟩ := step_isSome hi
      obtain ⟨t, hrun, ht⟩ := ih u ⟨i, hu⟩
      exact ⟨t, (Run.step i (.refl s) hu).trans hrun, ht⟩

end Termination

end Object

/-! ### The engine of an object -/

section Engine

variable [Fintype ι]

namespace Object.Counted

variable {s : Object ι}

theorem total_of_finished (w : Point → ℕ) (hw : w .idle = 0)
    (hf : ∀ i, (s.callers i).Finished) : total (fun t => w t.point) s.callers = 0 := by
  refine (total_eq_zero_iff _ _).mpr fun i => ?_
  rw [(hf i).2]
  exact hw

/-- When the threads are done, `destroy` has had the reference freed. -/
theorem cleaned_of_destroyed (hs : s.Counted) (hf : ∀ i, (s.callers i).Finished)
    (hd : s.wasDestroyed = true) : s.cleaned = true := by
  have hshare : total Caller.share s.callers = 0 := total_of_finished Point.share rfl hf
  have hfrees : total Caller.frees s.callers = 0 := total_of_finished Point.frees rfl hf
  have hfirst : s.first = 0 := if_pos hd
  have hcounter := hs.counter
  have hlast := hs.last (by omega)
  by_contra h
  rw [Object.own, if_neg h] at hlast
  omega

/-- What is left of the references is what the calls have lost. -/
theorem dropped_iff (hs : s.Counted) (hf : ∀ i, (s.callers i).Finished)
    (hclean : s.cleaned = true) :
    s.rust.strong = 0 ↔ ∀ i, .unlowered ∉ (s.callers i).answers := by
  have hclones : total Caller.clones s.callers = 0 := total_of_finished Point.clones rfl hf
  have hown : s.own = 0 := if_pos hclean
  have hlost : s.rust.strong = total Caller.lost s.callers := by
    have hstrong := hs.strong
    omega
  rw [hlost, total_eq_zero_iff]
  exact forall_congr' fun i => List.count_eq_zero

end Object.Counted

variable [DecidableEq ι]

/-- However the threads that share an object interleave, the engine is alive while a method runs
on it, no reference is used that does not exist, the object's own is freed only when `destroy`
was called and no call is in flight (or all threads are done), and a call is refused only after
`destroy`. -/
theorem engine_outlives_calls (todo : ι → List Op) {s : Object ι}
    (hr : Object.Run (Object.start todo) s) :
    s.rust.fault = false ∧ (∀ i, (s.callers i).point = .inside → 0 < s.rust.strong) ∧
      s.rust.strong = s.own + total Caller.clones s.callers + total Caller.lost s.callers ∧
      s.callCounter = (s.first + total Caller.share s.callers : ℕ) ∧ s.callCounter ≤ maxLong ∧
      (s.cleaned = true → s.wasDestroyed = true ∧ total Caller.share s.callers = 0 ∨
        ∀ i, (s.callers i).Finished) ∧
      ∀ i, .destroyed ∈ (s.callers i).answers → s.wasDestroyed = true := by
  have hs := (Object.Counted.start todo).run hr
  have hstrong := hs.strong
  refine ⟨hs.fault, fun i hi => ?_, hstrong, hs.counter, hs.max, fun hclean => ?_, hs.refused⟩
  · have hle := le_total Caller.clones s.callers i
    have hone : (s.callers i).clones = 1 := by rw [Caller.clones, hi]; rfl
    omega
  · by_cases hzero : s.callCounter = 0
    · have hcounter := hs.counter
      exact .inl ⟨hs.destroyed_of_zero hzero, by omega⟩
    · exact .inr ((hs.early hzero).2 hclean)

/-- The object after some threads have moved, in this order. -/
def Object.moved (s : Object ι) : List ι → Option (Object ι)
  | [] => some s
  | i :: is => (s.step i).bind fun t => t.moved is

omit [Fintype ι] in
theorem Object.Run.of_moved {s t : Object ι} {is : List ι} (h : s.moved is = some t) :
    Object.Run s t := by
  induction is generalizing s with
  | nil => exact Option.some.inj h ▸ .refl s
  | cons i is ih =>
    obtain ⟨u, hu, hrest⟩ := Option.bind_eq_some_iff.mp h
    exact (Object.Run.step i (.refl s) hu).trans (ih hrest)

/-- One thread searches, the other one destroys the object. -/
def searchedAndDestroyed : Bool → List Op
  | true => [.call [.string [0x61]]]
  | false => [.destroy]

/-- The search is inside when `destroy` gives up its share. -/
theorem destroyed_inside :
    ∃ s, (Object.start searchedAndDestroyed).moved [true, true, true, true, true, false, false] =
        some s ∧
      (s.callers true).point = .inside ∧ (s.callers false).Finished ∧ s.wasDestroyed = true :=
  ⟨_, rfl, rfl, ⟨rfl, rfl⟩, rfl⟩

/-- The engine lives on for the search. -/
theorem engine_outlives_calls_inside :
    ∃ s, Object.Run (Object.start searchedAndDestroyed) s ∧ (s.callers true).point = .inside ∧
      s.wasDestroyed = true ∧ s.rust.fault = false ∧ 0 < s.rust.strong ∧ s.cleaned = false := by
  obtain ⟨s, hmoved, hinside, hdone, hdestroyed⟩ := destroyed_inside
  have hr := Object.Run.of_moved hmoved
  obtain ⟨hfault, halive, _, _, _, hcleaned, _⟩ := engine_outlives_calls searchedAndDestroyed hr
  refine ⟨s, hr, hinside, hdestroyed, hfault, halive true hinside, Bool.eq_false_iff.mpr ?_⟩
  intro hclean
  rcases hcleaned hclean with ⟨_, hshare⟩ | hfinished
  · have hzero := (total_eq_zero_iff _ _).mp hshare true
    rw [Caller.share, hinside] at hzero
    cases hzero
  · have hidle := (hfinished true).2
    rw [hinside] at hidle
    cases hidle

/-- The threads are done after finitely many steps, whoever moves when: the retries of the counter
do not go on for ever. Then the engine is dropped, by `destroy` or by the cleaner, if and
only if no call was left for an argument that cannot be lowered; such a call loses its
clone. -/
theorem engine_is_dropped (todo : ι → List Op) {s : Object ι}
    (hr : Object.Run (Object.start todo) s) :
    (¬ ∃ run : ℕ → Object ι, run 0 = s ∧ ∀ n, ∃ i, (run n).step i = some (run (n + 1))) ∧
      (∃ t, Object.Run s t ∧ ∀ i, (t.callers i).Finished) ∧
      ((∀ i, (s.callers i).Finished) → (s.wasDestroyed = true → s.cleaned = true) ∧
        (s.clean.rust.strong = 0 ↔ ∀ i, .unlowered ∉ (s.callers i).answers)) := by
  have hs := (Object.Counted.start todo).run hr
  refine ⟨?_, s.completes, fun hf => ⟨hs.cleaned_of_destroyed hf, ?_⟩⟩
  · intro hrun
    obtain ⟨run, -, hrun⟩ := hrun
    exact (wellFounded_iff_isEmpty_descending_chain.mp Object.step_wellFounded).elim ⟨run, hrun⟩
  · have hdropped := (hs.collect hf).dropped_iff
    rw [s.clean_callers] at hdropped
    exact hdropped hf s.clean_cleaned

/-- One thread searches and destroys the object, the other one searches. -/
def searchedTwice (last : KotlinString) : Bool → List Op
  | true => [.call [.string [0x61]], .destroy]
  | false => [.call [.string last]]

theorem searchedTwice_done :
    (∃ s, (Object.start (searchedTwice [0x62])).moved
        (List.replicate 6 false ++ List.replicate 9 true ++ [false, false]) = some s ∧
      (∀ i, (s.callers i).Finished) ∧ s.wasDestroyed = true ∧
      ∀ i, .unlowered ∉ (s.callers i).answers) ∧
    ∃ s, (Object.start (searchedTwice [0xD800])).moved
        (List.replicate 5 false ++ List.replicate 9 true ++ [false, false]) = some s ∧
      (∀ i, (s.callers i).Finished) ∧ s.wasDestroyed = true ∧
      .unlowered ∈ (s.callers false).answers := by
  refine ⟨⟨_, rfl, ?_, rfl, ?_⟩, ⟨_, rfl, ?_, rfl, ?_⟩⟩
  · intro i
    cases i <;> exact ⟨rfl, rfl⟩
  · intro i
    cases i <;> decide
  · intro i
    cases i <;> exact ⟨rfl, rfl⟩
  · decide

/-- Two searches and a `destroy` drop the engine, unless the text of one is half a surrogate
pair. -/
theorem engine_is_dropped_searched :
    (∃ s, Object.Run (Object.start (searchedTwice [0x62])) s ∧
      (∀ i, (s.callers i).Finished) ∧ s.cleaned = true ∧ s.clean.rust.strong = 0) ∧
    ∃ s, Object.Run (Object.start (searchedTwice [0xD800])) s ∧
      (∀ i, (s.callers i).Finished) ∧ s.cleaned = true ∧ s.clean.rust.strong ≠ 0 := by
  obtain ⟨⟨s, hs, hdone, hdestroyed, hlowered⟩, t, ht, hdone', hdestroyed', hlost⟩ :=
    searchedTwice_done
  have hsrun := Object.Run.of_moved hs
  have htrun := Object.Run.of_moved ht
  obtain ⟨hclean, hdropped⟩ := (engine_is_dropped _ hsrun).2.2 hdone
  obtain ⟨hclean', hdropped'⟩ := (engine_is_dropped _ htrun).2.2 hdone'
  exact ⟨⟨s, hsrun, hdone, hclean hdestroyed, hdropped.mpr hlowered⟩,
    t, htrun, hdone', hclean' hdestroyed', fun h => hdropped'.mp h false hlost⟩

end Engine

end Unfydqry.Binding
