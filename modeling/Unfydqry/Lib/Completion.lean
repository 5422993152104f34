import Unfydqry.Lib.Interleave
import Mathlib.Data.DFinsupp.WellFounded

/-! # Interleaved calls come to an end

Whatever the order of the steps: only the call that holds the mutex performs statements,
some call can go on as long as not all have returned, and finitely many calls return after
finitely many steps. -/

namespace LockedStore

variable {σ ω ε α ι : Type}

namespace Prog

theorem pre_of_post {p : Prog σ ω ε α} (hp : p.Post) : p.Pre := by
  induction p with
  | done o => trivial
  | load k ih => exact fun v => ih v (hp.2 v)
  | store v k ih => exact hp.1.elim
  | lock e k ih => exact hp.1.elim
  | unlock k ih => exact hp.1.elim
  | beginTx k ih => exact hp.1.elim
  | commit k ih => exact hp.1.elim
  | exec s k ih =>
    apply hp.1.elim
    · intro hs
      exact hs.elim
    · intro hq
      exact hq.1.elim

/-- What an action may leave of a program. -/
inductive Rest : Prog σ ω ε α → Prog σ ω ε α → Prop where
  | next (p : Prog σ ω ε α) (w : World σ ω ε) (h : ∀ o, p ≠ .done o) : Rest (p.next w).1 p

theorem rest_acc_done (o : Outcome ε α) : Acc (Rest (σ := σ) (ω := ω)) (Prog.done o) := by
  apply Acc.intro
  intro q hq
  cases hq with
  | next _ w h => exact absurd rfl (h o)

/-- The rest of a program is a part of it, or its failure. -/
theorem rest_wellFounded : WellFounded (Rest (σ := σ) (ω := ω) (ε := ε) (α := α)) := by
  apply WellFounded.intro
  intro p
  induction p with
  | done o => exact rest_acc_done o
  | load k ih =>
    apply Acc.intro
    intro q hq
    cases hq with
    | next _ w h => exact ih w.cell
  | store v k ih =>
    apply Acc.intro
    intro q hq
    cases hq with
    | next _ w h => exact ih
  | lock e k ih =>
    apply Acc.intro
    intro q hq
    cases hq with
    | next _ w h =>
      rw [next]
      split
      · exact rest_acc_done _
      · exact ih
  | unlock k ih =>
    apply Acc.intro
    intro q hq
    cases hq with
    | next _ w h => exact ih
  | beginTx k ih =>
    apply Acc.intro
    intro q hq
    cases hq with
    | next _ w h =>
      rw [next]
      split
      · exact rest_acc_done _
      · exact ih
  | commit k ih =>
    apply Acc.intro
    intro q hq
    cases hq with
    | next _ w h =>
      rw [next]
      split
      · exact rest_acc_done _
      · exact ih
  | exec s k ih =>
    apply Acc.intro
    intro q hq
    cases hq with
    | next _ w h =>
      rw [next]
      split
      · exact rest_acc_done _
      · split
        · exact ih _
        · exact rest_acc_done _

end Prog

namespace Pool

/-- The next action of the call is a statement, or the start or end of a transaction. -/
def Touches : Prog σ ω ε α → Prop
  | .beginTx _ | .commit _ | .exec _ _ => True
  | _ => False

variable [DecidableEq ι] {s t u : Pool ι σ ω ε α} {i : ι}

/-- All that a step can do. -/
theorem step_cases (h : s.step i = some t) :
    (s.threads i).result = none ∧
      ((∃ o, (s.threads i).prog = .done o ∧ t = s.finish i o) ∨
        (∀ o, (s.threads i).prog ≠ .done o) ∧
          ((∃ e k, (s.threads i).prog = .lock e k) → s.owner = none) ∧ t = s.advance i) := by
  cases hr : (s.threads i).result with
  | some o => simp [step, hr] at h
  | none =>
    simp only [step, hr] at h
    refine ⟨rfl, ?_⟩
    cases hp : (s.threads i).prog with
    | done o =>
      simp only [hp, Option.some.injEq] at h
      exact .inl ⟨o, rfl, h.symm⟩
    | lock e k =>
      cases ho : s.owner with
      | some j => simp [hp, ho] at h
      | none =>
        simp only [hp, ho, Option.isSome_none, Bool.false_eq_true, ite_false,
          Option.some.injEq] at h
        exact .inr ⟨by simp, fun _ => rfl, h.symm⟩
    | _ =>
      simp only [hp, Option.some.injEq] at h
      exact .inr ⟨by simp, by simp, h.symm⟩

/-- A call that does not wait for the mutex has a step to make. -/
theorem step_of_not_lock (hr : (s.threads i).result = none)
    (hl : s.owner = none ∨ ∀ e k, (s.threads i).prog ≠ .lock e k) : ∃ t, s.step i = some t := by
  unfold step
  rw [hr]
  cases hp : (s.threads i).prog with
  | lock e k =>
    have ho : s.owner = none := by
      apply hl.resolve_right
      intro hn
      exact hn e k hp
    rw [ho]
    exact ⟨_, rfl⟩
  | _ => exact ⟨_, rfl⟩

/-- The holder of the mutex is in its critical section, every other call outside of it. -/
structure Phased (s : Pool ι σ ω ε α) : Prop where
  held : ∀ i, s.owner = some i → (s.threads i).result = none ∧ (s.threads i).prog.Crit
  outside : ∀ i, s.owner ≠ some i → (s.threads i).result = none → (s.threads i).prog.Pre

omit [DecidableEq ι] in
theorem start_phased {calls : ι → Prog σ ω ε α} (w : World σ ω ε) (hc : ∀ i, (calls i).Pre) :
    (start calls w).Phased where
  held i ho := by cases ho
  outside i _ _ := hc i

theorem Phased.finish (h : s.Phased) (i : ι) (o : Outcome ε α) : (s.finish i o).Phased where
  held j hj := by
    by_cases hi : s.owner = some i
    · rw [(finish_held s o hi).2] at hj
      cases hj
    · rw [(finish_world s o hi).2] at hj
      have hne : j ≠ i := by
        intro he
        exact hi (he ▸ hj)
      rw [finish_other s o j hne]
      exact h.held j hj
  outside j hj hr := by
    by_cases hji : j = i
    · rw [hji, finish_self] at hr
      cases hr
    · rw [finish_other s o j hji] at hr ⊢
      apply h.outside j _ hr
      intro ho
      have hi : s.owner ≠ some i := by
        intro hi
        rw [hi] at ho
        exact hji (Option.some_inj.mp ho).symm
      rw [(finish_world s o hi).2] at hj
      exact hj ho

/-- A step of a call that neither takes nor drops the mutex. -/
theorem Phased.advance_same (h : s.Phased) (ho : s.ownerAfter i = s.owner)
    (hheld : s.owner = some i → ((s.threads i).prog.next s.world).1.Crit)
    (hout : s.owner ≠ some i → ((s.threads i).prog.next s.world).1.Pre) :
    (s.advance i).Phased where
  held j hj := by
    have hs : s.owner = some j := ho.symm.trans hj
    by_cases hji : j = i
    · subst hji
      rw [advance_self]
      exact ⟨rfl, hheld hs⟩
    · rw [advance_other s j hji]
      exact h.held j hs
  outside j hj hr := by
    have hs : s.owner ≠ some j := by
      intro hs
      exact hj (ho.trans hs)
    by_cases hji : j = i
    · subst hji
      rw [advance_self]
      exact hout hs
    · rw [advance_other s j hji] at hr ⊢
      exact h.outside j hs hr

/-- A call takes the mutex, or finds it poisoned. -/
theorem Phased.advance_lock (h : s.Phased) {e : ε} {k : Prog σ ω ε α}
    (hp : (s.threads i).prog = .lock e k) (hr : (s.threads i).result = none)
    (ho : s.owner = none) : (s.advance i).Phased := by
  have hpre := h.outside i (by rw [ho]; simp) hr
  rw [hp] at hpre
  have hself := advance_self s i
  have howner : (s.advance i).owner = if s.world.poisoned then none else some i := by
    simp only [advance, ownerAfter, hp]
  have hnext : ((s.advance i).threads i).prog =
      if s.world.poisoned then .done (.err e) else k := by
    rw [hself, hp]
    simp only [Prog.next]
    split <;> rfl
  constructor
  · intro j hj
    rw [howner] at hj
    cases hpo : s.world.poisoned with
    | true =>
      rw [hpo, if_pos rfl] at hj
      cases hj
    | false =>
      rw [hpo, if_neg (by simp), Option.some_inj] at hj
      subst hj
      rw [hnext, hpo, if_neg (by simp), hself]
      exact ⟨rfl, hpre⟩
  · intro j hj hjr
    by_cases hji : j = i
    · subst hji
      rw [howner] at hj
      rw [hnext]
      cases hpo : s.world.poisoned with
      | true =>
        rw [if_pos rfl]
        trivial
      | false =>
        rw [hpo, if_neg (by simp)] at hj
        exact absurd rfl hj
    · rw [advance_other s j hji] at hjr ⊢
      apply h.outside j _ hjr
      rw [ho]
      simp

theorem Phased.advance_unlock (h : s.Phased) {k : Prog σ ω ε α}
    (hp : (s.threads i).prog = .unlock k) (ho : s.owner = some i) : (s.advance i).Phased := by
  have hcrit := (h.held i ho).2
  rw [hp] at hcrit
  have howner : (s.advance i).owner = none := by simp only [advance, ownerAfter, hp]
  constructor
  · intro j hj
    rw [howner] at hj
    cases hj
  · intro j _ hr
    by_cases hji : j = i
    · subst hji
      rw [advance_self, hp]
      exact Prog.pre_of_post hcrit
    · rw [advance_other s j hji] at hr ⊢
      apply h.outside j _ hr
      rw [ho]
      intro hij
      exact hji (Option.some_inj.mp hij).symm

theorem Phased.step (h : s.Phased) (ht : s.step i = some t) : t.Phased := by
  obtain ⟨hr, hdone | ⟨hnd, hlock, rfl⟩⟩ := step_cases ht
  · obtain ⟨o, _, rfl⟩ := hdone
    exact h.finish i o
  · by_cases ho : s.owner = some i
    · have hcrit := (h.held i ho).2
      have hnext := Prog.crit_next hcrit s.world
      cases hp : (s.threads i).prog with
      | done o => exact absurd hp (hnd o)
      | lock e k =>
        rw [hp] at hcrit
        exact hcrit.elim
      | unlock k => exact h.advance_unlock hp ho
      | store v k =>
        rw [hp] at hcrit
        obtain ⟨o, rfl⟩ := hcrit
        apply h.advance_same
        · simp only [ownerAfter, hp]
        · intro _
          rw [hp]
          trivial
        · exact fun hn => absurd ho hn
      | _ =>
        apply h.advance_same
        · simp only [ownerAfter, hp]
        · exact fun _ => hnext (by simp [hp]) (by simp [hp])
        · exact fun hn => absurd ho hn
    · have hpre := h.outside i ho hr
      cases hp : (s.threads i).prog with
      | done o => exact absurd hp (hnd o)
      | load k =>
        rw [hp] at hpre
        apply h.advance_same
        · simp only [ownerAfter, hp]
        · exact fun hi => absurd hi ho
        · intro _
          rw [hp]
          exact hpre _
      | lock e k => exact h.advance_lock hp hr (hlock ⟨e, k, hp⟩)
      | _ =>
        rw [hp] at hpre
        exact hpre.elim

theorem run_phased (h : s.Phased) (hr : Run s t) : t.Phased := by
  induction hr with
  | refl => exact h
  | step i _ ht ih => exact ih.step ht

/-! ### Exclusion and progress -/

omit [DecidableEq ι] in
/-- Statements are performed under the mutex. -/
theorem Phased.holds (h : s.Phased) (hr : (s.threads i).result = none)
    (ht : Touches (s.threads i).prog) : s.owner = some i := by
  by_contra ho
  have hpre := h.outside i ho hr
  cases hp : (s.threads i).prog with
  | beginTx k =>
    rw [hp] at hpre
    exact hpre.elim
  | commit k =>
    rw [hp] at hpre
    exact hpre.elim
  | exec st k =>
    rw [hp] at hpre
    exact hpre.elim
  | _ =>
    rw [hp] at ht
    exact ht.elim

/-- The holder of the mutex never waits, so some call can go on. -/
theorem Phased.progress (h : s.Phased) (hn : ¬ ∀ i, (s.threads i).result.isSome) :
    ∃ i t, s.step i = some t := by
  cases ho : s.owner with
  | none =>
    rw [not_forall] at hn
    obtain ⟨i, hi⟩ := hn
    exact ⟨i, step_of_not_lock (Option.not_isSome_iff_eq_none.mp hi) (.inl ho)⟩
  | some i =>
    obtain ⟨hr, hcrit⟩ := h.held i ho
    refine ⟨i, step_of_not_lock hr (.inr ?_)⟩
    intro e k hp
    rw [hp] at hcrit
    exact hcrit.elim

/-! ### Termination -/

/-- What is left of a call: whether it has still to return, and the rest of its program. -/
def left (th : Thread σ ω ε α) : Bool × Prog σ ω ε α := (th.result.isNone, th.prog)

def Less : Bool × Prog σ ω ε α → Bool × Prog σ ω ε α → Prop := Prod.Lex (· < ·) Prog.Rest

theorem less_wellFounded : WellFounded (Less (σ := σ) (ω := ω) (ε := ε) (α := α)) :=
  WellFounded.prod_lex wellFounded_lt Prog.rest_wellFounded

theorem step_less (h : s.step i = some t) :
    (∀ j, j ≠ i → t.threads j = s.threads j) ∧
      Less (left (t.threads i)) (left (s.threads i)) := by
  obtain ⟨hr, hdone | ⟨hnd, _, rfl⟩⟩ := step_cases h
  · obtain ⟨o, _, rfl⟩ := hdone
    refine ⟨finish_other s o, ?_⟩
    rw [finish_self, left, left, hr]
    exact .left _ _ Bool.false_lt_true
  · refine ⟨advance_other s, ?_⟩
    rw [advance_self, left, left, hr]
    exact .right _ (.next _ s.world hnd)

/-- Every step makes one call shorter and leaves the others as they are. -/
theorem step_wellFounded [Finite ι] :
    WellFounded fun t s : Pool ι σ ω ε α => ∃ i, s.step i = some t := by
  have hpi : WellFounded
      (Pi.Lex (WellOrderingRel (α := ι)) fun {_} => Less (σ := σ) (ω := ω) (ε := ε) (α := α)) :=
    Pi.Lex.wellFounded _ fun _ => less_wellFounded
  apply Subrelation.wf _ (InvImage.wf (fun s : Pool ι σ ω ε α => fun i => left (s.threads i)) hpi)
  intro t s hstep
  obtain ⟨i, hi⟩ := hstep
  obtain ⟨hother, hless⟩ := step_less hi
  refine ⟨i, fun j hj => ?_, hless⟩
  have hne : j ≠ i := by
    intro he
    rw [he] at hj
    exact irrefl_of WellOrderingRel i hj
  exact congrArg left (hother j hne)

theorem Run.head {i : ι} (ht : s.step i = some t) (hr : Run t u) : Run s u := by
  induction hr with
  | refl => exact .step i (.refl s) ht
  | step j _ hj ih => exact .step j ih hj

/-- Every run can be continued until all calls have returned. -/
theorem Phased.completes [Finite ι] (h : s.Phased) :
    ∃ t, Run s t ∧ ∀ i, (t.threads i).result.isSome := by
  have hacc : Acc (fun t s : Pool ι σ ω ε α => ∃ i, s.step i = some t) s :=
    step_wellFounded.apply s
  induction hacc with
  | intro s _ ih =>
    by_cases hdone : ∀ i, (s.threads i).result.isSome
    · exact ⟨s, .refl s, hdone⟩
    · obtain ⟨i, u, hu⟩ := h.progress hdone
      obtain ⟨t, hrun, ht⟩ := ih u ⟨i, hu⟩ (h.step hu)
      exact ⟨t, Run.head hu hrun, ht⟩

/-- No run goes on for ever. -/
theorem not_endless [Finite ι] (run : ℕ → Pool ι σ ω ε α) :
    ¬ ∀ n, ∃ i, (run n).step i = some (run (n + 1)) := by
  intro hrun
  exact (wellFounded_iff_isEmpty_descending_chain.mp step_wellFounded).elim ⟨run, hrun⟩

end Pool

end LockedStore
