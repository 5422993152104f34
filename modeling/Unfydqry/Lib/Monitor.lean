import Unfydqry.Lib.Completion
import Unfydqry.Lib.Traps

/-! # What the mutex protects

An invariant of the store and the cell that every critical section restores, whatever the
call loaded before it took the mutex, holds in every interleaving whenever the mutex is
free. No statement fails here. -/

namespace LockedStore

variable {σ ω ε α β ι : Type}

namespace Prog

variable {V : ω → Prop} {Q : α → Prop} {I : σ → ω → Prop}

theorem returns_next {p : Prog σ ω ε α} (hp : p.Returns V Q) (w : World σ ω ε)
    (hw : V w.cell) : (p.next w).1.Returns V Q ∧ V (p.next w).2.cell := by
  cases p with
  | done o => exact ⟨hp, hw⟩
  | load k => exact ⟨hp _ hw, hw⟩
  | store v k => exact ⟨hp.2, hp.1⟩
  | lock e k =>
    rw [next]
    split
    · exact ⟨trivial, hw⟩
    · exact ⟨hp, hw⟩
  | unlock k => exact ⟨hp, hw⟩
  | beginTx k =>
    rw [next]
    split
    · exact ⟨trivial, hw⟩
    · exact ⟨hp, hw⟩
  | commit k =>
    rw [next]
    split
    · exact ⟨trivial, hw⟩
    · exact ⟨hp, hw⟩
  | exec s k =>
    rw [next]
    split
    · exact ⟨trivial, hw⟩
    · split
      · exact ⟨hp _, hw⟩
      · exact ⟨trivial, hw⟩

/-- Where nothing fails, a program leaves a world where nothing fails. -/
theorem eval_quiet (p : Prog σ ω ε α) (db : σ) (saved : Option σ) (cell : ω) (held : Bool) :
    ∃ db' saved' cell' held',
      (p.eval (quiet db saved cell held)).2 = quiet db' saved' cell' held' := by
  induction p generalizing db saved cell held with
  | done o => exact ⟨_, _, _, _, rfl⟩
  | load k ih => exact ih _ _ _ _ _
  | store v k ih => exact ih _ _ v _
  | lock e k ih => exact ih _ _ _ true
  | unlock k ih => exact ih (saved.getD db) none cell false
  | beginTx k ih => exact ih _ (some db) _ _
  | commit k ih => exact ih _ none _ _
  | exec s k ih =>
    cases hs : s db with
    | ok r =>
      obtain ⟨x, db'⟩ := r
      have heval : (Prog.exec s k).eval (quiet db saved cell held) =
          (k x).eval (quiet db' saved cell held) := by
        simp only [eval, quiet, World.due, hs]
        rfl
      rw [heval]
      exact ih x _ _ _ _
    | error e =>
      refine ⟨db, saved, cell, held, ?_⟩
      simp only [eval, quiet, World.due, hs]

theorem run_quiet {p : Prog σ ω ε α} {db : σ} {saved : Option σ} {cell : ω} {held : Bool}
    (hp : (p.run (quiet db saved cell held)).1 ≠ .panic) :
    ∃ db' cell', (p.run (quiet db saved cell held)).2 = quiet db' none cell' false := by
  obtain ⟨db', saved', cell', held', heval⟩ := eval_quiet p db saved cell held
  rw [run] at hp ⊢
  rw [heval]
  cases ho : (p.eval (quiet db saved cell held)).1 with
  | ok a => exact ⟨saved'.getD db', cell', rfl⟩
  | err e => exact ⟨saved'.getD db', cell', rfl⟩
  | panic => exact absurd ho hp

/-- Whatever values of `V` the loads before the mutex find, the part under the mutex keeps
`I` when it runs alone. -/
def Guards (V : ω → Prop) (I : σ → ω → Prop) : Prog σ ω ε α → Prop
  | .load k => ∀ v, V v → (k v).Guards V I
  | .lock _ k => ∀ db cell, I db cell →
      I (k.run (quiet db none cell true)).2.db (k.run (quiet db none cell true)).2.cell
  | _ => True

theorem guards_post {p : Prog σ ω ε α} (hp : p.Post) : p.Guards V I := by
  induction p with
  | load k ih => exact fun v _ => ih v (hp.2 v)
  | lock e k ih => exact hp.1.elim
  | _ => trivial

/-- A call that only reads keeps every invariant. -/
theorem guards_reads {p : Prog σ ω ε α} (hp : p.Uses outsideTx) : p.Guards V I := by
  induction p with
  | load k ih => exact fun v _ => ih v (hp.2 v)
  | lock e k ih =>
    intro db cell h
    obtain ⟨hdb, hcell⟩ := reads_run hp.2 (quiet db none cell true) rfl
    rw [hdb, hcell]
    exact h
  | _ => trivial

/-- Loads come before the mutex. -/
theorem guards_bind {p : Prog σ ω ε α} {f : α → Prog σ ω ε β} (hp : p.Uses onlyLoads)
    (hret : p.Returns V Q) (hf : ∀ a, Q a → (f a).Guards V I) : (p >>= f).Guards V I := by
  change (p.bind f).Guards V I
  induction p with
  | done o =>
    cases o with
    | ok a => exact hf a hret
    | err e => trivial
    | panic => trivial
  | load k ih => exact fun v hv => ih v (hp.2 v) (hret v hv)
  | lock e k ih => exact hp.1.elim
  | _ => trivial

/-- A call whose first action is to take the mutex. -/
theorem guards_acquire {e : ε} {f : Unit → Prog σ ω ε α}
    (hf : ∀ db cell, I db cell →
      I ((acquire e >>= f).run (quiet db none cell false)).2.db
        ((acquire e >>= f).run (quiet db none cell false)).2.cell) :
    (acquire e >>= f).Guards V I := hf

theorem guards_bind_pure {p : Prog σ ω ε α} (hp : p.Guards V I) (g : α → β) :
    (p >>= fun a => pure (g a)).Guards V I := by
  change (p.bind fun a => pure (g a)).Guards V I
  induction p with
  | done o => cases o <;> trivial
  | load k ih => exact fun v hv => ih v (hp v hv)
  | lock e k ih =>
    intro db cell h
    have hrun := run_bind_pure_world k g (quiet db none cell true)
    have hkept := hp db cell h
    rw [← hrun] at hkept
    exact hkept
  | _ => trivial

end Prog

namespace Pool

variable (V : ω → Prop) (I : σ → ω → Prop)

/-- The invariant holds while the mutex is free; its holder will restore it. -/
structure Monitored (s : Pool ι σ ω ε α) : Prop where
  phased : s.Phased
  cell : V s.world.cell
  free : s.owner = none → ∃ db cell, s.world = Prog.quiet db none cell false ∧ I db cell
  held : ∀ i, s.owner = some i →
    ∃ db cell, ((s.threads i).prog.run s.world).2 = Prog.quiet db none cell false ∧ I db cell
  outside : ∀ i, s.owner ≠ some i → (s.threads i).prog.Guards V I
  returns : ∀ i, (s.threads i).prog.Returns V fun _ => True
  answered : ∀ i, (s.threads i).result ≠ some .panic

variable {V I} {s t : Pool ι σ ω ε α} {i : ι}

theorem start_monitored {calls : ι → Prog σ ω ε α} {db : σ} {cell : ω} (hV : V cell)
    (hI : I db cell) (hpre : ∀ i, (calls i).Pre) (hg : ∀ i, (calls i).Guards V I)
    (hr : ∀ i, (calls i).Returns V fun _ => True) :
    Monitored V I (start calls (Prog.quiet db none cell false)) where
  phased := start_phased _ hpre
  cell := hV
  free _ := ⟨db, cell, rfl, hI⟩
  held i ho := by cases ho
  outside i _ := hg i
  returns := hr
  answered i := by simp [start]

variable [DecidableEq ι]

theorem Monitored.finish_returns (h : Monitored V I s) {o : Outcome ε α} (j : ι) :
    ((s.finish i o).threads j).prog.Returns V fun _ => True := by
  by_cases hji : j = i
  · subst hji
    rw [finish_self]
    exact h.returns j
  · rw [finish_other s o j hji]
    exact h.returns j

theorem Monitored.finish_answered (h : Monitored V I s) {o : Outcome ε α}
    (hp : (s.threads i).prog = .done o) (j : ι) :
    ((s.finish i o).threads j).result ≠ some .panic := by
  by_cases hji : j = i
  · subst hji
    have hret := h.returns j
    rw [hp] at hret
    rw [finish_self]
    intro hpanic
    rw [Option.some_inj.mp hpanic] at hret
    exact hret
  · rw [finish_other s o j hji]
    exact h.answered j

theorem Monitored.advance_returns (h : Monitored V I s) (j : ι) :
    ((s.advance i).threads j).prog.Returns V fun _ => True := by
  by_cases hji : j = i
  · subst hji
    rw [advance_self]
    exact (Prog.returns_next (h.returns j) s.world h.cell).1
  · rw [advance_other s j hji]
    exact h.returns j

theorem Monitored.advance_answered (h : Monitored V I s) (j : ι) :
    ((s.advance i).threads j).result ≠ some .panic := by
  by_cases hji : j = i
  · subst hji
    rw [advance_self]
    simp
  · rw [advance_other s j hji]
    exact h.answered j

/-- A call that does not hold the mutex returns. -/
theorem Monitored.finish_outside (h : Monitored V I s) {o : Outcome ε α}
    (hp : (s.threads i).prog = .done o) (ho : s.owner ≠ some i) :
    Monitored V I (s.finish i o) := by
  obtain ⟨hworld, howner⟩ := finish_world s o ho
  refine ⟨h.phased.finish i o, ?_, ?_, ?_, ?_, ?_, ?_⟩
  · rw [hworld]
    exact h.cell
  · rw [howner, hworld]
    exact h.free
  · intro j hj
    rw [howner] at hj
    have hji : j ≠ i := by
      intro he
      exact ho (he ▸ hj)
    rw [hworld, finish_other s o j hji]
    exact h.held j hj
  · intro j hj
    rw [howner] at hj
    by_cases hji : j = i
    · subst hji
      rw [finish_self]
      exact h.outside j hj
    · rw [finish_other s o j hji]
      exact h.outside j hj
  · exact h.finish_returns
  · exact h.finish_answered hp

/-- The holder returns, and its guards are dropped. -/
theorem Monitored.finish_held (h : Monitored V I s) {o : Outcome ε α}
    (hp : (s.threads i).prog = .done o) (ho : s.owner = some i) :
    Monitored V I (s.finish i o) := by
  obtain ⟨hworld, howner⟩ := Pool.finish_held s o ho
  obtain ⟨db, cell, hrun, hI⟩ := h.held i ho
  have hleave : (s.finish i o).world = Prog.quiet db none cell false := by
    rw [hworld, ← hrun, hp]
    rfl
  refine ⟨h.phased.finish i o, ?_, ?_, ?_, ?_, ?_, ?_⟩
  · rw [hworld, World.leave_cell]
    exact h.cell
  · exact fun _ => ⟨db, cell, hleave, hI⟩
  · intro j hj
    rw [howner] at hj
    cases hj
  · intro j _
    by_cases hji : j = i
    · subst hji
      rw [finish_self, hp]
      trivial
    · rw [finish_other s o j hji]
      apply h.outside
      rw [ho]
      intro hij
      exact hji (Option.some_inj.mp hij).symm
  · exact h.finish_returns
  · exact h.finish_answered hp

/-- A step that leaves the owner alone. -/
theorem Monitored.advance_same (h : Monitored V I s) (hph : (s.advance i).Phased)
    (howner : (s.advance i).owner = s.owner)
    (hworld : s.owner ≠ some i → (s.advance i).world = s.world)
    (hg : s.owner ≠ some i → ((s.advance i).threads i).prog.Guards V I) :
    Monitored V I (s.advance i) := by
  have hcell := (Prog.returns_next (h.returns i) s.world h.cell).2
  have hself := advance_self s i
  refine ⟨hph, hcell, ?_, ?_, ?_, ?_, ?_⟩
  · intro hfree
    rw [howner] at hfree
    rw [hworld (by rw [hfree]; simp)]
    exact h.free hfree
  · intro j hj
    rw [howner] at hj
    by_cases hji : j = i
    · subst hji
      have hrun : ((s.advance j).threads j).prog.run (s.advance j).world =
          (s.threads j).prog.run s.world := by
        rw [hself]
        exact Prog.run_next _ _
      rw [hrun]
      exact h.held j hj
    · have hi : s.owner ≠ some i := by
        intro hi
        rw [hi] at hj
        exact hji (Option.some_inj.mp hj).symm
      rw [advance_other s j hji, hworld hi]
      exact h.held j hj
  · intro j hj
    rw [howner] at hj
    by_cases hji : j = i
    · subst hji
      exact hg hj
    · rw [advance_other s j hji]
      exact h.outside j hj
  · exact h.advance_returns
  · exact h.advance_answered

/-- A call takes the free mutex. -/
theorem Monitored.advance_lock (h : Monitored V I s) (hph : (s.advance i).Phased) {e : ε}
    {k : Prog σ ω ε α} (hp : (s.threads i).prog = .lock e k) (ho : s.owner = none) :
    Monitored V I (s.advance i) := by
  obtain ⟨db, cell, hw, hI⟩ := h.free ho
  obtain ⟨hret, hcell⟩ := Prog.returns_next (h.returns i) s.world h.cell
  have hself := advance_self s i
  have hpoison : s.world.poisoned = false := by
    rw [hw]
    rfl
  have hnext : (s.threads i).prog.next s.world = (k, Prog.quiet db none cell true) := by
    rw [hp, hw]
    rfl
  have hworld : (s.advance i).world = Prog.quiet db none cell true := by
    rw [advance]
    dsimp only
    rw [hnext]
  have howner : (s.advance i).owner = some i := by
    simp only [advance, ownerAfter, hp, hpoison, Bool.false_eq_true, ite_false]
  have hprog : ((s.advance i).threads i).prog = k := by rw [hself, hnext]
  rw [hnext] at hret
  have hVcell : V cell := by
    have hv := h.cell
    rwa [hw] at hv
  have hguard := h.outside i (by rw [ho]; simp)
  rw [hp] at hguard
  obtain ⟨hpanic, _⟩ := Prog.returns_run hret (Prog.quiet db none cell true) hVcell
  obtain ⟨db', cell', hrun⟩ := Prog.run_quiet hpanic
  have hkept := hguard db cell hI
  rw [hrun] at hkept
  refine ⟨hph, hcell, ?_, ?_, ?_, ?_, ?_⟩
  · intro hn
    rw [howner] at hn
    cases hn
  · intro j hj
    rw [howner] at hj
    obtain rfl := Option.some_inj.mp hj
    rw [hprog, hworld]
    exact ⟨db', cell', hrun, hkept⟩
  · intro j hj
    have hji : j ≠ i := by
      intro he
      rw [he] at hj
      exact hj howner
    rw [advance_other s j hji]
    apply h.outside
    rw [ho]
    simp
  · exact h.advance_returns
  · exact h.advance_answered

/-- The holder drops the mutex; what follows only loads. -/
theorem Monitored.advance_unlock (h : Monitored V I s) (hph : (s.advance i).Phased)
    {k : Prog σ ω ε α} (hp : (s.threads i).prog = .unlock k) (ho : s.owner = some i) :
    Monitored V I (s.advance i) := by
  obtain ⟨db, cell, hrun, hI⟩ := h.held i ho
  have hcell := (Prog.returns_next (h.returns i) s.world h.cell).2
  have hself := advance_self s i
  have hpost : k.Post := by
    have hcrit := (h.phased.held i ho).2
    rwa [hp] at hcrit
  have hworld : (s.advance i).world = s.world.unwind := by simp only [advance, hp, Prog.next]
  have howner : (s.advance i).owner = none := by simp only [advance, ownerAfter, hp]
  have hprog : ((s.advance i).threads i).prog = k := by
    rw [hself, hp]
    rfl
  have hunwind : s.world.unwind = Prog.quiet db none cell false := by
    have hk : ((s.threads i).prog.run s.world).2 = (k.run s.world.unwind).2 := by
      rw [hp]
      rfl
    rw [← hrun, hk, Prog.post_run hpost (World.unwind_idle_world s.world)]
  refine ⟨hph, hcell, ?_, ?_, ?_, ?_, ?_⟩
  · intro _
    rw [hworld]
    exact ⟨db, cell, hunwind, hI⟩
  · intro j hj
    rw [howner] at hj
    cases hj
  · intro j _
    by_cases hji : j = i
    · subst hji
      rw [hprog]
      exact Prog.guards_post hpost
    · rw [advance_other s j hji]
      apply h.outside
      rw [ho]
      intro hij
      exact hji (Option.some_inj.mp hij).symm
  · exact h.advance_returns
  · exact h.advance_answered

theorem Monitored.step (h : Monitored V I s) (ht : s.step i = some t) : Monitored V I t := by
  have hph := h.phased.step ht
  obtain ⟨hr, hdone | ⟨hnd, hlock, rfl⟩⟩ := step_cases ht
  · obtain ⟨o, hp, rfl⟩ := hdone
    by_cases ho : s.owner = some i
    · exact h.finish_held hp ho
    · exact h.finish_outside hp ho
  · by_cases ho : s.owner = some i
    · have hcrit := (h.phased.held i ho).2
      have hkeep : s.ownerAfter i = s.owner → Monitored V I (s.advance i) := by
        intro hsame
        exact h.advance_same hph hsame (fun hn => absurd ho hn) (fun hn => absurd ho hn)
      cases hp : (s.threads i).prog with
      | done o => exact absurd hp (hnd o)
      | lock e k =>
        rw [hp] at hcrit
        exact hcrit.elim
      | unlock k => exact h.advance_unlock hph hp ho
      | _ => exact hkeep (by simp only [ownerAfter, hp])
    · have hpre := h.phased.outside i ho hr
      have hguard := h.outside i ho
      cases hp : (s.threads i).prog with
      | done o => exact absurd hp (hnd o)
      | load k =>
        rw [hp] at hguard
        apply h.advance_same hph
        · simp only [advance, ownerAfter, hp]
        · intro _
          simp only [advance, hp, Prog.next]
        · intro _
          rw [advance_self, hp]
          exact hguard _ h.cell
      | lock e k => exact h.advance_lock hph hp (hlock ⟨e, k, hp⟩)
      | _ => rw [hp] at hpre; exact hpre.elim

theorem run_monitored (h : Monitored V I s) (hr : Run s t) : Monitored V I t := by
  induction hr with
  | refl => exact h
  | step i _ ht ih => exact ih.step ht

end Pool

end LockedStore
