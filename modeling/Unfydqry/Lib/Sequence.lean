import Unfydqry.Lib.Turns

/-! # Calls made one after the other -/

namespace LockedStore

variable {σ ω ε α β : Type}

namespace Prog

/-- The world after one call for each element, when all of them return. -/
def runEach (call : α → Prog σ ω ε Unit) : List α → World σ ω ε → Option (World σ ω ε)
  | [], w => some w
  | a :: as, w =>
    match (call a).run w with
    | (.ok (), v) => runEach call as v
    | _ => none

/-- A batch returns its length, and the world is the one the single calls leave. -/
def BatchesEach (call : α → Prog σ ω ε Unit) (batch : List α → Prog σ ω ε ℕ)
    (w : World σ ω ε) : Prop :=
  ∀ as n v, (batch as).run w = (.ok n, v) ↔ runEach call as w = some v ∧ n = as.length

variable {call : α → Prog σ ω ε Unit} {batch : List α → Prog σ ω ε ℕ}

theorem runEach_cons_ok {a : α} {as : List α} {w v : World σ ω ε}
    (h : (call a).run w = (.ok (), v)) : runEach call (a :: as) w = runEach call as v := by
  rw [runEach, h]

theorem runEach_cons_failed {a : α} {as : List α} {w : World σ ω ε}
    (h : ∀ v, (call a).run w ≠ (.ok (), v)) : runEach call (a :: as) w = none := by
  rw [runEach]
  split
  · rename_i v hv
    exact absurd hv (h v)
  · rfl

theorem answer_eq_iff {k n : ℕ} {u v : World σ ω ε} :
    ((.ok k, u) : Outcome ε ℕ × World σ ω ε) = (.ok n, v) ↔ some u = some v ∧ n = k := by
  rw [Prod.mk.injEq, Outcome.ok.injEq, Option.some.injEq, and_comm, eq_comm (a := k)]

/-! ### Worlds where nothing fails -/

section Quiet

variable {cell : ω} {P : α → Prop} {g : σ → α → σ}
  (hok : ∀ a db, P a → (call a).run (quiet db none cell false) =
    (.ok (), quiet (g db a) none cell false))
  (hbad : ∀ a db, ¬ P a → ∃ e, (call a).run (quiet db none cell false) =
    (.err e, quiet db none cell false))

include hok in
theorem runEach_quiet (as : List α) (db : σ) (h : ∀ a ∈ as, P a) :
    runEach call as (quiet db none cell false) =
      some (quiet (as.foldl g db) none cell false) := by
  induction as generalizing db with
  | nil => rfl
  | cons a as ih =>
    rw [List.forall_mem_cons] at h
    rw [runEach_cons_ok (hok a db h.1), ih _ h.2, List.foldl_cons]

include hok hbad in
theorem runEach_quiet_refused (as : List α) (db : σ) (h : ¬ ∀ a ∈ as, P a) :
    runEach call as (quiet db none cell false) = none := by
  induction as generalizing db with
  | nil => exact absurd (by simp) h
  | cons a as ih =>
    by_cases ha : P a
    · rw [runEach_cons_ok (hok a db ha)]
      exact ih _ fun hall => h (List.forall_mem_cons.mpr ⟨ha, hall⟩)
    · obtain ⟨e, he⟩ := hbad a db ha
      refine runEach_cons_failed fun v hv => ?_
      rw [he] at hv
      cases hv

include hok hbad in
theorem batchesEach_quiet (db : σ)
    (hbatch : ∀ as, (∀ a ∈ as, P a) → (batch as).run (quiet db none cell false) =
      (.ok as.length, quiet (as.foldl g db) none cell false))
    (hrefused : ∀ as, ¬ (∀ a ∈ as, P a) → ∃ e, (batch as).run (quiet db none cell false) =
      (.err e, quiet db none cell false)) :
    BatchesEach call batch (quiet db none cell false) := by
  intro as n v
  by_cases h : ∀ a ∈ as, P a
  · rw [hbatch as h, runEach_quiet hok as db h]
    exact answer_eq_iff
  · obtain ⟨e, he⟩ := hrefused as h
    rw [he, runEach_quiet_refused hok hbad as db h]
    simp

end Quiet

/-! ### A poisoned mutex -/

theorem locks_run_poisoned {p : Prog σ ω ε α} (hp : p.Locks) (w : World σ ω ε)
    (hw : w.poisoned = true) (a : α) (v : World σ ω ε) : p.run w ≠ (.ok a, v) := by
  suffices hfailed : (p.eval w).1 ≠ .ok a by
    intro h
    exact hfailed (congrArg Prod.fst h)
  induction p with
  | done o =>
    cases o with
    | ok a => exact hp.elim
    | err e => simp [eval]
    | panic => simp [eval]
  | load k ih => exact ih _ (hp _)
  | store v k ih => exact hp.elim
  | lock e k ih => simp [eval, hw]
  | unlock k ih => exact hp.elim
  | beginTx k ih => exact hp.elim
  | commit k ih => exact hp.elim
  | exec s k ih => exact hp.elim

/-- On a poisoned mutex only the empty batch returns. -/
theorem batchesEach_poisoned {w : World σ ω ε} (hw : w.Idle) (hp : w.poisoned = true)
    (hnil : batch [] = pure 0) (hcall : ∀ a, (call a).Locks)
    (hbatch : ∀ a as, (batch (a :: as)).Locks) : BatchesEach call batch w := by
  intro as n v
  cases as with
  | nil =>
    have hrun : (pure 0 : Prog σ ω ε ℕ).run w = (.ok 0, w) := by
      rw [run, eval_pure, World.leave_idle _ hw]
    rw [hnil, hrun]
    exact answer_eq_iff
  | cons a as =>
    rw [runEach_cons_failed (locks_run_poisoned (hcall a) w hp ())]
    have hfailed := locks_run_poisoned (hbatch a as) w hp n v
    exact ⟨fun h => absurd h hfailed, fun h => by simp at h⟩

end Prog

end LockedStore
