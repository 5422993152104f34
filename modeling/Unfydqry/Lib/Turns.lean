import Unfydqry.Lib.Interleave

/-! # Programs in turns

The store is shared with others, the cell and the mutex are not. A turn performs one
statement, or one transaction as a whole, and the actions around it that do not touch the
store. Between two turns of a program others may change the store. -/

namespace LockedStore

variable {σ ω ε α β : Type}

namespace Prog

/-- Go on to the next statement or transaction; inside a transaction, on to its end. -/
def rest : Prog σ ω ε α → World σ ω ε → Prog σ ω ε α × World σ ω ε
  | .done o, w => (.done o, w)
  | .load k, w => (k w.cell).rest w
  | .store v k, w => k.rest { w with cell := v }
  | .lock e k, w => if w.poisoned then (.done (.err e), w) else k.rest { w with held := true }
  | .unlock k, w => k.rest w.unwind
  | .beginTx k, w => (.beginTx k, w)
  | .commit k, w =>
    match w.due with
    | some e => (.done (.err e), w)
    | none => k.rest { w.tick with saved := none }
  | .exec s k, w =>
    if w.saved.isNone then (.exec s k, w)
    else
      match w.due with
      | some e => (.done (.err e), w)
      | none =>
        match s w.db with
        | .ok (x, db) => (k x).rest { w.tick with db := db }
        | .error e => (.done (.err e), w)

/-- Perform the statement or open the transaction that comes next. -/
def act (p : Prog σ ω ε α) (w : World σ ω ε) : Prog σ ω ε α × World σ ω ε :=
  (p.next w).1.rest (p.next w).2

/-- One turn. -/
def turn (p : Prog σ ω ε α) (w : World σ ω ε) : Prog σ ω ε α × World σ ω ε :=
  (p.rest w).1.act (p.rest w).2

theorem eval_rest (p : Prog σ ω ε α) (w : World σ ω ε) :
    (p.rest w).1.eval (p.rest w).2 = p.eval w := by
  induction p generalizing w with
  | done o => rfl
  | load k ih => exact ih _ w
  | store v k ih => exact ih _
  | lock e k ih =>
    simp only [rest, eval]
    split
    · rfl
    · exact ih _
  | unlock k ih => exact ih _
  | beginTx k ih => rfl
  | commit k ih =>
    simp only [rest, eval]
    cases w.due with
    | some e => rfl
    | none => exact ih _
  | exec s k ih =>
    simp only [rest]
    split
    · rfl
    · simp only [eval]
      cases w.due with
      | some e => rfl
      | none =>
        cases s w.db with
        | ok r => exact ih _ _
        | error e => rfl

theorem eval_turn (p : Prog σ ω ε α) (w : World σ ω ε) :
    (p.turn w).1.eval (p.turn w).2 = p.eval w := by
  rw [turn, act, eval_rest, eval_next, eval_rest]

theorem run_turn (p : Prog σ ω ε α) (w : World σ ω ε) :
    (p.turn w).1.run (p.turn w).2 = p.run w := by
  simp only [run, eval_turn]

theorem run_done (o : Outcome ε α) (w : World σ ω ε) :
    (done o : Prog σ ω ε α).run w = (o, w.leave o) := rfl

theorem leave_db (o : Outcome ε α) {w : World σ ω ε} (hw : w.saved = none) :
    (w.leave o).db = w.db ∧ (w.leave o).cell = w.cell := by
  cases o <;> simp [World.leave, World.unwind, hw]

/-- `rest` of a sequence stops where `rest` of its first part does. -/
theorem rest_bind (p : Prog σ ω ε α) (f : α → Prog σ ω ε β) (w : World σ ω ε) :
    (p >>= f).rest w = ((p.rest w).1 >>= f).rest (p.rest w).2 := by
  change (p.bind f).rest w = ((p.rest w).1.bind f).rest (p.rest w).2
  induction p generalizing w with
  | done o => rfl
  | load k ih => exact ih _ w
  | store v k ih => exact ih _
  | lock e k ih =>
    simp only [bind, rest]
    split
    · rfl
    · exact ih _
  | unlock k ih => exact ih _
  | beginTx k ih => rfl
  | commit k ih =>
    simp only [bind, rest]
    cases w.due with
    | some e => rfl
    | none => exact ih _
  | exec s k ih =>
    simp only [bind, rest]
    cases hw : w.saved.isNone with
    | true => simp only [if_true, bind, rest, hw]
    | false =>
      simp only [Bool.false_eq_true, if_false]
      cases w.due with
      | some e => rfl
      | none =>
        cases s w.db with
        | ok r => exact ih _ _
        | error e => rfl

theorem rest_loads {p : Prog σ ω ε α} (hp : p.Uses onlyLoads) (w : World σ ω ε) :
    p.rest w = (.done (p.eval w).1, (p.eval w).2) := by
  induction p with
  | done o => rfl
  | load k ih => exact ih _ (hp.2 _)
  | store v k ih => exact hp.1.elim
  | lock e k ih => exact hp.1.elim
  | unlock k ih => exact hp.1.elim
  | beginTx k ih => exact hp.1.elim
  | commit k ih => exact hp.1.elim
  | exec s k ih =>
    rcases hp.1 with hs | hq
    · exact hs.elim
    · exact hq.1.elim

theorem rest_bind_loads {p : Prog σ ω ε α} (hp : p.Uses onlyLoads) (f : α → Prog σ ω ε β)
    {w : World σ ω ε} {a : α} (h : p.eval w = (.ok a, w)) : (p >>= f).rest w = (f a).rest w := by
  rw [rest_bind, rest_loads hp, h]
  rfl

section Statement

variable (s : Stmt σ ε β) (k : β → Prog σ ω ε α) (db : σ) (cell : ω) (held : Bool)

theorem rest_exec_quiet : (exec s k).rest (quiet db none cell held) =
    (exec s k, quiet db none cell held) := by
  simp only [rest, quiet, Option.isNone_none, if_true]

variable {s} {db db' : σ} {x : β}

theorem turn_exec_quiet (h : s db = .ok (x, db')) :
    (exec s k).turn (quiet db none cell held) = (k x).rest (quiet db' none cell held) := by
  have hnext : (exec s k).next (quiet db none cell held) = (k x, quiet db' none cell held) := by
    simp only [next, quiet, World.due, World.tick, h]
    rfl
  rw [turn, rest_exec_quiet]
  dsimp only
  rw [act, hnext]

/-- The turn of a first statement, before which the mutex is taken. -/
theorem turn_lock_quiet (e : ε) (h : s db = .ok (x, db')) :
    (lock e (exec s k)).turn (quiet db none cell false) = (k x).rest (quiet db' none cell true) :=
  turn_exec_quiet k cell true h

end Statement

/-! ### Calls that take one turn -/

/-- Nothing is answered before the mutex is taken. -/
def Locks : Prog σ ω ε α → Prop
  | .done (.ok _) => False
  | .done _ => True
  | .load k => ∀ v, (k v).Locks
  | .lock _ _ => True
  | _ => False

theorem locks_bind {p : Prog σ ω ε α} {f : α → Prog σ ω ε β} (hp : p.Uses onlyLoads)
    (hf : ∀ a, (f a).Locks) : (p >>= f).Locks := by
  change (p.bind f).Locks
  induction p with
  | done o =>
    cases o with
    | ok a => exact hf a
    | err e => trivial
    | panic => trivial
  | load k ih => exact fun v => ih v (hp.2 v)
  | store v k ih => exact hp.1.elim
  | lock e k ih => exact hp.1.elim
  | unlock k ih => exact hp.1.elim
  | beginTx k ih => exact hp.1.elim
  | commit k ih => exact hp.1.elim
  | exec s k ih =>
    rcases hp.1 with hs | hq
    · exact hs.elim
    · exact hq.1.elim

theorem locks_bind_pure {p : Prog σ ω ε α} (hp : p.Locks) (g : α → β) :
    (p >>= fun a => pure (g a)).Locks := by
  change (p.bind fun a => pure (g a)).Locks
  induction p with
  | done o =>
    cases o with
    | ok a => exact hp.elim
    | err e => trivial
    | panic => trivial
  | load k ih => exact fun v => ih v (hp v)
  | store v k ih => exact hp.elim
  | lock e k ih => trivial
  | unlock k ih => exact hp.elim
  | beginTx k ih => exact hp.elim
  | commit k ih => exact hp.elim
  | exec s k ih => exact hp.elim

theorem turn_poisoned {p : Prog σ ω ε α} (hp : p.Locks) (w : World σ ω ε)
    (hw : w.poisoned = true) : ∃ o, (∀ a, o ≠ .ok a) ∧ p.turn w = (.done o, w) := by
  induction p with
  | done o =>
    cases o with
    | ok a => exact hp.elim
    | err e => exact ⟨_, by simp, rfl⟩
    | panic => exact ⟨_, by simp, rfl⟩
  | load k ih => exact ih _ (hp _)
  | store v k ih => exact hp.elim
  | lock e k ih =>
    refine ⟨.err e, by simp, ?_⟩
    simp only [turn, rest, hw, if_true, act, next]
  | unlock k ih => exact hp.elim
  | beginTx k ih => exact hp.elim
  | commit k ih => exact hp.elim
  | exec s k ih => exact hp.elim

theorem rest_settled {p : Prog σ ω ε α} (hp : p.Settled) (w : World σ ω ε) :
    ∃ o, (p.rest w).1 = .done o := by
  induction p generalizing w with
  | done o => exact ⟨o, rfl⟩
  | load k ih => exact ih _ (hp _) w
  | store v k ih => exact ih hp _
  | lock e k ih => exact hp.elim
  | unlock k ih => exact ih hp _
  | beginTx k ih => exact hp.elim
  | commit k ih => exact hp.elim
  | exec s k ih => exact hp.elim

theorem rest_inTx {p : Prog σ ω ε α} (hp : p.InTx) (w : World σ ω ε)
    (hw : w.saved.isNone = false) : ∃ o, (p.rest w).1 = .done o := by
  induction p generalizing w with
  | done o => exact ⟨o, rfl⟩
  | load k ih => exact ih _ (hp _) w hw
  | store v k ih => exact hp.elim
  | lock e k ih => exact hp.elim
  | unlock k ih => exact hp.elim
  | beginTx k ih => exact hp.elim
  | commit k ih =>
    simp only [rest]
    split
    · exact ⟨_, rfl⟩
    · exact rest_settled hp _
  | exec s k ih =>
    simp only [rest, hw, Bool.false_eq_true, if_false]
    split
    · exact ⟨_, rfl⟩
    · split
      · exact ih _ (hp _) _ hw
      · exact ⟨_, rfl⟩

theorem turn_oneTx {p : Prog σ ω ε α} (hp : p.OneTx) (w : World σ ω ε) :
    ∃ o, (p.turn w).1 = .done o := by
  induction p generalizing w with
  | done o => exact ⟨o, rfl⟩
  | load k ih => exact ih _ (hp _) w
  | store v k ih => exact hp.elim
  | lock e k ih =>
    cases hpo : w.poisoned with
    | true =>
      refine ⟨.err e, ?_⟩
      simp only [turn, rest, hpo, if_true, act, next]
    | false =>
      have h := ih hp { w with held := true }
      simp only [turn, rest, hpo, Bool.false_eq_true, if_false] at h ⊢
      exact h
  | unlock k ih => exact hp.elim
  | beginTx k ih =>
    simp only [turn, rest, act, next]
    split
    · exact ⟨_, rfl⟩
    · exact rest_inTx hp _ rfl
  | commit k ih => exact hp.elim
  | exec s k ih => exact hp.elim

/-! ### Calls that only read -/

/-- What a reading call may rely on between two turns. -/
structure Untouched (p : Prog σ ω ε α) (w w' : World σ ω ε) : Prop where
  uses : p.Uses outsideTx
  db : w'.db = w.db
  cell : w'.cell = w.cell
  saved : w'.saved = none

theorem rest_reads {p : Prog σ ω ε α} (hp : p.Uses outsideTx) (w : World σ ω ε)
    (hw : w.saved = none) : Untouched (p.rest w).1 w (p.rest w).2 := by
  induction p generalizing w with
  | done o => exact ⟨trivial, rfl, rfl, hw⟩
  | load k ih => exact ih _ (hp.2 _) w hw
  | store v k ih => exact hp.1.elim
  | lock e k ih =>
    simp only [rest]
    split
    · exact ⟨trivial, rfl, rfl, hw⟩
    · obtain ⟨huses, hd, hc, hs⟩ := ih hp.2 { w with held := true } hw
      exact ⟨huses, hd, hc, hs⟩
  | unlock k ih =>
    have hdb : w.unwind.db = w.db := by rw [World.unwind, hw, Option.getD_none]
    obtain ⟨huses, hd, hc, hs⟩ := ih hp.2 w.unwind rfl
    exact ⟨huses, hd.trans hdb, hc, hs⟩
  | beginTx k ih => exact hp.1.elim
  | commit k ih => exact hp.1.elim
  | exec s k ih =>
    simp only [rest, hw, Option.isNone_none, if_true]
    exact ⟨hp, rfl, rfl, hw⟩

theorem next_reads {p : Prog σ ω ε α} (hp : p.Uses outsideTx) (w : World σ ω ε)
    (hw : w.saved = none) : Untouched (p.next w).1 w (p.next w).2 := by
  cases p with
  | done o => exact ⟨trivial, rfl, rfl, hw⟩
  | load k => exact ⟨hp.2 _, rfl, rfl, hw⟩
  | store v k => exact hp.1.elim
  | lock e k =>
    simp only [next]
    split
    · exact ⟨trivial, rfl, rfl, hw⟩
    · exact ⟨hp.2, rfl, rfl, hw⟩
  | unlock k =>
    have hdb : w.unwind.db = w.db := by rw [World.unwind, hw, Option.getD_none]
    exact ⟨hp.2, hdb, rfl, rfl⟩
  | beginTx k => exact hp.1.elim
  | commit k => exact hp.1.elim
  | exec s k =>
    rcases hp.1 with hs | hq
    · exact hs.elim
    · simp only [next]
      split
      · exact ⟨trivial, rfl, rfl, hw⟩
      · split
        · rename_i x db hdb
          exact ⟨hp.2 x, hq.2 _ _ _ hdb, rfl, hw⟩
        · exact ⟨trivial, rfl, rfl, hw⟩

theorem Untouched.trans {p q : Prog σ ω ε α} {w w' w'' : World σ ω ε} (h : Untouched p w w')
    (h' : Untouched q w' w'') : Untouched q w w'' :=
  ⟨h'.uses, h'.db.trans h.db, h'.cell.trans h.cell, h'.saved⟩

theorem turn_reads {p : Prog σ ω ε α} (hp : p.Uses outsideTx) (w : World σ ω ε)
    (hw : w.saved = none) : Untouched (p.turn w).1 w (p.turn w).2 := by
  have hrest := rest_reads hp w hw
  have hnext := next_reads hrest.uses (p.rest w).2 hrest.saved
  exact (hrest.trans hnext).trans (rest_reads hnext.uses _ hnext.saved)

end Prog

end LockedStore
