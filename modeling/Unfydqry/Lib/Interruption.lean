import Unfydqry.Lib.CutOff
import Unfydqry.Lib.Rollback

/-! # What a failed program leaves

A condition on the store that holds wherever a failing statement stops a program, built up
along the program: a part that returns hands the countdown on to the next one. -/

namespace LockedStore

variable {σ ω ε α β : Type}

namespace Prog

theorem eval_poisoned (p : Prog σ ω ε α) (w : World σ ω ε) :
    (p.eval w).2.poisoned = w.poisoned := by
  induction p generalizing w with
  | done o => rfl
  | load k ih => exact ih w.cell w
  | store v k ih => exact ih { w with cell := v }
  | lock e k ih =>
    rw [eval]
    split
    · rfl
    · exact ih { w with held := true }
  | unlock k ih => exact ih w.unwind
  | beginTx k ih =>
    rw [eval]
    split
    · rfl
    · exact ih { w.tick with saved := some w.db }
  | commit k ih =>
    rw [eval]
    split
    · rfl
    · exact ih { w.tick with saved := none }
  | exec s k ih =>
    rw [eval]
    split
    · rfl
    · split
      · exact ih _ { w.tick with db := _ }
      · rfl

/-- Only a panic poisons the mutex. -/
theorem run_poisoned {p : Prog σ ω ε α} {w : World σ ω ε} (h : (p.run w).1 ≠ .panic) :
    (p.run w).2.poisoned = w.poisoned := by
  have heval := eval_poisoned p w
  rw [run] at h ⊢
  cases ho : (p.eval w).1 with
  | ok a => exact heval
  | err e => exact heval
  | panic => exact absurd ho h

/-- A part that returns leaves the same failure ahead. -/
theorem eval_failing_ok {p : Prog σ ω ε α} {db : σ} {saved : Option σ} {cell : ω} {held : Bool}
    {k : ℕ} {e : ε} {a : α} {v : World σ ω ε}
    (h : p.eval (failing db saved cell held k e) = (.ok a, v)) :
    ∃ k', v = failing v.db v.saved v.cell v.held k' e := by
  induction p generalizing db saved cell held k with
  | done o =>
    obtain ⟨_, rfl⟩ := Prod.mk.inj h
    exact ⟨k, rfl⟩
  | load f ih => exact ih cell h
  | store x p ih => exact ih h
  | lock pe p ih => exact ih h
  | unlock p ih => exact ih h
  | beginTx p ih =>
    cases k with
    | zero => cases h
    | succ k => exact ih h
  | commit p ih =>
    cases k with
    | zero => cases h
    | succ k => exact ih h
  | exec s f ih =>
    cases k with
    | zero => cases h
    | succ k =>
      cases hs : s db with
      | ok r =>
        obtain ⟨x, db'⟩ := r
        have heval : (Prog.exec s f).eval (failing db saved cell held (k + 1) e) =
            (f x).eval (failing db' saved cell held k e) := by
          simp only [eval, failing, World.due, World.tick, hs]
          rfl
        rw [heval] at h
        exact ih x h
      | error err =>
        simp only [eval, failing, World.due, hs] at h
        cases h

/-- Wherever the program fails, the store and the cell that are left satisfy `P`. -/
def Stops (P : σ → ω → Prop) (p : Prog σ ω ε α) (db : σ) (saved : Option σ) (cell : ω)
    (held : Bool) : Prop :=
  ∀ k e err, (p.eval (failing db saved cell held k e)).1 = .err err →
    P (p.eval (failing db saved cell held k e)).2.unwind.db
      (p.eval (failing db saved cell held k e)).2.cell

variable {P : σ → ω → Prop} {db db' : σ} {saved saved' : Option σ} {cell : ω} {held : Bool}

theorem stops_pure (a : α) : (pure a : Prog σ ω ε α).Stops P db saved cell held := by
  intro k e err h
  cases h

theorem stops_throw (e : ε) (h : P (saved.getD db) cell) :
    (throw e : Prog σ ω ε α).Stops P db saved cell held := fun _ _ _ _ => h

theorem stops_write (v : ω) : (write v : Prog σ ω ε Unit).Stops P db saved cell held := by
  intro k e err h
  cases h

theorem stops_acquire (pe : ε) : (acquire pe : Prog σ ω ε Unit).Stops P db saved cell held := by
  intro k e err h
  cases h

theorem stops_release : (release : Prog σ ω ε Unit).Stops P db saved cell held := by
  intro k e err h
  cases h

/-- A statement that fails leaves the store alone. -/
theorem stops_stmt (s : Stmt σ ε β) (h : P (saved.getD db) cell) :
    (stmt s : Prog σ ω ε β).Stops P db saved cell held := by
  intro k e err herr
  cases k with
  | zero => exact h
  | succ k =>
    cases hs : s db with
    | ok r =>
      rw [eval_stmt_failing_succ db saved cell held k e hs] at herr
      cases herr
    | error x =>
      simp only [stmt, eval, failing, World.due, hs]
      exact h

theorem stops_reads {p : Prog σ ω ε α} (hp : p.Uses outsideTx) (h : P db cell) :
    p.Stops P db none cell held := by
  intro k e err _
  obtain ⟨hkept, hcell⟩ := reads_run hp (failing db none cell held k e) rfl
  have hdb : (p.run (failing db none cell held k e)).2.db =
      (p.eval (failing db none cell held k e)).2.unwind.db := by
    rw [run]
    cases (p.eval (failing db none cell held k e)).1 <;> rfl
  rw [run, World.leave_cell] at hcell
  rw [← hdb, hkept, hcell]
  exact h

theorem stops_allOrNothing {p : Prog σ ω ε α} (hp : p.AllOrNothing) (h : P db cell) :
    p.Stops P db none cell held := by
  intro k e err herr
  obtain ⟨hkept, hcell⟩ := allOrNothing_eval hp (failing db none cell held k e) rfl herr
  show P ((p.eval (failing db none cell held k e)).2.saved.getD
    (p.eval (failing db none cell held k e)).2.db) _
  rw [hkept, hcell]
  exact h

theorem stops_cutOff {p : Prog σ ω ε α} {cuts : List σ} {a : α}
    (h : CutOff p db saved cuts a db' saved') (hcuts : ∀ d ∈ cuts, P d cell) :
    p.Stops P db saved cell held := by
  intro k e err herr
  cases hk : cuts[k]? with
  | some d =>
    obtain ⟨last, open', heval, hleft⟩ := h.stops cell held e k d hk
    rw [heval]
    show P (open'.getD last) cell
    rw [hleft]
    exact hcuts d (List.mem_of_getElem? hk)
  | none =>
    have hge : cuts.length ≤ k := List.getElem?_eq_none_iff.mp hk
    have hpass := h.passes cell held e (k - cuts.length)
    rw [Nat.add_sub_cancel' hge] at hpass
    rw [hpass] at herr
    cases herr

theorem stops_bind {p : Prog σ ω ε α} {f : α → Prog σ ω ε β}
    (hp : p.Stops P db saved cell held)
    (hf : ∀ a db' saved' cell' held',
      p.eval (quiet db saved cell held) = (.ok a, quiet db' saved' cell' held') →
        (f a).Stops P db' saved' cell' held') :
    (p >>= f).Stops P db saved cell held := by
  intro k e err herr
  rw [eval_bind] at herr ⊢
  cases hr : p.eval (failing db saved cell held k e) with
  | mk o v =>
    rw [hr] at herr
    cases o with
    | ok a =>
      obtain ⟨k', hv⟩ := eval_failing_ok hr
      have hquiet := eval_quiet_of_ok hr
      rw [andThen_ok, hv] at herr
      rw [andThen_ok, hv]
      exact hf a v.db v.saved v.cell v.held hquiet k' e err herr
    | err x =>
      have hstop := hp k e x
      rw [hr] at hstop
      exact hstop rfl
    | panic => cases herr

/-- The first part returns where nothing fails. -/
theorem stops_then {p : Prog σ ω ε α} {f : α → Prog σ ω ε β} {a : α} {d : σ} {cell' : ω}
    {held' : Bool} (hp : p.Stops P db saved cell held)
    (heval : p.eval (quiet db saved cell held) = (.ok a, quiet d saved' cell' held'))
    (hf : (f a).Stops P d saved' cell' held') : (p >>= f).Stops P db saved cell held := by
  apply stops_bind hp
  intro b d' s c h hb
  rw [heval] at hb
  obtain ⟨ha, hw⟩ := Prod.mk.inj hb
  cases ha
  cases hw
  exact hf

/-- The store a failed call leaves. -/
theorem Stops.run {p : Prog σ ω ε α} (h : p.Stops P db saved cell held) {k : ℕ} {e f : ε}
    (herr : (p.run (failing db saved cell held k e)).1 = .err f) :
    P (p.run (failing db saved cell held k e)).2.db
      (p.run (failing db saved cell held k e)).2.cell := by
  have herr' : (p.eval (failing db saved cell held k e)).1 = .err f := herr
  have hkept := h k e f herr'
  rw [Prog.run, herr']
  exact hkept

end Prog

end LockedStore
