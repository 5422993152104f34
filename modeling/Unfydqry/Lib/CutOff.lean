import Unfydqry.Lib.Prog

/-! # Programs cut off between two statements

A process that stops, or a call that fails, before its statement `k` leaves the store as
the statements before `k` made it; an open transaction is rolled back. -/

namespace LockedStore

namespace Prog

variable {σ ω ε α β : Type}

/-- From the store `db` the program makes `cuts.length` statements, returns `a` and leaves
`db'`; cut off at one of them it leaves that one's store in `cuts`. -/
structure CutOff (p : Prog σ ω ε α) (db : σ) (saved : Option σ) (cuts : List σ) (a : α) (db' : σ)
    (saved' : Option σ) : Prop where
  stops : ∀ (cell : ω) held (e : ε) k d, cuts[k]? = some d → ∃ last open',
    p.eval (failing db saved cell held k e) = (.err e, failing last open' cell held 0 e) ∧
      open'.getD last = d
  passes : ∀ (cell : ω) held (e : ε) k,
    p.eval (failing db saved cell held (cuts.length + k) e) =
      (.ok a, failing db' saved' cell held k e)

namespace CutOff

variable {db db' db'' : σ} {saved saved' saved'' : Option σ} {cuts c : List σ}

theorem pure (a : α) (db : σ) (saved : Option σ) :
    CutOff (Pure.pure a : Prog σ ω ε α) db saved [] a db saved where
  stops cell held e k d h := by cases h
  passes cell held e k := by
    rw [List.length_nil, Nat.zero_add, eval_pure]

/-- One statement: cut off there, it has not run. -/
theorem stmt {s : Stmt σ ε β} {x : β} (saved : Option σ) (h : s db = .ok (x, db')) :
    CutOff (Prog.stmt s : Prog σ ω ε β) db saved [saved.getD db] x db' saved where
  stops cell held e k d hk := by
    cases k with
    | zero => exact ⟨db, saved, eval_stmt_failing_zero _ _ _ _ _ _, Option.some.inj hk⟩
    | succ k => cases hk
  passes cell held e k := by
    rw [List.length_singleton, Nat.add_comm]
    exact eval_stmt_failing_succ _ _ _ _ _ _ h

theorem startTx (db : σ) :
    CutOff (Prog.startTx : Prog σ ω ε Unit) db none [db] () db (some db) where
  stops cell held e k d hk := by
    cases k with
    | zero => exact ⟨db, none, rfl, Option.some.inj hk⟩
    | succ k => cases hk
  passes cell held e k := by
    rw [List.length_singleton, Nat.add_comm]
    rfl

theorem commitTx (db d : σ) :
    CutOff (Prog.commitTx : Prog σ ω ε Unit) db (some d) [d] () db none where
  stops cell held e k d' hk := by
    cases k with
    | zero => exact ⟨db, some d, rfl, Option.some.inj hk⟩
    | succ k => cases hk
  passes cell held e k := by
    rw [List.length_singleton, Nat.add_comm]
    rfl

/-- The second program runs only when the first is not cut off. -/
theorem bind {p : Prog σ ω ε α} {f : α → Prog σ ω ε β} {a : α} {b : β}
    (hp : CutOff p db saved cuts a db' saved') (hf : CutOff (f a) db' saved' c b db'' saved'') :
    CutOff (p >>= f) db saved (cuts ++ c) b db'' saved'' where
  stops cell held e k d hk := by
    rw [eval_bind]
    by_cases hlt : k < cuts.length
    · rw [List.getElem?_append_left hlt] at hk
      obtain ⟨last, open', heval, hleft⟩ := hp.stops cell held e k d hk
      exact ⟨last, open', by rw [heval, andThen_err], hleft⟩
    · have hge : cuts.length ≤ k := Nat.not_lt.mp hlt
      rw [List.getElem?_append_right hge] at hk
      have hpass := hp.passes cell held e (k - cuts.length)
      rw [Nat.add_sub_cancel' hge] at hpass
      rw [hpass, andThen_ok]
      exact hf.stops cell held e _ d hk
  passes cell held e k := by
    rw [eval_bind, List.length_append, Nat.add_assoc, hp.passes, andThen_ok, hf.passes]

/-- A loop inside a transaction: wherever it is cut off, the store goes back to `d`. -/
theorem each {f : α → Prog σ ω ε Unit} {g : σ → α → σ} {d : σ}
    (hf : ∀ a db, CutOff (f a) db (some d) [d] () (g db a) (some d)) (as : List α) (db : σ) :
    CutOff (Prog.each f as) db (some d) (List.replicate as.length d) () (as.foldl g db)
      (some d) := by
  induction as generalizing db with
  | nil => exact pure () db (some d)
  | cons a as ih =>
    have hloop := bind (f := fun _ => Prog.each f as) (hf a db) (ih (g db a))
    rw [List.singleton_append, ← List.replicate_succ] at hloop
    exact hloop

/-- What a whole call leaves when it is cut off at statement `k`. -/
theorem run_db {p : Prog σ ω ε α} {a : α} (h : CutOff p db none cuts a db' none) (cell : ω)
    (held : Bool) (e : ε) (k : ℕ) :
    (p.run (failing db none cell held k e)).2.db = cuts[k]?.getD db' := by
  cases hk : cuts[k]? with
  | some d =>
    obtain ⟨last, open', heval, hleft⟩ := h.stops cell held e k d hk
    rw [run_of_eval heval, leave_failing _ _ _ _ _ _ _ (by simp), Option.getD_some]
    exact hleft
  | none =>
    have hge : cuts.length ≤ k := List.getElem?_eq_none_iff.mp hk
    have hpass := h.passes cell held e (k - cuts.length)
    rw [Nat.add_sub_cancel' hge] at hpass
    rw [run_of_eval hpass, leave_failing _ _ _ _ _ _ _ (by simp), Option.getD_none]
    rfl

end CutOff

end Prog

end LockedStore
