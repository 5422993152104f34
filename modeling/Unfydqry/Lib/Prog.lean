import Mathlib.Tactic.Common

/-! # Programs over one locked store and one atomic cell

A program performs statements on a store `σ` that is guarded by a mutex, may
group statements into a transaction, and reads or writes one atomic cell `ω`
that no lock guards. A statement either succeeds or fails and leaves the store
alone. A failure ends the program: the error is returned, an open transaction
is rolled back and the mutex is released. A panic does the same and poisons the
mutex when it was held. -/

namespace LockedStore

/-- How a program ends. -/
inductive Outcome (ε α : Type) where
  | ok (a : α)
  | err (e : ε)
  | panic
  deriving Repr, DecidableEq

/-- One statement: an answer and the new store, or an error and no change. -/
abbrev Stmt (σ ε β : Type) := σ → Except ε (β × σ)

def Stmt.ReadOnly {σ ε β : Type} (s : Stmt σ ε β) : Prop :=
  ∀ db x db', s db = .ok (x, db') → db' = db

inductive Prog (σ ω ε α : Type) : Type 1 where
  | done (o : Outcome ε α)
  | load (k : ω → Prog σ ω ε α)
  | store (v : ω) (k : Prog σ ω ε α)
  /-- Take the mutex; `e` is the error when it is poisoned. -/
  | lock (e : ε) (k : Prog σ ω ε α)
  /-- Drop the mutex guard, and the transaction that borrows it. -/
  | unlock (k : Prog σ ω ε α)
  | beginTx (k : Prog σ ω ε α)
  | commit (k : Prog σ ω ε α)
  | exec {β : Type} (s : Stmt σ ε β) (k : β → Prog σ ω ε α)

variable {σ ω ε α β γ : Type}

namespace Prog

def bind : Prog σ ω ε α → (α → Prog σ ω ε β) → Prog σ ω ε β
  | .done (.ok a), f => f a
  | .done (.err e), _ => .done (.err e)
  | .done .panic, _ => .done .panic
  | .load k, f => .load fun v => (k v).bind f
  | .store v k, f => .store v (k.bind f)
  | .lock e k, f => .lock e (k.bind f)
  | .unlock k, f => .unlock (k.bind f)
  | .beginTx k, f => .beginTx (k.bind f)
  | .commit k, f => .commit (k.bind f)
  | .exec s k, f => .exec s fun x => (k x).bind f

instance : Monad (Prog σ ω ε) where
  pure a := .done (.ok a)
  bind := bind

/-- Return an error. -/
def throw (e : ε) : Prog σ ω ε α := .done (.err e)

/-- A checked operation: `none` is a trap. -/
def trap : Option α → Prog σ ω ε α
  | some a => .done (.ok a)
  | none => .done .panic

/-- Read the atomic cell. -/
def read : Prog σ ω ε ω := .load pure

/-- Write the atomic cell. -/
def write (v : ω) : Prog σ ω ε Unit := .store v (pure ())

def acquire (e : ε) : Prog σ ω ε Unit := .lock e (pure ())

def release : Prog σ ω ε Unit := .unlock (pure ())

def startTx : Prog σ ω ε Unit := .beginTx (pure ())

def commitTx : Prog σ ω ε Unit := .commit (pure ())

/-- Run one statement. -/
def stmt (s : Stmt σ ε β) : Prog σ ω ε β := .exec s pure

/-- Run `f` on every element in order. -/
def each (f : α → Prog σ ω ε Unit) : List α → Prog σ ω ε Unit
  | [] => pure ()
  | a :: as => do
    f a
    each f as

/-- Run `f` on every element in order and collect the results. -/
def traverse (f : α → Prog σ ω ε β) : List α → Prog σ ω ε (List β)
  | [] => pure []
  | a :: as => do
    let b ← f a
    let bs ← traverse f as
    pure (b :: bs)

end Prog

/-- What a program runs against. `saved` is the store at the start of the open
transaction. `fault` names the statement that fails, counted from the next one. -/
structure World (σ ω ε : Type) where
  db : σ
  saved : Option σ := none
  cell : ω
  held : Bool := false
  poisoned : Bool := false
  fault : Option (Nat × ε) := none

namespace World

/-- The error of the next statement, when it is the one that fails. -/
def due (w : World σ ω ε) : Option ε :=
  match w.fault with
  | some (0, e) => some e
  | _ => none

/-- One statement of the countdown has succeeded. -/
def tick (w : World σ ω ε) : World σ ω ε :=
  { w with fault := w.fault.map fun f => (f.1 - 1, f.2) }

/-- Drop the guards: roll an open transaction back and release the mutex. -/
def unwind (w : World σ ω ε) : World σ ω ε :=
  { w with db := w.saved.getD w.db, saved := none, held := false }

/-- The world after a call has returned. -/
def leave (o : Outcome ε α) (w : World σ ω ε) : World σ ω ε :=
  match o with
  | .panic => { w.unwind with poisoned := w.poisoned || w.held }
  | _ => w.unwind

theorem leave_cell (o : Outcome ε α) (w : World σ ω ε) : (w.leave o).cell = w.cell := by
  cases o <;> rfl

/-- No call is running. -/
def Idle (w : World σ ω ε) : Prop := w.saved = none ∧ w.held = false

end World

namespace Prog

/-- The first action of a program. -/
def next : Prog σ ω ε α → World σ ω ε → Prog σ ω ε α × World σ ω ε
  | .done o, w => (.done o, w)
  | .load k, w => (k w.cell, w)
  | .store v k, w => (k, { w with cell := v })
  | .lock e k, w => if w.poisoned then (.done (.err e), w) else (k, { w with held := true })
  | .unlock k, w => (k, w.unwind)
  | .beginTx k, w =>
    match w.due with
    | some e => (.done (.err e), w)
    | none => (k, { w.tick with saved := some w.db })
  | .commit k, w =>
    match w.due with
    | some e => (.done (.err e), w)
    | none => (k, { w.tick with saved := none })
  | .exec s k, w =>
    match w.due with
    | some e => (.done (.err e), w)
    | none =>
      match s w.db with
      | .ok (x, db) => (k x, { w.tick with db := db })
      | .error e => (.done (.err e), w)

/-- All actions of a program, guards not yet dropped. -/
def eval : Prog σ ω ε α → World σ ω ε → Outcome ε α × World σ ω ε
  | .done o, w => (o, w)
  | .load k, w => (k w.cell).eval w
  | .store v k, w => k.eval { w with cell := v }
  | .lock e k, w => if w.poisoned then (.err e, w) else k.eval { w with held := true }
  | .unlock k, w => k.eval w.unwind
  | .beginTx k, w =>
    match w.due with
    | some e => (.err e, w)
    | none => k.eval { w.tick with saved := some w.db }
  | .commit k, w =>
    match w.due with
    | some e => (.err e, w)
    | none => k.eval { w.tick with saved := none }
  | .exec s k, w =>
    match w.due with
    | some e => (.err e, w)
    | none =>
      match s w.db with
      | .ok (x, db) => (k x).eval { w.tick with db := db }
      | .error e => (.err e, w)

/-- One whole call. -/
def run (p : Prog σ ω ε α) (w : World σ ω ε) : Outcome ε α × World σ ω ε :=
  ((p.eval w).1, (p.eval w).2.leave (p.eval w).1)

/-! ### Evaluation -/

/-- Continue with the value of a finished part, or keep its failure. -/
def andThen (r : Outcome ε α × World σ ω ε) (f : α → Prog σ ω ε β) :
    Outcome ε β × World σ ω ε :=
  match r with
  | (.ok a, w) => (f a).eval w
  | (.err e, w) => (.err e, w)
  | (.panic, w) => (.panic, w)

@[simp] theorem andThen_ok (a : α) (w : World σ ω ε) (f : α → Prog σ ω ε β) :
    andThen (.ok a, w) f = (f a).eval w := rfl

@[simp] theorem andThen_err (e : ε) (w : World σ ω ε) (f : α → Prog σ ω ε β) :
    andThen (.err e, w) f = (.err e, w) := rfl

@[simp] theorem andThen_panic (w : World σ ω ε) (f : α → Prog σ ω ε β) :
    andThen (.panic, w) f = (.panic, w) := rfl

theorem andThen_pure (r : Outcome ε α × World σ ω ε) : andThen r pure = r := by
  obtain ⟨o, w⟩ := r
  cases o <;> rfl

theorem andThen_of_ok {r : Outcome ε α × World σ ω ε} {a : α} (f : α → Prog σ ω ε β)
    (h : r.1 = .ok a) : andThen r f = (f a).eval r.2 := by
  obtain ⟨o, w⟩ := r
  obtain rfl := h
  rfl

theorem andThen_of_err {r : Outcome ε α × World σ ω ε} {e : ε} (f : α → Prog σ ω ε β)
    (h : r.1 = .err e) : (andThen r f).1 = .err e := by
  obtain ⟨o, w⟩ := r
  obtain rfl := h
  rfl

theorem eval_bind (p : Prog σ ω ε α) (f : α → Prog σ ω ε β) (w : World σ ω ε) :
    (p >>= f).eval w = andThen (p.eval w) f := by
  change (p.bind f).eval w = _
  induction p generalizing w with
  | done o => cases o <;> rfl
  | load k ih => exact ih _ _
  | store v k ih => exact ih _
  | lock e k ih =>
    simp only [bind, eval]
    split
    · rfl
    · exact ih _
  | unlock k ih => exact ih _
  | beginTx k ih =>
    simp only [bind, eval]
    split
    · rfl
    · exact ih _
  | commit k ih =>
    simp only [bind, eval]
    split
    · rfl
    · exact ih _
  | exec s k ih =>
    simp only [bind, eval]
    split
    · rfl
    · split
      · exact ih _ _
      · rfl

@[simp] theorem eval_pure (a : α) (w : World σ ω ε) :
    (pure a : Prog σ ω ε α).eval w = (.ok a, w) := rfl

@[simp] theorem eval_throw (e : ε) (w : World σ ω ε) :
    (throw e : Prog σ ω ε α).eval w = (.err e, w) := rfl

@[simp] theorem eval_trap_some (a : α) (w : World σ ω ε) :
    (trap (some a) : Prog σ ω ε α).eval w = (.ok a, w) := rfl

@[simp] theorem eval_read (w : World σ ω ε) :
    (read : Prog σ ω ε ω).eval w = (.ok w.cell, w) := rfl

theorem eval_stmt_ok (s : Stmt σ ε β) (w : World σ ω ε) (h : w.fault = none)
    {x : β} {db : σ} (hs : s w.db = .ok (x, db)) :
    (stmt s : Prog σ ω ε β).eval w = (.ok x, { w with db := db }) := by
  cases w
  subst h
  simp only [stmt, eval, World.due, World.tick, Option.map_none] at hs ⊢
  rw [hs]
  rfl

theorem eval_stmt_error (s : Stmt σ ε β) (w : World σ ω ε) (h : w.fault = none)
    {e : ε} (hs : s w.db = .error e) :
    (stmt s : Prog σ ω ε β).eval w = (.err e, w) := by
  cases w
  subst h
  simp only [stmt, eval, World.due] at hs ⊢
  rw [hs]

theorem map_eq_bind (g : α → β) (p : Prog σ ω ε α) : g <$> p = p >>= fun a => pure (g a) := rfl

theorem run_bind_pure_world (p : Prog σ ω ε α) (g : α → β) (w : World σ ω ε) :
    ((p >>= fun a => pure (g a)).run w).2 = (p.run w).2 := by
  rw [run, run, eval_bind]
  rcases p.eval w with ⟨o, w'⟩
  cases o <;> rfl

theorem run_bind_pure_ok {p : Prog σ ω ε α} (g : α → β) {w v : World σ ω ε} {a : α}
    (h : p.run w = (.ok a, v)) : (p >>= fun a => pure (g a)).run w = (.ok (g a), v) := by
  rw [run, Prod.mk.injEq] at h
  rw [run, eval_bind]
  rcases hp : p.eval w with ⟨o, w'⟩
  rw [hp] at h
  obtain ⟨rfl, hv⟩ := h
  rw [← hv]
  rfl

theorem run_bind_pure_err {p : Prog σ ω ε α} (g : α → β) {w v : World σ ω ε} {e : ε}
    (h : p.run w = (.err e, v)) : (p >>= fun a => pure (g a)).run w = (.err e, v) := by
  rw [run, Prod.mk.injEq] at h
  rw [run, eval_bind]
  rcases hp : p.eval w with ⟨o, w'⟩
  rw [hp] at h
  obtain ⟨rfl, hv⟩ := h
  rw [← hv]
  rfl

theorem run_bind_pure_congr {p : Prog σ ω ε α} (g : α → β) {w w' : World σ ω ε}
    (h : (p.run w).1 = (p.run w').1) :
    ((p >>= fun a => pure (g a)).run w).1 = ((p >>= fun a => pure (g a)).run w').1 := by
  rw [run, run] at h
  dsimp only at h
  rw [run, run, eval_bind, eval_bind]
  rcases hp : p.eval w with ⟨o, v⟩
  rcases hp' : p.eval w' with ⟨o', v'⟩
  rw [hp, hp'] at h
  dsimp only at h
  subst h
  cases o <;> rfl

/-! ### Worlds where nothing fails -/

/-- No statement fails and the mutex is not poisoned. -/
def quiet (db : σ) (saved : Option σ) (cell : ω) (held : Bool) : World σ ω ε where
  db := db
  saved := saved
  cell := cell
  held := held

section Quiet

variable (db : σ) (saved : Option σ) (cell : ω) (held : Bool)

@[simp] theorem quiet_fault : (quiet db saved cell held : World σ ω ε).fault = none := rfl

@[simp] theorem eval_read_quiet :
    (read : Prog σ ω ε ω).eval (quiet db saved cell held) =
      (.ok cell, quiet db saved cell held) := rfl

@[simp] theorem eval_write_quiet (v : ω) :
    (write v : Prog σ ω ε Unit).eval (quiet db saved cell held) =
      (.ok (), quiet db saved v held) := rfl

@[simp] theorem eval_acquire_quiet (e : ε) :
    (acquire e : Prog σ ω ε Unit).eval (quiet db saved cell held) =
      (.ok (), quiet db saved cell true) := rfl

@[simp] theorem eval_release_quiet :
    (release : Prog σ ω ε Unit).eval (quiet db saved cell held) =
      (.ok (), quiet (saved.getD db) none cell false) := rfl

@[simp] theorem eval_startTx_quiet :
    (startTx : Prog σ ω ε Unit).eval (quiet db saved cell held) =
      (.ok (), quiet db (some db) cell held) := rfl

@[simp] theorem eval_commitTx_quiet :
    (commitTx : Prog σ ω ε Unit).eval (quiet db saved cell held) =
      (.ok (), quiet db none cell held) := rfl

theorem eval_stmt_quiet_ok {s : Stmt σ ε β} {x : β} {db' : σ} (hs : s db = .ok (x, db')) :
    (stmt s : Prog σ ω ε β).eval (quiet db saved cell held) =
      (.ok x, quiet db' saved cell held) :=
  eval_stmt_ok s _ rfl hs

theorem eval_stmt_quiet_error {s : Stmt σ ε β} {e : ε} (hs : s db = .error e) :
    (stmt s : Prog σ ω ε β).eval (quiet db saved cell held) =
      (.err e, quiet db saved cell held) :=
  eval_stmt_error s _ rfl hs

theorem eval_each_quiet {f : α → Prog σ ω ε Unit} {g : σ → α → σ}
    (hf : ∀ a db, (f a).eval (quiet db saved cell held) =
      (.ok (), quiet (g db a) saved cell held)) (as : List α) :
    (each f as).eval (quiet db saved cell held) =
      (.ok (), quiet (as.foldl g db) saved cell held) := by
  induction as generalizing db with
  | nil => rfl
  | cons a as ih => simp only [each, eval_bind, hf, andThen_ok, ih, List.foldl_cons]

theorem eval_traverse_ok {f : α → Prog σ ω ε β} {g : α → β} (w : World σ ω ε) (as : List α)
    (hf : ∀ a ∈ as, (f a).eval w = (.ok (g a), w)) :
    (traverse f as).eval w = (.ok (as.map g), w) := by
  induction as with
  | nil => rfl
  | cons a as ih =>
    rw [List.forall_mem_cons] at hf
    simp only [traverse, eval_bind, hf.1, andThen_ok, ih hf.2, eval_pure, List.map_cons]

theorem eval_traverse_err {f : α → Prog σ ω ε β} (w : World σ ω ε) (as : List α)
    (hf : ∀ a ∈ as, (∃ b, (f a).eval w = (.ok b, w)) ∨ ∃ e, (f a).eval w = (.err e, w))
    (hbad : ∃ a ∈ as, ∃ e, (f a).eval w = (.err e, w)) :
    ∃ e, (traverse f as).eval w = (.err e, w) := by
  induction as with
  | nil =>
    obtain ⟨a, ha, _⟩ := hbad
    cases ha
  | cons a as ih =>
    rw [List.forall_mem_cons] at hf
    rcases hf.1 with ⟨b, hb⟩ | ⟨e, he⟩
    · obtain ⟨c, hc, e, he⟩ := hbad
      rcases List.mem_cons.mp hc with rfl | hc
      · rw [hb] at he
        cases he
      · obtain ⟨e', he'⟩ := ih hf.2 ⟨c, hc, e, he⟩
        exact ⟨e', by simp only [traverse, eval_bind, hb, andThen_ok, he', andThen_err]⟩
    · exact ⟨e, by simp only [traverse, eval_bind, he, andThen_err]⟩

theorem run_of_eval {p : Prog σ ω ε α} {w v : World σ ω ε} {o : Outcome ε α}
    (h : p.eval w = (o, v)) : p.run w = (o, v.leave o) := by
  rw [run, h]

@[simp] theorem leave_ok_quiet (a : α) :
    (quiet db saved cell held : World σ ω ε).leave (.ok a : Outcome ε α) =
      quiet (saved.getD db) none cell false := rfl

@[simp] theorem leave_err_quiet (e : ε) :
    (quiet db saved cell held : World σ ω ε).leave (.err e : Outcome ε α) =
      quiet (saved.getD db) none cell false := rfl

end Quiet

/-- A program that returns does the same where nothing fails. -/
theorem eval_quiet_of_ok {p : Prog σ ω ε α} {w v : World σ ω ε} {a : α}
    (h : p.eval w = (.ok a, v)) :
    p.eval (quiet w.db w.saved w.cell w.held) =
      (.ok a, quiet v.db v.saved v.cell v.held) := by
  induction p generalizing w with
  | done o =>
    obtain ⟨rfl, rfl⟩ := Prod.mk.inj h
    rfl
  | load k ih => exact ih _ h
  | store x k ih => exact ih h
  | lock e k ih =>
    rw [eval] at h
    split at h
    · cases h
    · exact ih h
  | unlock k ih => exact ih h
  | beginTx k ih =>
    rw [eval] at h
    split at h
    · cases h
    · exact ih h
  | commit k ih =>
    rw [eval] at h
    split at h
    · cases h
    · exact ih h
  | exec s k ih =>
    rw [eval] at h
    split at h
    · cases h
    · split at h
      · rename_i x db hs
        simp only [eval, quiet, World.due, hs]
        exact ih x h
      · cases h

theorem run_quiet_of_ok {p : Prog σ ω ε α} {w v : World σ ω ε} {a : α} (hw : w.Idle)
    (h : p.run w = (.ok a, v)) :
    p.run (quiet w.db none w.cell false) = (.ok a, quiet v.db none v.cell false) := by
  obtain ⟨ho, hv⟩ := Prod.mk.inj h
  have heval := eval_quiet_of_ok (p := p) (w := w) (Prod.ext ho rfl)
  rw [hw.1, hw.2] at heval
  rw [run_of_eval heval, leave_ok_quiet, ← hv, ho]
  rfl

/-! ### Worlds where one statement fails -/

/-- The statement after the next `k` ones fails with `e`. -/
def failing (db : σ) (saved : Option σ) (cell : ω) (held : Bool) (k : ℕ) (e : ε) :
    World σ ω ε where
  db := db
  saved := saved
  cell := cell
  held := held
  fault := some (k, e)

section Failing

variable (db : σ) (saved : Option σ) (cell : ω) (held : Bool) (k : ℕ) (e : ε)

@[simp] theorem eval_acquire_failing (a : ε) :
    (acquire a : Prog σ ω ε Unit).eval (failing db saved cell held k e) =
      (.ok (), failing db saved cell true k e) := rfl

@[simp] theorem eval_stmt_failing_zero (s : Stmt σ ε β) :
    (stmt s : Prog σ ω ε β).eval (failing db saved cell held 0 e) =
      (.err e, failing db saved cell held 0 e) := rfl

@[simp] theorem failing_db : (failing db saved cell held k e : World σ ω ε).db = db := rfl

@[simp] theorem failing_cell : (failing db saved cell held k e : World σ ω ε).cell = cell := rfl

@[simp] theorem failing_poisoned :
    (failing db saved cell held k e : World σ ω ε).poisoned = false := rfl

@[simp] theorem failing_fault :
    (failing db saved cell held k e : World σ ω ε).fault = some (k, e) := rfl

theorem eval_stmt_failing_succ {s : Stmt σ ε β} {x : β} {db' : σ} (hs : s db = .ok (x, db')) :
    (stmt s : Prog σ ω ε β).eval (failing db saved cell held (k + 1) e) =
      (.ok x, failing db' saved cell held k e) := by
  simp only [stmt, failing, eval, World.due, World.tick, hs]
  rfl

@[simp] theorem leave_failing (o : Outcome ε α) (h : o ≠ .panic) :
    (failing db saved cell held k e).leave o =
      failing (saved.getD db) none cell false k e := by
  cases o with
  | ok a => rfl
  | err e' => rfl
  | panic => exact absurd rfl h

end Failing

theorem eval_next (p : Prog σ ω ε α) (w : World σ ω ε) :
    (p.next w).1.eval (p.next w).2 = p.eval w := by
  cases p with
  | done o => rfl
  | load k => rfl
  | store v k => rfl
  | lock e k =>
    simp only [next, eval]
    split <;> rfl
  | unlock k => rfl
  | beginTx k =>
    simp only [next, eval]
    split <;> rfl
  | commit k =>
    simp only [next, eval]
    split <;> rfl
  | exec s k =>
    simp only [next, eval]
    split
    · rfl
    · split <;> rfl

theorem run_next (p : Prog σ ω ε α) (w : World σ ω ε) :
    (p.next w).1.run (p.next w).2 = p.run w := by
  simp only [run, eval_next]

/-! ### Programs that answer no error -/

def Errless (p : Prog σ ω ε α) : Prop := ∀ w e, (p.eval w).1 ≠ .err e

theorem errless_pure (a : α) : (pure a : Prog σ ω ε α).Errless := by
  intro w e h
  cases h

theorem errless_trap (o : Option α) : (trap o : Prog σ ω ε α).Errless := by
  intro w e h
  cases o <;> cases h

theorem errless_read : (read : Prog σ ω ε ω).Errless := by
  intro w e h
  cases h

theorem errless_release : (release : Prog σ ω ε Unit).Errless := by
  intro w e h
  cases h

theorem errless_bind {p : Prog σ ω ε α} {f : α → Prog σ ω ε β} (hp : p.Errless)
    (hf : ∀ a, (f a).Errless) : (p >>= f).Errless := by
  intro w e
  rw [eval_bind]
  cases hr : p.eval w with
  | mk o w' =>
    cases o with
    | ok a => exact hf a w' e
    | err e' => exact absurd (congrArg Prod.fst hr) (hp w e')
    | panic =>
      intro h
      cases h

theorem errless_traverse {f : α → Prog σ ω ε β} (hf : ∀ a, (f a).Errless) (as : List α) :
    (traverse f as).Errless := by
  induction as with
  | nil => exact errless_pure []
  | cons a as ih =>
    exact errless_bind (hf a) fun _ => errless_bind ih fun _ => errless_pure _

end Prog

end LockedStore
