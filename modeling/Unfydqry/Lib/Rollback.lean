import Unfydqry.Lib.Prog

/-! # Which actions a program performs, and calls that fail without effect

`Uses` bounds the kinds of action a program may perform. `AllOrNothing` is the
shape of a call that only reads before its transaction opens, writes only inside
it, and cannot fail once it has committed. Whatever statement of such a call
fails, the store and the cell are what they were before the call. -/

namespace LockedStore

variable {σ ω ε α β : Type}

inductive Kind where
  | load
  | store
  | lock
  | unlock
  | beginTx
  | commit
  /-- A statement that changes nothing. -/
  | query
  | statement
  deriving DecidableEq

namespace Prog

def Uses (A : Kind → Prop) : Prog σ ω ε α → Prop
  | .done _ => True
  | .load k => A .load ∧ ∀ v, (k v).Uses A
  | .store _ k => A .store ∧ k.Uses A
  | .lock _ k => A .lock ∧ k.Uses A
  | .unlock k => A .unlock ∧ k.Uses A
  | .beginTx k => A .beginTx ∧ k.Uses A
  | .commit k => A .commit ∧ k.Uses A
  | .exec s k => (A .statement ∨ A .query ∧ s.ReadOnly) ∧ ∀ x, (k x).Uses A

theorem uses_bind {A : Kind → Prop} {p : Prog σ ω ε α} {f : α → Prog σ ω ε β}
    (hp : p.Uses A) (hf : ∀ a, (f a).Uses A) : (p >>= f).Uses A := by
  change (p.bind f).Uses A
  induction p with
  | done o =>
    cases o with
    | ok a => exact hf a
    | err e => trivial
    | panic => trivial
  | load k ih => exact ⟨hp.1, fun v => ih v (hp.2 v)⟩
  | store v k ih => exact ⟨hp.1, ih hp.2⟩
  | lock e k ih => exact ⟨hp.1, ih hp.2⟩
  | unlock k ih => exact ⟨hp.1, ih hp.2⟩
  | beginTx k ih => exact ⟨hp.1, ih hp.2⟩
  | commit k ih => exact ⟨hp.1, ih hp.2⟩
  | exec s k ih => exact ⟨hp.1, fun x => ih x (hp.2 x)⟩

theorem uses_pure (A : Kind → Prop) (a : α) : (pure a : Prog σ ω ε α).Uses A := trivial

theorem uses_throw (A : Kind → Prop) (e : ε) : (throw e : Prog σ ω ε α).Uses A := trivial

theorem uses_trap (A : Kind → Prop) (o : Option α) : (trap o : Prog σ ω ε α).Uses A := by
  cases o <;> trivial

theorem uses_read {A : Kind → Prop} (h : A .load) : (read : Prog σ ω ε ω).Uses A :=
  ⟨h, fun _ => trivial⟩

theorem uses_stmt {A : Kind → Prop} (h : A .statement) (s : Stmt σ ε β) :
    (stmt s : Prog σ ω ε β).Uses A :=
  ⟨.inl h, fun _ => trivial⟩

theorem uses_query {A : Kind → Prop} (h : A .query) {s : Stmt σ ε β} (hs : s.ReadOnly) :
    (stmt s : Prog σ ω ε β).Uses A :=
  ⟨.inr ⟨h, hs⟩, fun _ => trivial⟩

theorem uses_each {A : Kind → Prop} {f : α → Prog σ ω ε Unit} (hf : ∀ a, (f a).Uses A)
    (as : List α) : (each f as).Uses A := by
  induction as with
  | nil => trivial
  | cons a as ih => exact uses_bind (hf a) fun _ => ih

theorem uses_traverse {A : Kind → Prop} {f : α → Prog σ ω ε β} (hf : ∀ a, (f a).Uses A)
    (as : List α) : (traverse f as).Uses A := by
  induction as with
  | nil => trivial
  | cons a as ih => exact uses_bind (hf a) fun _ => uses_bind ih fun _ => trivial

/-! ### Calls that fail without effect -/

/-- The rest of a call after its transaction has committed: it cannot fail. -/
def Settled : Prog σ ω ε α → Prop
  | .done (.err _) => False
  | .done _ => True
  | .load k => ∀ v, (k v).Settled
  | .store _ k => k.Settled
  | .unlock k => k.Settled
  | _ => False

/-- The rest of a call inside its transaction. -/
def InTx : Prog σ ω ε α → Prop
  | .done _ => True
  | .load k => ∀ v, (k v).InTx
  | .exec _ k => ∀ x, (k x).InTx
  | .commit k => k.Settled
  | _ => False

def AllOrNothing : Prog σ ω ε α → Prop
  | .done _ => True
  | .load k => ∀ v, (k v).AllOrNothing
  | .lock _ k => k.AllOrNothing
  | .unlock k => k.AllOrNothing
  | .exec s k => s.ReadOnly ∧ ∀ x, (k x).AllOrNothing
  | .beginTx k => k.InTx
  | _ => False

/-- One transaction, and no statement outside it. -/
def OneTx : Prog σ ω ε α → Prop
  | .done _ => True
  | .load k => ∀ v, (k v).OneTx
  | .lock _ k => k.OneTx
  | .beginTx k => k.InTx
  | _ => False

/-- What a call may do inside a transaction. -/
def inTx : Kind → Prop
  | .load | .query | .statement => True
  | _ => False

/-- What a call may do outside a transaction. -/
def outsideTx : Kind → Prop
  | .load | .lock | .unlock | .query => True
  | _ => False

def onlyLoads : Kind → Prop
  | .load => True
  | _ => False

theorem inTx_bind {p : Prog σ ω ε α} {f : α → Prog σ ω ε β}
    (hp : p.Uses inTx) (hf : ∀ a, (f a).InTx) : (p >>= f).InTx := by
  change (p.bind f).InTx
  induction p with
  | done o =>
    cases o with
    | ok a => exact hf a
    | err e => trivial
    | panic => trivial
  | load k ih => exact fun v => ih v (hp.2 v)
  | store v k ih => exact hp.1.elim
  | lock e k ih => exact hp.1.elim
  | unlock k ih => exact hp.1.elim
  | beginTx k ih => exact hp.1.elim
  | commit k ih => exact hp.1.elim
  | exec s k ih => exact fun x => ih x (hp.2 x)

theorem allOrNothing_bind {p : Prog σ ω ε α} {f : α → Prog σ ω ε β}
    (hp : p.Uses outsideTx) (hf : ∀ a, (f a).AllOrNothing) : (p >>= f).AllOrNothing := by
  change (p.bind f).AllOrNothing
  induction p with
  | done o =>
    cases o with
    | ok a => exact hf a
    | err e => trivial
    | panic => trivial
  | load k ih => exact fun v => ih v (hp.2 v)
  | store v k ih => exact hp.1.elim
  | lock e k ih => exact ih hp.2
  | unlock k ih => exact ih hp.2
  | beginTx k ih => exact hp.1.elim
  | commit k ih => exact hp.1.elim
  | exec s k ih =>
    refine ⟨?_, fun x => ih x (hp.2 x)⟩
    rcases hp.1 with hs | hq
    · exact hs.elim
    · exact hq.2

theorem allOrNothing_startTx {f : Unit → Prog σ ω ε α} (hf : (f ()).InTx) :
    (startTx >>= f).AllOrNothing := hf

theorem inTx_commitTx {f : Unit → Prog σ ω ε α} (hf : (f ()).Settled) :
    (commitTx >>= f).InTx := hf

theorem settled_bind_pure {p : Prog σ ω ε α} (hp : p.Settled) (g : α → β) :
    (p >>= fun a => pure (g a)).Settled := by
  change (p.bind fun a => pure (g a)).Settled
  induction p with
  | done o =>
    cases o with
    | ok a => trivial
    | err e => exact hp.elim
    | panic => trivial
  | load k ih => exact fun v => ih v (hp v)
  | store v k ih => exact ih hp
  | lock e k ih => exact hp.elim
  | unlock k ih => exact ih hp
  | beginTx k ih => exact hp.elim
  | commit k ih => exact hp.elim
  | exec s k ih => exact hp.elim

theorem inTx_bind_pure {p : Prog σ ω ε α} (hp : p.InTx) (g : α → β) :
    (p >>= fun a => pure (g a)).InTx := by
  change (p.bind fun a => pure (g a)).InTx
  induction p with
  | done o => cases o <;> trivial
  | load k ih => exact fun v => ih v (hp v)
  | store v k ih => exact hp.elim
  | lock e k ih => exact hp.elim
  | unlock k ih => exact hp.elim
  | beginTx k ih => exact hp.elim
  | commit k ih => exact settled_bind_pure hp g
  | exec s k ih => exact fun x => ih x (hp x)

theorem allOrNothing_bind_pure {p : Prog σ ω ε α} (hp : p.AllOrNothing) (g : α → β) :
    (p >>= fun a => pure (g a)).AllOrNothing := by
  change (p.bind fun a => pure (g a)).AllOrNothing
  induction p with
  | done o => cases o <;> trivial
  | load k ih => exact fun v => ih v (hp v)
  | store v k ih => exact hp.elim
  | lock e k ih => exact ih hp
  | unlock k ih => exact ih hp
  | beginTx k ih => exact inTx_bind_pure hp g
  | commit k ih => exact hp.elim
  | exec s k ih => exact ⟨hp.1, fun x => ih x (hp.2 x)⟩

theorem oneTx_bind {p : Prog σ ω ε α} {f : α → Prog σ ω ε β} (hp : p.Uses onlyLoads)
    (hf : ∀ a, (f a).OneTx) : (p >>= f).OneTx := by
  change (p.bind f).OneTx
  induction p with
  | done o =>
    cases o with
    | ok a => exact hf a
    | err e => trivial
    | panic => trivial
  | load k ih => exact fun v => ih v (hp.2 v)
  | store v k ih => exact hp.1.elim
  | lock e k ih => exact hp.1.elim
  | unlock k ih => exact hp.1.elim
  | beginTx k ih => exact hp.1.elim
  | commit k ih => exact hp.1.elim
  | exec s k ih =>
    rcases hp.1 with hs | hq
    · exact hs.elim
    · exact hq.1.elim

theorem oneTx_bind_pure {p : Prog σ ω ε α} (hp : p.OneTx) (g : α → β) :
    (p >>= fun a => pure (g a)).OneTx := by
  change (p.bind fun a => pure (g a)).OneTx
  induction p with
  | done o => cases o <;> trivial
  | load k ih => exact fun v => ih v (hp v)
  | store v k ih => exact hp.elim
  | lock e k ih => exact ih hp
  | unlock k ih => exact hp.elim
  | beginTx k ih => exact inTx_bind_pure hp g
  | commit k ih => exact hp.elim
  | exec s k ih => exact hp.elim

theorem allOrNothing_of_oneTx {p : Prog σ ω ε α} (hp : p.OneTx) : p.AllOrNothing := by
  induction p with
  | done o => trivial
  | load k ih => exact fun v => ih v (hp v)
  | store v k ih => exact hp.elim
  | lock e k ih => exact ih hp
  | unlock k ih => exact hp.elim
  | beginTx k ih => exact hp
  | commit k ih => exact hp.elim
  | exec s k ih => exact hp.elim

theorem reads_eval {p : Prog σ ω ε α} (hp : p.Uses outsideTx) (w : World σ ω ε)
    (hw : w.saved = none) :
    (p.eval w).2.db = w.db ∧ (p.eval w).2.cell = w.cell ∧ (p.eval w).2.saved = none := by
  induction p generalizing w with
  | done o => exact ⟨rfl, rfl, hw⟩
  | load k ih => exact ih _ (hp.2 _) w hw
  | store v k ih => exact hp.1.elim
  | lock pe k ih =>
    cases hpo : w.poisoned with
    | true => simp [eval, hpo, hw]
    | false =>
      have h := ih hp.2 { w with held := true } hw
      simpa only [eval, hpo, Bool.false_eq_true, ite_false] using h
  | unlock k ih =>
    have h := ih hp.2 w.unwind rfl
    have hdb : w.unwind.db = w.db := by simp [World.unwind, hw]
    rw [hdb] at h
    exact h
  | beginTx k ih => exact hp.1.elim
  | commit k ih => exact hp.1.elim
  | exec s k ih =>
    rcases hp.1 with hs | hq
    · exact hs.elim
    · simp only [eval]
      split
      · exact ⟨rfl, rfl, hw⟩
      · split
        · rename_i x db hsdb
          have hdb : db = w.db := hq.2 _ _ _ hsdb
          subst hdb
          exact ih x (hp.2 x) { w.tick with db := w.db } hw
        · exact ⟨rfl, rfl, hw⟩

theorem reads_run {p : Prog σ ω ε α} (hp : p.Uses outsideTx) (w : World σ ω ε)
    (hw : w.saved = none) : (p.run w).2.db = w.db ∧ (p.run w).2.cell = w.cell := by
  obtain ⟨hdb, hcell, hsaved⟩ := reads_eval hp w hw
  cases ho : (p.eval w).1 <;>
    simp only [run, ho, World.leave, World.unwind, hsaved, Option.getD_none, hdb, hcell, and_self]

theorem settled_eval {p : Prog σ ω ε α} (hp : p.Settled) (w : World σ ω ε) (e : ε) :
    (p.eval w).1 ≠ .err e := by
  induction p generalizing w with
  | done o =>
    cases o with
    | ok a => simp [eval]
    | err e => exact hp.elim
    | panic => simp [eval]
  | load k ih => exact ih _ (hp _) w
  | store v k ih => exact ih hp _
  | lock e k ih => exact hp.elim
  | unlock k ih => exact ih hp _
  | beginTx k ih => exact hp.elim
  | commit k ih => exact hp.elim
  | exec s k ih => exact hp.elim

/-- A call that fails inside its transaction still has it open. -/
theorem inTx_eval {p : Prog σ ω ε α} (hp : p.InTx) (w : World σ ω ε) {db : σ}
    (hw : w.saved = some db) {e : ε} (he : (p.eval w).1 = .err e) :
    (p.eval w).2.saved = some db ∧ (p.eval w).2.cell = w.cell := by
  induction p generalizing w with
  | done o => exact ⟨hw, rfl⟩
  | load k ih => exact ih _ (hp _) w hw he
  | store v k ih => exact hp.elim
  | lock e k ih => exact hp.elim
  | unlock k ih => exact hp.elim
  | beginTx k ih => exact hp.elim
  | commit k ih =>
    simp only [eval] at he ⊢
    split at he
    · rename_i e' hd
      exact ⟨hw, rfl⟩
    · exact absurd he (settled_eval hp _ e)
  | exec s k ih =>
    simp only [eval] at he ⊢
    split at he
    · exact ⟨hw, rfl⟩
    · split at he
      · rename_i x db' hs
        exact ih x (hp x) { w.tick with db := db' } hw he
      · exact ⟨hw, rfl⟩

theorem allOrNothing_eval {p : Prog σ ω ε α} (hp : p.AllOrNothing) (w : World σ ω ε)
    (hw : w.saved = none) {e : ε} (he : (p.eval w).1 = .err e) :
    (p.eval w).2.saved.getD (p.eval w).2.db = w.db ∧ (p.eval w).2.cell = w.cell := by
  induction p generalizing w with
  | done o =>
    simp [eval, hw]
  | load k ih => exact ih _ (hp _) w hw he
  | store v k ih => exact hp.elim
  | lock pe k ih =>
    cases hpo : w.poisoned with
    | true => simp [eval, hpo, hw]
    | false =>
      have he' : (k.eval { w with held := true }).1 = .err e := by
        simpa only [eval, hpo, Bool.false_eq_true, ite_false] using he
      have h := ih hp { w with held := true } hw he'
      simpa only [eval, hpo, Bool.false_eq_true, ite_false] using h
  | unlock k ih =>
    have h := ih hp w.unwind rfl he
    have hdb : w.unwind.db = w.db := by simp [World.unwind, hw]
    rw [hdb] at h
    exact h
  | beginTx k ih =>
    simp only [eval] at he ⊢
    split at he
    · simp [hw]
    · have h := inTx_eval hp { w.tick with saved := some w.db } rfl he
      exact ⟨by rw [h.1]; rfl, h.2⟩
  | commit k ih => exact hp.elim
  | exec s k ih =>
    simp only [eval] at he ⊢
    split at he
    · simp [hw]
    · split at he
      · rename_i x db hs
        have hdb : db = w.db := hp.1 _ _ _ hs
        subst hdb
        exact ih x (hp.2 x) { w.tick with db := w.db } hw he
      · simp [hw]

/-- Whatever statement fails, a failed all-or-nothing call has no effect. -/
theorem allOrNothing_run {p : Prog σ ω ε α} (hp : p.AllOrNothing) (w : World σ ω ε)
    (hw : w.saved = none) {e : ε} (he : (p.run w).1 = .err e) :
    (p.run w).2.db = w.db ∧ (p.run w).2.cell = w.cell := by
  have h := allOrNothing_eval hp w hw he
  have he' : (p.eval w).1 = .err e := he
  simpa [run, he', World.leave, World.unwind] using h

/-- When the call returns an error, the store and the cell are what they were. -/
def FailsClean (p : Prog σ ω ε α) (w : World σ ω ε) : Prop :=
  ∀ e, (p.run w).1 = .err e → (p.run w).2.db = w.db ∧ (p.run w).2.cell = w.cell

theorem failsClean_of_allOrNothing {p : Prog σ ω ε α} (hp : p.AllOrNothing) {w : World σ ω ε}
    (hw : w.saved = none) : p.FailsClean w :=
  fun _ he => allOrNothing_run hp w hw he

theorem failsClean_bind_pure (p : Prog σ ω ε α) (g : α → β) (w : World σ ω ε) :
    (p >>= fun a => pure (g a)).FailsClean w ↔ p.FailsClean w := by
  have herr : ∀ e, ((p >>= fun a => pure (g a)).run w).1 = .err e ↔ (p.run w).1 = .err e := by
    intro e
    simp only [run, eval_bind]
    rcases p.eval w with ⟨o, w'⟩
    cases o <;> simp
  simp only [FailsClean, herr, run_bind_pure_world]

theorem failsClean_of_ok {p : Prog σ ω ε α} {w v : World σ ω ε} {a : α}
    (h : p.run w = (.ok a, v)) : p.FailsClean w := by
  intro e he
  rw [h] at he
  cases he

theorem failsClean_of_err {p : Prog σ ω ε α} {w v : World σ ω ε} {e : ε}
    (h : p.eval w = (.err e, v)) (hv : v.saved = none) :
    p.FailsClean w ↔ v.db = w.db ∧ v.cell = w.cell := by
  have hrun : p.run w = (.err e, v.unwind) := run_of_eval h
  have hdb : v.unwind.db = v.db := by rw [World.unwind, hv, Option.getD_none]
  constructor
  · intro hc
    have hkept := hc e (by rw [hrun])
    rwa [hrun, hdb] at hkept
  · intro hkept e' _
    rw [hrun, hdb]
    exact hkept

theorem World.idle_cases {w : World σ ω ε} (hw : w.Idle) (hp : w.poisoned = false) :
    w = quiet w.db none w.cell false ∨ ∃ k e, w = failing w.db none w.cell false k e := by
  obtain ⟨db, saved, cell, held, poisoned, fault⟩ := w
  obtain ⟨hs, hh⟩ := hw
  simp only at hs hh hp
  subst hs hh hp
  cases fault with
  | none => exact .inl rfl
  | some f => exact .inr ⟨f.1, f.2, rfl⟩

end Prog

end LockedStore
