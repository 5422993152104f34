import Unfydqry.Lib.Prog

/-! # Programs that never trap

A program over a cell that always holds a value of `V`: whatever its statements answer and
whatever value of `V` a load finds, it does not panic and stores values of `V` only. -/

namespace LockedStore

variable {σ ω ε α β : Type}

namespace Prog

/-- The program does not panic, and the values it returns satisfy `Q`. -/
def Returns (V : ω → Prop) (Q : α → Prop) : Prog σ ω ε α → Prop
  | .done (.ok a) => Q a
  | .done (.err _) => True
  | .done .panic => False
  | .load k => ∀ v, V v → (k v).Returns V Q
  | .store v k => V v ∧ k.Returns V Q
  | .lock _ k => k.Returns V Q
  | .unlock k => k.Returns V Q
  | .beginTx k => k.Returns V Q
  | .commit k => k.Returns V Q
  | .exec _ k => ∀ x, (k x).Returns V Q

variable {V : ω → Prop} {Q : α → Prop} {R : β → Prop}

theorem returns_bind {p : Prog σ ω ε α} {f : α → Prog σ ω ε β} (hp : p.Returns V Q)
    (hf : ∀ a, Q a → (f a).Returns V R) : (p >>= f).Returns V R := by
  change (p.bind f).Returns V R
  induction p with
  | done o =>
    cases o with
    | ok a => exact hf a hp
    | err e => trivial
    | panic => exact hp.elim
  | load k ih => exact fun v hv => ih v (hp v hv)
  | store v k ih => exact ⟨hp.1, ih hp.2⟩
  | lock e k ih => exact ih hp
  | unlock k ih => exact ih hp
  | beginTx k ih => exact ih hp
  | commit k ih => exact ih hp
  | exec s k ih => exact fun x => ih x (hp x)

/-! ### How programs are built -/

theorem returns_pure {a : α} (h : Q a) : (pure a : Prog σ ω ε α).Returns V Q := h

theorem returns_throw (e : ε) : (throw e : Prog σ ω ε α).Returns V Q := trivial

theorem returns_trap {o : Option α} {a : α} (h : o = some a) (hQ : Q a) :
    (trap o : Prog σ ω ε α).Returns V Q := by
  rw [h]
  exact hQ

theorem returns_read : (read : Prog σ ω ε ω).Returns V V := fun _ hv => hv

theorem returns_write {v : ω} (h : V v) : (write v : Prog σ ω ε Unit).Returns V fun _ => True :=
  ⟨h, trivial⟩

theorem returns_acquire (e : ε) : (acquire e : Prog σ ω ε Unit).Returns V fun _ => True := trivial

theorem returns_release : (release : Prog σ ω ε Unit).Returns V fun _ => True := trivial

theorem returns_startTx : (startTx : Prog σ ω ε Unit).Returns V fun _ => True := trivial

theorem returns_commitTx : (commitTx : Prog σ ω ε Unit).Returns V fun _ => True := trivial

theorem returns_stmt (s : Stmt σ ε α) : (stmt s : Prog σ ω ε α).Returns V fun _ => True :=
  fun _ => trivial

theorem returns_map {p : Prog σ ω ε α} (hp : p.Returns V fun _ => True) (g : α → β) :
    (g <$> p).Returns V fun _ => True :=
  returns_bind hp fun _ _ => trivial

theorem returns_each {f : α → Prog σ ω ε Unit} (hf : ∀ a, (f a).Returns V fun _ => True)
    (as : List α) : (each f as).Returns V fun _ => True := by
  induction as with
  | nil => trivial
  | cons a as ih => exact returns_bind (hf a) fun _ _ => ih

theorem returns_traverse {f : α → Prog σ ω ε β} (hf : ∀ a, (f a).Returns V fun _ => True)
    (as : List α) : (traverse f as).Returns V fun _ => True := by
  induction as with
  | nil => trivial
  | cons a as ih =>
    exact returns_bind (hf a) fun _ _ => returns_bind ih fun _ _ => trivial

/-! ### Runs -/

theorem ok_ne_panic (a : α) : (.ok a : Outcome ε α) ≠ .panic := by
  intro h
  cases h

theorem err_ne_panic (e : ε) : (.err e : Outcome ε α) ≠ .panic := by
  intro h
  cases h

theorem returns_eval {p : Prog σ ω ε α} (hp : p.Returns V Q) (w : World σ ω ε)
    (hw : V w.cell) : (p.eval w).1 ≠ .panic ∧ V (p.eval w).2.cell := by
  induction p generalizing w with
  | done o =>
    cases o with
    | ok a => exact ⟨ok_ne_panic a, hw⟩
    | err e => exact ⟨err_ne_panic e, hw⟩
    | panic => exact hp.elim
  | load k ih => exact ih _ (hp _ hw) w hw
  | store v k ih => exact ih hp.2 _ hp.1
  | lock e k ih =>
    rw [eval]
    split
    · exact ⟨err_ne_panic _, hw⟩
    · exact ih hp _ hw
  | unlock k ih => exact ih hp _ hw
  | beginTx k ih =>
    rw [eval]
    split
    · exact ⟨err_ne_panic _, hw⟩
    · exact ih hp _ hw
  | commit k ih =>
    rw [eval]
    split
    · exact ⟨err_ne_panic _, hw⟩
    · exact ih hp _ hw
  | exec s k ih =>
    rw [eval]
    split
    · exact ⟨err_ne_panic _, hw⟩
    · split
      · exact ih _ (hp _) _ hw
      · exact ⟨err_ne_panic _, hw⟩

theorem returns_run {p : Prog σ ω ε α} (hp : p.Returns V Q) (w : World σ ω ε)
    (hw : V w.cell) : (p.run w).1 ≠ .panic ∧ V (p.run w).2.cell := by
  obtain ⟨hpanic, hcell⟩ := returns_eval hp w hw
  refine ⟨hpanic, ?_⟩
  rw [run, World.leave_cell]
  exact hcell

end Prog

end LockedStore
