import Unfydqry.Lib.Rollback

/-! # Interleaved calls and their serial order

A pool of calls shares one world. A step performs the first action of one call;
taking the mutex waits until no other call holds it, and an action of one call
may fall between any two actions of another, so the unlocked reads of the cell
see whatever is there at the time. When every read and every lock acquisition of
a call finds in the cell the value its first one found, the final world and all
answers are those of the calls run one after another in some order. -/

namespace LockedStore

variable {σ ω ε α β ι : Type}

/-- `seen` is bookkeeping of the model: the value of the cell at the call's first
read or lock acquisition. -/
structure Thread (σ ω ε α : Type) where
  prog : Prog σ ω ε α
  seen : Option ω := none
  result : Option (Outcome ε α) := none

structure Pool (ι σ ω ε α : Type) where
  world : World σ ω ε
  owner : Option ι := none
  threads : ι → Thread σ ω ε α

namespace Pool

def start (calls : ι → Prog σ ω ε α) (w : World σ ω ε) : Pool ι σ ω ε α :=
  { world := w, threads := fun i => { prog := calls i } }

def seenAfter (th : Thread σ ω ε α) (w : World σ ω ε) : Option ω :=
  match th.prog with
  | .load _ | .lock _ _ => some (th.seen.getD w.cell)
  | _ => th.seen

def ownerAfter (s : Pool ι σ ω ε α) (i : ι) : Option ι :=
  match (s.threads i).prog with
  | .lock _ _ => if s.world.poisoned then none else some i
  | .unlock _ => none
  | _ => s.owner

variable [DecidableEq ι]

/-- Call `i` performs its first action. -/
def advance (s : Pool ι σ ω ε α) (i : ι) : Pool ι σ ω ε α where
  world := ((s.threads i).prog.next s.world).2
  owner := s.ownerAfter i
  threads := Function.update s.threads i
    { prog := ((s.threads i).prog.next s.world).1, seen := seenAfter (s.threads i) s.world }

/-- Call `i` returns `o`; a call that still holds the mutex drops its guards. -/
def finish (s : Pool ι σ ω ε α) (i : ι) (o : Outcome ε α) : Pool ι σ ω ε α where
  world := if s.owner = some i then s.world.leave o else s.world
  owner := if s.owner = some i then none else s.owner
  threads := Function.update s.threads i { s.threads i with result := some o }

/-- One step of call `i`, when it has one to make. -/
def step (s : Pool ι σ ω ε α) (i : ι) : Option (Pool ι σ ω ε α) :=
  match (s.threads i).result with
  | some _ => none
  | none =>
    match (s.threads i).prog with
    | .done o => some (s.finish i o)
    | .lock _ _ => if s.owner.isSome then none else some (s.advance i)
    | _ => some (s.advance i)

/-- The cell holds what the call's first read or lock acquisition found there. -/
def Stable (s : Pool ι σ ω ε α) (i : ι) : Prop :=
  match (s.threads i).prog with
  | .load _ | .lock _ _ => (s.threads i).seen = none ∨ (s.threads i).seen = some s.world.cell
  | _ => True

inductive Run : Pool ι σ ω ε α → Pool ι σ ω ε α → Prop where
  | refl (s) : Run s s
  | step {s t u} (i : ι) : Run s t → t.step i = some u → Run s u

/-- A run all of whose steps are stable. -/
inductive StableRun : Pool ι σ ω ε α → Pool ι σ ω ε α → Prop where
  | refl (s) : StableRun s s
  | step {s t u} (i : ι) : StableRun s t → t.Stable i → t.step i = some u → StableRun s u

/-- Perform the steps of a schedule, each of which has to pass the test. -/
def schedule (test : Pool ι σ ω ε α → ι → Bool) :
    List ι → Pool ι σ ω ε α → Option (Pool ι σ ω ε α)
  | [], s => some s
  | i :: is, s => if test s i then (s.step i).bind (schedule test is) else none

theorem run_schedule {test : Pool ι σ ω ε α → ι → Bool} (is : List ι) {r s t : Pool ι σ ω ε α}
    (hr : Run r s) (h : schedule test is s = some t) : Run r t := by
  induction is generalizing s with
  | nil =>
    cases h
    exact hr
  | cons i is ih =>
    simp only [schedule] at h
    split at h
    · obtain ⟨u, hu, ht⟩ := Option.bind_eq_some_iff.mp h
      exact ih (.step i hr hu) ht
    · cases h

instance [DecidableEq ω] (s : Pool ι σ ω ε α) (i : ι) : Decidable (s.Stable i) := by
  unfold Stable
  split <;> infer_instance

theorem stableRun_schedule [DecidableEq ω] (is : List ι) {r s t : Pool ι σ ω ε α}
    (hr : StableRun r s) (h : schedule (fun s i => s.Stable i) is s = some t) : StableRun r t := by
  induction is generalizing s with
  | nil =>
    cases h
    exact hr
  | cons i is ih =>
    simp only [schedule] at h
    split at h
    · rename_i hst
      obtain ⟨u, hu, ht⟩ := Option.bind_eq_some_iff.mp h
      exact ih (.step i hr (of_decide_eq_true hst) hu) ht
    · cases h

end Pool

/-- Running the calls of the log one after another gives the answers of the log. -/
inductive Serial (calls : ι → Prog σ ω ε α) (w : World σ ω ε) :
    List (ι × Outcome ε α) → World σ ω ε → Prop where
  | nil : Serial calls w [] w
  | snoc {log a} (i : ι) : Serial calls w log a →
      Serial calls w (log ++ [(i, ((calls i).run a).1)]) ((calls i).run a).2

theorem Serial.world {calls : ι → Prog σ ω ε α} {w a : World σ ω ε}
    {log : List (ι × Outcome ε α)} (h : Serial calls w log a) :
    a = (log.map Prod.fst).foldl (fun a i => ((calls i).run a).2) w := by
  induction h with
  | nil => rfl
  | snoc i _ ih => rw [List.map_append, List.foldl_append, ← ih]; rfl

/-! ### The shape of a call -/

namespace Prog

/-- After the mutex is released: reads of the cell only. -/
abbrev Post (p : Prog σ ω ε α) : Prop := p.Uses onlyLoads

/-- While the mutex is held. A write to the cell is the last action. -/
def Crit : Prog σ ω ε α → Prop
  | .done _ => True
  | .load k => ∀ v, (k v).Crit
  | .store _ k => ∃ o, k = .done o
  | .unlock k => k.Post
  | .beginTx k => k.Crit
  | .commit k => k.Crit
  | .exec _ k => ∀ x, (k x).Crit
  | .lock _ _ => False

/-- Before the mutex is taken: reads of the cell only. -/
def Pre : Prog σ ω ε α → Prop
  | .done _ => True
  | .load k => ∀ v, (k v).Pre
  | .lock _ k => k.Crit
  | _ => False

def underLock : Kind → Prop
  | .load | .beginTx | .commit | .query | .statement => True
  | _ => False

theorem crit_bind {p : Prog σ ω ε α} {f : α → Prog σ ω ε β}
    (hp : p.Uses underLock) (hf : ∀ a, (f a).Crit) : (p >>= f).Crit := by
  change (p.bind f).Crit
  induction p with
  | done o =>
    cases o with
    | ok a => exact hf a
    | err e => trivial
    | panic => trivial
  | load k ih => exact fun v => ih v (hp.2 v)
  | store v k ih => exact hp.1.elim
  | lock e k ih => exact hp.1.elim
  | unlock k ih => exact hp.1.elim
  | beginTx k ih => exact ih hp.2
  | commit k ih => exact ih hp.2
  | exec s k ih => exact fun x => ih x (hp.2 x)

theorem pre_bind {p : Prog σ ω ε α} {f : α → Prog σ ω ε β}
    (hp : p.Uses onlyLoads) (hf : ∀ a, (f a).Pre) : (p >>= f).Pre := by
  change (p.bind f).Pre
  induction p with
  | done o =>
    cases o with
    | ok a => exact hf a
    | err e => trivial
    | panic => trivial
  | load k ih => exact fun v => ih v (hp.2 v)
  | store v k ih => exact hp.1.elim
  | lock e k ih => exact hp.1.elim
  | unlock k ih => exact hp.1.elim
  | beginTx k ih => exact hp.1.elim
  | commit k ih => exact hp.1.elim
  | exec s k ih =>
    rcases hp.1 with hs | hq
    · exact hs.elim
    · exact hq.1.elim

theorem pre_acquire {e : ε} {f : Unit → Prog σ ω ε α} (hf : (f ()).Crit) :
    (acquire e >>= f).Pre := hf

theorem crit_release {f : Unit → Prog σ ω ε α} (hf : (f ()).Post) :
    (release >>= f).Crit := hf

theorem crit_bind_pure {p : Prog σ ω ε α} (hp : p.Crit) (g : α → β) :
    (p >>= fun a => pure (g a)).Crit := by
  change (p.bind fun a => pure (g a)).Crit
  induction p with
  | done o => cases o <;> trivial
  | load k ih => exact fun v => ih v (hp v)
  | store v k ih =>
    obtain ⟨o, rfl⟩ := hp
    cases o with
    | ok a => exact ⟨_, rfl⟩
    | err e => exact ⟨_, rfl⟩
    | panic => exact ⟨_, rfl⟩
  | lock e k ih => exact hp.elim
  | unlock k ih => exact uses_bind hp fun _ => trivial
  | beginTx k ih => exact ih hp
  | commit k ih => exact ih hp
  | exec s k ih => exact fun x => ih x (hp x)

theorem pre_bind_pure {p : Prog σ ω ε α} (hp : p.Pre) (g : α → β) :
    (p >>= fun a => pure (g a)).Pre := by
  change (p.bind fun a => pure (g a)).Pre
  induction p with
  | done o => cases o <;> trivial
  | load k ih => exact fun v => ih v (hp v)
  | store v k ih => exact hp.elim
  | lock e k ih => exact crit_bind_pure hp g
  | unlock k ih => exact hp.elim
  | beginTx k ih => exact hp.elim
  | commit k ih => exact hp.elim
  | exec s k ih => exact hp.elim

theorem pre_eval_poisoned {p : Prog σ ω ε α} (hp : p.Pre) (w : World σ ω ε)
    (hw : w.poisoned = true) : (p.eval w).2 = w := by
  induction p with
  | done o => rfl
  | load k ih => exact ih _ (hp _)
  | store v k ih => exact hp.elim
  | lock e k ih => simp only [eval, hw, if_true]
  | unlock k ih => exact hp.elim
  | beginTx k ih => exact hp.elim
  | commit k ih => exact hp.elim
  | exec s k ih => exact hp.elim

theorem crit_of_uses {p : Prog σ ω ε α} (hp : p.Uses underLock) : p.Crit := by
  have h := crit_bind (f := pure) hp fun a => (trivial : (pure a : Prog σ ω ε α).Crit)
  have hb : (p >>= pure) = p := by
    change p.bind pure = p
    clear hp h
    induction p with
    | done o => cases o <;> rfl
    | load k ih => simp only [bind, ih]
    | store v k ih => simp only [bind, ih]
    | lock e k ih => simp only [bind, ih]
    | unlock k ih => simp only [bind, ih]
    | beginTx k ih => simp only [bind, ih]
    | commit k ih => simp only [bind, ih]
    | exec s k ih => simp only [bind, ih]
  rwa [hb] at h

theorem crit_next {p : Prog σ ω ε α} (hp : p.Crit) (w : World σ ω ε)
    (hs : ∀ v k, p ≠ .store v k) (hu : ∀ k, p ≠ .unlock k) : (p.next w).1.Crit := by
  cases p with
  | done o => trivial
  | load k => exact hp _
  | store v k => exact absurd rfl (hs v k)
  | lock e k => exact hp.elim
  | unlock k => exact absurd rfl (hu k)
  | beginTx k =>
    simp only [next]
    split
    · trivial
    · exact hp
  | commit k =>
    simp only [next]
    split
    · trivial
    · exact hp
  | exec s k =>
    simp only [next]
    split
    · trivial
    · split
      · exact hp _
      · trivial

theorem next_cell_beginTx (k : Prog σ ω ε α) (w : World σ ω ε) :
    ((Prog.beginTx k).next w).2.cell = w.cell := by
  simp only [next]
  split <;> rfl

theorem next_cell_commit (k : Prog σ ω ε α) (w : World σ ω ε) :
    ((Prog.commit k).next w).2.cell = w.cell := by
  simp only [next]
  split <;> rfl

theorem next_cell_exec (s : Stmt σ ε β) (k : β → Prog σ ω ε α) (w : World σ ω ε) :
    ((Prog.exec s k).next w).2.cell = w.cell := by
  simp only [next]
  split
  · rfl
  · split <;> rfl

/-- The answer of a program that only reads the cell. -/
def answer : Prog σ ω ε α → ω → Outcome ε α
  | .done o, _ => o
  | .load k, v => (k v).answer v
  | _, _ => .panic

theorem post_eval {p : Prog σ ω ε α} (hp : p.Post) (w : World σ ω ε) :
    p.eval w = (p.answer w.cell, w) := by
  induction p with
  | done o => rfl
  | load k ih => exact ih _ (hp.2 _)
  | store v k ih => exact hp.1.elim
  | lock e k ih => exact hp.1.elim
  | unlock k ih => exact hp.1.elim
  | beginTx k ih => exact hp.1.elim
  | commit k ih => exact hp.1.elim
  | exec s k ih =>
    rcases hp.1 with hs | hq
    · exact hs.elim
    · exact hq.1.elim

end Prog

theorem World.leave_idle (o : Outcome ε α) {w : World σ ω ε} (h : w.Idle) : w.leave o = w := by
  obtain ⟨hs, hh⟩ := h
  cases w
  subst hs hh
  cases o <;> simp [World.leave, World.unwind]

theorem World.unwind_idle_world (w : World σ ω ε) : w.unwind.Idle := ⟨rfl, rfl⟩

theorem World.leave_idle_world (o : Outcome ε α) (w : World σ ω ε) : (w.leave o).Idle := by
  cases o <;> exact ⟨rfl, rfl⟩

theorem Prog.post_run {p : Prog σ ω ε α} (hp : p.Post) {w : World σ ω ε} (hw : w.Idle) :
    p.run w = (p.answer w.cell, w) := by
  simp only [Prog.run, Prog.post_eval hp, World.leave_idle _ hw]

/-! ### The simulation -/

namespace Pool

variable (calls : ι → Prog σ ω ε α)

/-- No effect yet and no mutex: from any idle world with the cell the call has seen,
the rest of the call does what the whole call does. -/
structure Pending (s : Pool ι σ ω ε α) (log : List (ι × Outcome ε α)) (i : ι) : Prop where
  result : (s.threads i).result = none
  owner : s.owner ≠ some i
  fresh : i ∉ log.map Prod.fst
  shape : (s.threads i).prog.Pre
  same : ∀ w : World σ ω ε, w.Idle →
    ((s.threads i).seen = none ∨ (s.threads i).seen = some w.cell) →
    (s.threads i).prog.run w = (calls i).run w
  unread : ∀ o, (s.threads i).prog = .done o → (s.threads i).seen = none

/-- The call holds the mutex and has not taken effect: finishing it from here gives
what the whole call gives from the abstract world. -/
structure Inside (s : Pool ι σ ω ε α) (log : List (ι × Outcome ε α)) (a : World σ ω ε)
    (i : ι) : Prop where
  result : (s.threads i).result = none
  owner : s.owner = some i
  fresh : i ∉ log.map Prod.fst
  shape : (s.threads i).prog.Crit
  seen : (s.threads i).seen = some s.world.cell
  same : (s.threads i).prog.run s.world = (calls i).run a

/-- The cell is written, so the call has taken effect; only its guards remain. -/
structure Leaving (s : Pool ι σ ω ε α) (log : List (ι × Outcome ε α)) (a : World σ ω ε)
    (i : ι) (o : Outcome ε α) : Prop where
  result : (s.threads i).result = none
  owner : s.owner = some i
  logged : (i, o) ∈ log
  prog : (s.threads i).prog = .done o
  world : s.world.leave o = a

/-- The call has taken effect and holds no mutex; its answer depends on the cell only. -/
structure After (s : Pool ι σ ω ε α) (log : List (ι × Outcome ε α)) (i : ι)
    (o : Outcome ε α) (v : ω) : Prop where
  result : (s.threads i).result = none
  owner : s.owner ≠ some i
  logged : (i, o) ∈ log
  shape : (s.threads i).prog.Post
  seen : (s.threads i).seen = some v
  answer : (s.threads i).prog.answer v = o

/-- Where call `i` stands, relative to the log of the calls that have taken effect
and the world `a` that running the log one after another leads to. -/
inductive Status (s : Pool ι σ ω ε α) (log : List (ι × Outcome ε α)) (a : World σ ω ε)
    (i : ι) : Prop where
  | pending (h : Pending calls s log i)
  | inside (h : Inside calls s log a i)
  | leaving (o : Outcome ε α) (h : Leaving s log a i o)
  | after (o : Outcome ε α) (v : ω) (h : After s log i o v)
  | finished (o : Outcome ε α) (hr : (s.threads i).result = some o) (ho : s.owner ≠ some i)
      (hl : (i, o) ∈ log)

structure Sim (w : World σ ω ε) (s : Pool ι σ ω ε α) (log : List (ι × Outcome ε α))
    (a : World σ ω ε) : Prop where
  serial : Serial calls w log a
  nodup : (log.map Prod.fst).Nodup
  idle : a.Idle
  cell : a.cell = s.world.cell
  free : s.owner = none → s.world = a
  status : ∀ i, Status calls s log a i

theorem start_sim (w : World σ ω ε) (hw : w.Idle) (hc : ∀ i, (calls i).Pre) :
    Sim calls w (start calls w) [] w where
  serial := .nil
  nodup := List.nodup_nil
  idle := hw
  cell := rfl
  free _ := rfl
  status i := .pending {
    result := rfl
    owner := by simp [start]
    fresh := by simp
    shape := hc i
    same := fun _ _ _ => rfl
    unread := fun _ _ => rfl }

variable {calls}

/-- A step of call `i` leaves every other call where it stood. -/
theorem status_other {s t : Pool ι σ ω ε α} {log log' : List (ι × Outcome ε α)}
    {a a' : World σ ω ε} {i j : ι} (hj : j ≠ i) (h : Status calls s log a j)
    (hth : t.threads j = s.threads j) (hsub : log ⊆ log')
    (hnew : ∀ o, (j, o) ∈ log' → (j, o) ∈ log)
    (hfree : s.owner ≠ some j → t.owner ≠ some j)
    (hheld : s.owner = some j → t.owner = some j ∧ t.world = s.world ∧ a' = a) :
    Status calls t log' a' j := by
  have hnot : j ∉ log.map Prod.fst → j ∉ log'.map Prod.fst := by
    intro hn hm
    obtain ⟨⟨k, o⟩, hmem, hk⟩ := List.mem_map.mp hm
    simp only at hk
    subst hk
    exact hn (List.mem_map.mpr ⟨_, hnew o hmem, rfl⟩)
  cases h with
  | pending h =>
    refine .pending ⟨?_, hfree h.owner, hnot h.fresh, ?_, ?_, ?_⟩ <;> rw [hth]
    · exact h.result
    · exact h.shape
    · exact h.same
    · exact h.unread
  | inside h =>
    obtain ⟨h1, h2, h3⟩ := hheld h.owner
    refine .inside ⟨?_, h1, hnot h.fresh, ?_, ?_, ?_⟩ <;> rw [hth]
    · exact h.result
    · exact h.shape
    · rw [h2]
      exact h.seen
    · rw [h2, h3]
      exact h.same
  | leaving o h =>
    obtain ⟨h1, h2, h3⟩ := hheld h.owner
    refine .leaving o ⟨?_, h1, hsub h.logged, ?_, ?_⟩
    · rw [hth]
      exact h.result
    · rw [hth]
      exact h.prog
    · rw [h2, h3]
      exact h.world
  | after o v h =>
    refine .after o v ⟨?_, hfree h.owner, hsub h.logged, ?_, ?_, ?_⟩ <;> rw [hth]
    · exact h.result
    · exact h.shape
    · exact h.seen
    · exact h.answer
  | finished o hr ho hl =>
    exact .finished o (by rw [hth]; exact hr) (hfree ho) (hsub hl)

/-- A step of call `i` by which no call takes effect. -/
theorem sim_same {w a : World σ ω ε} {s t : Pool ι σ ω ε α} {log : List (ι × Outcome ε α)}
    {i : ι} (h : Sim calls w s log a) (hth : ∀ j, j ≠ i → t.threads j = s.threads j)
    (hcell : t.world.cell = s.world.cell) (hfree : t.owner = none → t.world = a)
    (hother : ∀ j, j ≠ i → (s.owner ≠ some j → t.owner ≠ some j) ∧
      (s.owner = some j → t.owner = some j ∧ t.world = s.world))
    (hi : Status calls t log a i) : Sim calls w t log a where
  serial := h.serial
  nodup := h.nodup
  idle := h.idle
  cell := h.cell.trans hcell.symm
  free := hfree
  status j := by
    by_cases hj : j = i
    · subst hj
      exact hi
    · exact status_other hj (h.status j) (hth j hj) (List.Subset.refl _) (fun _ ho => ho)
        (hother j hj).1 fun ho => ⟨((hother j hj).2 ho).1, ((hother j hj).2 ho).2, rfl⟩

/-- A step of call `i` by which that call takes effect with answer `o`. -/
theorem sim_snoc {w a a' : World σ ω ε} {s t : Pool ι σ ω ε α} {log : List (ι × Outcome ε α)}
    {i : ι} {o : Outcome ε α} (h : Sim calls w s log a) (hl : i ∉ log.map Prod.fst)
    (hrun : (calls i).run a = (o, a')) (hth : ∀ j, j ≠ i → t.threads j = s.threads j)
    (hidle : a'.Idle) (hcell : a'.cell = t.world.cell) (hfree : t.owner = none → t.world = a')
    (hother : ∀ j, j ≠ i → (s.owner ≠ some j → t.owner ≠ some j) ∧
      (s.owner = some j → t.owner = some j ∧ t.world = s.world ∧ a' = a))
    (hi : Status calls t (log ++ [(i, o)]) a' i) :
    Sim calls w t (log ++ [(i, o)]) a' where
  serial := by
    have hs := h.serial.snoc i
    rw [hrun] at hs
    exact hs
  nodup := by
    rw [List.map_append, List.nodup_append]
    refine ⟨h.nodup, by simp, ?_⟩
    intro x hx y hy he
    simp only [List.map_cons, List.map_nil, List.mem_singleton] at hy
    subst he hy
    exact hl hx
  idle := hidle
  cell := hcell
  free := hfree
  status j := by
    by_cases hj : j = i
    · subst hj
      exact hi
    · refine status_other hj (h.status j) (hth j hj) (List.subset_append_left _ _) ?_
        (hother j hj).1 (hother j hj).2
      intro o' ho'
      rcases List.mem_append.mp ho' with hm | hm
      · exact hm
      · simp only [List.mem_singleton, Prod.mk.injEq] at hm
        exact absurd hm.1 hj

theorem mem_snoc (log : List (ι × Outcome ε α)) (i : ι) (o : Outcome ε α) :
    (i, o) ∈ log ++ [(i, o)] := List.mem_append_right _ (List.mem_singleton.mpr rfl)

variable [DecidableEq ι]

theorem advance_other (s : Pool ι σ ω ε α) {i : ι} (j : ι) (hj : j ≠ i) :
    (s.advance i).threads j = s.threads j := Function.update_of_ne hj _ _

theorem finish_other (s : Pool ι σ ω ε α) (o : Outcome ε α) {i : ι} (j : ι) (hj : j ≠ i) :
    (s.finish i o).threads j = s.threads j := Function.update_of_ne hj _ _

theorem advance_self (s : Pool ι σ ω ε α) (i : ι) :
    (s.advance i).threads i =
      { prog := ((s.threads i).prog.next s.world).1
        seen := seenAfter (s.threads i) s.world } := Function.update_self ..

theorem finish_self (s : Pool ι σ ω ε α) (i : ι) (o : Outcome ε α) :
    (s.finish i o).threads i = { s.threads i with result := some o } := Function.update_self ..

theorem finish_world (s : Pool ι σ ω ε α) {i : ι} (o : Outcome ε α) (ho : s.owner ≠ some i) :
    (s.finish i o).world = s.world ∧ (s.finish i o).owner = s.owner := by
  simp only [finish, if_neg ho, and_self]

theorem finish_held (s : Pool ι σ ω ε α) {i : ι} (o : Outcome ε α) (ho : s.owner = some i) :
    (s.finish i o).world = s.world.leave o ∧ (s.finish i o).owner = none := by
  simp only [finish, if_pos ho, and_self]

omit [DecidableEq ι] in
theorem seenAfter_stable {s : Pool ι σ ω ε α} {i : ι}
    (h : (s.threads i).seen = none ∨ (s.threads i).seen = some s.world.cell)
    (hp : (∃ k, (s.threads i).prog = .load k) ∨ ∃ e k, (s.threads i).prog = .lock e k) :
    seenAfter (s.threads i) s.world = some s.world.cell := by
  have hd : (s.threads i).seen.getD s.world.cell = s.world.cell := by
    rcases h with hn | hs
    · rw [hn]
      rfl
    · rw [hs]
      rfl
  rcases hp with ⟨k, hk⟩ | ⟨e, k, hk⟩ <;> simp only [seenAfter, hk, hd]

/-! ### Steps of a pending call -/

theorem pending_done {w a : World σ ω ε} {s : Pool ι σ ω ε α} {log : List (ι × Outcome ε α)}
    {i : ι} (h : Sim calls w s log a) (hp : Pending calls s log i) {o : Outcome ε α}
    (hprog : (s.threads i).prog = .done o) :
    ∃ log' a', Sim calls w (s.finish i o) log' a' := by
  have hans : (calls i).run a = (o, a) := by
    rw [← hp.same a h.idle (.inl (hp.unread o hprog)), hprog]
    simp only [Prog.run, Prog.eval, World.leave_idle o h.idle]
  obtain ⟨hworld, howner⟩ := finish_world s o hp.owner
  refine ⟨_, a, sim_snoc h hp.fresh hans (finish_other s o) h.idle ?_ ?_ ?_ ?_⟩
  · rw [hworld]
    exact h.cell
  · rw [hworld, howner]
    exact h.free
  · intro j _
    rw [hworld, howner]
    exact ⟨id, fun hj => ⟨hj, rfl, rfl⟩⟩
  · refine .finished o ?_ ?_ (mem_snoc log i o)
    · rw [finish_self]
    · rw [howner]
      exact hp.owner

theorem pending_load {w a : World σ ω ε} {s : Pool ι σ ω ε α} {log : List (ι × Outcome ε α)}
    {i : ι} (h : Sim calls w s log a) (hp : Pending calls s log i) {k : ω → Prog σ ω ε α}
    (hprog : (s.threads i).prog = .load k)
    (hst : (s.threads i).seen = none ∨ (s.threads i).seen = some s.world.cell) :
    ∃ log' a', Sim calls w (s.advance i) log' a' := by
  have hseen := seenAfter_stable hst (.inl ⟨k, hprog⟩)
  have hworld : (s.advance i).world = s.world := by simp only [advance, hprog, Prog.next]
  have howner : (s.advance i).owner = s.owner := by simp only [advance, ownerAfter, hprog]
  have hself := advance_self s i
  have hnext : ((s.advance i).threads i).prog = k s.world.cell := by
    rw [hself, hprog]
    rfl
  have hrest : ∀ w' : World σ ω ε, w'.Idle → w'.cell = s.world.cell →
      (k s.world.cell).run w' = (calls i).run w' := by
    intro w' hw' hc
    rw [← hp.same w' hw' (by rw [hc]; exact hst), hprog, ← hc]
    rfl
  have hother : ∀ j, j ≠ i → (s.owner ≠ some j → (s.advance i).owner ≠ some j) ∧
      (s.owner = some j → (s.advance i).owner = some j ∧ (s.advance i).world = s.world) := by
    intro j _
    rw [hworld, howner]
    exact ⟨id, fun hj => ⟨hj, rfl⟩⟩
  by_cases hdone : ∃ o, k s.world.cell = .done o
  · obtain ⟨o, hko⟩ := hdone
    have hans : (calls i).run a = (o, a) := by
      rw [← hrest a h.idle h.cell, hko]
      simp only [Prog.run, Prog.eval, World.leave_idle o h.idle]
    refine ⟨_, a, sim_snoc h hp.fresh hans (advance_other s) h.idle ?_ ?_ ?_ ?_⟩
    · rw [hworld]
      exact h.cell
    · rw [hworld, howner]
      exact h.free
    · intro j hj
      exact ⟨(hother j hj).1, fun ho => ⟨((hother j hj).2 ho).1, hworld, rfl⟩⟩
    · refine .after o s.world.cell ⟨?_, ?_, mem_snoc log i o, ?_, ?_, ?_⟩
      · rw [hself]
      · rw [howner]
        exact hp.owner
      · rw [hnext, hko]
        trivial
      · rw [hself]
        exact hseen
      · rw [hnext, hko]
        rfl
  · refine ⟨log, a, sim_same h (advance_other s) (by rw [hworld]) ?_ hother ?_⟩
    · rw [hworld, howner]
      exact h.free
    · refine .pending ⟨?_, ?_, hp.fresh, ?_, ?_, ?_⟩
      · rw [hself]
      · rw [howner]
        exact hp.owner
      · have hpre := hp.shape
        rw [hprog] at hpre
        rw [hnext]
        exact hpre _
      · intro w' hw' hc
        rw [hself, hseen] at hc
        rw [hnext]
        apply hrest w' hw'
        rcases hc with hc | hc
        · exact absurd hc (by simp)
        · exact (Option.some_inj.mp hc).symm
      · intro o hko
        rw [hnext] at hko
        exact absurd ⟨o, hko⟩ hdone

theorem pending_lock {w a : World σ ω ε} {s : Pool ι σ ω ε α} {log : List (ι × Outcome ε α)}
    {i : ι} (h : Sim calls w s log a) (hp : Pending calls s log i) {e : ε}
    {k : Prog σ ω ε α} (hprog : (s.threads i).prog = .lock e k)
    (hst : (s.threads i).seen = none ∨ (s.threads i).seen = some s.world.cell)
    (hfree : s.owner = none) :
    ∃ log' a', Sim calls w (s.advance i) log' a' := by
  have hseen := seenAfter_stable hst (.inr ⟨e, k, hprog⟩)
  have hself := advance_self s i
  have hwa := h.free hfree
  have hlock : (Prog.lock e k).run a = (calls i).run a := by
    rw [← hprog, hp.same a h.idle (by rw [h.cell]; exact hst)]
  cases hpo : s.world.poisoned with
  | true =>
    have hans : (calls i).run a = (.err e, a) := by
      rw [← hlock]
      simp only [Prog.run, Prog.eval, ← hwa, hpo, ite_true]
      rw [hwa, World.leave_idle _ h.idle]
    have hworld : (s.advance i).world = s.world := by
      simp only [advance, hprog, Prog.next, hpo, ite_true]
    have howner : (s.advance i).owner = none := by
      simp only [advance, ownerAfter, hprog, hpo, ite_true]
    have hnext : ((s.advance i).threads i).prog = .done (.err e) := by
      rw [hself, hprog]
      simp only [Prog.next, hpo, ite_true]
    refine ⟨_, a, sim_snoc h hp.fresh hans (advance_other s) h.idle ?_ ?_ ?_ ?_⟩
    · rw [hworld]
      exact h.cell
    · rw [hworld]
      exact fun _ => hwa
    · intro j _
      rw [howner, hfree]
      exact ⟨id, fun hj => by cases hj⟩
    · refine .after (.err e) s.world.cell ⟨?_, ?_, mem_snoc log i _, ?_, ?_, ?_⟩
      · rw [hself]
      · rw [howner]
        simp
      · rw [hnext]
        trivial
      · rw [hself]
        exact hseen
      · rw [hnext]
        rfl
  | false =>
    have hworld : (s.advance i).world = { s.world with held := true } := by
      simp only [advance, hprog, Prog.next, hpo, Bool.false_eq_true, ite_false]
    have howner : (s.advance i).owner = some i := by
      simp only [advance, ownerAfter, hprog, hpo, Bool.false_eq_true, ite_false]
    have hnext : ((s.advance i).threads i).prog = k := by
      rw [hself, hprog]
      simp only [Prog.next, hpo, Bool.false_eq_true, ite_false]
    refine ⟨log, a, sim_same h (advance_other s) (by rw [hworld]) ?_ ?_ ?_⟩
    · rw [howner]
      exact fun hc => by cases hc
    · intro j hj
      rw [howner, hfree]
      exact ⟨fun _ hc => hj (Option.some_inj.mp hc).symm, fun hc => by cases hc⟩
    · refine .inside ⟨?_, howner, hp.fresh, ?_, ?_, ?_⟩
      · rw [hself]
      · have hpre := hp.shape
        rw [hprog] at hpre
        rw [hnext]
        exact hpre
      · rw [hself, hworld]
        exact hseen
      · rw [hnext, hworld, ← hlock, ← hwa]
        simp only [Prog.run, Prog.eval, hpo, Bool.false_eq_true, ite_false]

/-! ### Steps of the call that holds the mutex -/

theorem inside_done {w a : World σ ω ε} {s : Pool ι σ ω ε α} {log : List (ι × Outcome ε α)}
    {i : ι} (h : Sim calls w s log a) (hp : Inside calls s log a i) {o : Outcome ε α}
    (hprog : (s.threads i).prog = .done o) :
    ∃ log' a', Sim calls w (s.finish i o) log' a' := by
  obtain ⟨hworld, howner⟩ := finish_held s o hp.owner
  have hans : (calls i).run a = (o, s.world.leave o) := by
    rw [← hp.same, hprog]
    rfl
  refine ⟨_, _, sim_snoc h hp.fresh hans (finish_other s o) (World.leave_idle_world o _)
    ?_ ?_ ?_ ?_⟩
  · rw [hworld]
  · exact fun _ => hworld
  · intro j hj
    rw [howner, hp.owner]
    exact ⟨fun _ => by simp, fun hc => absurd (Option.some_inj.mp hc).symm hj⟩
  · refine .finished o ?_ ?_ (mem_snoc log i o)
    · rw [finish_self]
    · rw [howner]
      simp

theorem inside_store {w a : World σ ω ε} {s : Pool ι σ ω ε α} {log : List (ι × Outcome ε α)}
    {i : ι} (h : Sim calls w s log a) (hp : Inside calls s log a i) {v : ω}
    {o : Outcome ε α} (hprog : (s.threads i).prog = .store v (.done o)) :
    ∃ log' a', Sim calls w (s.advance i) log' a' := by
  have hself := advance_self s i
  have hworld : (s.advance i).world = { s.world with cell := v } := by
    simp only [advance, hprog, Prog.next]
  have howner : (s.advance i).owner = some i := by
    simp only [advance, ownerAfter, hprog, hp.owner]
  have hans : (calls i).run a = (o, (s.advance i).world.leave o) := by
    rw [← hp.same, hprog, hworld]
    rfl
  refine ⟨_, _, sim_snoc h hp.fresh hans (advance_other s) (World.leave_idle_world o _)
    (World.leave_cell o _) ?_ ?_ ?_⟩
  · rw [howner]
    exact fun hc => by cases hc
  · intro j hj
    rw [howner, hp.owner]
    exact ⟨id, fun hc => absurd (Option.some_inj.mp hc).symm hj⟩
  · refine .leaving o ⟨?_, howner, mem_snoc log i o, ?_, rfl⟩
    · rw [hself]
    · rw [hself, hprog]
      rfl

theorem inside_unlock {w a : World σ ω ε} {s : Pool ι σ ω ε α}
    {log : List (ι × Outcome ε α)} {i : ι} (h : Sim calls w s log a)
    (hp : Inside calls s log a i) {k : Prog σ ω ε α}
    (hprog : (s.threads i).prog = .unlock k) :
    ∃ log' a', Sim calls w (s.advance i) log' a' := by
  have hself := advance_self s i
  have hworld : (s.advance i).world = s.world.unwind := by
    simp only [advance, hprog, Prog.next]
  have howner : (s.advance i).owner = none := by simp only [advance, ownerAfter, hprog]
  have hk : k.Post := by
    have hc := hp.shape
    rw [hprog] at hc
    exact hc
  have hans : (calls i).run a = (k.answer s.world.cell, s.world.unwind) := by
    rw [← hp.same, hprog]
    exact Prog.post_run hk (World.unwind_idle_world s.world)
  refine ⟨_, _, sim_snoc h hp.fresh hans (advance_other s) (World.unwind_idle_world _)
    ?_ ?_ ?_ ?_⟩
  · rw [hworld]
  · exact fun _ => hworld
  · intro j hj
    rw [howner, hp.owner]
    exact ⟨fun _ => by simp, fun hc => absurd (Option.some_inj.mp hc).symm hj⟩
  · have hnext : ((s.advance i).threads i).prog = k := by
      rw [hself, hprog]
      rfl
    refine .after _ s.world.cell ⟨?_, ?_, mem_snoc log i _, ?_, ?_, ?_⟩
    · rw [hself]
    · rw [howner]
      simp
    · rw [hnext]
      exact hk
    · rw [hself]
      simp only [seenAfter, hprog]
      exact hp.seen
    · rw [hnext]

/-- Reads, transaction marks and statements under the mutex: no call takes effect. -/
theorem inside_advance {w a : World σ ω ε} {s : Pool ι σ ω ε α}
    {log : List (ι × Outcome ε α)} {i : ι} (h : Sim calls w s log a)
    (hp : Inside calls s log a i) (howner : s.ownerAfter i = s.owner)
    (hcell : ((s.threads i).prog.next s.world).2.cell = s.world.cell)
    (hseen : seenAfter (s.threads i) s.world = (s.threads i).seen)
    (hshape : ((s.threads i).prog.next s.world).1.Crit) :
    ∃ log' a', Sim calls w (s.advance i) log' a' := by
  have hself := advance_self s i
  have ho : (s.advance i).owner = some i := by
    rw [← hp.owner, ← howner]
    rfl
  refine ⟨log, a, sim_same h (advance_other s) hcell ?_ ?_ ?_⟩
  · rw [ho]
    exact fun hc => by cases hc
  · intro j hj
    rw [ho, hp.owner]
    exact ⟨id, fun hc => absurd (Option.some_inj.mp hc).symm hj⟩
  · refine .inside ⟨?_, ho, hp.fresh, ?_, ?_, ?_⟩
    · rw [hself]
    · rw [hself]
      exact hshape
    · rw [hself]
      exact hseen.trans (hp.seen.trans (congrArg some hcell.symm))
    · rw [hself, ← hp.same]
      exact Prog.run_next _ _

theorem leaving_done {w a : World σ ω ε} {s : Pool ι σ ω ε α} {log : List (ι × Outcome ε α)}
    {i : ι} {o : Outcome ε α} (h : Sim calls w s log a) (hp : Leaving s log a i o) :
    ∃ log' a', Sim calls w (s.finish i o) log' a' := by
  obtain ⟨hworld, howner⟩ := finish_held s o hp.owner
  refine ⟨log, a, sim_same h (finish_other s o) ?_ ?_ ?_ ?_⟩
  · rw [hworld, World.leave_cell]
  · exact fun _ => hworld.trans hp.world
  · intro j hj
    rw [howner, hp.owner]
    exact ⟨fun _ => by simp, fun hc => absurd (Option.some_inj.mp hc).symm hj⟩
  · refine .finished o ?_ ?_ hp.logged
    · rw [finish_self]
    · rw [howner]
      simp

/-! ### Steps of a call that has taken effect -/

theorem after_done {w a : World σ ω ε} {s : Pool ι σ ω ε α} {log : List (ι × Outcome ε α)}
    {i : ι} {o o' : Outcome ε α} {v : ω} (h : Sim calls w s log a) (hp : After s log i o v)
    (hprog : (s.threads i).prog = .done o') :
    ∃ log' a', Sim calls w (s.finish i o') log' a' := by
  obtain ⟨hworld, howner⟩ := finish_world s o' hp.owner
  have ho : o' = o := by
    have hans := hp.answer
    rw [hprog] at hans
    exact hans
  subst ho
  refine ⟨log, a, sim_same h (finish_other s o') (by rw [hworld]) ?_ ?_ ?_⟩
  · rw [hworld, howner]
    exact h.free
  · intro j _
    rw [hworld, howner]
    exact ⟨id, fun hj => ⟨hj, rfl⟩⟩
  · refine .finished o' ?_ ?_ hp.logged
    · rw [finish_self]
    · rw [howner]
      exact hp.owner

theorem after_load {w a : World σ ω ε} {s : Pool ι σ ω ε α} {log : List (ι × Outcome ε α)}
    {i : ι} {o : Outcome ε α} {v : ω} {k : ω → Prog σ ω ε α} (h : Sim calls w s log a)
    (hp : After s log i o v) (hprog : (s.threads i).prog = .load k)
    (hst : (s.threads i).seen = none ∨ (s.threads i).seen = some s.world.cell) :
    ∃ log' a', Sim calls w (s.advance i) log' a' := by
  have hv : s.world.cell = v := by
    rcases hst with hn | hs
    · rw [hp.seen] at hn
      cases hn
    · rw [hp.seen] at hs
      exact (Option.some_inj.mp hs).symm
  have hself := advance_self s i
  have hworld : (s.advance i).world = s.world := by simp only [advance, hprog, Prog.next]
  have howner : (s.advance i).owner = s.owner := by simp only [advance, ownerAfter, hprog]
  have hnext : ((s.advance i).threads i).prog = k v := by
    rw [hself, hprog, ← hv]
    rfl
  have hshape := hp.shape
  have hans := hp.answer
  rw [hprog] at hshape hans
  refine ⟨log, a, sim_same h (advance_other s) (by rw [hworld]) ?_ ?_ ?_⟩
  · rw [hworld, howner]
    exact h.free
  · intro j _
    rw [hworld, howner]
    exact ⟨id, fun hj => ⟨hj, rfl⟩⟩
  · refine .after o v ⟨?_, ?_, hp.logged, ?_, ?_, ?_⟩
    · rw [hself]
    · rw [howner]
      exact hp.owner
    · rw [hnext]
      exact hshape.2 v
    · rw [hself]
      exact (seenAfter_stable hst (.inl ⟨k, hprog⟩)).trans (congrArg some hv)
    · rw [hnext]
      exact hans

theorem pending_step {w a : World σ ω ε} {s t : Pool ι σ ω ε α} {log : List (ι × Outcome ε α)}
    {i : ι} (h : Sim calls w s log a) (hp : Pending calls s log i) (hst : s.Stable i)
    (ht : s.step i = some t) : ∃ log' a', Sim calls w t log' a' := by
  have hpre := hp.shape
  simp only [step, hp.result] at ht
  cases hprog : (s.threads i).prog with
  | done o =>
    simp only [hprog, Option.some.injEq] at ht
    subst ht
    exact pending_done h hp hprog
  | load k =>
    simp only [hprog, Option.some.injEq] at ht
    subst ht
    simp only [Stable, hprog] at hst
    exact pending_load h hp hprog hst
  | lock e k =>
    simp only [Stable, hprog] at hst
    cases hown : s.owner with
    | some j => simp [hprog, hown] at ht
    | none =>
      simp only [hprog, hown, Option.isSome_none, Bool.false_eq_true, ite_false,
        Option.some.injEq] at ht
      subst ht
      exact pending_lock h hp hprog hst hown
  | store v k => rw [hprog] at hpre; exact hpre.elim
  | unlock k => rw [hprog] at hpre; exact hpre.elim
  | beginTx k => rw [hprog] at hpre; exact hpre.elim
  | commit k => rw [hprog] at hpre; exact hpre.elim
  | exec st k => rw [hprog] at hpre; exact hpre.elim

theorem inside_step {w a : World σ ω ε} {s t : Pool ι σ ω ε α} {log : List (ι × Outcome ε α)}
    {i : ι} (h : Sim calls w s log a) (hp : Inside calls s log a i)
    (ht : s.step i = some t) : ∃ log' a', Sim calls w t log' a' := by
  have hcrit := hp.shape
  have hnext := Prog.crit_next hcrit s.world
  simp only [step, hp.result] at ht
  cases hprog : (s.threads i).prog with
  | done o =>
    simp only [hprog, Option.some.injEq] at ht
    subst ht
    exact inside_done h hp hprog
  | store v k =>
    simp only [hprog, Option.some.injEq] at ht
    subst ht
    rw [hprog] at hcrit
    obtain ⟨o, ho⟩ := hcrit
    rw [ho] at hprog
    exact inside_store h hp hprog
  | unlock k =>
    simp only [hprog, Option.some.injEq] at ht
    subst ht
    exact inside_unlock h hp hprog
  | lock e k => rw [hprog] at hcrit; exact hcrit.elim
  | load k =>
    simp only [hprog, Option.some.injEq] at ht
    subst ht
    refine inside_advance h hp ?_ ?_ ?_ (hnext (by simp [hprog]) (by simp [hprog]))
    · simp only [ownerAfter, hprog]
    · simp only [hprog, Prog.next]
    · rw [seenAfter_stable (.inr hp.seen) (.inl ⟨k, hprog⟩), hp.seen]
  | beginTx k =>
    simp only [hprog, Option.some.injEq] at ht
    subst ht
    refine inside_advance h hp ?_ ?_ ?_ (hnext (by simp [hprog]) (by simp [hprog]))
    · simp only [ownerAfter, hprog]
    · rw [hprog]
      exact Prog.next_cell_beginTx k s.world
    · simp only [seenAfter, hprog]
  | commit k =>
    simp only [hprog, Option.some.injEq] at ht
    subst ht
    refine inside_advance h hp ?_ ?_ ?_ (hnext (by simp [hprog]) (by simp [hprog]))
    · simp only [ownerAfter, hprog]
    · rw [hprog]
      exact Prog.next_cell_commit k s.world
    · simp only [seenAfter, hprog]
  | exec st k =>
    simp only [hprog, Option.some.injEq] at ht
    subst ht
    refine inside_advance h hp ?_ ?_ ?_ (hnext (by simp [hprog]) (by simp [hprog]))
    · simp only [ownerAfter, hprog]
    · rw [hprog]
      exact Prog.next_cell_exec st k s.world
    · simp only [seenAfter, hprog]

theorem after_step {w a : World σ ω ε} {s t : Pool ι σ ω ε α} {log : List (ι × Outcome ε α)}
    {i : ι} (h : Sim calls w s log a) {o : Outcome ε α} {v : ω}
    (hp : After s log i o v) (hst : s.Stable i) (ht : s.step i = some t) :
    ∃ log' a', Sim calls w t log' a' := by
  have hpost := hp.shape
  simp only [step, hp.result] at ht
  cases hprog : (s.threads i).prog with
  | done o' =>
    simp only [hprog, Option.some.injEq] at ht
    subst ht
    exact after_done h hp hprog
  | load k =>
    simp only [hprog, Option.some.injEq] at ht
    subst ht
    simp only [Stable, hprog] at hst
    exact after_load h hp hprog hst
  | store v k => rw [hprog] at hpost; exact hpost.1.elim
  | lock e k => rw [hprog] at hpost; exact hpost.1.elim
  | unlock k => rw [hprog] at hpost; exact hpost.1.elim
  | beginTx k => rw [hprog] at hpost; exact hpost.1.elim
  | commit k => rw [hprog] at hpost; exact hpost.1.elim
  | exec st k =>
    rw [hprog] at hpost
    rcases hpost.1 with hs | hq
    · exact hs.elim
    · exact hq.1.elim

theorem sim_step {w a : World σ ω ε} {s t : Pool ι σ ω ε α} {log : List (ι × Outcome ε α)}
    {i : ι} (h : Sim calls w s log a) (hst : s.Stable i) (ht : s.step i = some t) :
    ∃ log' a', Sim calls w t log' a' := by
  cases h.status i with
  | finished o hr ho hl => simp [step, hr] at ht
  | leaving o hp =>
    simp only [step, hp.result, hp.prog, Option.some.injEq] at ht
    subst ht
    exact leaving_done h hp
  | pending hp => exact pending_step h hp hst ht
  | inside hp => exact inside_step h hp ht
  | after o v hp => exact after_step h hp hst ht

/-- Every stable run is simulated by running the calls of a log one after another. -/
theorem sim_run {w : World σ ω ε} {s : Pool ι σ ω ε α} (hw : w.Idle)
    (hc : ∀ i, (calls i).Pre) (h : StableRun (start calls w) s) :
    ∃ log a, Sim calls w s log a := by
  induction h with
  | refl => exact ⟨[], w, start_sim calls w hw hc⟩
  | step i _ hst ht ih =>
    obtain ⟨log, a, hsim⟩ := ih
    exact sim_step hsim hst ht

/-- When every call of a stable run has returned, the answers and the final world are
those of running the calls one after another in some order. -/
theorem stable_serial {w : World σ ω ε} {s : Pool ι σ ω ε α} (hw : w.Idle)
    (hc : ∀ i, (calls i).Pre) (h : StableRun (start calls w) s)
    (hdone : ∀ i, (s.threads i).result.isSome) :
    ∃ log, Serial calls w log s.world ∧ (log.map Prod.fst).Nodup ∧
      ∀ i, ∃ o, (i, o) ∈ log ∧ (s.threads i).result = some o := by
  obtain ⟨log, a, hsim⟩ := sim_run hw hc h
  have hfin : ∀ i, ∃ o, (s.threads i).result = some o ∧ s.owner ≠ some i ∧ (i, o) ∈ log := by
    intro i
    have hd := hdone i
    cases hsim.status i with
    | pending hp => rw [hp.result] at hd; cases hd
    | inside hp => rw [hp.result] at hd; cases hd
    | leaving o hp => rw [hp.result] at hd; cases hd
    | after o v hp => rw [hp.result] at hd; cases hd
    | finished o hr ho hl => exact ⟨o, hr, ho, hl⟩
  have hfree : s.owner = none := by
    cases hown : s.owner with
    | none => rfl
    | some i =>
      obtain ⟨o, _, ho, _⟩ := hfin i
      exact absurd hown ho
  refine ⟨log, ?_, hsim.nodup, fun i => ?_⟩
  · rw [hsim.free hfree]
    exact hsim.serial
  · obtain ⟨o, hr, _, hl⟩ := hfin i
    exact ⟨o, hl, hr⟩

end Pool

end LockedStore
