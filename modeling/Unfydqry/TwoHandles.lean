import Unfydqry.UndisturbedCalls

/-! # Two handles at work on one file

A handle keeps the normalizer and the width it was opened with, and several calls take more
than one step. The file stays in order as long as a handle that stores is up to date and no
step falls between those of a call of the other handle on the same rows. -/

namespace Unfydqry

open LockedStore Prog SearchEngine

/-! ### Runs -/

/-- The rows of `docs` that a call under way has half written. -/
def Task.torn (env : Env) (t : Task) (id : Int64) (v : Option Text) : Prop :=
  match t.job, t.turns with
  | .call _ (.index k _), 1 => id = k ∧ v = none
  | .call o (.index k text), 2 => id = k ∧ v = some (o.engine.normalizer env text)
  | .call _ (.remove k), 1 => id = k ∧ v = none
  | .call o (.removeRecord r), 1 =>
    Sql.between (shlOf o.fieldBits r) (hiOf o.fieldBits r) id = true ∧ v = none
  | _, _ => False

def Job.Current (file : Db) : Job → Prop
  | .call o c => c.Current o file
  | .opening _ => True

/-- The other handle is not in the middle of a call on rows of this one. -/
def Task.Beside (t : Task) : Option Task → Prop
  | none => True
  | some t' => t'.turns = 0 ∨ t.job.access.Apart t'.job.access

/-- A step of an up-to-date handle beside the calls of the other one. -/
def Careful (s : Shared) : Event → Prop
  | .start .. => True
  | .turn i =>
    match (s.handles i).task with
    | none => True
    | some t => t.job.Current s.file ∧ t.Beside (s.handles (!i)).task

/-- Every step of the run is careful. -/
def AllCareful (env : Env) : Shared → List Event → Prop
  | _, [] => True
  | s, ev :: events => Careful s ev ∧ AllCareful env (s.step env ev) events

/-- How far a call under way can have come. `base` is the file before the call, when the call
has the file for itself. -/
inductive Reached (env : Env) (base file : Db) : Task → Prop where
  | started (job : Job) (w : EngineWorld) (hw : ∀ db, { w with db := db } = job.world db) :
    Reached env base file { job := job, prog := job.prog env, world := w }
  | cleared (o : OpenEngine) (id : Int64) (text : Text) (w : EngineWorld)
    (hw : ∀ db, { w with db := db } = quiet db none o.fieldBits true) :
    Reached env base file
      { job := .call o (.index id text), prog := listDoc env o id text, world := w, turns := 1 }
  | listed (o : OpenEngine) (id : Int64) (text : Text) (w : EngineWorld)
    (hw : ∀ db, { w with db := db } = quiet db none o.fieldBits true) :
    Reached env base file
      { job := .call o (.index id text), prog := storeEntry env o id text, world := w, turns := 2 }
  | unlisted (o : OpenEngine) (id : Int64) (w : EngineWorld)
    (hw : ∀ db, { w with db := db } = quiet db none o.fieldBits true) :
    Reached env base file
      { job := .call o (.remove id), prog := dropEntry id, world := w, turns := 1 }
  | unlistedRange (o : OpenEngine) (r : Int64) (w : EngineWorld)
    (hw : ∀ db, { w with db := db } = quiet db none o.fieldBits true) :
    Reached env base file
      { job := .call o (.removeRecord r)
        prog := dropEntries (shlOf o.fieldBits r) (hiOf o.fieldBits r), world := w, turns := 1 }
  | reading (t : Task) (hjob : t.job.access = .none) (huses : t.prog.Uses outsideTx)
    (hsaved : t.world.saved = none)
    (hcell : ∀ o c, t.job = .call o c → t.world.cell = o.fieldBits) :
    Reached env base file t
  | alone (t : Task) (hjob : t.job.access = .all) (hpos : 0 < t.turns)
    (hcur : t.job.Current base) (hlive : ∀ o c, t.job = .call o c → o.poisoned = false)
    (hrun : t.prog.run { t.world with db := file } = (t.job.prog env).run (t.job.world base)) :
    Reached env base file t

structure HandleOk (env : Env) (base file : Db) (h : Handle) : Prop where
  opened : ∀ o, h.opened = some o →
    ValidBits o.fieldBits ∧ base.metaTable.normalizeProfile ≠ none
  task : ∀ t, h.task = some t → Reached env base file t ∧
    ∀ o c, t.job = .call o c → h.opened = some o

def Handle.torn (env : Env) (h : Handle) (id : Int64) (v : Option Text) : Prop :=
  ∃ t, h.task = some t ∧ t.torn env id v

/-- The call under way has the file for itself. -/
def Handle.Alone (h : Handle) : Prop := ∃ t, h.task = some t ∧ 0 < t.turns ∧ t.job.access = .all

theorem Handle.not_alone (h : Handle) {t : Task} (ht : h.task = some t)
    (hacc : t.job.access ≠ .all) : ¬ h.Alone := by
  rintro ⟨t', ht', _, hall⟩
  rw [ht, Option.some.injEq] at ht'
  exact hacc (ht' ▸ hall)

structure Inv (env : Env) (base : Db) (s : Shared) : Prop where
  inOrder : InOrder env s.kept (fun id v => ∃ i, (s.handles i).torn env id v) base
  handles : ∀ i, HandleOk env base s.file (s.handles i)
  apart : ∀ i t t', (s.handles i).task = some t → (s.handles (!i)).task = some t' →
    0 < t.turns → 0 < t'.turns → t.job.access.Apart t'.job.access
  file : (∀ i, ¬ (s.handles i).Alone) → s.file = base

section Inv

variable {env : Env} {base base' file file' : Db} {s : Shared} {i : Bool} {t : Task}
  {texts : Catalog} {torn torn' : Int64 → Option Text → Prop}

theorem InOrder.congr (h : InOrder env texts torn base) (hiff : ∀ id v, torn' id v ↔ torn id v) :
    InOrder env texts torn' base := by
  rcases h with ⟨o, h⟩ | ⟨h, htexts, hnone⟩
  · exact .inl ⟨o, h.columns, h.bits, h.profile, h.rows.congr hiff⟩
  · exact .inr ⟨h, htexts, fun id v hv => hnone id v ((hiff id v).mp hv)⟩

theorem Task.covers_of_torn {id : Int64} {v : Option Text} (h : t.torn env id v) :
    0 < t.turns ∧ t.job.access ≠ .all ∧ t.job.access.Covers id := by
  unfold Task.torn at h
  have hself : (Access.rows [(id, id)]).Covers id :=
    ⟨(id, id), List.mem_singleton_self _, by simp [Sql.between]⟩
  split at h
  · rename_i hjob hturns
    obtain ⟨rfl, _⟩ := h
    rw [hjob, hturns]
    exact ⟨by omega, by simp [Job.access, Call.access], hself⟩
  · rename_i hjob hturns
    obtain ⟨rfl, _⟩ := h
    rw [hjob, hturns]
    exact ⟨by omega, by simp [Job.access, Call.access], hself⟩
  · rename_i hjob hturns
    obtain ⟨rfl, _⟩ := h
    rw [hjob, hturns]
    exact ⟨by omega, by simp [Job.access, Call.access], hself⟩
  · rename_i hjob hturns
    rw [hjob, hturns]
    exact ⟨by omega, by simp [Job.access, Call.access], _, List.mem_singleton_self _, h.1⟩
  · exact h.elim

theorem Reached.transport (h : Reached env base file t)
    (ht : ¬ (0 < t.turns ∧ t.job.access = .all)) : Reached env base' file' t := by
  cases h with
  | started job w hw => exact .started job w hw
  | cleared o id text w hw => exact .cleared o id text w hw
  | listed o id text w hw => exact .listed o id text w hw
  | unlisted o id w hw => exact .unlisted o id w hw
  | unlistedRange o r w hw => exact .unlistedRange o r w hw
  | reading _ hjob huses hsaved hcell => exact .reading t hjob huses hsaved hcell
  | alone _ hjob hpos _ _ _ => exact absurd ⟨hpos, hjob⟩ ht

theorem torn_iff (i : Bool) (id : Int64) (v : Option Text) :
    (∃ k, (s.handles k).torn env id v) ↔
      (s.handles i).torn env id v ∨ (s.handles (!i)).torn env id v := by
  cases i <;> simp [or_comm]

/-- A step of handle `i`: what the rest of the invariant asks of it. -/
theorem Inv.update (h : Inv env base s) {h' : Handle} {kept' : Catalog}
    (hsame : (s.handles (!i)).Alone → file' = s.file ∧ base' = base)
    (hprofile : base.metaTable.normalizeProfile ≠ none → base'.metaTable.normalizeProfile ≠ none)
    (hself : HandleOk env base' file' h')
    (hapart : ∀ t t', h'.task = some t → (s.handles (!i)).task = some t' → 0 < t.turns →
      0 < t'.turns → t.job.access.Apart t'.job.access)
    (hfile : ¬ h'.Alone → ¬ (s.handles (!i)).Alone → file' = base')
    (hin : InOrder env kept' (fun id v => h'.torn env id v ∨ (s.handles (!i)).torn env id v)
      base') :
    Inv env base'
      { file := file', kept := kept', handles := Function.update s.handles i h' } := by
  have hi : Function.update s.handles i h' i = h' := Function.update_self ..
  have hj : Function.update s.handles i h' (!i) = s.handles (!i) :=
    Function.update_of_ne (by simp) ..
  have hboth : ∀ {P : Bool → Prop}, P i → P (!i) → ∀ k, P k := by
    intro P h1 h2 k
    cases i <;> cases k <;> assumption
  have hother : HandleOk env base' file' (s.handles (!i)) := by
    refine ⟨fun o ho => ⟨((h.handles _).opened o ho).1, hprofile ((h.handles _).opened o ho).2⟩,
      fun t ht => ⟨?_, ((h.handles _).task t ht).2⟩⟩
    by_cases halone : 0 < t.turns ∧ t.job.access = .all
    · obtain ⟨rfl, rfl⟩ := hsame ⟨t, ht, halone⟩
      exact ((h.handles _).task t ht).1
    · exact ((h.handles _).task t ht).1.transport halone
  refine ⟨hin.congr fun id v => ?_, ?_, ?_, fun hnone => ?_⟩
  · rw [torn_iff (s := { file := file', kept := kept', handles := _ }) i]
    dsimp only
    rw [hi, hj]
  · exact hboth (by dsimp only; rw [hi]; exact hself) (by dsimp only; rw [hj]; exact hother)
  · refine hboth ?_ ?_
    · dsimp only
      rw [hi, hj]
      exact hapart
    · intro t t' ht ht' hpos hpos'
      dsimp only at ht ht'
      rw [Bool.not_not, hi] at ht'
      rw [hj] at ht
      exact (hapart t' t ht' ht hpos' hpos).symm
  · have h1 := hnone i
    have h2 := hnone (!i)
    dsimp only at h1 h2
    rw [hi] at h1
    rw [hj] at h2
    exact hfile h1 h2

theorem turn_done (ht : (s.handles i).task = some t) {o : Outcome SearchError (Option SearchEngine)}
    {w : EngineWorld} (h : t.prog.turn { t.world with db := s.file } = (.done o, w)) :
    s.turn env i = s.finish env i t.job o (w.leave o) := by
  simp only [Shared.turn, ht, h]

theorem turn_on (ht : (s.handles i).task = some t) {p : EngineM (Option SearchEngine)}
    {w : EngineWorld} (h : t.prog.turn { t.world with db := s.file } = (p, w))
    (hp : ∀ o, p ≠ .done o) :
    s.turn env i =
      { s with
        file := w.db
        handles := Function.update s.handles i
          { s.handles i with
            task := some { t with prog := p, world := w, turns := t.turns + 1 } } } := by
  cases p with
  | done o => exact absurd rfl (hp o)
  | _ => simp only [Shared.turn, ht, h]

theorem handle_idle_torn {h : Handle} (hh : h.task = none) (id : Int64) (v : Option Text) :
    ¬ h.torn env id v := by
  rintro ⟨t, ht, _⟩
  rw [hh] at ht
  cases ht

theorem handle_start_torn {h : Handle} (hh : h.task = some t) (hzero : t.turns = 0) (id : Int64)
    (v : Option Text) : ¬ h.torn env id v := by
  rintro ⟨t', ht, hv⟩
  rw [hh, Option.some.injEq] at ht
  subst ht
  have hpos := (Task.covers_of_torn hv).1
  omega

theorem Inv.start (h : Inv env base s) (hidle : (s.handles i).task = none) (a : Action) :
    Inv env base (s.start env i a) := by
  have hin : ∀ h' : Handle, (∀ id v, ¬ h'.torn env id v) →
      InOrder env s.kept (fun id v => h'.torn env id v ∨ (s.handles (!i)).torn env id v) base := by
    intro h' hnone
    refine h.inOrder.congr fun id v => ?_
    rw [torn_iff i, or_iff_right (hnone id v), or_iff_right (handle_idle_torn hidle id v)]
  have hfile : ¬ (s.handles (!i)).Alone → s.file = base := by
    intro hother
    refine h.file fun k => ?_
    by_cases hk : k = i
    · subst hk
      rintro ⟨t, ht, _⟩
      rw [hidle] at ht
      cases ht
    · rw [Bool.eq_not_of_ne hk]
      exact hother
  have hbegin : ∀ (o : Option OpenEngine) (job : Job), HandleOk env base s.file
      { opened := o, task := some (job.task env s.file) } →
      Inv env base
        { s with
          handles := Function.update s.handles i
            { opened := o, task := some (job.task env s.file) } } := by
    intro o job hself
    refine h.update (fun _ => ⟨rfl, rfl⟩) id hself ?_ (fun _ => hfile) (hin _ ?_)
    · intro t t' ht _ hpos _
      cases ht
      exact absurd hpos (Nat.lt_irrefl 0)
    · exact handle_start_torn rfl rfl
  cases a with
  | close =>
    refine h.update (fun _ => ⟨rfl, rfl⟩) id ⟨by simp, by simp⟩ (by simp) (fun _ => hfile)
      (hin _ (handle_idle_torn rfl))
  | reopen c =>
    refine hbegin none _ ⟨by simp, fun t ht => ?_⟩
    cases ht
    exact ⟨.started (.opening c) _ fun _ => rfl, by simp [Job.task]⟩
  | call c =>
    cases ho : (s.handles i).opened with
    | none =>
      simp only [Shared.start, ho]
      exact h
    | some o =>
      simp only [Shared.start, ho]
      refine hbegin (some o) _ ⟨fun o' ho' => ?_, fun t ht => ?_⟩
      · rw [← ho] at ho'
        exact (h.handles i).opened o' ho'
      · cases ht
        refine ⟨.started (.call o c) _ fun _ => rfl, fun o' c' heq => ?_⟩
        simp only [Job.task, Job.call.injEq] at heq
        rw [heq.1]

/-! ### A turn that leaves the file alone -/

theorem reading_call (env : Env) (s : Shared) {job : Job} (h : job.access = .none) :
    ∃ o c, job = .call o c ∧ ¬ c.Mutating ∧
      ∀ out, job.kept env s.file.width s.kept out = s.kept := by
  cases job with
  | opening c => cases h
  | call o c =>
    refine ⟨o, c, rfl, ?_, fun out => ?_⟩
    · cases c <;> first | exact id | cases h
    · cases out with
      | ok a => cases c <;> first | rfl | cases h
      | err e => rfl
      | panic => rfl

theorem Inv.file_eq (h : Inv env base s) (i : Bool) (hself : ¬ (s.handles i).Alone)
    (hother : ¬ (s.handles (!i)).Alone) : s.file = base := by
  refine h.file fun k => ?_
  by_cases hk : k = i
  · rw [hk]
    exact hself
  · rw [Bool.eq_not_of_ne hk]
    exact hother

theorem Inv.finish_same (h : Inv env base s) (ht : (s.handles i).task = some t) {o : OpenEngine}
    {c : Call} (hjob : t.job = .call o c) (htorn : ∀ id v, ¬ t.torn env id v)
    (halone : ¬ (s.handles i).Alone) {out : Outcome SearchError (Option SearchEngine)}
    {w : EngineWorld} (hdb : w.db = s.file) (hcell : w.cell = o.fieldBits)
    (hkept : t.job.kept env s.file.width s.kept out = s.kept) :
    Inv env base (s.finish env i t.job out w) := by
  have hopened := ((h.handles i).task t ht).2 o c hjob
  unfold Shared.finish
  rw [hkept]
  refine h.update (fun _ => ⟨hdb, rfl⟩) id ⟨fun o' ho' => ?_, by simp⟩ (by simp)
    (fun _ hother => hdb.trans (h.file_eq i halone hother)) (h.inOrder.congr fun id v => ?_)
  · rw [hjob, Job.after, Option.some.injEq] at ho'
    rw [← ho']
    dsimp only
    rw [hcell]
    exact (h.handles i).opened o hopened
  · have hnone : ¬ (s.handles i).torn env id v := by
      rintro ⟨t', ht', hv⟩
      rw [ht, Option.some.injEq] at ht'
      exact htorn id v (ht' ▸ hv)
    rw [torn_iff i, or_iff_right hnone, or_iff_right (handle_idle_torn rfl id v)]

theorem Inv.on_same (h : Inv env base s) (ht : (s.handles i).task = some t)
    (htorn : ∀ id v, ¬ t.torn env id v) {t' : Task} (htorn' : ∀ id v, ¬ t'.torn env id v)
    (hjob : t'.job = t.job) (hdb : file' = s.file) (hreached : Reached env base file' t')
    (hapart : ∀ t₂, (s.handles (!i)).task = some t₂ → 0 < t₂.turns →
      t'.job.access.Apart t₂.job.access)
    (hfile : ¬ (0 < t'.turns ∧ t'.job.access = .all) → ¬ (s.handles (!i)).Alone →
      file' = base) :
    Inv env base
      { s with
        file := file'
        handles := Function.update s.handles i { s.handles i with task := some t' } } := by
  refine h.update (fun _ => ⟨hdb, rfl⟩) id ⟨(h.handles i).opened, fun t₁ ht₁ => ?_⟩ ?_ ?_
    (h.inOrder.congr fun id v => ?_)
  · cases ht₁
    exact ⟨hreached, fun o c hc => ((h.handles i).task t ht).2 o c (hjob ▸ hc)⟩
  · intro t₁ t₂ ht₁ ht₂ _ hpos
    cases ht₁
    exact hapart t₂ ht₂ hpos
  · exact fun hself => hfile fun hall => hself ⟨t', rfl, hall⟩
  · have hnone : ¬ (s.handles i).torn env id v := by
      rintro ⟨t₁, ht₁, hv⟩
      rw [ht, Option.some.injEq] at ht₁
      exact htorn id v (ht₁ ▸ hv)
    have hnone' : ¬ ({ s.handles i with task := some t' } : Handle).torn env id v := by
      rintro ⟨t₁, ht₁, hv⟩
      cases ht₁
      exact htorn' id v hv
    rw [torn_iff i, or_iff_right hnone, or_iff_right hnone']

theorem not_torn_of_access (hacc : ∀ l, t.job.access ≠ .rows l) (id : Int64) (v : Option Text) :
    ¬ t.torn env id v := by
  intro hv
  obtain ⟨_, hall, hcovers⟩ := Task.covers_of_torn hv
  cases ha : t.job.access with
  | none => exact (ha ▸ hcovers : Access.none.Covers id)
  | rows l => exact hacc l ha
  | all => exact hall ha

/-- Reads leave the file as it is, whoever else is at work on it. -/
theorem Inv.reading (h : Inv env base s) (ht : (s.handles i).task = some t)
    (hacc : t.job.access = .none) : Inv env base (s.turn env i) := by
  obtain ⟨o, c, hjob, hc, hkept⟩ := reading_call env s hacc
  have hreads : t.prog.Uses outsideTx ∧ t.world.saved = none ∧ t.world.cell = o.fieldBits := by
    cases ((h.handles i).task t ht).1 with
    | started job w hw =>
      obtain rfl : job = .call o c := hjob
      have hworld : { w with db := s.file } = Host.world s.file o := hw s.file
      refine ⟨uses_bind (reads_call env o.engine hc) fun _ => trivial, ?_, ?_⟩
      · exact congrArg World.saved hworld
      · exact congrArg World.cell hworld
    | cleared => cases hacc
    | listed => cases hacc
    | unlisted => cases hacc
    | unlistedRange => cases hacc
    | reading _ _ huses hsaved hcell => exact ⟨huses, hsaved, hcell o c hjob⟩
    | alone _ hall => exact absurd (hacc.symm.trans hall) (by simp)
  obtain ⟨huses, hsaved, hcell⟩ := hreads
  have htorn : ∀ id v, ¬ t.torn env id v := not_torn_of_access (by simp [hacc])
  have hself := (s.handles i).not_alone ht (by simp [hacc])
  have hread := turn_reads huses { t.world with db := s.file } hsaved
  obtain ⟨p, w, hturn⟩ : ∃ p w, t.prog.turn { t.world with db := s.file } = (p, w) := ⟨_, _, rfl⟩
  rw [hturn] at hread
  obtain ⟨huses', hdb, hcell', hsaved'⟩ := hread
  by_cases hdone : ∃ out, p = .done out
  · obtain ⟨out, rfl⟩ := hdone
    obtain ⟨hldb, hlcell⟩ := leave_db out hsaved'
    rw [turn_done ht hturn]
    exact h.finish_same ht hjob htorn hself (hldb.trans hdb)
      (hlcell.trans (hcell'.trans hcell)) (hkept out)
  · rw [turn_on ht hturn fun out hp => hdone ⟨out, hp⟩]
    refine h.on_same ht htorn (not_torn_of_access (by simp [hacc])) rfl hdb
      (.reading _ hacc huses' hsaved' fun o' c' hjob' => ?_) (fun t₂ _ _ => ?_)
      (fun _ hother => hdb.trans (h.file_eq i hself hother))
    · obtain ⟨rfl, rfl⟩ : o = o' ∧ c = c' := by simpa [hjob] using hjob'
      exact hcell'.trans hcell
    · change t.job.access.Apart _
      rw [hacc]
      trivial

theorem Inv.poisoned (h : Inv env base s) {o : OpenEngine} {c : Call} {w : EngineWorld}
    (ht : (s.handles i).task =
      some { job := .call o c, prog := (Job.call o c).prog env, world := w })
    (hc : c.Mutating) (hpo : o.poisoned = true)
    (hw : ∀ db, { w with db := db } = (Job.call o c).world db) :
    Inv env base (s.turn env i) := by
  have hworld : { w with db := s.file } = Host.world s.file o := hw s.file
  obtain ⟨out, hturn, hkept⟩ := poisoned_turn env o hc { w with db := s.file }
    ((congrArg World.poisoned hworld).trans hpo) s.file.width s.kept
  obtain ⟨hldb, hlcell⟩ := leave_db out (w := { w with db := s.file })
    (congrArg World.saved hworld)
  rw [turn_done ht hturn]
  refine h.finish_same ht rfl (fun id v hv => ?_) ?_ hldb
    (hlcell.trans (congrArg World.cell hworld)) hkept
  · exact absurd (Task.covers_of_torn hv).1 (Nat.lt_irrefl 0)
  · rintro ⟨t', ht', hpos, _⟩
    rw [ht, Option.some.injEq] at ht'
    subst ht'
    exact absurd hpos (Nat.lt_irrefl 0)

/-! ### A turn of a call that has the file for itself -/

theorem Call.mutating_of_access (bits : UInt8) {c : Call} (h : c.access bits ≠ .none) :
    c.Mutating := by
  cases c <;> trivial

/-- The other handle then neither writes nor has written. -/
theorem beside_all (env : Env) (ht : (s.handles i).task = some t)
    (hacc : t.job.access = .all) (hbeside : t.Beside (s.handles (!i)).task) :
    ¬ (s.handles (!i)).Alone ∧ ∀ k id v, ¬ (s.handles k).torn env id v := by
  have hother : ∀ t', (s.handles (!i)).task = some t' → 0 < t'.turns → t'.job.access = .none := by
    intro t' ht' hpos
    rw [ht'] at hbeside
    rcases hbeside with hzero | hapart
    · omega
    · rw [hacc] at hapart
      cases ha : t'.job.access with
      | none => rfl
      | rows l => rw [ha] at hapart; exact hapart.elim
      | all => rw [ha] at hapart; exact hapart.elim
  refine ⟨fun ⟨t', ht', hpos, hall⟩ => ?_, fun k id v => ?_⟩
  · rw [hother t' ht' hpos] at hall
    cases hall
  · rintro ⟨t', ht', hv⟩
    by_cases hk : k = i
    · subst hk
      rw [ht, Option.some.injEq] at ht'
      subst ht'
      exact (Task.covers_of_torn hv).2.1 hacc
    · rw [Bool.eq_not_of_ne hk] at ht'
      have hcovers := Task.covers_of_torn hv
      rw [hother t' ht' hcovers.1] at hcovers
      exact hcovers.2.2

/-- What the call keeps depends on the width of the file only where the handle knows it. -/
theorem kept_width {job : Job} (hacc : job.access = .all) (hcur : job.Current file)
    (hbase : job.Current base) (out : Outcome SearchError (Option SearchEngine)) :
    job.kept env file.width texts out = job.kept env base.width texts out := by
  cases job with
  | opening c => cases out <;> rfl
  | call o c =>
    cases c with
    | changeFieldBits new => rw [width_eq hcur, width_eq hbase]
    | removeAll => cases out <;> rfl
    | reindex => cases out <;> rfl
    | _ => cases hacc

/-- What such a job comes to: the file is in order again, and so is the handle. -/
theorem Inv.comes_to (h : Inv env base s) (ht : (s.handles i).task = some t)
    (hacc : t.job.access = .all) (hbase : t.job.Current base)
    (hlive : ∀ o c, t.job = .call o c → o.poisoned = false)
    (hnone : ∀ k id v, ¬ (s.handles k).torn env id v) :
    ∃ out w, (t.job.prog env).run (t.job.world base) = (out, w) ∧
      InOrder env (t.job.kept env base.width s.kept out) (fun _ _ => False) w.db ∧
      (∀ o, t.job.after w out = some o →
        ValidBits o.fieldBits ∧ w.db.metaTable.normalizeProfile ≠ none) ∧
      (base.metaTable.normalizeProfile ≠ none → w.db.metaTable.normalizeProfile ≠ none) := by
  have hin : InOrder env s.kept (fun _ _ => False) base :=
    h.inOrder.congr fun id v => ⟨False.elim, fun ⟨k, hk⟩ => hnone k id v hk⟩
  cases hjob : t.job with
  | opening c =>
    obtain ⟨out, db', bits', hrun, hin', hopened, hprofile⟩ := hin.opening (fun _ _ => id) c
    refine ⟨out, _, hrun, ?_, fun o ho => ?_, hprofile⟩
    · cases out <;> exact hin'
    · cases out with
      | ok a =>
        cases a with
        | none => cases ho
        | some engine =>
          cases ho
          exact hopened engine rfl
      | err e => cases ho
      | panic => cases ho
  | call o c =>
    have hopened := ((h.handles i).opened o (((h.handles i).task t ht).2 o c hjob))
    rw [hjob] at hacc hbase
    have hlive := hlive o c hjob
    rcases hin with ⟨no, hholds⟩ | ⟨hblank, _, _⟩
    · obtain ⟨out, db', bits', no', hrun, hholds', hbits'⟩ := hholds.call hopened.1
        (Call.mutating_of_access o.fieldBits fun hn => by cases hacc.symm.trans hn) hbase
        (fun _ _ hv => hv.elim)
      have hworld : (Job.call o c).world base = quiet base none o.fieldBits false :=
        Host.world_quiet hlive base
      refine ⟨out, _, hworld ▸ hrun, .inl ⟨no', hholds'⟩, fun o' ho' => ?_, fun _ => ?_⟩
      · cases ho'
        refine ⟨hbits', ?_⟩
        rw [quiet, hholds'.profile]
        simp
      · rw [quiet, hholds'.profile]
        simp
    · exact absurd hblank.profile hopened.2

theorem Inv.alone (h : Inv env base s) (ht : (s.handles i).task = some t)
    (hacc : t.job.access = .all) (hcur : t.job.Current s.file)
    (hbeside : t.Beside (s.handles (!i)).task) : ∃ base', Inv env base' (s.turn env i) := by
  obtain ⟨hother, hnone⟩ := beside_all env ht hacc hbeside
  -- so far nothing has happened that the job run on `base` at one go does not do
  have hstate : (∃ o c, t.job = .call o c ∧ o.poisoned = true ∧ Inv env base (s.turn env i)) ∨
      (t.job.Current base ∧ (∀ o c, t.job = .call o c → o.poisoned = false) ∧
        t.prog.run { t.world with db := s.file } = (t.job.prog env).run (t.job.world base)) := by
    cases ((h.handles i).task t ht).1 with
    | started job w hw =>
      have hself : ¬ (s.handles i).Alone := by
        rintro ⟨t', ht', hpos, _⟩
        rw [ht, Option.some.injEq] at ht'
        subst ht'
        exact absurd hpos (Nat.lt_irrefl 0)
      have hfile := h.file_eq i hself hother
      by_cases hpo : ∃ o c, job = .call o c ∧ o.poisoned = true
      · obtain ⟨o, c, rfl, hpo⟩ := hpo
        refine .inl ⟨o, c, rfl, hpo, h.poisoned ht ?_ hpo hw⟩
        exact Call.mutating_of_access o.fieldBits fun hn => by cases hacc.symm.trans hn
      · refine .inr ⟨hfile ▸ hcur, fun o c hjob => ?_, ?_⟩
        · cases hp : o.poisoned with
          | false => rfl
          | true => exact absurd ⟨o, c, hjob, hp⟩ hpo
        · exact congrArg (job.prog env).run ((hw s.file).trans (congrArg job.world hfile))
    | cleared => cases hacc
    | listed => cases hacc
    | unlisted => cases hacc
    | unlistedRange => cases hacc
    | reading _ hjob => cases hacc.symm.trans hjob
    | alone _ _ _ hbase hlive hrun => exact .inr ⟨hbase, hlive, hrun⟩
  rcases hstate with ⟨_, _, _, _, hinv⟩ | ⟨hbase, hlive, hrun⟩
  · exact ⟨base, hinv⟩
  obtain ⟨p, w, hturn⟩ : ∃ p w, t.prog.turn { t.world with db := s.file } = (p, w) := ⟨_, _, rfl⟩
  have hrest : p.run w = (t.job.prog env).run (t.job.world base) := by
    have hsame := run_turn t.prog { t.world with db := s.file }
    rw [hturn] at hsame
    exact hsame.trans hrun
  by_cases hdone : ∃ out, p = .done out
  · obtain ⟨out, rfl⟩ := hdone
    obtain ⟨out', w', hrun', hin, hafter, hprofile⟩ := h.comes_to ht hacc hbase hlive hnone
    obtain ⟨rfl, rfl⟩ : out = out' ∧ w.leave out = w' := by
      rw [run_done, hrun', Prod.mk.injEq] at hrest
      exact hrest
    rw [turn_done ht hturn]
    refine ⟨_, h.update (fun halone => absurd halone hother) hprofile ⟨hafter, by simp⟩ (by simp)
      (fun _ _ => rfl) ?_⟩
    rw [kept_width hacc hcur hbase]
    refine hin.congr fun id v => ⟨fun hv => ?_, False.elim⟩
    rcases hv with hv | hv
    · exact handle_idle_torn rfl id v hv
    · exact hnone _ id v hv
  · rw [turn_on ht hturn fun out hp => hdone ⟨out, hp⟩]
    have hpos : 0 < t.turns + 1 := Nat.succ_pos _
    refine ⟨base, h.update (fun halone => absurd halone hother) id
      ⟨(h.handles i).opened, fun t₁ ht₁ => ?_⟩ ?_ (fun hself => absurd ⟨_, rfl, hpos, hacc⟩ hself)
      (h.inOrder.congr fun id v => ?_)⟩
    · cases ht₁
      exact ⟨.alone _ hacc hpos hbase hlive hrest, ((h.handles i).task t ht).2⟩
    · intro t₁ t₂ ht₁ ht₂ _ hpos₂
      cases ht₁
      rw [ht₂] at hbeside
      exact hbeside.resolve_left (Nat.ne_of_gt hpos₂)
    · refine ⟨fun hv => ?_, fun ⟨k, hv⟩ => absurd hv (hnone k id v)⟩
      rcases hv with ⟨t₁, ht₁, hv⟩ | hv
      · cases ht₁
        exact absurd hv (not_torn_of_access (by simp [hacc]) id v)
      · exact absurd hv (hnone _ id v)

/-! ### A turn of a call on some rows -/

/-- The other handle neither has the file for itself nor has half written a row of the call. -/
theorem Inv.beside_rows (h : Inv env base s) (ht : (s.handles i).task = some t) {o : OpenEngine}
    {c : Call} (hjob : t.job = .call o c) {l : List (Int64 × Int64)} (hacc : t.job.access = .rows l)
    (hbeside : t.Beside (s.handles (!i)).task) :
    s.file = base ∧ ¬ (s.handles (!i)).Alone ∧ ValidBits o.fieldBits ∧
      (∃ no, Holds env no s.kept
        (fun id v => t.torn env id v ∨ (s.handles (!i)).torn env id v) base) ∧
      ∀ id v, (s.handles (!i)).torn env id v → ¬ t.job.access.Covers id := by
  have hapart : ∀ t', (s.handles (!i)).task = some t' → 0 < t'.turns →
      t.job.access.Apart t'.job.access := by
    intro t' ht' hpos
    rw [ht'] at hbeside
    exact hbeside.resolve_left (Nat.ne_of_gt hpos)
  have hself := (s.handles i).not_alone ht (by simp [hacc])
  have hother : ¬ (s.handles (!i)).Alone := by
    rintro ⟨t', ht', hpos, hall⟩
    have h' := hapart t' ht' hpos
    rw [hacc, hall] at h'
    exact h'
  obtain ⟨hb, hstamped⟩ := (h.handles i).opened o (((h.handles i).task t ht).2 o c hjob)
  refine ⟨h.file_eq i hself hother, hother, hb, ?_, fun id v ⟨t', ht', hv⟩ => ?_⟩
  · have hin := h.inOrder.congr fun id v => (torn_iff i id v).symm
    rcases hin with ⟨no, hholds⟩ | ⟨hblank, _, _⟩
    · refine ⟨no, hholds.keep ⟨rfl, rfl⟩ (hholds.rows.congr fun id v => or_congr_left ?_)⟩
      refine ⟨fun hv => ⟨t, ht, hv⟩, fun ⟨t', ht', hv⟩ => ?_⟩
      rw [ht, Option.some.injEq] at ht'
      exact ht' ▸ hv
    · exact absurd hblank.profile hstamped
  · have hcovers := Task.covers_of_torn hv
    exact (hapart t' ht' hcovers.1).symm.covers hcovers.2.2

theorem Inv.on_rows (h : Inv env base s) (ht : (s.handles i).task = some t) {no : NormalizeOptions}
    {t' : Task} (hjob : t'.job = t.job) (hother : ¬ (s.handles (!i)).Alone)
    (hbeside : t.Beside (s.handles (!i)).task)
    (hholds : Holds env no s.kept
      (fun id v => t'.torn env id v ∨ (s.handles (!i)).torn env id v) file')
    (hreached : Reached env file' file' t') :
    Inv env file'
      { s with
        file := file'
        handles := Function.update s.handles i { s.handles i with task := some t' } } := by
  have hprofile : file'.metaTable.normalizeProfile ≠ none := by
    rw [hholds.profile]
    simp
  refine h.update (fun halone => absurd halone hother) (fun _ => hprofile)
    ⟨fun o ho => ⟨((h.handles i).opened o ho).1, hprofile⟩, fun t₁ ht₁ => ?_⟩ ?_ (fun _ _ => rfl)
    (.inl ⟨no, hholds.keep ⟨rfl, rfl⟩ (hholds.rows.congr fun id v => or_congr_left ?_)⟩)
  · cases ht₁
    exact ⟨hreached, fun o c hc => ((h.handles i).task t ht).2 o c (hjob ▸ hc)⟩
  · intro t₁ t₂ ht₁ ht₂ _ hpos
    cases ht₁
    rw [ht₂] at hbeside
    rw [hjob]
    exact hbeside.resolve_left (Nat.ne_of_gt hpos)
  · refine ⟨fun ⟨t₁, ht₁, hv⟩ => ?_, fun hv => ⟨t', rfl, hv⟩⟩
    cases ht₁
    exact hv

theorem Inv.finish_rows (h : Inv env base s) (o : OpenEngine) (c : Call) {no : NormalizeOptions}
    {out : Outcome SearchError (Option SearchEngine)} {w : EngineWorld}
    (hother : ¬ (s.handles (!i)).Alone) (hb : ValidBits w.cell)
    (hholds : Holds env no ((Job.call o c).kept env s.file.width s.kept out)
      (fun id v => (s.handles (!i)).torn env id v) w.db) :
    Inv env w.db (s.finish env i (.call o c) out w) := by
  have hprofile : w.db.metaTable.normalizeProfile ≠ none := by
    rw [hholds.profile]
    simp
  refine h.update (fun halone => absurd halone hother) (fun _ => hprofile)
    ⟨fun o' ho' => ?_, by simp⟩ (by simp) (fun _ _ => rfl)
    (.inl ⟨no, hholds.keep ⟨rfl, rfl⟩ (hholds.rows.congr fun id v => ?_)⟩)
  · cases ho'
    exact ⟨hb, hprofile⟩
  · rw [or_iff_right (handle_idle_torn rfl id v)]

/-- The calls that are one transaction, or that do nothing. -/
def Call.Batched : Call → Prop
  | .indexBatch .. | .removeBatch .. | .indexRecord .. | .indexRecordsBatch .. => True
  | _ => False

theorem Call.oneTx (e : SearchEngine) {c : Call} (hc : c.Batched) : (c.prog env e).OneTx := by
  cases c with
  | indexBatch items => exact oneTx_bind_pure (indexBatch_oneTx env e items) _
  | removeBatch ids => exact oneTx_bind_pure (removeBatch_oneTx ids) _
  | indexRecord r fields => exact oneTx_bind_pure (indexRecord_oneTx env e r fields) _
  | indexRecordsBatch records => exact oneTx_bind_pure (indexRecordsBatch_oneTx env e records) _
  | _ => exact hc.elim

theorem Inv.batched (h : Inv env base s) {o : OpenEngine} {c : Call} {w : EngineWorld}
    {no : NormalizeOptions}
    (ht : (s.handles i).task =
      some { job := .call o c, prog := (Job.call o c).prog env, world := w })
    (hc : c.Batched) (hb : ValidBits o.fieldBits) (hother : ¬ (s.handles (!i)).Alone)
    (hw : { w with db := s.file } = quiet s.file none o.fieldBits false)
    (hcur : c.Current o s.file)
    (hholds : Holds env no s.kept (fun id v => (s.handles (!i)).torn env id v) s.file)
    (hoff : ∀ id v, (s.handles (!i)).torn env id v → ¬ (c.access o.fieldBits).Covers id) :
    ∃ base', Inv env base' (s.turn env i) := by
  have hmutating : c.Mutating := by cases c <;> trivial
  obtain ⟨out, hout⟩ := turn_oneTx (oneTx_bind_pure (Call.oneTx o.engine hc) fun _ => none)
    (quiet s.file none o.fieldBits false)
  obtain ⟨w', hturn⟩ : ∃ w', ((Job.call o c).prog env).turn
      (quiet s.file none o.fieldBits false) = (.done out, w') := ⟨_, Prod.ext hout rfl⟩
  obtain ⟨out', db', bits', no', hrun, hholds', hb'⟩ := hholds.call hb hmutating hcur hoff
  have hsame := run_turn ((Job.call o c).prog env) (quiet s.file none o.fieldBits false)
  rw [hturn, run_done, hrun, Prod.mk.injEq] at hsame
  obtain ⟨rfl, hleave⟩ := hsame
  rw [turn_done ht ((congrArg _ hw).trans hturn), hleave]
  exact ⟨_, h.finish_rows o c hother hb' hholds'⟩

theorem Inv.begin_rows (h : Inv env base s) {o : OpenEngine} {c : Call} {w : EngineWorld}
    {no : NormalizeOptions}
    (ht : (s.handles i).task =
      some { job := .call o c, prog := (Job.call o c).prog env, world := w })
    {l : List (Int64 × Int64)} (hacc : c.access o.fieldBits = .rows l)
    (hb : ValidBits o.fieldBits) (hother : ¬ (s.handles (!i)).Alone)
    (hbeside : Task.Beside { job := .call o c, prog := (Job.call o c).prog env, world := w }
      (s.handles (!i)).task)
    (hw : { w with db := s.file } = quiet s.file none o.fieldBits false)
    (hcur : c.Current o s.file)
    (hholds : Holds env no s.kept (fun id v => (s.handles (!i)).torn env id v) s.file)
    (hoff : ∀ id v, (s.handles (!i)).torn env id v → ¬ (c.access o.fieldBits).Covers id) :
    ∃ base', Inv env base' (s.turn env i) := by
  have hbetween : ∀ a : Int64, Sql.between a a a = true := by simp [Sql.between]
  cases c with
  | index id text =>
    have hid : ∀ v, ¬ (s.handles (!i)).torn env id v := fun v hv =>
      hoff id v hv ⟨(id, id), List.mem_singleton_self _, hbetween id⟩
    rw [turn_on ht ((congrArg _ hw).trans (index_turn env o _ _ id text)) (by simp [listDoc])]
    exact ⟨_, h.on_rows ht rfl hother hbeside (hholds.keep ⟨rfl, rfl⟩ (hholds.rows.unlist hid))
      (.cleared o id text _ fun _ => rfl)⟩
  | remove id =>
    have hid : ∀ v, ¬ (s.handles (!i)).torn env id v := fun v hv =>
      hoff id v hv ⟨(id, id), List.mem_singleton_self _, hbetween id⟩
    rw [turn_on ht ((congrArg _ hw).trans (remove_turn env o _ _ id)) (by simp [dropEntry])]
    exact ⟨_, h.on_rows ht rfl hother hbeside (hholds.keep ⟨rfl, rfl⟩ (hholds.rows.unlist hid))
      (.unlisted o id _ fun _ => rfl)⟩
  | removeRecord r =>
    by_cases hr : RecordOk o.fieldBits r
    · have hids : ∀ id v, (s.handles (!i)).torn env id v →
          ¬ Sql.between (shlOf o.fieldBits r) (hiOf o.fieldBits r) id = true := fun id v hv hin =>
        hoff id v hv ⟨_, List.mem_singleton_self _, hin⟩
      rw [turn_on ht ((congrArg _ hw).trans (removeRecord_turn env o _ hb hr))
        (by simp [dropEntries])]
      exact ⟨_, h.on_rows ht rfl hother hbeside
        (hholds.keep ⟨rfl, rfl⟩ (hholds.rows.unlistRange hids))
        (.unlistedRange o r _ fun _ => rfl)⟩
    · obtain ⟨err, hturn⟩ := removeRecord_turn_rejected env o s.file hb hr
      rw [turn_done ht ((congrArg _ hw).trans hturn)]
      exact ⟨_, h.finish_rows o _ hother hb hholds⟩
  | indexBatch items => exact h.batched ht trivial hb hother hw hcur hholds hoff
  | removeBatch ids => exact h.batched ht trivial hb hother hw hcur hholds hoff
  | indexRecord r fields => exact h.batched ht trivial hb hother hw hcur hholds hoff
  | indexRecordsBatch records => exact h.batched ht trivial hb hother hw hcur hholds hoff
  | _ => cases hacc

theorem Inv.rows (h : Inv env base s) (ht : (s.handles i).task = some t) {o : OpenEngine}
    {c : Call} (hjob : t.job = .call o c) {l : List (Int64 × Int64)} (hacc : t.job.access = .rows l)
    (hcur : t.job.Current s.file) (hbeside : t.Beside (s.handles (!i)).task) :
    ∃ base', Inv env base' (s.turn env i) := by
  obtain ⟨rfl, hother, hb, ⟨no, hholds⟩, hoff⟩ := h.beside_rows ht hjob hacc hbeside
  have hbetween : ∀ a : Int64, Sql.between a a a = true := by simp [Sql.between]
  cases ((h.handles i).task t ht).1 with
  | started job w hw =>
    obtain rfl : job = .call o c := hjob
    cases hpo : o.poisoned with
    | true =>
      exact ⟨_, h.poisoned ht (Call.mutating_of_access o.fieldBits fun hn => by
        cases hacc.symm.trans hn) hpo hw⟩
    | false =>
      have hworld : { w with db := s.file } = quiet s.file none o.fieldBits false := by
        rw [hw s.file, Job.world, Host.world, hpo]
        rfl
      have hfresh : ∀ id v, ¬ Task.torn env
          { job := .call o c, prog := (Job.call o c).prog env, world := w } id v := fun id v hv =>
        absurd (Task.covers_of_torn hv).1 (Nat.lt_irrefl 0)
      exact h.begin_rows ht hacc hb hother hbeside hworld hcur (hholds.keep ⟨rfl, rfl⟩
        (hholds.rows.congr fun id v => (or_iff_right (hfresh id v)).symm)) hoff
  | cleared o id text w hw =>
    have hid : ∀ v, ¬ (s.handles (!i)).torn env id v := fun v hv =>
      hoff id v hv ⟨(id, id), List.mem_singleton_self _, hbetween id⟩
    have hnone : s.file.docs[id]? = none := hholds.rows.half id none (.inl ⟨rfl, rfl⟩)
    rw [turn_on ht ((congrArg _ (hw s.file)).trans (listDoc_turn env o _ _ text hnone))
      (by simp [storeEntry])]
    exact ⟨_, h.on_rows ht rfl hother hbeside (hholds.keep ⟨rfl, rfl⟩ (hholds.rows.list hid _))
      (.listed o id text _ fun _ => rfl)⟩
  | listed o id text w hw =>
    obtain ⟨rfl, rfl⟩ : o = _ ∧ Call.index id text = c := by simpa using hjob
    have hid : ∀ v, ¬ (s.handles (!i)).torn env id v := fun v hv =>
      hoff id v hv ⟨(id, id), List.mem_singleton_self _, hbetween id⟩
    obtain rfl := hholds.options_eq hcur
    rw [turn_done ht ((congrArg _ (hw s.file)).trans (storeEntry_turn env o _ _ id text))]
    exact ⟨_, h.finish_rows o _ hother hb (hholds.keep ⟨rfl, rfl⟩ (hholds.rows.store hid))⟩
  | unlisted o id w hw =>
    obtain ⟨rfl, rfl⟩ : o = _ ∧ Call.remove id = c := by simpa using hjob
    have hid : ∀ v, ¬ (s.handles (!i)).torn env id v := fun v hv =>
      hoff id v hv ⟨(id, id), List.mem_singleton_self _, hbetween id⟩
    rw [turn_done ht ((congrArg _ (hw s.file)).trans (dropEntry_turn _ _ id))]
    exact ⟨_, h.finish_rows o _ hother hb (hholds.keep ⟨rfl, rfl⟩ (hholds.rows.unstore hid))⟩
  | unlistedRange o r w hw =>
    obtain ⟨rfl, rfl⟩ : o = _ ∧ Call.removeRecord r = c := by simpa using hjob
    have hids : ∀ id v, (s.handles (!i)).torn env id v →
        ¬ Sql.between (shlOf o.fieldBits r) (hiOf o.fieldBits r) id = true := fun id v hv hin =>
      hoff id v hv ⟨_, List.mem_singleton_self _, hin⟩
    have hwidth : s.file.width = o.fieldBits := width_eq hcur
    rw [turn_done ht ((congrArg _ (hw s.file)).trans (dropEntries_turn _ _ _ _))]
    refine ⟨_, h.finish_rows o _ hother hb (?_ : Holds env no _ _ _)⟩
    rw [Job.kept, Job.keeps, Call.keeps, hwidth]
    exact hholds.keep ⟨rfl, rfl⟩ (hholds.rows.unstoreRange hids)
  | reading _ hnone => cases hacc.symm.trans hnone
  | alone _ hall => cases hacc.symm.trans hall

theorem Inv.turn (h : Inv env base s) (hcareful : Careful s (.turn i)) :
    ∃ base', Inv env base' (s.turn env i) := by
  cases ht : (s.handles i).task with
  | none =>
    have hturn : s.turn env i = s := by simp only [Shared.turn, ht]
    exact ⟨base, hturn.symm ▸ h⟩
  | some t =>
    rw [Careful, ht] at hcareful
    obtain ⟨hcur, hbeside⟩ := hcareful
    cases hacc : t.job.access with
    | none => exact ⟨base, h.reading ht hacc⟩
    | all => exact h.alone ht hacc hcur hbeside
    | rows l =>
      cases hjob : t.job with
      | opening c =>
        rw [hjob] at hacc
        cases hacc
      | call o c => exact h.rows ht hjob hacc hcur hbeside

theorem Inv.step (h : Inv env base s) {ev : Event} (hcareful : Careful s ev) :
    ∃ base', Inv env base' (s.step env ev) := by
  cases ev with
  | start i a =>
    rw [Shared.step]
    split
    · exact ⟨base, h⟩
    · rename_i hidle
      rw [Bool.not_eq_true, Option.isSome_eq_false_iff, Option.isNone_iff_eq_none] at hidle
      exact ⟨base, h.start hidle a⟩
  | turn i => exact h.turn hcareful

theorem Inv.run (h : Inv env base s) {events : List Event} (hcareful : AllCareful env s events) :
    ∃ base', Inv env base' (s.run env events) := by
  induction events generalizing s base with
  | nil => exact ⟨base, h⟩
  | cons ev events ih =>
    obtain ⟨base', h'⟩ := h.step hcareful.1
    exact ih h' hcareful.2

theorem Inv.fresh : Inv env .fresh {} where
  inOrder := .inr ⟨⟨.inr rfl, rfl, rfl, rfl, rfl⟩, rfl, fun _ _ ⟨_, hv⟩ =>
    handle_idle_torn rfl _ _ hv⟩
  handles _ := ⟨by simp, by simp⟩
  apart _ _ _ ht := by cases ht
  file _ := rfl

theorem Inv.idle (h : Inv env base s) (hidle : s.Idle) :
    InOrder env s.kept (fun _ _ => False) s.file := by
  have hnone : ∀ k, (s.handles k).task = none := fun k => Option.isNone_iff_eq_none.mp (hidle k)
  have hfile : s.file = base := by
    refine h.file fun k ⟨t, ht, _⟩ => ?_
    rw [hnone k] at ht
    cases ht
  rw [hfile]
  exact h.inOrder.congr fun id v =>
    ⟨False.elim, fun ⟨k, hv⟩ => handle_idle_torn (hnone k) id v hv⟩

end Inv

/-! ### The file after all calls have finished -/

/-- The two tables agree, every row is normalized as the file says, and no stored text is
missing. -/
structure Intact (env : Env) (s : Shared) : Prop where
  synced : ∀ id : Int64, s.file.docs[id]? = s.file.entries[id]?.map Entry.norm
  normalized : ∀ (id : Int64) (en : Entry), s.file.entries[id]? = some en →
    ∃ o raw, s.file.metaTable.normalizeProfile = some (NormalizeOptions.fingerprint o) ∧
      en.raw = some raw ∧ en.norm = normalize env.unicode o raw
  kept : ∀ (id : Int64) (text : Text), s.kept[id]? = some text →
    ∃ en, s.file.entries[id]? = some en ∧ en.raw = some text

/-- Two handles on one file do not corrupt it in a run of careful steps. -/
theorem handles_intact (env : Env) (events : List Event) (hcareful : AllCareful env {} events)
    (hidle : (Shared.run env {} events).Idle) : Intact env (Shared.run env {} events) := by
  obtain ⟨base, hinv⟩ := Inv.fresh.run hcareful
  rcases hinv.idle hidle with ⟨o, h⟩ | ⟨hblank, hkept, _⟩
  · have hrows := h.rows.renders fun _ _ => id
    refine ⟨fun id => ?_, fun id en hen => ?_, fun id text htext => ?_⟩
    · rw [hrows.docs_lookup, hrows.entries_lookup, Option.map_map]
      rfl
    · rw [hrows.entries_lookup, Option.map_eq_some_iff] at hen
      obtain ⟨text, _, rfl⟩ := hen
      exact ⟨o, text, h.profile, rfl, rfl⟩
    · exact ⟨renderEntry env o text, by rw [hrows.entries_lookup, htext, Option.map_some], rfl⟩
  · refine ⟨fun id => ?_, fun id en hen => ?_, fun id text htext => ?_⟩
    · rw [hblank.docs, hblank.entries, Table.lookup_empty, Table.lookup_empty]
      rfl
    · rw [hblank.entries, Table.lookup_empty] at hen
      cases hen
    · rw [hkept, Table.lookup_empty] at htext
      cases htext

section Decide

instance (o : OpenEngine) (file : Db) (c : Call) : Decidable (c.Current o file) := by
  unfold Call.Current
  split <;> infer_instance

instance (file : Db) : (job : Job) → Decidable (job.Current file)
  | .call o c => inferInstanceAs (Decidable (c.Current o file))
  | .opening _ => isTrue trivial

instance (t : Task) : (other : Option Task) → Decidable (t.Beside other)
  | none => isTrue trivial
  | some t' => inferInstanceAs (Decidable (t'.turns = 0 ∨ t.job.access.Apart t'.job.access))

instance (s : Shared) : (ev : Event) → Decidable (Careful s ev)
  | .start .. => isTrue trivial
  | .turn i =>
    match h : (s.handles i).task with
    | none => isTrue (by simp only [Careful, h])
    | some t =>
      decidable_of_iff (t.job.Current s.file ∧ t.Beside (s.handles (!i)).task)
        (by simp only [Careful, h])

instance decidableAllCareful (env : Env) : (s : Shared) → (events : List Event) →
    Decidable (AllCareful env s events)
  | _, [] => isTrue trivial
  | s, ev :: events =>
    haveI := decidableAllCareful env (s.step env ev) events
    inferInstanceAs (Decidable (Careful s ev ∧ AllCareful env (s.step env ev) events))

instance (s : Shared) : Decidable s.Idle := inferInstanceAs (Decidable (∀ _, _))

end Decide

/-- Handle `i` opens the file, with nobody else at work on it. -/
def opening (i : Bool) : List Event :=
  .start i (.reopen .new) :: List.replicate 14 (.turn i)

/-- Two documents stored at the same time. -/
def sideBySide : List Event :=
  opening false ++ opening true ++
    [.start false (.call (.index 1 ['a'])), .start true (.call (.index 2 ['b'])), .turn false,
      .turn true, .turn false, .turn true, .turn true, .turn false]

theorem handles_intact_side_by_side :
    Intact .ascii (Shared.run .ascii {} sideBySide) ∧
      (Shared.run .ascii {} sideBySide).file.docs[(1 : Int64)]? = some ['a'] ∧
      (Shared.run .ascii {} sideBySide).file.docs[(2 : Int64)]? = some ['b'] :=
  ⟨handles_intact .ascii sideBySide (by decide +kernel) (by decide +kernel), by decide +kernel⟩

/-- Two texts stored under one id at the same time: `docs` has the second, `entries` the
first. -/
def oneOverTheOther : List Event :=
  opening false ++ opening true ++
    [.start false (.call (.index 1 ['a'])), .turn false, .turn false,
      .start true (.call (.index 1 ['b'])), .turn true, .turn true, .turn true, .turn false]

theorem handles_torn :
    ¬ ∀ events, (Shared.run .ascii {} events).Idle →
      Intact .ascii (Shared.run .ascii {} events) := by
  intro h
  have hsynced := (h oneOverTheOther (by decide +kernel)).synced 1
  have htorn : (Shared.run .ascii {} oneOverTheOther).file.docs[(1 : Int64)]? ≠
      (Shared.run .ascii {} oneOverTheOther).file.entries[(1 : Int64)]?.map Entry.norm := by
    decide +kernel
  exact htorn hsynced

end Unfydqry
