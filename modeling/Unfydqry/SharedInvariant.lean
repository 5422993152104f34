import Unfydqry.Lib.Monitor
import Unfydqry.RecordArithmetic
import Unfydqry.SharedEngine

/-! # What holds of a shared engine in every interleaving

A record call may use a width it loaded before another call changed it, so the calls are not
linearizable. Every critical section still leaves the two tables in step, whatever range of
ids it was given: the file renders some catalog whenever the mutex is free. -/

namespace Unfydqry

open LockedStore Prog Host

namespace SearchEngine

variable {env : Env} {e : SearchEngine} {bits : UInt8} {α β : Type}

/-- A part of a transaction: where it succeeds it leaves the tables in step. -/
def Tidy (env : Env) (e : SearchEngine) (bits : UInt8) (p : EngineM α) : Prop :=
  ∀ db saved texts, Renders env e.options texts db →
    (∃ a db' texts', p.eval (quiet db saved bits true) = (.ok a, quiet db' saved bits true) ∧
      Renders env e.options texts' db' ∧ Keeps db db') ∨
    ∃ err db', p.eval (quiet db saved bits true) = (.err err, quiet db' saved bits true)

theorem tidy_pure (a : α) : Tidy env e bits (pure a) := by
  intro db saved texts ht
  exact .inl ⟨a, db, texts, rfl, ht, .refl db⟩

theorem tidy_bind {p : EngineM α} {f : α → EngineM β} (hp : Tidy env e bits p)
    (hf : ∀ a, Tidy env e bits (f a)) : Tidy env e bits (p >>= f) := by
  intro db saved texts ht
  rw [eval_bind]
  obtain ⟨a, db', texts', heval, ht', hk⟩ | ⟨err, db', heval⟩ := hp db saved texts ht
  · rw [heval, andThen_ok]
    obtain ⟨b, db'', texts'', heval', ht'', hk'⟩ | hfail := hf a db' saved texts' ht'
    · have hcols := hk'.columns.trans hk.columns
      have hmeta := hk'.metaTable.trans hk.metaTable
      exact .inl ⟨b, db'', texts'', heval', ht'', ⟨hcols, hmeta⟩⟩
    · exact .inr hfail
  · rw [heval, andThen_err]
    exact .inr ⟨err, db', rfl⟩

theorem tidy_each {f : α → EngineM Unit} (hf : ∀ a, Tidy env e bits (f a)) (as : List α) :
    Tidy env e bits (Prog.each f as) := by
  induction as with
  | nil => exact tidy_pure ()
  | cons a as ih => exact tidy_bind (hf a) fun _ => ih

theorem tidy_clearIdRange (lo hi : Int64) : Tidy env e bits (clearIdRange lo hi) := by
  intro db saved texts ht
  exact .inl ⟨(), _, _, eval_clearIdRange db saved true bits lo hi, ht.clearRange lo hi,
    ⟨rfl, rfl⟩⟩

/-- Whatever `lo` is, a field is stored in both tables or the id is taken. -/
theorem tidy_insertField (lo : Int64) (f : FieldValue) :
    Tidy env e bits (insertField env e lo f) := by
  intro db saved texts ht
  unfold insertField
  dsimp only
  split
  · exact .inl ⟨(), db, texts, rfl, ht, .refl db⟩
  · cases hdoc : db.docs[lo ||| Checked.ofU8 f.slot]? with
    | none =>
      have hput := ht.put (lo ||| Checked.ofU8 f.slot) f.text
      refine .inl ⟨(), db.put env e (lo ||| Checked.ofU8 f.slot) f.text, _, ?_, hput,
        keeps_put db _ _⟩
      rw [eval_bind, Sql.eval_insertDoc _ _ _ _ _ hdoc, andThen_ok, Sql.replaceEntry,
        Sql.eval_effect]
      rfl
    | some norm =>
      have htaken : db.docs.contains (lo ||| Checked.ofU8 f.slot) = true := by
        rw [Std.ExtTreeMap.contains_eq_isSome_getElem?, hdoc]
        rfl
      refine .inr ⟨.db "constraint failed", db, ?_⟩
      rw [eval_bind, eval_stmt_quiet_error db saved bits true
        (e := SearchError.db "constraint failed") (if_pos htaken), andThen_err]

theorem tidy_recordIdRange (hb : ValidBits bits) (r : Int64) :
    Tidy env e bits (recordIdRange r) := by
  intro db saved texts ht
  exact .inl ⟨_, db, texts, eval_recordIdRange_quiet db saved true hb r, ht, .refl db⟩

/-- The rest of a transaction that began on the file `d`. -/
def Closes (env : Env) (e : SearchEngine) (bits : UInt8) (p : EngineM α) : Prop :=
  ∀ d db texts, EngineOk env d e bits → Renders env e.options texts db → Keeps d db →
    (∃ a db', p.eval (quiet db (some d) bits true) = (.ok a, quiet db' none bits true) ∧
      EngineOk env db' e bits) ∨
    ∃ err db', p.eval (quiet db (some d) bits true) = (.err err, quiet db' (some d) bits true)

theorem closes_commit (a : α) : Closes env e bits (Prog.commitTx >>= fun _ => pure a) := by
  intro d db texts hd ht hk
  exact .inl ⟨a, db, rfl, hd.tables ht hk⟩

theorem closes_bind {p : EngineM α} {f : α → EngineM β} (hp : Tidy env e bits p)
    (hf : ∀ a, Closes env e bits (f a)) : Closes env e bits (p >>= f) := by
  intro d db texts hd ht hk
  rw [eval_bind]
  obtain ⟨a, db', texts', heval, ht', hk'⟩ | ⟨err, db', heval⟩ := hp db (some d) texts ht
  · rw [heval, andThen_ok]
    exact hf a d db' texts' hd ht'
      ⟨hk'.columns.trans hk.columns, hk'.metaTable.trans hk.metaTable⟩
  · rw [heval, andThen_err]
    exact .inr ⟨err, db', rfl⟩

/-- A transaction keeps the invariant: it commits tables in step, or rolls back. -/
theorem closes_run {p : EngineM α} (hp : Closes env e bits p) {db : Db}
    (hdb : EngineOk env db e bits) :
    EngineOk env ((lockedConn >>= fun _ => Prog.startTx >>= fun _ => p).run
        (quiet db none bits false)).2.db e
      ((lockedConn >>= fun _ => Prog.startTx >>= fun _ => p).run
        (quiet db none bits false)).2.cell := by
  obtain ⟨texts, ht⟩ := hdb.rendered
  have heval : (lockedConn >>= fun _ => Prog.startTx >>= fun _ => p).eval
      (quiet db none bits false) = p.eval (quiet db (some db) bits true) := rfl
  obtain ⟨a, db', hp', hok⟩ | ⟨err, db', hp'⟩ := hp db db texts hdb ht (.refl db)
  · rw [run_of_eval (heval.trans hp'), leave_ok_quiet]
    exact hok
  · rw [run_of_eval (heval.trans hp'), leave_err_quiet]
    exact hdb

/-! ### The calls -/

/-- The invariant of the file and the width, as the mutex protects it. -/
abbrev Intact (env : Env) (e : SearchEngine) (db : Db) (bits : UInt8) : Prop :=
  EngineOk env db e bits

theorem guards_indexRecord (r : Int64) (fields : List FieldValue) :
    (indexRecord env e r fields).Guards ValidBits (Intact env e) := by
  have hV : ∀ b, ValidBits b → b.toNat ≤ 62 := fun _ hb => hb.2
  apply guards_bind (uses_checkRecordId trivial r) (returns_checkRecordId hV r)
  intro bits hb
  apply guards_bind (uses_trap _ _) (noTrap_shl hV hb 1)
  intro slotCap _
  apply guards_bind (uses_orThrow _) (returns_orThrow _)
  intro _ _
  apply guards_bind (uses_recordIdRange trivial r) (noTrap_recordIdRange hV r)
  intro range _
  apply guards_acquire
  intro db now hdb
  have hbody : Closes env e now (clearIdRange range.1 range.2 >>= fun _ =>
      Prog.each (insertField env e range.1) fields >>= fun _ => Prog.commitTx) := by
    apply closes_bind (tidy_clearIdRange _ _)
    intro _
    apply closes_bind (tidy_each (tidy_insertField _) fields)
    intro _
    exact closes_commit ()
  exact closes_run hbody hdb

theorem guards_indexRecordsBatch (records : List RecordIndexItem) :
    (indexRecordsBatch env e records).Guards ValidBits (Intact env e) := by
  have hV : ∀ b, ValidBits b → b.toNat ≤ 62 := fun _ hb => hb.2
  unfold indexRecordsBatch
  split
  · trivial
  · apply guards_bind (uses_read trivial) returns_read
    intro bits hb
    apply guards_bind (uses_bind (uses_read trivial) fun _ => uses_trap _ _) (noTrap_maxRecordId hV)
    intro max _
    apply guards_bind (uses_trap _ _) (noTrap_shl hV hb 1)
    intro slotCap _
    apply guards_bind (uses_orThrow _) (returns_orThrow _)
    intro _ _
    apply guards_acquire
    intro db now hdb
    refine closes_run (closes_bind (tidy_each (fun r => ?_) records) fun _ => ?_) hdb
    · -- the width is loaded again, under the mutex
      exact tidy_bind (tidy_recordIdRange hdb.valid r.recordId) fun range =>
        tidy_bind (tidy_clearIdRange _ _) fun _ => tidy_each (tidy_insertField _) r.fields
    · exact closes_commit _

theorem guards_removeRecord (r : Int64) :
    (removeRecord r).Guards ValidBits (Intact env e) := by
  have hV : ∀ b, ValidBits b → b.toNat ≤ 62 := fun _ hb => hb.2
  apply guards_bind (uses_checkRecordId trivial r) (returns_checkRecordId hV r)
  intro bits hb
  apply guards_bind (uses_recordIdRange trivial r) (noTrap_recordIdRange hV r)
  intro range _
  apply guards_acquire
  intro db now hdb
  obtain ⟨texts, ht⟩ := hdb.rendered
  have heval : (lockedConn >>= fun _ => clearIdRange range.1 range.2 >>= fun _ =>
      Prog.release).eval (quiet db none now false) =
        (.ok (), quiet (db.clearRange range.1 range.2) none now false) := by
    simp only [lockedConn, eval_bind, eval_acquire_quiet, andThen_ok, eval_clearIdRange,
      eval_release_quiet, Option.getD_none]
  exact EngineOk.of_run (run_of_eval heval) (hdb.tables (ht.clearRange _ _) ⟨rfl, rfl⟩)

/-- A call that takes the mutex first runs as it does alone. -/
theorem guards_locked {p : EngineM α} {err : SearchError} {k : EngineM α}
    (hp : p = .lock err k)
    (hrun : ∀ db bits, EngineOk env db e bits → EngineOk env
      (p.run (quiet db none bits false)).2.db e (p.run (quiet db none bits false)).2.cell) :
    p.Guards ValidBits (Intact env e) := by
  rw [hp] at hrun ⊢
  exact hrun

theorem guards_alone (c : Call) {err : SearchError} {k : EngineM Reply}
    (hc : c.prog env e = .lock err k) : (c.prog env e).Guards ValidBits (Intact env e) :=
  guards_locked hc fun _ _ hdb => hdb.call c

theorem guards_changeFieldBits (new : UInt8) :
    (changeFieldBits env new).Guards ValidBits (Intact env e) := by
  cases hcheck : checkFieldBits new with
  | error err =>
    have hprog : changeFieldBits env new = .done (.err err) := by
      rw [changeFieldBits, hcheck]
      rfl
    rw [hprog]
    trivial
  | ok _ =>
    apply guards_locked
    · rw [changeFieldBits, hcheck]
      rfl
    · exact fun db bits hdb => hdb.changeFieldBits new

theorem guards_call (c : Call) : (c.prog env e).Guards ValidBits (Intact env e) := by
  by_cases hc : c.Mutating
  · cases c with
    | index id text => exact guards_alone _ rfl
    | remove id => exact guards_alone _ rfl
    | removeAll => exact guards_alone _ rfl
    | reindex => exact guards_alone _ rfl
    | indexRecord r fields => exact guards_bind_pure (guards_indexRecord r fields) _
    | indexRecordsBatch records => exact guards_bind_pure (guards_indexRecordsBatch records) _
    | removeRecord r => exact guards_bind_pure (guards_removeRecord r) _
    | indexBatch items =>
      cases items with
      | nil => trivial
      | cons item items => exact guards_alone _ rfl
    | removeBatch ids =>
      cases ids with
      | nil => trivial
      | cons id ids => exact guards_alone _ rfl
    | changeFieldBits new => exact guards_bind_pure (guards_changeFieldBits new) _
    | _ => exact hc.elim
  · exact guards_reads (reads_call env e hc)

/-! ### No constructor traps -/

theorem noTrap_openSchema : NoTrap (fun _ => True) (openSchema env) := by
  have hraw : NoTrap (fun _ => True) migrateRaw := by
    apply returns_bind (returns_stmt _)
    intro info _
    split
    · exact returns_pure trivial
    · exact returns_stmt _
  have hfill : NoTrap (fun _ => True) (backfillNormRev env) :=
    returns_bind returns_startTx fun _ _ => returns_bind (returns_stmt _) fun rows _ =>
      returns_bind (returns_each (fun _ => returns_stmt _) rows) fun _ _ => returns_commitTx
  have hrev : NoTrap (fun _ => True) (migrateNormRev env) := by
    apply returns_bind (returns_stmt _)
    intro info _
    split
    · exact returns_pure trivial
    · exact returns_bind (returns_stmt _) fun _ _ => hfill
  exact returns_bind (returns_stmt _) fun _ _ => returns_bind (returns_stmt _) fun _ _ =>
    returns_bind (returns_stmt _) fun _ _ => returns_bind (returns_stmt _) fun _ _ =>
    returns_bind (returns_stmt _) fun _ _ => returns_bind (returns_stmt _) fun _ _ =>
    returns_bind (returns_stmt _) fun _ _ => returns_bind hraw fun _ _ =>
    returns_bind hrev fun _ _ => returns_stmt _

theorem noTrap_stored : NoTrap (fun _ => True) storedFieldBits ∧
    NoTrap (fun _ => True) storedProfile := by
  have hbits : NoTrap (fun _ => True) storedFieldBits := by
    apply returns_bind (returns_stmt _)
    intro indexed _
    split
    · exact returns_pure trivial
    · exact returns_bind (returns_stmt _) fun _ _ => returns_pure trivial
  have hprofile : NoTrap (fun _ => True) storedProfile := by
    apply returns_bind (returns_stmt _)
    intro indexed _
    split
    · exact returns_pure trivial
    · exact returns_bind (returns_stmt _) fun _ _ => returns_pure trivial
  exact ⟨hbits, hprofile⟩

theorem noTrap_openEngine (options : NormalizeOptions) (strategy : SearchStrategy)
    (fieldBits : Option UInt8) (rebuild : Bool) :
    NoTrap (fun _ => True) (openEngine env options strategy fieldBits rebuild) := by
  have hstamp : ∀ n, NoTrap (fun _ => True) (stampFieldBits n) := fun _ => returns_stmt _
  have hprofile : ∀ key, NoTrap (fun _ => True) (stampProfile key) := fun _ => returns_stmt _
  apply returns_bind noTrap_openSchema
  intro _ _
  apply returns_bind noTrap_stored.1
  intro storedBits _
  apply returns_bind (returns_orThrow _)
  intro bits _
  apply returns_bind noTrap_stored.2
  intro stored _
  dsimp only
  split
  · split
    · exact returns_throw _
    · exact returns_throw _
  · apply returns_bind (Q := fun _ => True)
    · exact returns_bind (returns_write trivial) fun _ _ => returns_pure trivial
    · intro engine _
      apply returns_bind noTrap_lockedConn
      intro _ _
      apply returns_bind (hstamp bits)
      intro _ _
      apply returns_bind returns_release
      intro _ _
      split
      · exact returns_bind (noTrap_reindex env engine) fun _ _ =>
          returns_bind returns_release fun _ _ => returns_pure trivial
      · exact returns_bind noTrap_lockedConn fun _ _ => returns_bind (hprofile _) fun _ _ =>
          returns_bind returns_release fun _ _ => returns_pure trivial

end SearchEngine

/-! ### One phase of concurrent calls -/

variable {ι : Type} [DecidableEq ι]

/-- What holds in every interleaving of any calls on one engine, at every moment. -/
structure SharedInvariant (env : Env) (e : SearchEngine) (s : EnginePool ι) : Prop where
  /-- No call panics, so the mutex is never poisoned. -/
  answered : ∀ i, (s.threads i).result ≠ some .panic
  width : ValidBits s.world.cell
  /-- With the mutex free the file is whole, and the atomic agrees with its stamp. -/
  intact : s.owner = none → ∃ db bits, s.world = quiet db none bits false ∧ EngineOk env db e bits

theorem shared_invariant (env : Env) (e : SearchEngine) (calls : ι → Call) {db : Db}
    {bits : UInt8} (hdb : EngineOk env db e bits) {s : EnginePool ι}
    (hrun : Pool.Run (startCalls env e calls (quiet db none bits false)) s) :
    SharedInvariant env e s := by
  have hstart : Pool.Monitored ValidBits (SearchEngine.Intact env e)
      (startCalls env e calls (quiet db none bits false)) :=
    Pool.start_monitored hdb.valid hdb (fun i => SearchEngine.call_pre env e (calls i))
      (fun i => SearchEngine.guards_call (calls i))
      fun i => SearchEngine.noTrap_call env e (fun _ hb => hb.2) (fun _ hb => hb) (calls i)
  have hs := Pool.run_monitored hstart hrun
  exact ⟨hs.answered, hs.cell, hs.free⟩

/-- Once all calls have returned, the mutex is free. -/
theorem finished_intact (env : Env) (e : SearchEngine) (calls : ι → Call) {db : Db}
    {bits : UInt8} (hdb : EngineOk env db e bits) {s : EnginePool ι}
    (hrun : Pool.Run (startCalls env e calls (quiet db none bits false)) s)
    (hdone : Finished s) :
    ∃ db' bits', s.world = quiet db' none bits' false ∧ EngineOk env db' e bits' := by
  apply (shared_invariant env e calls hdb hrun).intact
  have hphased := Pool.run_phased
    (Pool.start_phased _ fun i => SearchEngine.call_pre env e (calls i)) hrun
  cases howner : s.owner with
  | none => rfl
  | some i =>
    have hd := hdone i
    rw [(hphased.held i howner).1] at hd
    cases hd

/-! ### Whole runs with concurrent phases -/

namespace Host

/-- The file and an engine that is not poisoned. -/
structure Sound (env : Env) (h : Host) : Prop where
  ok : h.Ok env
  poisoned : ∀ o, h.opened = some o → o.poisoned = false

variable {env : Env} {h : Host}

theorem Sound.engineOk (hs : h.Sound env) {o : OpenEngine} (ho : h.opened = some o) :
    EngineOk env h.file o.engine o.fieldBits := by
  have hok := hs.ok
  unfold Ok at hok
  rwa [ho] at hok

theorem Sound.step (hs : h.Sound env) (a : Action) : (h.step env a).Sound env := by
  refine ⟨hs.ok.step a, ?_⟩
  intro o' ho'
  cases a with
  | close => cases ho'
  | reopen c =>
    obtain ⟨options, strategy, fieldBits, rebuild, hprog⟩ := constructor_eq env c
    obtain ⟨hpanic, _⟩ := returns_run
      (SearchEngine.noTrap_openEngine options strategy fieldBits rebuild)
      (openWorld h.file) trivial
    rw [← hprog] at hpanic
    obtain ⟨db', bits', hrun⟩ : ∃ db' bits', ((c.prog env).run (Host.openWorld h.file)).2 =
        quiet db' none bits' false := run_quiet hpanic
    simp only [Host.step] at ho'
    split at ho'
    · rename_i engine w hres
      have hw : w = quiet db' none bits' false := by
        rw [← hrun]
        exact (congrArg Prod.snd hres).symm
      obtain rfl := Option.some_inj.mp ho'
      rw [hw]
      rfl
    · cases ho'
  | call c =>
    cases ho : h.opened with
    | none =>
      rw [Host.step] at ho'
      simp only [ho] at ho'
      cases ho'
    | some o =>
      obtain ⟨hpanic, _⟩ := returns_run
        (SearchEngine.noTrap_call env o.engine (V := ValidBits) (fun _ hb => hb.2)
          (fun _ hb => hb) c)
        (quiet h.file none o.fieldBits false) (hs.engineOk ho).valid
      obtain ⟨db', bits', hrun⟩ := run_quiet hpanic
      simp only [Host.step, ho, world_quiet (hs.poisoned o ho), hrun] at ho'
      obtain rfl := Option.some_inj.mp ho'
      rfl

theorem fresh_sound : Sound env {} := ⟨fresh_ok, fun _ ho => by cases ho⟩

/-- The host after threads have made their calls on the open engine. -/
def afterCalls (o : OpenEngine) (s : EnginePool ι) : Host where
  file := s.world.db
  opened := some { o with fieldBits := s.world.cell, poisoned := s.world.poisoned }

/-- The hosts of a program whose threads share the engine: single steps, and phases in which
any number of threads make one call each, in any interleaving, until all have returned. -/
inductive Reached (env : Env) : Host → Prop where
  | fresh : Reached env {}
  | step {h : Host} (a : Action) : Reached env h → Reached env (h.step env a)
  | phase {h : Host} {o : OpenEngine} {ι : Type} [DecidableEq ι] (calls : ι → Call)
      {s : EnginePool ι} : Reached env h → h.opened = some o →
      Pool.Run (startCalls env o.engine calls (Host.world h.file o)) s → Finished s →
      Reached env (afterCalls o s)

theorem Reached.sound (hr : Reached env h) : h.Sound env := by
  induction hr with
  | fresh => exact fresh_sound
  | step a _ ih => exact ih.step a
  | phase calls _ ho hrun hdone ih =>
    rw [world_quiet (ih.poisoned _ ho)] at hrun
    obtain ⟨db', bits', hw, hok⟩ := finished_intact env _ calls (ih.engineOk ho) hrun hdone
    refine ⟨?_, ?_⟩
    · simp only [Ok, afterCalls, hw]
      exact hok
    · intro o' ho'
      rw [afterCalls, hw] at ho'
      obtain rfl := Option.some_inj.mp ho'
      rfl

end Host

/-- Concurrent calls may interleave in any way, a width changed between two loads of one
record call included: the tables stay in step under the stamped options, the engine runs
under the stamped width, and its mutex is not poisoned. -/
theorem concurrent_index_invariant (env : Env) {h : Host} (hr : Host.Reached env h) :
    IndexInvariant env h ∧ ∀ o, h.opened = some o → o.poisoned = false :=
  ⟨hr.sound.ok.invariant, hr.sound.poisoned⟩

/-- The constructor call of `openedWorld`. -/
def plainOptions : Constructor :=
  .withOptions { normalize := {}, strategy := .substring, fieldBits := none }

theorem plainOptions_opens :
    ∃ db bits, openedWorld = quiet db none bits false ∧
      (plainOptions.prog .ascii).run (Host.openWorld .fresh) =
        (.ok plainEngine, quiet db none bits false) := by
  have hok : ((plainOptions.prog .ascii).run (Host.openWorld .fresh)).1 = .ok plainEngine := by
    decide +kernel
  have hpanic : ((plainOptions.prog .ascii).run (Host.openWorld .fresh)).1 ≠ .panic := by
    rw [hok]
    exact ok_ne_panic _
  obtain ⟨db, bits, hw⟩ : ∃ db bits, ((plainOptions.prog .ascii).run (Host.openWorld .fresh)).2 =
      quiet db none bits false := run_quiet hpanic
  exact ⟨db, bits, hw, Prod.ext hok hw⟩

/-- A width changed inside a record call: the file that no serial order leaves is whole. -/
theorem concurrent_index_invariant_width :
    ∃ h, Host.Reached .ascii h ∧ h.file.entries.toList.map Prod.fst = [256] ∧
      IndexInvariant .ascii h ∧ ∀ o, h.opened = some o → o.poisoned = false := by
  obtain ⟨s, hs, hids⟩ := Option.map_eq_some_iff.mp width_schedule_ids.1
  rw [Prod.mk.injEq, Bool.and_eq_true] at hids
  obtain ⟨hids, hfalse, htrue⟩ := hids
  obtain ⟨db, bits, hworld, hrun⟩ := plainOptions_opens
  have hopen : Host.step .ascii {} (.reopen plainOptions) =
      { file := db, opened := some { engine := plainEngine, fieldBits := bits } } := by
    have hrun' : (plainOptions.prog .ascii).run (Host.openWorld ({} : Host).file) = _ := hrun
    simp only [Host.step, hrun']
    rfl
  have hreached : Host.Reached .ascii (Host.step .ascii {} (.reopen plainOptions)) :=
    .step _ .fresh
  have hsteps : Pool.Run (startCalls .ascii plainEngine widthCalls openedWorld) s :=
    Pool.run_schedule _ (.refl _) hs
  have hdone : Finished s := by
    intro i
    cases i with
    | false => exact hfalse
    | true => exact htrue
  rw [hopen] at hreached
  rw [hworld] at hsteps
  have hphase := Host.Reached.phase widthCalls hreached rfl hsteps hdone
  exact ⟨_, hphase, hids, concurrent_index_invariant .ascii hphase⟩

/-! ### No call waits for ever -/

/-- From every moment of every interleaving, statements that fail and a poisoned mutex
included: only the holder of the mutex runs a statement, some call can go on until all have
returned, and no run goes on for ever. -/
theorem shared_calls_complete [Finite ι] (env : Env) (e : SearchEngine) (calls : ι → Call)
    (w : EngineWorld) {s : EnginePool ι} (hrun : Pool.Run (startCalls env e calls w) s) :
    (∀ i, (s.threads i).result = none → Pool.Touches (s.threads i).prog → s.owner = some i) ∧
      (¬ Finished s → ∃ i t, s.step i = some t) ∧
      (∃ t, Pool.Run s t ∧ Finished t) ∧
      ∀ run : ℕ → EnginePool ι, run 0 = s → ¬ ∀ n, ∃ i, (run n).step i = some (run (n + 1)) := by
  have hphased := Pool.run_phased
    (Pool.start_phased w fun i => SearchEngine.call_pre env e (calls i)) hrun
  exact ⟨fun i hr ht => hphased.holds hr ht, hphased.progress, hphased.completes,
    fun run _ => Pool.not_endless run⟩

/-- `index_record` has taken the mutex, and the change of width waits for it. -/
theorem shared_calls_complete_width :
    ∃ s, Pool.Run (startCalls .ascii plainEngine widthCalls openedWorld) s ∧
      s.owner = some false ∧ s.step true = none ∧ ∃ t, Pool.Run s t ∧ Finished t := by
  have hlocked : ((startCalls .ascii plainEngine widthCalls openedWorld).schedule
      (fun _ _ => true) (List.replicate 5 false)).map
        (fun s => (s.owner, (s.step true).isSome)) = some (some false, false) := by
    decide +kernel
  obtain ⟨s, hs, hshape⟩ := Option.map_eq_some_iff.mp hlocked
  rw [Prod.mk.injEq] at hshape
  have hrun : Pool.Run (startCalls .ascii plainEngine widthCalls openedWorld) s :=
    Pool.run_schedule _ (.refl _) hs
  have hwaits : s.step true = none := by
    apply Option.not_isSome_iff_eq_none.mp
    rw [hshape.2]
    exact Bool.false_ne_true
  exact ⟨s, hrun, hshape.1, hwaits,
    (shared_calls_complete .ascii plainEngine widthCalls openedWorld hrun).2.2.1⟩

end Unfydqry
