import Unfydqry.FailedMutation
import Unfydqry.LastWrite
import Unfydqry.Lib.Interruption
import Unfydqry.Migration

/-! # Steps that fail and are made again

A statement of a call or of an open fails; the host may drop its engine and open the file
again before it repeats the step. `index`, `remove` and `remove_record` leave a row half
written then, an open leaves the file partly adopted. The step that at last goes through
leaves what it would have left at the first attempt. -/

namespace Unfydqry

open LockedStore Prog SearchEngine

/-- A failure during a step: the statement, its error, and whether the host then drops its
engine and opens the file again. -/
structure Cut where
  statement : ℕ
  error : SearchError
  reopens : Bool

namespace Host

/-- A step whose statement fails. Past the last statement nothing fails. -/
def cutStep (env : Env) (cut : Cut) (h : Host) : Action → Host
  | .close => { h with opened := none }
  | .call c =>
    match h.opened with
    | none => h
    | some o =>
      let w := ((c.prog env o.engine).run
        { world h.file o with fault := some (cut.statement, cut.error) }).2
      { file := w.db
        opened := some { o with fieldBits := w.cell, poisoned := w.poisoned } }
  | .reopen c =>
    match (c.prog env).run
        { openWorld h.file with fault := some (cut.statement, cut.error) } with
    | (.ok engine, w) =>
      { file := w.db
        opened := some { engine := engine, fieldBits := w.cell, poisoned := w.poisoned } }
    | (_, w) => { file := w.db, opened := none }

/-- The constructor that opens the file as an engine has it. -/
def again (o : OpenEngine) : Constructor :=
  .withOptions
    { normalize := o.engine.options
      strategy := o.engine.strategy
      fieldBits := some o.fieldBits }

def recover (env : Env) (h : Host) : Host :=
  match h.opened with
  | none => h
  | some o => h.step env (.reopen (again o))

def attempt (env : Env) (a : Action) (h : Host) (cut : Cut) : Host :=
  if cut.reopens then (h.cutStep env cut a).recover env else h.cutStep env cut a

/-- Attempts that meet a failure, and one that does not. -/
def insist (env : Env) (h : Host) (work : Action × List Cut) : Host :=
  (work.2.foldl (attempt env work.1) h).step env work.1

end Host

/-! ### A step made twice -/

namespace Stamp

variable {s s' : Stamp} {texts : Catalog} {r : OpenRequest}

theorem grant_empty (h : initial r = some s') : s'.grant ∅ r = some s' := by
  have hsize : (∅ : Catalog).size = 0 := Std.ExtTreeMap.size_empty
  rw [grant, if_pos hsize, h]

theorem grant_again (h : s.grant texts r = some s') : s'.grant texts r = some s' := by
  unfold grant at h ⊢
  split at h
  · rename_i hsize
    rw [if_pos hsize, h]
  · rename_i hsize
    split at h
    · rename_i hcond
      obtain rfl := Option.some_inj.mp h
      rw [if_neg hsize, if_pos ⟨hcond.1, .inr rfl⟩]
    · cases h

end Stamp

namespace Index

variable {env : Env}

theorem call_call (i : Index) (c : Call) : (i.call env c).call env c = i.call env c := by
  cases i with
  | opened s strategy texts =>
    by_cases hc : c.KeepsWidth
    · rw [call_keepsWidth s strategy texts hc, call_keepsWidth s strategy _ hc]
      by_cases hadm : c.Admitted s.width
      · have hidem := (writes_keeps env (s.engine strategy) s.width hc).idem texts
        rw [if_pos hadm, if_pos hadm, hidem]
      · rw [if_neg hadm, if_neg hadm]
    · cases c with
      | changeFieldBits new =>
        by_cases hacc : s.Accepts texts (.changeFieldBits new)
        · have hnext : s.next (.changeFieldBits new) =
              { s with width := new, valid := hacc.1 } := dif_pos hacc.1
          have hagain : ∀ texts', Stamp.Accepts { s with width := new, valid := hacc.1 } texts'
              (.changeFieldBits new) := fun _ => ⟨hacc.1, .inl rfl⟩
          rw [call, if_pos hacc, hnext, call, if_pos (hagain _), Stamp.next, dif_pos hacc.1]
          simp only [Call.keeps, if_true]
        · rw [call, if_neg hacc, call, if_neg hacc]
      | _ => exact absurd trivial hc
  | _ => rfl

theorem reopen_reopen_kept (s : Stamp) (texts : Catalog) (r : OpenRequest) :
    ((closed s texts).reopen r).reopen r = (closed s texts).reopen r := by
  cases hg : s.grant texts r with
  | none =>
    have hclosed : (closed s texts).reopen r = closed s texts := by rw [reopen, hg]
    rw [hclosed, hclosed]
  | some s' =>
    have hopened : (closed s texts).reopen r = opened s' r.strategy texts := by rw [reopen, hg]
    rw [hopened, reopen, Stamp.grant_again hg]

theorem reopen_reopen_fresh (r : OpenRequest) :
    (fresh.reopen r).reopen r = fresh.reopen r := by
  cases hg : Stamp.initial r with
  | none =>
    have hrejected : fresh.reopen r = rejected := by rw [reopen, hg]
    rw [hrejected, reopen, hg]
  | some s' =>
    have hopened : fresh.reopen r = opened s' r.strategy ∅ := by rw [reopen, hg]
    rw [hopened, reopen, Stamp.grant_empty hg]

theorem reopen_reopen (i : Index) (r : OpenRequest) : (i.reopen r).reopen r = i.reopen r := by
  cases i with
  | fresh => exact reopen_reopen_fresh r
  | rejected => exact reopen_reopen_fresh r
  | closed s texts => exact reopen_reopen_kept s texts r
  | opened s strategy texts => exact reopen_reopen_kept s texts r

end Index

/-! ### A call that fails -/

/-- The rows of `docs` that a call can leave half written. -/
def Call.Halves (bits : UInt8) : Call → Int64 → Prop
  | .index id _, a => a = id
  | .remove id, a => a = id
  | .removeRecord r, a => RecordOk bits r ∧ Sql.between (shlOf bits r) (hiOf bits r) a = true
  | _, _ => False

namespace Stamp

/-- The file of an index, but for the rows of `docs` that the call can leave half written. -/
structure Half (env : Env) (s : Stamp) (texts : Catalog) (c : Call) (db : Db) : Prop where
  columns : db.columns = some { normRev := true, raw := true }
  entries : db.entries = (s.file env texts).entries
  metaTable : db.metaTable = (s.file env texts).metaTable
  docs : ∀ a : Int64, ¬ c.Halves s.width a → db.docs[a]? = (s.file env texts).docs[a]?

variable {env : Env} {s : Stamp} {texts : Catalog} {strategy : SearchStrategy} {c : Call} {db : Db}

theorem half_file : Half env s texts c (s.file env texts) := ⟨rfl, rfl, rfl, fun _ _ => rfl⟩

theorem Half.eq (h : Half env s texts c db)
    (hd : ∀ a : Int64, c.Halves s.width a → db.docs[a]? = (s.file env texts).docs[a]?) :
    db = s.file env texts := by
  have hdocs : db.docs = (s.file env texts).docs := by
    apply Table.ext_lookup
    intro a
    by_cases ha : c.Halves s.width a
    · exact hd a ha
    · exact h.docs a ha
  obtain ⟨columns, docs, entries, metaTable⟩ := db
  obtain ⟨hc, he, hm, _⟩ := h
  simp only at hc he hm hdocs
  subst hc he hm hdocs
  rfl

theorem Half.setDocs {docs : Docs} (h : Half env s texts c db)
    (hd : ∀ a : Int64, ¬ c.Halves s.width a → docs[a]? = db.docs[a]?) :
    Half env s texts c { db with docs := docs } :=
  ⟨h.columns, h.entries, h.metaTable, fun a ha => (hd a ha).trans (h.docs a ha)⟩

/-- Equal tables after a step, when the step replaces the halved rows. -/
theorem Half.tables {docs docs' : Docs} {entries entries' : Entries} (h : Half env s texts c db)
    (hd : ∀ a : Int64, docs[a]? = docs'[a]?) (he : entries = entries') :
    ({ db with docs := docs, entries := entries } : Db) =
      { s.file env texts with docs := docs', entries := entries' } := by
  have hdocs : docs = docs' := Table.ext_lookup hd
  rw [hdocs, he, h.columns, h.metaTable]
  rfl

/-- Where nothing fails, the call makes up for the half written rows. -/
theorem Half.run (h : Half env s texts c db) :
    (c.prog env (s.engine strategy)).run (quiet db none s.width false) =
      (c.prog env (s.engine strategy)).run (quiet (s.file env texts) none s.width false) := by
  cases c with
  | index id text =>
    have hput : db.put env (s.engine strategy) id text =
        (s.file env texts).put env (s.engine strategy) id text := by
      apply h.tables
      · intro a
        rw [Table.lookup_insert, Table.lookup_insert]
        by_cases ha : a = id
        · rw [if_pos ha, if_pos ha]
        · rw [if_neg ha, if_neg ha]
          exact h.docs a ha
      · rw [h.entries]
    have hrun := run_bind_pure_ok (fun _ => Reply.unit)
      (index_run env (s.engine strategy) db s.width id text)
    have hfile := run_bind_pure_ok (fun _ => Reply.unit)
      (index_run env (s.engine strategy) (s.file env texts) s.width id text)
    rw [hput] at hrun
    exact hrun.trans hfile.symm
  | remove id =>
    have hdrop : db.drop id = (s.file env texts).drop id := by
      apply h.tables
      · intro a
        rw [Table.lookup_erase, Table.lookup_erase]
        by_cases ha : a = id
        · rw [if_pos ha, if_pos ha]
        · rw [if_neg ha, if_neg ha]
          exact h.docs a ha
      · rw [h.entries]
    have hrun := run_bind_pure_ok (fun _ => Reply.unit) (remove_run db s.width id)
    have hfile := run_bind_pure_ok (fun _ => Reply.unit)
      (remove_run (s.file env texts) s.width id)
    rw [hdrop] at hrun
    exact hrun.trans hfile.symm
  | removeRecord r =>
    by_cases hr : RecordOk s.width r
    · have hclear : db.clearRange (shlOf s.width r) (hiOf s.width r) =
          (s.file env texts).clearRange (shlOf s.width r) (hiOf s.width r) := by
        apply h.tables
        · intro a
          rw [Table.lookup_eraseWhere, Table.lookup_eraseWhere]
          by_cases ha : Sql.between (shlOf s.width r) (hiOf s.width r) a = true
          · rw [if_pos ha, if_pos ha]
          · rw [if_neg ha, if_neg ha]
            exact h.docs a fun hh => ha hh.2
        · rw [h.entries]
      have hrun := run_bind_pure_ok (fun _ => Reply.unit) (removeRecord_run db s.valid hr)
      have hfile := run_bind_pure_ok (fun _ => Reply.unit)
        (removeRecord_run (s.file env texts) s.valid hr)
      rw [hclear] at hrun
      exact hrun.trans hfile.symm
    · rw [h.eq fun a ha => absurd ha.1 hr]
  | _ => rw [h.eq fun a ha => ha.elim]

/-- What a call leaves when it fails. -/
def Failed (env : Env) (s : Stamp) (texts : Catalog) (c : Call) (db : Db) (cell : UInt8) : Prop :=
  Half env s texts c db ∧ cell = s.width

theorem stops_index {id : Int64} {text : Text} (h : Half env s texts (.index id text) db) :
    (index env (s.engine strategy) id text).Stops (Failed env s texts (.index id text)) db none
      s.width false := by
  intro k e err herr
  rw [index_failing] at herr ⊢
  rcases k with _ | _ | _ | k
  · exact ⟨h, rfl⟩
  · refine ⟨h.setDocs fun a (ha : ¬ a = id) => ?_, rfl⟩
    rw [Table.lookup_erase, if_neg ha]
  · refine ⟨h.setDocs fun a (ha : ¬ a = id) => ?_, rfl⟩
    rw [Table.lookup_insert, if_neg ha]
  · cases herr

theorem stops_remove {id : Int64} (h : Half env s texts (.remove id) db) :
    (remove id).Stops (Failed env s texts (.remove id)) db none s.width false := by
  intro k e err herr
  rw [remove_failing] at herr ⊢
  rcases k with _ | _ | k
  · exact ⟨h, rfl⟩
  · refine ⟨h.setDocs fun a (ha : ¬ a = id) => ?_, rfl⟩
    rw [Table.lookup_erase, if_neg ha]
  · cases herr

theorem stops_removeRecord {r : Int64} (h : Half env s texts (.removeRecord r) db) :
    (removeRecord r).Stops (Failed env s texts (.removeRecord r)) db none s.width false := by
  intro k e err herr
  by_cases hr : RecordOk s.width r
  · rw [removeRecord_failing db e s.valid hr] at herr ⊢
    rcases k with _ | _ | k
    · exact ⟨h, rfl⟩
    · refine ⟨h.setDocs fun a ha => ?_, rfl⟩
      rw [Table.lookup_eraseWhere, if_neg fun hb => ha ⟨hr, hb⟩]
    · cases herr
  · rw [removeRecord_rejects (failing db none s.width false k e) s.valid hr]
    exact ⟨h, rfl⟩

theorem stops_reply {α : Type} {p : EngineM α} {P : Db → UInt8 → Prop} {cell : UInt8}
    (hp : p.Stops P db none cell false) (g : α → Reply) :
    (p >>= fun a => pure (g a)).Stops P db none cell false :=
  stops_bind hp fun a _ _ _ _ _ => stops_pure (g a)

/-- Wherever the call fails, nothing but its halved rows has changed. -/
theorem Half.stops (h : Half env s texts c db) :
    (c.prog env (s.engine strategy)).Stops (Failed env s texts c) db none s.width false := by
  have hkept : Failed env s texts c db s.width := ⟨h, rfl⟩
  by_cases hc : c.Mutating
  · cases c with
    | index id text => exact stops_reply (stops_index h) _
    | remove id => exact stops_reply (stops_remove h) _
    | removeRecord r => exact stops_reply (stops_removeRecord h) _
    | indexBatch items =>
      exact stops_reply (stops_allOrNothing (indexBatch_allOrNothing env _ items) hkept) _
    | removeBatch ids =>
      exact stops_reply (stops_allOrNothing (removeBatch_allOrNothing ids) hkept) _
    | removeAll => exact stops_reply (stops_allOrNothing removeAll_allOrNothing hkept) _
    | indexRecord r fields =>
      exact stops_reply (stops_allOrNothing (indexRecord_allOrNothing env _ r fields) hkept) _
    | indexRecordsBatch records =>
      exact stops_reply (stops_allOrNothing (indexRecordsBatch_allOrNothing env _ records) hkept) _
    | reindex => exact stops_reply (stops_allOrNothing (reindex_allOrNothing env _) hkept) _
    | changeFieldBits new =>
      exact stops_reply (stops_allOrNothing (changeFieldBits_allOrNothing env new) hkept) _
    | _ => exact hc.elim
  · exact stops_reads (reads_call env (s.engine strategy) hc) hkept

end Stamp

/-! ### An engine on a half written file -/

/-- The engine open on an index. -/
abbrev Stamp.handle (s : Stamp) (strategy : SearchStrategy) : OpenEngine :=
  { engine := s.engine strategy, fieldBits := s.width }

/-- The host of an index, but for the rows a failed call has left half written. -/
def Index.Halved (env : Env) (c : Call) : Index → Host → Prop
  | .opened s strategy texts, h =>
    Stamp.Half env s texts c h.file ∧
      h.opened = some (s.handle strategy)
  | i, h => h = i.host env

namespace Index

variable {env : Env} {c : Call} {i : Index} {h : Host}

theorem halved_host (i : Index) (c : Call) : i.Halved env c (i.host env) := by
  cases i with
  | opened s strategy texts => exact ⟨Stamp.half_file, rfl⟩
  | _ => rfl

theorem Halved.step (hh : i.Halved env c h) :
    h.step env (.call c) = (i.call env c).host env := by
  cases i with
  | opened s strategy texts =>
    obtain ⟨file, opened⟩ := h
    obtain ⟨hhalf, rfl⟩ := hh
    rw [← host_call]
    have hrun : (c.prog env (s.engine strategy)).run (Host.world file (s.handle strategy)) =
        (c.prog env (s.engine strategy)).run
          (Host.world (s.file env texts) (s.handle strategy)) := hhalf.run
    simp only [Host.step, host, hrun]
  | fresh =>
    obtain rfl := hh
    rfl
  | rejected =>
    obtain rfl := hh
    rfl
  | closed s texts =>
    obtain rfl := hh
    rfl

theorem Halved.cutStep (hh : i.Halved env c h) (cut : Cut) :
    ∃ j, Index.call env j c = i.call env c ∧ Halved env c j (h.cutStep env cut (.call c)) := by
  cases i with
  | opened s strategy texts =>
    obtain ⟨file, opened⟩ := h
    obtain ⟨hhalf, rfl⟩ := hh
    have hpanic := (returns_run (noTrap_call env (s.engine strategy) (V := ValidBits)
      (fun _ hb => hb.2) (fun _ hb => hb) c)
      (failing file none s.width false cut.statement cut.error) s.valid).1
    have hpoison := run_poisoned hpanic
    cases ho : ((c.prog env (s.engine strategy)).run
        (failing file none s.width false cut.statement cut.error)).1 with
    | ok a =>
      -- the failure lies past the end of the call
      have hquiet := run_quiet_of_ok (v := ((c.prog env (s.engine strategy)).run
        (failing file none s.width false cut.statement cut.error)).2) ⟨rfl, rfl⟩ (Prod.ext ho rfl)
      have hstep : Host.cutStep env cut { file := file, opened := some (s.handle strategy) }
          (.call c) =
            Host.step env { file := file, opened := some (s.handle strategy) } (.call c) := by
        have hworld : (c.prog env (s.engine strategy)).run
            (Host.world file (s.handle strategy)) = _ := hquiet
        simp only [Host.step, hworld]
        show Host.mk _ (some (OpenEngine.mk _ _ ((c.prog env (s.engine strategy)).run
          (failing file none s.width false cut.statement cut.error)).2.poisoned)) = _
        rw [hpoison]
        rfl
      have hhalved : Index.Halved env c (.opened s strategy texts)
          { file := file, opened := some (s.handle strategy) } := ⟨hhalf, rfl⟩
      refine ⟨(Index.opened s strategy texts).call env c, call_call _ c, ?_⟩
      rw [hstep, hhalved.step]
      exact halved_host _ c
    | err e =>
      obtain ⟨hkept, hcell⟩ := hhalf.stops.run ho
      refine ⟨.opened s strategy texts, rfl, hkept, ?_⟩
      show some (OpenEngine.mk _ ((c.prog env (s.engine strategy)).run
          (failing file none s.width false cut.statement cut.error)).2.cell
        ((c.prog env (s.engine strategy)).run
          (failing file none s.width false cut.statement cut.error)).2.poisoned) = _
      rw [hcell, hpoison]
      rfl
    | panic => exact absurd ho hpanic
  | fresh =>
    obtain rfl := hh
    exact ⟨.fresh, rfl, rfl⟩
  | rejected =>
    obtain rfl := hh
    exact ⟨.rejected, rfl, rfl⟩
  | closed s texts =>
    obtain rfl := hh
    exact ⟨.closed s texts, rfl, rfl⟩

end Index

namespace Stamp

variable {env : Env} {s : Stamp} {texts : Catalog} {c : Call} {db : Db}

theorem Half.opened (h : Half env s texts c db) : db.opened env = db := by
  have hcreated : db.created = db := by
    simp only [Db.created, h.columns, h.metaTable, file]
  have hcolumns : db.created.columns = some { normRev := true, raw := true } := by
    rw [hcreated, h.columns]
  rw [Host.opened_of_created hcolumns, hcreated]

theorem Half.effective (h : Half env s texts c db) :
    effectiveBits (some s.width) db.storedFieldBits = .ok s.width := by
  unfold Db.storedFieldBits
  split
  · simp only [effectiveBits, checkFieldBits_ok s.valid, Bind.bind, Except.bind]
  · have hstored : db.metaTable.fieldBits = some (bitsText s.width) := by
      rw [h.metaTable]
      rfl
    simp only [hstored, Option.bind_some, Host.parseU8_bitsText, Option.getD_some, effectiveBits,
      checkFieldBits_ok s.valid, Bind.bind, Except.bind, ne_eq, not_true_eq_false, if_false]

theorem Half.profile (h : Half env s texts c db) :
    (db.storedProfile.any fun p => p ≠ s.options.fingerprint) = false := by
  unfold Db.storedProfile
  split
  · rfl
  · simp [h.metaTable, file]

theorem Half.adopted (h : Half env s texts c db) (strategy : SearchStrategy) :
    db.adopted env (s.engine strategy) s.width = db := by
  have hprofile : (db.storedProfile.any fun p => p ≠ (s.engine strategy).options.fingerprint) =
      false := h.profile
  unfold Db.adopted
  rw [if_neg (by rw [hprofile]; simp)]
  have hmeta := h.metaTable
  obtain ⟨columns, docs, entries, metaTable⟩ := db
  simp only at hmeta
  subst hmeta
  rfl

/-- The options, the width and the schema are those of the file already. -/
theorem Half.reopened (h : Half env s texts c db) (strategy : SearchStrategy) :
    (openEngine env s.options strategy (some s.width) false).run (quiet db none 0 false) =
      (.ok (s.engine strategy), quiet db none s.width false) := by
  have heff := h.effective
  have hprofile := h.profile
  rw [← h.opened] at heff hprofile
  have hrun := openEngine_run env db 0 s.options strategy (some s.width) false heff
    (.inr hprofile)
  have hadopted : (db.opened env).adopted env
      { options := s.options, strategy := strategy } s.width = db := by
    rw [h.opened]
    exact h.adopted strategy
  rw [hadopted] at hrun
  exact hrun

end Stamp

namespace Index

variable {env : Env} {c : Call} {i : Index} {h : Host}

theorem Halved.recover (hh : i.Halved env c h) : i.Halved env c (h.recover env) := by
  cases i with
  | opened s strategy texts =>
    obtain ⟨file, opened⟩ := h
    obtain ⟨hhalf, rfl⟩ := hh
    have hrun : ((Host.again (s.handle strategy)).prog env).run (Host.openWorld file) =
        (.ok (s.engine strategy), quiet file none s.width false) := hhalf.reopened strategy
    have hsame : Host.recover env { file := file, opened := some (s.handle strategy) } =
        { file := file, opened := some (s.handle strategy) } := by
      simp only [Host.recover, Host.step, hrun]
      rfl
    rw [hsame]
    exact ⟨hhalf, rfl⟩
  | fresh =>
    obtain rfl := hh
    rfl
  | rejected =>
    obtain rfl := hh
    rfl
  | closed s texts =>
    obtain rfl := hh
    rfl

theorem Halved.attempt (hh : i.Halved env c h) (cut : Cut) :
    ∃ j, Index.call env j c = i.call env c ∧ Halved env c j (Host.attempt env (.call c) h cut) := by
  obtain ⟨j, hj, hhalved⟩ := hh.cutStep cut
  refine ⟨j, hj, ?_⟩
  unfold Host.attempt
  split
  · exact hhalved.recover
  · exact hhalved

/-- However often a call fails, made again it leaves what it leaves at once. -/
theorem insist_call (i : Index) (c : Call) (cuts : List Cut) :
    (i.host env).insist env (.call c, cuts) = (i.call env c).host env := by
  have hfailed : ∃ j, Index.call env j c = i.call env c ∧
      Halved env c j (cuts.foldl (Host.attempt env (.call c)) (i.host env)) := by
    apply List.foldlRecOn cuts (Host.attempt env (.call c))
      (motive := fun h => ∃ j, Index.call env j c = i.call env c ∧ Halved env c j h)
    · exact ⟨i, rfl, halved_host i c⟩
    · intro h hj cut _
      obtain ⟨j, hj, hhalved⟩ := hj
      obtain ⟨j', hj', hhalved'⟩ := hhalved.attempt cut
      exact ⟨j', hj'.trans hj, hhalved'⟩
  obtain ⟨j, hj, hhalved⟩ := hfailed
  rw [Host.insist, hhalved.step, hj]

end Index

/-! ### An open that fails -/

namespace SearchEngine

variable (env : Env)

theorem uses_storedFieldBits : storedFieldBits.Uses outsideTx := by
  apply uses_bind (uses_sqlQuery trivial _)
  intro indexed
  split
  · exact uses_pure _ _
  · exact uses_bind (uses_sqlQuery trivial _) fun _ => uses_pure _ _

theorem uses_storedProfile : storedProfile.Uses outsideTx := by
  apply uses_bind (uses_sqlQuery trivial _)
  intro indexed
  split
  · exact uses_pure _ _
  · exact uses_bind (uses_sqlQuery trivial _) fun _ => uses_pure _ _

/-- Wherever an open fails, it is in the schema statements, after them, or behind the stamp of
the width. -/
theorem stops_openEngine {Q : Db → Prop} {db : Db} {cell : UInt8} (options : NormalizeOptions)
    (strategy : SearchStrategy) {fieldBits : Option UInt8} {rebuild : Bool}
    (hcuts : ∀ d ∈ Migration.openCuts env db, Q d) (hopened : Q (db.opened env))
    (hstamped : ∀ n, effectiveBits fieldBits (db.opened env).storedFieldBits = .ok n →
      (rebuild = true ∨
        ((db.opened env).storedProfile.any fun s => s ≠ options.fingerprint) = false) →
      Q ((db.opened env).stampedBits n)) :
    (openEngine env options strategy fieldBits rebuild).Stops (fun d _ => Q d) db none cell
      false := by
  unfold openEngine
  refine stops_then (stops_cutOff (Migration.cutOff_openSchema env db) hcuts)
    (eval_openSchema env db cell false) ?_
  refine stops_then (stops_reads uses_storedFieldBits hopened) (eval_storedFieldBits _ _ _) ?_
  cases heff : effectiveBits fieldBits (db.opened env).storedFieldBits with
  | error err =>
    exact stops_bind (stops_throw err hopened) fun a _ _ _ _ heval => by cases heval
  | ok n =>
    refine stops_then (stops_pure n) (eval_pure _ _) ?_
    refine stops_then (stops_reads uses_storedProfile hopened) (eval_storedProfile _ _ _) ?_
    dsimp only
    split
    · split
      · exact stops_throw _ hopened
      · exact stops_throw _ hopened
    · rename_i hgo
      have hq := hstamped n heff (by
        rcases hr : rebuild with _ | _
        · right
          rw [hr] at hgo
          simpa using hgo
        · exact .inl rfl)
      refine stops_then (stops_then (stops_write n) (eval_write_quiet _ _ _ _ n) (stops_pure _))
        (a := { options := options, strategy := strategy }) (d := db.opened env) rfl ?_
      refine stops_then (stops_acquire _) (eval_acquire_quiet _ _ _ _ _) ?_
      refine stops_then (stops_stmt _ hopened) (d := (db.opened env).stampedBits n)
        (Sql.eval_effect _ _ _ _ _) ?_
      refine stops_then stops_release (eval_release_quiet _ _ _ _) ?_
      split
      · refine stops_bind (stops_allOrNothing (reindex_allOrNothing env _) hq) ?_
        intro m db' saved' cell' held' _
        exact stops_bind stops_release fun _ _ _ _ _ _ => stops_pure _
      · refine stops_then (stops_acquire _) (eval_acquire_quiet _ _ _ _ _) ?_
        refine stops_bind (stops_stmt _ hq) ?_
        intro u db' saved' cell' held' _
        exact stops_bind stops_release fun _ _ _ _ _ _ => stops_pure _

end SearchEngine

namespace Db

variable {env : Env} {db : Db}

/-- A file whose tables, when it has any, have both columns. -/
def Current (db : Db) : Prop :=
  db.columns = none ∨ db.columns = some { normRev := true, raw := true }

structure Created (db : Db) : Prop where
  columns : db.columns = some { normRev := true, raw := true }
  version : db.metaTable.indexVersion ≠ none

theorem Created.current (h : db.Created) : db.Current := .inr h.columns

theorem Created.created (h : db.Created) : db.created = db := by
  obtain ⟨hc, hv⟩ := h
  cases hi : db.metaTable.indexVersion with
  | none => exact absurd hi hv
  | some v => simp only [Db.created, hc, hi]

theorem Current.created (h : db.Current) : db.created.Created := by
  constructor
  · rcases h with h | h
    · simp only [Db.created, h]
      split <;> rfl
    · simp only [Db.created, h]
      split
      · exact h
      · rfl
  · unfold Db.created
    dsimp only
    split
    · rename_i hv
      rw [hv]
      simp
    · simp

theorem Current.opened (h : db.Current) : db.opened env = db.created :=
  Host.opened_of_created h.created.columns

theorem Created.opened (h : db.Created) : db.opened env = db := by
  rw [h.current.opened, h.created]

theorem Current.withEntries (h : db.Current) :
    (Migration.withEntries db).Current ∧ (Migration.withEntries db).created = db.created := by
  rcases h with h | h
  · have hw : Migration.withEntries db =
        { db with columns := some { normRev := true, raw := true }, entries := ∅ } := by
      simp only [Migration.withEntries, h]
    rw [hw]
    refine ⟨.inr rfl, ?_⟩
    simp only [Db.created, h]
  · have hw : Migration.withEntries db = db := by
      simp only [Migration.withEntries, h]
    rw [hw]
    exact ⟨.inr h, rfl⟩

/-- The files an open of a current file can be cut off at in the schema statements. -/
theorem Current.openCuts (h : db.Current) {d : Db} (hd : d ∈ Migration.openCuts env db) :
    d = db ∨ d = Migration.withEntries db ∨ d = db.created := by
  have hfull := h.created
  have hraw : db.created.withRaw = db.created := by
    rw [Db.withRaw, if_pos (by rw [hfull.columns]; rfl)]
  have hrawCuts : Migration.rawCuts db.created = [db.created] := by
    rw [Migration.rawCuts, if_pos (by rw [hfull.columns]; rfl)]
  have hrevCuts : Migration.normRevCuts db.created = [db.created] := by
    rw [Migration.normRevCuts, if_pos (by rw [hfull.columns]; rfl)]
  simp only [Migration.openCuts, hraw, hrawCuts, hrevCuts, h.opened, List.mem_append,
    List.mem_replicate, List.mem_singleton] at hd
  grind

theorem Current.cut (h : db.Current) {d : Db} (hd : d ∈ Migration.openCuts env db) :
    d.Current ∧ d.opened env = db.opened env := by
  obtain ⟨hcurrent, hsame⟩ := h.withEntries
  rw [h.opened]
  obtain rfl | rfl | rfl := h.openCuts hd
  · exact ⟨h, h.opened⟩
  · exact ⟨hcurrent, by rw [hcurrent.opened, hsame]⟩
  · exact ⟨h.created.current, h.created.opened⟩

theorem Created.cut (h : db.Created) {d : Db} (hd : d ∈ Migration.openCuts env db) : d = db := by
  have hsame : Migration.withEntries db = db := by
    simp only [Migration.withEntries, h.columns]
  have hcut := h.current.openCuts hd
  rw [hsame, h.created] at hcut
  simpa using hcut

theorem Created.stampedBits (h : db.Created) (n : UInt8) : (db.stampedBits n).Created :=
  ⟨h.columns, h.version⟩

/-- A width an open has stamped is the one it finds. -/
theorem effective_stampedBits {fieldBits : Option UInt8} {n : UInt8}
    (h : effectiveBits fieldBits db.storedFieldBits = .ok n) :
    effectiveBits fieldBits (db.stampedBits n).storedFieldBits = .ok n := by
  by_cases hsize : db.entries.size = 0
  · have hsize' : (db.stampedBits n).entries.size = 0 := hsize
    have hsame : (db.stampedBits n).storedFieldBits = db.storedFieldBits := by
      rw [Db.storedFieldBits, Db.storedFieldBits, if_pos hsize', if_pos hsize]
    rw [hsame, h]
  · have hsize' : ¬ (db.stampedBits n).entries.size = 0 := hsize
    have hstored : (db.stampedBits n).storedFieldBits = some n := by
      rw [Db.storedFieldBits, if_neg hsize']
      simp only [Db.stampedBits, Option.bind_some, Host.parseU8_bitsText, Option.getD_some]
    rw [hstored]
    cases fieldBits with
    | none => rfl
    | some k =>
      simp only [effectiveBits] at h ⊢
      cases hc : checkFieldBits k with
      | error err =>
        rw [hc] at h
        cases h
      | ok u =>
        rw [hc] at h
        simp only [Bind.bind, Except.bind] at h ⊢
        split at h
        · split at h
          · cases h
          · cases h
            simp
        · cases h
          simp

end Db

/-- The rejections of an open and the file it adopts are those of the schema it finds. -/
theorem openEngine_congr (env : Env) (r : OpenRequest) {db db' : Db}
    (h : db.opened env = db'.opened env) :
    (openEngine env r.options r.strategy r.fieldBits r.rebuild).run (quiet db none 0 false) =
      (openEngine env r.options r.strategy r.fieldBits r.rebuild).run (quiet db' none 0 false) := by
  have heval : (openEngine env r.options r.strategy r.fieldBits r.rebuild).eval
        (quiet db none 0 false) =
      (openEngine env r.options r.strategy r.fieldBits r.rebuild).eval
        (quiet db' none 0 false) := by
    unfold openEngine
    rw [eval_bind, eval_bind, eval_openSchema, eval_openSchema, h]
  rw [Prog.run, heval, Prog.run]

/-- The file of an open under way, or of one that failed: as it is found, or behind the stamp
of the width. -/
def Opening (env : Env) (r : OpenRequest) (F d : Db) : Prop :=
  d.Current ∧ (d.opened env = F ∨
    ∃ n, effectiveBits r.fieldBits F.storedFieldBits = .ok n ∧
      (r.rebuild = true ∨
        (F.storedProfile.any fun s => s ≠ r.options.fingerprint) = false) ∧
      d = F.stampedBits n)

namespace Opening

variable {env : Env} {r : OpenRequest} {F d : Db}

theorem run (hF : F.Created) (h : Opening env r F d) :
    (openEngine env r.options r.strategy r.fieldBits r.rebuild).run (quiet d none 0 false) =
      (openEngine env r.options r.strategy r.fieldBits r.rebuild).run (quiet F none 0 false) := by
  obtain ⟨_, hfound | ⟨n, heff, hgo, rfl⟩⟩ := h
  · apply openEngine_congr
    rw [hfound, hF.opened]
  · have hopened : (F.stampedBits n).opened env = F.stampedBits n := (hF.stampedBits n).opened
    have hprofile : (F.stampedBits n).storedProfile = F.storedProfile := rfl
    have hagain := Db.effective_stampedBits heff
    have hrun : (openEngine env r.options r.strategy r.fieldBits r.rebuild).run
        (quiet (F.stampedBits n) none 0 false) = _ :=
      openEngine_run env (F.stampedBits n) 0 r.options r.strategy r.fieldBits r.rebuild
        (by rw [hopened, hagain]) (by rw [hopened, hprofile]; exact hgo)
    have hfirst : (openEngine env r.options r.strategy r.fieldBits r.rebuild).run
        (quiet F none 0 false) = _ :=
      openEngine_run env F 0 r.options r.strategy r.fieldBits r.rebuild
        (by rw [hF.opened, heff]) (by rw [hF.opened]; exact hgo)
    rw [hrun, hfirst, hopened, hF.opened]
    rfl

theorem stops (hF : F.Created) (h : Opening env r F d) :
    (openEngine env r.options r.strategy r.fieldBits r.rebuild).Stops
      (fun d _ => Opening env r F d) d none 0 false := by
  obtain ⟨hcurrent, hfound | ⟨n, heff, hgo, rfl⟩⟩ := h
  · apply stops_openEngine
    · intro d' hd'
      obtain ⟨hcut, hsame⟩ := hcurrent.cut hd'
      exact ⟨hcut, .inl (hsame.trans hfound)⟩
    · rw [hfound]
      exact ⟨hF.current, .inl hF.opened⟩
    · intro m heff hgo
      rw [hfound] at heff hgo ⊢
      exact ⟨(hF.stampedBits m).current, .inr ⟨m, heff, hgo, rfl⟩⟩
  · have hstamped : Opening env r F (F.stampedBits n) :=
      ⟨(hF.stampedBits n).current, .inr ⟨n, heff, hgo, rfl⟩⟩
    have hopened : (F.stampedBits n).opened env = F.stampedBits n := (hF.stampedBits n).opened
    apply stops_openEngine
    · intro d' hd'
      rw [(hF.stampedBits n).cut hd']
      exact hstamped
    · rw [hopened]
      exact hstamped
    · intro m hm _
      rw [hopened, Db.effective_stampedBits heff] at hm
      cases hm
      rw [hopened]
      exact hstamped

end Opening

namespace Index

variable {env : Env} {i : Index} {h : Host} {c : Constructor}

theorem current_host (i : Index) : (i.host env).file.Current := by
  cases i with
  | fresh => exact .inl rfl
  | rejected => exact .inr rfl
  | closed s texts => exact .inr rfl
  | opened s strategy texts => exact .inr rfl

/-- A host on which the open of an index has failed, or is still to come. -/
def Opens (env : Env) (r : OpenRequest) (i : Index) (h : Host) : Prop :=
  Opening env r ((i.host env).file.opened env) h.file

theorem opens_host (i : Index) (r : OpenRequest) : i.Opens env r (i.host env) :=
  ⟨current_host i, .inl rfl⟩

theorem opened_created (i : Index) : ((i.host env).file.opened env).Created := by
  rw [(current_host i).opened]
  exact (current_host i).created

theorem Opens.run (hh : i.Opens env c.request h) :
    (c.prog env).run (Host.openWorld h.file) =
      (c.prog env).run (Host.openWorld (i.host env).file) := by
  rw [Stamp.constructor_request]
  exact (Opening.run (opened_created i) hh).trans
    (Opening.run (opened_created i) (opens_host i c.request)).symm

theorem Opens.step (hh : i.Opens env c.request h) :
    h.step env (.reopen c) = (i.reopen c.request).host env := by
  rw [← host_reopen]
  simp only [Host.step, hh.run]

theorem recover_host (i : Index) : (i.host env).recover env = i.host env := by
  cases i with
  | opened s strategy texts =>
    have hhalf : Stamp.Half env s texts .documentCount (s.file env texts) := Stamp.half_file
    have hrun : ((Host.again (s.handle strategy)).prog env).run
        (Host.openWorld (s.file env texts)) =
          (.ok (s.engine strategy), quiet (s.file env texts) none s.width false) :=
      hhalf.reopened strategy
    simp only [host, Host.recover, Host.step, hrun]
    rfl
  | fresh => rfl
  | rejected => rfl
  | closed s texts => rfl

/-- An open under a failure: past its end it is the open itself, otherwise it leaves a file it
can be repeated on. -/
theorem Opens.cutStep (hh : i.Opens env c.request h) (cut : Cut) :
    Host.cutStep env cut h (.reopen c) = (i.reopen c.request).host env ∨
      ∃ d, Host.cutStep env cut h (.reopen c) = { file := d } ∧
        i.Opens env c.request { file := d } := by
  obtain ⟨options, strategy, fieldBits, rebuild, hprog⟩ := Host.constructor_eq env c
  have hpanic : ((c.prog env).run
      (failing h.file none 0 false cut.statement cut.error)).1 ≠ .panic := by
    rw [hprog]
    exact (returns_run (noTrap_openEngine options strategy fieldBits rebuild)
      (failing h.file none 0 false cut.statement cut.error) trivial).1
  have hpoison := run_poisoned hpanic
  cases hres : (c.prog env).run (failing h.file none 0 false cut.statement cut.error) with
  | mk o v =>
    have hcut : (c.prog env).run
        { Host.openWorld h.file with fault := some (cut.statement, cut.error) } = (o, v) := hres
    rw [hres] at hpanic hpoison
    cases o with
    | ok engine =>
      left
      have hquiet : (c.prog env).run (Host.openWorld h.file) =
          (.ok engine, quiet v.db none v.cell false) := run_quiet_of_ok ⟨rfl, rfl⟩ hres
      have hpoison' : v.poisoned = false := hpoison
      rw [← hh.step]
      simp only [Host.cutStep, Host.step, hcut, hquiet, hpoison']
      rfl
    | err e =>
      right
      have hstops := (Opening.stops (opened_created i) hh).run (k := cut.statement)
        (e := cut.error) (f := e)
      rw [← Stamp.constructor_request, hres] at hstops
      refine ⟨v.db, ?_, hstops rfl⟩
      simp only [Host.cutStep, hcut]
    | panic => exact absurd rfl hpanic

theorem Opens.attempt (hh : i.Opens env c.request h) (cut : Cut) :
    ∃ j, Index.reopen j c.request = i.reopen c.request ∧
      Opens env c.request j (Host.attempt env (.reopen c) h cut) := by
  unfold Host.attempt
  rcases hh.cutStep cut with hdone | ⟨d, hfailed, hopens⟩
  · refine ⟨i.reopen c.request, reopen_reopen i c.request, ?_⟩
    rw [hdone, recover_host, ite_self]
    exact opens_host _ c.request
  · refine ⟨i, rfl, ?_⟩
    have hclosed : Host.recover env { file := d } = { file := d } := rfl
    rw [hfailed, hclosed, ite_self]
    exact hopens

/-- However often an open fails, made again it leaves what it leaves at once. -/
theorem insist_reopen (i : Index) (c : Constructor) (cuts : List Cut) :
    (i.host env).insist env (.reopen c, cuts) = (i.reopen c.request).host env := by
  have hfailed : ∃ j, Index.reopen j c.request = i.reopen c.request ∧
      Opens env c.request j (cuts.foldl (Host.attempt env (.reopen c)) (i.host env)) := by
    apply List.foldlRecOn cuts (Host.attempt env (.reopen c)) (motive := fun h =>
      ∃ j, Index.reopen j c.request = i.reopen c.request ∧ Opens env c.request j h)
    · exact ⟨i, rfl, opens_host i c.request⟩
    · intro h hj cut _
      obtain ⟨j, hj, hopens⟩ := hj
      obtain ⟨j', hj', hopens'⟩ := hopens.attempt cut
      exact ⟨j', hj'.trans hj, hopens'⟩
  obtain ⟨j, hj, hopens⟩ := hfailed
  rw [Host.insist, hopens.step, hj]

theorem insist_close (i : Index) (cuts : List Cut) :
    (i.host env).insist env (.close, cuts) = i.close.host env := by
  have hattempt : ∀ (h : Host) cut, Host.attempt env .close h cut = h.step env .close := by
    intro h cut
    unfold Host.attempt
    split <;> rfl
  have hclosed : (cuts.foldl (Host.attempt env .close) (i.host env)).step env .close =
      (i.host env).step env .close := by
    apply List.foldlRecOn cuts (Host.attempt env .close)
      (motive := fun h => h.step env .close = (i.host env).step env .close)
    · rfl
    · intro h hh cut _
      rw [hattempt, ← hh]
      rfl
  rw [Host.insist, hclosed]
  exact host_step i .close

theorem insist_step (i : Index) (a : Action) (cuts : List Cut) :
    (i.host env).insist env (a, cuts) = (i.step env a).host env := by
  cases a with
  | call c => exact insist_call i c cuts
  | reopen c => exact insist_reopen i c cuts
  | close => exact insist_close i cuts

theorem insist_run (work : List (Action × List Cut)) (i : Index) :
    work.foldl (Host.insist env) (i.host env) = (i.run env (work.map Prod.fst)).host env := by
  induction work generalizing i with
  | nil => rfl
  | cons first work ih =>
    obtain ⟨a, cuts⟩ := first
    rw [List.foldl_cons, insist_step, ih]
    rfl

end Index

/-- A workload in which any statement of any call or open fails any number of times, and the
host repeats the step on the same engine or after opening the file again, leaves the file and
the engine that it leaves when nothing fails. -/
theorem retries_leave_no_trace (env : Env) (work : List (Action × List Cut)) :
    work.foldl (Host.insist env) {} = Host.run env {} (work.map Prod.fst) :=
  (Index.insist_run work .fresh).trans (Index.host_run (work.map Prod.fst) .fresh).symm

end Unfydqry
