import Unfydqry.Engine.RecordEffect
import Unfydqry.Engine.Shape

/-! # A mutation that fails

`index`, `remove` and `remove_record` run their statements without a transaction, so a
statement that fails after another has succeeded leaves half of the call behind. Every
other mutation writes only inside a transaction. -/

namespace Unfydqry

open LockedStore Prog

/-- The statement that fails, counted from the start of the call. -/
def failingStatement (w : EngineWorld) : Option ℕ := w.fault.map Prod.fst

/-- A statement fails after one of the same call has changed a table for good. -/
def Torn (env : Env) (e : SearchEngine) (w : EngineWorld) : Call → Prop
  | .index id text => w.poisoned = false ∧
    (failingStatement w = some 1 ∧ w.db.docs[id]? ≠ none ∨
      failingStatement w = some 2 ∧ w.db.docs[id]? ≠ some (e.normalizer env text))
  | .remove id =>
    w.poisoned = false ∧ failingStatement w = some 1 ∧ w.db.docs[id]? ≠ none
  | .removeRecord r =>
    w.poisoned = false ∧ SearchEngine.RecordOk w.cell r ∧ failingStatement w = some 1 ∧
      ∃ id, Sql.between (SearchEngine.shlOf w.cell r) (SearchEngine.hiOf w.cell r) id = true ∧
        w.db.docs[id]? ≠ none
  | _ => False

namespace SearchEngine

variable (env : Env) (e : SearchEngine) (db : Db) {bits : UInt8} (err : SearchError)

/-- `index` when statement `k` fails, its three statements being autocommitted. -/
def indexFailed (bits : UInt8) (id : Int64) (text : Text) :
    ℕ → Outcome SearchError Unit × EngineWorld
  | 0 => (.err err, failing db none bits true 0 err)
  | 1 => (.err err, failing { db with docs := db.docs.erase id } none bits true 0 err)
  | 2 => (.err err,
      failing { db with docs := db.docs.insert id (e.normalizer env text) } none bits true 0 err)
  | k + 3 => (.ok (), failing (db.put env e id text) none bits false k err)

theorem index_failing (bits : UInt8) (id : Int64) (text : Text) (k : ℕ) :
    (index env e id text).eval (failing db none bits false k err) =
      indexFailed env e db err bits id text k := by
  have hdelete : Sql.deleteDoc id db = .ok ((), { db with docs := db.docs.erase id }) := rfl
  have hinsert : Sql.insertDoc id (e.normalizer env text) { db with docs := db.docs.erase id } =
      .ok ((), { db with docs := db.docs.insert id (e.normalizer env text) }) := by
    have hfree : (db.docs.erase id)[id]? = none := by rw [Table.lookup_erase, if_pos rfl]
    rw [Sql.insertDoc, (Table.contains_eq_false_iff _ _).mpr hfree]
    simp only [Bool.false_eq_true, ite_false, Table.insert_erase_self]
  simp only [index, putDocument, lockedConn, eval_bind, eval_acquire_failing, andThen_ok]
  rcases k with _ | _ | _ | k
  · simp only [eval_stmt_failing_zero, andThen_err]
    rfl
  · simp only [eval_stmt_failing_succ _ _ _ _ _ _ hdelete, eval_bind, eval_stmt_failing_zero,
      andThen_ok, andThen_err]
    rfl
  · simp only [eval_stmt_failing_succ _ _ _ _ _ _ hdelete,
      eval_stmt_failing_succ _ _ _ _ _ _ hinsert, eval_bind, eval_stmt_failing_zero, andThen_ok,
      andThen_err]
    rfl
  · simp only [eval_stmt_failing_succ _ _ _ _ _ _ hdelete,
      eval_stmt_failing_succ _ _ _ _ _ _ hinsert, eval_bind, andThen_ok]
    rfl

/-- A removal when statement `k` fails: `docs'` after the first of its two statements, `db'`
after both. -/
def removeFailed (bits : UInt8) (docs' : Docs) (db' : Db) :
    ℕ → Outcome SearchError Unit × EngineWorld
  | 0 => (.err err, failing db none bits true 0 err)
  | 1 => (.err err, failing { db with docs := docs' } none bits true 0 err)
  | k + 2 => (.ok (), failing db' none bits false k err)

theorem remove_failing (bits : UInt8) (id : Int64) (k : ℕ) :
    (remove id).eval (failing db none bits false k err) =
      removeFailed db err bits (db.docs.erase id) (db.drop id) k := by
  rcases k with _ | _ | k
  · rfl
  · rfl
  · rfl

theorem removeRecord_failing (hb : ValidBits bits) {r : Int64} (hr : RecordOk bits r) (k : ℕ) :
    (removeRecord r).eval (failing db none bits false k err) =
      removeFailed db err bits
        (Table.eraseWhere (Sql.between (shlOf bits r) (hiOf bits r)) db.docs)
        (db.clearRange (shlOf bits r) (hiOf bits r)) k := by
  have hcheck := eval_checkRecordId (failing db none bits false k err) hb r
  have hrange := eval_recordIdRange (failing db none bits false k err) hb r
  have hr' : RecordOk (failing db none bits false k err : EngineWorld).cell r := hr
  rw [if_pos hr'] at hcheck
  simp only [removeRecord, lockedConn, eval_bind, hcheck, hrange, andThen_ok, eval_acquire_failing]
  rcases k with _ | _ | k
  · rfl
  · rfl
  · rfl

theorem removeRecord_rejects (w : EngineWorld) (hb : ValidBits w.cell) {r : Int64}
    (hr : ¬ RecordOk w.cell r) : ((removeRecord r).eval w).2 = w := by
  simp only [removeRecord, eval_bind, eval_checkRecordId w hb, if_neg hr, andThen_err]

theorem Db.docs_eq_iff (docs : Docs) : ({ db with docs := docs } : Db) = db ↔ docs = db.docs := by
  cases db
  simp

variable {w : EngineWorld}

theorem index_failsClean_iff (hw : w.Idle) (hp : w.poisoned = false) (id : Int64) (text : Text) :
    (index env e id text).FailsClean w ↔ ¬ Torn env e w (.index id text) := by
  rcases World.idle_cases hw hp with hq | ⟨k, err, hf⟩
  · have hok := index_run env e w.db w.cell id text
    rw [hq]
    simp [Torn, failingStatement, failsClean_of_ok hok]
  · have heval := index_failing env e w.db err w.cell id text k
    rw [hf]
    rcases k with _ | _ | _ | k
    · simp [Torn, failingStatement, failsClean_of_err heval rfl]
    · rw [failsClean_of_err heval rfl]
      simp [Torn, failingStatement, Db.docs_eq_iff, Table.erase_eq_self_iff]
    · rw [failsClean_of_err heval rfl]
      simp [Torn, failingStatement, Db.docs_eq_iff, Table.insert_eq_self_iff]
    · simp [Torn, failingStatement, failsClean_of_ok (run_of_eval heval)]

theorem remove_failsClean_iff (hw : w.Idle) (hp : w.poisoned = false) (id : Int64) :
    (remove id).FailsClean w ↔ ¬ Torn env e w (.remove id) := by
  rcases World.idle_cases hw hp with hq | ⟨k, err, hf⟩
  · have hok := remove_run w.db w.cell id
    rw [hq]
    simp [Torn, failingStatement, failsClean_of_ok hok]
  · have heval := remove_failing w.db err w.cell id k
    rw [hf]
    rcases k with _ | _ | k
    · simp [Torn, failingStatement, failsClean_of_err heval rfl]
    · rw [failsClean_of_err heval rfl]
      simp [Torn, failingStatement, Db.docs_eq_iff, Table.erase_eq_self_iff]
    · simp [Torn, failingStatement, failsClean_of_ok (run_of_eval heval)]

theorem removeRecord_failsClean_iff (hw : w.Idle) (hp : w.poisoned = false)
    (hb : ValidBits w.cell) (r : Int64) :
    (removeRecord r).FailsClean w ↔ ¬ Torn env e w (.removeRecord r) := by
  by_cases hr : RecordOk w.cell r
  · rcases World.idle_cases hw hp with hq | ⟨k, err, hf⟩
    · have hok := removeRecord_run w.db hb hr
      rw [hq]
      simp [Torn, failingStatement, failsClean_of_ok hok]
    · have heval := removeRecord_failing w.db err hb hr k
      rw [hf]
      rcases k with _ | _ | k
      · simp [Torn, failingStatement, failsClean_of_err heval rfl]
      · rw [failsClean_of_err heval rfl]
        simp [Torn, failingStatement, Db.docs_eq_iff, Table.eraseWhere_eq_self_iff, hr]
      · simp [Torn, failingStatement, failsClean_of_ok (run_of_eval heval)]
  · have hsame := removeRecord_rejects w hb hr
    have hrun : ((removeRecord r).run w).2 = w := by
      rw [Prog.run, hsame, World.leave_idle _ hw]
    simp [FailsClean, hrun, Torn, hr]

end SearchEngine

theorem failsClean_of_poisoned (env : Env) (e : SearchEngine) (c : Call) {w : EngineWorld}
    (hw : w.Idle) (hp : w.poisoned = true) : (c.prog env e).FailsClean w := by
  have heval := pre_eval_poisoned (SearchEngine.call_pre env e c) w hp
  have hrun : ((c.prog env e).run w).2 = w := by
    rw [Prog.run, heval, World.leave_idle _ hw]
  intro err _
  rw [hrun]
  exact ⟨rfl, rfl⟩

/-- Whichever statement fails, a mutation that returns an error has changed nothing, unless
it is torn. -/
theorem failed_mutation_clean_iff (env : Env) (e : SearchEngine) {w : EngineWorld} (hw : w.Idle)
    (hb : ValidBits w.cell) {c : Call} (hc : c.Mutating) :
    (c.prog env e).FailsClean w ↔ ¬ Torn env e w c := by
  cases hp : w.poisoned with
  | true =>
    have hclean := failsClean_of_poisoned env e c hw hp
    cases c <;> simp [hclean, Torn, hp]
  | false =>
    have htx : (c.prog env e).AllOrNothing → ¬ Torn env e w c →
        ((c.prog env e).FailsClean w ↔ ¬ Torn env e w c) := fun h hn =>
      iff_of_true (failsClean_of_allOrNothing h hw.1) hn
    cases c with
    | index id text =>
      exact (failsClean_bind_pure _ _ w).trans
        (SearchEngine.index_failsClean_iff env e hw hp id text)
    | remove id =>
      exact (failsClean_bind_pure _ _ w).trans (SearchEngine.remove_failsClean_iff env e hw hp id)
    | removeRecord r =>
      exact (failsClean_bind_pure _ _ w).trans
        (SearchEngine.removeRecord_failsClean_iff env e hw hp hb r)
    | indexBatch items =>
      exact htx (allOrNothing_bind_pure (SearchEngine.indexBatch_allOrNothing env e items) _) id
    | removeBatch ids =>
      exact htx (allOrNothing_bind_pure (SearchEngine.removeBatch_allOrNothing ids) _) id
    | removeAll => exact htx (allOrNothing_bind_pure SearchEngine.removeAll_allOrNothing _) id
    | indexRecord r fields =>
      exact htx (allOrNothing_bind_pure (SearchEngine.indexRecord_allOrNothing env e r fields) _) id
    | indexRecordsBatch records =>
      exact htx
        (allOrNothing_bind_pure (SearchEngine.indexRecordsBatch_allOrNothing env e records) _) id
    | reindex => exact htx (allOrNothing_bind_pure (SearchEngine.reindex_allOrNothing env e) _) id
    | changeFieldBits new =>
      exact htx (allOrNothing_bind_pure (SearchEngine.changeFieldBits_allOrNothing env new) _) id
    | contains => exact hc.elim
    | documentCount => exact hc.elim
    | search => exact hc.elim
    | searchPage => exact hc.elim
    | matchCount => exact hc.elim
    | highlight => exact hc.elim
    | containsRecord => exact hc.elim
    | searchRecords => exact hc.elim
    | searchRecordsPage => exact hc.elim
    | matchCountRecords => exact hc.elim
    | highlightRecord => exact hc.elim

/-- An index that fails at its second statement, on a file without the document. -/
theorem failed_mutation_clean_fresh :
    ((Call.index 1 ['a']).prog .ascii ⟨{}, .substring⟩).FailsClean
      { db := .fresh, cell := 8, fault := some (1, .db "disk I/O error") } := by
  have hmutating : (Call.index 1 ['a']).Mutating := trivial
  refine (failed_mutation_clean_iff .ascii ⟨{}, .substring⟩ ⟨rfl, rfl⟩ ⟨by decide, by decide⟩
    hmutating).mpr ?_
  rintro ⟨_, ⟨_, hdoc⟩ | ⟨hfault, _⟩⟩
  · exact hdoc rfl
  · cases hfault

/-- A host that has opened a fresh file and indexed one document. -/
def indexedHost : Host := Host.run .ascii {} [.reopen .new, .call (.index 1 ['a'])]

/-- Indexing the document again fails at the insertion: the old row of `docs` is gone. -/
def failingReindex (o : OpenEngine) : Outcome SearchError Reply × EngineWorld :=
  ((Call.index 1 ['b']).prog .ascii o.engine).run
    { Host.world indexedHost.file o with fault := some (1, .db "disk I/O error") }

theorem failingReindex_rows :
    indexedHost.opened.map (fun o => ((failingReindex o).1 matches .err _,
      (failingReindex o).2.db.docs.toList, indexedHost.file.docs.toList)) =
        some (true, [], [(1, ['a'])]) := by
  decide +kernel

theorem failed_mutation_not_clean :
    ¬ ∀ (actions : List Action) (o : OpenEngine) (c : Call) (fault : Option (ℕ × SearchError)),
      (Host.run .ascii {} actions).opened = some o → c.Mutating →
        (c.prog .ascii o.engine).FailsClean
          { Host.world (Host.run .ascii {} actions).file o with fault := fault } := by
  intro hclean
  obtain ⟨o, ho, hrows⟩ := Option.map_eq_some_iff.mp failingReindex_rows
  rw [Prod.mk.injEq, Prod.mk.injEq] at hrows
  obtain ⟨herr, hafter, hbefore⟩ := hrows
  have hkept := hclean _ o (.index 1 ['b']) (some (1, .db "disk I/O error")) ho trivial
  cases hout : (failingReindex o).1 with
  | err err =>
    have hdb : (failingReindex o).2.db = indexedHost.file := (hkept err hout).1
    rw [hdb, hbefore] at hafter
    cases hafter
  | ok a => rw [hout] at herr; cases herr
  | panic => rw [hout] at herr; cases herr

end Unfydqry
