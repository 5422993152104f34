import Unfydqry.Engine.Ids
import Unfydqry.Engine.Call

/-! # What each call does when no statement fails

For every mutating call one lemma: its answer and the file it leaves, as a function
of the file it finds. Callers use these and never unfold a call again. -/

namespace Unfydqry

open LockedStore Prog

theorem Host.world_quiet {o : OpenEngine} (hp : o.poisoned = false) (db : Db) :
    Host.world db o = quiet db none o.fieldBits false := by
  rw [Host.world, hp]
  rfl

namespace Sql

variable (db : Db) (saved : Option Db) (bits : UInt8) (held : Bool)

@[simp] theorem eval_effect (f : Db → Db) :
    (stmt (effect f) : EngineM Unit).eval (quiet db saved bits held) =
      (.ok (), quiet (f db) saved bits held) := rfl

@[simp] theorem eval_query {α : Type} (f : Db → α) :
    (stmt (query f) : EngineM α).eval (quiet db saved bits held) =
      (.ok (f db), quiet db saved bits held) := rfl

theorem eval_insertDoc {id : Int64} (norm : Text) (h : db.docs[id]? = none) :
    (stmt (insertDoc id norm) : EngineM Unit).eval (quiet db saved bits held) =
      (.ok (), quiet { db with docs := db.docs.insert id norm } saved bits held) := by
  apply eval_stmt_quiet_ok _ _ _ _
  rw [insertDoc, (Table.contains_eq_false_iff _ _).mpr h]
  rfl

theorem eval_insertEntry {id : Int64} (e : Entry) (h : db.entries[id]? = none) :
    (stmt (insertEntry id e) : EngineM Unit).eval (quiet db saved bits held) =
      (.ok (), quiet { db with entries := db.entries.insert id e } saved bits held) := by
  apply eval_stmt_quiet_ok _ _ _ _
  rw [insertEntry, (Table.contains_eq_false_iff _ _).mpr h]
  rfl

end Sql

namespace Db

/-- The file after a document has been stored. -/
def put (env : Env) (e : SearchEngine) (id : Int64) (text : Text) (db : Db) : Db :=
  { db with
    docs := db.docs.insert id (e.normalizer env text)
    entries := db.entries.insert id (e.entryOf env text) }

def drop (id : Int64) (db : Db) : Db :=
  { db with docs := db.docs.erase id, entries := db.entries.erase id }

/-- The file after the documents of a batch. -/
def putItems (env : Env) (e : SearchEngine) (items : List IndexItem) (db : Db) : Db :=
  items.foldl (fun db item => db.put env e item.id item.text) db

def dropIds (ids : List Int64) (db : Db) : Db := ids.foldl (fun db id => db.drop id) db

def clear (db : Db) : Db := { db with docs := ∅, entries := ∅ }

def clearRange (lo hi : Int64) (db : Db) : Db :=
  { db with
    docs := Table.eraseWhere (Sql.between lo hi) db.docs
    entries := Table.eraseWhere (Sql.between lo hi) db.entries }

/-- The file after one field of a record has been stored, or skipped. -/
def putField (env : Env) (e : SearchEngine) (bits : UInt8) (recordId : Int64) (db : Db)
    (f : FieldValue) : Db :=
  if (e.normalizer env f.text).isEmpty then db
  else db.put env e (SearchEngine.packId bits recordId f.slot) f.text

def putRecord (env : Env) (e : SearchEngine) (bits : UInt8) (recordId : Int64)
    (fields : List FieldValue) (db : Db) : Db :=
  fields.foldl (putField env e bits recordId)
    (db.clearRange (SearchEngine.shlOf bits recordId) (SearchEngine.hiOf bits recordId))

def putRecords (env : Env) (e : SearchEngine) (bits : UInt8) (records : List RecordIndexItem)
    (db : Db) : Db :=
  records.foldl (fun db r => db.putRecord env e bits r.recordId r.fields) db

end Db

namespace SearchEngine

variable (env : Env) (e : SearchEngine) (db : Db) (saved : Option Db) (bits : UInt8) (held : Bool)

theorem eval_putDocument (id : Int64) (text : Text) :
    (putDocument env e id text).eval (quiet db saved bits held) =
      (.ok (), quiet (db.put env e id text) saved bits held) := by
  have hfree : ({ db with docs := db.docs.erase id } : Db).docs[id]? = none := by
    rw [Table.lookup_erase, if_pos rfl]
  simp only [putDocument, Sql.deleteDoc, Sql.replaceEntry, eval_bind, Sql.eval_effect, andThen_ok]
  rw [Sql.eval_insertDoc _ _ _ _ _ hfree]
  simp only [andThen_ok, Sql.eval_effect, Table.insert_erase_self]
  rfl

theorem eval_dropDocument (id : Int64) :
    (dropDocument id).eval (quiet db saved bits held) =
      (.ok (), quiet (db.drop id) saved bits held) := by
  simp only [dropDocument, Sql.deleteDoc, Sql.deleteEntry, eval_bind, Sql.eval_effect, andThen_ok]
  rfl

theorem index_run (id : Int64) (text : Text) :
    (index env e id text).run (quiet db none bits false) =
      (.ok (), quiet (db.put env e id text) none bits false) := by
  apply run_of_eval (v := quiet (db.put env e id text) none bits false)
  simp only [index, lockedConn, eval_bind, eval_acquire_quiet, andThen_ok, eval_putDocument,
    eval_release_quiet, Option.getD_none]

theorem remove_run (id : Int64) :
    (remove id).run (quiet db none bits false) =
      (.ok (), quiet (db.drop id) none bits false) := by
  apply run_of_eval (v := quiet (db.drop id) none bits false)
  simp only [remove, lockedConn, eval_bind, eval_acquire_quiet, andThen_ok, eval_dropDocument,
    eval_release_quiet, Option.getD_none]

theorem indexBatch_run (items : List IndexItem) :
    (indexBatch env e items).run (quiet db none bits false) =
      (.ok items.length, quiet (db.putItems env e items) none bits false) := by
  cases items with
  | nil => rfl
  | cons item items =>
    apply run_of_eval (v := quiet (db.putItems env e (item :: items)) none bits true)
    rw [indexBatch, if_neg (by simp)]
    simp only [lockedConn, eval_bind, eval_acquire_quiet, andThen_ok, eval_startTx_quiet,
      eval_each_quiet _ _ _ _ (fun (item : IndexItem) db =>
        eval_putDocument env e db _ _ _ item.id item.text), eval_commitTx_quiet, eval_pure,
      Db.putItems]

theorem removeBatch_run (ids : List Int64) :
    (removeBatch ids).run (quiet db none bits false) =
      (.ok ids.length, quiet (db.dropIds ids) none bits false) := by
  cases ids with
  | nil => rfl
  | cons id ids =>
    apply run_of_eval (v := quiet (db.dropIds (id :: ids)) none bits true)
    rw [removeBatch, if_neg (by simp)]
    simp only [lockedConn, eval_bind, eval_acquire_quiet, andThen_ok, eval_startTx_quiet,
      eval_each_quiet _ _ _ _ (fun id db => eval_dropDocument db _ _ _ id), eval_commitTx_quiet,
      eval_pure, Db.dropIds]

theorem removeAll_run :
    removeAll.run (quiet db none bits false) =
      (.ok db.entries.size, quiet db.clear none bits false) := by
  apply run_of_eval (v := quiet db.clear none bits true)
  simp only [removeAll, lockedConn, Sql.countEntries, Sql.deleteDocs, Sql.deleteEntries, eval_bind,
    eval_acquire_quiet, andThen_ok, Sql.eval_query, eval_startTx_quiet, Sql.eval_effect,
    eval_commitTx_quiet, eval_pure]
  rfl

end SearchEngine

end Unfydqry
