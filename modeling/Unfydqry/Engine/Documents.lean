import Unfydqry.Engine.Types

/-! # Documents: `index`, `remove`, their batches, `reindex` (`engine.rs`) -/

namespace Unfydqry.SearchEngine

open LockedStore

variable (env : Env) (e : SearchEngine)

/-- Replace one document: the three statements of `index` and of a step of `index_batch`. -/
def putDocument (id : Int64) (text : Text) : EngineM Unit := do
  let norm := e.normalizer env text
  Prog.stmt (Sql.deleteDoc id)
  Prog.stmt (Sql.insertDoc id norm)
  Prog.stmt (Sql.replaceEntry id
    { norm := norm, normRev := some (Search.reverseChars norm), raw := some text })

/-- Delete one document: the two statements of `remove` and of a step of `remove_batch`. -/
def dropDocument (id : Int64) : EngineM Unit := do
  Prog.stmt (Sql.deleteDoc id)
  Prog.stmt (Sql.deleteEntry id)

def index (id : Int64) (text : Text) : EngineM Unit := do
  lockedConn
  putDocument env e id text
  Prog.release

def remove (id : Int64) : EngineM Unit := do
  lockedConn
  dropDocument id
  Prog.release

def indexBatch (items : List IndexItem) : EngineM ℕ :=
  if items.isEmpty then pure 0
  else do
    lockedConn
    Prog.startTx
    Prog.each (fun item => putDocument env e item.id item.text) items
    Prog.commitTx
    pure items.length

def removeBatch (ids : List Int64) : EngineM ℕ :=
  if ids.isEmpty then pure 0
  else do
    lockedConn
    Prog.startTx
    Prog.each dropDocument ids
    Prog.commitTx
    pure ids.length

def removeAll : EngineM ℕ := do
  lockedConn
  let count ← Prog.stmt Sql.countEntries
  Prog.startTx
  Prog.stmt Sql.deleteDocs
  Prog.stmt Sql.deleteEntries
  Prog.commitTx
  pure count

/-- `SELECT id, raw FROM entries WHERE raw IS NOT NULL` -/
def selectRaws : Sql (List (Int64 × Text)) := Sql.query fun db =>
  (env.sqlite.scan "SELECT id, raw FROM entries WHERE raw IS NOT NULL" [] db.entries).filterMap
    fun r => r.2.raw.map fun raw => (r.1, raw)

/-- One document of `reindex`. -/
def renewDocument (row : Int64 × Text) : EngineM Unit := do
  let norm := e.normalizer env row.2
  Prog.stmt (Sql.updateNorms row.1 norm (Search.reverseChars norm))
  Prog.stmt (Sql.deleteDoc row.1)
  Prog.stmt (Sql.insertDoc row.1 norm)

def reindex : EngineM ℕ := do
  lockedConn
  let rows ← Prog.stmt (selectRaws env)
  Prog.startTx
  Prog.each (renewDocument env e) rows
  Prog.stmt (Sql.replaceProfile e.options.fingerprint)
  Prog.commitTx
  pure rows.length

def contains (id : Int64) : EngineM Bool := do
  lockedConn
  Prog.stmt (Sql.existsEntry id)

def documentCount : EngineM ℕ := do
  lockedConn
  Prog.stmt Sql.countEntries

def search (query : Text) (limit : UInt32) : EngineM (List Hit) :=
  let q := e.normalizer env query
  if q.isEmpty then pure []
  else do
    lockedConn
    (e.algorithm env).search q limit

def searchPage (query : Text) (perPage page : UInt32) : EngineM (List Hit) :=
  let q := e.normalizer env query
  if q.isEmpty then pure []
  else
    match Search.checkedMul page perPage with
    | none => Prog.throw (.db s!"page {page} * per_page {perPage} overflows u32")
    | some offset => do
      lockedConn
      (e.algorithm env).searchPaged q perPage offset

def matchCount (query : Text) : EngineM ℕ :=
  let q := e.normalizer env query
  if q.isEmpty then pure 0
  else do
    lockedConn
    (e.algorithm env).matchCount q

end Unfydqry.SearchEngine
