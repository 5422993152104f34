import Unfydqry.Flutter.Wire

/-! # The plugin (`UnfydqryPlugin.kt`, `UnfydqryPlugin.swift`)

Each open engine is kept under an integer handle that is returned to Dart on `open` and
passed back on every call. The channel delivers calls one after another on the main thread.
Engines on one path share the file, each with its own connection and width. -/

namespace Unfydqry.Flutter

open LockedStore

structure Engine where
  path : Text
  opened : OpenEngine

/-- What a call answers, before it is written for Dart. -/
inductive Payload where
  | null
  | handle (h : Int64)
  | string (s : Option Text)
  | status (s : ReindexStatus)
  | count (n : ℕ)
  | hits (hits : List Hit)
  | records (hits : List RecordHit)
  deriving Repr, DecidableEq

inductive Response where
  | success (v : Payload)
  | error (f : Fault)
  | notImplemented
  deriving Repr, DecidableEq

structure Plugin where
  engines : Table Int64 Engine := ∅
  nextHandle : Int64 := 0
  files : Text → Db := fun _ => .fresh

/-- The payload of an engine's reply; no method of the plugin answers a flag. -/
def payload : Reply → Payload
  | .unit | .flag _ => .null
  | .count n => .count n
  | .hits hits => .hits hits
  | .records hits => .records hits
  | .text text => .string text

/-- What the channel gets of a call of the engine: `SearchException`, or any other. -/
def answer {α : Type} (value : α → Payload) : Outcome SearchError α → Response
  | .ok a => .success (value a)
  | .err e => .error (.search e)
  | .panic => .error .plugin

namespace Plugin

def setFile (st : Plugin) (path : Text) (db : Db) : Plugin :=
  { st with files := fun p => if p = path then db else st.files p }

/-- `nextHandle++`: a Kotlin `Int` wraps. -/
def increment (p : Platform) (i : Int64) : Int64 :=
  match p with
  | .android => (i + 1).toInt32.toInt64
  | .ios => i + 1

/-- The engine of the call's `handle`. -/
def engine (p : Platform) (st : Plugin) (args : Args) : Read (Int64 × Engine) := do
  let handle ← intArg p args .handle
  match st.engines[handle]? with
  | some e => pure (handle, e)
  | none => throw (.noEngine handle)

/-- The plugin after a constructor that failed. Kotlin takes the handle before it constructs
the engine, Swift after. -/
def unopened (p : Platform) (st : Plugin) (path : Text) (db : Db) : Plugin :=
  match p with
  | .android => { st.setFile path db with nextHandle := increment .android st.nextHandle }
  | .ios => st.setFile path db

/-- The plugin after a constructor, under the next handle if it made an engine. -/
def opened (p : Platform) (st : Plugin) (path : Text) (w : EngineWorld) :
    Outcome SearchError SearchEngine → Plugin × Response
  | .ok e =>
    ({ st.setFile path w.db with
        nextHandle := increment p st.nextHandle
        engines := st.engines.insert st.nextHandle
          { path := path
            opened := { engine := e, fieldBits := w.cell, poisoned := w.poisoned } } },
      .success (.handle st.nextHandle))
  | .err e => (st.unopened p path w.db, .error (.search e))
  | .panic => (st.unopened p path w.db, .error .plugin)

/-- Open a file. -/
def construct (p : Platform) (env : Env) (st : Plugin) (path : Text) (c : Constructor) :
    Plugin × Response :=
  let r := (c.prog env).run (Host.openWorld (st.files path))
  st.opened p path r.2 r.1

/-- A call on the engine under a handle. -/
def call (env : Env) (st : Plugin) (handle : Int64) (e : Engine) (c : Call) :
    Plugin × Response :=
  let r := (c.prog env e.opened.engine).run (Host.world (st.files e.path) e.opened)
  let opened := { e.opened with fieldBits := r.2.cell, poisoned := r.2.poisoned }
  ({ st.setFile e.path r.2.db with
      engines := st.engines.insert handle { e with opened := opened } },
    answer payload r.1)

/-- The arguments are read first, then the engine is looked up, then the arguments are
converted. -/
def serve {α : Type} (p : Platform) (env : Env) (st : Plugin) (args : Args) (read : Read α)
    (convert : α → Read Call) : Plugin × Response :=
  match (do
    let a ← read
    let e ← st.engine p args
    let c ← convert a
    pure (e, c) : Read ((Int64 × Engine) × Call)) with
  | .ok (e, c) => st.call env e.1 e.2 c
  | .error f => (st, .error f)

def reindexStatus (env : Env) (st : Plugin) (path : Text) (o : NormalizeOptions) :
    Plugin × Response :=
  let r := (SearchEngine.reindexStatusWithOptions env o).run (Host.openWorld (st.files path))
  (st.setFile path r.2.db, answer .status r.1)

def opening (p : Platform) (args : Args) (constructor : EngineOptionsConfig → Constructor) :
    Read (Text × Constructor) := do
  let path ← stringArg p args .dbPath
  let config ← engineConfig p args
  pure (path, constructor config)

/-- `onMethodCall`, `handle(_:result:)` -/
def onMethodCall (p : Platform) (env : Env) (st : Plugin) (m : Message) : Plugin × Response :=
  let args := m.args
  match m.method with
  | .open =>
    match stringArg p args .dbPath with
    | .ok path => st.construct p env path .new
    | .error f => (st, .error f)
  | .openWithOptions =>
    match opening p args .withOptions with
    | .ok (path, c) => st.construct p env path c
    | .error f => (st, .error f)
  | .openWithOptionsRebuilding =>
    match opening p args .withOptionsRebuilding with
    | .ok (path, c) => st.construct p env path c
    | .error f => (st, .error f)
  | .normalizeWithOptions =>
    match (do
      let input ← stringArg p args .input
      let o ← normalizeOptions p args
      pure (normalize env.unicode o input) : Read Text) with
    | .ok text => (st, .success (.string (some text)))
    | .error f => (st, .error f)
  | .reindexStatusWithOptions =>
    match (do
      let path ← stringArg p args .dbPath
      let o ← normalizeOptions p args
      pure (path, o) : Read (Text × NormalizeOptions)) with
    | .ok (path, o) => st.reindexStatus env path o
    | .error f => (st, .error f)
  | .index =>
    st.serve p env args
      (do
        let id ← longArg p args .id
        let text ← stringArg p args .text
        pure (id, text))
      fun a => .ok (.index a.1 a.2)
  | .indexBatch =>
    st.serve p env args (mapsArg p args .items) fun items => do
      let items ← collect (indexItem p) items
      pure (.indexBatch items)
  | .remove => st.serve p env args (longArg p args .id) fun id => .ok (.remove id)
  | .removeBatch =>
    st.serve p env args (listArg p args .ids) fun ids => .ok (.removeBatch (idList p ids))
  | .search =>
    st.serve p env args
      (do
        let query ← stringArg p args .query
        let limit ← intArg p args .limit
        pure (query, limit))
      fun a => do
        let limit ← toUInt p a.2
        pure (.search a.1 limit)
  | .indexRecord =>
    st.serve p env args
      (do
        let recordId ← longArg p args .recordId
        let fields ← mapsArg p args .fields
        pure (recordId, fields))
      fun a => do
        let fields ← collect (fieldValue p) a.2
        pure (.indexRecord a.1 fields)
  | .indexRecordsBatch =>
    st.serve p env args (mapsArg p args .records) fun records => do
      let records ← collect (recordIndexItem p) records
      pure (.indexRecordsBatch records)
  | .removeRecord =>
    st.serve p env args (longArg p args .recordId) fun recordId => .ok (.removeRecord recordId)
  | .searchRecords =>
    st.serve p env args
      (do
        let query ← stringArg p args .query
        let limit ← intArg p args .limit
        let fieldsPerRecord ← intArg p args .fieldsPerRecord
        pure (query, limit, fieldsPerRecord))
      fun a => do
        let limit ← toUInt p a.2.1
        let fieldsPerRecord ← toUInt p a.2.2
        pure (.searchRecords a.1 limit fieldsPerRecord)
  | .highlight =>
    st.serve p env args
      (do
        let query ← stringArg p args .query
        let id ← longArg p args .id
        let before ← stringArg p args .before
        let after ← stringArg p args .after
        pure (query, id, before, after))
      fun a => .ok (.highlight a.1 a.2.1 a.2.2.1 a.2.2.2)
  | .changeFieldBits =>
    st.serve p env args
      (match p with
        | .android => intArg p args .newFieldBits
        | .ios => longArg p args .newFieldBits)
      fun n => .ok (.changeFieldBits (toUByte n))
  | .dispose =>
    match intArg p args .handle with
    | .ok handle => ({ st with engines := st.engines.erase handle }, .success .null)
    | .error f => (st, .error f)
  | .other => (st, .notImplemented)

end Plugin

end Unfydqry.Flutter
