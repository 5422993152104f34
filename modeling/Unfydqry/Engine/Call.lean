import Unfydqry.Engine.Open

/-! # The calls of an engine, the constructors, and a host with one file

The programs above as values: a call on an engine, a constructor, and the state
of a host that has one index file and at most one engine open on it. -/

namespace Unfydqry

open LockedStore

inductive Call where
  | index (id : Int64) (text : Text)
  | remove (id : Int64)
  | indexBatch (items : List IndexItem)
  | removeBatch (ids : List Int64)
  | removeAll
  | indexRecord (recordId : Int64) (fields : List FieldValue)
  | indexRecordsBatch (records : List RecordIndexItem)
  | removeRecord (recordId : Int64)
  | reindex
  | changeFieldBits (new : UInt8)
  | contains (id : Int64)
  | documentCount
  | search (query : Text) (limit : UInt32)
  | searchPage (query : Text) (perPage page : UInt32)
  | matchCount (query : Text)
  | highlight (query : Text) (id : Int64) (before after : Text)
  | containsRecord (recordId : Int64)
  | searchRecords (query : Text) (limit fieldsPerRecord : UInt32)
  | searchRecordsPage (query : Text) (perPage page fieldsPerRecord : UInt32)
  | matchCountRecords (query : Text) (fieldsPerRecord : UInt32)
  | highlightRecord (query : Text) (recordId : Int64) (slot : UInt8) (before after : Text)

inductive Reply where
  | unit
  | flag (b : Bool)
  | count (n : ℕ)
  | hits (hits : List Hit)
  | records (records : List RecordHit)
  | text (text : Option Text)
  deriving Repr, DecidableEq

open SearchEngine in
def Call.prog (env : Env) (e : SearchEngine) : Call → EngineM Reply
  | .index id text => do SearchEngine.index env e id text; pure .unit
  | .remove id => do SearchEngine.remove id; pure .unit
  | .indexBatch items => .count <$> SearchEngine.indexBatch env e items
  | .removeBatch ids => .count <$> SearchEngine.removeBatch ids
  | .removeAll => .count <$> SearchEngine.removeAll
  | .indexRecord r fields => do SearchEngine.indexRecord env e r fields; pure .unit
  | .indexRecordsBatch records => .count <$> SearchEngine.indexRecordsBatch env e records
  | .removeRecord r => do SearchEngine.removeRecord r; pure .unit
  | .reindex => .count <$> SearchEngine.reindex env e
  | .changeFieldBits new => .count <$> SearchEngine.changeFieldBits env new
  | .contains id => .flag <$> SearchEngine.contains id
  | .documentCount => .count <$> SearchEngine.documentCount
  | .search q limit => .hits <$> SearchEngine.search env e q limit
  | .searchPage q perPage page => .hits <$> SearchEngine.searchPage env e q perPage page
  | .matchCount q => .count <$> SearchEngine.matchCount env e q
  | .highlight q id before after => .text <$> SearchEngine.highlight env e q id before after
  | .containsRecord r => .flag <$> SearchEngine.containsRecord r
  | .searchRecords q limit n => .records <$> SearchEngine.searchRecords env e q limit n
  | .searchRecordsPage q perPage page n =>
    .records <$> SearchEngine.searchRecordsPage env e q perPage page n
  | .matchCountRecords q n => .count <$> SearchEngine.matchCountRecords env e q n
  | .highlightRecord q r slot before after =>
    .text <$> SearchEngine.highlightRecord env e q r slot before after

/-- The calls that may change the index. -/
def Call.Mutating : Call → Prop
  | .index .. | .remove .. | .indexBatch .. | .removeBatch .. | .removeAll | .indexRecord ..
  | .indexRecordsBatch .. | .removeRecord .. | .reindex | .changeFieldBits .. => True
  | _ => False

inductive Constructor where
  | new
  | withConfig (config : EngineConfig)
  | withConfigRebuilding (config : EngineConfig)
  | withOptions (config : EngineOptionsConfig)
  | withOptionsRebuilding (config : EngineOptionsConfig)

def Constructor.prog (env : Env) : Constructor → EngineM SearchEngine
  | .new => SearchEngine.new env
  | .withConfig config => SearchEngine.withConfig env config
  | .withConfigRebuilding config => SearchEngine.withConfigRebuilding env config
  | .withOptions config => SearchEngine.withOptions env config
  | .withOptionsRebuilding config => SearchEngine.withOptionsRebuilding env config

/-- An engine with its atomic and the state of its mutex. -/
structure OpenEngine where
  engine : SearchEngine
  fieldBits : UInt8
  poisoned : Bool := false
  deriving Repr, DecidableEq

structure Host where
  file : Db := .fresh
  opened : Option OpenEngine := none

inductive Action where
  | call (c : Call)
  /-- Close the open engine, if any, and open the file again. -/
  | reopen (c : Constructor)
  | close

namespace Host

/-- The world of a call on the open engine, no statement failing. -/
def world (file : Db) (o : OpenEngine) : EngineWorld :=
  { db := file, cell := o.fieldBits, poisoned := o.poisoned }

/-- The world of a constructor: the engine's cell does not exist yet. -/
def openWorld (file : Db) : EngineWorld := { db := file, cell := 0 }

def step (env : Env) (h : Host) : Action → Host
  | .close => { h with opened := none }
  | .call c =>
    match h.opened with
    | none => h
    | some o =>
      let w := ((c.prog env o.engine).run (world h.file o)).2
      { file := w.db
        opened := some { o with fieldBits := w.cell, poisoned := w.poisoned } }
  | .reopen c =>
    match (c.prog env).run (openWorld h.file) with
    | (.ok engine, w) =>
      { file := w.db
        opened := some { engine := engine, fieldBits := w.cell, poisoned := w.poisoned } }
    | (_, w) => { file := w.db, opened := none }

def run (env : Env) (h : Host) (actions : List Action) : Host :=
  actions.foldl (step env) h

end Host

end Unfydqry
