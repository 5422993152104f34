import Unfydqry.Catalog
import Unfydqry.Lib.Turns

/-! # Two handles on one file

Two engines are opened on the same index file. Each has its own mutex and its own
`field_bits`, runs its calls one after another and sees of the other only the file. A
statement outside a transaction and a transaction are one step each. -/

namespace Unfydqry

open LockedStore SearchEngine

/-- The stored width, as an open reads it. -/
def Db.width (db : Db) : UInt8 := (db.metaTable.fieldBits.bind parseU8).getD DEFAULT_FIELD_BITS

/-- What a call that succeeds makes of the texts that are to be in the index: records are
those of the stored width. -/
def Call.keeps (env : Env) (e : SearchEngine) (width : UInt8) (texts : Catalog) : Call → Catalog
  | .index id text => texts.insert id text
  | .remove id => texts.erase id
  | .indexBatch items => Catalog.putItems items texts
  | .removeBatch ids => Catalog.dropIds ids texts
  | .removeAll => ∅
  | .indexRecord r fields => Catalog.putRecord env e.options width r fields texts
  | .indexRecordsBatch records => Catalog.putRecords env e.options width records texts
  | .removeRecord r => Catalog.clearRange (shlOf width r) (hiOf width r) texts
  | .changeFieldBits new => if new = width then texts else Catalog.repacked width new texts
  | _ => texts

/-- The rows a call reads or writes, as ranges of ids. -/
inductive Access where
  | none
  | rows (ranges : List (Int64 × Int64))
  | all

namespace Access

def Apart : Access → Access → Prop
  | .none, _ => True
  | _, .none => True
  | .rows l, .rows l' => ∀ a ∈ l, ∀ b ∈ l', a.2 < b.1 ∨ b.2 < a.1
  | _, _ => False

instance : (a b : Access) → Decidable (a.Apart b)
  | .none, _ => isTrue trivial
  | .rows _, .none => isTrue trivial
  | .rows l, .rows l' =>
    haveI (a : Int64 × Int64) : Decidable (∀ b ∈ l', a.2 < b.1 ∨ b.2 < a.1) :=
      List.decidableBAll _ l'
    List.decidableBAll _ l
  | .rows _, .all => isFalse id
  | .all, .none => isTrue trivial
  | .all, .rows _ => isFalse id
  | .all, .all => isFalse id

end Access

/-- A call that only reads asks nothing of the other handle. -/
def Call.access (bits : UInt8) : Call → Access
  | .index id _ => .rows [(id, id)]
  | .remove id => .rows [(id, id)]
  | .indexBatch items => .rows (items.map fun item => (item.id, item.id))
  | .removeBatch ids => .rows (ids.map fun id => (id, id))
  | .indexRecord r _ => .rows [(shlOf bits r, hiOf bits r)]
  | .indexRecordsBatch records =>
    .rows (records.map fun r => (shlOf bits r.recordId, hiOf bits r.recordId))
  | .removeRecord r => .rows [(shlOf bits r, hiOf bits r)]
  | .removeAll | .reindex | .changeFieldBits _ => .all
  | _ => .none

/-- A call on an open engine, or a constructor. -/
inductive Job where
  | call (o : OpenEngine) (c : Call)
  | opening (c : Constructor)

namespace Job

def prog (env : Env) : Job → EngineM (Option SearchEngine)
  | .call o c => do
    let _ ← c.prog env o.engine
    pure none
  | .opening c => some <$> c.prog env

def world (file : Db) : Job → EngineWorld
  | .call o _ => Host.world file o
  | .opening _ => Host.openWorld file

def access : Job → Access
  | .call o c => c.access o.fieldBits
  | .opening _ => .all

def keeps (env : Env) (width : UInt8) (texts : Catalog) : Job → Catalog
  | .call o c => c.keeps env o.engine width texts
  | .opening _ => texts

/-- The texts that are to be in the index once the job has returned. -/
def kept (env : Env) (width : UInt8) (texts : Catalog) (job : Job) :
    Outcome SearchError (Option SearchEngine) → Catalog
  | .ok _ => job.keeps env width texts
  | _ => texts

/-- The engine of the handle after the job. -/
def after (w : EngineWorld) : Job → Outcome SearchError (Option SearchEngine) → Option OpenEngine
  | .call o _, _ => some { o with fieldBits := w.cell, poisoned := w.poisoned }
  | .opening _, .ok (some engine) =>
    some { engine := engine, fieldBits := w.cell, poisoned := w.poisoned }
  | .opening _, _ => none

end Job

/-- A job under way; its world is that of its last turn, with the file as it was then. -/
structure Task where
  job : Job
  prog : EngineM (Option SearchEngine)
  world : EngineWorld
  turns : ℕ := 0

def Job.task (env : Env) (file : Db) (job : Job) : Task :=
  { job := job, prog := job.prog env, world := job.world file }

structure Handle where
  opened : Option OpenEngine := none
  task : Option Task := none

/-- `kept` is bookkeeping of the model: the texts that the calls which have returned should
have left in the index. -/
structure Shared where
  file : Db := .fresh
  kept : Catalog := ∅
  handles : Bool → Handle := fun _ => {}

inductive Event where
  | start (i : Bool) (a : Action)
  | turn (i : Bool)

namespace Shared

variable (env : Env)

/-- Handle `i` begins a call; no statement runs yet. -/
def start (s : Shared) (i : Bool) : Action → Shared
  | .close => { s with handles := Function.update s.handles i {} }
  | .reopen c =>
    { s with
      handles := Function.update s.handles i
        { opened := none, task := some ((Job.opening c).task env s.file) } }
  | .call c =>
    match (s.handles i).opened with
    | none => s
    | some o =>
      { s with
        handles := Function.update s.handles i
          { opened := some o, task := some ((Job.call o c).task env s.file) } }

/-- The job has returned `o`. -/
def finish (s : Shared) (i : Bool) (job : Job) (o : Outcome SearchError (Option SearchEngine))
    (w : EngineWorld) : Shared where
  file := w.db
  kept := job.kept env s.file.width s.kept o
  handles := Function.update s.handles i { opened := job.after w o }

/-- Handle `i` performs its next statement or transaction. -/
def turn (s : Shared) (i : Bool) : Shared :=
  match (s.handles i).task with
  | none => s
  | some t =>
    match t.prog.turn { t.world with db := s.file } with
    | (.done o, w) => s.finish env i t.job o (w.leave o)
    | (p, w) =>
      { s with
        file := w.db
        handles := Function.update s.handles i
          { s.handles i with task := some { t with prog := p, world := w, turns := t.turns + 1 } } }

def step (s : Shared) : Event → Shared
  | .start i a => if (s.handles i).task.isSome then s else s.start env i a
  | .turn i => s.turn env i

def run (s : Shared) (events : List Event) : Shared := events.foldl (step env) s

/-- All calls have finished. -/
def Idle (s : Shared) : Prop := ∀ i, (s.handles i).task.isNone = true

end Shared

end Unfydqry
