import Unfydqry.Search.Strategy
import Unfydqry.Normalize.Steps
import Unfydqry.Lib.Checked

/-! # The engine object and the packed ids (`engine.rs`)

An engine's options and strategy never change; its `field_bits` is the atomic
cell and its connection the locked store. Every load of `field_bits` is an action
of its own. -/

namespace Unfydqry

open LockedStore

/-- The code outside the repository that an engine calls. -/
structure Env where
  unicode : Unicode
  sqlite : Sqlite

/-- An instance for runs on ASCII texts. -/
def Env.ascii : Env := { unicode := .ascii, sqlite := .plain }

structure SearchEngine where
  options : NormalizeOptions
  strategy : SearchStrategy
  deriving Repr, DecidableEq

structure FieldValue where
  slot : UInt8
  text : Text
  deriving Repr, DecidableEq

structure RecordHit where
  recordId : Int64
  score : ℚ
  matchedSlots : List UInt8
  deriving Repr, DecidableEq

structure IndexItem where
  id : Int64
  text : Text
  deriving Repr, DecidableEq

structure RecordIndexItem where
  recordId : Int64
  fields : List FieldValue
  deriving Repr, DecidableEq

inductive ReindexStatus where
  | empty
  | upToDate
  | configChanged
  deriving Repr, DecidableEq

/-- An id needs one record bit and the sign bit. -/
def MAX_FIELD_BITS : UInt8 := 62

namespace SearchEngine

/-- `self.normalizer.normalize`. -/
def normalizer (env : Env) (e : SearchEngine) (s : Text) : Text :=
  normalize env.unicode e.options s

def algorithm (env : Env) (e : SearchEngine) : SearchAlgorithm :=
  Search.buildStrategy env.sqlite e.strategy

def lockedConn : EngineM Unit := Prog.acquire (.db "connection mutex poisoned")

def fieldBits : EngineM UInt8 := Prog.read

def maxRecordId : EngineM Int64 := do
  let bits ← fieldBits
  Prog.trap (Checked.shr Int64.maxValue bits)

def recordOf (docId : Int64) : EngineM Int64 := do
  let bits ← fieldBits
  Prog.trap (Checked.shr docId bits)

/-- `(1 << bits) - 1`. -/
def lowMask (bits : UInt8) : Option Int64 :=
  (Checked.shl 1 bits).bind fun one => Checked.sub one 1

def slotOf (docId : Int64) : EngineM UInt8 := do
  let bits ← fieldBits
  let mask ← Prog.trap (lowMask bits)
  pure (Checked.asU8 (docId &&& mask))

/-- The range `[lo, hi]` of packed ids a record owns; `field_bits` is loaded twice. -/
def recordIdRange (recordId : Int64) : EngineM (Int64 × Int64) := do
  let bits ← fieldBits
  let lo ← Prog.trap (Checked.shl recordId bits)
  let bits ← fieldBits
  let mask ← Prog.trap (lowMask bits)
  pure (lo, lo ||| mask)

def clearIdRange (lo hi : Int64) : EngineM Unit := do
  Prog.stmt (Sql.deleteDocsBetween lo hi)
  Prog.stmt (Sql.deleteEntriesBetween lo hi)

def checkFieldBits (bits : UInt8) : Except SearchError Unit :=
  if 1 ≤ bits ∧ bits ≤ MAX_FIELD_BITS then .ok ()
  else .error (.db s!"field_bits must be in 1..={MAX_FIELD_BITS}, got {bits}")

/-- `?` on a result that needs no statement. -/
def orThrow {α : Type} : Except SearchError α → EngineM α
  | .ok a => pure a
  | .error e => Prog.throw e

/-- The range check at the head of every record call: the two loads and the error. -/
def checkRecordId (recordId : Int64) : EngineM UInt8 := do
  let bits ← fieldBits
  let max ← maxRecordId
  if 0 ≤ recordId ∧ recordId ≤ max then pure bits
  else Prog.throw (.db s!"record_id {recordId} out of range for field_bits {bits}")

/-- The row of `entries` for a text: its form, the form reversed, and the text. -/
def entryOf (env : Env) (e : SearchEngine) (text : Text) : Entry :=
  let norm := e.normalizer env text
  { norm := norm, normRev := some (Search.reverseChars norm), raw := some text }

end SearchEngine

end Unfydqry
