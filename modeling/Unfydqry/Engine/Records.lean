import Unfydqry.Engine.Documents
import Unfydqry.Engine.Highlight

/-! # Records: several fields packed under one record id (`engine.rs`) -/

namespace Unfydqry.SearchEngine

open LockedStore

variable (env : Env) (e : SearchEngine)

def containsRecord (recordId : Int64) : EngineM Bool := do
  let _ ← checkRecordId recordId
  let (lo, hi) ← recordIdRange recordId
  lockedConn
  Prog.stmt (Sql.existsEntryBetween lo hi)

/-- The loop that validates the slots of one record; `seen` are the slots before. -/
def checkSlots (call : String) (bits : UInt8) (slotCap : Int64) :
    List UInt8 → List FieldValue → Except SearchError Unit
  | _, [] => .ok ()
  | seen, f :: fields =>
    if Checked.ofU8 f.slot ≥ slotCap then
      .error (.db s!"slot {f.slot} does not fit in field_bits {bits}")
    else if f.slot ∈ seen then
      .error (.db s!"duplicate slot {f.slot} in {call} fields")
    else checkSlots call bits slotCap (seen ++ [f.slot]) fields

/-- Store one field of a record, unless it is empty once normalized. -/
def insertField (lo : Int64) (f : FieldValue) : EngineM Unit := do
  let norm := e.normalizer env f.text
  if norm.isEmpty then pure ()
  else do
    let id := lo ||| Checked.ofU8 f.slot
    Prog.stmt (Sql.insertDoc id norm)
    Prog.stmt (Sql.replaceEntry id
      { norm := norm, normRev := some (Search.reverseChars norm), raw := some f.text })

def indexRecord (recordId : Int64) (fields : List FieldValue) : EngineM Unit := do
  let bits ← checkRecordId recordId
  let slotCap ← Prog.trap (Checked.shl 1 bits)
  orThrow (checkSlots "index_record" bits slotCap [] fields)
  let (lo, hi) ← recordIdRange recordId
  lockedConn
  Prog.startTx
  clearIdRange lo hi
  Prog.each (insertField env e lo) fields
  Prog.commitTx

/-- The loop that validates the records of a batch. -/
def checkRecords (bits : UInt8) (maxRecord slotCap : Int64) :
    List RecordIndexItem → Except SearchError Unit
  | [] => .ok ()
  | r :: records =>
    if 0 ≤ r.recordId ∧ r.recordId ≤ maxRecord then do
      checkSlots "index_records_batch" bits slotCap [] r.fields
      checkRecords bits maxRecord slotCap records
    else .error (.db s!"record_id {r.recordId} out of range for field_bits {bits}")

def indexRecordsBatch (records : List RecordIndexItem) : EngineM ℕ :=
  if records.isEmpty then pure 0
  else do
    let bits ← fieldBits
    let maxRecord ← maxRecordId
    let slotCap ← Prog.trap (Checked.shl 1 bits)
    orThrow (checkRecords bits maxRecord slotCap records)
    lockedConn
    Prog.startTx
    Prog.each (fun r => do
      let (lo, hi) ← recordIdRange r.recordId
      clearIdRange lo hi
      Prog.each (insertField env e lo) r.fields) records
    Prog.commitTx
    pure records.length

def removeRecord (recordId : Int64) : EngineM Unit := do
  let _ ← checkRecordId recordId
  let (lo, hi) ← recordIdRange recordId
  lockedConn
  clearIdRange lo hi
  Prog.release

/-- The matching fields of one record: the best score and the fields in the order found. -/
structure RecordGroup where
  recordId : Int64
  score : ℚ
  slots : List (UInt8 × ℚ)

/-- One hit of the loop over `by_record`. -/
def addHit (recordId : Int64) (slot : UInt8) (score : ℚ) : List RecordGroup → List RecordGroup
  | [] => [{ recordId := recordId, score := score, slots := [(slot, score)] }]
  | g :: gs =>
    if g.recordId = recordId then
      { g with
        score := if score < g.score then score else g.score
        slots := g.slots ++ [(slot, score)] } :: gs
    else g :: addHit recordId slot score gs

def slotOrder (a b : UInt8 × ℚ) : Prop := a.2 < b.2 ∨ a.2 = b.2 ∧ a.1 ≤ b.1

instance : DecidableRel slotOrder := fun a b =>
  inferInstanceAs (Decidable (a.2 < b.2 ∨ a.2 = b.2 ∧ a.1 ≤ b.1))

def recordOrder (a b : RecordHit) : Prop :=
  a.score < b.score ∨ a.score = b.score ∧ a.recordId ≤ b.recordId

instance : DecidableRel recordOrder := fun a b =>
  inferInstanceAs (Decidable (a.score < b.score ∨ a.score = b.score ∧ a.recordId ≤ b.recordId))

def RecordGroup.hit (g : RecordGroup) : RecordHit where
  recordId := g.recordId
  score := g.score
  matchedSlots := (g.slots.insertionSort slotOrder).map Prod.fst

/-- Collapse decoded hits to records, best record first. -/
def collapse (decoded : List (Int64 × UInt8 × ℚ)) : List RecordHit :=
  ((decoded.foldl (fun gs d => addHit d.1 d.2.1 d.2.2 gs) []).map RecordGroup.hit).insertionSort
    recordOrder

/-- `record_of` and `slot_of` of one hit. -/
def decode (h : Hit) : EngineM (Int64 × UInt8 × ℚ) := do
  let recordId ← recordOf h.id
  let slot ← slotOf h.id
  pure (recordId, slot, h.score)

/-- `n.max(1)`. -/
def atLeastOne (n : UInt32) : UInt32 := if n = 0 then 1 else n

def searchRecords (query : Text) (limit fieldsPerRecord : UInt32) :
    EngineM (List RecordHit) :=
  let q := e.normalizer env query
  if q.isEmpty then pure []
  else do
    let rawLimit := Search.saturatingMul limit (atLeastOne fieldsPerRecord)
    lockedConn
    let hits ← (e.algorithm env).search q rawLimit
    Prog.release
    let decoded ← Prog.traverse decode hits
    pure (Search.limited limit (collapse decoded))

def highlightRecord (query : Text) (recordId : Int64) (slot : UInt8) (before after : Text) :
    EngineM (Option Text) := do
  let bits ← checkRecordId recordId
  let slotCap ← Prog.trap (Checked.shl 1 bits)
  if Checked.ofU8 slot ≥ slotCap then
    Prog.throw (.db s!"slot {slot} does not fit in field_bits {bits}")
  else do
    let lo ← Prog.trap (Checked.shl recordId bits)
    highlight env e query (lo ||| Checked.ofU8 slot) before after

/-- `fieldsPerRecord` only sizes the set of seen records. -/
def matchCountRecords (query : Text) (_fieldsPerRecord : UInt32) : EngineM ℕ :=
  let q := e.normalizer env query
  if q.isEmpty then pure 0
  else do
    lockedConn
    let hits ← (e.algorithm env).search q Search.u32Max
    Prog.release
    let bits ← fieldBits
    let seen ← Prog.traverse (fun h => Prog.trap (Checked.shr h.id bits)) hits
    pure seen.dedup.length

def searchRecordsPage (query : Text) (perPage page fieldsPerRecord : UInt32) :
    EngineM (List RecordHit) :=
  match Search.checkedMul page perPage with
  | none => Prog.throw (.db s!"page {page} * per_page {perPage} overflows u32")
  | some offset =>
    match Search.checkedAdd offset perPage with
    | none => Prog.throw (.db s!"offset {offset} + per_page {perPage} overflows u32")
    | some totalLimit => do
      let all ← searchRecords env e query totalLimit fieldsPerRecord
      pure (Search.limited perPage (all.drop offset.toNat))

/-- `SELECT id, norm, raw FROM entries` -/
def selectRows : Sql (List (Int64 × Text × Option Text)) := Sql.query fun db =>
  (env.sqlite.scan "SELECT id, norm, raw FROM entries" [] db.entries).map fun r =>
    (r.1, r.2.norm, r.2.raw)

/-- Validate one id under the new width and re-pack it. -/
def repackId (old new : UInt8) (oldMask newMaxRecord newSlotCap oldId : Int64) :
    EngineM Int64 :=
  if oldId < 0 then
    Prog.throw (.db s!"id {oldId} is not a packed record id; cannot change field_bits")
  else do
    let record ← Prog.trap (Checked.shr oldId old)
    let slot := oldId &&& oldMask
    if slot ≥ newSlotCap then
      Prog.throw (.db s!"slot {slot} does not fit in field_bits {new}")
    else if record > newMaxRecord then
      Prog.throw (.db s!"record id {record} does not fit in field_bits {new}")
    else do
      let lo ← Prog.trap (Checked.shl record new)
      pure (lo ||| slot)

def repackRow (old new : UInt8) (oldMask newMaxRecord newSlotCap : Int64)
    (row : Int64 × Text × Option Text) : EngineM (Int64 × Text × Option Text) := do
  let id ← repackId old new oldMask newMaxRecord newSlotCap row.1
  pure (id, row.2)

def insertRow (row : Int64 × Text × Option Text) : EngineM Unit := do
  Prog.stmt (Sql.insertDoc row.1 row.2.1)
  Prog.stmt (Sql.insertEntry row.1
    { norm := row.2.1, normRev := some (Search.reverseChars row.2.1), raw := row.2.2 })

/-- `bits.to_string()`. -/
def bitsText (bits : UInt8) : Text := Nat.toDigits 10 bits.toNat

def stampFieldBits (bits : UInt8) : EngineM Unit :=
  Prog.stmt (Sql.replaceFieldBits (bitsText bits))

def changeFieldBits (new : UInt8) : EngineM ℕ := do
  orThrow (checkFieldBits new)
  lockedConn
  let old ← fieldBits
  if new = old then pure 0
  else do
    let oldMask ← Prog.trap (lowMask old)
    let newMaxRecord ← Prog.trap (Checked.shr Int64.maxValue new)
    let newSlotCap ← Prog.trap (Checked.shl 1 new)
    let rows ← Prog.stmt (selectRows env)
    let rows ← Prog.traverse (repackRow old new oldMask newMaxRecord newSlotCap) rows
    Prog.startTx
    Prog.stmt Sql.deleteDocs
    Prog.stmt Sql.deleteEntries
    Prog.each insertRow rows
    stampFieldBits new
    Prog.commitTx
    Prog.write new
    pure rows.length

end Unfydqry.SearchEngine
