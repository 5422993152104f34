import Unfydqry.Flutter.Lifetime

/-! # What a future completes with

The plugin writes the engine's answer as numbers, strings, lists and maps, and the Dart class
reads the type it expects back from them. The slots of a record hit are bytes: Kotlin holds
them in a `ByteArray`, whose elements are signed, and hands them on with their sign. -/

namespace Unfydqry.Flutter

open LockedStore

/-! ### The plugin: what `result.success` is given -/

/-- The keys of the maps of a result. -/
inductive ResultKey where
  | id | score | recordId | matchedSlots
  deriving Repr, DecidableEq

inductive Returned where
  | null
  | int (i : Int64)
  | double (q : ℚ)
  | str (s : Text)
  | list (xs : List Returned)
  | map (kvs : List (ResultKey × Returned))

/-- The Kotlin enum name; `wireName` in Swift and in Dart. -/
def statusName : ReindexStatus → String
  | .empty => "EMPTY"
  | .upToDate => "UP_TO_DATE"
  | .configChanged => "CONFIG_CHANGED"

/-- `Byte.toInt()` and `Int(UInt8)`. -/
def slotNumber (p : Platform) (slot : UInt8) : Int64 :=
  match p with
  | .android => slot.toInt8.toInt64
  | .ios => Int64.ofNat slot.toNat

def hitMap (h : Hit) : Returned := .map [(.id, .int h.id), (.score, .double h.score)]

def recordHitMap (p : Platform) (h : RecordHit) : Returned :=
  .map
    [(.recordId, .int h.recordId), (.score, .double h.score),
      (.matchedSlots, .list (h.matchedSlots.map fun s => .int (slotNumber p s)))]

/-- A count stays below `2 ^ 63`, where `toLong()` and `Int(_:)` keep it. -/
def Payload.returned (p : Platform) : Payload → Returned
  | .null | .string none => .null
  | .handle h => .int h
  | .string (some s) => .str s
  | .status s => .str (statusName s).toList
  | .count n => .int (Int64.ofNat n)
  | .hits hs => .list (hs.map hitMap)
  | .records hs => .list (hs.map (recordHitMap p))

/-! ### The Dart class: reading a result -/

structure DartRecordHit where
  recordId : Int64
  score : ℚ
  matchedSlots : List Int64
  deriving DecidableEq

/-- The value of a future. -/
inductive DartValue where
  | void
  | engine (handle : Int64)
  | text (s : Option Text)
  | status (s : ReindexStatus)
  | count (n : Int64)
  | hits (hits : List Hit)
  | records (hits : List DartRecordHit)
  deriving DecidableEq

inductive Thrown where
  /-- `PlatformException` -/
  | platform (f : Fault)
  | missingPlugin
  /-- `SearchException`, without the text of the error it was made from. -/
  | search (message : String)
  /-- The result is not of the type `invokeMethod` was called with. -/
  | type
  deriving DecidableEq

abbrev Completion := Except Thrown DartValue

def intResult : Returned → Except Thrown (Option Int64)
  | .null => .ok none
  | .int i => .ok (some i)
  | _ => .error .type

def stringResult : Returned → Except Thrown (Option Text)
  | .null => .ok none
  | .str s => .ok (some s)
  | _ => .error .type

def listResult : Returned → Except Thrown (Option (List Returned))
  | .null => .ok none
  | .list xs => .ok (some xs)
  | _ => .error .type

/-- `(x as num).toInt()`; a double is cut towards zero and to the range of an `int`. -/
def numToInt : Returned → Option Int64
  | .int i => some i
  | .double q => some (Int64.ofInt (max (-2 ^ 63) (min (2 ^ 63 - 1) (q.num.tdiv q.den))))
  | _ => none

/-- `(x as num).toDouble()` -/
def numToDouble : Returned → Option ℚ
  | .int i => some i.toInt
  | .double q => some q
  | _ => none

def slotsOf : Returned → Option (List Int64)
  | .list xs => xs.mapM numToInt
  | _ => none

def hitOf : Returned → Option Hit
  | .map kvs => do
    let id ← (kvs.lookup .id).bind numToInt
    let score ← (kvs.lookup .score).bind numToDouble
    some { id := id, score := score }
  | _ => none

def recordHitOf : Returned → Option DartRecordHit
  | .map kvs => do
    let recordId ← (kvs.lookup .recordId).bind numToInt
    let score ← (kvs.lookup .score).bind numToDouble
    let matchedSlots ← (kvs.lookup .matchedSlots).bind slotsOf
    some { recordId := recordId, score := score, matchedSlots := matchedSlots }
  | _ => none

def statuses : List ReindexStatus := [.empty, .upToDate, .configChanged]

/-- `ReindexStatus.fromWire` -/
def fromWire (wire : Option Text) : ReindexStatus :=
  (statuses.find? fun s => some (statusName s).toList = wire).getD .upToDate

/-- The part of `search` that is tried. -/
def hitsOf (raw : Option (List Returned)) : Completion :=
  match (raw.getD []).mapM hitOf with
  | some hits => .ok (.hits hits)
  | none => .error (.search "malformed hit payload")

/-- The part of `searchRecords` that is tried. -/
def recordHitsOf (raw : Option (List Returned)) : Completion :=
  match (raw.getD []).mapM recordHitOf with
  | some hits => .ok (.records hits)
  | none => .error (.search "malformed record hit payload")

/-- How a method reads the result of its call. -/
def ApiCall.read (r : Returned) : ApiCall → Completion
  | .index _ _ | .remove _ | .indexRecord _ _ | .removeRecord _ => .ok .void
  | .indexBatch _ | .removeBatch _ | .indexRecordsBatch _ | .changeFieldBits _ => do
    let n ← intResult r
    pure (.count (n.getD 0))
  | .search _ _ => do
    let raw ← listResult r
    hitsOf raw
  | .searchRecords _ _ _ => do
    let raw ← listResult r
    recordHitsOf raw
  | .highlight _ _ _ _ => do
    let s ← stringResult r
    pure (.text s)

def Sent.read (r : Returned) : Sent → Completion
  | .open _ _ => do
    let handle ← intResult r
    match handle with
    | some handle => pure (.engine handle)
    | none => throw (.search "open returned null handle")
  | .ask (.normalize _ _) => do
    let out ← stringResult r
    pure (.text (some (out.getD [])))
  | .ask (.reindexStatus _ _) => do
    let wire ← stringResult r
    pure (.status (fromWire wire))
  | .call _ c => c.read r
  | .dispose _ => .ok .void

def dartRecordHit (p : Platform) (h : RecordHit) : DartRecordHit where
  recordId := h.recordId
  score := h.score
  matchedSlots := h.matchedSlots.map (slotNumber p)

/-- The engine's answer as a value of the Dart class. -/
def Payload.value (p : Platform) : Payload → DartValue
  | .null => .void
  | .handle h => .engine h
  | .string s => .text s
  | .status s => .status s
  | .count n => .count (Int64.ofNat n)
  | .hits hs => .hits hs
  | .records hs => .records (hs.map (dartRecordHit p))

def Response.value (p : Platform) : Response → Option Completion
  | .success v => some (.ok (v.value p))
  | .error .crash => none
  | .error f => some (.error (.platform f))
  | .notImplemented => some (.error .missingPlugin)

/-- The payloads a method of an object expects. -/
def ApiCall.Expects : ApiCall → Payload → Prop
  | .index _ _, v | .remove _, v | .indexRecord _ _, v | .removeRecord _, v => v = .null
  | .indexBatch _, v | .removeBatch _, v | .indexRecordsBatch _, v | .changeFieldBits _, v =>
    ∃ n, v = .count n
  | .search _ _, v => ∃ hits, v = .hits hits
  | .searchRecords _ _ _, v => ∃ hits, v = .records hits
  | .highlight _ _ _ _, v => ∃ s, v = .string s

def Sent.Expects : Sent → Payload → Prop
  | .open _ _, v => ∃ h, v = .handle h
  | .ask (.normalize _ _), v => ∃ s, v = .string (some s)
  | .ask (.reindexStatus _ _), v => ∃ s, v = .status s
  | .call _ c, v => c.Expects v
  | .dispose _, v => v = .null

/-! ### Reading what was written -/

/-- A response whose payload is the one the method expects. -/
def Fits (q : Sent × Response) : Prop := ∀ v, q.2 = .success v → q.1.Expects v

namespace Channel

end Channel

/-! ### What the caller gets -/

theorem slotNumber_eq_iff (p : Platform) (slot : UInt8) :
    slotNumber p slot = Int64.ofNat slot.toNat ↔ p = .ios ∨ slot.toNat < 128 := by
  have hs := slot.toNat_lt
  have hnat : (Int64.ofNat slot.toNat).toInt = slot.toNat := Checked.toInt_ofU8 slot
  cases p with
  | ios => exact iff_of_true rfl (.inl rfl)
  | android =>
    have hsigned : slot.toInt8.toInt = if 2 * slot.toNat < 2 ^ 8 then (slot.toNat : ℤ)
        else slot.toNat - (2 ^ 8 : ℕ) := BitVec.toInt_eq_toNat_cond slot.toBitVec
    rw [← Int64.toInt_inj, hnat]
    show slot.toInt8.toInt64.toInt = _ ↔ _
    rw [Int8.toInt_toInt64, hsigned]
    simp only [reduceCtorEq, false_or]
    by_cases h : slot.toNat < 128
    · rw [if_pos (by omega)]
      exact iff_of_true rfl h
    · rw [if_neg (by omega)]
      exact iff_of_false (by push_cast; omega) h
end Unfydqry.Flutter
