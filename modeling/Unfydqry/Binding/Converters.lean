import Unfydqry.Lib.Codec
import Unfydqry.Binding.Strings
import Unfydqry.Binding.Values

/-! # The converters of the two bindings (`unfydqry.kt`, `UnifiedQuery.swift`)

Kotlin and Swift write values for Rust, and read Rust's, as big-endian bytes. Each side has
its own converter for every type. A length or a variant is a signed `Int` of four bytes, and
a negative one fails on both sides. -/

namespace Unfydqry.Binding

open Codec (Bytes Reader Converter join be nat bytes)

/-- What an `Int` can count. -/
def MAX_LENGTH : ℕ := 2 ^ 31

/-- The four bytes of an `Int`. -/
def int : Converter UInt32 := .number 4 UInt32.toNat UInt32.ofNat

/-- The rest of an error, after the number of its variant. -/
def errorFields {S : Type} (string : Converter S) (ubyte : Converter UInt8) :
    ℕ → Reader (SearchError S)
  | 1 => do
    let v1 ← string.read
    pure (.db v1)
  | 2 => do
    let fields ← (string.both string).read
    pure (.configMismatch fields.1 fields.2)
  | 3 => do
    let fields ← (ubyte.both ubyte).read
    pure (.fieldBitsMismatch fields.1 fields.2)
  | _ => failure

/-- An error is the number of its variant and its fields. -/
def errorConverter {S : Type} (string : Converter S) (ubyte : Converter UInt8) :
    Converter (SearchError S) where
  write
    | .db v1 => join (some (be 4 1)) (string.write v1)
    | .configMismatch stored requested =>
      join (some (be 4 2)) ((string.both string).write (stored, requested))
    | .fieldBitsMismatch stored requested =>
      join (some (be 4 3)) ((ubyte.both ubyte).write (stored, requested))
  read := do
    let n ← nat 4
    errorFields string ubyte n

/-! ### Kotlin -/

/-- `FfiConverter`. "This must return at least as many bytes as the write() function will
write." Sizes are `ULong`, which no value in memory exhausts. -/
structure KotlinConverter (α : Type) extends Converter α where
  allocationSize : α → ℕ
  fits : ∀ a bs, write a = some bs → bs.length ≤ allocationSize a

namespace KotlinConverter

variable {α β : Type}

def number (k : ℕ) (f : α → ℕ) (f' : ℕ → α) : KotlinConverter α where
  toConverter := Converter.number k f f'
  allocationSize _ := k
  fits a bs h := by
    cases h
    rw [Codec.length_be]

theorem length_join {x y : Option Bytes} {bs : Bytes} {m n : ℕ} (h : join x y = some bs)
    (hx : ∀ xs, x = some xs → xs.length ≤ m) (hy : ∀ ys, y = some ys → ys.length ≤ n) :
    bs.length ≤ m + n := by
  obtain ⟨xs, ys, hxs, hys, rfl⟩ := Codec.join_eq_some.mp h
  have h1 := hx xs hxs
  have h2 := hy ys hys
  rw [List.length_append]
  omega

theorem length_be_le {k n : ℕ} (xs : Bytes) (h : some (be k n) = some xs) : xs.length ≤ k := by
  cases h
  rw [Codec.length_be]

/-- The fields of a record, in order. -/
def both (A : KotlinConverter α) (B : KotlinConverter β) : KotlinConverter (α × β) where
  toConverter := A.toConverter.both B.toConverter
  allocationSize p := A.allocationSize p.1 + B.allocationSize p.2
  fits p _ h := length_join h (A.fits p.1) (B.fits p.2)

def record (e : α ≃ β) (A : KotlinConverter α) : KotlinConverter β where
  toConverter := A.toConverter.along e
  allocationSize b := A.allocationSize (e.symm b)
  fits b bs h := A.fits (e.symm b) bs h

/-- `values()[buf.getInt() - 1]` and `ordinal + 1`. -/
def enumeration [DecidableEq α] (values : List α) : KotlinConverter α where
  toConverter := int.through (fun a => some (UInt32.ofNat (values.idxOf a + 1)))
    (fun n => if n.toNat = 0 then none else values[n.toNat - 1]?)
  allocationSize _ := 4
  fits _ bs h := length_be_le bs h

def optional (A : KotlinConverter α) : KotlinConverter (Option α) where
  toConverter := A.toConverter.optional (fun tag => some (tag != 0))
  allocationSize
    | none => 1
    | some a => 1 + A.allocationSize a
  fits o bs h := by
    cases o with
    | none => exact length_be_le bs h
    | some a => exact length_join h length_be_le (A.fits a)

theorem length_each (A : KotlinConverter α) {as : List α} {bs : Bytes}
    (h : Codec.each A.write as = some bs) :
    bs.length ≤ (as.map A.allocationSize).sum := by
  induction as generalizing bs with
  | nil =>
    cases h
    exact Nat.le_refl 0
  | cons a as ih =>
    rw [List.map_cons, List.sum_cons]
    exact length_join h (A.fits a) (fun ys hys => ih hys)

def sequence (A : KotlinConverter α) : KotlinConverter (List α) where
  toConverter := A.toConverter.counted 4 MAX_LENGTH
  allocationSize as := 4 + (as.map A.allocationSize).sum
  fits as bs h := by
    obtain ⟨hlt, h⟩ := Option.ite_none_right_eq_some.mp h
    exact length_join h length_be_le (fun ys hys => A.length_each hys)

/-- `lowerIntoRustBuffer`. A `ByteBuffer` is counted by an `Int`, and writing past its end
fails. -/
def lower (A : KotlinConverter α) (a : α) : Option Bytes := do
  let size := A.allocationSize a
  if size < MAX_LENGTH then
    let bs ← A.write a
    if bs.length ≤ size then some bs else none
  else none

/-- `liftFromRustBuffer`, which leaves nothing unread. -/
def lift (A : KotlinConverter α) (bs : Bytes) : Option α := do
  if bs.length < MAX_LENGTH then
    let (a, rest) ← A.read bs
    if rest = [] then some a else none
  else none

end KotlinConverter

namespace Kotlin.FfiConverter

variable (repaired : Bytes → KotlinString)

def ubyte : KotlinConverter UInt8 := .number 1 UInt8.toNat UInt8.ofNat

def long : KotlinConverter Int64 :=
  .number 8 (fun i => i.toUInt64.toNat) (fun n => (UInt64.ofNat n).toInt64)

def double : KotlinConverter UInt64 := .number 8 UInt64.toNat UInt64.ofNat

/-- Any byte but 0 is true. -/
def boolean : KotlinConverter Bool := .number 1 Bool.toNat (fun n => n != 0)

/-- `toString(Charsets.UTF_8)`; `repaired` is what it makes of malformed bytes. -/
def decodeBytes (bs : Bytes) : KotlinString := ((fromUtf8 bs).map utf16).getD (repaired bs)

theorem length_block {bs out : Bytes} (h : (Converter.block 4 MAX_LENGTH).write bs = some out) :
    out.length = 4 + bs.length := by
  obtain ⟨hlt, h⟩ := Option.ite_none_right_eq_some.mp h
  cases h
  rw [List.length_append, Codec.length_be]

def string : KotlinConverter KotlinString where
  toConverter := (Converter.block 4 MAX_LENGTH).through toUtf8 (fun bs => decodeBytes repaired bs)
  allocationSize value := 4 + value.length * 3
  fits s out h := by
    obtain ⟨bs, hbs, h⟩ := Option.bind_eq_some_iff.mp h
    obtain ⟨t, rfl, rfl⟩ := toUtf8_eq_some.mp hbs
    have hle := length_utf8_le t
    rw [length_block h]
    omega

def byteArray : KotlinConverter Bytes where
  toConverter := .block 4 MAX_LENGTH
  allocationSize value := 4 + value.length
  fits bs out h := by rw [length_block h]

/-- `FfiConverterString.lower`: the bytes alone. -/
def lowerString (s : KotlinString) : Option Bytes := do
  let bs ← toUtf8 s
  if bs.length < MAX_LENGTH then some bs else none

/-- `FfiConverterString.lift`. -/
def liftString (bs : Bytes) : Option KotlinString :=
  if bs.length < MAX_LENGTH then some (decodeBytes repaired bs) else none

def optionalUByte : KotlinConverter (Option UInt8) := ubyte.optional

def typeNormalizeProfile : KotlinConverter NormalizeProfile :=
  .enumeration [.loose, .nfkcCaseFold]

def typeReindexStatus : KotlinConverter ReindexStatus :=
  .enumeration [.empty, .upToDate, .configChanged]

def typeSearchStrategy : KotlinConverter SearchStrategy :=
  .enumeration [.trigramBm25, .substring, .prefixMatch, .suffixMatch, .allTerms, .fuzzyTrigram,
    .levenshtein, .damerauLevenshtein]

def typeEngineConfig : KotlinConverter EngineConfig :=
  (typeNormalizeProfile.both (typeSearchStrategy.both optionalUByte)).record EngineConfig.ofFields

def typeNormalizeOptions : KotlinConverter NormalizeOptions :=
  (boolean.both (boolean.both (boolean.both (boolean.both (boolean.both (boolean.both
    (boolean.both boolean))))))).record NormalizeOptions.ofFields

def typeEngineOptionsConfig : KotlinConverter EngineOptionsConfig :=
  (typeNormalizeOptions.both (typeSearchStrategy.both optionalUByte)).record
    EngineOptionsConfig.ofFields

def typeFieldValue : KotlinConverter (FieldValue KotlinString) :=
  (ubyte.both (string repaired)).record FieldValue.ofFields

def typeHit : KotlinConverter Hit := (long.both double).record Hit.ofFields

def typeIndexItem : KotlinConverter (IndexItem KotlinString) :=
  (long.both (string repaired)).record IndexItem.ofFields

def typeRecordHit : KotlinConverter RecordHit :=
  (long.both (double.both byteArray)).record RecordHit.ofFields

def sequenceTypeFieldValue : KotlinConverter (List (FieldValue KotlinString)) :=
  (typeFieldValue repaired).sequence

def typeRecordIndexItem : KotlinConverter (RecordIndexItem KotlinString) :=
  (long.both (sequenceTypeFieldValue repaired)).record RecordIndexItem.ofFields

def typeSearchError : KotlinConverter (SearchError KotlinString) where
  toConverter := errorConverter (string repaired).toConverter ubyte.toConverter
  allocationSize
    | .db v1 => 4 + (string repaired).allocationSize v1
    | .configMismatch stored requested =>
      4 + ((string repaired).allocationSize stored + (string repaired).allocationSize requested)
    | .fieldBitsMismatch stored requested =>
      4 + (ubyte.allocationSize stored + ubyte.allocationSize requested)
  fits e bs h := by
    cases e with
    | db v1 =>
      exact KotlinConverter.length_join h KotlinConverter.length_be_le ((string repaired).fits v1)
    | configMismatch stored requested =>
      exact KotlinConverter.length_join h KotlinConverter.length_be_le
        (((string repaired).both (string repaired)).fits (stored, requested))
    | fieldBitsMismatch stored requested =>
      exact KotlinConverter.length_join h KotlinConverter.length_be_le
        ((ubyte.both ubyte).fits (stored, requested))

def optionalString : KotlinConverter (Option KotlinString) := (string repaired).optional

def sequenceLong : KotlinConverter (List Int64) := long.sequence

def sequenceTypeHit : KotlinConverter (List Hit) := typeHit.sequence

def sequenceTypeIndexItem : KotlinConverter (List (IndexItem KotlinString)) :=
  (typeIndexItem repaired).sequence

def sequenceTypeRecordHit : KotlinConverter (List RecordHit) := typeRecordHit.sequence

def sequenceTypeRecordIndexItem : KotlinConverter (List (RecordIndexItem KotlinString)) :=
  (typeRecordIndexItem repaired).sequence

end Kotlin.FfiConverter

/-! ### Swift -/

namespace SwiftConverter

variable {α : Type}

/-- `FfiConverterRustBuffer.lower`; the length of `ForeignBytes` is an `Int32`. -/
def lower (A : Converter α) (a : α) : Option Bytes := do
  let bs ← A.write a
  if bs.length < MAX_LENGTH then some bs else none

/-- `FfiConverterRustBuffer.lift`. -/
def lift (A : Converter α) (bs : Bytes) : Option α := do
  let (a, rest) ← A.read bs
  if rest = [] then some a else none

def sequence (A : Converter α) : Converter (List α) := A.counted 4 MAX_LENGTH

/-- The tag is 0 or 1. -/
def optionTag : ℕ → Option Bool
  | 0 => some false
  | 1 => some true
  | _ => none

def option (A : Converter α) : Converter (Option α) := A.optional optionTag

/-- The variant of a value, and the `switch` that reads it. -/
def enumeration (variant : α → ℕ) (value : ℕ → Option α) : Converter α :=
  int.through (fun a => some (UInt32.ofNat (variant a))) (fun n => value n.toNat)

end SwiftConverter

namespace Swift.FfiConverter

open SwiftConverter

def uInt8 : Converter UInt8 := .number 1 UInt8.toNat UInt8.ofNat

def int64 : Converter Int64 :=
  .number 8 (fun i => i.toUInt64.toNat) (fun n => (UInt64.ofNat n).toInt64)

def double : Converter UInt64 := .number 8 UInt64.toNat UInt64.ofNat

def bool : Converter Bool := .number 1 Bool.toNat (fun n => n != 0)

/-- Bytes that are not UTF-8 trap. -/
def string : Converter Text :=
  (Converter.block 4 MAX_LENGTH).through (fun t => some (utf8 t)) fromUtf8

def data : Converter Bytes := .block 4 MAX_LENGTH

/-- `FfiConverterString.lower`. -/
def lowerString (t : Text) : Option Bytes :=
  if (utf8 t).length < MAX_LENGTH then some (utf8 t) else none

/-- `FfiConverterString.lift`. -/
def liftString (bs : Bytes) : Option Text := fromUtf8 bs

def optionUInt8 : Converter (Option UInt8) := option uInt8

def normalizeProfileVariant : NormalizeProfile → ℕ
  | .loose => 1
  | .nfkcCaseFold => 2

def readNormalizeProfile : ℕ → Option NormalizeProfile
  | 1 => some .loose
  | 2 => some .nfkcCaseFold
  | _ => none

def typeNormalizeProfile : Converter NormalizeProfile :=
  enumeration normalizeProfileVariant readNormalizeProfile

def reindexStatusVariant : ReindexStatus → ℕ
  | .empty => 1
  | .upToDate => 2
  | .configChanged => 3

def readReindexStatus : ℕ → Option ReindexStatus
  | 1 => some .empty
  | 2 => some .upToDate
  | 3 => some .configChanged
  | _ => none

def typeReindexStatus : Converter ReindexStatus :=
  enumeration reindexStatusVariant readReindexStatus

def searchStrategyVariant : SearchStrategy → ℕ
  | .trigramBm25 => 1
  | .substring => 2
  | .prefixMatch => 3
  | .suffixMatch => 4
  | .allTerms => 5
  | .fuzzyTrigram => 6
  | .levenshtein => 7
  | .damerauLevenshtein => 8

def readSearchStrategy : ℕ → Option SearchStrategy
  | 1 => some .trigramBm25
  | 2 => some .substring
  | 3 => some .prefixMatch
  | 4 => some .suffixMatch
  | 5 => some .allTerms
  | 6 => some .fuzzyTrigram
  | 7 => some .levenshtein
  | 8 => some .damerauLevenshtein
  | _ => none

def typeSearchStrategy : Converter SearchStrategy :=
  enumeration searchStrategyVariant readSearchStrategy

def typeEngineConfig : Converter EngineConfig :=
  (typeNormalizeProfile.both (typeSearchStrategy.both optionUInt8)).along EngineConfig.ofFields

def typeNormalizeOptions : Converter NormalizeOptions :=
  (bool.both (bool.both (bool.both (bool.both (bool.both (bool.both
    (bool.both bool))))))).along NormalizeOptions.ofFields

def typeEngineOptionsConfig : Converter EngineOptionsConfig :=
  (typeNormalizeOptions.both (typeSearchStrategy.both optionUInt8)).along
    EngineOptionsConfig.ofFields

def typeFieldValue : Converter (FieldValue Text) := (uInt8.both string).along FieldValue.ofFields

def typeHit : Converter Hit := (int64.both double).along Hit.ofFields

def typeIndexItem : Converter (IndexItem Text) := (int64.both string).along IndexItem.ofFields

def typeRecordHit : Converter RecordHit :=
  (int64.both (double.both data)).along RecordHit.ofFields

def sequenceTypeFieldValue : Converter (List (FieldValue Text)) := sequence typeFieldValue

def typeRecordIndexItem : Converter (RecordIndexItem Text) :=
  (int64.both sequenceTypeFieldValue).along RecordIndexItem.ofFields

def typeSearchError : Converter (SearchError Text) := errorConverter string uInt8

def optionString : Converter (Option Text) := option string

def sequenceInt64 : Converter (List Int64) := sequence int64

def sequenceTypeHit : Converter (List Hit) := sequence typeHit

def sequenceTypeIndexItem : Converter (List (IndexItem Text)) := sequence typeIndexItem

def sequenceTypeRecordHit : Converter (List RecordHit) := sequence typeRecordHit

def sequenceTypeRecordIndexItem : Converter (List (RecordIndexItem Text)) :=
  sequence typeRecordIndexItem

end Swift.FfiConverter

end Unfydqry.Binding
