import Unfydqry.Binding.Converters

/-! # One wire format

Kotlin and Swift write the same bytes for the same value, each side lifts what either
lowered, and a buffer that Kotlin allocates is large enough. -/

namespace Unfydqry.Binding

open Codec (Bytes Reader Converter Agree join)

/-! ### The converters agree -/

section

variable (repaired : Bytes → KotlinString)

theorem agree_int : Agree id int int :=
  Agree.number UInt32.toNat_lt (fun _ => UInt32.ofNat_toNat)

theorem agree_uint8 : Agree id Swift.FfiConverter.uInt8 Kotlin.FfiConverter.ubyte.toConverter :=
  Agree.number UInt8.toNat_lt (fun _ => UInt8.ofNat_toNat)

theorem agree_int64 : Agree id Swift.FfiConverter.int64 Kotlin.FfiConverter.long.toConverter :=
  Agree.number (fun _ => UInt64.toNat_lt _) (fun i => by
    rw [UInt64.ofNat_toNat]
    exact Int64.toInt64_toUInt64 i)

theorem agree_double : Agree id Swift.FfiConverter.double Kotlin.FfiConverter.double.toConverter :=
  Agree.number UInt64.toNat_lt (fun _ => UInt64.ofNat_toNat)

theorem agree_bool : Agree id Swift.FfiConverter.bool Kotlin.FfiConverter.boolean.toConverter := by
  apply Agree.number
  · intro b
    cases b with
    | false => exact Nat.two_pos.trans_le (by norm_num)
    | true => exact Nat.one_lt_two.trans_le (by norm_num)
  · intro b
    cases b with
    | false => rfl
    | true => rfl

theorem decodeBytes_of_some {bs : Bytes} {t : Text} (h : fromUtf8 bs = some t) :
    Kotlin.FfiConverter.decodeBytes repaired bs = utf16 t := by
  rw [Kotlin.FfiConverter.decodeBytes, h]
  rfl

theorem agree_string : Agree utf16 Swift.FfiConverter.string
    (Kotlin.FfiConverter.string repaired).toConverter := by
  apply (Agree.block (by decide)).through
  · intro s bs
    rw [id, toUtf8_eq_some]
    constructor
    · intro h
      obtain ⟨t, ht, hbs⟩ := h
      exact ⟨t, ht, congrArg some hbs⟩
    · intro h
      obtain ⟨t, ht, hbs⟩ := h
      exact ⟨t, ht, Option.some.inj hbs⟩
  · intro t bs h
    rw [← Option.some.inj h]
    exact fromUtf8_utf8 t
  · intro bs t h
    exact congrArg some (decodeBytes_of_some repaired h)

theorem agree_data : Agree id Swift.FfiConverter.data
    Kotlin.FfiConverter.byteArray.toConverter := Agree.block (by decide)

/-- The variants of Swift are the ordinals of Kotlin, from 1. -/
theorem agree_enumeration {α : Type} [DecidableEq α] {values : List α} {variant : α → ℕ}
    {value : ℕ → Option α} (hlen : values.length < 2 ^ 32) (hmem : ∀ a, a ∈ values)
    (hvariant : ∀ a, variant a = values.idxOf a + 1)
    (hvalue : ∀ n, value n = if n = 0 then none else values[n - 1]?) :
    Agree id (SwiftConverter.enumeration variant value)
      (KotlinConverter.enumeration values).toConverter := by
  apply agree_int.through
  · intro b a
    constructor
    · intro h
      refine ⟨b, rfl, ?_⟩
      rw [hvariant b]
      exact h
    · intro h
      obtain ⟨c, rfl, hc⟩ := h
      rw [hvariant c] at hc
      exact hc
  · intro c a h
    have hlt := List.idxOf_lt_length_of_mem (hmem c)
    have ha : a.toNat = values.idxOf c + 1 := by
      rw [← Option.some.inj h, hvariant c, UInt32.toNat_ofNat']
      exact Nat.mod_eq_of_lt (by omega)
    rw [ha, hvalue, if_neg (by omega), Nat.add_sub_cancel, List.getElem?_eq_getElem hlt,
      List.getElem_idxOf hlt]
  · intro a c h
    rw [id, id, ← h, hvalue]

theorem agree_option {α β : Type} {g : α → β} {S : Converter α} {K : KotlinConverter β}
    (h : Agree g S K.toConverter) :
    Agree (Option.map g) (SwiftConverter.option S) K.optional.toConverter := by
  apply h.optional rfl rfl
  intro n p hp
  obtain _ | _ | n := n
  · exact hp
  · exact hp
  · cases hp

theorem agree_sequence {α β : Type} {g : α → β} {S : Converter α} {K : KotlinConverter β}
    (h : Agree g S K.toConverter) :
    Agree (List.map g) (SwiftConverter.sequence S) K.sequence.toConverter :=
  h.counted (by decide)

theorem agree_error {S T : Type} {g : S → T} {A : Converter S} {B : Converter T}
    (h : Agree g A B) {C D : Converter UInt8} (h' : Agree id C D) :
    Agree (SearchError.rename g) (errorConverter A C) (errorConverter B D) where
  writes e bs := by
    constructor
    · intro hw
      cases e with
      | db v1 =>
        obtain ⟨x, y, hx, hy, rfl⟩ := Codec.join_eq_some.mp hw
        obtain ⟨a, rfl, ha⟩ := (h.writes _ _).mp hy
        exact ⟨.db a, rfl, Codec.join_eq_some.mpr ⟨x, y, hx, ha, rfl⟩⟩
      | configMismatch stored requested =>
        obtain ⟨x, y, hx, hy, rfl⟩ := Codec.join_eq_some.mp hw
        obtain ⟨p, hp, ha⟩ := ((h.both h).writes _ _).mp hy
        cases hp
        exact ⟨.configMismatch p.1 p.2, rfl, Codec.join_eq_some.mpr ⟨x, y, hx, ha, rfl⟩⟩
      | fieldBitsMismatch stored requested =>
        obtain ⟨x, y, hx, hy, rfl⟩ := Codec.join_eq_some.mp hw
        obtain ⟨p, hp, ha⟩ := ((h'.both h').writes _ _).mp hy
        cases hp
        exact ⟨.fieldBitsMismatch p.1 p.2, rfl, Codec.join_eq_some.mpr ⟨x, y, hx, ha, rfl⟩⟩
    · intro hw
      obtain ⟨e, rfl, hw⟩ := hw
      cases e with
      | db v1 =>
        obtain ⟨x, y, hx, hy, rfl⟩ := Codec.join_eq_some.mp hw
        exact Codec.join_eq_some.mpr ⟨x, y, hx, h.write_renamed hy, rfl⟩
      | configMismatch stored requested =>
        obtain ⟨x, y, hx, hy, rfl⟩ := Codec.join_eq_some.mp hw
        exact Codec.join_eq_some.mpr ⟨x, y, hx, (h.both h).write_renamed hy, rfl⟩
      | fieldBitsMismatch stored requested =>
        obtain ⟨x, y, hx, hy, rfl⟩ := Codec.join_eq_some.mp hw
        exact Codec.join_eq_some.mpr ⟨x, y, hx, (h'.both h').write_renamed hy, rfl⟩
  back e bs rest hw := by
    cases e with
    | db v1 =>
      obtain ⟨x, y, hx, hy, rfl⟩ := Codec.join_eq_some.mp hw
      cases hx
      show (Codec.nat 4 >>= errorFields A C) _ = _
      rw [List.append_assoc, Codec.bind_of_read (Codec.nat_be (by norm_num) _)]
      show (A.read >>= _) _ = _
      rw [Codec.bind_of_read (h.back _ _ rest hy)]
      rfl
    | configMismatch stored requested =>
      obtain ⟨x, y, hx, hy, rfl⟩ := Codec.join_eq_some.mp hw
      cases hx
      show (Codec.nat 4 >>= errorFields A C) _ = _
      rw [List.append_assoc, Codec.bind_of_read (Codec.nat_be (by norm_num) _)]
      show ((A.both A).read >>= _) _ = _
      rw [Codec.bind_of_read ((h.both h).back _ _ rest hy)]
      rfl
    | fieldBitsMismatch stored requested =>
      obtain ⟨x, y, hx, hy, rfl⟩ := Codec.join_eq_some.mp hw
      cases hx
      show (Codec.nat 4 >>= errorFields A C) _ = _
      rw [List.append_assoc, Codec.bind_of_read (Codec.nat_be (by norm_num) _)]
      show ((C.both C).read >>= _) _ = _
      rw [Codec.bind_of_read ((h'.both h').back _ _ rest hy)]
      rfl
  accepts bs e rest hr := by
    obtain ⟨n, mid, hn, hr⟩ := Codec.read_of_bind hr
    show (Codec.nat 4 >>= errorFields B D) _ = _
    rw [Codec.bind_of_read hn]
    obtain _ | _ | _ | _ | n := n
    · cases hr
    · obtain ⟨v1, mid', hv, hr⟩ := Codec.read_of_bind hr
      obtain ⟨rfl, rfl⟩ := Codec.eq_of_read_pure hr
      show (B.read >>= _) _ = _
      rw [Codec.bind_of_read (h.accepts _ _ _ hv)]
      rfl
    · obtain ⟨p, mid', hp, hr⟩ := Codec.read_of_bind hr
      obtain ⟨rfl, rfl⟩ := Codec.eq_of_read_pure hr
      show ((B.both B).read >>= _) _ = _
      rw [Codec.bind_of_read ((h.both h).accepts _ _ _ hp)]
      rfl
    · obtain ⟨p, mid', hp, hr⟩ := Codec.read_of_bind hr
      obtain ⟨rfl, rfl⟩ := Codec.eq_of_read_pure hr
      show ((D.both D).read >>= _) _ = _
      rw [Codec.bind_of_read ((h'.both h').accepts _ _ _ hp)]
      rfl
    · cases hr

end

/-! ### Every type of the interface -/

/-- The types that cross in a `RustBuffer`, a string apart. -/
inductive FfiType where
  | byteArray
  | engineConfig
  | engineOptionsConfig
  | fieldValue
  | hit
  | indexItem
  | normalizeOptions
  | recordHit
  | recordIndexItem
  | normalizeProfile
  | reindexStatus
  | searchError
  | searchStrategy
  | optionalUByte
  | optionalString
  | sequenceLong
  | sequenceFieldValue
  | sequenceHit
  | sequenceIndexItem
  | sequenceRecordHit
  | sequenceRecordIndexItem
  deriving DecidableEq

namespace FfiType

/-- The values of a type, over the strings of a side. -/
def Value (S : Type) : FfiType → Type
  | byteArray => Bytes
  | engineConfig => EngineConfig
  | engineOptionsConfig => EngineOptionsConfig
  | fieldValue => FieldValue S
  | hit => Hit
  | indexItem => IndexItem S
  | normalizeOptions => NormalizeOptions
  | recordHit => RecordHit
  | recordIndexItem => RecordIndexItem S
  | normalizeProfile => NormalizeProfile
  | reindexStatus => ReindexStatus
  | searchError => SearchError S
  | searchStrategy => SearchStrategy
  | optionalUByte => Option UInt8
  | optionalString => Option S
  | sequenceLong => List Int64
  | sequenceFieldValue => List (FieldValue S)
  | sequenceHit => List Hit
  | sequenceIndexItem => List (IndexItem S)
  | sequenceRecordHit => List RecordHit
  | sequenceRecordIndexItem => List (RecordIndexItem S)

/-- The same value over other strings. -/
def rename {S T : Type} (g : S → T) : (t : FfiType) → t.Value S → t.Value T
  | byteArray, v => v
  | engineConfig, v => v
  | engineOptionsConfig, v => v
  | fieldValue, v => FieldValue.rename g v
  | hit, v => v
  | indexItem, v => IndexItem.rename g v
  | normalizeOptions, v => v
  | recordHit, v => v
  | recordIndexItem, v => RecordIndexItem.rename g v
  | normalizeProfile, v => v
  | reindexStatus, v => v
  | searchError, v => SearchError.rename g v
  | searchStrategy, v => v
  | optionalUByte, v => v
  | optionalString, v => Option.map g v
  | sequenceLong, v => v
  | sequenceFieldValue, v => List.map (FieldValue.rename g) v
  | sequenceHit, v => v
  | sequenceIndexItem, v => List.map (IndexItem.rename g) v
  | sequenceRecordHit, v => v
  | sequenceRecordIndexItem, v => List.map (RecordIndexItem.rename g) v

open Kotlin.FfiConverter in
def kotlin (repaired : Bytes → KotlinString) :
    (t : FfiType) → KotlinConverter (t.Value KotlinString)
  | byteArray => Kotlin.FfiConverter.byteArray
  | engineConfig => typeEngineConfig
  | engineOptionsConfig => typeEngineOptionsConfig
  | fieldValue => typeFieldValue repaired
  | hit => typeHit
  | indexItem => typeIndexItem repaired
  | normalizeOptions => typeNormalizeOptions
  | recordHit => typeRecordHit
  | recordIndexItem => typeRecordIndexItem repaired
  | normalizeProfile => typeNormalizeProfile
  | reindexStatus => typeReindexStatus
  | searchError => typeSearchError repaired
  | searchStrategy => typeSearchStrategy
  | optionalUByte => Kotlin.FfiConverter.optionalUByte
  | optionalString => Kotlin.FfiConverter.optionalString repaired
  | sequenceLong => Kotlin.FfiConverter.sequenceLong
  | sequenceFieldValue => sequenceTypeFieldValue repaired
  | sequenceHit => sequenceTypeHit
  | sequenceIndexItem => sequenceTypeIndexItem repaired
  | sequenceRecordHit => sequenceTypeRecordHit
  | sequenceRecordIndexItem => sequenceTypeRecordIndexItem repaired

open Swift.FfiConverter in
def swift : (t : FfiType) → Converter (t.Value Text)
  | byteArray => data
  | engineConfig => typeEngineConfig
  | engineOptionsConfig => typeEngineOptionsConfig
  | fieldValue => typeFieldValue
  | hit => typeHit
  | indexItem => typeIndexItem
  | normalizeOptions => typeNormalizeOptions
  | recordHit => typeRecordHit
  | recordIndexItem => typeRecordIndexItem
  | normalizeProfile => typeNormalizeProfile
  | reindexStatus => typeReindexStatus
  | searchError => typeSearchError
  | searchStrategy => typeSearchStrategy
  | optionalUByte => optionUInt8
  | optionalString => optionString
  | sequenceLong => sequenceInt64
  | sequenceFieldValue => sequenceTypeFieldValue
  | sequenceHit => sequenceTypeHit
  | sequenceIndexItem => sequenceTypeIndexItem
  | sequenceRecordHit => sequenceTypeRecordHit
  | sequenceRecordIndexItem => sequenceTypeRecordIndexItem

theorem agree_normalizeProfile : Agree id Swift.FfiConverter.typeNormalizeProfile
    Kotlin.FfiConverter.typeNormalizeProfile.toConverter := by
  apply agree_enumeration (by decide)
  · intro a
    cases a <;> decide
  · intro a
    cases a <;> decide
  · intro n
    obtain _ | _ | _ | n := n <;> rfl

theorem agree_reindexStatus : Agree id Swift.FfiConverter.typeReindexStatus
    Kotlin.FfiConverter.typeReindexStatus.toConverter := by
  apply agree_enumeration (by decide)
  · intro a
    cases a <;> decide
  · intro a
    cases a <;> decide
  · intro n
    obtain _ | _ | _ | _ | n := n <;> rfl

theorem agree_searchStrategy : Agree id Swift.FfiConverter.typeSearchStrategy
    Kotlin.FfiConverter.typeSearchStrategy.toConverter := by
  apply agree_enumeration (by decide)
  · intro a
    cases a <;> decide
  · intro a
    cases a <;> decide
  · intro n
    obtain _ | _ | _ | _ | _ | _ | _ | _ | _ | n := n <;> rfl

theorem agree_optionalUByte : Agree id Swift.FfiConverter.optionUInt8
    Kotlin.FfiConverter.optionalUByte.toConverter := by
  have h := agree_option agree_uint8
  rw [Option.map_id] at h
  exact h

theorem agree_normalizeOptions : Agree id Swift.FfiConverter.typeNormalizeOptions
    Kotlin.FfiConverter.typeNormalizeOptions.toConverter :=
  (agree_bool.both (agree_bool.both (agree_bool.both (agree_bool.both (agree_bool.both
    (agree_bool.both (agree_bool.both agree_bool))))))).along (fun _ => rfl)

theorem agree_hit : Agree id Swift.FfiConverter.typeHit Kotlin.FfiConverter.typeHit.toConverter :=
  (agree_int64.both agree_double).along (fun _ => rfl)

theorem agree_recordHit : Agree id Swift.FfiConverter.typeRecordHit
    Kotlin.FfiConverter.typeRecordHit.toConverter :=
  (agree_int64.both (agree_double.both agree_data)).along (fun _ => rfl)

theorem agree_same {α : Type} {S : Converter α} {K : KotlinConverter α}
    (h : Agree id S K.toConverter) :
    Agree id (SwiftConverter.sequence S) K.sequence.toConverter := by
  have h' := agree_sequence h
  rw [List.map_id_fun] at h'
  exact h'

variable (repaired : Bytes → KotlinString)

theorem agree_fieldValue : Agree (FieldValue.rename utf16) Swift.FfiConverter.typeFieldValue
    (Kotlin.FfiConverter.typeFieldValue repaired).toConverter :=
  (agree_uint8.both (agree_string repaired)).along (fun _ => rfl)

theorem agree_indexItem : Agree (IndexItem.rename utf16) Swift.FfiConverter.typeIndexItem
    (Kotlin.FfiConverter.typeIndexItem repaired).toConverter :=
  (agree_int64.both (agree_string repaired)).along (fun _ => rfl)

theorem agree_recordIndexItem : Agree (RecordIndexItem.rename utf16)
    Swift.FfiConverter.typeRecordIndexItem
    (Kotlin.FfiConverter.typeRecordIndexItem repaired).toConverter :=
  (agree_int64.both (agree_sequence (agree_fieldValue repaired))).along (fun _ => rfl)

/-- The two converters of every type agree. -/
theorem agree (t : FfiType) : Agree (t.rename utf16) t.swift (t.kotlin repaired).toConverter := by
  cases t with
  | byteArray => exact agree_data
  | engineConfig =>
    exact (agree_normalizeProfile.both
      (agree_searchStrategy.both agree_optionalUByte)).along (fun _ => rfl)
  | engineOptionsConfig =>
    exact (agree_normalizeOptions.both
      (agree_searchStrategy.both agree_optionalUByte)).along (fun _ => rfl)
  | fieldValue => exact agree_fieldValue repaired
  | hit => exact agree_hit
  | indexItem => exact agree_indexItem repaired
  | normalizeOptions => exact agree_normalizeOptions
  | recordHit => exact agree_recordHit
  | recordIndexItem => exact agree_recordIndexItem repaired
  | normalizeProfile => exact agree_normalizeProfile
  | reindexStatus => exact agree_reindexStatus
  | searchError => exact agree_error (agree_string repaired) agree_uint8
  | searchStrategy => exact agree_searchStrategy
  | optionalUByte => exact agree_optionalUByte
  | optionalString => exact agree_option (agree_string repaired)
  | sequenceLong => exact agree_same agree_int64
  | sequenceFieldValue => exact agree_sequence (agree_fieldValue repaired)
  | sequenceHit => exact agree_same agree_hit
  | sequenceIndexItem => exact agree_sequence (agree_indexItem repaired)
  | sequenceRecordHit => exact agree_same agree_recordHit
  | sequenceRecordIndexItem => exact agree_sequence (agree_recordIndexItem repaired)

end FfiType

/-! ### Lowering and lifting -/

variable {α β : Type}

/-- The buffer is never too short. -/
theorem KotlinConverter.lower_eq_some {K : KotlinConverter α} {a : α} {bs : Bytes} :
    K.lower a = some bs ↔ K.allocationSize a < MAX_LENGTH ∧ K.write a = some bs := by
  constructor
  · intro h
    obtain ⟨hsize, h⟩ := Option.ite_none_right_eq_some.mp h
    obtain ⟨out, hw, h⟩ := Option.bind_eq_some_iff.mp h
    obtain ⟨hle, h⟩ := Option.ite_none_right_eq_some.mp h
    rw [← Option.some.inj h]
    exact ⟨hsize, hw⟩
  · intro h
    obtain ⟨hsize, hw⟩ := h
    apply Option.ite_none_right_eq_some.mpr
    exact ⟨hsize, Option.bind_eq_some_iff.mpr ⟨bs, hw, if_pos (K.fits a bs hw)⟩⟩

theorem SwiftConverter.lower_eq_some {S : Converter α} {a : α} {bs : Bytes} :
    SwiftConverter.lower S a = some bs ↔ S.write a = some bs ∧ bs.length < MAX_LENGTH := by
  constructor
  · intro h
    obtain ⟨out, hw, h⟩ := Option.bind_eq_some_iff.mp h
    obtain ⟨hlt, h⟩ := Option.ite_none_right_eq_some.mp h
    rw [← Option.some.inj h]
    exact ⟨hw, hlt⟩
  · intro h
    obtain ⟨hw, hlt⟩ := h
    exact Option.bind_eq_some_iff.mpr ⟨bs, hw, if_pos hlt⟩

theorem SwiftConverter.lift_eq_some {S : Converter α} {a : α} {bs : Bytes} :
    SwiftConverter.lift S bs = some a ↔ S.read bs = some (a, []) := by
  constructor
  · intro h
    obtain ⟨p, hr, h⟩ := Option.bind_eq_some_iff.mp h
    obtain ⟨hrest, h⟩ := Option.ite_none_right_eq_some.mp h
    rw [hr, ← Option.some.inj h, ← hrest]
  · intro h
    exact Option.bind_eq_some_iff.mpr ⟨(a, []), h, if_pos rfl⟩

theorem KotlinConverter.lift_eq_some {K : KotlinConverter α} {a : α} {bs : Bytes} :
    K.lift bs = some a ↔ bs.length < MAX_LENGTH ∧ K.read bs = some (a, []) := by
  have hlift : K.lift bs =
      if bs.length < MAX_LENGTH then SwiftConverter.lift K.toConverter bs else none := rfl
  rw [hlift, Option.ite_none_right_eq_some, SwiftConverter.lift_eq_some]

section

variable {g : α → β} {S : Converter α} {K : KotlinConverter β}

theorem lower_alike (h : Agree g S K.toConverter) (k : β) (bs : Bytes) :
    K.lower k = some bs ↔ K.allocationSize k < MAX_LENGTH ∧
      ∃ v, g v = k ∧ SwiftConverter.lower S v = some bs := by
  rw [KotlinConverter.lower_eq_some]
  constructor
  · intro hk
    obtain ⟨hsize, hw⟩ := hk
    obtain ⟨v, hv, hs⟩ := (h.writes k bs).mp hw
    have hlt : bs.length < MAX_LENGTH := (K.fits k bs hw).trans_lt hsize
    exact ⟨hsize, v, hv, SwiftConverter.lower_eq_some.mpr ⟨hs, hlt⟩⟩
  · intro hk
    obtain ⟨hsize, v, hv, hs⟩ := hk
    exact ⟨hsize, (h.writes k bs).mpr ⟨v, hv, (SwiftConverter.lower_eq_some.mp hs).1⟩⟩

theorem lift_alike (h : Agree g S K.toConverter) {v : α} {bs : Bytes}
    (hlt : bs.length < MAX_LENGTH) (hs : SwiftConverter.lift S bs = some v) :
    K.lift bs = some (g v) :=
  KotlinConverter.lift_eq_some.mpr ⟨hlt, h.accepts bs v [] (SwiftConverter.lift_eq_some.mp hs)⟩

theorem lift_lowered (h : Agree g S K.toConverter) {v : α} {bs : Bytes}
    (hs : SwiftConverter.lower S v = some bs) :
    SwiftConverter.lift S bs = some v ∧ K.lift bs = some (g v) := by
  obtain ⟨hw, hlt⟩ := SwiftConverter.lower_eq_some.mp hs
  have hback := h.back v bs [] hw
  rw [List.append_nil] at hback
  have hlift := SwiftConverter.lift_eq_some.mpr hback
  exact ⟨hlift, lift_alike h hlt hlift⟩

end

theorem lowerString_alike (s : KotlinString) (bs : Bytes) :
    Kotlin.FfiConverter.lowerString s = some bs ↔
      ∃ t, utf16 t = s ∧ Swift.FfiConverter.lowerString t = some bs := by
  constructor
  · intro h
    obtain ⟨out, hout, h⟩ := Option.bind_eq_some_iff.mp h
    obtain ⟨hlt, h⟩ := Option.ite_none_right_eq_some.mp h
    obtain ⟨t, ht, rfl⟩ := toUtf8_eq_some.mp hout
    exact ⟨t, ht, Option.ite_none_right_eq_some.mpr ⟨hlt, h⟩⟩
  · intro h
    obtain ⟨t, ht, h⟩ := h
    have hout : toUtf8 s = some (utf8 t) := toUtf8_eq_some.mpr ⟨t, ht, rfl⟩
    exact Option.bind_eq_some_iff.mpr ⟨utf8 t, hout, h⟩

theorem liftString_alike (repaired : Bytes → KotlinString) {t : Text} {bs : Bytes}
    (hlt : bs.length < MAX_LENGTH) (h : Swift.FfiConverter.liftString bs = some t) :
    Kotlin.FfiConverter.liftString repaired bs = some (utf16 t) := by
  rw [Kotlin.FfiConverter.liftString, if_pos hlt, decodeBytes_of_some repaired h]

theorem liftString_lowered (repaired : Bytes → KotlinString) {t : Text} {bs : Bytes}
    (h : Swift.FfiConverter.lowerString t = some bs) :
    Swift.FfiConverter.liftString bs = some t ∧
      Kotlin.FfiConverter.liftString repaired bs = some (utf16 t) := by
  obtain ⟨hlt, h⟩ := Option.ite_none_right_eq_some.mp h
  rw [← Option.some.inj h]
  have hlift := fromUtf8_utf8 t
  exact ⟨hlift, liftString_alike repaired hlt hlift⟩

/-- Kotlin and Swift lower the same value to the same bytes. Kotlin lowers a value if its
strings are well formed and the buffer it asks for is no larger than an `Int`. -/
theorem bindings_lower_alike (repaired : Bytes → KotlinString) :
    (∀ (t : FfiType) (k : t.Value KotlinString) (bs : Bytes),
      (t.kotlin repaired).lower k = some bs ↔
        (t.kotlin repaired).allocationSize k < MAX_LENGTH ∧
          ∃ v, t.rename utf16 v = k ∧ SwiftConverter.lower t.swift v = some bs) ∧
    ∀ s bs, Kotlin.FfiConverter.lowerString s = some bs ↔
      ∃ t, utf16 t = s ∧ Swift.FfiConverter.lowerString t = some bs :=
  ⟨fun t k bs => lower_alike (FfiType.agree repaired t) k bs, lowerString_alike⟩

/-- What one side has lowered, both sides lift as that value. -/
theorem lowered_values_lift (repaired : Bytes → KotlinString) :
    (∀ (t : FfiType) (v : t.Value Text) (bs : Bytes),
      SwiftConverter.lower t.swift v = some bs →
        SwiftConverter.lift t.swift bs = some v ∧
          (t.kotlin repaired).lift bs = some (t.rename utf16 v)) ∧
    (∀ (t : FfiType) (k : t.Value KotlinString) (bs : Bytes),
      (t.kotlin repaired).lower k = some bs →
        (t.kotlin repaired).lift bs = some k ∧
          ∃ v, t.rename utf16 v = k ∧ SwiftConverter.lift t.swift bs = some v) ∧
    (∀ v bs, Swift.FfiConverter.lowerString v = some bs →
      Swift.FfiConverter.liftString bs = some v ∧
        Kotlin.FfiConverter.liftString repaired bs = some (utf16 v)) ∧
    ∀ s bs, Kotlin.FfiConverter.lowerString s = some bs →
      Kotlin.FfiConverter.liftString repaired bs = some s ∧
        ∃ v, utf16 v = s ∧ Swift.FfiConverter.liftString bs = some v := by
  refine ⟨?_, ?_, ?_, ?_⟩
  · intro t v bs h
    exact lift_lowered (FfiType.agree repaired t) h
  · intro t k bs h
    obtain ⟨hsize, v, rfl, hv⟩ := (lower_alike (FfiType.agree repaired t) k bs).mp h
    obtain ⟨hs, hk⟩ := lift_lowered (FfiType.agree repaired t) hv
    exact ⟨hk, v, rfl, hs⟩
  · intro v bs h
    exact liftString_lowered repaired h
  · intro s bs h
    obtain ⟨v, rfl, hv⟩ := (lowerString_alike s bs).mp h
    obtain ⟨hs, hk⟩ := liftString_lowered repaired hv
    exact ⟨hk, v, rfl, hs⟩

/-- An emoji is two code units and four bytes. -/
theorem lowered_values_lift_emoji :
    (Kotlin.FfiConverter.typeIndexItem fun _ => []).lower ⟨5, [0xD83D, 0xDE00]⟩ =
      some [0, 0, 0, 0, 0, 0, 0, 5, 0, 0, 0, 4, 0xF0, 0x9F, 0x98, 0x80] ∧
    (Kotlin.FfiConverter.typeIndexItem fun _ => []).lift
      [0, 0, 0, 0, 0, 0, 0, 5, 0, 0, 0, 4, 0xF0, 0x9F, 0x98, 0x80] =
      some ⟨5, [0xD83D, 0xDE00]⟩ := by
  have hlower : (Kotlin.FfiConverter.typeIndexItem fun _ => []).lower ⟨5, [0xD83D, 0xDE00]⟩ =
      some [0, 0, 0, 0, 0, 0, 0, 5, 0, 0, 0, 4, 0xF0, 0x9F, 0x98, 0x80] := by decide
  exact ⟨hlower, ((lowered_values_lift fun _ => []).2.1 .indexItem ⟨5, [0xD83D, 0xDE00]⟩ _
    hlower).1⟩

/-- Bytes from Rust that Swift can lift, Kotlin lifts as the same value. -/
theorem kotlin_lifts_with_swift (repaired : Bytes → KotlinString) (bs : Bytes)
    (hlt : bs.length < MAX_LENGTH) :
    (∀ (t : FfiType) (v : t.Value Text), SwiftConverter.lift t.swift bs = some v →
      (t.kotlin repaired).lift bs = some (t.rename utf16 v)) ∧
    ∀ v, Swift.FfiConverter.liftString bs = some v →
      Kotlin.FfiConverter.liftString repaired bs = some (utf16 v) := by
  constructor
  · intro t v h
    exact lift_alike (FfiType.agree repaired t) hlt h
  · intro v h
    exact liftString_alike repaired hlt h

theorem kotlin_lifts_with_swift_hit :
    Kotlin.FfiConverter.typeRecordHit.lift
      [0, 0, 0, 0, 0, 0, 0, 7, 0, 0, 0, 0, 0, 0, 0, 0, 0, 0, 0, 2, 1, 0] =
      some ⟨7, 0, [1, 0]⟩ := by
  have hlift : SwiftConverter.lift Swift.FfiConverter.typeRecordHit
      [0, 0, 0, 0, 0, 0, 0, 7, 0, 0, 0, 0, 0, 0, 0, 0, 0, 0, 0, 2, 1, 0] =
      some ⟨7, 0, [1, 0]⟩ := by decide
  exact (kotlin_lifts_with_swift (fun _ => []) _ (by decide)).1 .recordHit ⟨7, 0, [1, 0]⟩ hlift

end Unfydqry.Binding
