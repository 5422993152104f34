import Unfydqry.Engine.Types

/-! # Packed ids as arithmetic

For a width in `1..=62` no shift of the record layer traps. A packed id is the
record id times `2 ^ bits` plus the slot, and the range of a record is the ids with
that quotient. -/

namespace Unfydqry

open LockedStore

/-- A width `check_field_bits` accepts. -/
def ValidBits (bits : UInt8) : Prop := 1 ≤ bits.toNat ∧ bits.toNat ≤ 62

namespace SearchEngine

theorem checkFieldBits_ok {bits : UInt8} (h : ValidBits bits) : checkFieldBits bits = .ok () :=
  if_pos ⟨UInt8.le_iff_toNat_le.mpr h.1, UInt8.le_iff_toNat_le.mpr h.2⟩

theorem validBits_of_check {bits : UInt8} (h : checkFieldBits bits = .ok ()) :
    ValidBits bits := by
  unfold checkFieldBits at h
  split at h
  · rename_i hb
    exact ⟨UInt8.le_iff_toNat_le.mp hb.1, UInt8.le_iff_toNat_le.mp hb.2⟩
  · cases h

theorem validBits_default : ValidBits DEFAULT_FIELD_BITS := ⟨by decide, by decide⟩

/-- `x << bits` where it does not trap. -/
def shlOf (bits : UInt8) (x : Int64) : Int64 := (Checked.shl x bits).getD 0

/-- `x >> bits` where it does not trap. -/
def shrOf (bits : UInt8) (x : Int64) : Int64 := (Checked.shr x bits).getD 0

/-- `(1 << bits) - 1` where it does not trap. -/
def maskOf (bits : UInt8) : Int64 := (lowMask bits).getD 0

/-- The id of a record's field. -/
def packId (bits : UInt8) (recordId : Int64) (slot : UInt8) : Int64 :=
  shlOf bits recordId ||| Checked.ofU8 slot

/-- The last id of a record's range; the first one is `shlOf bits recordId`. -/
def hiOf (bits : UInt8) (recordId : Int64) : Int64 := shlOf bits recordId ||| maskOf bits

variable {bits : UInt8}

theorem shl_some (h : ValidBits bits) (x : Int64) :
    Checked.shl x bits = some (shlOf bits x) := by
  have hs := (Checked.shl_isSome x bits).mpr (by have := h.2; omega)
  obtain ⟨y, hy⟩ := Option.isSome_iff_exists.mp hs
  rw [shlOf, hy, Option.getD_some]

theorem shr_some (h : ValidBits bits) (x : Int64) :
    Checked.shr x bits = some (shrOf bits x) := by
  obtain ⟨y, hy, _⟩ := Checked.shr_val x (n := bits) (by have := h.2; omega)
  rw [shrOf, hy, Option.getD_some]

theorem shrOf_toInt (h : ValidBits bits) (x : Int64) :
    (shrOf bits x).toInt = x.toInt / 2 ^ bits.toNat := by
  obtain ⟨y, hy, hv⟩ := Checked.shr_val x (n := bits) (by have := h.2; omega)
  rw [shrOf, hy, Option.getD_some, hv]

theorem lowMask_some (h : ValidBits bits) : lowMask bits = some (maskOf bits) := by
  obtain ⟨one, m, hs, _, hm, _⟩ := Checked.mask_val h.2
  simp only [maskOf, lowMask, hs, hm, Option.bind_some, Option.getD_some]

theorem maskOf_toInt (h : ValidBits bits) : (maskOf bits).toInt = 2 ^ bits.toNat - 1 := by
  obtain ⟨one, m, hs, _, hm, hv⟩ := Checked.mask_val h.2
  simp only [maskOf, lowMask, hs, hm, Option.bind_some, Option.getD_some, hv]

theorem shlOne_toInt (h : ValidBits bits) : (shlOf bits 1).toInt = 2 ^ bits.toNat := by
  obtain ⟨one, m, hs, hv, _⟩ := Checked.mask_val h.2
  rw [shlOf, hs, Option.getD_some, hv]

theorem pow_pos (bits : UInt8) : (0 : ℤ) < 2 ^ bits.toNat := by positivity

/-- The largest record id: its multiple of `2 ^ bits` is the last one in the word. -/
theorem maxRecord_toInt (h : ValidBits bits) :
    (shrOf bits Int64.maxValue).toInt = 2 ^ (63 - bits.toNat) - 1 := by
  rw [shrOf_toInt h]
  have hmax : Int64.maxValue.toInt = 2 ^ 63 - 1 := by decide
  have hb := h.2
  have hsplit : (2 : ℤ) ^ 63 = 2 ^ (63 - bits.toNat) * 2 ^ bits.toNat := by
    rw [← pow_add]
    congr 1
    omega
  have hp := pow_pos bits
  rw [hmax, hsplit, Int.ediv_eq_iff_of_pos hp]
  constructor
  · nlinarith
  · nlinarith

theorem record_bound (h : ValidBits bits) {r : Int64} (hr : r ≤ shrOf bits Int64.maxValue) :
    r.toInt * 2 ^ bits.toNat + 2 ^ bits.toNat ≤ 2 ^ 63 := by
  have hle := Int64.le_iff_toInt_le.mp hr
  rw [maxRecord_toInt h] at hle
  have hb := h.2
  have hsplit : (2 : ℤ) ^ 63 = 2 ^ (63 - bits.toNat) * 2 ^ bits.toNat := by
    rw [← pow_add]
    congr 1
    omega
  have hp := pow_pos bits
  rw [hsplit]
  nlinarith

theorem shlOf_toInt (h : ValidBits bits) {r : Int64} (h0 : 0 ≤ r)
    (hr : r ≤ shrOf bits Int64.maxValue) :
    (shlOf bits r).toInt = r.toInt * 2 ^ bits.toNat := by
  have h0' : 0 ≤ r.toInt := Int64.le_iff_toInt_le.mp h0
  have hb := record_bound h hr
  have hp := pow_pos bits
  obtain ⟨y, hy, hv⟩ := Checked.shl_val (x := r) (n := bits) (by have := h.2; omega) h0' (by omega)
  rw [shlOf, hy, Option.getD_some, hv]

/-- Setting the slot bits of a shifted record id adds the slot. -/
theorem or_toInt (h : ValidBits bits) {r s : Int64} (h0 : 0 ≤ r)
    (hr : r ≤ shrOf bits Int64.maxValue) (hs0 : 0 ≤ s.toInt) (hs : s.toInt < 2 ^ bits.toNat) :
    (shlOf bits r ||| s).toInt = r.toInt * 2 ^ bits.toNat + s.toInt := by
  have h0' : 0 ≤ r.toInt := Int64.le_iff_toInt_le.mp h0
  have hb := record_bound h hr
  have hx := shlOf_toInt h h0 hr
  rw [Checked.or_val h0' hx hs0 hs (by rw [hx]; omega), hx]

theorem packId_toInt (h : ValidBits bits) {r : Int64} {s : UInt8} (h0 : 0 ≤ r)
    (hr : r ≤ shrOf bits Int64.maxValue) (hs : (s.toNat : ℤ) < 2 ^ bits.toNat) :
    (packId bits r s).toInt = r.toInt * 2 ^ bits.toNat + s.toNat := by
  have hv := Checked.toInt_ofU8 s
  rw [packId, or_toInt h h0 hr (by omega) (by omega), hv]

theorem packId_decode (h : ValidBits bits) {r : Int64} {s : UInt8} (h0 : 0 ≤ r)
    (hr : r ≤ shrOf bits Int64.maxValue) (hs : (s.toNat : ℤ) < 2 ^ bits.toNat) :
    (packId bits r s).toInt / 2 ^ bits.toNat = r.toInt ∧
      (packId bits r s).toInt % 2 ^ bits.toNat = s.toNat := by
  have hnonneg : (0 : ℤ) ≤ s.toNat := Int.natCast_nonneg _
  rw [packId_toInt h h0 hr hs, add_comm]
  constructor
  · rw [Int.add_mul_ediv_right _ _ (pow_pos bits).ne', Int.ediv_eq_zero_of_lt hnonneg hs, zero_add]
  · rw [Int.add_mul_emod_self_right, Int.emod_eq_of_lt hnonneg hs]

theorem hiOf_toInt (h : ValidBits bits) {r : Int64} (h0 : 0 ≤ r)
    (hr : r ≤ shrOf bits Int64.maxValue) :
    (hiOf bits r).toInt = r.toInt * 2 ^ bits.toNat + (2 ^ bits.toNat - 1) := by
  have hv := maskOf_toInt h
  have hp := pow_pos bits
  rw [hiOf, or_toInt h h0 hr (by omega) (by omega), hv]

theorem slot_toInt (h : ValidBits bits) (x : Int64) :
    (x &&& maskOf bits).toInt = x.toInt % 2 ^ bits.toNat :=
  Checked.and_mask_val x h.2 (maskOf_toInt h)

/-- The range of a record is the ids that decode to it. -/
theorem between_iff (h : ValidBits bits) {r : Int64} (h0 : 0 ≤ r)
    (hr : r ≤ shrOf bits Int64.maxValue) (id : Int64) :
    Sql.between (shlOf bits r) (hiOf bits r) id = true ↔
      id.toInt / 2 ^ bits.toNat = r.toInt := by
  have hp := pow_pos bits
  simp only [Sql.between, Bool.and_eq_true, decide_eq_true_eq, Int64.le_iff_toInt_le,
    shlOf_toInt h h0 hr, hiOf_toInt h h0 hr]
  rw [Int.ediv_eq_iff_of_pos hp]
  constructor
  · rintro ⟨h1, h2⟩
    exact ⟨by linarith, by linarith⟩
  · rintro ⟨h1, h2⟩
    exact ⟨by linarith, by linarith⟩

theorem packId_injective (h : ValidBits bits) {r : Int64} (h0 : 0 ≤ r)
    (hr : r ≤ shrOf bits Int64.maxValue) {s t : UInt8} (hs : (s.toNat : ℤ) < 2 ^ bits.toNat)
    (ht : (t.toNat : ℤ) < 2 ^ bits.toNat) (he : packId bits r s = packId bits r t) : s = t := by
  have h1 := packId_toInt h h0 hr hs
  have h2 := packId_toInt h h0 hr ht
  rw [he, h2] at h1
  exact UInt8.toNat_inj.mp (by omega)

theorem packId_between (h : ValidBits bits) {r : Int64} (h0 : 0 ≤ r)
    (hr : r ≤ shrOf bits Int64.maxValue) {s : UInt8} (hs : (s.toNat : ℤ) < 2 ^ bits.toNat) :
    Sql.between (shlOf bits r) (hiOf bits r) (packId bits r s) = true := by
  rw [between_iff h h0 hr, packId_toInt h h0 hr hs]
  have hp := pow_pos bits
  rw [Int.ediv_eq_iff_of_pos hp]
  constructor
  · nlinarith [Int.natCast_nonneg s.toNat]
  · nlinarith

end SearchEngine

end Unfydqry
