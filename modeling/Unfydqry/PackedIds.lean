import Unfydqry.Engine.RewriteEffect

/-! # The packed ids as a partition

A width splits the non-negative ids into one range for each record id, in the order of the
record ids. -/

namespace Unfydqry

open LockedStore Prog

namespace SearchEngine

/-- What the record layer relies on of `max_record_id`, `record_id_range`, `record_of` and
`slot_of`; the range of record `r` is `[lo r, hi r]`. -/
structure PackedIds (w : EngineWorld) (max : Int64) (lo hi : Int64 → Int64) : Prop where
  top : maxRecordId.eval w = (.ok max, w)
  range : ∀ r, 0 ≤ r → r ≤ max → (recordIdRange r).eval w = (.ok (lo r, hi r), w)
  /-- `(r << bits) | s` is `r * 2 ^ bits + s`. -/
  packed : ∀ r s : Int64, 0 ≤ r → r ≤ max → 0 ≤ s → s.toInt < 2 ^ w.cell.toNat →
    ∃ x, (Checked.shl r w.cell).map (· ||| s) = some x ∧
      x.toInt = r.toInt * 2 ^ w.cell.toNat + s.toInt ∧ 0 ≤ x ∧ lo r ≤ x ∧ x ≤ hi r ∧
      (recordOf x).eval w = (.ok r, w) ∧ (lowMask w.cell).map (x &&& ·) = some s ∧
      (slotOf x).eval w = (.ok (Checked.asU8 s), w) ∧
      (s < 256 → Checked.ofU8 (Checked.asU8 s) = s)
  ordered : ∀ r r', 0 ≤ r → r < r' → r' ≤ max → hi r < lo r'
  disjoint : ∀ r r' x, 0 ≤ r → r ≤ max → 0 ≤ r' → r' ≤ max → lo r ≤ x → x ≤ hi r →
    lo r' ≤ x → x ≤ hi r' → r = r'
  covered : ∀ x, 0 ≤ x → ∃! r, (0 ≤ r ∧ r ≤ max) ∧ lo r ≤ x ∧ x ≤ hi r
  last : hi max = Int64.maxValue

variable {bits : UInt8}

theorem zero_le_iff (x : Int64) : 0 ≤ x ↔ 0 ≤ x.toInt := Int64.le_iff_toInt_le

/-- Narrowing a slot below 256 to a byte keeps it. -/
theorem ofU8_asU8 {s : Int64} (h0 : 0 ≤ s) (hs : s < 256) :
    Checked.ofU8 (Checked.asU8 s) = s := by
  rw [zero_le_iff] at h0
  have hlt : s.toInt < 256 := Int64.lt_iff_toInt_lt.mp hs
  have hnat := Checked.toNat_of_nonneg h0
  have hbyte : (Checked.asU8 s).toNat = s.toBitVec.toNat := by
    change (s.toBitVec.setWidth 8).toNat = _
    rw [BitVec.toNat_setWidth]
    exact Nat.mod_eq_of_lt (by omega)
  rw [← Int64.toInt_inj, Checked.toInt_ofU8, hbyte, hnat]

theorem in_range_iff (h : ValidBits bits) {r : Int64} (h0 : 0 ≤ r)
    (hr : r ≤ shrOf bits Int64.maxValue) (x : Int64) :
    shlOf bits r ≤ x ∧ x ≤ hiOf bits r ↔ x.toInt / 2 ^ bits.toNat = r.toInt := by
  rw [← between_iff h h0 hr, Sql.between, Bool.and_eq_true, decide_eq_true_eq,
    decide_eq_true_eq]

theorem shrOf_pack (h : ValidBits bits) {r s x : Int64} (hs0 : 0 ≤ s)
    (hs : s.toInt < 2 ^ bits.toNat) (hx : x.toInt = r.toInt * 2 ^ bits.toNat + s.toInt) :
    shrOf bits x = r := by
  rw [zero_le_iff] at hs0
  rw [← Int64.toInt_inj, shrOf_toInt h, hx, add_comm,
    Int.add_mul_ediv_right _ _ (pow_pos bits).ne', Int.ediv_eq_zero_of_lt hs0 hs, zero_add]

theorem mask_pack (h : ValidBits bits) {r s x : Int64} (hs0 : 0 ≤ s)
    (hs : s.toInt < 2 ^ bits.toNat) (hx : x.toInt = r.toInt * 2 ^ bits.toNat + s.toInt) :
    x &&& maskOf bits = s := by
  rw [zero_le_iff] at hs0
  rw [← Int64.toInt_inj, slot_toInt h, hx, add_comm, Int.add_mul_emod_self_right,
    Int.emod_eq_of_lt hs0 hs]

theorem hi_lt_lo (h : ValidBits bits) {r r' : Int64} (h0 : 0 ≤ r) (hlt : r < r')
    (hr' : r' ≤ shrOf bits Int64.maxValue) : hiOf bits r < shlOf bits r' := by
  have h0' : 0 ≤ r' := Int64.le_of_lt (Int64.lt_of_le_of_lt h0 hlt)
  have hr : r ≤ shrOf bits Int64.maxValue := Int64.le_of_lt (Int64.lt_of_lt_of_le hlt hr')
  rw [Int64.lt_iff_toInt_lt] at hlt ⊢
  rw [hiOf_toInt h h0 hr, shlOf_toInt h h0' hr']
  have hp := pow_pos bits
  have hstep : (r.toInt + 1) * 2 ^ bits.toNat ≤ r'.toInt * 2 ^ bits.toNat :=
    mul_le_mul_of_nonneg_right (by omega) hp.le
  rw [add_mul, one_mul] at hstep
  omega

theorem shrOf_mono (h : ValidBits bits) {x y : Int64} (hxy : x ≤ y) :
    shrOf bits x ≤ shrOf bits y := by
  rw [Int64.le_iff_toInt_le] at hxy ⊢
  rw [shrOf_toInt h, shrOf_toInt h]
  exact Int.ediv_le_ediv (pow_pos bits) hxy

/-- The record that owns an id is its quotient. -/
theorem owner_unique (h : ValidBits bits) {x : Int64} (h0 : 0 ≤ x) :
    ∃! r, (0 ≤ r ∧ r ≤ shrOf bits Int64.maxValue) ∧ shlOf bits r ≤ x ∧ x ≤ hiOf bits r := by
  have hr : 0 ≤ shrOf bits x ∧ shrOf bits x ≤ shrOf bits Int64.maxValue :=
    ⟨shrOf_nonneg h h0, shrOf_mono h (Int64.le_maxValue x)⟩
  refine ⟨shrOf bits x, ⟨hr, ?_⟩, ?_⟩
  · exact (in_range_iff h hr.1 hr.2 x).mpr (shrOf_toInt h x).symm
  · rintro r ⟨⟨hr0, hr1⟩, hx⟩
    have howner := (in_range_iff h hr0 hr1 x).mp hx
    rw [← Int64.toInt_inj, shrOf_toInt h, howner]

theorem hi_last (h : ValidBits bits) :
    hiOf bits (shrOf bits Int64.maxValue) = Int64.maxValue := by
  have h0 : (0 : Int64) ≤ shrOf bits Int64.maxValue := shrOf_nonneg h (by decide)
  have hmax : Int64.maxValue.toInt = 2 ^ 63 - 1 := by decide
  have hb := h.2
  have hsplit : (2 : ℤ) ^ 63 = 2 ^ (63 - bits.toNat) * 2 ^ bits.toNat := by
    rw [← pow_add]
    congr 1
    omega
  rw [← Int64.toInt_inj, hiOf_toInt h h0 (Int64.le_refl _), maxRecord_toInt h, hmax, hsplit]
  ring

/-- At every width the ids of the records partition the non-negative ids. -/
theorem packed_ids_partition (w : EngineWorld) (hb : ValidBits w.cell) :
    ∃ max lo hi, PackedIds w max lo hi := by
  refine ⟨shrOf w.cell Int64.maxValue, shlOf w.cell, hiOf w.cell, ?_, ?_, ?_, ?_, ?_, ?_, ?_⟩
  · simp only [maxRecordId, fieldBits, eval_bind, eval_read, andThen_ok, shr_some hb,
      eval_trap_some]
  · exact fun r _ _ => eval_recordIdRange w hb r
  · intro r s h0 hr hs0 hs
    have hx := or_toInt hb h0 hr ((zero_le_iff s).mp hs0) hs
    have hin := (in_range_iff hb h0 hr (shlOf w.cell r ||| s)).mpr (by
      rw [← shrOf_toInt hb, shrOf_pack hb hs0 hs hx])
    have hnonneg : 0 ≤ shlOf w.cell r ||| s := by
      rw [zero_le_iff] at h0 hs0 ⊢
      rw [hx]
      have hp := pow_pos w.cell
      positivity
    refine ⟨shlOf w.cell r ||| s, ?_, hx, hnonneg, hin.1, hin.2, ?_, ?_, ?_, ofU8_asU8 hs0⟩
    · rw [shl_some hb, Option.map_some]
    · simp only [recordOf, fieldBits, eval_bind, eval_read, andThen_ok, shr_some hb,
        eval_trap_some, shrOf_pack hb hs0 hs hx]
    · rw [lowMask_some hb, Option.map_some, mask_pack hb hs0 hs hx]
    · simp only [slotOf, fieldBits, eval_bind, eval_read, andThen_ok, lowMask_some hb,
        eval_trap_some, eval_pure, mask_pack hb hs0 hs hx]
  · exact fun r r' h0 hlt hr' => hi_lt_lo hb h0 hlt hr'
  · intro r r' x h0 hr h0' hr' hlo hhi hlo' hhi'
    have howner := (in_range_iff hb h0 hr x).mp ⟨hlo, hhi⟩
    rw [(in_range_iff hb h0' hr' x).mp ⟨hlo', hhi'⟩] at howner
    exact (Int64.toInt_inj.mp howner).symm
  · exact fun x h0 => owner_unique hb h0
  · exact hi_last hb

theorem packed_ids_partition_default :
    ∃ max lo hi, PackedIds (quiet {} none DEFAULT_FIELD_BITS false) max lo hi :=
  packed_ids_partition (quiet {} none DEFAULT_FIELD_BITS false) validBits_default

end SearchEngine

end Unfydqry
