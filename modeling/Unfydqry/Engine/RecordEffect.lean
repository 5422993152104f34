import Unfydqry.Engine.Effect

/-! # What each record call does when no statement fails -/

namespace Unfydqry.SearchEngine

open LockedStore Prog

/-- A record id the width leaves room for. -/
def RecordOk (bits : UInt8) (recordId : Int64) : Prop :=
  0 ≤ recordId ∧ recordId ≤ shrOf bits Int64.maxValue

instance (bits : UInt8) (recordId : Int64) : Decidable (RecordOk bits recordId) :=
  inferInstanceAs (Decidable (_ ∧ _))

/-- Slots that fit and are distinct. -/
def SlotsOk (bits : UInt8) (fields : List FieldValue) : Prop :=
  (∀ f ∈ fields, (f.slot.toNat : ℤ) < 2 ^ bits.toNat) ∧ (fields.map FieldValue.slot).Nodup

instance (bits : UInt8) (fields : List FieldValue) : Decidable (SlotsOk bits fields) :=
  inferInstanceAs (Decidable (_ ∧ _))

/-- The records a batch accepts. -/
def RecordsOk (bits : UInt8) (records : List RecordIndexItem) : Prop :=
  ∀ r ∈ records, RecordOk bits r.recordId ∧ SlotsOk bits r.fields

instance (bits : UInt8) (records : List RecordIndexItem) : Decidable (RecordsOk bits records) :=
  inferInstanceAs (Decidable (∀ r ∈ records, _))

variable (env : Env) (e : SearchEngine) (db : Db) (saved : Option Db) {bits : UInt8} (held : Bool)

theorem eval_checkRecordId (w : EngineWorld) (hb : ValidBits w.cell) (r : Int64) :
    (checkRecordId r).eval w =
      (if RecordOk w.cell r then .ok w.cell
        else .err (.db s!"record_id {r} out of range for field_bits {w.cell}"), w) := by
  simp only [checkRecordId, fieldBits, maxRecordId, eval_bind, eval_read, andThen_ok,
    shr_some hb, eval_trap_some]
  by_cases h : RecordOk w.cell r
  · have h' : 0 ≤ r ∧ r ≤ shrOf w.cell Int64.maxValue := h
    rw [if_pos h', if_pos h]
    rfl
  · have h' : ¬ (0 ≤ r ∧ r ≤ shrOf w.cell Int64.maxValue) := h
    rw [if_neg h', if_neg h]
    rfl

theorem eval_recordIdRange (w : EngineWorld) (hb : ValidBits w.cell) (r : Int64) :
    (recordIdRange r).eval w = (.ok (shlOf w.cell r, hiOf w.cell r), w) := by
  simp only [recordIdRange, fieldBits, eval_bind, eval_read, andThen_ok, shl_some hb,
    lowMask_some hb, eval_trap_some, eval_pure, hiOf]

theorem eval_checkRecordId_quiet (hb : ValidBits bits) (r : Int64) :
    (checkRecordId r).eval (quiet db saved bits held) =
      (if RecordOk bits r then .ok bits
        else .err (.db s!"record_id {r} out of range for field_bits {bits}"),
        quiet db saved bits held) :=
  eval_checkRecordId (quiet db saved bits held) hb r

theorem eval_recordIdRange_quiet (hb : ValidBits bits) (r : Int64) :
    (recordIdRange r).eval (quiet db saved bits held) =
      (.ok (shlOf bits r, hiOf bits r), quiet db saved bits held) :=
  eval_recordIdRange (quiet db saved bits held) hb r

theorem eval_clearIdRange (bits : UInt8) (lo hi : Int64) :
    (clearIdRange lo hi).eval (quiet db saved bits held) =
      (.ok (), quiet (db.clearRange lo hi) saved bits held) := by
  simp only [clearIdRange, Sql.deleteDocsBetween, Sql.deleteEntriesBetween, eval_bind,
    Sql.eval_effect, andThen_ok]
  rfl

theorem ofU8_lt_cap (hb : ValidBits bits) (s : UInt8) :
    Checked.ofU8 s ≥ shlOf bits 1 ↔ ¬ (s.toNat : ℤ) < 2 ^ bits.toNat := by
  rw [ge_iff_le, Int64.le_iff_toInt_le, Checked.toInt_ofU8, shlOne_toInt hb, not_lt]

theorem checkSlots_ok (hb : ValidBits bits) (call : String) (fields : List FieldValue)
    (seen : List UInt8) (hs : ∀ f ∈ fields, (f.slot.toNat : ℤ) < 2 ^ bits.toNat)
    (hn : (fields.map FieldValue.slot).Nodup) (hd : ∀ f ∈ fields, f.slot ∉ seen) :
    checkSlots call bits (shlOf bits 1) seen fields = .ok () := by
  induction fields generalizing seen with
  | nil => rfl
  | cons f fields ih =>
    simp only [List.map_cons, List.nodup_cons] at hn
    have hfit : ¬ Checked.ofU8 f.slot ≥ shlOf bits 1 := by
      rw [ofU8_lt_cap hb, not_not]
      exact hs f (List.mem_cons_self ..)
    rw [checkSlots, if_neg hfit, if_neg (hd f (List.mem_cons_self ..))]
    refine ih _ (fun g hg => hs g (List.mem_cons_of_mem _ hg)) hn.2 fun g hg => ?_
    rw [List.mem_append, List.mem_singleton, not_or]
    refine ⟨hd g (List.mem_cons_of_mem _ hg), fun heq => hn.1 ?_⟩
    exact List.mem_map.mpr ⟨g, hg, heq⟩

theorem slotsOk_of_check (hb : ValidBits bits) (call : String) (fields : List FieldValue)
    (seen : List UInt8) (h : checkSlots call bits (shlOf bits 1) seen fields = .ok ()) :
    SlotsOk bits fields ∧ ∀ f ∈ fields, f.slot ∉ seen := by
  induction fields generalizing seen with
  | nil => exact ⟨⟨by simp, by simp⟩, by simp⟩
  | cons f fields ih =>
    unfold checkSlots at h
    split at h
    · cases h
    · rename_i hfit
      split at h
      · cases h
      · rename_i hnew
        rw [ofU8_lt_cap hb, not_not] at hfit
        obtain ⟨⟨hs, hn⟩, hd⟩ := ih _ h
        refine ⟨⟨List.forall_mem_cons.mpr ⟨hfit, hs⟩, ?_⟩, List.forall_mem_cons.mpr ⟨hnew, ?_⟩⟩
        · rw [List.map_cons, List.nodup_cons]
          refine ⟨fun hm => ?_, hn⟩
          obtain ⟨g, hg, heq⟩ := List.mem_map.mp hm
          exact hd g hg (by simp [heq])
        · exact fun g hg hin => hd g hg (List.mem_append_left _ hin)

theorem checkSlots_iff (hb : ValidBits bits) (call : String) (fields : List FieldValue) :
    checkSlots call bits (shlOf bits 1) [] fields = .ok () ↔ SlotsOk bits fields :=
  ⟨fun h => (slotsOk_of_check hb call fields [] h).1,
    fun h => checkSlots_ok hb call fields [] h.1 h.2 (by simp)⟩

theorem checkSlots_error (hb : ValidBits bits) (call : String) {fields : List FieldValue}
    (h : ¬ SlotsOk bits fields) :
    ∃ err, checkSlots call bits (shlOf bits 1) [] fields = .error err := by
  cases hc : checkSlots call bits (shlOf bits 1) [] fields with
  | ok u => exact absurd ((checkSlots_iff hb call fields).mp hc) h
  | error err => exact ⟨err, rfl⟩

theorem eval_insertField (r : Int64) (f : FieldValue)
    (hfree : db.docs[packId bits r f.slot]? = none) :
    (insertField env e (shlOf bits r) f).eval (quiet db saved bits held) =
      (.ok (), quiet (db.putField env e bits r f) saved bits held) := by
  unfold insertField Db.putField
  by_cases hn : (e.normalizer env f.text).isEmpty = true
  · simp only [hn, ↓reduceIte, eval_pure]
  · simp only [hn, Bool.false_eq_true, ↓reduceIte, eval_bind]
    rw [show shlOf bits r ||| Checked.ofU8 f.slot = packId bits r f.slot from rfl,
      Sql.eval_insertDoc _ _ _ _ _ hfree]
    simp only [andThen_ok, Sql.replaceEntry, Sql.eval_effect]
    rfl

theorem lookup_putField (r : Int64) (f : FieldValue) {a : Int64}
    (ha : a ≠ packId bits r f.slot) : (db.putField env e bits r f).docs[a]? = db.docs[a]? := by
  unfold Db.putField
  split
  · rfl
  · rw [Db.put, Table.lookup_insert, if_neg ha]

/-- The loop over the fields never meets a stored id: the range is clear and the slots
are distinct. -/
theorem eval_insertFields (hb : ValidBits bits) {r : Int64} (hr : RecordOk bits r)
    (fields : List FieldValue) (hs : SlotsOk bits fields)
    (hfree : ∀ f ∈ fields, db.docs[packId bits r f.slot]? = none) :
    (each (insertField env e (shlOf bits r)) fields).eval (quiet db saved bits held) =
      (.ok (), quiet (fields.foldl (Db.putField env e bits r) db) saved bits held) := by
  induction fields generalizing db with
  | nil => rfl
  | cons f fields ih =>
    obtain ⟨hfit, hn⟩ := hs
    simp only [List.map_cons, List.nodup_cons] at hn
    rw [List.forall_mem_cons] at hfit hfree
    simp only [each, eval_bind, eval_insertField env e db saved held r f hfree.1, andThen_ok,
      List.foldl_cons]
    refine ih _ ⟨hfit.2, hn.2⟩ fun g hg => ?_
    rw [lookup_putField]
    · exact hfree.2 g hg
    · intro heq
      have hslot := packId_injective hb hr.1 hr.2 (hfit.2 g hg) hfit.1 heq
      exact hn.1 (List.mem_map.mpr ⟨g, hg, hslot⟩)

theorem eval_insertCleared (hb : ValidBits bits) {r : Int64} (hr : RecordOk bits r)
    (fields : List FieldValue) (hs : SlotsOk bits fields) :
    (each (insertField env e (shlOf bits r)) fields).eval
        (quiet (db.clearRange (shlOf bits r) (hiOf bits r)) saved bits held) =
      (.ok (), quiet (db.putRecord env e bits r fields) saved bits held) := by
  refine eval_insertFields env e _ saved held hb hr fields hs fun f hf => ?_
  rw [Db.clearRange, Table.lookup_eraseWhere, if_pos]
  exact packId_between hb hr.1 hr.2 (hs.1 f hf)

theorem indexRecord_run (hb : ValidBits bits) {r : Int64} (hr : RecordOk bits r)
    {fields : List FieldValue} (hs : SlotsOk bits fields) :
    (indexRecord env e r fields).run (quiet db none bits false) =
      (.ok (), quiet (db.putRecord env e bits r fields) none bits false) := by
  apply run_of_eval (v := quiet (db.putRecord env e bits r fields) none bits true)
  simp only [indexRecord, lockedConn, eval_bind, eval_checkRecordId_quiet _ _ _ hb, if_pos hr,
    andThen_ok, shl_some hb, eval_trap_some, (checkSlots_iff hb _ fields).mpr hs, orThrow,
    eval_pure, eval_recordIdRange_quiet _ _ _ hb, eval_acquire_quiet, eval_startTx_quiet,
    eval_clearIdRange,
    eval_insertCleared env e db _ _ hb hr fields hs, eval_commitTx_quiet]

theorem indexRecord_rejected (hb : ValidBits bits) {r : Int64} {fields : List FieldValue}
    (h : ¬ (RecordOk bits r ∧ SlotsOk bits fields)) :
    ∃ err, (indexRecord env e r fields).run (quiet db none bits false) =
      (.err err, quiet db none bits false) := by
  by_cases hr : RecordOk bits r
  · have hslots : ¬ SlotsOk bits fields := fun hs => h ⟨hr, hs⟩
    obtain ⟨err, he⟩ := checkSlots_error hb "index_record" hslots
    refine ⟨err, run_of_eval (v := quiet db none bits false) ?_⟩
    simp only [indexRecord, eval_bind, eval_checkRecordId_quiet _ _ _ hb, if_pos hr, andThen_ok,
      shl_some hb, eval_trap_some, he, orThrow, eval_throw, andThen_err]
  · refine ⟨.db s!"record_id {r} out of range for field_bits {bits}",
      run_of_eval (v := quiet db none bits false) ?_⟩
    simp only [indexRecord, eval_bind, eval_checkRecordId_quiet _ _ _ hb, if_neg hr, andThen_err]

theorem checkRecords_iff (hb : ValidBits bits) (records : List RecordIndexItem) :
    checkRecords bits (shrOf bits Int64.maxValue) (shlOf bits 1) records = .ok () ↔
      RecordsOk bits records := by
  induction records with
  | nil => simp [checkRecords, RecordsOk]
  | cons r records ih =>
    rw [RecordsOk, List.forall_mem_cons]
    unfold checkRecords
    by_cases hr : RecordOk bits r.recordId
    · have hr' : 0 ≤ r.recordId ∧ r.recordId ≤ shrOf bits Int64.maxValue := hr
      rw [if_pos hr']
      by_cases hs : SlotsOk bits r.fields
      · rw [(checkSlots_iff hb _ _).mpr hs]
        exact ⟨fun h => ⟨⟨hr, hs⟩, ih.mp h⟩, fun h => ih.mpr h.2⟩
      · obtain ⟨err, he⟩ := checkSlots_error hb "index_records_batch" hs
        rw [he]
        constructor
        · intro h
          cases h
        · exact fun h => absurd h.1.2 hs
    · have hr' : ¬ (0 ≤ r.recordId ∧ r.recordId ≤ shrOf bits Int64.maxValue) := hr
      rw [if_neg hr']
      constructor
      · intro h
        cases h
      · exact fun h => absurd h.1.1 hr

theorem eval_putRecords (hb : ValidBits bits) (records : List RecordIndexItem)
    (hok : RecordsOk bits records) :
    (each (fun r => do
        let (lo, hi) ← recordIdRange r.recordId
        clearIdRange lo hi
        each (insertField env e lo) r.fields) records).eval (quiet db saved bits held) =
      (.ok (), quiet (db.putRecords env e bits records) saved bits held) := by
  induction records generalizing db with
  | nil => rfl
  | cons r records ih =>
    rw [RecordsOk, List.forall_mem_cons] at hok
    simp only [each, eval_bind, eval_recordIdRange_quiet _ _ _ hb, andThen_ok, eval_clearIdRange,
      eval_insertCleared env e db _ _ hb hok.1.1 _ hok.1.2]
    exact ih (db.putRecord env e bits r.recordId r.fields) hok.2

theorem indexRecordsBatch_run (hb : ValidBits bits) {records : List RecordIndexItem}
    (hok : RecordsOk bits records) :
    (indexRecordsBatch env e records).run (quiet db none bits false) =
      (.ok records.length, quiet (db.putRecords env e bits records) none bits false) := by
  cases records with
  | nil => rfl
  | cons r records =>
    apply run_of_eval (v := quiet (db.putRecords env e bits (r :: records)) none bits true)
    have hloop := eval_putRecords env e db (some db) true hb (r :: records) hok
    have hcheck := (checkRecords_iff hb (r :: records)).mpr hok
    rw [indexRecordsBatch, if_neg (by simp)]
    simp only [lockedConn, fieldBits, maxRecordId, eval_bind, eval_read_quiet, andThen_ok,
      shr_some hb, shl_some hb, eval_trap_some, hcheck, orThrow, eval_pure, eval_acquire_quiet,
      eval_startTx_quiet, hloop, eval_commitTx_quiet]

theorem indexRecordsBatch_rejected (hb : ValidBits bits) {records : List RecordIndexItem}
    (h : ¬ RecordsOk bits records) :
    ∃ err, (indexRecordsBatch env e records).run (quiet db none bits false) =
      (.err err, quiet db none bits false) := by
  have hne : ¬ records.isEmpty = true := by
    intro he
    rw [List.isEmpty_iff] at he
    subst he
    exact h (by simp [RecordsOk])
  cases hc : checkRecords bits (shrOf bits Int64.maxValue) (shlOf bits 1) records with
  | ok u => exact absurd ((checkRecords_iff hb records).mp hc) h
  | error err =>
    refine ⟨err, run_of_eval (v := quiet db none bits false) ?_⟩
    rw [indexRecordsBatch, if_neg hne]
    simp only [fieldBits, maxRecordId, eval_bind, eval_read_quiet, andThen_ok, shr_some hb,
      shl_some hb, eval_trap_some, hc, orThrow, eval_throw, andThen_err]

theorem removeRecord_run (hb : ValidBits bits) {r : Int64} (hr : RecordOk bits r) :
    (removeRecord r).run (quiet db none bits false) =
      (.ok (), quiet (db.clearRange (shlOf bits r) (hiOf bits r)) none bits false) := by
  apply run_of_eval (v := quiet (db.clearRange (shlOf bits r) (hiOf bits r)) none bits false)
  simp only [removeRecord, lockedConn, eval_bind, eval_checkRecordId_quiet _ _ _ hb, if_pos hr,
    andThen_ok, eval_recordIdRange_quiet _ _ _ hb, eval_acquire_quiet, eval_clearIdRange,
    eval_release_quiet, Option.getD_none]

theorem removeRecord_rejected (hb : ValidBits bits) {r : Int64} (hr : ¬ RecordOk bits r) :
    ∃ err, (removeRecord r).run (quiet db none bits false) =
      (.err err, quiet db none bits false) := by
  refine ⟨.db s!"record_id {r} out of range for field_bits {bits}",
    run_of_eval (v := quiet db none bits false) ?_⟩
  simp only [removeRecord, eval_bind, eval_checkRecordId_quiet _ _ _ hb, if_neg hr, andThen_err]

end Unfydqry.SearchEngine
