import Unfydqry.Lib.Sequence
import Unfydqry.UndisturbedCalls
import Unfydqry.Engine.RecordEffect

/-! # Batches and single calls

Each batch call succeeds exactly when the single calls, made in order, all do, and leaves what
they leave. A batch of records that is not accepted writes nothing. -/

namespace Unfydqry.SearchEngine

open LockedStore Prog Host

variable (env : Env) (e : SearchEngine)

/-- The single call of one item of a batch of records. -/
def indexItem (r : RecordIndexItem) : EngineM Unit := indexRecord env e r.recordId r.fields

theorem indexBatch_batchesEach (o : OpenEngine) (db : Db) :
    BatchesEach (fun i => index env e i.id i.text) (indexBatch env e) (world db o) := by
  cases hp : o.poisoned with
  | true => exact batchesEach_poisoned ⟨rfl, rfl⟩ hp rfl (fun _ => trivial) fun _ _ => trivial
  | false =>
    have hcall : ∀ (i : IndexItem) (db : Db), True →
        (index env e i.id i.text).run (quiet db none o.fieldBits false) =
          (.ok (), quiet (db.put env e i.id i.text) none o.fieldBits false) :=
      fun i db _ => index_run env e db o.fieldBits i.id i.text
    rw [world_quiet hp]
    exact batchesEach_quiet hcall (fun _ _ h => absurd trivial h) db
      (fun items _ => indexBatch_run env e db o.fieldBits items)
      fun _ h => absurd (fun _ _ => trivial) h

theorem removeBatch_batchesEach (o : OpenEngine) (db : Db) :
    BatchesEach remove removeBatch (world db o) := by
  cases hp : o.poisoned with
  | true => exact batchesEach_poisoned ⟨rfl, rfl⟩ hp rfl (fun _ => trivial) fun _ _ => trivial
  | false =>
    have hcall : ∀ (id : Int64) (db : Db), True →
        (remove id).run (quiet db none o.fieldBits false) =
          (.ok (), quiet (db.drop id) none o.fieldBits false) :=
      fun id db _ => remove_run db o.fieldBits id
    rw [world_quiet hp]
    exact batchesEach_quiet hcall (fun _ _ h => absurd trivial h) db
      (fun ids _ => removeBatch_run db o.fieldBits ids)
      fun _ h => absurd (fun _ _ => trivial) h

variable {o : OpenEngine} (hb : ValidBits o.fieldBits)

include hb

theorem indexRecordsBatch_batchesEach (db : Db) :
    BatchesEach (indexItem env e) (indexRecordsBatch env e) (world db o) := by
  cases hp : o.poisoned with
  | true =>
    exact batchesEach_poisoned ⟨rfl, rfl⟩ hp rfl
      (fun r => locks_indexRecord env e r.recordId r.fields)
      fun _ _ => locks_indexRecordsBatch env e rfl
  | false =>
    have hcall : ∀ (r : RecordIndexItem) (db : Db),
        RecordOk o.fieldBits r.recordId ∧ SlotsOk o.fieldBits r.fields →
        (indexItem env e r).run (quiet db none o.fieldBits false) =
          (.ok (), quiet (db.putRecord env e o.fieldBits r.recordId r.fields) none o.fieldBits
            false) :=
      fun r db h => indexRecord_run env e db hb h.1 h.2
    have hrefused : ∀ (r : RecordIndexItem) (db : Db),
        ¬ (RecordOk o.fieldBits r.recordId ∧ SlotsOk o.fieldBits r.fields) →
        ∃ err, (indexItem env e r).run (quiet db none o.fieldBits false) =
          (.err err, quiet db none o.fieldBits false) :=
      fun r db => indexRecord_rejected env e db hb
    rw [world_quiet hp]
    exact batchesEach_quiet hcall hrefused db (fun records => indexRecordsBatch_run env e db hb)
      fun records => indexRecordsBatch_rejected env e db hb

theorem indexRecordsBatch_poisoned (hp : o.poisoned = true) {records : List RecordIndexItem}
    (hne : records ≠ []) (db : Db) : ∃ err,
      (indexRecordsBatch env e records).run (world db o) = (.err err, world db o) := by
  have hlen : ¬ records.isEmpty = true := fun h => hne (List.isEmpty_iff.mp h)
  have hlocked : ∀ k : Unit → EngineM ℕ, ∃ err,
      (lockedConn >>= k).eval (world db o) = (.err err, world db o) := by
    intro k
    refine ⟨.db "connection mutex poisoned", ?_⟩
    rw [eval_bind]
    simp only [lockedConn, acquire, eval, world, hp, if_true, andThen_err]
  have heval : ∃ err, (indexRecordsBatch env e records).eval (world db o) =
      (.err err, world db o) := by
    have hcell : (world db o).cell = o.fieldBits := rfl
    rw [indexRecordsBatch, if_neg hlen]
    simp only [fieldBits, maxRecordId, eval_bind, eval_read, andThen_ok, hcell, shr_some hb,
      shl_some hb, eval_trap_some]
    cases hc : checkRecords o.fieldBits (shrOf o.fieldBits Int64.maxValue) (shlOf o.fieldBits 1)
        records with
    | error err => exact ⟨err, by simp only [orThrow, eval_throw, andThen_err]⟩
    | ok u =>
      simp only [orThrow, eval_pure, andThen_ok]
      exact hlocked _
  obtain ⟨err, he⟩ := heval
  refine ⟨err, ?_⟩
  rw [run_of_eval he, World.leave_idle _ ⟨rfl, rfl⟩]

/-- Records of which each fits are accepted one by one, in whatever file. -/
theorem indexItems_accepted {records : List RecordIndexItem}
    (h : RecordsOk o.fieldBits records) (hp : o.poisoned = false ∨ records = []) (db : Db) :
    runEach (indexItem env e) records (world db o) ≠ none ∧
      ∀ r ∈ records, ∀ file, ∃ v, (indexItem env e r).run (world file o) = (.ok (), v) := by
  rcases hp with hp | rfl
  · have hcall : ∀ r ∈ records, ∀ file, (indexItem env e r).run (world file o) =
        (.ok (), world (file.putRecord env e o.fieldBits r.recordId r.fields) o) := by
      intro r hr file
      rw [world_quiet hp, world_quiet hp]
      exact indexRecord_run env e file hb (h r hr).1 (h r hr).2
    refine ⟨?_, fun r hr file => ⟨_, hcall r hr file⟩⟩
    clear h
    induction records generalizing db with
    | nil => simp [runEach]
    | cons r records ih =>
      rw [List.forall_mem_cons] at hcall
      rw [runEach_cons_ok (hcall.1 db)]
      exact ih _ hcall.2
  · exact ⟨by simp [runEach], by simp⟩

theorem indexRecordsBatch_refused {records : List RecordIndexItem} {db : Db}
    (h : runEach (indexItem env e) records (world db o) = none ∨
      ∃ r ∈ records, ∃ file, ∀ v, (indexItem env e r).run (world file o) ≠ (.ok (), v)) :
    ∃ err, (indexRecordsBatch env e records).run (world db o) = (.err err, world db o) := by
  have hrefused : ¬ (RecordsOk o.fieldBits records ∧ (o.poisoned = false ∨ records = [])) := by
    rintro ⟨hok, hp⟩
    obtain ⟨hall, hone⟩ := indexItems_accepted env e hb hok hp db
    rcases h with h | ⟨r, hr, file, hbad⟩
    · exact hall h
    · obtain ⟨v, hv⟩ := hone r hr file
      exact hbad v hv
  cases hp : o.poisoned with
  | true =>
    by_cases hnil : records = []
    · exact absurd ⟨by simp [RecordsOk, hnil], .inr hnil⟩ hrefused
    · exact indexRecordsBatch_poisoned env e hb hp hnil db
  | false =>
    rw [world_quiet hp]
    exact indexRecordsBatch_rejected env e db hb fun hok => hrefused ⟨hok, .inl hp⟩

/-- Every batch call is its single calls made in order, and a batch of records is refused as a
whole when any of them would be. -/
theorem batch_calls (db : Db) :
    BatchesEach (fun i => index env e i.id i.text) (indexBatch env e) (world db o) ∧
    BatchesEach remove removeBatch (world db o) ∧
    BatchesEach (indexItem env e) (indexRecordsBatch env e) (world db o) ∧
    ∀ records, (runEach (indexItem env e) records (world db o) = none ∨
        ∃ r ∈ records, ∃ file, ∀ v, (indexItem env e r).run (world file o) ≠ (.ok (), v)) →
      ∃ err, (indexRecordsBatch env e records).run (world db o) = (.err err, world db o) :=
  ⟨indexBatch_batchesEach env e o db, removeBatch_batchesEach o db,
    indexRecordsBatch_batchesEach env e hb db, fun _ => indexRecordsBatch_refused env e hb⟩

omit hb

/-- A batch that names one record twice. -/
theorem batch_calls_twice :
    let e : SearchEngine := ⟨NormalizeProfile.loose.options, .substring⟩
    let w := world .fresh ⟨e, DEFAULT_FIELD_BITS, false⟩
    let records : List RecordIndexItem := [⟨1, [⟨0, ['a']⟩, ⟨2, ['b']⟩]⟩, ⟨1, [⟨0, ['c']⟩]⟩]
    ∀ n v, (indexRecordsBatch .ascii e records).run w = (.ok n, v) ↔
      runEach (indexItem .ascii e) records w = some v ∧ n = 2 :=
  (batch_calls .ascii ⟨NormalizeProfile.loose.options, .substring⟩
    (o := ⟨⟨NormalizeProfile.loose.options, .substring⟩, DEFAULT_FIELD_BITS, false⟩)
    validBits_default .fresh).2.2.1 [⟨1, [⟨0, ['a']⟩, ⟨2, ['b']⟩]⟩, ⟨1, [⟨0, ['c']⟩]⟩]

end Unfydqry.SearchEngine
