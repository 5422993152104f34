import Unfydqry.Engine.RecordEffect

/-! # The calls that rewrite every row, when no statement fails

`reindex` renews the rows that have a raw text; `change_field_bits` re-packs every
id, or rejects the whole index. -/

namespace Unfydqry

open LockedStore Prog

namespace Db

variable (env : Env) (e : SearchEngine)

/-- The file after one row of `reindex`. -/
def renew (db : Db) (row : Int64 × Text) : Db :=
  let norm := e.normalizer env row.2
  { db with
    docs := db.docs.insert row.1 norm
    entries :=
      match db.entries[row.1]? with
      | some en =>
        db.entries.insert row.1 { en with norm := norm, normRev := some (Search.reverseChars norm) }
      | none => db.entries }

/-- The rows `reindex` reads. -/
def raws (db : Db) : List (Int64 × Text) :=
  (env.sqlite.scan "SELECT id, raw FROM entries WHERE raw IS NOT NULL" [] db.entries).filterMap
    fun r => r.2.raw.map fun raw => (r.1, raw)

def stamped (profile : Text) (db : Db) : Db :=
  { db with metaTable := { db.metaTable with normalizeProfile := some profile } }

def stampedBits (bits : UInt8) (db : Db) : Db :=
  { db with metaTable := { db.metaTable with fieldBits := some (SearchEngine.bitsText bits) } }

def reindexed (db : Db) : Db :=
  ((db.raws env).foldl (renew env e) db).stamped e.options.fingerprint

end Db

namespace SearchEngine

variable (env : Env) (e : SearchEngine) (db : Db) (saved : Option Db) {bits : UInt8} (held : Bool)

theorem eval_renewDocument (bits : UInt8) (row : Int64 × Text) :
    (renewDocument env e row).eval (quiet db saved bits held) =
      (.ok (), quiet (db.renew env e row) saved bits held) := by
  simp only [renewDocument, Sql.updateNorms, Sql.deleteDoc, eval_bind, Sql.eval_effect, andThen_ok]
  cases hrow : db.entries[row.1]? with
  | none =>
    simp only
    rw [Sql.eval_insertDoc _ _ _ _ _ (by rw [Table.lookup_erase, if_pos rfl])]
    simp only [Table.insert_erase_self, Db.renew, hrow]
  | some en =>
    simp only
    rw [Sql.eval_insertDoc _ _ _ _ _ (by rw [Table.lookup_erase, if_pos rfl])]
    simp only [Table.insert_erase_self, Db.renew, hrow]

theorem eval_reindex (bits : UInt8) (held : Bool) :
    (reindex env e).eval (quiet db none bits held) =
      (.ok (db.raws env).length, quiet (db.reindexed env e) none bits true) := by
  simp only [reindex, lockedConn, selectRaws, Sql.replaceProfile, eval_bind, eval_acquire_quiet,
    andThen_ok, Sql.eval_query, eval_startTx_quiet,
    eval_each_quiet _ _ _ _ (fun row db => eval_renewDocument env e db _ _ bits row),
    Sql.eval_effect, eval_commitTx_quiet, eval_pure]
  rfl

theorem reindex_run (bits : UInt8) :
    (reindex env e).run (quiet db none bits false) =
      (.ok (db.raws env).length, quiet (db.reindexed env e) none bits false) :=
  run_of_eval (eval_reindex env e db bits false)

/-! ### `change_field_bits` -/

/-- An id that decodes under the old width and fits the new one. -/
def Repackable (old new : UInt8) (id : Int64) : Prop :=
  0 ≤ id ∧ id &&& maskOf old < shlOf new 1 ∧ shrOf old id ≤ shrOf new Int64.maxValue

instance (old new : UInt8) (id : Int64) : Decidable (Repackable old new id) :=
  inferInstanceAs (Decidable (_ ∧ _ ∧ _))

/-- The id under the new width. -/
def repacked (old new : UInt8) (id : Int64) : Int64 :=
  shlOf new (shrOf old id) ||| (id &&& maskOf old)

variable {old new : UInt8}

theorem shrOf_nonneg (ho : ValidBits old) {id : Int64} (h : 0 ≤ id) : 0 ≤ shrOf old id := by
  rw [Int64.le_iff_toInt_le] at h ⊢
  rw [shrOf_toInt ho]
  exact Int.ediv_nonneg h (pow_pos old).le

theorem repacked_toInt (ho : ValidBits old) (hn : ValidBits new) {id : Int64}
    (h : Repackable old new id) :
    (repacked old new id).toInt =
      id.toInt / 2 ^ old.toNat * 2 ^ new.toNat + id.toInt % 2 ^ old.toNat := by
  obtain ⟨h0, hs, hr⟩ := h
  rw [Int64.lt_iff_toInt_lt, slot_toInt ho, shlOne_toInt hn] at hs
  have hpos := Int.emod_nonneg id.toInt (pow_pos old).ne'
  rw [repacked, or_toInt hn (shrOf_nonneg ho h0) hr (by rw [slot_toInt ho]; exact hpos)
    (by rw [slot_toInt ho]; exact hs), slot_toInt ho, shrOf_toInt ho]

theorem repacked_decode (ho : ValidBits old) (hn : ValidBits new) {id : Int64}
    (h : Repackable old new id) :
    (repacked old new id).toInt / 2 ^ new.toNat = id.toInt / 2 ^ old.toNat ∧
      (repacked old new id).toInt % 2 ^ new.toNat = id.toInt % 2 ^ old.toNat := by
  have hs := h.2.1
  rw [Int64.lt_iff_toInt_lt, slot_toInt ho, shlOne_toInt hn] at hs
  have hpos := Int.emod_nonneg id.toInt (pow_pos old).ne'
  have hp := pow_pos new
  rw [repacked_toInt ho hn h]
  constructor
  · rw [add_comm, Int.add_mul_ediv_right _ _ hp.ne', Int.ediv_eq_zero_of_lt hpos hs, zero_add]
  · rw [add_comm, Int.add_mul_emod_self_right, Int.emod_eq_of_lt hpos hs]

theorem repacked_injective (ho : ValidBits old) (hn : ValidBits new) {id id' : Int64}
    (h : Repackable old new id) (h' : Repackable old new id')
    (he : repacked old new id = repacked old new id') : id = id' := by
  obtain ⟨h1, h2⟩ := repacked_decode ho hn h
  obtain ⟨h3, h4⟩ := repacked_decode ho hn h'
  rw [he] at h1 h2
  rw [← Int64.toInt_inj, ← Int.mul_ediv_add_emod id.toInt (2 ^ old.toNat), ← h1, ← h2, h3, h4,
    Int.mul_ediv_add_emod]

theorem eval_repackId_ok (ho : ValidBits old) (hn : ValidBits new) (bits : UInt8) {id : Int64}
    (h : Repackable old new id) :
    (repackId old new (maskOf old) (shrOf new Int64.maxValue) (shlOf new 1) id).eval
        (quiet db saved bits held) =
      (.ok (repacked old new id), quiet db saved bits held) := by
  have h0 : ¬ id < 0 := by
    have := h.1
    grind
  have h1 : ¬ id &&& maskOf old ≥ shlOf new 1 := by
    have := h.2.1
    grind
  have h2 : ¬ shrOf old id > shrOf new Int64.maxValue := by
    have := h.2.2
    grind
  rw [repackId, if_neg h0]
  simp only [eval_bind, shr_some ho, eval_trap_some, andThen_ok, if_neg h1, if_neg h2,
    shl_some hn, eval_pure]
  rfl

theorem eval_repackId_err (ho : ValidBits old) (bits : UInt8) {id : Int64}
    (h : ¬ Repackable old new id) :
    ∃ err, (repackId old new (maskOf old) (shrOf new Int64.maxValue) (shlOf new 1) id).eval
        (quiet db saved bits held) = (.err err, quiet db saved bits held) := by
  unfold repackId
  by_cases h0 : id < 0
  · rw [if_pos h0]
    exact ⟨_, rfl⟩
  · rw [if_neg h0]
    simp only [eval_bind, shr_some ho, eval_trap_some, andThen_ok]
    by_cases h1 : id &&& maskOf old ≥ shlOf new 1
    · rw [if_pos h1]
      exact ⟨_, rfl⟩
    · rw [if_neg h1]
      by_cases h2 : shrOf old id > shrOf new Int64.maxValue
      · rw [if_pos h2]
        exact ⟨_, rfl⟩
      · exact absurd ⟨by grind, by grind, by grind⟩ h

theorem eval_repackRow_ok (ho : ValidBits old) (hn : ValidBits new) (bits : UInt8)
    {row : Int64 × Text × Option Text} (h : Repackable old new row.1) :
    (repackRow old new (maskOf old) (shrOf new Int64.maxValue) (shlOf new 1) row).eval
        (quiet db saved bits held) =
      (.ok (repacked old new row.1, row.2), quiet db saved bits held) := by
  simp only [repackRow, eval_bind, eval_repackId_ok db saved held ho hn bits h, andThen_ok,
    eval_pure]

theorem eval_repackRow_err (ho : ValidBits old) (bits : UInt8)
    {row : Int64 × Text × Option Text} (h : ¬ Repackable old new row.1) :
    ∃ err, (repackRow old new (maskOf old) (shrOf new Int64.maxValue) (shlOf new 1) row).eval
        (quiet db saved bits held) = (.err err, quiet db saved bits held) := by
  obtain ⟨err, he⟩ := eval_repackId_err db saved held ho bits h
  exact ⟨err, by simp only [repackRow, eval_bind, he, andThen_err]⟩

theorem eval_repackRow_cases (ho : ValidBits old) (hn : ValidBits new) (bits : UInt8)
    (row : Int64 × Text × Option Text) :
    (∃ row', (repackRow old new (maskOf old) (shrOf new Int64.maxValue) (shlOf new 1) row).eval
        (quiet db saved bits held) = (.ok row', quiet db saved bits held)) ∨
    ∃ err, (repackRow old new (maskOf old) (shrOf new Int64.maxValue) (shlOf new 1) row).eval
        (quiet db saved bits held) = (.err err, quiet db saved bits held) := by
  by_cases h : Repackable old new row.1
  · exact .inl ⟨_, eval_repackRow_ok db saved held ho hn bits h⟩
  · exact .inr (eval_repackRow_err db saved held ho bits h)

end SearchEngine

namespace Db

/-- The rows `change_field_bits` reads. -/
def rows (env : Env) (db : Db) : List (Int64 × Text × Option Text) :=
  (env.sqlite.scan "SELECT id, norm, raw FROM entries" [] db.entries).map fun r =>
    (r.1, r.2.norm, r.2.raw)

/-- The row of `entries` that `change_field_bits` writes. -/
def rowEntry (row : Int64 × Text × Option Text) : Int64 × Entry :=
  (row.1, { norm := row.2.1, normRev := some (Search.reverseChars row.2.1), raw := row.2.2 })

def rowDoc (row : Int64 × Text × Option Text) : Int64 × Text := (row.1, row.2.1)

/-- The file with exactly the given rows. -/
def refilled (rows : List (Int64 × Text × Option Text)) (db : Db) : Db :=
  { db with
    docs := Table.insertRows (rows.map rowDoc) db.docs
    entries := Table.insertRows (rows.map rowEntry) db.entries }

def repackedRows (env : Env) (old new : UInt8) (db : Db) : List (Int64 × Text × Option Text) :=
  (db.rows env).map fun row => (SearchEngine.repacked old new row.1, row.2)

/-- The file after a successful change of width. -/
def repacked (env : Env) (old new : UInt8) (db : Db) : Db :=
  ((db.clear).refilled (db.repackedRows env old new)).stampedBits new

end Db

namespace SearchEngine

variable (env : Env) (db : Db) (saved : Option Db) {old new : UInt8} (held : Bool)

theorem eval_insertRow (bits : UInt8) (row : Int64 × Text × Option Text)
    (hd : db.docs[row.1]? = none) (he : db.entries[row.1]? = none) :
    (insertRow row).eval (quiet db saved bits held) =
      (.ok (), quiet (db.refilled [row]) saved bits held) := by
  simp only [insertRow, eval_bind, Sql.eval_insertDoc _ _ _ _ _ hd, andThen_ok]
  exact Sql.eval_insertEntry { db with docs := db.docs.insert row.1 row.2.1 } saved bits held _ he

/-- Rows with distinct ids go into tables that hold none of them. -/
theorem eval_insertRows (bits : UInt8) (rows : List (Int64 × Text × Option Text))
    (hn : (rows.map Prod.fst).Nodup) (hd : ∀ row ∈ rows, db.docs[row.1]? = none)
    (he : ∀ row ∈ rows, db.entries[row.1]? = none) :
    (each insertRow rows).eval (quiet db saved bits held) =
      (.ok (), quiet (db.refilled rows) saved bits held) := by
  induction rows generalizing db with
  | nil => rfl
  | cons row rows ih =>
    rw [List.map_cons, List.nodup_cons] at hn
    rw [List.forall_mem_cons] at hd he
    simp only [each, eval_bind, eval_insertRow db saved held bits row hd.1 he.1, andThen_ok]
    have hne : ∀ r ∈ rows, r.1 ≠ row.1 := fun r hr heq => hn.1 (List.mem_map.mpr ⟨r, hr, heq⟩)
    refine ih (db.refilled [row]) hn.2 (fun r hr => ?_) fun r hr => ?_
    · change (db.docs.insert row.1 row.2.1)[r.1]? = none
      rw [Table.lookup_insert, if_neg (hne r hr)]
      exact hd.2 r hr
    · change (db.entries.insert row.1 (Db.rowEntry row).2)[r.1]? = none
      rw [Table.lookup_insert, if_neg (hne r hr)]
      exact he.2 r hr

theorem rows_nodup : ((db.rows env).map Prod.fst).Nodup := by
  rw [Db.rows, List.map_map]
  have h := (env.sqlite.scan_perm "SELECT id, norm, raw FROM entries" [] db.entries).map Prod.fst
  exact (h.nodup_iff).mpr (Table.toList_nodup _)

theorem repackedRows_nodup (ho : ValidBits old) (hn : ValidBits new)
    (h : ∀ row ∈ db.rows env, Repackable old new row.1) :
    ((db.repackedRows env old new).map Prod.fst).Nodup := by
  have hmap : (db.repackedRows env old new).map Prod.fst =
      ((db.rows env).map Prod.fst).map (repacked old new) := by
    rw [Db.repackedRows, List.map_map, List.map_map]
    rfl
  rw [hmap]
  refine List.Nodup.map_on ?_ (rows_nodup env db)
  intro id hid id' hid' heq
  obtain ⟨row, hrow, rfl⟩ := List.mem_map.mp hid
  obtain ⟨row', hrow', rfl⟩ := List.mem_map.mp hid'
  exact repacked_injective ho hn (h row hrow) (h row' hrow') heq

theorem eval_changeFieldBits (ho : ValidBits old) (hn : ValidBits new) (hne : new ≠ old) :
    (changeFieldBits env new).eval (quiet db none old false) =
      andThen ((traverse (repackRow old new (maskOf old) (shrOf new Int64.maxValue) (shlOf new 1))
        (db.rows env)).eval (quiet db none old true)) (fun rows => do
          Prog.startTx
          Prog.stmt Sql.deleteDocs
          Prog.stmt Sql.deleteEntries
          Prog.each insertRow rows
          stampFieldBits new
          Prog.commitTx
          Prog.write new
          pure rows.length) := by
  simp only [changeFieldBits, checkFieldBits_ok hn, orThrow, lockedConn, fieldBits, selectRows,
    eval_bind, eval_pure, andThen_ok, eval_acquire_quiet, eval_read_quiet, if_neg hne,
    lowMask_some ho, shr_some hn, shl_some hn, eval_trap_some, Sql.eval_query]
  rfl

theorem changeFieldBits_run (ho : ValidBits old) (hn : ValidBits new) (hne : new ≠ old)
    (h : ∀ row ∈ db.rows env, Repackable old new row.1) :
    (changeFieldBits env new).run (quiet db none old false) =
      (.ok (db.rows env).length, quiet (db.repacked env old new) none new false) := by
  apply run_of_eval (v := quiet (db.repacked env old new) none new true)
  have hrows := eval_traverse_ok
    (f := repackRow old new (maskOf old) (shrOf new Int64.maxValue) (shlOf new 1))
    (quiet db none old true) (db.rows env) fun row hrow =>
      eval_repackRow_ok db none true ho hn old (h row hrow)
  rw [eval_changeFieldBits env db ho hn hne, hrows]
  change andThen (.ok (db.repackedRows env old new), _) _ = _
  have hempty : ∀ row ∈ db.repackedRows env old new, db.clear.docs[row.1]? = none :=
    fun _ _ => Table.lookup_empty _
  have hempty' : ∀ row ∈ db.repackedRows env old new, db.clear.entries[row.1]? = none :=
    fun _ _ => Table.lookup_empty _
  have hfill := eval_insertRows db.clear (some db) true old (db.repackedRows env old new)
    (repackedRows_nodup env db ho hn h) hempty hempty'
  have hlen : (db.repackedRows env old new).length = (db.rows env).length := List.length_map _
  simp only [andThen_ok, Sql.deleteDocs, Sql.deleteEntries, eval_bind, eval_startTx_quiet,
    Sql.eval_effect]
  rw [show ({ ({ db with docs := ∅ } : Db) with entries := ∅ } : Db) = db.clear from rfl, hfill]
  simp only [andThen_ok, stampFieldBits, Sql.replaceFieldBits, Sql.eval_effect, eval_bind,
    eval_commitTx_quiet, eval_write_quiet, eval_pure, hlen]
  rfl

theorem changeFieldBits_rejected (ho : ValidBits old) (hn : ValidBits new) (hne : new ≠ old)
    (h : ¬ ∀ row ∈ db.rows env, Repackable old new row.1) :
    ∃ err, (changeFieldBits env new).run (quiet db none old false) =
      (.err err, quiet db none old false) := by
  obtain ⟨row, hrow⟩ := not_forall.mp h
  obtain ⟨hmem, hr⟩ := Classical.not_imp.mp hrow
  obtain ⟨err, he⟩ := eval_traverse_err (quiet db none old true) (db.rows env)
    (fun row _ => eval_repackRow_cases db none true ho hn old row)
    ⟨row, hmem, eval_repackRow_err db none true ho old hr⟩
  refine ⟨err, run_of_eval (v := quiet db none old true) ?_⟩
  rw [eval_changeFieldBits env db ho hn hne, he, andThen_err]

theorem changeFieldBits_same (hn : ValidBits new) :
    (changeFieldBits env new).run (quiet db none new false) =
      (.ok 0, quiet db none new false) := by
  apply run_of_eval (v := quiet db none new true)
  simp only [changeFieldBits, checkFieldBits_ok hn, orThrow, lockedConn, fieldBits, eval_bind,
    eval_pure, andThen_ok, eval_acquire_quiet, eval_read_quiet, if_true]

theorem changeFieldBits_invalid (hn : ¬ ValidBits new) :
    ∃ err, (changeFieldBits env new).run (quiet db none old false) =
      (.err err, quiet db none old false) := by
  cases hc : checkFieldBits new with
  | ok u => exact absurd (validBits_of_check hc) hn
  | error err =>
    refine ⟨err, run_of_eval (v := quiet db none old false) ?_⟩
    simp only [changeFieldBits, hc, orThrow, eval_bind, eval_throw, andThen_err]

end SearchEngine

end Unfydqry
