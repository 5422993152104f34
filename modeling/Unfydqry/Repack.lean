import Unfydqry.IndexInvariant
import Unfydqry.Search.Rows

/-! # What a change of `field_bits` does to the tables

The re-packed index holds the rows of the old one, each under the id of the same record
and slot at the new width. -/

namespace Unfydqry

open LockedStore Prog SearchEngine

/-- The value of the re-packed id: the quotient is the record, the remainder the slot. -/
def repackedValue (old new : UInt8) (id : ℤ) : ℤ :=
  id / 2 ^ old.toNat * 2 ^ new.toNat + id % 2 ^ old.toNat

/-- The id is a record and a slot that the new width has room for. -/
structure FitsWidth (old new : UInt8) (id : ℤ) : Prop where
  nonneg : 0 ≤ id
  slot : id % 2 ^ old.toNat < 2 ^ new.toNat
  record : id / 2 ^ old.toNat ≤ (2 ^ 63 - 1) / 2 ^ new.toNat

/-- The rows of `db'` are those of `db` under their re-packed ids. -/
structure RepacksTo (old new : UInt8) (db db' : Db) : Prop where
  image : ∀ (id : Int64) en, db.entries[id]? = some en →
    ∃ id' : Int64, id'.toInt = repackedValue old new id.toInt ∧ db'.entries[id']? = some en
  only : ∀ (id' : Int64) en, db'.entries[id']? = some en →
    ∃ id : Int64, id'.toInt = repackedValue old new id.toInt ∧ db.entries[id]? = some en
  distinct : ∀ (id₁ id₂ : Int64) en₁ en₂, db.entries[id₁]? = some en₁ →
    db.entries[id₂]? = some en₂ →
    repackedValue old new id₁.toInt = repackedValue old new id₂.toInt → id₁ = id₂
  synced : Search.Synced db'
  size : db'.entries.size = db.entries.size
  columns : db'.columns = db.columns
  metaTable : db'.metaTable = { db.metaTable with fieldBits := some (bitsText new) }

namespace SearchEngine

variable {old new : UInt8}

theorem repackable_iff (ho : ValidBits old) (hn : ValidBits new) (id : Int64) :
    Repackable old new id ↔ FitsWidth old new id.toInt := by
  have hmax : Int64.maxValue.toInt = 2 ^ 63 - 1 := by decide
  have hzero : (0 : Int64).toInt = 0 := by decide
  rw [Repackable, Int64.le_iff_toInt_le, Int64.lt_iff_toInt_lt, Int64.le_iff_toInt_le,
    slot_toInt ho, shlOne_toInt hn, shrOf_toInt ho, shrOf_toInt hn, hmax, hzero]
  exact ⟨fun ⟨h0, h1, h2⟩ => ⟨h0, h1, h2⟩, fun ⟨h0, h1, h2⟩ => ⟨h0, h1, h2⟩⟩

theorem mem_rows (env : Env) (db : Db) (id : Int64) (norm : Text) (raw : Option Text) :
    (id, norm, raw) ∈ db.rows env ↔
      ∃ en, db.entries[id]? = some en ∧ en.norm = norm ∧ en.raw = raw := by
  have hperm := env.sqlite.scan_perm "SELECT id, norm, raw FROM entries" [] db.entries
  rw [Db.rows, List.mem_map]
  constructor
  · rintro ⟨r, hr, heq⟩
    have hmem := (Table.mem_toList _ _ _).mp (hperm.mem_iff.mp hr)
    simp only [Prod.mk.injEq] at heq
    obtain ⟨rfl, rfl, rfl⟩ := heq
    exact ⟨r.2, hmem, rfl, rfl⟩
  · rintro ⟨en, hen, rfl, rfl⟩
    exact ⟨(id, en), hperm.mem_iff.mpr ((Table.mem_toList _ _ _).mpr hen), rfl⟩

theorem rows_repackable_iff (env : Env) (db : Db) (ho : ValidBits old) (hn : ValidBits new) :
    (∀ row ∈ db.rows env, Repackable old new row.1) ↔
      ∀ (id : Int64) en, db.entries[id]? = some en → FitsWidth old new id.toInt := by
  constructor
  · intro h id en hen
    exact (repackable_iff ho hn id).mp (h _ ((mem_rows env db id _ _).mpr ⟨en, hen, rfl, rfl⟩))
  · rintro h ⟨id, norm, raw⟩ hrow
    obtain ⟨en, hen, _⟩ := (mem_rows env db id norm raw).mp hrow
    exact (repackable_iff ho hn id).mpr (h id en hen)

theorem rows_length (env : Env) (db : Db) : (db.rows env).length = db.entries.size := by
  rw [Db.rows, List.length_map, (env.sqlite.scan_perm _ _ _).length_eq,
    Std.ExtTreeMap.length_toList]

theorem repacked_synced (env : Env) (db : Db) (old new : UInt8) :
    Search.Synced (db.repacked env old new) := by
  have hdocs : (db.repacked env old new).docs =
      (db.repacked env old new).entries.map fun _ en => en.norm := by
    change Table.insertRows _ ∅ = (Table.insertRows _ ∅).map _
    rw [Table.map_insertRows, Table.map_empty, List.map_map]
    rfl
  intro id
  rw [hdocs, Table.lookup_map]

section Tables

variable {env : Env} {db : Db} (ho : ValidBits old) (hn : ValidBits new)
  (hok : ∀ row ∈ db.rows env, Repackable old new row.1)
  (hrev : ∀ (id : Int64) en, db.entries[id]? = some en →
    en.normRev = some (Search.reverseChars en.norm))

include ho hn hok

theorem repacked_entries_of_mem {id : Int64} {en : Entry} (hen : db.entries[id]? = some en)
    (hrev : en.normRev = some (Search.reverseChars en.norm)) :
    (db.repacked env old new).entries[SearchEngine.repacked old new id]? = some en := by
  change (Table.insertRows ((db.repackedRows env old new).map Db.rowEntry) ∅)[_]? = _
  refine Table.lookup_insertRows_of_mem _ _ ?_ ?_
  · have hnodup := repackedRows_nodup env db ho hn hok
    rwa [List.map_map]
  · refine List.mem_map.mpr ⟨(SearchEngine.repacked old new id, en.norm, en.raw), ?_, ?_⟩
    · exact List.mem_map.mpr ⟨(id, en.norm, en.raw),
        (mem_rows env db id _ _).mpr ⟨en, hen, rfl, rfl⟩, rfl⟩
    · rw [Db.rowEntry, ← hrev]

include hrev

theorem repacked_entries_only {id' : Int64} {en : Entry}
    (h : (db.repacked env old new).entries[id']? = some en) :
    ∃ id, id' = SearchEngine.repacked old new id ∧ db.entries[id]? = some en := by
  by_cases hmem : id' ∈ (db.repackedRows env old new).map Prod.fst
  · obtain ⟨row, hrow, rfl⟩ := List.mem_map.mp hmem
    obtain ⟨⟨id, norm, raw⟩, hin, rfl⟩ := List.mem_map.mp hrow
    obtain ⟨en', hen', rfl, rfl⟩ := (mem_rows env db id norm raw).mp hin
    have hlook := repacked_entries_of_mem ho hn hok hen' (hrev id en' hen')
    dsimp only at h
    rw [hlook] at h
    exact ⟨id, rfl, hen'.trans h⟩
  · change (Table.insertRows ((db.repackedRows env old new).map Db.rowEntry) ∅)[_]? = _ at h
    rw [Table.lookup_insertRows_of_not_mem _ _ (by rwa [List.map_map]), Table.lookup_empty] at h
    cases h

theorem repacksTo : RepacksTo old new db (db.repacked env old new) where
  image id en hen := by
    have hfit := (mem_rows env db id _ _).mpr ⟨en, hen, rfl, rfl⟩
    exact ⟨_, repacked_toInt ho hn (hok _ hfit),
      repacked_entries_of_mem ho hn hok hen (hrev id en hen)⟩
  only id' en h := by
    obtain ⟨id, rfl, hen⟩ := repacked_entries_only ho hn hok hrev h
    have hfit := (mem_rows env db id _ _).mpr ⟨en, hen, rfl, rfl⟩
    exact ⟨id, repacked_toInt ho hn (hok _ hfit), hen⟩
  distinct id₁ id₂ en₁ en₂ h₁ h₂ heq := by
    have hfit₁ := hok _ ((mem_rows env db id₁ _ _).mpr ⟨en₁, h₁, rfl, rfl⟩)
    have hfit₂ := hok _ ((mem_rows env db id₂ _ _).mpr ⟨en₂, h₂, rfl, rfl⟩)
    refine repacked_injective ho hn hfit₁ hfit₂ (Int64.toInt_inj.mp ?_)
    rw [repacked_toInt ho hn hfit₁, repacked_toInt ho hn hfit₂]
    exact heq
  synced := repacked_synced env db old new
  size := by
    have hnodup : (((db.repackedRows env old new).map Db.rowEntry).map Prod.fst).Nodup := by
      have h := repackedRows_nodup env db ho hn hok
      rwa [List.map_map]
    have hperm := (Table.toList_insertRows_perm hnodup).length_eq
    rw [Std.ExtTreeMap.length_toList, List.length_map, Db.repackedRows, List.length_map,
      rows_length] at hperm
    exact hperm
  columns := rfl
  metaTable := rfl

end Tables

/-! ### Back and forth -/

theorem repackedValue_parts {id : ℤ} (h : FitsWidth old new id) :
    repackedValue old new id / 2 ^ new.toNat = id / 2 ^ old.toNat ∧
      repackedValue old new id % 2 ^ new.toNat = id % 2 ^ old.toNat := by
  have hpos := Int.emod_nonneg id (pow_pos old).ne'
  constructor
  · rw [repackedValue, add_comm, Int.add_mul_ediv_right _ _ (pow_pos new).ne',
      Int.ediv_eq_zero_of_lt hpos h.slot, zero_add]
  · rw [repackedValue, add_comm, Int.add_mul_emod_self_right, Int.emod_eq_of_lt hpos h.slot]

theorem repackedValue_back {id : ℤ} (h : FitsWidth old new id) :
    repackedValue new old (repackedValue old new id) = id := by
  obtain ⟨hdiv, hmod⟩ := repackedValue_parts h
  rw [repackedValue, hdiv, hmod, Int.ediv_mul_add_emod]

/-- A re-packed id fits the width it came from. -/
theorem fitsWidth_back {id : ℤ} (h : FitsWidth old new id) (hmax : id ≤ 2 ^ 63 - 1) :
    FitsWidth new old (repackedValue old new id) := by
  have hpos := Int.emod_nonneg id (pow_pos old).ne'
  have hlt := Int.emod_lt_of_pos id (pow_pos old)
  have hp := pow_pos new
  have hquot : 0 ≤ id / 2 ^ old.toNat := Int.ediv_nonneg h.nonneg (pow_pos old).le
  obtain ⟨hdiv, hmod⟩ := repackedValue_parts h
  refine ⟨?_, ?_, ?_⟩
  · exact add_nonneg (mul_nonneg hquot hp.le) hpos
  · rw [hmod]
    exact hlt
  · rw [hdiv]
    exact Int.ediv_le_ediv (pow_pos old) hmax

end SearchEngine

theorem RepacksTo.back {old new : UInt8} {db db₁ db₂ : Db} (hs : Search.Synced db)
    (hfit : ∀ (id : Int64) en, db.entries[id]? = some en → FitsWidth old new id.toInt)
    (h₁ : RepacksTo old new db db₁) (h₂ : RepacksTo new old db₁ db₂) :
    db₂.docs = db.docs ∧ db₂.entries = db.entries := by
  have hforth : ∀ (id : Int64) en, db.entries[id]? = some en → db₂.entries[id]? = some en := by
    intro id en hen
    obtain ⟨id₁, hid₁, hen₁⟩ := h₁.image id en hen
    obtain ⟨id₂, hid₂, hen₂⟩ := h₂.image id₁ en hen₁
    rw [hid₁, repackedValue_back (hfit id en hen)] at hid₂
    rwa [Int64.toInt_inj.mp hid₂] at hen₂
  have hback : ∀ (id : Int64) en, db₂.entries[id]? = some en → db.entries[id]? = some en := by
    intro id₂ en hen₂
    obtain ⟨id₁, hid₂, hen₁⟩ := h₂.only id₂ en hen₂
    obtain ⟨id, hid₁, hen⟩ := h₁.only id₁ en hen₁
    rw [hid₁, repackedValue_back (hfit id en hen)] at hid₂
    rwa [Int64.toInt_inj.mp hid₂]
  have hentries : db₂.entries = db.entries :=
    Table.ext_lookup fun id => Option.ext fun en => ⟨hback id en, hforth id en⟩
  refine ⟨Table.ext_lookup fun id => ?_, hentries⟩
  rw [h₂.synced id, hs id, hentries]

namespace SearchEngine

section Exact

variable (env : Env) (db : Db) {old new : UInt8}

theorem changeFieldBits_ok_iff (hb : ValidBits old) {o : Outcome SearchError ℕ} {w : EngineWorld}
    (hrun : (changeFieldBits env new).run (quiet db none old false) = (o, w)) :
    (∃ count, o = .ok count) ↔ ValidBits new ∧ (new = old ∨
      ∀ (id : Int64) en, db.entries[id]? = some en → FitsWidth old new id.toInt) := by
  have hfail : ∀ err, (changeFieldBits env new).run (quiet db none old false) =
      (.err err, quiet db none old false) → ¬ ∃ count, o = .ok count := by
    rintro err herr ⟨count, rfl⟩
    rw [hrun] at herr
    cases herr
  by_cases hn : ValidBits new
  · by_cases hne : new = old
    · subst hne
      rw [changeFieldBits_same env db hn] at hrun
      exact ⟨fun _ => ⟨hn, .inl rfl⟩, fun _ => ⟨0, (Prod.mk.inj hrun).1.symm⟩⟩
    · rw [← rows_repackable_iff env db hb hn]
      by_cases hok : ∀ row ∈ db.rows env, Repackable old new row.1
      · rw [changeFieldBits_run env db hb hn hne hok] at hrun
        exact ⟨fun _ => ⟨hn, .inr hok⟩, fun _ => ⟨_, (Prod.mk.inj hrun).1.symm⟩⟩
      · obtain ⟨err, herr⟩ := changeFieldBits_rejected env db hb hn hne hok
        exact ⟨fun h => absurd h (hfail err herr),
          fun h => (h.2.elim hne hok).elim⟩
  · obtain ⟨err, herr⟩ := @changeFieldBits_invalid env db old new hn
    exact ⟨fun h => absurd h (hfail err herr), fun h => absurd h.1 hn⟩

theorem changeFieldBits_back (hb : ValidBits old) (hn : ValidBits new) (hne : new ≠ old)
    (hs : Search.Synced db)
    (hrev : ∀ (id : Int64) en, db.entries[id]? = some en →
      en.normRev = some (Search.reverseChars en.norm))
    (hfit : ∀ (id : Int64) en, db.entries[id]? = some en → FitsWidth old new id.toInt) :
    ∃ count w', (changeFieldBits env old).run (quiet (db.repacked env old new) none new false) =
        (.ok count, w') ∧
      w'.db.docs = db.docs ∧ w'.db.entries = db.entries ∧ w'.cell = old := by
  have hok := (rows_repackable_iff env db hb hn).mpr hfit
  have hforth := repacksTo hb hn hok hrev
  have hfit' : ∀ (id : Int64) en, (db.repacked env old new).entries[id]? = some en →
      FitsWidth new old id.toInt := by
    intro id' en hen'
    obtain ⟨id, hid, hen⟩ := hforth.only id' en hen'
    have hlt := Int64.toInt_lt id
    rw [hid]
    exact fitsWidth_back (hfit id en hen) (by omega)
  have hrev' : ∀ (id : Int64) en, (db.repacked env old new).entries[id]? = some en →
      en.normRev = some (Search.reverseChars en.norm) := by
    intro id' en hen'
    obtain ⟨id, _, hen⟩ := hforth.only id' en hen'
    exact hrev id en hen
  have hok' := (rows_repackable_iff env (db.repacked env old new) hn hb).mpr hfit'
  refine ⟨_, _, changeFieldBits_run env _ hn hb (Ne.symm hne) hok', ?_⟩
  obtain ⟨hdocs, hentries⟩ := hforth.back hs hfit (repacksTo hn hb hok' hrev')
  exact ⟨hdocs, hentries, rfl⟩

end Exact

end SearchEngine

open SearchEngine in
/-- `change_field_bits` re-packs every row or changes nothing, and the way back restores the
tables. -/
theorem change_field_bits_exact (env : Env) (db : Db) (old new : UInt8) (hb : ValidBits old)
    (hs : Search.Synced db)
    (hrev : ∀ (id : Int64) en, db.entries[id]? = some en →
      en.normRev = some (Search.reverseChars en.norm)) :
    ∃ o w, (changeFieldBits env new).run (quiet db none old false) = (o, w) ∧
      ((∃ count, o = .ok count) ↔ ValidBits new ∧ (new = old ∨
        ∀ (id : Int64) en, db.entries[id]? = some en → FitsWidth old new id.toInt)) ∧
      (∀ count, o = .ok count → new ≠ old →
        count = db.entries.size ∧ RepacksTo old new db w.db ∧ w = quiet w.db none new false) ∧
      ((∀ count, o ≠ .ok count) → w = quiet db none old false) ∧
      (∀ count, o = .ok count → ∃ count' w', (changeFieldBits env old).run w = (.ok count', w') ∧
        w'.db.docs = db.docs ∧ w'.db.entries = db.entries ∧ w'.cell = old) := by
  obtain ⟨⟨o, w⟩, hrun⟩ : ∃ r, (changeFieldBits env new).run (quiet db none old false) = r :=
    ⟨_, rfl⟩
  refine ⟨o, w, hrun, changeFieldBits_ok_iff env db hb hrun, ?_⟩
  have hrejected : ∀ err, (changeFieldBits env new).run (quiet db none old false) =
      (.err err, quiet db none old false) → o = .err err ∧ w = quiet db none old false := by
    intro err herr
    rw [hrun] at herr
    exact Prod.mk.inj herr
  by_cases hn : ValidBits new
  · by_cases hne : new = old
    · subst hne
      have hsame := changeFieldBits_same env db hn
      obtain ⟨rfl, rfl⟩ := Prod.mk.inj (hrun.symm.trans hsame)
      exact ⟨fun _ _ h => absurd rfl h, fun _ => rfl, fun _ _ => ⟨0, _, hsame, rfl, rfl, rfl⟩⟩
    · by_cases hok : ∀ row ∈ db.rows env, Repackable old new row.1
      · obtain ⟨rfl, rfl⟩ :=
          Prod.mk.inj (hrun.symm.trans (changeFieldBits_run env db hb hn hne hok))
        refine ⟨fun count hcount _ => ?_, fun h => absurd rfl (h _), fun _ _ =>
          changeFieldBits_back env db hb hn hne hs hrev
            ((rows_repackable_iff env db hb hn).mp hok)⟩
        rw [Outcome.ok.injEq, rows_length] at hcount
        exact ⟨hcount.symm, repacksTo hb hn hok hrev, rfl⟩
      · obtain ⟨err, herr⟩ := changeFieldBits_rejected env db hb hn hne hok
        obtain ⟨rfl, rfl⟩ := hrejected err herr
        exact ⟨fun _ h => (by cases h), fun _ => rfl, fun _ h => by cases h⟩
  · obtain ⟨err, herr⟩ := @changeFieldBits_invalid env db old new hn
    obtain ⟨rfl, rfl⟩ := hrejected err herr
    exact ⟨fun _ h => (by cases h), fun _ => rfl, fun _ h => by cases h⟩

/-- Record 1 with one field in slot 1, at width 8. -/
def packedFile : Db where
  columns := some { normRev := true, raw := true }
  docs := (∅ : Docs).insert 257 ['a', 'b']
  entries := (∅ : Entries).insert 257
    { norm := ['a', 'b'], normRev := some ['b', 'a'], raw := some ['A', 'b'] }
  metaTable := { normalizeProfile := some NormalizeProfile.loose.options.fingerprint
                 fieldBits := some (bitsText 8) }

open SearchEngine in
theorem change_field_bits_exact_packed :
    ∃ o w, (changeFieldBits .ascii 4).run (quiet packedFile none 8 false) = (o, w) ∧
      ((∃ count, o = .ok count) ↔ ValidBits 4 ∧ ((4 : UInt8) = 8 ∨
        ∀ (id : Int64) en, packedFile.entries[id]? = some en → FitsWidth 8 4 id.toInt)) ∧
      (∀ count, o = .ok count → (4 : UInt8) ≠ 8 →
        count = packedFile.entries.size ∧ RepacksTo 8 4 packedFile w.db ∧
          w = quiet w.db none 4 false) ∧
      ((∀ count, o ≠ .ok count) → w = quiet packedFile none 8 false) ∧
      (∀ count, o = .ok count → ∃ count' w', (changeFieldBits .ascii 8).run w = (.ok count', w') ∧
        w'.db.docs = packedFile.docs ∧ w'.db.entries = packedFile.entries ∧ w'.cell = 8) := by
  refine change_field_bits_exact .ascii packedFile 8 4 validBits_default (fun id => ?_)
    fun id en hen => ?_
  · rw [packedFile, Table.lookup_insert, Table.lookup_insert]
    split
    · rfl
    · rw [Table.lookup_empty, Table.lookup_empty]
      rfl
  · rw [packedFile, Table.lookup_insert] at hen
    split at hen
    · rw [← Option.some.inj hen]
      rfl
    · rw [Table.lookup_empty] at hen
      cases hen

end Unfydqry
