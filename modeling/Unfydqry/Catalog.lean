import Unfydqry.Engine.OpenEffect

/-! # The index as a catalog of raw texts

What the component is for: the host's raw texts by id. A file renders a catalog
under an option set when its two tables hold exactly the normalized forms of the
catalog's texts. Every effect of the engine is an operation on the catalog. -/

namespace Unfydqry

/-- The raw texts a host has stored, by id. -/
abbrev Catalog := Table Int64 Text

/-- The row of `entries` for a text under an option set. -/
def renderEntry (env : Env) (o : NormalizeOptions) (text : Text) : Entry where
  norm := normalize env.unicode o text
  normRev := some (Search.reverseChars (normalize env.unicode o text))
  raw := some text

structure Renders (env : Env) (o : NormalizeOptions) (texts : Catalog) (db : Db) : Prop where
  docs : db.docs = texts.map fun _ text => normalize env.unicode o text
  entries : db.entries = texts.map fun _ text => renderEntry env o text

namespace Catalog

/-- Store one field of a record, unless it is empty under the option set. -/
def putField (env : Env) (o : NormalizeOptions) (bits : UInt8) (recordId : Int64)
    (texts : Catalog) (f : FieldValue) : Catalog :=
  if (normalize env.unicode o f.text).isEmpty then texts
  else texts.insert (SearchEngine.packId bits recordId f.slot) f.text

def putItems (items : List IndexItem) (texts : Catalog) : Catalog :=
  items.foldl (fun texts item => texts.insert item.id item.text) texts

def dropIds (ids : List Int64) (texts : Catalog) : Catalog :=
  ids.foldl (fun texts id => texts.erase id) texts

def clearRange (lo hi : Int64) (texts : Catalog) : Catalog :=
  Table.eraseWhere (Sql.between lo hi) texts

def putRecord (env : Env) (o : NormalizeOptions) (bits : UInt8) (recordId : Int64)
    (fields : List FieldValue) (texts : Catalog) : Catalog :=
  fields.foldl (putField env o bits recordId)
    (clearRange (SearchEngine.shlOf bits recordId) (SearchEngine.hiOf bits recordId) texts)

def putRecords (env : Env) (o : NormalizeOptions) (bits : UInt8)
    (records : List RecordIndexItem) (texts : Catalog) : Catalog :=
  records.foldl (fun texts r => putRecord env o bits r.recordId r.fields texts) texts

def repacked (old new : UInt8) (texts : Catalog) : Catalog :=
  Table.insertRows (texts.toList.map fun r => (SearchEngine.repacked old new r.1, r.2)) ∅

end Catalog

namespace Renders

variable {env : Env} {e : SearchEngine} {o : NormalizeOptions} {texts : Catalog} {db : Db}

theorem docs_lookup (h : Renders env o texts db) (id : Int64) :
    db.docs[id]? = texts[id]?.map (normalize env.unicode o) := by
  rw [h.docs, Table.lookup_map]

theorem entries_lookup (h : Renders env o texts db) (id : Int64) :
    db.entries[id]? = texts[id]?.map (renderEntry env o) := by
  rw [h.entries, Table.lookup_map]

theorem of_lookup (hd : ∀ id : Int64, db.docs[id]? = texts[id]?.map (normalize env.unicode o))
    (he : ∀ id : Int64, db.entries[id]? = texts[id]?.map (renderEntry env o)) :
    Renders env o texts db where
  docs := Table.ext_lookup fun id => by rw [hd, Table.lookup_map]
  entries := Table.ext_lookup fun id => by rw [he, Table.lookup_map]

/-- Rendering does not look at the schema or at `meta`. -/
theorem of_eq {db' : Db} (h : Renders env o texts db) (hd : db'.docs = db.docs)
    (he : db'.entries = db.entries) : Renders env o texts db' :=
  ⟨hd.trans h.docs, he.trans h.entries⟩

/-- A file keeps its raw texts, so two files with equal tables render one catalog. -/
theorem tables_eq_iff {texts' : Catalog} {db' : Db} (h : Renders env o texts db)
    (h' : Renders env o texts' db') :
    db.entries = db'.entries ∧ db.docs = db'.docs ↔ texts = texts' := by
  constructor
  · rintro ⟨he, _⟩
    refine Table.ext_lookup fun id => ?_
    have hraw : (texts[id]?.map (renderEntry env o)).bind Entry.raw =
        (texts'[id]?.map (renderEntry env o)).bind Entry.raw := by
      rw [← h.entries_lookup, ← h'.entries_lookup, he]
    cases ht : texts[id]? <;> cases ht' : texts'[id]? <;> simp_all [renderEntry]
  · rintro rfl
    exact ⟨h.entries.trans h'.entries.symm, h.docs.trans h'.docs.symm⟩

theorem empty (hd : db.docs = ∅) (he : db.entries = ∅) : Renders env o ∅ db :=
  ⟨by rw [hd, Table.map_empty], by rw [he, Table.map_empty]⟩

theorem put (h : Renders env e.options texts db) (id : Int64) (text : Text) :
    Renders env e.options (texts.insert id text) (db.put env e id text) where
  docs := by rw [Db.put, Table.map_insert, ← h.docs]; rfl
  entries := by rw [Db.put, Table.map_insert, ← h.entries]; rfl

theorem drop (h : Renders env o texts db) (id : Int64) :
    Renders env o (texts.erase id) (db.drop id) where
  docs := by rw [Db.drop, Table.map_erase, ← h.docs]
  entries := by rw [Db.drop, Table.map_erase, ← h.entries]

theorem clear : Renders env o ∅ db.clear := empty rfl rfl

theorem clearRange (h : Renders env o texts db) (lo hi : Int64) :
    Renders env o (Catalog.clearRange lo hi texts) (db.clearRange lo hi) where
  docs := by rw [Db.clearRange, Catalog.clearRange, Table.map_eraseWhere, ← h.docs]
  entries := by rw [Db.clearRange, Catalog.clearRange, Table.map_eraseWhere, ← h.entries]

theorem putField (h : Renders env e.options texts db) (bits : UInt8) (r : Int64)
    (f : FieldValue) :
    Renders env e.options (Catalog.putField env e.options bits r texts f)
      (db.putField env e bits r f) := by
  unfold Catalog.putField Db.putField SearchEngine.normalizer
  split
  · exact h
  · exact h.put _ _

theorem foldl {α : Type} {g : Catalog → α → Catalog} {g' : Db → α → Db}
    (hstep : ∀ texts db a, Renders env o texts db → Renders env o (g texts a) (g' db a))
    (as : List α) (h : Renders env o texts db) :
    Renders env o (as.foldl g texts) (as.foldl g' db) := by
  induction as generalizing texts db with
  | nil => exact h
  | cons a as ih => exact ih (hstep _ _ a h)

theorem putItems (h : Renders env e.options texts db) (items : List IndexItem) :
    Renders env e.options (Catalog.putItems items texts) (db.putItems env e items) :=
  foldl (fun _ _ item hr => hr.put item.id item.text) items h

theorem dropIds (h : Renders env o texts db) (ids : List Int64) :
    Renders env o (Catalog.dropIds ids texts) (db.dropIds ids) :=
  foldl (fun _ _ id hr => hr.drop id) ids h

theorem putRecord (h : Renders env e.options texts db) (bits : UInt8) (r : Int64)
    (fields : List FieldValue) :
    Renders env e.options (Catalog.putRecord env e.options bits r fields texts)
      (db.putRecord env e bits r fields) :=
  foldl (fun _ _ f hf => hf.putField bits r f) fields (h.clearRange _ _)

theorem putRecords (h : Renders env e.options texts db) (bits : UInt8)
    (records : List RecordIndexItem) :
    Renders env e.options (Catalog.putRecords env e.options bits records texts)
      (db.putRecords env e bits records) :=
  foldl (fun _ _ r hr => hr.putRecord bits r.recordId r.fields) records h

/-! ### Regeneration -/

theorem renew_docs (db : Db) (row : Int64 × Text) (a : Int64) :
    (db.renew env e row).docs[a]? =
      if a = row.1 then some (e.normalizer env row.2) else db.docs[a]? :=
  Table.lookup_insert _ _ _ _

/-- What `reindex` makes of the row of a raw text. -/
def renewEntry (env : Env) (e : SearchEngine) (raw : Text) (en : Entry) : Entry :=
  { en with
    norm := e.normalizer env raw
    normRev := some (Search.reverseChars (e.normalizer env raw)) }

theorem renew_entries (db : Db) (row : Int64 × Text) (a : Int64) :
    (db.renew env e row).entries[a]? =
      if a = row.1 then db.entries[a]?.map (renewEntry env e row.2) else db.entries[a]? := by
  refine Table.lookup_update _ _ _ _ (fun en hen => ?_) fun hnone => ?_
  · simp only [Db.renew, hen, renewEntry]
  · simp only [Db.renew, hnone]

theorem raws_nodup (env : Env) (db : Db) : ((db.raws env).map Prod.fst).Nodup := by
  have hperm := env.sqlite.scan_perm "SELECT id, raw FROM entries WHERE raw IS NOT NULL" []
    db.entries
  have hnodup := (hperm.map Prod.fst).nodup_iff.mpr (Table.toList_nodup db.entries)
  refine List.Nodup.sublist ?_ hnodup
  unfold Db.raws
  generalize env.sqlite.scan _ _ _ = l
  induction l with
  | nil => simp
  | cons r l ih =>
    rw [List.filterMap_cons]
    cases hr : r.2.raw with
    | none => simpa [hr] using ih.cons r.1
    | some raw => simpa [hr] using ih

theorem mem_raws (env : Env) (db : Db) (id : Int64) (raw : Text) :
    (id, raw) ∈ db.raws env ↔ ∃ en, db.entries[id]? = some en ∧ en.raw = some raw := by
  have hperm := env.sqlite.scan_perm "SELECT id, raw FROM entries WHERE raw IS NOT NULL" []
    db.entries
  simp only [Db.raws, List.mem_filterMap, hperm.mem_iff, Option.map_eq_some_iff, Prod.exists,
    Table.mem_toList, Prod.mk.injEq]
  constructor
  · rintro ⟨id', en, hen, raw', hraw, rfl, rfl⟩
    exact ⟨en, hen, hraw⟩
  · rintro ⟨en, hen, hraw⟩
    exact ⟨id, en, hen, raw, hraw, rfl, rfl⟩

theorem not_mem_raws (env : Env) {id : Int64} (h : db.entries[id]?.bind Entry.raw = none) :
    id ∉ (db.raws env).map Prod.fst := by
  intro hm
  obtain ⟨⟨_, raw⟩, hr, rfl⟩ := List.mem_map.mp hm
  have hsome := Option.bind_eq_some_iff.mpr ((mem_raws env db _ raw).mp hr)
  rw [h] at hsome
  cases hsome

theorem reindexed_docs (env : Env) (e : SearchEngine) (db : Db) (id : Int64) :
    (db.reindexed env e).docs[id]? =
      ((db.entries[id]?.bind Entry.raw).map (e.normalizer env)).or db.docs[id]? := by
  change ((db.raws env).foldl (Db.renew env e) db).docs[id]? = _
  cases hraw : db.entries[id]?.bind Entry.raw with
  | none =>
    exact Table.read_foldl_of_not_mem (fun (db : Db) (a : Int64) => db.docs[a]?)
      (f := fun raw _ => some (e.normalizer env raw)) renew_docs _ _ (not_mem_raws env hraw)
  | some raw =>
    have hm : (id, raw) ∈ db.raws env :=
      (mem_raws env db id raw).mpr (Option.bind_eq_some_iff.mp hraw)
    exact Table.read_foldl_of_mem (fun (db : Db) (a : Int64) => db.docs[a]?)
      (f := fun raw _ => some (e.normalizer env raw)) renew_docs _ _ (raws_nodup env db) hm

/-- `reindex` makes every row that has a raw text again from it, and no other row. -/
theorem reindexed_entries (env : Env) (e : SearchEngine) (db : Db) (id : Int64) :
    (db.reindexed env e).entries[id]? =
      db.entries[id]?.map fun en => (en.raw.map fun raw => renewEntry env e raw en).getD en := by
  change ((db.raws env).foldl (Db.renew env e) db).entries[id]? = _
  cases hraw : db.entries[id]?.bind Entry.raw with
  | none =>
    have hread := Table.read_foldl_of_not_mem (fun (db : Db) (a : Int64) => db.entries[a]?)
      (f := fun raw en => en.map (renewEntry env e raw)) renew_entries _ db
      (not_mem_raws env hraw)
    rw [hread]
    cases hen : db.entries[id]? with
    | none => rfl
    | some en =>
      rw [hen, Option.bind_some] at hraw
      simp [hraw]
  | some raw =>
    obtain ⟨en, hen, hsome⟩ := Option.bind_eq_some_iff.mp hraw
    have hm : (id, raw) ∈ db.raws env := (mem_raws env db id raw).mpr ⟨en, hen, hsome⟩
    have hread := Table.read_foldl_of_mem (fun (db : Db) (a : Int64) => db.entries[a]?)
      (f := fun raw en => en.map (renewEntry env e raw)) renew_entries _ db (raws_nodup env db) hm
    rw [hread, hen]
    simp [hsome]

theorem reindexed (h : Renders env o texts db) :
    Renders env e.options texts (db.reindexed env e) := by
  refine of_lookup (fun id => ?_) fun id => ?_
  · rw [reindexed_docs, h.entries_lookup, h.docs_lookup]
    cases texts[id]? <;> rfl
  · rw [reindexed_entries, h.entries_lookup]
    cases texts[id]? <;> rfl

/-- An open renders the texts it finds under its own options, whether or not it renews them. -/
theorem adopted (h : Renders env o texts db)
    (hstamp : db.entries ≠ ∅ → db.metaTable.normalizeProfile = some o.fingerprint) (bits : UInt8) :
    Renders env e.options texts (db.adopted env e bits) := by
  have hsame : Renders env o texts (db.stampedBits bits) := h.of_eq rfl rfl
  unfold Db.adopted
  split
  · exact hsame.reindexed
  · rename_i hprofile
    by_cases hempty : db.entries = ∅
    · -- no rows: the texts are empty, so any option set renders them
      have htexts : texts = ∅ := (Table.map_eq_empty_iff _ _).mp (h.entries.symm.trans hempty)
      rw [htexts]
      exact Renders.empty (h.docs.trans (by rw [htexts, Table.map_empty])) hempty
    · have hstored : db.storedProfile = some o.fingerprint := by
        have hne : ¬ db.entries.size = 0 := fun hs =>
          hempty (Std.ExtTreeMap.eq_empty_iff_size_eq_zero.mpr hs)
        rw [Db.storedProfile, if_neg hne, hstamp hempty, Option.getD_some]
      have hfingerprint : o.fingerprint = e.options.fingerprint := by
        by_contra hne
        exact hprofile (by rw [hstored, Option.any_some, decide_eq_true hne])
      rw [← NormalizeOptions.fingerprint_injective hfingerprint]
      exact h.of_eq rfl rfl

/-! ### Re-packing -/

theorem rows_perm (h : Renders env o texts db) :
    (db.rows env).Perm (texts.toList.map fun r =>
      (r.1, normalize env.unicode o r.2, some r.2)) := by
  have hperm := env.sqlite.scan_perm "SELECT id, norm, raw FROM entries" [] db.entries
  apply (hperm.map _).trans
  rw [h.entries, Std.ExtTreeMap.toList_map, List.map_map]
  rfl

theorem repacked (h : Renders env o texts db) {old new : UInt8} (ho : ValidBits old)
    (hn : ValidBits new) (hok : ∀ row ∈ db.rows env, SearchEngine.Repackable old new row.1) :
    Renders env o (Catalog.repacked old new texts) (db.repacked env old new) := by
  have hnodup := SearchEngine.repackedRows_nodup env db ho hn hok
  have hrows : (db.repackedRows env old new).Perm (texts.toList.map fun r =>
      (SearchEngine.repacked old new r.1, normalize env.unicode o r.2, some r.2)) := by
    have hp := h.rows_perm.map fun row : Int64 × Text × Option Text =>
      (SearchEngine.repacked old new row.1, row.2)
    rwa [List.map_map] at hp
  constructor
  · change Table.insertRows ((db.repackedRows env old new).map Db.rowDoc) ∅ = _
    have hkeys : (((db.repackedRows env old new).map Db.rowDoc).map Prod.fst).Nodup := by
      rwa [List.map_map]
    rw [Table.insertRows_perm (hrows.map Db.rowDoc) hkeys, Catalog.repacked, Table.map_insertRows,
      Table.map_empty, List.map_map, List.map_map]
    rfl
  · change Table.insertRows ((db.repackedRows env old new).map Db.rowEntry) ∅ = _
    have hkeys : (((db.repackedRows env old new).map Db.rowEntry).map Prod.fst).Nodup := by
      rwa [List.map_map]
    rw [Table.insertRows_perm (hrows.map Db.rowEntry) hkeys, Catalog.repacked,
      Table.map_insertRows, Table.map_empty, List.map_map, List.map_map]
    rfl

end Renders

end Unfydqry
