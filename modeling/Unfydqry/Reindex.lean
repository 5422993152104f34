import Unfydqry.IndexInvariant
import Unfydqry.Search.Rows

/-! # What `reindex` rewrites

A row with a raw text is made again from it in both tables, a row without one stays in
both, and a second `reindex` finds nothing to change. -/

namespace Unfydqry

open LockedStore Prog SearchEngine

/-- The two tables hold the same ids. -/
def SameIds (db : Db) : Prop := ∀ id : Int64, db.docs[id]?.isSome = db.entries[id]?.isSome

/-- What a `reindex` by `e` that returns `n` makes of a file. -/
structure Reindexed (env : Env) (e : SearchEngine) (db db' : Db) (n : ℕ) : Prop where
  ids : db'.entries.keys = db.entries.keys
  raws : ∀ id : Int64, db'.entries[id]?.map Entry.raw = db.entries[id]?.map Entry.raw
  renewed : ∀ (id : Int64) en raw, db.entries[id]? = some en → en.raw = some raw →
    db'.entries[id]? = some
      { norm := e.normalizer env raw
        normRev := some (Search.reverseChars (e.normalizer env raw))
        raw := some raw } ∧
    db'.docs[id]? = some (e.normalizer env raw)
  skipped : ∀ (id : Int64) en, db.entries[id]? = some en → en.raw = none →
    db'.entries[id]? = some en ∧ db'.docs[id]? = db.docs[id]?
  sameIds : db'.docs.keys = db'.entries.keys ∧ db'.entries.keys.Nodup
  synced : Search.Synced db → Search.Synced db'
  stamp : db'.metaTable =
    { db.metaTable with normalizeProfile := some e.options.fingerprint }
  count : n = (db.entries.toList.filter fun r => r.2.raw.isSome).length

section Effect

variable {env : Env} {e : SearchEngine} {db : Db}

/-- The loop over the rows leaves the schema and `meta` alone. -/
theorem renewed_keeps (db : Db) :
    Host.Keeps db ((db.raws env).foldl (Db.renew env e) db) := by
  have hstep : ∀ db row, Host.Keeps db (db.renew env e row) := Host.keeps_renew
  exact Host.Keeps.foldl hstep (db.raws env) db

theorem reindexed_metaTable :
    (db.reindexed env e).metaTable =
      { db.metaTable with normalizeProfile := some e.options.fingerprint } := by
  change ({ (List.foldl _ _ _ : Db).metaTable with
    normalizeProfile := some e.options.fingerprint } : MetaTable) = _
  rw [(renewed_keeps db).metaTable]

theorem raws_length (env : Env) (db : Db) :
    (db.raws env).length = (db.entries.toList.filter fun r => r.2.raw.isSome).length := by
  have hperm := env.sqlite.scan_perm "SELECT id, raw FROM entries WHERE raw IS NOT NULL" []
    db.entries
  rw [Db.raws, List.length_filterMap_eq_countP, hperm.countP_eq, List.countP_eq_length_filter]
  simp only [Option.isSome_map]

/-- Every row keeps its raw text. -/
theorem reindexed_raw (db : Db) (id : Int64) :
    (db.reindexed env e).entries[id]?.map Entry.raw = db.entries[id]?.map Entry.raw := by
  rw [Renders.reindexed_entries]
  cases db.entries[id]? with
  | none => rfl
  | some en =>
    cases hraw : en.raw with
    | none => simp [hraw]
    | some raw => simp [hraw, Renders.renewEntry]

theorem reindexed_synced (hs : Search.Synced db) : Search.Synced (db.reindexed env e) := by
  intro id
  rw [Renders.reindexed_docs, Renders.reindexed_entries, hs id]
  cases db.entries[id]? with
  | none => rfl
  | some en =>
    cases hraw : en.raw with
    | none => simp [hraw]
    | some raw => simp [hraw, Renders.renewEntry]

theorem reindexed_isSome (id : Int64) :
    (db.reindexed env e).entries[id]?.isSome = db.entries[id]?.isSome := by
  rw [Renders.reindexed_entries, Option.isSome_map]

theorem reindexed_sameIds (h : SameIds db) : SameIds (db.reindexed env e) := by
  intro id
  rw [reindexed_isSome, Renders.reindexed_docs, ← h id]
  cases hen : db.entries[id]? with
  | none => rfl
  | some en =>
    have hdoc := h id
    rw [hen] at hdoc
    rw [Option.isSome_or, hdoc]
    simp

theorem reindexed_effect (h : SameIds db) :
    Reindexed env e db (db.reindexed env e) (db.raws env).length where
  ids := Table.keys_eq reindexed_isSome
  raws := reindexed_raw db
  renewed id en raw hen hraw := by
    rw [Renders.reindexed_entries, Renders.reindexed_docs, hen]
    simp [hraw, Renders.renewEntry]
  skipped id en hen hraw := by
    rw [Renders.reindexed_entries, Renders.reindexed_docs, hen]
    simp [hraw]
  sameIds := ⟨Table.keys_eq (reindexed_sameIds h), Table.keys_nodup _⟩
  synced := reindexed_synced
  stamp := reindexed_metaTable
  count := raws_length env db

theorem reindexed_columns : (db.reindexed env e).columns = db.columns :=
  (renewed_keeps db).columns

/-- A renewed file is renewed to itself. -/
theorem reindexed_reindexed (db : Db) :
    (db.reindexed env e).reindexed env e = db.reindexed env e := by
  have hdocs : ((db.reindexed env e).reindexed env e).docs = (db.reindexed env e).docs := by
    refine Table.ext_lookup fun id => ?_
    rw [Renders.reindexed_docs, Renders.reindexed_entries, Renders.reindexed_docs]
    cases db.entries[id]? with
    | none => rfl
    | some en =>
      cases hraw : en.raw with
      | none => simp [hraw]
      | some raw => simp [hraw, Renders.renewEntry]
  have hentries : ((db.reindexed env e).reindexed env e).entries =
      (db.reindexed env e).entries := by
    refine Table.ext_lookup fun id => ?_
    rw [Renders.reindexed_entries, Renders.reindexed_entries]
    cases db.entries[id]? with
    | none => rfl
    | some en =>
      cases hraw : en.raw with
      | none => simp [hraw]
      | some raw => simp [hraw, Renders.renewEntry]
  have hmeta : ((db.reindexed env e).reindexed env e).metaTable =
      (db.reindexed env e).metaTable := by
    rw [reindexed_metaTable, reindexed_metaTable]
  have hcolumns : ((db.reindexed env e).reindexed env e).columns =
      (db.reindexed env e).columns := reindexed_columns
  calc (db.reindexed env e).reindexed env e
      = ⟨((db.reindexed env e).reindexed env e).columns,
          ((db.reindexed env e).reindexed env e).docs,
          ((db.reindexed env e).reindexed env e).entries,
          ((db.reindexed env e).reindexed env e).metaTable⟩ := rfl
    _ = db.reindexed env e := by rw [hcolumns, hdocs, hentries, hmeta]

end Effect

/-- A `reindex` that returns has done so, whatever the world does around it. -/
theorem reindex_returned {env : Env} {e : SearchEngine} {w v : EngineWorld} {n : ℕ}
    (hw : w.Idle) (hrun : (reindex env e).run w = (.ok n, v)) :
    n = (w.db.raws env).length ∧ v.db = w.db.reindexed env e := by
  have hquiet := run_quiet_of_ok hw hrun
  rw [reindex_run] at hquiet
  obtain ⟨hn, hv⟩ := Prod.mk.inj hquiet
  exact ⟨(Outcome.ok.inj hn).symm, (congrArg World.db hv).symm⟩

/-- `reindex` renews the rows with a raw text, keeps the others, and a second `reindex`
leaves the file as it is. -/
theorem reindex_renews (env : Env) (e : SearchEngine) {w v : EngineWorld} {n : ℕ} (hw : w.Idle)
    (hsync : SameIds w.db) (hrun : (reindex env e).run w = (.ok n, v)) :
    Reindexed env e w.db v.db n ∧
      ∀ w' v' : EngineWorld, ∀ m, w'.Idle → w'.db = v.db →
        (reindex env e).run w' = (.ok m, v') → v'.db = v.db := by
  obtain ⟨hn, hv⟩ := reindex_returned hw hrun
  rw [hn, hv]
  refine ⟨reindexed_effect hsync, fun w' v' m hw' hdb hrun' => ?_⟩
  rw [(reindex_returned hw' hrun').2, hdb, reindexed_reindexed]

/-- A file with a row from before raw texts were retained. -/
def mixedIndex : Db :=
  let entries : Entries := Table.insertRows
    [(1, { norm := ['A'], normRev := some ['A'], raw := none }),
      (2, { norm := ['B'], normRev := some ['B'], raw := some ['B'] })] ∅
  { columns := some { normRev := true, raw := true }
    docs := entries.map fun _ en => en.norm
    entries := entries
    metaTable := { indexVersion := some ['1'] } }

theorem reindex_renews_mixed :
    let e : SearchEngine := { options := NormalizeProfile.loose.options, strategy := .substring }
    let v := ((reindex .ascii e).run (quiet mixedIndex none DEFAULT_FIELD_BITS false)).2
    Reindexed .ascii e mixedIndex v.db 1 ∧
      ∀ w' v' : EngineWorld, ∀ m, w'.Idle → w'.db = v.db →
        (reindex .ascii e).run w' = (.ok m, v') → v'.db = v.db := by
  have hsync : SameIds mixedIndex := by
    intro id
    change (mixedIndex.entries.map fun _ en => en.norm)[id]?.isSome = _
    rw [Table.lookup_map, Option.isSome_map]
  exact reindex_renews .ascii
    { options := NormalizeProfile.loose.options, strategy := .substring }
    (w := quiet mixedIndex none DEFAULT_FIELD_BITS false) ⟨rfl, rfl⟩ hsync
    (Prod.ext (by decide +kernel) rfl)

end Unfydqry
