import Unfydqry.Lib.CutOff
import Unfydqry.Catalog
import Unfydqry.PrefixSuffix

/-! # Migrations that are interrupted

`open_schema` adds the columns a legacy index lacks and then fills `norm_rev` in one
transaction. Each statement outside the transaction commits on its own, the `ALTER`
that adds `norm_rev` too, and the next open looks at the columns only. -/

namespace Unfydqry

open LockedStore Prog SearchEngine

namespace Migration

/-- `entries` without a `norm_rev` column, and perhaps without `raw`. -/
def Legacy (db : Db) : Prop := ∃ raw, db.columns = some { normRev := false, raw := raw }

def Migrated (db : Db) : Prop := db.columns = some { normRev := true, raw := true }

/-- The file after an open that is cut off at a statement of `open_schema`. -/
def interrupted (env : Env) (cut : ℕ × SearchError) (db : Db) : Db :=
  ((openSchema env).run { Host.openWorld db with fault := some cut }).2.db

def interruptions (env : Env) (cuts : List (ℕ × SearchError)) (db : Db) : Db :=
  cuts.foldl (fun db cut => interrupted env cut db) db

/-- The number of statements before the `ALTER` that adds `norm_rev`. -/
def alterAt (db : Db) : ℕ := if db.columns.any Columns.raw then 9 else 10

/-- The cut falls after the `ALTER` and no later than the `COMMIT` of the backfill. -/
def CutsBackfill (db : Db) (cut : ℕ × SearchError) : Prop :=
  Legacy db ∧ alterAt db < cut.1 ∧ cut.1 ≤ alterAt db + db.entries.size + 3

/-- An open under these options makes every row again from its raw text. -/
def Regenerates (db : Db) (options : NormalizeOptions) : Prop :=
  db.columns.any Columns.raw = true ∧
    (∀ (id : Int64) en, db.entries[id]? = some en → en.raw ≠ none) ∧
    db.metaTable.normalizeProfile.getD "loose".toList ≠ options.fingerprint

section Cuts

variable (env : Env) (db : Db)

theorem norms_length : (db.norms env).length = db.entries.size := by
  rw [Db.norms, List.length_map, (env.sqlite.scan_perm _ _ _).length_eq,
    Std.ExtTreeMap.length_toList]

theorem cutOff_effect (f : Db → Db) (saved : Option Db) :
    CutOff (Prog.stmt (Sql.effect f) : EngineM Unit) db saved [saved.getD db] () (f db) saved :=
  .stmt saved rfl

theorem cutOff_backfillNormRev :
    CutOff (backfillNormRev env) db none (List.replicate (db.entries.size + 3) db) ()
      (db.backfilled env) none := by
  have hrow : ∀ (r : Int64 × Text) (db' : Db),
      CutOff (Prog.stmt (Sql.updateNormRev r.1 (Search.reverseChars r.2)) : EngineM Unit) db'
        (some db) [db] () (db'.reverseRow r) (some db) := by
    intro r db'
    refine .stmt (some db) ?_
    rw [Sql.updateNormRev, Sql.effect]
    unfold Db.reverseRow
    cases db'.entries[r.1]? <;> rfl
  have hloop := CutOff.each hrow (db.norms env) db
  rw [norms_length] at hloop
  have hcuts : List.replicate (db.entries.size + 3) db =
      [db] ++ ([db] ++ (List.replicate db.entries.size db ++ [db])) := by
    rw [← List.replicate_succ']
    rfl
  rw [hcuts]
  exact .bind (.startTx db) (.bind (.stmt (some db) rfl) (.bind hloop (.commitTx _ db)))

/-- The stores `migrateRaw` can be cut off at. -/
def rawCuts (db : Db) : List Db := if db.columns.any Columns.raw then [db] else [db, db]

def normRevCuts (db : Db) : List Db :=
  if db.columns.any Columns.normRev then [db]
  else [db, db] ++ List.replicate (db.altered.entries.size + 3) db.altered

theorem cutOff_migrateRaw :
    CutOff migrateRaw db none (rawCuts db) () db.withRaw none := by
  have hinfo : CutOff (Prog.stmt Sql.tableInfo : EngineM (Option Columns)) db none [db] db.columns
      db none := .stmt none rfl
  unfold rawCuts Db.withRaw
  by_cases hraw : db.columns.any Columns.raw = true
  · rw [if_pos hraw, if_pos hraw]
    refine CutOff.bind (c := []) hinfo ?_
    rw [if_pos hraw]
    exact .pure () db none
  · rw [if_neg hraw, if_neg hraw]
    refine CutOff.bind (c := [db]) hinfo ?_
    rw [if_neg hraw]
    exact cutOff_effect db _ none

theorem cutOff_migrateNormRev :
    CutOff (migrateNormRev env) db none (normRevCuts db) () (db.withNormRev env) none := by
  have hinfo : CutOff (Prog.stmt Sql.tableInfo : EngineM (Option Columns)) db none [db] db.columns
      db none := .stmt none rfl
  unfold normRevCuts Db.withNormRev
  by_cases hrev : db.columns.any Columns.normRev = true
  · rw [if_pos hrev, if_pos hrev]
    refine CutOff.bind (c := []) hinfo ?_
    rw [if_pos hrev]
    exact .pure () db none
  · rw [if_neg hrev, if_neg hrev]
    refine CutOff.bind (c := [db] ++ List.replicate _ db.altered) hinfo ?_
    rw [if_neg hrev]
    exact .bind (cutOff_effect db _ none) (cutOff_backfillNormRev env db.altered)

/-- The file after `CREATE TABLE IF NOT EXISTS entries`. -/
def withEntries (db : Db) : Db :=
  match db.columns with
  | some _ => db
  | none => { db with columns := some { normRev := true, raw := true }, entries := ∅ }

/-- The stores `open_schema` can be cut off at. -/
def openCuts : List Db :=
  List.replicate 4 db ++ List.replicate 3 (withEntries db) ++ rawCuts db.created ++
    normRevCuts db.created.withRaw ++ [db.opened env]

theorem cutOff_openSchema :
    CutOff (openSchema env) db none (openCuts env db) () (db.opened env) none := by
  have hcuts : openCuts env db = [db] ++ ([db] ++ ([db] ++ ([db] ++ ([withEntries db] ++
      ([withEntries db] ++ ([withEntries db] ++ (rawCuts db.created ++
        (normRevCuts db.created.withRaw ++ [db.opened env])))))))) := by
    simp only [openCuts, List.append_assoc]
    rfl
  rw [hcuts]
  unfold openSchema
  exact .bind (cutOff_effect db _ none) (.bind (cutOff_effect db _ none)
    (.bind (cutOff_effect db _ none) (.bind (cutOff_effect db _ none)
    (.bind (cutOff_effect (withEntries db) _ none) (.bind (cutOff_effect (withEntries db) _ none)
    (.bind (cutOff_effect (withEntries db) _ none) (.bind (cutOff_migrateRaw db.created)
    (.bind (cutOff_migrateNormRev env db.created.withRaw)
    (cutOff_effect (db.opened env) id none)))))))))

end Cuts

theorem interrupted_eq (env : Env) (cut : ℕ × SearchError) (db : Db) :
    interrupted env cut db = (openCuts env db)[cut.1]?.getD (db.opened env) :=
  (cutOff_openSchema env db).run_db 0 false cut.2 cut.1

/-! ### The rows an interrupted open leaves -/

/-- The two files differ in nothing a migration looks at. -/
structure SameRows (db db' : Db) : Prop where
  columns : db'.columns = db.columns
  entries : db'.entries = db.entries
  profile : db'.metaTable.normalizeProfile = db.metaTable.normalizeProfile

theorem SameRows.refl (db : Db) : SameRows db db := ⟨rfl, rfl, rfl⟩

variable (env : Env) {db D : Db}

theorem created_sameRows {c : Columns} (h : db.columns = some c) : SameRows db db.created := by
  unfold Db.created
  simp only [h]
  cases hv : db.metaTable.indexVersion with
  | none => exact ⟨h.symm ▸ h, rfl, rfl⟩
  | some v => exact SameRows.refl db

theorem withEntries_eq {c : Columns} (h : db.columns = some c) : withEntries db = db := by
  unfold withEntries
  rw [h]

/-- Not yet altered: the rows of `db`, perhaps with a `raw` column added. -/
structure Pending (db D : Db) : Prop where
  legacy : Legacy D
  entries : D.withRaw.entries = db.withRaw.entries
  profile : D.metaTable.normalizeProfile = db.metaTable.normalizeProfile

/-- Altered and not filled. -/
structure Torn (db D : Db) : Prop where
  migrated : Migrated D
  entries : D.entries = db.withRaw.altered.entries
  profile : D.metaTable.normalizeProfile = db.metaTable.normalizeProfile

structure Filled (D : Db) : Prop where
  migrated : Migrated D
  reversed : Search.Reversed D

theorem Pending.of_same {D' : Db} (h : Pending db D) (hs : SameRows D D') : Pending db D' := by
  obtain ⟨raw, hraw⟩ := h.legacy
  refine ⟨⟨raw, hs.columns.trans hraw⟩, ?_, hs.profile.trans h.profile⟩
  rw [← h.entries]
  unfold Db.withRaw
  rw [hs.columns]
  split
  · exact hs.entries
  · simp only [hs.entries]

theorem withRaw_of_raw (h : db.columns.any Columns.raw = true) : db.withRaw = db := if_pos h

theorem withRaw_columns {c : Columns} (h : db.columns = some c) :
    db.withRaw.columns = some { c with raw := true } := by
  unfold Db.withRaw
  obtain ⟨rev, raw⟩ := c
  cases raw with
  | true => rw [if_pos (by rw [h]; rfl), h]
  | false =>
    rw [if_neg (by rw [h]; simp)]
    simp only [h, Option.map_some]

theorem withRaw_withRaw {c : Columns} (h : db.columns = some c) : db.withRaw.withRaw = db.withRaw :=
  withRaw_of_raw (by rw [withRaw_columns h]; rfl)

theorem withRaw_profile (db : Db) :
    db.withRaw.metaTable.normalizeProfile = db.metaTable.normalizeProfile := by
  unfold Db.withRaw
  split <;> rfl

theorem Pending.withRaw (h : Pending db D) : Pending db D.withRaw := by
  obtain ⟨raw, hraw⟩ := h.legacy
  refine ⟨⟨true, withRaw_columns hraw⟩, ?_, (withRaw_profile D).trans h.profile⟩
  rw [withRaw_withRaw hraw]
  exact h.entries

theorem Torn.of_same {D' : Db} (h : Torn db D) (hs : SameRows D D') : Torn db D' :=
  ⟨hs.columns.trans h.migrated, hs.entries.trans h.entries, hs.profile.trans h.profile⟩

theorem Filled.of_same {D' : Db} (h : Filled D) (hs : SameRows D D') : Filled D' :=
  ⟨hs.columns.trans h.migrated, fun id en hen => h.reversed id en (by rw [← hs.entries]; exact hen)⟩

/-- On a file with both columns an open changes no row. -/
theorem opened_same (h : Migrated D) : SameRows D (D.opened env) := by
  have hs := created_sameRows h
  have hcol : D.created.columns = some { normRev := true, raw := true } := hs.columns.trans h
  rw [Db.opened, withRaw_of_raw (by rw [hcol]; rfl), Db.withNormRev, if_pos (by rw [hcol]; rfl)]
  exact hs

theorem interrupted_same (h : Migrated D) (cut : ℕ × SearchError) :
    SameRows D (interrupted env cut D) := by
  have hs := created_sameRows h
  have hcol : D.created.columns = some { normRev := true, raw := true } := hs.columns.trans h
  have hall : ∀ d ∈ openCuts env D, SameRows D d := by
    intro d hd
    have hraw : D.created.withRaw = D.created := withRaw_of_raw (by rw [hcol]; rfl)
    have hrc : rawCuts D.created = [D.created] := if_pos (by rw [hcol]; rfl)
    have hnc : normRevCuts D.created = [D.created] := if_pos (by rw [hcol]; rfl)
    simp only [openCuts, hraw, hrc, hnc, withEntries_eq h, List.mem_append, List.mem_replicate,
      List.mem_singleton] at hd
    rcases hd with (((⟨_, rfl⟩ | ⟨_, rfl⟩) | rfl) | rfl) | rfl
    · exact SameRows.refl _
    · exact SameRows.refl _
    · exact hs
    · exact hs
    · exact opened_same env h
  rw [interrupted_eq]
  cases hk : (openCuts env D)[cut.1]? with
  | none => exact opened_same env h
  | some d => exact hall d (List.mem_of_getElem? hk)

/-! ### The backfill -/

theorem reverseRow_lookup (db : Db) (row : Int64 × Text) (a : Int64) :
    (db.reverseRow row).entries[a]? =
      if a = row.1 then
        db.entries[a]?.map fun en => { en with normRev := some (Search.reverseChars row.2) }
      else db.entries[a]? := by
  refine Table.lookup_update _ _ _ _ (fun en hen => ?_) fun hnone => ?_
  · simp only [Db.reverseRow, hen]
  · simp only [Db.reverseRow, hnone]

theorem mem_norms (env : Env) (db : Db) (id : Int64) (norm : Text) :
    (id, norm) ∈ db.norms env ↔ ∃ en, db.entries[id]? = some en ∧ en.norm = norm := by
  have hperm := env.sqlite.scan_perm "SELECT id, norm FROM entries" [] db.entries
  simp only [Db.norms, List.mem_map, hperm.mem_iff, Prod.exists, Table.mem_toList, Prod.mk.injEq]
  constructor
  · rintro ⟨id', en, hen, rfl, hnorm⟩
    exact ⟨en, hen, hnorm⟩
  · rintro ⟨en, hen, hnorm⟩
    exact ⟨id, en, hen, rfl, hnorm⟩

theorem norms_nodup (env : Env) (db : Db) : ((db.norms env).map Prod.fst).Nodup := by
  have hperm := env.sqlite.scan_perm "SELECT id, norm FROM entries" [] db.entries
  rw [Db.norms, List.map_map]
  exact (hperm.map Prod.fst).nodup_iff.mpr (Table.toList_nodup db.entries)

/-- A row as the backfill leaves it. -/
def fillRow (norm : Text) (row : Option Entry) : Option Entry :=
  row.map fun en => { en with normRev := some (Search.reverseChars norm) }

/-- The backfill that commits fills every row. -/
theorem backfilled_reversed (env : Env) (db : Db) : Search.Reversed (db.backfilled env) := by
  intro id en hen
  cases hold : db.entries[id]? with
  | none =>
    have hn : id ∉ (db.norms env).map Prod.fst := by
      intro hm
      obtain ⟨⟨_, norm⟩, hr, rfl⟩ := List.mem_map.mp hm
      obtain ⟨en', hen', _⟩ := (mem_norms env db _ norm).mp hr
      rw [hold] at hen'
      cases hen'
    have hread := Table.read_foldl_of_not_mem (fun (db : Db) (a : Int64) => db.entries[a]?)
      (f := fillRow) reverseRow_lookup _ db hn
    rw [Db.backfilled, hread, hold] at hen
    cases hen
  | some old =>
    have hm : (id, old.norm) ∈ db.norms env := (mem_norms env db id old.norm).mpr ⟨old, hold, rfl⟩
    have hread := Table.read_foldl_of_mem (fun (db : Db) (a : Int64) => db.entries[a]?)
      (f := fillRow) reverseRow_lookup _ db (norms_nodup env db) hm
    rw [Db.backfilled, hread, hold, fillRow, Option.map_some, Option.some.injEq] at hen
    rw [← hen]

theorem backfilled_columns (env : Env) (db : Db) :
    (db.backfilled env).columns = db.columns := by
  have hrow : ∀ (db : Db) row, (db.reverseRow row).columns = db.columns := by
    intro db row
    unfold Db.reverseRow
    split <;> rfl
  unfold Db.backfilled
  generalize db.norms env = rows
  induction rows generalizing db with
  | nil => rfl
  | cons row rows ih => rw [List.foldl_cons, ih, hrow]

/-! ### One open -/

section Legacy

variable {raw : Bool} (h : D.columns = some { normRev := false, raw := raw })

include h

theorem created_withRaw_columns :
    D.created.withRaw.columns = some { normRev := false, raw := true } :=
  withRaw_columns ((created_sameRows h).columns.trans h)

theorem opened_eq : D.opened env = D.created.withRaw.altered.backfilled env := by
  rw [Db.opened, Db.withNormRev, if_neg (by rw [created_withRaw_columns h]; simp)]

theorem opened_filled : Filled (D.opened env) := by
  rw [opened_eq env h]
  refine ⟨?_, backfilled_reversed env _⟩
  rw [Migrated, backfilled_columns, Db.altered, created_withRaw_columns h]
  rfl

theorem altered_entries_size : D.created.withRaw.altered.entries.size = D.entries.size := by
  have hs := created_sameRows h
  have hraw : D.created.withRaw.entries.size = D.entries.size := by
    unfold Db.withRaw
    split
    · rw [hs.entries]
    · simp only [Std.ExtTreeMap.size_map, hs.entries]
  rw [Db.altered, ← hraw]
  exact Std.ExtTreeMap.size_map

/-- The statements up to the `ALTER`, then those of the backfill, then one more. -/
theorem openCuts_eq : ∃ early, early.length = alterAt D + 1 ∧
    (∀ d ∈ early, d = D ∨ d = D.created ∨ d = D.created.withRaw) ∧
    openCuts env D = early ++
      (List.replicate (D.entries.size + 3) D.created.withRaw.altered ++ [D.opened env]) := by
  have hcol := (created_sameRows h).columns.trans h
  have hnc : normRevCuts D.created.withRaw = [D.created.withRaw, D.created.withRaw] ++
      List.replicate (D.entries.size + 3) D.created.withRaw.altered := by
    rw [normRevCuts, if_neg (by rw [created_withRaw_columns h]; simp), altered_entries_size h]
  refine ⟨List.replicate 4 D ++ List.replicate 3 D ++ rawCuts D.created ++
    [D.created.withRaw, D.created.withRaw], ?_, fun d hd => ?_, ?_⟩
  · unfold rawCuts alterAt
    rw [hcol, h]
    cases raw <;> rfl
  · have hraw : ∀ d ∈ rawCuts D.created, d = D.created := by
      intro d hd
      unfold rawCuts at hd
      split at hd <;> simpa using hd
    simp only [List.mem_append, List.mem_replicate, List.mem_cons, List.not_mem_nil,
      or_false] at hd
    rcases hd with ((⟨_, rfl⟩ | ⟨_, rfl⟩) | hd) | rfl | rfl
    · exact .inl rfl
    · exact .inl rfl
    · exact .inr (.inl (hraw d hd))
    · exact .inr (.inr rfl)
    · exact .inr (.inr rfl)
  · simp only [openCuts, withEntries_eq h, hnc, List.append_assoc]

/-- A cut before the `ALTER` has committed leaves the migration to do. -/
theorem interrupted_early (hp : Pending db D) {cut : ℕ × SearchError} (hcut : cut.1 ≤ alterAt D) :
    Pending db (interrupted env cut D) := by
  obtain ⟨early, hlen, hearly, hcuts⟩ := openCuts_eq env h
  have hcreated := hp.of_same (created_sameRows h)
  have hlt : cut.1 < early.length := by omega
  rw [interrupted_eq, hcuts, List.getElem?_append_left hlt, List.getElem?_eq_getElem hlt,
    Option.getD_some]
  rcases hearly _ (List.getElem_mem hlt) with heq | heq | heq
  · rw [heq]
    exact hp
  · rw [heq]
    exact hcreated
  · rw [heq]
    exact hcreated.withRaw

/-- A cut inside the backfill leaves the column without its values. -/
theorem interrupted_backfill (hp : Pending db D) {cut : ℕ × SearchError}
    (hafter : alterAt D < cut.1) (hbefore : cut.1 ≤ alterAt D + D.entries.size + 3) :
    Torn db (interrupted env cut D) := by
  obtain ⟨early, hlen, _, hcuts⟩ := openCuts_eq env h
  have hprofile := (hp.of_same (created_sameRows h)).withRaw.profile
  have hentries := (hp.of_same (created_sameRows h)).entries
  have hpos : cut.1 - early.length < D.entries.size + 3 := by omega
  rw [interrupted_eq, hcuts, List.getElem?_append_right (by omega),
    List.getElem?_append_left (by rw [List.length_replicate]; exact hpos),
    List.getElem?_replicate_of_lt hpos, Option.getD_some]
  refine ⟨?_, ?_, hprofile⟩
  · rw [Migrated, Db.altered, created_withRaw_columns h]
    rfl
  · rw [Db.altered, hentries]
    rfl

theorem interrupted_late (cut : ℕ × SearchError)
    (hcut : alterAt D + D.entries.size + 3 < cut.1) : Filled (interrupted env cut D) := by
  obtain ⟨early, hlen, _, hcuts⟩ := openCuts_eq env h
  rw [interrupted_eq, hcuts, List.getElem?_append_right (by omega),
    List.getElem?_append_right (by rw [List.length_replicate]; omega)]
  cases hk : [D.opened env][cut.1 - early.length - (List.replicate (D.entries.size + 3)
      D.created.withRaw.altered).length]? with
  | none => exact opened_filled env h
  | some d =>
    have hd := List.mem_of_getElem? hk
    rw [List.mem_singleton] at hd
    rw [Option.getD_some, hd]
    exact opened_filled env h

end Legacy

/-- Some interruption of the run falls inside the backfill. -/
def CutInBackfill (env : Env) : List (ℕ × SearchError) → Db → Prop
  | [], _ => False
  | cut :: cuts, db => CutsBackfill db cut ∨ CutInBackfill env cuts (interrupted env cut db)

theorem not_legacy_of_migrated (h : Migrated D) : ¬ Legacy D := by
  rintro ⟨raw, hraw⟩
  rw [Migrated, hraw] at h
  cases h

theorem Filled.interruptions (h : Filled D) (cuts : List (ℕ × SearchError)) :
    Filled (interruptions env cuts D) ∧ ¬ CutInBackfill env cuts D := by
  induction cuts generalizing D with
  | nil => exact ⟨h, id⟩
  | cons cut cuts ih =>
    obtain ⟨hfilled, hcuts⟩ := ih (h.of_same (interrupted_same env h.migrated cut))
    refine ⟨hfilled, ?_⟩
    rintro (hcut | hcut)
    · exact not_legacy_of_migrated h.migrated hcut.1
    · exact hcuts hcut

theorem Torn.interruptions (h : Torn db D) (cuts : List (ℕ × SearchError)) :
    Torn db (interruptions env cuts D) := by
  induction cuts generalizing D with
  | nil => exact h
  | cons cut cuts ih => exact ih (h.of_same (interrupted_same env h.migrated cut))

/-- Where a run of interrupted opens leaves a legacy index. -/
theorem Pending.interruptions (h : Pending db D) (cuts : List (ℕ × SearchError)) :
    (CutInBackfill env cuts D ∧ Torn db (interruptions env cuts D)) ∨
      (¬ CutInBackfill env cuts D ∧ (Pending db (interruptions env cuts D) ∨
        Filled (interruptions env cuts D))) := by
  induction cuts generalizing D with
  | nil => exact .inr ⟨id, .inl h⟩
  | cons cut cuts ih =>
    obtain ⟨raw, hraw⟩ := h.legacy
    by_cases hearly : cut.1 ≤ alterAt D
    · have hnot : ¬ CutsBackfill D cut := fun hc => absurd hc.2.1 (by omega)
      have hrest := ih (interrupted_early env hraw h hearly)
      simp only [CutInBackfill, hnot, false_or]
      exact hrest
    · by_cases hbefore : cut.1 ≤ alterAt D + D.entries.size + 3
      · have htorn := interrupted_backfill env hraw h (by omega) hbefore
        exact .inl ⟨.inl ⟨h.legacy, by omega, hbefore⟩, htorn.interruptions env cuts⟩
      · have hnot : ¬ CutsBackfill D cut := fun hc => absurd hc.2.2 hbefore
        have hfilled := interrupted_late env hraw cut (by omega)
        obtain ⟨hend, hcuts⟩ := hfilled.interruptions env cuts
        simp only [CutInBackfill, hnot, false_or]
        exact .inr ⟨hcuts, .inr hend⟩

/-! ### The open that succeeds -/

/-- Adopting a file mends a row just when it makes the row again from its raw text. -/
theorem adopted_reversed_iff (env : Env) (e : SearchEngine) (bits : UInt8) (X : Db) :
    Search.Reversed (X.adopted env e bits) ↔
      ∀ (id : Int64) en, X.entries[id]? = some en →
        en.normRev = some (Search.reverseChars en.norm) ∨
          (X.storedProfile.any fun s => s ≠ e.options.fingerprint) = true ∧ en.raw ≠ none := by
  unfold Db.adopted
  split
  · rename_i hmismatch
    constructor
    · intro hrev id en hen
      cases hraw : en.raw with
      | some raw => exact .inr ⟨hmismatch, by simp⟩
      | none =>
        have hsame : ((X.stampedBits bits).reindexed env e).entries[id]? = some en := by
          rw [Renders.reindexed_entries]
          change (X.entries[id]?).map _ = _
          rw [hen, Option.map_some, hraw]
          rfl
        exact .inl (hrev id en hsame)
    · intro hall id en hen
      rw [Renders.reindexed_entries] at hen
      obtain ⟨old, hold, rfl⟩ := Option.map_eq_some_iff.mp hen
      cases hraw : old.raw with
      | some raw => rfl
      | none =>
        rcases hall id old hold with h | ⟨_, h⟩
        · exact h
        · exact absurd hraw h
  · rename_i hsame
    constructor
    · exact fun hrev id en hen => .inl (hrev id en hen)
    · intro hall id en hen
      rcases hall id en hen with h | ⟨h, _⟩
      · exact h
      · exact absurd h hsame

theorem storedProfile_any_iff {X : Db} {id : Int64} {en : Entry} (h : X.entries[id]? = some en)
    (key : Text) :
    (X.storedProfile.any fun s => s ≠ key) = true ↔
      X.metaTable.normalizeProfile.getD "loose".toList ≠ key := by
  have hsize : X.entries.size ≠ 0 := by
    intro hzero
    rw [Std.ExtTreeMap.eq_empty_iff_size_eq_zero.mpr hzero, Table.lookup_empty] at h
    cases h
  rw [Db.storedProfile, if_neg hsize, Option.any_some]
  exact decide_eq_true_iff

/-- The rows of a torn file are those of the legacy one without their reversed text. -/
theorem Torn.lookup (h : Torn db D) (id : Int64) :
    D.entries[id]? = (db.withRaw.entries[id]?).map fun en => { en with normRev := none } := by
  rw [h.entries, Db.altered, Table.lookup_map]

theorem withRaw_empty_iff (db : Db) : db.withRaw.entries = ∅ ↔ db.entries = ∅ := by
  unfold Db.withRaw
  split
  · rfl
  · exact Table.map_eq_empty_iff _ _

theorem withRaw_lookup_raw {id : Int64} {en : Entry} (h : db.withRaw.entries[id]? = some en)
    (hraw : en.raw ≠ none) : db.columns.any Columns.raw = true := by
  by_contra hcol
  rw [Db.withRaw, if_neg hcol, Table.lookup_map] at h
  obtain ⟨old, _, rfl⟩ := Option.map_eq_some_iff.mp h
  exact hraw rfl

/-- A torn file is mended just by an open that regenerates all its rows. -/
theorem Torn.adopted_reversed_iff (h : Torn db D) (e : SearchEngine) (bits : UInt8) :
    Search.Reversed ((D.opened env).adopted env e bits) ↔
      db.entries = ∅ ∨ Regenerates db e.options := by
  have hX := h.of_same (opened_same env h.migrated)
  have hbare : ∀ (id : Int64) en, (D.opened env).entries[id]? = some en →
      en.normRev ≠ some (Search.reverseChars en.norm) := by
    intro id en hen
    rw [hX.lookup] at hen
    obtain ⟨old, _, rfl⟩ := Option.map_eq_some_iff.mp hen
    simp
  rw [Migration.adopted_reversed_iff]
  constructor
  · intro hall
    have hmend : ∀ (id : Int64) en, db.withRaw.entries[id]? = some en →
        db.metaTable.normalizeProfile.getD "loose".toList ≠ e.options.fingerprint ∧
          en.raw ≠ none := by
      intro id en hen
      have hrow : (D.opened env).entries[id]? = some { en with normRev := none } := by
        rw [hX.lookup, hen]
        rfl
      rcases hall id _ hrow with hrev | ⟨hmismatch, hraw⟩
      · exact absurd hrev (hbare id _ hrow)
      · rw [storedProfile_any_iff hrow, hX.profile] at hmismatch
        exact ⟨hmismatch, hraw⟩
    by_cases hempty : db.entries = ∅
    · exact .inl hempty
    · right
      have hsome : ∃ id : Int64, db.withRaw.entries[id]? ≠ none := by
        by_contra hnone
        rw [← withRaw_empty_iff, Table.eq_empty_iff] at hempty
        exact hempty fun id => by_contra fun hid => hnone ⟨id, hid⟩
      obtain ⟨id, hid⟩ := hsome
      obtain ⟨en, hen⟩ := Option.ne_none_iff_exists'.mp hid
      obtain ⟨hprofile, hraw⟩ := hmend id en hen
      have hcol := withRaw_lookup_raw hen hraw
      rw [withRaw_of_raw hcol] at hmend
      exact ⟨hcol, fun id en hen => (hmend id en hen).2, hprofile⟩
  · intro hgood id en hen
    rw [hX.lookup] at hen
    obtain ⟨old, hold, rfl⟩ := Option.map_eq_some_iff.mp hen
    rcases hgood with hempty | ⟨hcol, hraws, hprofile⟩
    · rw [(withRaw_empty_iff db).mpr hempty, Table.lookup_empty] at hold
      cases hold
    · have hrow : (D.opened env).entries[id]? = some { old with normRev := none } := by
        rw [hX.lookup, hold]
        rfl
      rw [withRaw_of_raw hcol] at hold
      rw [storedProfile_any_iff hrow, hX.profile]
      exact .inr ⟨hprofile, hraws id old hold⟩

/-- After any interrupted opens, an open that succeeds leaves every row with its reversed
text just when there are no rows, no interruption fell inside the backfill, or that open
makes every row again. -/
theorem migration_survives_iff (env : Env) {db : Db} (hlegacy : Legacy db)
    (cuts : List (ℕ × SearchError)) {options : NormalizeOptions} {strategy : SearchStrategy}
    {fieldBits : Option UInt8} {rebuild : Bool} {engine : SearchEngine} {w : EngineWorld}
    (hopen : (openEngine env options strategy fieldBits rebuild).run
      (Host.openWorld (interruptions env cuts db)) = (.ok engine, w)) :
    Search.Reversed w.db ↔
      db.entries = ∅ ∨ ¬ CutInBackfill env cuts db ∨ Regenerates db options := by
  obtain ⟨bits, _, hworld⟩ := openEngine_ok env _ 0 options strategy fieldBits rebuild hopen
  have hdb : w.db = ((interruptions env cuts db).opened env).adopted env
      { options := options, strategy := strategy } bits := by
    rw [hworld]
    rfl
  have hpending : Pending db db := ⟨hlegacy, rfl, rfl⟩
  rw [hdb]
  rcases hpending.interruptions env cuts with ⟨hcut, htorn⟩ | ⟨hcut, hend⟩
  · rw [htorn.adopted_reversed_iff env]
    simp [hcut]
  · have hrev : Search.Reversed ((interruptions env cuts db).opened env) := by
      rcases hend with hp | hf
      · obtain ⟨raw, hraw⟩ := hp.legacy
        exact (opened_filled env hraw).reversed
      · exact (hf.of_same (opened_same env hf.migrated)).reversed
    have hadopted := (adopted_reversed_iff env { options := options, strategy := strategy } bits
      _).mpr fun id en hen => .inl (hrev id en hen)
    exact iff_of_true hadopted (.inr (.inl hcut))

/-- An index from before the suffix search, with one document. -/
def legacyIndex : Db where
  columns := some { normRev := false, raw := true }
  docs := Table.insertRows [(1, ['a', 'b'])] ∅
  entries :=
    Table.insertRows [(1, { norm := ['a', 'b'], normRev := none, raw := some ['a', 'b'] })] ∅
  metaTable := { indexVersion := some ['1'] }

theorem legacyIndex_legacy : Legacy legacyIndex := ⟨true, rfl⟩

def suffixEngine : SearchEngine :=
  { options := NormalizeProfile.loose.options, strategy := .suffixMatch }

/-- A loose open for suffix search, after interrupted ones. -/
def reopened (cuts : List (ℕ × SearchError)) : Outcome SearchError SearchEngine × EngineWorld :=
  (openEngine .ascii NormalizeProfile.loose.options .suffixMatch none false).run
    (Host.openWorld (interruptions .ascii cuts legacyIndex))

/-- The `BEGIN` of the backfill fails. -/
def beginCut : ℕ × SearchError := (10, .db "disk I/O error")

theorem reopened_rows : (reopened [beginCut]).1 = .ok suffixEngine ∧
    (reopened [beginCut]).2.db.entries.toList =
      [(1, { norm := ['a', 'b'], normRev := none, raw := some ['a', 'b'] })] := by
  decide +kernel

theorem migration_not_survives :
    ¬ ∀ (db : Db) (cuts : List (ℕ × SearchError)) (options : NormalizeOptions)
        (strategy : SearchStrategy) (engine : SearchEngine) (w : EngineWorld), Legacy db →
      (openEngine .ascii options strategy none false).run
        (Host.openWorld (interruptions .ascii cuts db)) = (.ok engine, w) →
      Search.Reversed w.db := by
  intro h
  obtain ⟨hok, hrows⟩ := reopened_rows
  have hrev := h legacyIndex [beginCut] _ _ suffixEngine (reopened [beginCut]).2 legacyIndex_legacy
    (Prod.ext hok rfl)
  have hmem : ((1 : Int64),
      ({ norm := ['a', 'b'], normRev := none, raw := some ['a', 'b'] } : Entry)) ∈
      (reopened [beginCut]).2.db.entries.toList := by
    rw [hrows]
    exact List.mem_singleton_self _
  have hnone := hrev 1 _ ((Table.mem_toList _ _ _).mp hmem)
  cases hnone

theorem migration_survives_begin :
    Search.Reversed (reopened [beginCut]).2.db ↔
      legacyIndex.entries = ∅ ∨ ¬ CutInBackfill .ascii [beginCut] legacyIndex ∨
        Regenerates legacyIndex NormalizeProfile.loose.options :=
  have hopen : reopened [beginCut] = (.ok suffixEngine, (reopened [beginCut]).2) :=
    Prod.ext reopened_rows.1 rfl
  migration_survives_iff .ascii legacyIndex_legacy [beginCut] hopen

end Migration

end Unfydqry
