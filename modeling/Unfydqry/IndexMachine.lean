import Unfydqry.Engine.Handles
import Unfydqry.Engine.ReadEffect
import Unfydqry.SharedInvariant

/-! # The index as an abstract machine

What a host may rely on: a map from ids to texts, the option set and the width it is kept
under, and the engine. The file is a function of that state, and every action on the file is
an action on that state: which calls are accepted, what they answer and what they leave. -/

namespace Unfydqry

open LockedStore Prog SearchEngine

instance (bits : UInt8) : Decidable (ValidBits bits) :=
  inferInstanceAs (Decidable (_ ∧ _))

/-- The option set and the width a file is kept under. -/
structure Stamp where
  options : NormalizeOptions
  width : UInt8
  valid : ValidBits width

inductive Index where
  /-- No open has touched the file. -/
  | fresh
  /-- Opened, and never accepted. -/
  | rejected
  | closed (stamp : Stamp) (texts : Catalog)
  | opened (stamp : Stamp) (strategy : SearchStrategy) (texts : Catalog)

/-- What a constructor asks for. -/
structure OpenRequest where
  options : NormalizeOptions
  strategy : SearchStrategy
  fieldBits : Option UInt8
  rebuild : Bool

def Constructor.request : Constructor → OpenRequest
  | .new => ⟨EngineConfig.default.normalize.options, EngineConfig.default.strategy,
      EngineConfig.default.fieldBits, false⟩
  | .withConfig config => ⟨config.normalize.options, config.strategy, config.fieldBits, false⟩
  | .withConfigRebuilding config =>
    ⟨config.normalize.options, config.strategy, config.fieldBits, true⟩
  | .withOptions config => ⟨config.normalize, config.strategy, config.fieldBits, false⟩
  | .withOptionsRebuilding config => ⟨config.normalize, config.strategy, config.fieldBits, true⟩

namespace Stamp

/-- Every id decodes under one width and fits another. -/
def Fits (old new : UInt8) (texts : Catalog) : Prop :=
  ∀ row ∈ texts.toList, Repackable old new row.1

instance (old new : UInt8) (texts : Catalog) : Decidable (Fits old new texts) :=
  inferInstanceAs (Decidable (∀ row ∈ texts.toList, _))

/-- The calls that are not rejected for their arguments; pages are checked elsewhere. -/
def Accepts (s : Stamp) (texts : Catalog) : Call → Prop
  | .indexRecord r fields => RecordOk s.width r ∧ SlotsOk s.width fields
  | .indexRecordsBatch records => RecordsOk s.width records
  | .removeRecord r | .containsRecord r => RecordOk s.width r
  | .highlightRecord _ r slot _ _ => RecordOk s.width r ∧ (slot.toNat : ℤ) < 2 ^ s.width.toNat
  | .changeFieldBits new => ValidBits new ∧ (new = s.width ∨ Fits s.width new texts)
  | _ => True

instance (s : Stamp) (texts : Catalog) : (c : Call) → Decidable (s.Accepts texts c)
  | .indexRecord _ _ | .highlightRecord _ _ _ _ _ | .changeFieldBits _ =>
    inferInstanceAs (Decidable (_ ∧ _))
  | .indexRecordsBatch _ => inferInstanceAs (Decidable (RecordsOk _ _))
  | .removeRecord _ | .containsRecord _ => inferInstanceAs (Decidable (RecordOk _ _))
  | .index _ _ | .remove _ | .indexBatch _ | .removeBatch _ | .removeAll | .reindex | .contains _
  | .documentCount | .search _ _ | .searchPage _ _ _ | .matchCount _ | .highlight _ _ _ _
  | .searchRecords _ _ _ | .searchRecordsPage _ _ _ _ | .matchCountRecords _ _ =>
    isTrue trivial

/-- The stamp an accepted call leaves. -/
def next (s : Stamp) : Call → Stamp
  | .changeFieldBits new => if h : ValidBits new then { s with width := new, valid := h } else s
  | _ => s

def engine (s : Stamp) (strategy : SearchStrategy) : SearchEngine where
  options := s.options
  strategy := strategy

/-- A text with the matches of a query marked. -/
def mark (env : Env) (s : Stamp) (query before after text : Text) : Option Text :=
  Highlight.highlightRaw text (normalize env.unicode s.options text)
    (normalize env.unicode s.options query) before after (normalize env.unicode s.options)

def markAt (env : Env) (s : Stamp) (texts : Catalog) (query : Text) (id : Int64)
    (before after : Text) : Option Text :=
  if (normalize env.unicode s.options query).isEmpty then none
  else texts[id]?.bind (s.mark env query before after)

/-- The answer of an accepted call that does not search. -/
def reply (env : Env) (s : Stamp) (texts : Catalog) : Call → Reply
  | .indexBatch items => .count items.length
  | .removeBatch ids => .count ids.length
  | .indexRecordsBatch records => .count records.length
  | .removeAll | .reindex | .documentCount => .count texts.size
  | .changeFieldBits new => .count (if new = s.width then 0 else texts.size)
  | .contains id => .flag (texts.contains id)
  | .containsRecord r =>
    .flag (texts.keys.any (Sql.between (shlOf s.width r) (hiOf s.width r)))
  | .highlight query id before after => .text (s.markAt env texts query id before after)
  | .highlightRecord query r slot before after =>
    .text (s.markAt env texts query (packId s.width r slot) before after)
  | _ => .unit

/-- The stamp of a file without rows after an open. -/
def initial (r : OpenRequest) : Option Stamp :=
  match r.fieldBits with
  | none => some ⟨r.options, DEFAULT_FIELD_BITS, validBits_default⟩
  | some n => if h : ValidBits n then some ⟨r.options, n, h⟩ else none

/-- The stamp after an open, when it is accepted. Rows keep their width, and their option
set changes only by a rebuild. -/
def grant (s : Stamp) (texts : Catalog) (r : OpenRequest) : Option Stamp :=
  if texts.size = 0 then initial r
  else if r.fieldBits.getD s.width = s.width ∧ (r.rebuild = true ∨ r.options = s.options) then
    some { s with options := r.options }
  else none

/-- The file of a stamped index. -/
def file (env : Env) (s : Stamp) (texts : Catalog) : Db where
  columns := some { normRev := true, raw := true }
  docs := texts.map fun _ text => normalize env.unicode s.options text
  entries := texts.map fun _ text => renderEntry env s.options text
  metaTable :=
    { indexVersion := some ['1']
      normalizeProfile := some s.options.fingerprint
      fieldBits := some (bitsText s.width) }

end Stamp

namespace Index

variable (env : Env)

def call : Index → Call → Index
  | .opened s strategy texts, c =>
    if s.Accepts texts c then
      .opened (s.next c) strategy (c.keeps env (s.engine strategy) s.width texts)
    else .opened s strategy texts
  | i, _ => i

def reopen : Index → OpenRequest → Index
  | .fresh, r | .rejected, r =>
    match Stamp.initial r with
    | some s => .opened s r.strategy ∅
    | none => .rejected
  | .closed s texts, r | .opened s _ texts, r =>
    match s.grant texts r with
    | some s' => .opened s' r.strategy texts
    | none => .closed s texts

def close : Index → Index
  | .opened s _ texts => .closed s texts
  | i => i

def step (i : Index) : Action → Index
  | .call c => i.call env c
  | .reopen c => i.reopen c.request
  | .close => i.close

def run (i : Index) (actions : List Action) : Index := actions.foldl (step env) i

/-- The host in which the index is kept. -/
def host : Index → Host
  | .fresh => {}
  | .rejected =>
    { file := { columns := some { normRev := true, raw := true }
                metaTable := { indexVersion := some ['1'] } } }
  | .closed s texts => { file := s.file env texts }
  | .opened s strategy texts =>
    { file := s.file env texts
      opened := some { engine := s.engine strategy, fieldBits := s.width } }

end Index

/-! ### The file as a function of the index -/

namespace Stamp

variable {env : Env} {s : Stamp} {texts : Catalog} {strategy : SearchStrategy} {db : Db}

theorem file_renders : Renders env s.options texts (s.file env texts) := ⟨rfl, rfl⟩

theorem engineOk_file : Host.EngineOk env (s.file env texts) (s.engine strategy) s.width where
  schema := rfl
  rendered := ⟨texts, file_renders⟩
  profile := rfl
  stamp := rfl
  valid := s.valid

/-- A file is determined by the texts it renders, its columns and its `meta`. -/
theorem eq_file (hr : Renders env s.options texts db)
    (hc : db.columns = some { normRev := true, raw := true })
    (hm : db.metaTable = (s.file env texts).metaTable) : db = s.file env texts := by
  obtain ⟨columns, docs, entries, metaTable⟩ := db
  obtain ⟨hd, he⟩ := hr
  simp only at hc hm hd he
  subst hc hm hd he
  rfl

/-- An effect on the tables that is an operation on the texts. -/
theorem kept_file {texts' : Catalog} (hr : Renders env s.options texts' db)
    (hk : Host.Keeps (s.file env texts) db) : db = s.file env texts' :=
  eq_file hr hk.columns hk.metaTable

theorem rows_fits (env : Env) (s : Stamp) (texts : Catalog) (old new : UInt8) :
    (∀ row ∈ (s.file env texts).rows env, Repackable old new row.1) ↔ Fits old new texts := by
  have hfile : Renders env s.options texts (s.file env texts) := file_renders
  have hperm := hfile.rows_perm
  simp only [hperm.mem_iff, List.forall_mem_map]
  rfl

theorem rows_length : ((s.file env texts).rows env).length = texts.size := by
  have hfile : Renders env s.options texts (s.file env texts) := file_renders
  have hperm := hfile.rows_perm
  rw [hperm.length_eq, List.length_map, Std.ExtTreeMap.length_toList]

theorem raws_length : ((s.file env texts).raws env).length = texts.size := by
  have hperm := env.sqlite.scan_perm "SELECT id, raw FROM entries WHERE raw IS NOT NULL" []
    (s.file env texts).entries
  have hraw : ∀ r ∈ env.sqlite.scan "SELECT id, raw FROM entries WHERE raw IS NOT NULL" []
      (s.file env texts).entries,
      (r.2.raw.map fun raw => (r.1, raw)) = some (r.1, r.2.raw.getD []) := by
    intro r hr
    have hlookup := (Table.mem_toList _ _ _).mp (hperm.mem_iff.mp hr)
    rw [file_renders.entries_lookup, Option.map_eq_some_iff] at hlookup
    obtain ⟨text, _, hen⟩ := hlookup
    rw [← hen]
    rfl
  rw [Db.raws, List.filterMap_congr hraw, List.filterMap_eq_map', List.length_map,
    hperm.length_eq, Std.ExtTreeMap.length_toList]
  exact Std.ExtTreeMap.size_map

end Stamp

/-! ### Calls -/

/-- The calls whose answer is a ranking, or its length. -/
def Call.Searches : Call → Prop
  | .search .. | .searchPage .. | .matchCount .. | .searchRecords .. | .searchRecordsPage ..
  | .matchCountRecords .. => True
  | _ => False

namespace Stamp

variable {env : Env} {s : Stamp} {texts : Catalog} {strategy : SearchStrategy}

/-- A call on the file of an index: what it leaves, what it answers, and that a rejected
call changes nothing. -/
structure Serves (env : Env) (s : Stamp) (texts : Catalog) (strategy : SearchStrategy)
    (c : Call) : Prop where
  leaves : s.Accepts texts c →
    ((c.prog env (s.engine strategy)).run (quiet (s.file env texts) none s.width false)).2 =
      quiet ((s.next c).file env (c.keeps env (s.engine strategy) s.width texts)) none
        (s.next c).width false
  answers : s.Accepts texts c → ¬ c.Searches →
    ((c.prog env (s.engine strategy)).run (quiet (s.file env texts) none s.width false)).1 =
      .ok (s.reply env texts c)
  rejects : ¬ s.Accepts texts c →
    ∃ err, (c.prog env (s.engine strategy)).run (quiet (s.file env texts) none s.width false) =
      (.err err, quiet (s.file env texts) none s.width false)

theorem serves_of_run {c : Call} (db : Db)
    (hrun : s.Accepts texts c →
      (c.prog env (s.engine strategy)).run (quiet (s.file env texts) none s.width false) =
        (.ok (s.reply env texts c), quiet db none (s.next c).width false))
    (hdb : s.Accepts texts c →
      db = (s.next c).file env (c.keeps env (s.engine strategy) s.width texts))
    (hrej : ¬ s.Accepts texts c → ∃ err,
      (c.prog env (s.engine strategy)).run (quiet (s.file env texts) none s.width false) =
        (.err err, quiet (s.file env texts) none s.width false)) :
    Serves env s texts strategy c where
  leaves h := by rw [hrun h, hdb h]
  answers h _ := by rw [hrun h]
  rejects := hrej

theorem serves_index (id : Int64) (text : Text) :
    Serves env s texts strategy (.index id text) :=
  serves_of_run _ (fun _ => run_bind_pure_ok _ (index_run env _ _ _ id text))
    (fun _ => kept_file (file_renders.put (e := s.engine strategy) id text)
      (Host.keeps_put _ _ _))
    fun h => absurd trivial h

theorem serves_remove (id : Int64) : Serves env s texts strategy (.remove id) :=
  serves_of_run _ (fun _ => run_bind_pure_ok _ (remove_run _ _ id))
    (fun _ => kept_file (file_renders.drop id) (Host.keeps_drop _ _))
    fun h => absurd trivial h

theorem serves_indexBatch (items : List IndexItem) :
    Serves env s texts strategy (.indexBatch items) :=
  serves_of_run _ (fun _ => run_bind_pure_ok _ (indexBatch_run env _ _ _ items))
    (fun _ => kept_file (file_renders.putItems (e := s.engine strategy) items)
      (Host.keeps_putItems _ _))
    fun h => absurd trivial h

theorem serves_removeBatch (ids : List Int64) :
    Serves env s texts strategy (.removeBatch ids) :=
  serves_of_run _ (fun _ => run_bind_pure_ok _ (removeBatch_run _ _ ids))
    (fun _ => kept_file (file_renders.dropIds ids) (Host.Keeps.foldl Host.keeps_drop _ _))
    fun h => absurd trivial h

theorem serves_removeAll : Serves env s texts strategy .removeAll := by
  refine serves_of_run (s.file env texts).clear (fun _ => ?_)
    (fun _ => eq_file Renders.clear rfl rfl) fun h => absurd trivial h
  have hrun := run_bind_pure_ok Reply.count (removeAll_run (s.file env texts) s.width)
  have hsize : (s.file env texts).entries.size = texts.size := Std.ExtTreeMap.size_map
  rw [hsize] at hrun
  exact hrun

theorem serves_indexRecord (r : Int64) (fields : List FieldValue) :
    Serves env s texts strategy (.indexRecord r fields) := by
  refine serves_of_run ((s.file env texts).putRecord env (s.engine strategy) s.width r fields)
    (fun h => ?_) (fun _ => ?_) fun h => ?_
  · exact run_bind_pure_ok _ (indexRecord_run env _ _ s.valid h.1 h.2)
  · exact kept_file (file_renders.putRecord (e := s.engine strategy) s.width r fields)
      (Host.keeps_putRecord _ ⟨r, fields⟩)
  · obtain ⟨err, he⟩ := indexRecord_rejected env (s.engine strategy) (s.file env texts) s.valid h
    exact ⟨err, run_bind_pure_err _ he⟩

theorem serves_indexRecordsBatch (records : List RecordIndexItem) :
    Serves env s texts strategy (.indexRecordsBatch records) := by
  refine serves_of_run ((s.file env texts).putRecords env (s.engine strategy) s.width records)
    (fun h => ?_) (fun _ => ?_) fun h => ?_
  · exact run_bind_pure_ok _ (indexRecordsBatch_run env _ _ s.valid h)
  · exact kept_file (file_renders.putRecords (e := s.engine strategy) s.width records)
      (Host.Keeps.foldl Host.keeps_putRecord _ _)
  · obtain ⟨err, he⟩ :=
      indexRecordsBatch_rejected env (s.engine strategy) (s.file env texts) s.valid h
    exact ⟨err, run_bind_pure_err _ he⟩

theorem serves_removeRecord (r : Int64) :
    Serves env s texts strategy (.removeRecord r) := by
  refine serves_of_run ((s.file env texts).clearRange (shlOf s.width r) (hiOf s.width r))
    (fun h => ?_) (fun _ => ?_) fun h => ?_
  · exact run_bind_pure_ok _ (removeRecord_run _ s.valid h)
  · exact eq_file (file_renders.clearRange _ _) rfl rfl
  · obtain ⟨err, he⟩ := removeRecord_rejected (s.file env texts) s.valid h
    exact ⟨err, run_bind_pure_err _ he⟩

/-- The rows are already those of the option set, so `reindex` writes what is there. -/
theorem serves_reindex : Serves env s texts strategy .reindex := by
  refine serves_of_run ((s.file env texts).reindexed env (s.engine strategy)) (fun _ => ?_)
    (fun _ => ?_) fun h => absurd trivial h
  · have hrun := run_bind_pure_ok Reply.count
      (reindex_run env (s.engine strategy) (s.file env texts) s.width)
    rw [raws_length] at hrun
    exact hrun
  · have hfile : Host.EngineOk env (s.file env texts) (s.engine strategy) s.width := engineOk_file
    have hok := hfile.reindexed
    apply eq_file (file_renders.reindexed (e := s.engine strategy)) hok.schema
    have hk : Host.Keeps (s.file env texts)
        (((s.file env texts).raws env).foldl (Db.renew env (s.engine strategy))
          (s.file env texts)) :=
      Host.Keeps.foldl Host.keeps_renew _ _
    rw [Db.reindexed, Db.stamped, hk.metaTable]
    rfl

theorem serves_changeFieldBits (new : UInt8) :
    Serves env s texts strategy (.changeFieldBits new) := by
  by_cases hv : ValidBits new
  · have hnext : s.next (.changeFieldBits new) = { s with width := new, valid := hv } := dif_pos hv
    by_cases hsame : new = s.width
    · refine serves_of_run (s.file env texts) (fun _ => ?_) (fun _ => ?_) fun h => ?_
      · subst hsame
        have hrun := run_bind_pure_ok Reply.count
          (changeFieldBits_same env (s.file env texts) s.valid)
        rw [hnext, reply, if_pos rfl]
        exact hrun
      · rw [hnext, Call.keeps, if_pos hsame]
        subst hsame
        rfl
      · exact absurd ⟨hv, .inl hsame⟩ h
    · refine serves_of_run ((s.file env texts).repacked env s.width new) (fun h => ?_)
        (fun h => ?_) fun h => ?_
      · have hfits := rows_fits env s texts s.width new
        have hrun := run_bind_pure_ok Reply.count (changeFieldBits_run env (s.file env texts)
          s.valid hv hsame (hfits.mpr (h.2.resolve_left hsame)))
        rw [rows_length] at hrun
        rw [hnext, reply, if_neg hsame]
        exact hrun
      · have hfits := rows_fits env s texts s.width new
        rw [hnext, Call.keeps, if_neg hsame]
        exact eq_file (file_renders.repacked s.valid hv
          (hfits.mpr (h.2.resolve_left hsame))) rfl rfl
      · have hbad : ¬ ∀ row ∈ (s.file env texts).rows env, Repackable s.width new row.1 := by
          rw [rows_fits]
          exact fun hf => h ⟨hv, .inr hf⟩
        obtain ⟨err, he⟩ :=
          changeFieldBits_rejected env (s.file env texts) s.valid hv hsame hbad
        exact ⟨err, run_bind_pure_err _ he⟩
  · refine serves_of_run (s.file env texts) (fun h => absurd h.1 hv)
      (fun h => absurd h.1 hv) fun h => ?_
    obtain ⟨err, he⟩ := changeFieldBits_invalid env (s.file env texts) hv
    exact ⟨err, run_bind_pure_err _ he⟩

/-! ### Reads -/

/-- A call that only reads leaves the file and the width. -/
theorem read_leaves {c : Call} (hc : ¬ c.Mutating) :
    ((c.prog env (s.engine strategy)).run (quiet (s.file env texts) none s.width false)).2 =
      quiet (s.file env texts) none s.width false := by
  obtain ⟨hdb, hcell⟩ := reads_run (reads_call env (s.engine strategy) hc)
    (quiet (s.file env texts) none s.width false) rfl
  obtain ⟨hpanic, _⟩ := returns_run (noTrap_call env (s.engine strategy) (V := ValidBits)
    (fun _ hb => hb.2) (fun _ hb => hb) c) (quiet (s.file env texts) none s.width false) s.valid
  obtain ⟨db, bits, hrun⟩ := run_quiet hpanic
  rw [hrun] at hdb hcell ⊢
  obtain rfl : db = s.file env texts := hdb
  obtain rfl : bits = s.width := hcell
  rfl

theorem read_keeps (env : Env) (s : Stamp) (texts : Catalog) (strategy : SearchStrategy)
    {c : Call} (hc : ¬ c.Mutating) :
    s.next c = s ∧ c.keeps env (s.engine strategy) s.width texts = texts := by
  cases c with
  | index _ _ => exact absurd trivial hc
  | remove _ => exact absurd trivial hc
  | indexBatch _ => exact absurd trivial hc
  | removeBatch _ => exact absurd trivial hc
  | removeAll => exact absurd trivial hc
  | indexRecord _ _ => exact absurd trivial hc
  | indexRecordsBatch _ => exact absurd trivial hc
  | removeRecord _ => exact absurd trivial hc
  | reindex => exact absurd trivial hc
  | changeFieldBits _ => exact absurd trivial hc
  | _ => exact ⟨rfl, rfl⟩

theorem serves_read {c : Call} (hc : ¬ c.Mutating)
    (hans : s.Accepts texts c → ¬ c.Searches →
      ((c.prog env (s.engine strategy)).run (quiet (s.file env texts) none s.width false)).1 =
        .ok (s.reply env texts c))
    (hrej : ¬ s.Accepts texts c → ∃ err,
      ((c.prog env (s.engine strategy)).run (quiet (s.file env texts) none s.width false)).1 =
        .err err) :
    Serves env s texts strategy c where
  leaves _ := by
    obtain ⟨hnext, hkeeps⟩ := read_keeps env s texts strategy hc
    rw [hnext, hkeeps]
    exact read_leaves hc
  answers := hans
  rejects h := by
    obtain ⟨err, he⟩ := hrej h
    exact ⟨err, Prod.ext he (read_leaves hc)⟩

/-- The answer of a call is that of its program, wrapped. -/
theorem reply_of_run {α : Type} {p : EngineM α} {w : EngineWorld} {a : α} (g : α → Reply)
    (h : (p.run w).1 = .ok a) : ((p >>= fun a => pure (g a)).run w).1 = .ok (g a) :=
  congrArg Prod.fst (run_bind_pure_ok (v := (p.run w).2) g (Prod.ext h rfl))

theorem serves_contains (id : Int64) : Serves env s texts strategy (.contains id) := by
  refine serves_read not_false (fun _ _ => reply_of_run Reply.flag ?_) fun h => absurd trivial h
  have hrun : (contains id).run (quiet (s.file env texts) none s.width false) =
      (.ok ((s.file env texts).entries.contains id),
        quiet (s.file env texts) none s.width false) := rfl
  rw [hrun]
  have hmap : (s.file env texts).entries.contains id = texts.contains id :=
    Std.ExtTreeMap.contains_map
  rw [hmap]

theorem serves_documentCount : Serves env s texts strategy .documentCount := by
  refine serves_read not_false (fun _ _ => reply_of_run Reply.count ?_) fun h => absurd trivial h
  have hrun : documentCount.run (quiet (s.file env texts) none s.width false) =
      (.ok (s.file env texts).entries.size, quiet (s.file env texts) none s.width false) := rfl
  have hsize : (s.file env texts).entries.size = texts.size := Std.ExtTreeMap.size_map
  rw [hrun, hsize]

theorem serves_containsRecord (r : Int64) :
    Serves env s texts strategy (.containsRecord r) := by
  refine serves_read not_false (fun h _ => reply_of_run Reply.flag ?_) fun h => ?_
  · have hkeys : (s.file env texts).entries.keys = texts.keys := Std.ExtTreeMap.keys_map
    have hrun := containsRecord_run (s.file env texts) s.valid h
    rw [hkeys] at hrun
    exact hrun
  · have hr : ¬ RecordOk s.width r := h
    refine ⟨.db s!"record_id {r} out of range for field_bits {s.width}", ?_⟩
    rw [Call.prog, map_eq_bind]
    simp only [containsRecord, Prog.run, eval_bind, eval_checkRecordId_quiet _ _ _ s.valid,
      if_neg hr, andThen_err]

/-- What `highlight` answers for a row. -/
theorem marked_file (query : Text) (id : Int64) (before after : Text) :
    (if ((s.engine strategy).normalizer env query).isEmpty then .ok none
      else marked env (s.engine strategy) ((s.engine strategy).normalizer env query) before after
        (s.file env texts).entries[id]? : Outcome SearchError (Option Text)) =
      .ok (s.markAt env texts query id before after) := by
  unfold markAt
  change (if (normalize env.unicode s.options query).isEmpty then _ else _) = _
  split
  · rfl
  · rw [file_renders.entries_lookup]
    cases texts[id]? with
    | none => rfl
    | some text =>
      obtain ⟨out, hout⟩ := Highlight.highlightRaw_some text (normalize env.unicode s.options text)
        (normalize env.unicode s.options query) before after (normalize env.unicode s.options)
      have hout' : Highlight.highlightRaw text (normalize env.unicode s.options text)
          ((s.engine strategy).normalizer env query) before after
          ((s.engine strategy).normalizer env) = some out := hout
      simp only [Option.map_some, Option.bind_some, marked, renderEntry, mark]
      rw [hout, hout']

theorem serves_highlight (query : Text) (id : Int64) (before after : Text) :
    Serves env s texts strategy (.highlight query id before after) := by
  refine serves_read not_false (fun _ _ => reply_of_run Reply.text ?_) fun h => absurd trivial h
  rw [highlight_run, marked_file]

theorem serves_highlightRecord (query : Text) (r : Int64) (slot : UInt8) (before after : Text) :
    Serves env s texts strategy (.highlightRecord query r slot before after) := by
  refine serves_read not_false (fun h _ => reply_of_run Reply.text ?_) fun h => ?_
  · rw [highlightRecord_run env (s.engine strategy) _ s.valid query h.1 h.2, marked_file]
  · rw [Call.prog, map_eq_bind]
    by_cases hr : RecordOk s.width r
    · have hs : Checked.ofU8 slot ≥ shlOf s.width 1 := by
        rw [ofU8_lt_cap s.valid]
        exact fun hslot => h ⟨hr, hslot⟩
      refine ⟨.db s!"slot {slot} does not fit in field_bits {s.width}", ?_⟩
      simp only [highlightRecord, Prog.run, eval_bind, eval_checkRecordId_quiet _ _ _ s.valid,
        if_pos hr, andThen_ok, shl_some s.valid, eval_trap_some, if_pos hs, eval_throw,
        andThen_err]
    · refine ⟨.db s!"record_id {r} out of range for field_bits {s.width}", ?_⟩
      simp only [highlightRecord, Prog.run, eval_bind, eval_checkRecordId_quiet _ _ _ s.valid,
        if_neg hr, andThen_err]

theorem serves_search {c : Call} (hc : c.Searches) : Serves env s texts strategy c := by
  have hacc : s.Accepts texts c := by
    cases c <;> trivial
  have hread : ¬ c.Mutating := by
    cases c <;> first | exact not_false | exact hc.elim
  exact serves_read hread (fun _ h => absurd hc h) fun h => absurd hacc h

theorem serves (env : Env) (s : Stamp) (texts : Catalog) (strategy : SearchStrategy) (c : Call) :
    Serves env s texts strategy c := by
  cases c with
  | index id text => exact serves_index id text
  | remove id => exact serves_remove id
  | indexBatch items => exact serves_indexBatch items
  | removeBatch ids => exact serves_removeBatch ids
  | removeAll => exact serves_removeAll
  | indexRecord r fields => exact serves_indexRecord r fields
  | indexRecordsBatch records => exact serves_indexRecordsBatch records
  | removeRecord r => exact serves_removeRecord r
  | reindex => exact serves_reindex
  | changeFieldBits new => exact serves_changeFieldBits new
  | contains id => exact serves_contains id
  | documentCount => exact serves_documentCount
  | containsRecord r => exact serves_containsRecord r
  | highlight query id before after => exact serves_highlight query id before after
  | highlightRecord query r slot before after =>
    exact serves_highlightRecord query r slot before after
  | _ => exact serves_search trivial

end Stamp

/-! ### Opens -/

namespace Stamp

variable {env : Env} {s : Stamp} {texts : Catalog} {db : Db} {r : OpenRequest}

theorem constructor_request (env : Env) (c : Constructor) :
    c.prog env = openEngine env c.request.options c.request.strategy c.request.fieldBits
      c.request.rebuild := by
  cases c <;> rfl

/-- The file a rejected first open leaves. -/
def createdFile : Db where
  columns := some { normRev := true, raw := true }
  metaTable := { indexVersion := some ['1'] }

theorem opened_fresh : Db.fresh.opened env = createdFile :=
  Host.opened_of_created rfl

theorem opened_created : createdFile.opened env = createdFile :=
  Host.opened_of_created rfl

theorem opened_file : (s.file env texts).opened env = s.file env texts :=
  Host.opened_of_created rfl

/-- The width of a file without rows is the one asked for. -/
theorem effectiveBits_asked (n : UInt8) :
    effectiveBits (some n) none = (checkFieldBits n).map fun _ => n := by
  simp only [effectiveBits]
  cases checkFieldBits n <;> rfl

theorem checkFieldBits_error {n : UInt8} (h : ¬ ValidBits n) :
    ∃ err, checkFieldBits n = .error err := by
  cases hc : checkFieldBits n with
  | ok u => exact absurd (validBits_of_check hc) h
  | error err => exact ⟨err, rfl⟩

/-- An open of a file without rows. -/
theorem open_empty {db' : Db} (hopened : db.opened env = db') (hd : db'.docs = ∅)
    (he : db'.entries = ∅) (hc : db'.columns = some { normRev := true, raw := true })
    (hv : db'.metaTable.indexVersion = some ['1']) :
    match initial r with
    | some s =>
      (openEngine env r.options r.strategy r.fieldBits r.rebuild).run (quiet db none 0 false) =
        (.ok (s.engine r.strategy), quiet (s.file env ∅) none s.width false)
    | none => ∃ err,
      (openEngine env r.options r.strategy r.fieldBits r.rebuild).run (quiet db none 0 false) =
        (.err err, quiet db' none 0 false) := by
  have hsize : db'.entries.size = 0 := by
    rw [he]
    rfl
  have hbits : (db.opened env).storedFieldBits = none := by
    rw [hopened, Db.storedFieldBits, if_pos hsize]
  have hprofile : (db.opened env).storedProfile = none := by
    rw [hopened, Db.storedProfile, if_pos hsize]
  have hadopt : ∀ n (hn : ValidBits n),
      (db.opened env).adopted env { options := r.options, strategy := r.strategy } n =
        (⟨r.options, n, hn⟩ : Stamp).file env ∅ := by
    intro n hn
    rw [Db.adopted, hprofile, Option.any_none, if_neg (by simp), hopened]
    apply eq_file
    · exact Renders.empty hd he
    · exact hc
    · simp only [Db.stamped, Db.stampedBits, file, hv]
  have hok : ∀ n, effectiveBits r.fieldBits none = .ok n →
      (openEngine env r.options r.strategy r.fieldBits r.rebuild).run (quiet db none 0 false) =
        (.ok { options := r.options, strategy := r.strategy },
          quiet ((db.opened env).adopted env
            { options := r.options, strategy := r.strategy } n) none n false) := by
    intro n hn
    apply openEngine_run env db 0 r.options r.strategy r.fieldBits r.rebuild
    · rw [hbits, hn]
    · rw [hprofile, Option.any_none]
      exact .inr rfl
  rw [initial]
  cases hf : r.fieldBits with
  | none =>
    have hn : effectiveBits r.fieldBits none = .ok DEFAULT_FIELD_BITS := by
      rw [hf]
      rfl
    have hrun := hok _ hn
    rw [hadopt _ validBits_default, hf] at hrun
    exact hrun
  | some n =>
    by_cases hn : ValidBits n
    · have heff : effectiveBits r.fieldBits none = .ok n := by
        rw [hf, effectiveBits_asked, checkFieldBits_ok hn]
        rfl
      have hrun := hok _ heff
      rw [hadopt _ hn, hf] at hrun
      simp only [dif_pos hn]
      exact hrun
    · obtain ⟨err, herr⟩ := checkFieldBits_error hn
      have heff : effectiveBits (some n) (db.opened env).storedFieldBits = .error err := by
        rw [hbits, effectiveBits_asked, herr]
        rfl
      have hrun := openEngine_bits_rejected env db 0 r.options r.strategy (some n) r.rebuild heff
      rw [hopened] at hrun
      simp only [dif_neg hn]
      exact ⟨err, hrun⟩

/-- An open that is accepted stamps the file, whether or not it renews the rows. -/
theorem adopted_meta (env : Env) (db : Db) (e : SearchEngine) (bits : UInt8) :
    (db.adopted env e bits).columns = db.columns ∧
      (db.adopted env e bits).metaTable =
        { db.metaTable with
          normalizeProfile := some e.options.fingerprint, fieldBits := some (bitsText bits) } := by
  unfold Db.adopted
  split
  · have hk : Host.Keeps (db.stampedBits bits)
        (((db.stampedBits bits).raws env).foldl (Db.renew env e) (db.stampedBits bits)) :=
      Host.Keeps.foldl Host.keeps_renew _ _
    refine ⟨hk.columns, ?_⟩
    rw [Db.reindexed, Db.stamped, hk.metaTable]
    rfl
  · exact ⟨rfl, rfl⟩

/-- An open of a file with rows. -/
theorem open_rows (hne : texts.size ≠ 0) :
    match s.grant texts r with
    | some s' =>
      (openEngine env r.options r.strategy r.fieldBits r.rebuild).run
          (quiet (s.file env texts) none 0 false) =
        (.ok (s'.engine r.strategy), quiet (s'.file env texts) none s'.width false)
    | none => ∃ err,
      (openEngine env r.options r.strategy r.fieldBits r.rebuild).run
          (quiet (s.file env texts) none 0 false) =
        (.err err, quiet (s.file env texts) none 0 false) := by
  have hsize : ¬ (s.file env texts).entries.size = 0 := by
    intro h
    exact hne (Std.ExtTreeMap.size_map.symm.trans h)
  have hbits : ((s.file env texts).opened env).storedFieldBits = some s.width := by
    rw [opened_file, Db.storedFieldBits, if_neg hsize]
    change some ((some (bitsText s.width)).bind parseU8 |>.getD DEFAULT_FIELD_BITS) = _
    rw [Option.bind_some, Host.parseU8_bitsText, Option.getD_some]
  have hprofile : ((s.file env texts).opened env).storedProfile = some s.options.fingerprint := by
    rw [opened_file, Db.storedProfile, if_neg hsize]
    rfl
  have hsame : s.options.fingerprint = r.options.fingerprint ↔ r.options = s.options := by
    constructor
    · exact fun h => (NormalizeOptions.fingerprint_injective h).symm
    · exact fun h => by rw [h]
  rw [grant, if_neg hne]
  by_cases hwidth : r.fieldBits.getD s.width = s.width
  · have heff : effectiveBits r.fieldBits ((s.file env texts).opened env).storedFieldBits =
        .ok s.width := by
      rw [hbits]
      cases hf : r.fieldBits with
      | none => rfl
      | some n =>
        rw [hf, Option.getD_some] at hwidth
        rw [hwidth]
        simp only [effectiveBits, checkFieldBits_ok s.valid, Bind.bind, Except.bind, ne_eq,
          not_true_eq_false, if_false]
    by_cases hgo : r.rebuild = true ∨ r.options = s.options
    · rw [if_pos ⟨hwidth, hgo⟩]
      have hrun := openEngine_run env (s.file env texts) 0 r.options r.strategy r.fieldBits
        r.rebuild heff (hgo.imp id fun hopts => by
          rw [hprofile, Option.any_some, hsame.mpr hopts]
          simp)
      have hfile : ((s.file env texts).opened env).adopted env
          { options := r.options, strategy := r.strategy } s.width =
            ({ s with options := r.options } : Stamp).file env texts := by
        rw [opened_file]
        obtain ⟨hc, hm⟩ := adopted_meta env (s.file env texts)
          { options := r.options, strategy := r.strategy } s.width
        apply eq_file
        · exact file_renders.adopted (e := { options := r.options, strategy := r.strategy })
            (fun _ => rfl) s.width
        · exact hc
        · exact hm
      rw [hfile] at hrun
      exact hrun
    · rw [if_neg fun h => hgo h.2]
      have hnot : r.rebuild = false := by
        cases hr : r.rebuild with
        | false => rfl
        | true => exact absurd (.inl hr) hgo
      have hrun := openEngine_profile_rejected env (s.file env texts) 0 r.options r.strategy
        r.fieldBits heff hprofile fun hopts => hgo (.inr (hsame.mp hopts))
      rw [opened_file] at hrun
      rw [hnot]
      exact ⟨_, hrun⟩
  · rw [if_neg fun h => hwidth h.1]
    obtain ⟨err, herr⟩ : ∃ err, effectiveBits r.fieldBits
        ((s.file env texts).opened env).storedFieldBits = .error err := by
      rw [hbits]
      cases hf : r.fieldBits with
      | none =>
        rw [hf] at hwidth
        exact absurd rfl hwidth
      | some n =>
        rw [hf, Option.getD_some] at hwidth
        simp only [effectiveBits]
        cases hc : checkFieldBits n with
        | error err => exact ⟨err, rfl⟩
        | ok u =>
          simp only [Bind.bind, Except.bind, ne_eq, Ne.symm hwidth, not_false_eq_true, if_true]
          exact ⟨_, rfl⟩
    have hrun := openEngine_bits_rejected env (s.file env texts) 0 r.options r.strategy
      r.fieldBits r.rebuild herr
    rw [opened_file] at hrun
    exact ⟨err, hrun⟩

end Stamp

/-! ### The refinement -/

namespace Index

variable {env : Env}

theorem host_call (i : Index) (c : Call) :
    (i.host env).step env (.call c) = (i.call env c).host env := by
  cases i with
  | fresh => rfl
  | rejected => rfl
  | closed s texts => rfl
  | opened s strategy texts =>
    have hserves := Stamp.serves env s texts strategy c
    have hworld : Host.world (s.file env texts)
        { engine := s.engine strategy, fieldBits := s.width } =
          quiet (s.file env texts) none s.width false := rfl
    simp only [host, Host.step, hworld, call]
    by_cases hacc : s.Accepts texts c
    · rw [hserves.leaves hacc, if_pos hacc]
      cases c with
      | changeFieldBits new =>
        simp only [Stamp.next, dif_pos hacc.1]
        rfl
      | _ => rfl
    · obtain ⟨err, hrun⟩ := hserves.rejects hacc
      rw [hrun, if_neg hacc]
      rfl

/-- An open, given what it makes of the file. -/
theorem host_open {db db' : Db} {c : Constructor} {texts : Catalog} {admitted : Option Stamp}
    (refused : Index) (hrefused : refused.host env = { file := db' })
    (hrun : match admitted with
      | some s =>
        (openEngine env c.request.options c.request.strategy c.request.fieldBits
          c.request.rebuild).run (quiet db none 0 false) =
          (.ok (s.engine c.request.strategy), quiet (s.file env texts) none s.width false)
      | none => ∃ err,
        (openEngine env c.request.options c.request.strategy c.request.fieldBits
          c.request.rebuild).run (quiet db none 0 false) = (.err err, quiet db' none 0 false)) :
    Host.step env { file := db } (.reopen c) =
      (match admitted with
        | some s => Index.opened s c.request.strategy texts
        | none => refused).host env := by
  rw [← Stamp.constructor_request] at hrun
  have hworld : Host.openWorld db = quiet db none 0 false := rfl
  cases admitted with
  | some s =>
    simp only at hrun
    simp only [Host.step, hworld, hrun]
    rfl
  | none =>
    obtain ⟨err, he⟩ := hrun
    simp only [Host.step, hworld, he, hrefused]
    rfl

theorem host_reopen_stamped (s : Stamp) (texts : Catalog) (c : Constructor) :
    Host.step env { file := s.file env texts } (.reopen c) =
      ((Index.closed s texts).reopen c.request).host env := by
  by_cases hsize : texts.size = 0
  · have htexts : texts = ∅ := Std.ExtTreeMap.eq_empty_iff_size_eq_zero.mpr hsize
    have hgrant : s.grant texts c.request = Stamp.initial c.request := if_pos hsize
    have hfile : (s.file env texts).opened env = s.file env texts := Stamp.opened_file
    have hrun := Stamp.open_empty (r := c.request) hfile
      (by rw [htexts]; exact Table.map_empty _) (by rw [htexts]; exact Table.map_empty _) rfl rfl
    rw [reopen, hgrant]
    rw [← htexts] at hrun
    exact host_open (.closed s texts) rfl hrun
  · exact host_open (.closed s texts) rfl (Stamp.open_rows hsize)

theorem host_reopen (i : Index) (c : Constructor) :
    (i.host env).step env (.reopen c) = (i.reopen c.request).host env := by
  cases i with
  | fresh =>
    have hopened : Db.fresh.opened env = Stamp.createdFile := Stamp.opened_fresh
    have hrun := Stamp.open_empty (r := c.request) hopened rfl rfl rfl rfl
    exact host_open .rejected rfl hrun
  | rejected =>
    have hopened : Stamp.createdFile.opened env = Stamp.createdFile := Stamp.opened_created
    have hrun := Stamp.open_empty (r := c.request) hopened rfl rfl rfl rfl
    exact host_open .rejected rfl hrun
  | closed s texts => exact host_reopen_stamped s texts c
  | opened s strategy texts => exact host_reopen_stamped s texts c

theorem host_step (i : Index) (a : Action) :
    (i.host env).step env a = (i.step env a).host env := by
  cases a with
  | call c => exact host_call i c
  | reopen c => exact host_reopen i c
  | close => cases i <;> rfl

/-- An open engine is one of an open index. -/
theorem host_opened {i : Index} {o : OpenEngine} (ho : (i.host env).opened = some o) :
    ∃ s strategy texts, i = .opened s strategy texts ∧
      o = { engine := s.engine strategy, fieldBits := s.width } := by
  cases i with
  | fresh => cases ho
  | rejected => cases ho
  | closed s texts => cases ho
  | opened s strategy texts => exact ⟨s, strategy, texts, rfl, (Option.some_inj.mp ho).symm⟩

theorem host_run (actions : List Action) (i : Index) :
    (i.host env).run env actions = (i.run env actions).host env := by
  induction actions generalizing i with
  | nil => rfl
  | cons a actions ih =>
    change ((i.host env).step env a).run env actions = _
    rw [host_step]
    exact ih (i.step env a)

/-- An engine that a run on a fresh file leaves open is the one of the abstract run's index. -/
theorem open_run {actions : List Action} {o : OpenEngine}
    (ho : (Host.run env {} actions).opened = some o) :
    ∃ s strategy texts, Index.run env .fresh actions = .opened s strategy texts ∧
      Host.run env {} actions = (Index.opened s strategy texts).host env ∧
      o = { engine := s.engine strategy, fieldBits := s.width } := by
  have hhost : Host.run env {} actions = (Index.run env .fresh actions).host env :=
    host_run actions .fresh
  rw [hhost] at ho
  obtain ⟨s, strategy, texts, hi, heq⟩ := host_opened ho
  rw [hi] at hhost
  exact ⟨s, strategy, texts, hi, hhost, heq⟩

end Index

/-- Every run on a fresh file is a run of the abstract machine: the host's file and engine
are those of the index, after every step. -/
theorem index_refines (env : Env) (actions : List Action) :
    Host.run env {} actions = (Index.run env .fresh actions).host env :=
  Index.host_run actions .fresh

/-- An answer, and what the abstract machine says of the call: the reply, or that it is
rejected. -/
inductive Agrees : Outcome SearchError Reply → Option Reply → Prop where
  | ok (r : Reply) : Agrees (.ok r) (some r)
  | err (e : SearchError) : Agrees (.err e) none

/-- The reply of the index to a call that does not search, when it accepts it. -/
def Index.serve (env : Env) : Index → Call → Option Reply
  | .opened s _ texts, c => if s.Accepts texts c then some (s.reply env texts c) else none
  | _, _ => none

/-- After every run an open engine answers as the abstract machine does, and rejects the calls
that it rejects. -/
theorem index_answers (env : Env) (actions : List Action) {o : OpenEngine}
    (ho : (Host.run env {} actions).opened = some o) {c : Call} (hc : ¬ c.Searches) :
    Agrees ((c.prog env o.engine).run (Host.world (Host.run env {} actions).file o)).1
      ((Index.run env .fresh actions).serve env c) := by
  obtain ⟨s, strategy, texts, hi, hhost, rfl⟩ := Index.open_run ho
  rw [hi, hhost]
  have hserves := Stamp.serves env s texts strategy c
  have hworld : Host.world (s.file env texts)
      { engine := s.engine strategy, fieldBits := s.width } =
        quiet (s.file env texts) none s.width false := rfl
  simp only [Index.serve, Index.host, hworld]
  by_cases hacc : s.Accepts texts c
  · rw [if_pos hacc, hserves.answers hacc hc]
    exact .ok _
  · obtain ⟨err, hrun⟩ := hserves.rejects hacc
    rw [if_neg hacc, hrun]
    exact .err err

def storedActions : List Action :=
  [.reopen plainOptions, .call (.indexRecord 1 [{ slot := 2, text := ['a'] }]),
    .call (.changeFieldBits 4), .close, .reopen plainOptions]

/-- The record is found under the width the file was left with. -/
theorem index_answers_stored :
    Agrees (((Call.containsRecord 1).prog .ascii plainEngine).run
      (Host.world (Host.run .ascii {} storedActions).file
        { engine := plainEngine, fieldBits := 4 })).1 (some (.flag true)) := by
  have hopened : (Host.run .ascii {} storedActions).opened =
      some { engine := plainEngine, fieldBits := 4 } := by decide +kernel
  have hanswers := index_answers .ascii storedActions hopened (c := .containsRecord 1) not_false
  have hserve : (Index.run .ascii .fresh storedActions).serve .ascii (.containsRecord 1) =
      some (.flag true) := by decide +kernel
  rwa [hserve] at hanswers

end Unfydqry
