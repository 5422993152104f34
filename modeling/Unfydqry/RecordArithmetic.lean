import Unfydqry.Engine.OpenEffect
import Unfydqry.IndexInvariant
import Unfydqry.Lib.Traps
import Unfydqry.MarkedText

/-! # The record arithmetic of an index that opens

No shift, mask or subtraction of the record layer traps while `field_bits` is at most 62.
Every route to the width checks it, except the one that adopts the width stored in the
file. -/

namespace Unfydqry

open LockedStore Prog

namespace SearchEngine

/-- A program of which only the traps matter. -/
abbrev NoTrap {α : Type} (V : UInt8 → Prop) (p : EngineM α) : Prop := p.Returns V fun _ => True

section NoTrap

variable (env : Env) (e : SearchEngine) {V : UInt8 → Prop}

/-! ### Searches and documents -/

theorem noTrap_lockedConn : NoTrap V lockedConn := returns_acquire _

theorem returns_orThrow {α : Type} (x : Except SearchError α) :
    (orThrow x).Returns V fun a => x = .ok a := by
  cases x with
  | ok a => exact returns_pure rfl
  | error err => exact returns_throw err

theorem noTrap_selectHits (sq : Sqlite) (limit offset : UInt32)
    (f : Db → Stepped Hit) :
    NoTrap V (Search.selectHits sq limit offset f) := returns_stmt _

theorem noTrap_prepared (sq : Sqlite) (n : ℕ) {α : Type} {p : EngineM α} (hp : NoTrap V p) :
    NoTrap V (Search.AllTerms.prepared sq n p) := by
  unfold Search.AllTerms.prepared
  split
  · exact returns_throw _
  · exact hp

theorem noTrap_fuzzyTrigram (sq : Sqlite) (q : Text) (limit : UInt32) :
    NoTrap V (Search.FuzzyTrigram.search sq q limit) := by
  unfold Search.FuzzyTrigram.search
  split
  · exact returns_pure trivial
  · split
    · exact returns_stmt _
    · unfold Search.FuzzyTrigram.searchLong
      split
      · exact returns_throw _
      · exact returns_stmt _

theorem noTrap_search (sq : Sqlite) (st : SearchStrategy) (q : Text) (limit : UInt32) :
    NoTrap V ((Search.buildStrategy sq st).search q limit) := by
  cases st with
  | trigramBm25 => exact noTrap_selectHits sq limit 0 _
  | substring => exact noTrap_selectHits sq limit 0 _
  | prefixMatch => exact noTrap_selectHits sq limit 0 _
  | suffixMatch => exact noTrap_selectHits sq limit 0 _
  | allTerms =>
    change NoTrap V (if _ then _ else _)
    split
    · exact returns_pure trivial
    · exact noTrap_prepared sq _ (noTrap_selectHits sq limit 0 _)
  | fuzzyTrigram => exact noTrap_fuzzyTrigram sq q limit
  | levenshtein => exact returns_stmt _
  | damerauLevenshtein => exact returns_stmt _

theorem noTrap_highlight (query : Text) (id : Int64) (before after : Text) :
    NoTrap V (highlight env e query id before after) := by
  unfold highlight
  dsimp only
  split
  · exact returns_pure trivial
  · refine returns_bind noTrap_lockedConn fun _ _ => returns_bind (returns_stmt _) fun row _ =>
      returns_bind returns_release fun _ _ => ?_
    split
    · exact returns_pure trivial
    · rename_i norm raw
      obtain ⟨out, hout⟩ := Highlight.highlightRaw_some raw norm (e.normalizer env query) before
        after (e.normalizer env)
      exact returns_map (returns_trap hout trivial) _
    · rename_i norm
      obtain ⟨_, _, _, hmarks, _⟩ := Highlight.highlightOccurrences_marks norm
        (e.normalizer env query) before after
      exact returns_map (returns_trap hmarks.marked trivial) _

theorem noTrap_defaultSearchPaged {search : Text → UInt32 → EngineM (List Hit)}
    (hs : ∀ q limit, NoTrap V (search q limit)) (q : Text) (limit offset : UInt32) :
    NoTrap V (Search.defaultSearchPaged search q limit offset) := by
  unfold Search.defaultSearchPaged
  split
  · exact returns_pure trivial
  · split
    · exact returns_throw _
    · exact returns_bind (hs q _) fun _ _ => returns_pure trivial

theorem noTrap_searchPaged (sq : Sqlite) (st : SearchStrategy) (q : Text)
    (limit offset : UInt32) :
    NoTrap V ((Search.buildStrategy sq st).searchPaged q limit offset) := by
  cases st with
  | trigramBm25 => exact noTrap_selectHits sq limit offset _
  | substring => exact noTrap_selectHits sq limit offset _
  | prefixMatch => exact noTrap_selectHits sq limit offset _
  | suffixMatch => exact noTrap_selectHits sq limit offset _
  | allTerms =>
    change NoTrap V (if _ then _ else _)
    split
    · exact returns_pure trivial
    · exact noTrap_prepared sq _ (noTrap_selectHits sq limit offset _)
  | fuzzyTrigram => exact noTrap_defaultSearchPaged (noTrap_search sq .fuzzyTrigram) q limit offset
  | levenshtein => exact noTrap_defaultSearchPaged (noTrap_search sq .levenshtein) q limit offset
  | damerauLevenshtein =>
    exact noTrap_defaultSearchPaged (noTrap_search sq .damerauLevenshtein) q limit offset

theorem noTrap_matchCount (sq : Sqlite) (st : SearchStrategy) (q : Text) :
    NoTrap V ((Search.buildStrategy sq st).matchCount q) := by
  have hdefault : ∀ st, NoTrap V
      (Search.defaultMatchCount (Search.buildStrategy sq st).search q) := fun st =>
    returns_bind (noTrap_search sq st q _) fun _ _ => returns_pure trivial
  have hite : ∀ (b : Bool) (f g : Db → Except SearchError ℕ),
      NoTrap V (if b then Prog.stmt (Sql.tryQuery f) else Prog.stmt (Sql.tryQuery g)) := by
    intro b f g
    cases b
    · exact returns_stmt _
    · exact returns_stmt _
  cases st with
  | trigramBm25 => exact hite _ _ _
  | substring => exact hite _ _ _
  | prefixMatch => exact returns_stmt _
  | suffixMatch => exact returns_stmt _
  | allTerms =>
    change NoTrap V (if _ then _ else _)
    split
    · exact returns_pure trivial
    · exact noTrap_prepared sq _ (returns_stmt _)
  | fuzzyTrigram => exact hdefault .fuzzyTrigram
  | levenshtein => exact hdefault .levenshtein
  | damerauLevenshtein => exact hdefault .damerauLevenshtein

theorem noTrap_putDocument (id : Int64) (text : Text) : NoTrap V (putDocument env e id text) :=
  returns_bind (returns_stmt _) fun _ _ => returns_bind (returns_stmt _) fun _ _ => returns_stmt _

theorem noTrap_dropDocument (id : Int64) : NoTrap V (dropDocument id) :=
  returns_bind (returns_stmt _) fun _ _ => returns_stmt _

/-- A batch: the mutex, one transaction with a loop in it, and an answer. -/
theorem noTrap_batch {α β : Type} {f : α → EngineM Unit} (hf : ∀ a, NoTrap V (f a)) (as : List α)
    (b : β) (empty : β) : NoTrap V (if as.isEmpty then pure empty else do
      lockedConn
      Prog.startTx
      Prog.each f as
      Prog.commitTx
      pure b) := by
  split
  · exact returns_pure trivial
  · exact returns_bind noTrap_lockedConn fun _ _ => returns_bind returns_startTx fun _ _ =>
      returns_bind (returns_each hf as) fun _ _ => returns_bind returns_commitTx fun _ _ =>
        returns_pure trivial

theorem noTrap_reindex : NoTrap V (reindex env e) := by
  refine returns_bind noTrap_lockedConn fun _ _ => returns_bind (returns_stmt _) fun rows _ =>
    returns_bind returns_startTx fun _ _ => returns_bind (returns_each (fun row => ?_) rows)
      fun _ _ => returns_bind (returns_stmt _) fun _ _ => returns_bind returns_commitTx fun _ _ =>
        returns_pure trivial
  exact returns_bind (returns_stmt _) fun _ _ => returns_bind (returns_stmt _) fun _ _ =>
    returns_stmt _

/-! ### Shifts and masks -/

section Records

variable (hV : ∀ b, V b → b.toNat ≤ 62)

include hV

theorem noTrap_shl {bits : UInt8} (hb : V bits) (x : Int64) :
    NoTrap V (Prog.trap (Checked.shl x bits)) := by
  have hs := (Checked.shl_isSome x bits).mpr (Nat.lt_of_le_of_lt (hV bits hb) (by decide))
  obtain ⟨y, hy⟩ := Option.isSome_iff_exists.mp hs
  exact returns_trap hy trivial

theorem noTrap_shr {bits : UInt8} (hb : V bits) (x : Int64) :
    NoTrap V (Prog.trap (Checked.shr x bits)) := by
  obtain ⟨y, hy, _⟩ := Checked.shr_val x (Nat.lt_of_le_of_lt (hV bits hb) (by decide))
  exact returns_trap hy trivial

theorem noTrap_lowMask {bits : UInt8} (hb : V bits) : NoTrap V (Prog.trap (lowMask bits)) := by
  obtain ⟨one, m, hs, _, hm, _⟩ := Checked.mask_val (hV bits hb)
  refine returns_trap (a := m) ?_ trivial
  rw [lowMask, hs, Option.bind_some, hm]

theorem noTrap_maxRecordId : NoTrap V maxRecordId :=
  returns_bind returns_read fun _ hb => noTrap_shr hV hb _

theorem noTrap_recordIdRange (r : Int64) : NoTrap V (recordIdRange r) :=
  returns_bind returns_read fun _ hb => returns_bind (noTrap_shl hV hb r) fun _ _ =>
    returns_bind returns_read fun _ hb => returns_bind (noTrap_lowMask hV hb) fun _ _ => trivial

/-- The check at the head of a record call returns the width. -/
theorem returns_checkRecordId (r : Int64) : (checkRecordId r).Returns V V := by
  refine returns_bind returns_read fun bits hb =>
    returns_bind (noTrap_maxRecordId hV) fun max _ => ?_
  split
  · exact returns_pure hb
  · exact returns_throw _

theorem noTrap_recordOf (id : Int64) : NoTrap V (recordOf id) :=
  returns_bind returns_read fun _ hb => noTrap_shr hV hb id

theorem noTrap_slotOf (id : Int64) : NoTrap V (slotOf id) :=
  returns_bind returns_read fun _ hb =>
    returns_bind (noTrap_lowMask hV hb) fun _ _ => returns_pure trivial

theorem noTrap_decode (h : Hit) : NoTrap V (decode h) :=
  returns_bind (noTrap_recordOf hV h.id) fun _ _ =>
    returns_bind (noTrap_slotOf hV h.id) fun _ _ => returns_pure trivial

/-! ### The record calls -/

omit hV in
theorem noTrap_clearIdRange (lo hi : Int64) : NoTrap V (clearIdRange lo hi) :=
  returns_bind (returns_stmt _) fun _ _ => returns_stmt _

omit hV in
theorem noTrap_insertField (lo : Int64) (f : FieldValue) : NoTrap V (insertField env e lo f) := by
  unfold insertField
  dsimp only
  split
  · exact returns_pure trivial
  · exact returns_bind (returns_stmt _) fun _ _ => returns_stmt _

theorem noTrap_containsRecord (r : Int64) : NoTrap V (containsRecord r) :=
  returns_bind (returns_checkRecordId hV r) fun _ _ =>
    returns_bind (noTrap_recordIdRange hV r) fun _ _ =>
      returns_bind noTrap_lockedConn fun _ _ => returns_stmt _

theorem noTrap_indexRecord (r : Int64) (fields : List FieldValue) :
    NoTrap V (indexRecord env e r fields) := by
  refine returns_bind (returns_checkRecordId hV r) fun bits hb =>
    returns_bind (noTrap_shl hV hb 1) fun slotCap _ =>
    returns_bind (returns_orThrow _) fun _ _ =>
    returns_bind (noTrap_recordIdRange hV r) fun range _ =>
    returns_bind noTrap_lockedConn fun _ _ => returns_bind returns_startTx fun _ _ =>
    returns_bind (noTrap_clearIdRange _ _) fun _ _ => ?_
  exact returns_bind (returns_each (noTrap_insertField env e _) fields) fun _ _ =>
    returns_commitTx

theorem noTrap_indexRecordsBatch (records : List RecordIndexItem) :
    NoTrap V (indexRecordsBatch env e records) := by
  unfold indexRecordsBatch
  split
  · exact returns_pure trivial
  · refine returns_bind returns_read fun bits hb =>
      returns_bind (noTrap_maxRecordId hV) fun max _ =>
      returns_bind (noTrap_shl hV hb 1) fun slotCap _ =>
      returns_bind (returns_orThrow _) fun _ _ =>
      returns_bind noTrap_lockedConn fun _ _ => returns_bind returns_startTx fun _ _ =>
      returns_bind (returns_each (fun r => ?_) records) fun _ _ =>
      returns_bind returns_commitTx fun _ _ => returns_pure trivial
    exact returns_bind (noTrap_recordIdRange hV r.recordId) fun range _ =>
      returns_bind (noTrap_clearIdRange _ _) fun _ _ =>
        returns_each (noTrap_insertField env e _) r.fields

theorem noTrap_removeRecord (r : Int64) : NoTrap V (removeRecord r) :=
  returns_bind (returns_checkRecordId hV r) fun _ _ =>
    returns_bind (noTrap_recordIdRange hV r) fun _ _ =>
      returns_bind noTrap_lockedConn fun _ _ =>
        returns_bind (noTrap_clearIdRange _ _) fun _ _ => returns_release

theorem noTrap_searchRecords (query : Text) (limit fieldsPerRecord : UInt32) :
    NoTrap V (searchRecords env e query limit fieldsPerRecord) := by
  unfold searchRecords
  dsimp only
  split
  · exact returns_pure trivial
  · exact returns_bind noTrap_lockedConn fun _ _ =>
      returns_bind (noTrap_search env.sqlite e.strategy _ _) fun hits _ =>
      returns_bind returns_release fun _ _ =>
      returns_bind (returns_traverse (noTrap_decode hV) hits) fun _ _ => returns_pure trivial

theorem noTrap_searchRecordsPage (query : Text) (perPage page fieldsPerRecord : UInt32) :
    NoTrap V (searchRecordsPage env e query perPage page fieldsPerRecord) := by
  unfold searchRecordsPage
  split
  · exact returns_throw _
  · split
    · exact returns_throw _
    · exact returns_bind (noTrap_searchRecords env e hV query _ _) fun _ _ => returns_pure trivial

theorem noTrap_matchCountRecords (query : Text) (fieldsPerRecord : UInt32) :
    NoTrap V (matchCountRecords env e query fieldsPerRecord) := by
  unfold matchCountRecords
  dsimp only
  split
  · exact returns_pure trivial
  · refine returns_bind noTrap_lockedConn fun _ _ =>
      returns_bind (noTrap_search env.sqlite e.strategy _ _) fun hits _ =>
      returns_bind returns_release fun _ _ => returns_bind returns_read fun bits hb => ?_
    have hid : ∀ h : Hit, NoTrap V (Prog.trap (Checked.shr h.id bits)) :=
      fun h => noTrap_shr hV hb h.id
    exact returns_bind (returns_traverse hid hits) fun _ _ => trivial

theorem noTrap_highlightRecord (query : Text) (r : Int64) (slot : UInt8) (before after : Text) :
    NoTrap V (highlightRecord env e query r slot before after) := by
  refine returns_bind (returns_checkRecordId hV r) fun bits hb =>
    returns_bind (noTrap_shl hV hb 1) fun slotCap _ => ?_
  split
  · exact returns_throw _
  · exact returns_bind (noTrap_shl hV hb r) fun lo _ => noTrap_highlight env e query _ before after

theorem noTrap_repackRow {old new : UInt8} (ho : V old) (hn : V new)
    (mask maxRecord slotCap : Int64) (row : Int64 × Text × Option Text) :
    NoTrap V (repackRow old new mask maxRecord slotCap row) := by
  have hid : NoTrap V (repackId old new mask maxRecord slotCap row.1) := by
    unfold repackId
    split
    · exact returns_throw _
    · refine returns_bind (noTrap_shr hV ho _) fun record _ => ?_
      dsimp only
      split
      · exact returns_throw _
      · split
        · exact returns_throw _
        · exact returns_bind (noTrap_shl hV hn record) fun _ _ => returns_pure trivial
  exact returns_bind hid fun _ _ => returns_pure trivial

variable (hnew : ∀ b, ValidBits b → V b)

include hnew

theorem noTrap_changeFieldBits (new : UInt8) : NoTrap V (changeFieldBits env new) := by
  refine returns_bind (returns_orThrow _) fun _ hcheck => ?_
  have hn : V new := hnew new (validBits_of_check hcheck)
  refine returns_bind noTrap_lockedConn fun _ _ => returns_bind returns_read fun old ho => ?_
  split
  · exact returns_pure trivial
  · exact returns_bind (noTrap_lowMask hV ho) fun mask _ =>
      returns_bind (noTrap_shr hV hn _) fun maxRecord _ =>
      returns_bind (noTrap_shl hV hn 1) fun slotCap _ =>
      returns_bind (returns_stmt _) fun rows _ =>
      returns_bind (returns_traverse
        (noTrap_repackRow hV ho hn mask maxRecord slotCap) rows) fun rows' _ =>
      returns_bind returns_startTx fun _ _ => returns_bind (returns_stmt _) fun _ _ =>
      returns_bind (returns_stmt _) fun _ _ =>
      returns_bind (returns_each (fun row => returns_bind (returns_stmt _) fun _ _ =>
        returns_stmt _) rows') fun _ _ =>
      returns_bind (returns_stmt _) fun _ _ => returns_bind returns_commitTx fun _ _ =>
      returns_bind (returns_write hn) fun _ _ => returns_pure trivial

/-- No call traps, and only a checked width replaces the width. -/
theorem noTrap_call (c : Call) : NoTrap V (c.prog env e) := by
  cases c with
  | index id text =>
    exact returns_bind (returns_bind noTrap_lockedConn fun _ _ =>
      returns_bind (noTrap_putDocument env e id text) fun _ _ => returns_release) fun _ _ =>
        returns_pure trivial
  | remove id =>
    exact returns_bind (returns_bind noTrap_lockedConn fun _ _ =>
      returns_bind (noTrap_dropDocument id) fun _ _ => returns_release) fun _ _ =>
        returns_pure trivial
  | indexBatch items =>
    have hput : ∀ i : IndexItem, NoTrap V (putDocument env e i.id i.text) :=
      fun i => noTrap_putDocument env e i.id i.text
    exact returns_map (noTrap_batch hput items items.length 0) _
  | removeBatch ids => exact returns_map (noTrap_batch noTrap_dropDocument ids ids.length 0) _
  | removeAll =>
    exact returns_map (returns_bind noTrap_lockedConn fun _ _ =>
      returns_bind (returns_stmt _) fun _ _ => returns_bind returns_startTx fun _ _ =>
      returns_bind (returns_stmt _) fun _ _ => returns_bind (returns_stmt _) fun _ _ =>
      returns_bind returns_commitTx fun _ _ => returns_pure trivial) _
  | indexRecord r fields =>
    exact returns_bind (noTrap_indexRecord env e hV r fields) fun _ _ => returns_pure trivial
  | indexRecordsBatch records => exact returns_map (noTrap_indexRecordsBatch env e hV records) _
  | removeRecord r =>
    exact returns_bind (noTrap_removeRecord hV r) fun _ _ => returns_pure trivial
  | reindex => exact returns_map (noTrap_reindex env e) _
  | changeFieldBits new => exact returns_map (noTrap_changeFieldBits env hV hnew new) _
  | contains id =>
    exact returns_map (returns_bind noTrap_lockedConn fun _ _ => returns_stmt _) _
  | documentCount =>
    exact returns_map (returns_bind noTrap_lockedConn fun _ _ => returns_stmt _) _
  | search q limit =>
    refine returns_map ?_ _
    unfold SearchEngine.search
    dsimp only
    split
    · exact returns_pure trivial
    · exact returns_bind noTrap_lockedConn fun _ _ => noTrap_search env.sqlite e.strategy _ _
  | searchPage q perPage page =>
    refine returns_map ?_ _
    unfold SearchEngine.searchPage
    dsimp only
    split
    · exact returns_pure trivial
    · split
      · exact returns_throw _
      · exact returns_bind noTrap_lockedConn fun _ _ =>
          noTrap_searchPaged env.sqlite e.strategy _ _ _
  | matchCount q =>
    refine returns_map ?_ _
    unfold SearchEngine.matchCount
    dsimp only
    split
    · exact returns_pure trivial
    · exact returns_bind noTrap_lockedConn fun _ _ => noTrap_matchCount env.sqlite e.strategy _
  | highlight q id before after => exact returns_map (noTrap_highlight env e q id before after) _
  | containsRecord r => exact returns_map (noTrap_containsRecord hV r) _
  | searchRecords q limit n => exact returns_map (noTrap_searchRecords env e hV q limit n) _
  | searchRecordsPage q perPage page n =>
    exact returns_map (noTrap_searchRecordsPage env e hV q perPage page n) _
  | matchCountRecords q n => exact returns_map (noTrap_matchCountRecords env e hV q n) _
  | highlightRecord q r slot before after =>
    exact returns_map (noTrap_highlightRecord env e hV q r slot before after) _

end Records

end NoTrap

/-! ### Runs -/

variable (env : Env) (e : SearchEngine)

/-- The world after calls made one after the other. -/
def afterCalls (w : EngineWorld) (calls : List Call) : EngineWorld :=
  calls.foldl (fun w c => ((c.prog env e).run w).2) w

/-- The calls with record ids, slots or widths. -/
def RecordCall : Call → Prop
  | .containsRecord .. | .indexRecord .. | .indexRecordsBatch .. | .removeRecord ..
  | .highlightRecord .. | .searchRecords .. | .searchRecordsPage .. | .matchCountRecords ..
  | .changeFieldBits .. => True
  | _ => False

theorem afterCalls_cell {V : UInt8 → Prop} (hV : ∀ b, V b → b.toNat ≤ 62)
    (hnew : ∀ b, ValidBits b → V b) (calls : List Call) {w : EngineWorld} (hw : V w.cell) :
    V (afterCalls env e w calls).cell := by
  induction calls generalizing w with
  | nil => exact hw
  | cons c calls ih => exact ih (returns_run (noTrap_call env e hV hnew c) w hw).2

/-- The width is one of `1..=62`, and no record call traps, after any calls. -/
def ArithmeticSafe (w : EngineWorld) : Prop :=
  ∀ calls, ValidBits (afterCalls env e w calls).cell ∧
    ∀ c, RecordCall c → ((c.prog env e).run (afterCalls env e w calls)).1 ≠ .panic

/-- No record call traps, after any calls. -/
def TrapFree (w : EngineWorld) : Prop :=
  ∀ calls c, RecordCall c → ((c.prog env e).run (afterCalls env e w calls)).1 ≠ .panic

variable {env} {e}

theorem arithmeticSafe_iff (w : EngineWorld) : ArithmeticSafe env e w ↔ ValidBits w.cell := by
  have hV : ∀ b, ValidBits b → b.toNat ≤ 62 := fun _ hb => hb.2
  constructor
  · exact fun h => (h []).1
  · intro hw calls
    have hcell := afterCalls_cell env e hV (fun _ hb => hb) calls hw
    exact ⟨hcell, fun c _ => (returns_run (noTrap_call env e hV (fun _ hb => hb) c) _ hcell).1⟩

/-- Of a width from 63 on even the range of record 0 has no mask. -/
theorem containsRecord_traps {w : EngineWorld} (h : 63 ≤ w.cell.toNat) :
    ((Call.prog env e (.containsRecord 0)).run w).1 = .panic := by
  have heval : ((containsRecord 0).eval w).1 = .panic := by
    simp only [containsRecord, checkRecordId, fieldBits, maxRecordId, eval_bind, eval_read,
      andThen_ok]
    by_cases hlarge : 64 ≤ w.cell.toNat
    · rw [Checked.shr, if_neg (by omega)]
      rfl
    · have hcell : w.cell = 63 := UInt8.toNat_inj.mp (by
        change w.cell.toNat = 63
        omega)
      have hmax : Checked.shr Int64.maxValue 63 = some 0 := by decide
      have hlo : Checked.shl 0 63 = some 0 := by decide
      have hmask : lowMask 63 = none := by decide
      have hrecord : (0 : Int64) ≤ 0 ∧ (0 : Int64) ≤ 0 := by decide
      simp only [hcell, hmax, eval_trap_some, andThen_ok, if_pos hrecord, eval_pure,
        recordIdRange, fieldBits, eval_bind, eval_read, hlo, hmask]
      rfl
  rw [Call.prog, map_eq_bind, run, eval_bind]
  rcases hres : (containsRecord 0).eval w with ⟨o, v⟩
  rw [hres] at heval
  dsimp only at heval
  subst heval
  rfl

theorem trapFree_iff (w : EngineWorld) : TrapFree env e w ↔ w.cell.toNat ≤ 62 := by
  have hV : ∀ b : UInt8, b.toNat ≤ 62 → b.toNat ≤ 62 := fun _ hb => hb
  have hnew : ∀ b, ValidBits b → b.toNat ≤ 62 := fun _ hb => hb.2
  constructor
  · intro h
    by_contra hcell
    exact h [] (.containsRecord 0) trivial (containsRecord_traps (by
      change 63 ≤ w.cell.toNat
      omega))
  · intro hw calls c _
    have hcell := afterCalls_cell env e hV hnew calls hw
    exact (returns_run (noTrap_call env e hV hnew c) _ hcell).1

end SearchEngine

/-! ### The width of an open -/

/-- The width a constructor asks for. -/
def Constructor.fieldBits : Constructor → Option UInt8
  | .new => EngineConfig.default.fieldBits
  | .withConfig config | .withConfigRebuilding config => config.fieldBits
  | .withOptions config | .withOptionsRebuilding config => config.fieldBits

/-- An open that asks for no width finds no rows, or no number stored as their width, or
one that satisfies `P`. -/
def Adopts (P : UInt8 → Prop) (fieldBits : Option UInt8) (db : Db) : Prop :=
  fieldBits = none → db.columns ≠ none → db.entries ≠ ∅ →
    ∀ n, db.metaTable.fieldBits.bind SearchEngine.parseU8 = some n → P n

namespace Db

variable (env : Env) (db : Db)

theorem reverseRow_isSome (db : Db) (row : Int64 × Text) (id : Int64) :
    (db.reverseRow row).entries[id]?.isSome = db.entries[id]?.isSome ∧
      (db.reverseRow row).metaTable = db.metaTable := by
  unfold reverseRow
  cases hrow : db.entries[row.1]? with
  | none => exact ⟨rfl, rfl⟩
  | some en =>
    dsimp only
    rw [Table.lookup_insert]
    split
    · rename_i hid
      rw [hid, hrow]
      exact ⟨rfl, rfl⟩
    · exact ⟨rfl, rfl⟩

theorem backfilled_isSome (id : Int64) :
    (db.backfilled env).entries[id]?.isSome = db.entries[id]?.isSome ∧
      (db.backfilled env).metaTable = db.metaTable := by
  unfold backfilled
  generalize db.norms env = rows
  induction rows generalizing db with
  | nil => exact ⟨rfl, rfl⟩
  | cons row rows ih =>
    obtain ⟨hstep, hmeta⟩ := reverseRow_isSome db row id
    obtain ⟨hrest, hmeta'⟩ := ih (db.reverseRow row)
    exact ⟨hrest.trans hstep, hmeta'.trans hmeta⟩

/-- The migrations keep the ids and the stored width. -/
theorem migrated_isSome (id : Int64) :
    (db.withRaw.withNormRev env).entries[id]?.isSome = db.entries[id]?.isSome ∧
      (db.withRaw.withNormRev env).metaTable = db.metaTable := by
  have hraw : db.withRaw.entries[id]?.isSome = db.entries[id]?.isSome ∧
      db.withRaw.metaTable = db.metaTable := by
    unfold withRaw
    split
    · exact ⟨rfl, rfl⟩
    · dsimp only
      rw [Table.lookup_map, Option.isSome_map]
      exact ⟨rfl, rfl⟩
  generalize db.withRaw = db' at hraw
  unfold withNormRev
  split
  · exact hraw
  · obtain ⟨hfill, hmeta⟩ := backfilled_isSome env db'.altered id
    rw [hfill, hmeta, altered]
    dsimp only
    rw [Table.lookup_map, Option.isSome_map]
    exact hraw

theorem opened_isSome (id : Int64) :
    (db.opened env).entries[id]?.isSome =
      (if db.columns = none then none else db.entries[id]?).isSome ∧
    (db.opened env).metaTable.fieldBits = db.metaTable.fieldBits := by
  obtain ⟨hids, hmeta⟩ := migrated_isSome env db.created id
  rw [opened, hids, hmeta]
  cases hcolumns : db.columns with
  | none =>
    simp only [created, hcolumns, if_true]
    cases db.metaTable.indexVersion with
    | none => exact ⟨by rw [Table.lookup_empty], rfl⟩
    | some version => exact ⟨by rw [Table.lookup_empty], rfl⟩
  | some columns =>
    simp only [created, hcolumns]
    cases db.metaTable.indexVersion with
    | none => exact ⟨rfl, rfl⟩
    | some version => exact ⟨rfl, rfl⟩

theorem opened_storedFieldBits :
    (db.opened env).storedFieldBits =
      if db.columns = none ∨ db.entries = ∅ then none
      else some ((db.metaTable.fieldBits.bind SearchEngine.parseU8).getD DEFAULT_FIELD_BITS) := by
  have hempty : (db.opened env).entries.size = 0 ↔ db.columns = none ∨ db.entries = ∅ := by
    rw [← Std.ExtTreeMap.eq_empty_iff_size_eq_zero, Table.eq_empty_iff, Table.eq_empty_iff]
    have hid : ∀ id : Int64, (db.opened env).entries[id]? = none ↔
        db.columns = none ∨ db.entries[id]? = none := by
      intro id
      have hsome := (opened_isSome env db id).1
      rw [← Option.not_isSome_iff_eq_none, hsome]
      by_cases hcolumns : db.columns = none
      · simp [hcolumns]
      · simp [hcolumns]
    simp only [hid]
    by_cases hcolumns : db.columns = none
    · simp [hcolumns]
    · simp [hcolumns]
  rw [storedFieldBits, (opened_isSome env db 0).2]
  simp only [hempty]

end Db

namespace SearchEngine

variable {env : Env} {db : Db}

theorem constructor_fieldBits (env : Env) (c : Constructor) :
    ∃ options strategy rebuild,
      c.prog env = openEngine env options strategy c.fieldBits rebuild := by
  cases c <;> exact ⟨_, _, _, rfl⟩

/-- The width of an engine is the effective one. -/
theorem opened_width {c : Constructor} {engine : SearchEngine} {w₀ w : EngineWorld}
    (hw : w₀.Idle) (hopen : (c.prog env).run w₀ = (.ok engine, w)) :
    effectiveBits c.fieldBits (w₀.db.opened env).storedFieldBits = .ok w.cell := by
  obtain ⟨options, strategy, rebuild, hprog⟩ := constructor_fieldBits env c
  rw [hprog] at hopen
  obtain ⟨n, heff, hv⟩ := openEngine_ok env w₀.db w₀.cell options strategy c.fieldBits rebuild
    (run_quiet_of_ok hw hopen)
  have hcell : w.cell = n := congrArg World.cell hv
  rw [hcell, heff]

theorem effective_adopts {P : UInt8 → Prop} (hP : ∀ b, ValidBits b → P b)
    {fieldBits : Option UInt8} {n : UInt8}
    (heff : effectiveBits fieldBits (db.opened env).storedFieldBits = .ok n) :
    P n ↔ Adopts P fieldBits db := by
  rw [Db.opened_storedFieldBits] at heff
  cases fieldBits with
  | some k =>
    have hk : ValidBits n := validBits_of_requested heff
    exact iff_of_true (hP n hk) fun hnone => by cases hnone
  | none =>
    have hn := Except.ok.inj heff
    by_cases hrows : db.columns = none ∨ db.entries = ∅
    · rw [if_pos hrows, Option.getD_none] at hn
      rw [← hn]
      refine iff_of_true (hP _ validBits_default) fun _ hcolumns hentries => ?_
      exact absurd hrows (not_or.mpr ⟨hcolumns, hentries⟩)
    · rw [if_neg hrows, Option.getD_some] at hn
      rw [not_or] at hrows
      cases hparse : db.metaTable.fieldBits.bind parseU8 with
      | none =>
        rw [hparse, Option.getD_none] at hn
        rw [← hn]
        refine iff_of_true (hP _ validBits_default) fun _ _ _ m hm => ?_
        rw [hparse] at hm
        cases hm
      | some m =>
        rw [hparse, Option.getD_some] at hn
        rw [← hn]
        constructor
        · intro hm _ _ _ m' hm'
          rw [hparse, Option.some.injEq] at hm'
          rwa [← hm']
        · exact fun h => h rfl hrows.1 hrows.2 m hparse

/-- The width of an engine that opened is in `1..=62` and the record calls on it are safe
exactly when it was asked for, or no number outside `1..=62` is stored as the width of the
rows; a stored `0` traps nowhere. -/
theorem record_arithmetic_safe_iff (env : Env) (c : Constructor) {engine : SearchEngine}
    {w₀ w : EngineWorld} (hw : w₀.Idle) (hopen : (c.prog env).run w₀ = (.ok engine, w)) :
    (ArithmeticSafe env engine w ↔ Adopts ValidBits c.fieldBits w₀.db) ∧
      (TrapFree env engine w ↔ Adopts (fun b => b.toNat ≤ 62) c.fieldBits w₀.db) := by
  have heff := opened_width hw hopen
  rw [arithmeticSafe_iff, trapFree_iff]
  exact ⟨effective_adopts (fun _ hb => hb) heff,
    effective_adopts (P := fun b => b.toNat ≤ 62) (fun _ hb => hb.2) heff⟩

/-- A file whose rows were packed, as it says, under 64 bits. -/
def wideIndex : Db where
  columns := some { normRev := true, raw := true }
  docs := Table.insertRows [(1, ['a'])] ∅
  entries := Table.insertRows [(1, { norm := ['a'], normRev := some ['a'], raw := some ['a'] })] ∅
  metaTable := { indexVersion := some ['1'], fieldBits := some ['6', '4'] }

def defaultEngine : SearchEngine :=
  { options := NormalizeProfile.loose.options, strategy := .trigramBm25 }

theorem wideIndex_opens :
    ((Constructor.prog .ascii .new).run (Host.openWorld wideIndex)).1 = .ok defaultEngine := by
  decide +kernel

theorem record_arithmetic_safe_iff_wide :
    let w := ((Constructor.prog .ascii .new).run (Host.openWorld wideIndex)).2
    (ArithmeticSafe .ascii defaultEngine w ↔ Adopts ValidBits none wideIndex) ∧
      (TrapFree .ascii defaultEngine w ↔ Adopts (fun b => b.toNat ≤ 62) none wideIndex) :=
  have hidle : (Host.openWorld wideIndex).Idle := ⟨rfl, rfl⟩
  record_arithmetic_safe_iff .ascii .new hidle (Prod.ext wideIndex_opens rfl)

/-- `SearchEngine::new` opens it, and `contains_record(0)` panics. -/
theorem wideIndex_traps :
    ¬ ∀ (db : Db) (c : Constructor) (engine : SearchEngine) (w : EngineWorld),
      (c.prog .ascii).run (Host.openWorld db) = (.ok engine, w) →
        ArithmeticSafe .ascii engine w := by
  intro h
  have hsafe := h wideIndex .new defaultEngine _ (Prod.ext wideIndex_opens rfl)
  exact (hsafe []).2 (.containsRecord 0) trivial (by decide +kernel)

end SearchEngine

end Unfydqry
