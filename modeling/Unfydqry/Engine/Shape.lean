import Unfydqry.Engine.Call
import Unfydqry.Lib.Interleave

/-! # The shape of each call

Which actions a call performs and in which order: every call reads `field_bits`
before it takes the mutex, works under it, and may read `field_bits` again after;
a search only reads; every mutating call but three opens a transaction before its
first write. -/

namespace Unfydqry

open LockedStore Prog

namespace Sql

theorem query_readOnly {α : Type} (f : Db → α) : (query f).ReadOnly := by
  intro db x db' h
  cases h
  rfl

theorem tryQuery_readOnly {α : Type} (f : Db → Except SearchError α) : (tryQuery f).ReadOnly := by
  intro db x db' h
  unfold tryQuery at h
  cases hf : f db with
  | error e =>
    rw [hf] at h
    cases h
  | ok a =>
    rw [hf] at h
    cases h
    rfl

end Sql

section Search

open Search

variable {A : Kind → Prop} (hA : A .query) (sq : Sqlite)

include hA

theorem uses_sqlQuery {α : Type} (f : Db → α) : (stmt (Sql.query f) : EngineM α).Uses A :=
  uses_query hA (Sql.query_readOnly f)

theorem uses_tryQuery {α : Type} (f : Db → Except SearchError α) :
    (stmt (Sql.tryQuery f) : EngineM α).Uses A :=
  uses_query hA (Sql.tryQuery_readOnly f)

theorem uses_fuzzySearch (q : Text) (limit : UInt32) :
    (FuzzyTrigram.search sq q limit).Uses A := by
  unfold FuzzyTrigram.search
  split
  · exact uses_pure A _
  · split
    · exact uses_tryQuery hA _
    · unfold FuzzyTrigram.searchLong
      split
      · exact uses_throw A _
      · exact uses_tryQuery hA _

omit hA in
theorem uses_prepared {α : Type} (n : ℕ) {run : EngineM α} (h : run.Uses A) :
    (AllTerms.prepared sq n run).Uses A := by
  unfold AllTerms.prepared
  split
  · exact uses_throw A _
  · exact h

theorem uses_strategySearch (st : SearchStrategy) (q : Text) (limit : UInt32) :
    ((buildStrategy sq st).search q limit).Uses A := by
  cases st with
  | trigramBm25 => exact uses_sqlQuery hA _
  | substring => exact uses_sqlQuery hA _
  | prefixMatch => exact uses_sqlQuery hA _
  | suffixMatch => exact uses_sqlQuery hA _
  | allTerms =>
    simp only [buildStrategy, AllTerms.algorithm]
    split
    · exact uses_pure A _
    · exact uses_prepared sq _ (uses_sqlQuery hA _)
  | fuzzyTrigram => exact uses_fuzzySearch hA sq q limit
  | levenshtein => exact uses_tryQuery hA _
  | damerauLevenshtein => exact uses_tryQuery hA _

omit hA in
theorem uses_defaultMatchCount {search : Text → UInt32 → EngineM (List Hit)}
    (hs : ∀ q limit, (search q limit).Uses A) (q : Text) :
    (defaultMatchCount search q).Uses A :=
  uses_bind (hs q _) fun _ => uses_pure A _

omit hA in
theorem uses_defaultSearchPaged {search : Text → UInt32 → EngineM (List Hit)}
    (hs : ∀ q limit, (search q limit).Uses A) (q : Text) (limit offset : UInt32) :
    (defaultSearchPaged search q limit offset).Uses A := by
  unfold defaultSearchPaged
  split
  · exact uses_pure A _
  · split
    · exact uses_throw A _
    · exact uses_bind (hs q _) fun _ => uses_pure A _

theorem uses_strategyCount (st : SearchStrategy) (q : Text) :
    ((buildStrategy sq st).matchCount q).Uses A := by
  have hword : ∀ dist, (defaultMatchCount (wordFuzzySearch sq dist) q).Uses A :=
    fun dist => uses_defaultMatchCount (fun _ _ => uses_tryQuery hA _) q
  cases st with
  | trigramBm25 =>
    simp only [buildStrategy, TrigramBm25.algorithm]
    split
    · exact uses_tryQuery hA _
    · exact uses_tryQuery hA _
  | substring =>
    simp only [buildStrategy, Substring.algorithm]
    split
    · exact uses_tryQuery hA _
    · exact uses_tryQuery hA _
  | prefixMatch => exact uses_sqlQuery hA _
  | suffixMatch => exact uses_sqlQuery hA _
  | allTerms =>
    simp only [buildStrategy, AllTerms.algorithm]
    split
    · exact uses_pure A _
    · exact uses_prepared sq _ (uses_tryQuery hA _)
  | fuzzyTrigram => exact uses_defaultMatchCount (uses_fuzzySearch hA sq) q
  | levenshtein => exact hword levenshtein
  | damerauLevenshtein => exact hword osa

theorem uses_strategyPaged (st : SearchStrategy) (q : Text) (limit offset : UInt32) :
    ((buildStrategy sq st).searchPaged q limit offset).Uses A := by
  have hword : ∀ dist, (defaultSearchPaged (wordFuzzySearch sq dist) q limit offset).Uses A :=
    fun dist => uses_defaultSearchPaged (fun _ _ => uses_tryQuery hA _) q limit offset
  cases st with
  | trigramBm25 => exact uses_sqlQuery hA _
  | substring => exact uses_sqlQuery hA _
  | prefixMatch => exact uses_sqlQuery hA _
  | suffixMatch => exact uses_sqlQuery hA _
  | allTerms =>
    simp only [buildStrategy, AllTerms.algorithm]
    split
    · exact uses_pure A _
    · exact uses_prepared sq _ (uses_sqlQuery hA _)
  | fuzzyTrigram => exact uses_defaultSearchPaged (uses_fuzzySearch hA sq) q limit offset
  | levenshtein => exact hword levenshtein
  | damerauLevenshtein => exact hword osa

end Search

namespace SearchEngine

variable {A : Kind → Prop} (env : Env) (e : SearchEngine)

/-! ### The parts of the calls -/

theorem uses_checkRecordId (hl : A .load) (r : Int64) : (checkRecordId r).Uses A := by
  refine uses_bind (uses_read hl) fun _ => uses_bind ?_ fun _ => ?_
  · exact uses_bind (uses_read hl) fun _ => uses_trap A _
  · split
    · exact uses_pure A _
    · exact uses_throw A _

theorem uses_recordIdRange (hl : A .load) (r : Int64) : (recordIdRange r).Uses A :=
  uses_bind (uses_read hl) fun _ => uses_bind (uses_trap A _) fun _ =>
    uses_bind (uses_read hl) fun _ => uses_bind (uses_trap A _) fun _ => uses_pure A _

theorem uses_orThrow {α : Type} (r : Except SearchError α) : (orThrow r).Uses A := by
  cases r with
  | ok a => exact uses_pure A a
  | error err => exact uses_throw A err

theorem uses_decode (hl : A .load) (h : Hit) : (decode h).Uses A := by
  refine uses_bind (uses_bind (uses_read hl) fun _ => uses_trap A _) fun _ => ?_
  refine uses_bind ?_ fun _ => uses_pure A _
  exact uses_bind (uses_read hl) fun _ => uses_bind (uses_trap A _) fun _ => uses_pure A _

theorem uses_repackRow (old new : UInt8) (mask max cap : Int64)
    (row : Int64 × Text × Option Text) : (repackRow old new mask max cap row).Uses A := by
  refine uses_bind ?_ fun _ => uses_pure A _
  unfold repackId
  split
  · exact uses_throw A _
  · refine uses_bind (uses_trap A _) fun record => ?_
    dsimp only
    split
    · exact uses_throw A _
    · split
      · exact uses_throw A _
      · exact uses_bind (uses_trap A _) fun _ => uses_pure A _

section Statements

variable (hs : A .statement)

include hs

theorem uses_clearIdRange (lo hi : Int64) : (clearIdRange lo hi).Uses A :=
  uses_bind (uses_stmt hs _) fun _ => uses_stmt hs _

theorem uses_putDocument (id : Int64) (text : Text) : (putDocument env e id text).Uses A :=
  uses_bind (uses_stmt hs _) fun _ => uses_bind (uses_stmt hs _) fun _ => uses_stmt hs _

theorem uses_dropDocument (id : Int64) : (dropDocument id).Uses A :=
  uses_bind (uses_stmt hs _) fun _ => uses_stmt hs _

theorem uses_renewDocument (row : Int64 × Text) : (renewDocument env e row).Uses A :=
  uses_bind (uses_stmt hs _) fun _ => uses_bind (uses_stmt hs _) fun _ => uses_stmt hs _

theorem uses_insertField (lo : Int64) (f : FieldValue) : (insertField env e lo f).Uses A := by
  unfold insertField
  dsimp only
  split
  · exact uses_pure A _
  · exact uses_bind (uses_stmt hs _) fun _ => uses_stmt hs _

theorem uses_insertRow (row : Int64 × Text × Option Text) : (insertRow row).Uses A :=
  uses_bind (uses_stmt hs _) fun _ => uses_stmt hs _

end Statements

theorem uses_lockedConn (h : A .lock) : lockedConn.Uses A := ⟨h, trivial⟩

theorem uses_release (h : A .unlock) : (release : EngineM Unit).Uses A := ⟨h, trivial⟩

theorem uses_startTx (h : A .beginTx) : (startTx : EngineM Unit).Uses A := ⟨h, trivial⟩

theorem uses_commitTx (h : A .commit) : (commitTx : EngineM Unit).Uses A := ⟨h, trivial⟩

theorem uses_highlightEnd (fetched : Option (Text × Option Text)) (q before after : Text) :
    (match fetched with
      | none => pure none
      | some (norm, some raw) =>
        (some ·) <$> Prog.trap (Highlight.highlightRaw raw norm q before after (e.normalizer env))
      | some (norm, none) =>
        (some ·) <$> Prog.trap (Highlight.highlightOccurrences norm q before after) :
      EngineM (Option Text)).Uses A := by
  split
  · exact uses_pure A _
  · exact uses_bind (uses_trap A _) fun _ => uses_pure A _
  · exact uses_bind (uses_trap A _) fun _ => uses_pure A _

/-! ### Searches only read -/

/-- The kinds a reading call may use. -/
structure Reading (A : Kind → Prop) : Prop where
  load : A .load
  lock : A .lock
  unlock : A .unlock
  query : A .query

theorem reading_outsideTx : Reading outsideTx := ⟨trivial, trivial, trivial, trivial⟩

section Reading

variable (hA : Reading A)

include hA

theorem uses_search (q : Text) (limit : UInt32) : (search env e q limit).Uses A := by
  unfold search
  dsimp only
  split
  · exact uses_pure A _
  · exact uses_bind (uses_lockedConn hA.lock) fun _ => uses_strategySearch hA.query _ _ _ _

theorem uses_searchPage (q : Text) (perPage page : UInt32) :
    (searchPage env e q perPage page).Uses A := by
  unfold searchPage
  dsimp only
  split
  · exact uses_pure A _
  · split
    · exact uses_throw A _
    · exact uses_bind (uses_lockedConn hA.lock) fun _ => uses_strategyPaged hA.query _ _ _ _ _

theorem uses_matchCount (q : Text) : (matchCount env e q).Uses A := by
  unfold matchCount
  dsimp only
  split
  · exact uses_pure A _
  · exact uses_bind (uses_lockedConn hA.lock) fun _ => uses_strategyCount hA.query _ _ _

theorem uses_highlight (q : Text) (id : Int64) (before after : Text) :
    (highlight env e q id before after).Uses A := by
  unfold highlight
  dsimp only
  split
  · exact uses_pure A _
  · exact uses_bind (uses_lockedConn hA.lock) fun _ =>
      uses_bind (uses_sqlQuery hA.query _) fun _ => uses_bind (uses_release hA.unlock) fun _ =>
        uses_highlightEnd env e _ _ _ _

theorem uses_searchRecords (q : Text) (limit n : UInt32) :
    (searchRecords env e q limit n).Uses A := by
  unfold searchRecords
  dsimp only
  split
  · exact uses_pure A _
  · exact uses_bind (uses_lockedConn hA.lock) fun _ =>
      uses_bind (uses_strategySearch hA.query _ _ _ _) fun _ =>
        uses_bind (uses_release hA.unlock) fun _ =>
          uses_bind (uses_traverse (uses_decode hA.load) _) fun _ => uses_pure A _

theorem uses_matchCountRecords (q : Text) (n : UInt32) :
    (matchCountRecords env e q n).Uses A := by
  unfold matchCountRecords
  dsimp only
  split
  · exact uses_pure A _
  · exact uses_bind (uses_lockedConn hA.lock) fun _ =>
      uses_bind (uses_strategySearch hA.query _ _ _ _) fun _ =>
        uses_bind (uses_release hA.unlock) fun _ => uses_bind (uses_read hA.load) fun _ =>
          uses_bind (uses_traverse (fun _ => uses_trap A _) _) fun _ => uses_pure A _

theorem uses_containsRecord (r : Int64) : (containsRecord r).Uses A :=
  uses_bind (uses_checkRecordId hA.load r) fun _ =>
    uses_bind (uses_recordIdRange hA.load r) fun _ =>
      uses_bind (uses_lockedConn hA.lock) fun _ => uses_sqlQuery hA.query _

theorem uses_highlightRecord (q : Text) (r : Int64) (slot : UInt8) (before after : Text) :
    (highlightRecord env e q r slot before after).Uses A := by
  refine uses_bind (uses_checkRecordId hA.load r) fun bits =>
    uses_bind (uses_trap A _) fun cap => ?_
  split
  · exact uses_throw A _
  · exact uses_bind (uses_trap A _) fun _ => uses_highlight env e hA _ _ _ _

theorem uses_searchRecordsPage (q : Text) (perPage page n : UInt32) :
    (searchRecordsPage env e q perPage page n).Uses A := by
  unfold searchRecordsPage
  split
  · exact uses_throw A _
  · split
    · exact uses_throw A _
    · exact uses_bind (uses_searchRecords env e hA _ _ _) fun _ => uses_pure A _

end Reading

theorem reads_call {c : Call} (hc : ¬ c.Mutating) : (c.prog env e).Uses outsideTx := by
  have hA := reading_outsideTx
  cases c with
  | index => exact (hc trivial).elim
  | remove => exact (hc trivial).elim
  | indexBatch => exact (hc trivial).elim
  | removeBatch => exact (hc trivial).elim
  | removeAll => exact (hc trivial).elim
  | indexRecord => exact (hc trivial).elim
  | indexRecordsBatch => exact (hc trivial).elim
  | removeRecord => exact (hc trivial).elim
  | reindex => exact (hc trivial).elim
  | changeFieldBits => exact (hc trivial).elim
  | contains id =>
    exact uses_bind (uses_bind (uses_lockedConn trivial) fun _ => uses_sqlQuery trivial _)
      fun _ => uses_pure _ _
  | documentCount =>
    exact uses_bind (uses_bind (uses_lockedConn trivial) fun _ => uses_sqlQuery trivial _)
      fun _ => uses_pure _ _
  | search => exact uses_bind (uses_search env e hA _ _) fun _ => uses_pure _ _
  | searchPage => exact uses_bind (uses_searchPage env e hA _ _ _) fun _ => uses_pure _ _
  | matchCount => exact uses_bind (uses_matchCount env e hA _) fun _ => uses_pure _ _
  | highlight => exact uses_bind (uses_highlight env e hA _ _ _ _) fun _ => uses_pure _ _
  | containsRecord => exact uses_bind (uses_containsRecord hA _) fun _ => uses_pure _ _
  | searchRecords => exact uses_bind (uses_searchRecords env e hA _ _ _) fun _ => uses_pure _ _
  | searchRecordsPage =>
    exact uses_bind (uses_searchRecordsPage env e hA _ _ _ _) fun _ => uses_pure _ _
  | matchCountRecords =>
    exact uses_bind (uses_matchCountRecords env e hA _ _) fun _ => uses_pure _ _
  | highlightRecord =>
    exact uses_bind (uses_highlightRecord env e hA _ _ _ _ _) fun _ => uses_pure _ _

/-! ### Transactions come before the first write -/

theorem uses_renewAll (rows : List (Int64 × Text)) :
    (each (renewDocument env e) rows).Uses inTx :=
  uses_each (fun _ => uses_renewDocument env e trivial _) rows

theorem oneTx_locked {α : Type} {f : Unit → EngineM α} (hf : (f ()).InTx) :
    (lockedConn >>= fun _ => startTx >>= f).OneTx := hf

theorem inTx_end {α : Type} (a : α) :
    (commitTx >>= fun _ => pure a : EngineM α).InTx := inTx_commitTx trivial

theorem indexBatch_oneTx (items : List IndexItem) : (indexBatch env e items).OneTx := by
  unfold indexBatch
  split
  · trivial
  · exact oneTx_locked (inTx_bind
      (uses_each (fun _ => uses_putDocument env e trivial _ _) items) fun _ => inTx_end _)

theorem indexBatch_allOrNothing (items : List IndexItem) :
    (indexBatch env e items).AllOrNothing :=
  allOrNothing_of_oneTx (indexBatch_oneTx env e items)

theorem removeBatch_oneTx (ids : List Int64) : (removeBatch ids).OneTx := by
  unfold removeBatch
  split
  · trivial
  · exact oneTx_locked (inTx_bind
      (uses_each (fun _ => uses_dropDocument trivial _) ids) fun _ => inTx_end _)

theorem removeBatch_allOrNothing (ids : List Int64) : (removeBatch ids).AllOrNothing :=
  allOrNothing_of_oneTx (removeBatch_oneTx ids)

theorem removeAll_allOrNothing : removeAll.AllOrNothing :=
  allOrNothing_bind (uses_lockedConn trivial) fun _ =>
    allOrNothing_bind (uses_sqlQuery trivial _) fun _ => allOrNothing_startTx
      (inTx_bind (uses_stmt trivial _) fun _ => inTx_bind (uses_stmt trivial _) fun _ => inTx_end _)

theorem indexRecord_oneTx (r : Int64) (fields : List FieldValue) :
    (indexRecord env e r fields).OneTx := by
  refine oneTx_bind (uses_checkRecordId trivial r) fun bits =>
    oneTx_bind (uses_trap _ _) fun cap => oneTx_bind (uses_orThrow _) fun _ =>
      oneTx_bind (uses_recordIdRange trivial r) fun range => ?_
  exact oneTx_locked (inTx_bind (uses_clearIdRange trivial _ _) fun _ => inTx_bind
    (uses_each (fun _ => uses_insertField env e trivial _ _) fields) fun _ => trivial)

theorem indexRecord_allOrNothing (r : Int64) (fields : List FieldValue) :
    (indexRecord env e r fields).AllOrNothing :=
  allOrNothing_of_oneTx (indexRecord_oneTx env e r fields)

theorem uses_putRecord {A : Kind → Prop} (hl : A .load) (hs : A .statement)
    (r : RecordIndexItem) :
    (do
      let (lo, hi) ← recordIdRange r.recordId
      clearIdRange lo hi
      Prog.each (insertField env e lo) r.fields : EngineM Unit).Uses A :=
  uses_bind (uses_recordIdRange hl _) fun _ => uses_bind (uses_clearIdRange hs _ _) fun _ =>
    uses_each (fun _ => uses_insertField env e hs _ _) r.fields

theorem indexRecordsBatch_oneTx (records : List RecordIndexItem) :
    (indexRecordsBatch env e records).OneTx := by
  unfold indexRecordsBatch
  split
  · trivial
  · refine oneTx_bind (uses_read trivial) fun bits => oneTx_bind
      (uses_bind (uses_read trivial) fun _ => uses_trap _ _) fun max =>
        oneTx_bind (uses_trap _ _) fun cap => oneTx_bind (uses_orThrow _) fun _ => ?_
    exact oneTx_locked (inTx_bind
      (uses_each (uses_putRecord env e trivial trivial) records) fun _ => inTx_end _)

theorem indexRecordsBatch_allOrNothing (records : List RecordIndexItem) :
    (indexRecordsBatch env e records).AllOrNothing :=
  allOrNothing_of_oneTx (indexRecordsBatch_oneTx env e records)

theorem reindex_allOrNothing : (reindex env e).AllOrNothing :=
  allOrNothing_bind (uses_lockedConn trivial) fun _ =>
    allOrNothing_bind (uses_sqlQuery trivial _) fun rows => allOrNothing_startTx
      (inTx_bind (uses_renewAll env e rows) fun _ => inTx_bind (uses_stmt trivial _) fun _ =>
        inTx_end _)

theorem changeFieldBits_allOrNothing (new : UInt8) : (changeFieldBits env new).AllOrNothing := by
  refine allOrNothing_bind (uses_orThrow _) fun _ => allOrNothing_bind (uses_lockedConn trivial)
    fun _ => allOrNothing_bind (uses_read trivial) fun old => ?_
  split
  · trivial
  · refine allOrNothing_bind (uses_trap _ _) fun mask =>
      allOrNothing_bind (uses_trap _ _) fun max =>
      allOrNothing_bind (uses_trap _ _) fun cap => allOrNothing_bind (uses_sqlQuery trivial _)
        fun rows => allOrNothing_bind (uses_traverse (uses_repackRow old new mask max cap) rows)
          fun rows => allOrNothing_startTx ?_
    exact inTx_bind (uses_stmt trivial _) fun _ => inTx_bind (uses_stmt trivial _) fun _ =>
      inTx_bind (uses_each (uses_insertRow trivial) rows) fun _ =>
        inTx_bind (uses_stmt trivial _) fun _ => inTx_commitTx trivial

/-! ### The mutex is taken once -/

theorem pre_locked {α : Type} {p : EngineM α} (hp : p.Uses underLock) :
    (lockedConn >>= fun _ => p).Pre :=
  pre_acquire (crit_of_uses hp)

theorem pre_lockedUntil {α β : Type} {p : EngineM α} {f : α → EngineM β}
    (hp : p.Uses underLock) (hf : ∀ a, (f a).Post) :
    (lockedConn >>= fun _ => p >>= fun a => release >>= fun _ => f a).Pre :=
  pre_acquire (crit_bind hp fun a => crit_release (hf a))

theorem index_pre (id : Int64) (text : Text) : (index env e id text).Pre :=
  pre_acquire (crit_bind (uses_putDocument env e trivial id text) fun _ => crit_release trivial)

theorem remove_pre (id : Int64) : (remove id).Pre :=
  pre_acquire (crit_bind (uses_dropDocument trivial id) fun _ => crit_release trivial)

theorem indexBatch_pre (items : List IndexItem) : (indexBatch env e items).Pre := by
  unfold indexBatch
  split
  · trivial
  · exact pre_locked (uses_bind (uses_startTx trivial) fun _ => uses_bind
      (uses_each (fun _ => uses_putDocument env e trivial _ _) items) fun _ =>
        uses_bind (uses_commitTx trivial) fun _ => uses_pure _ _)

theorem removeBatch_pre (ids : List Int64) : (removeBatch ids).Pre := by
  unfold removeBatch
  split
  · trivial
  · exact pre_locked (uses_bind (uses_startTx trivial) fun _ => uses_bind
      (uses_each (fun _ => uses_dropDocument trivial _) ids) fun _ =>
        uses_bind (uses_commitTx trivial) fun _ => uses_pure _ _)

theorem removeAll_pre : removeAll.Pre :=
  pre_locked (uses_bind (uses_sqlQuery trivial _) fun _ => uses_bind (uses_startTx trivial) fun _ =>
    uses_bind (uses_stmt trivial _) fun _ => uses_bind (uses_stmt trivial _) fun _ =>
      uses_bind (uses_commitTx trivial) fun _ => uses_pure _ _)

theorem indexRecord_pre (r : Int64) (fields : List FieldValue) :
    (indexRecord env e r fields).Pre := by
  refine pre_bind (uses_checkRecordId trivial r) fun bits => pre_bind (uses_trap _ _) fun cap =>
    pre_bind (uses_orThrow _) fun _ => pre_bind (uses_recordIdRange trivial r) fun range => ?_
  exact pre_locked (uses_bind (uses_startTx trivial) fun _ =>
    uses_bind (uses_clearIdRange trivial _ _) fun _ => uses_bind
      (uses_each (fun _ => uses_insertField env e trivial _ _) fields) fun _ =>
        uses_commitTx trivial)

theorem indexRecordsBatch_pre (records : List RecordIndexItem) :
    (indexRecordsBatch env e records).Pre := by
  unfold indexRecordsBatch
  split
  · trivial
  · refine pre_bind (uses_read trivial) fun bits => pre_bind
      (uses_bind (uses_read trivial) fun _ => uses_trap _ _) fun max => pre_bind (uses_trap _ _)
        fun cap => pre_bind (uses_orThrow _) fun _ => ?_
    exact pre_locked (uses_bind (uses_startTx trivial) fun _ => uses_bind
      (uses_each (uses_putRecord env e trivial trivial) records) fun _ =>
        uses_bind (uses_commitTx trivial) fun _ => uses_pure _ _)

theorem removeRecord_pre (r : Int64) : (removeRecord r).Pre :=
  pre_bind (uses_checkRecordId trivial r) fun _ => pre_bind (uses_recordIdRange trivial r)
    fun _ => pre_acquire (crit_bind (uses_clearIdRange trivial _ _) fun _ => crit_release trivial)

theorem reindex_pre : (reindex env e).Pre :=
  pre_locked (uses_bind (uses_sqlQuery trivial _) fun rows =>
    uses_bind (uses_startTx trivial) fun _ => uses_bind
      (uses_each (fun _ => uses_renewDocument env e trivial _) rows) fun _ =>
        uses_bind (uses_stmt trivial _) fun _ => uses_bind (uses_commitTx trivial) fun _ =>
          uses_pure _ _)

theorem changeFieldBits_pre (new : UInt8) : (changeFieldBits env new).Pre := by
  refine pre_bind (uses_orThrow _) fun _ => pre_acquire (crit_bind (uses_read trivial)
    fun old => ?_)
  split
  · trivial
  · refine crit_bind (uses_trap _ _) fun mask => crit_bind (uses_trap _ _) fun max =>
      crit_bind (uses_trap _ _) fun cap => crit_bind (uses_sqlQuery trivial _) fun rows =>
        crit_bind (uses_traverse (uses_repackRow old new mask max cap) rows) fun rows =>
          crit_bind (uses_startTx trivial) fun _ => ?_
    exact crit_bind (uses_stmt trivial _) fun _ => crit_bind (uses_stmt trivial _) fun _ =>
      crit_bind (uses_each (uses_insertRow trivial) rows) fun _ =>
        crit_bind (uses_stmt trivial _) fun _ => crit_bind (uses_commitTx trivial) fun _ => ⟨_, rfl⟩

theorem highlight_pre (q : Text) (id : Int64) (before after : Text) :
    (highlight env e q id before after).Pre := by
  unfold highlight
  dsimp only
  split
  · trivial
  · exact pre_lockedUntil (uses_sqlQuery trivial _) fun _ => uses_highlightEnd env e _ _ _ _

theorem searchRecords_pre (q : Text) (limit n : UInt32) :
    (searchRecords env e q limit n).Pre := by
  unfold searchRecords
  dsimp only
  split
  · trivial
  · exact pre_lockedUntil (uses_strategySearch trivial _ _ _ _) fun _ =>
      uses_bind (uses_traverse (uses_decode trivial) _) fun _ => uses_pure _ _

theorem matchCountRecords_pre (q : Text) (n : UInt32) : (matchCountRecords env e q n).Pre := by
  unfold matchCountRecords
  dsimp only
  split
  · trivial
  · exact pre_lockedUntil (uses_strategySearch trivial _ _ _ _) fun _ =>
      uses_bind (uses_read trivial) fun _ =>
        uses_bind (uses_traverse (fun _ => uses_trap _ _) _) fun _ => uses_pure _ _

/-- Every call of the engine reads the cell, takes the mutex once and drops it once. -/
theorem call_pre (c : Call) : (c.prog env e).Pre := by
  cases c with
  | index => exact pre_bind_pure (index_pre env e _ _) _
  | remove => exact pre_bind_pure (remove_pre _) _
  | indexBatch => exact pre_bind_pure (indexBatch_pre env e _) _
  | removeBatch => exact pre_bind_pure (removeBatch_pre _) _
  | removeAll => exact pre_bind_pure removeAll_pre _
  | indexRecord => exact pre_bind_pure (indexRecord_pre env e _ _) _
  | indexRecordsBatch => exact pre_bind_pure (indexRecordsBatch_pre env e _) _
  | removeRecord => exact pre_bind_pure (removeRecord_pre _) _
  | reindex => exact pre_bind_pure (reindex_pre env e) _
  | changeFieldBits => exact pre_bind_pure (changeFieldBits_pre env _) _
  | contains => exact pre_bind_pure (pre_locked (uses_sqlQuery trivial _)) _
  | documentCount => exact pre_bind_pure (pre_locked (uses_sqlQuery trivial _)) _
  | search q limit =>
    refine pre_bind_pure ?_ _
    unfold search
    dsimp only
    split
    · trivial
    · exact pre_locked (uses_strategySearch trivial _ _ _ _)
  | searchPage q perPage page =>
    refine pre_bind_pure ?_ _
    unfold searchPage
    dsimp only
    split
    · trivial
    · split
      · trivial
      · exact pre_locked (uses_strategyPaged trivial _ _ _ _ _)
  | matchCount q =>
    refine pre_bind_pure ?_ _
    unfold matchCount
    dsimp only
    split
    · trivial
    · exact pre_locked (uses_strategyCount trivial _ _ _)
  | highlight => exact pre_bind_pure (highlight_pre env e _ _ _ _) _
  | containsRecord r =>
    exact pre_bind_pure (pre_bind (uses_checkRecordId trivial r) fun _ =>
      pre_bind (uses_recordIdRange trivial r) fun _ => pre_locked (uses_sqlQuery trivial _)) _
  | searchRecords => exact pre_bind_pure (searchRecords_pre env e _ _ _) _
  | searchRecordsPage q perPage page n =>
    refine pre_bind_pure ?_ _
    unfold searchRecordsPage
    split
    · trivial
    · split
      · trivial
      · exact pre_bind_pure (searchRecords_pre env e _ _ _) _
  | matchCountRecords => exact pre_bind_pure (matchCountRecords_pre env e _ _) _
  | highlightRecord q r slot before after =>
    refine pre_bind_pure (pre_bind (uses_checkRecordId trivial r) fun bits =>
      pre_bind (uses_trap _ _) fun cap => ?_) _
    split
    · trivial
    · exact pre_bind (uses_trap _ _) fun _ => highlight_pre env e _ _ _ _

end SearchEngine

end Unfydqry
