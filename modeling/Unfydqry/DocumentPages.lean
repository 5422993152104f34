import Unfydqry.RecordPages
import Unfydqry.Matching

/-! # Pages of documents

`search`, `search_page` and `match_count` answer from one list: a prefix of it, a slice of
it, its length. A step that fails is skipped by the calls that list rows and reported by the
one that counts them. -/

namespace Unfydqry

open LockedStore Prog SearchEngine Search

namespace Search

variable {sq : Sqlite} (hf : sq.rowFault = none) (db : Db) (saved : Option Db) (bits : UInt8)
  (held : Bool)

/-- The answer of a page that starts at `offset`. -/
def slice (limit offset : UInt32) (rows : List Hit) : List Hit :=
  limited limit (rows.drop offset.toNat)

/-- What `match_count` makes of the hits of a strategy. -/
def counted : SearchStrategy → List Hit → ℕ
  | .fuzzyTrigram, rows | .levenshtein, rows | .damerauLevenshtein, rows =>
    min rows.length (2 ^ 32 - 1)
  | _, rows => rows.length

theorem counted_eq (st : SearchStrategy) {rows : List Hit} (h : rows.length ≤ 2 ^ 32 - 1) :
    counted st rows = rows.length := by
  cases st with
  | fuzzyTrigram | levenshtein | damerauLevenshtein => exact Nat.min_eq_left h
  | trigramBm25 | substring | prefixMatch | suffixMatch | allTerms => rfl

theorem counted_of_not {st : SearchStrategy} (h : ¬ RanksHits st) : counted st = List.length := by
  cases st with
  | fuzzyTrigram | levenshtein | damerauLevenshtein => exact absurd trivial h
  | trigramBm25 | substring | prefixMatch | suffixMatch | allTerms => rfl

section Paged

/-- Fetching `limit + offset` hits and dropping the first `offset` is the slice. -/
theorem eval_defaultSearchPaged {search : Text → UInt32 → EngineM (List Hit)} {q : Text}
    {r : Except SearchError (List Hit)} {w : EngineWorld}
    (hsearch : ∀ n, (search q n).eval w = (outcome (r.map (limited n)), w))
    {limit offset : UInt32} (hlimit : limit ≠ 0) (hfit : limit.toNat + offset.toNat < 2 ^ 32) :
    (defaultSearchPaged search q limit offset).eval w =
      (outcome (r.map (slice limit offset)), w) := by
  obtain ⟨total, htotal, hvalue⟩ := checkedAdd_some hfit
  simp only [defaultSearchPaged, if_neg hlimit, htotal, eval_bind, hsearch]
  cases r with
  | error e => rfl
  | ok rows =>
    simp only [Except.map, outcome, andThen_ok, eval_pure, slice, limited, hvalue]
    rw [List.drop_take, Nat.add_sub_cancel]

theorem eval_defaultMatchCount {search : Text → UInt32 → EngineM (List Hit)} {q : Text}
    {r : Except SearchError (List Hit)} {w : EngineWorld}
    (hsearch : ∀ n, (search q n).eval w = (outcome (r.map (limited n)), w)) :
    (defaultMatchCount search q).eval w =
      (outcome (r.map fun rows => min rows.length (2 ^ 32 - 1)), w) := by
  have hmax : u32Max.toNat = 2 ^ 32 - 1 := by decide
  simp only [defaultMatchCount, eval_bind, hsearch]
  cases r with
  | error e => rfl
  | ok rows =>
    simp only [Except.map, outcome, andThen_ok, eval_pure, limited, List.length_take, hmax,
      Nat.min_comm]

include hf

theorem eval_strategyPaged (st : SearchStrategy) {q : Text} (hq : q ≠ []) {limit offset : UInt32}
    (hfit : RanksHits st → limit ≠ 0 ∧ limit.toNat + offset.toNat < 2 ^ 32) :
    ((buildStrategy sq st).searchPaged q limit offset).eval (quiet db saved bits held) =
      (outcome ((strategyRows sq q db st).map (slice limit offset)), quiet db saved bits held) := by
  cases st with
  | trigramBm25 => exact eval_selectHits hf db saved bits held limit offset _
  | substring => exact eval_selectHits hf db saved bits held limit offset _
  | prefixMatch => exact eval_selectHits hf db saved bits held limit offset _
  | suffixMatch => exact eval_selectHits hf db saved bits held limit offset _
  | allTerms =>
    simp only [buildStrategy, AllTerms.algorithm, strategyRows]
    split
    · simp only [eval_pure, Except.map, slice, limited, List.drop_nil, List.take_nil]
      rfl
    · have hselect := eval_selectHits hf db saved bits held limit offset
        (likeHits sq (AllTerms.patterns q))
      rw [eval_prepared (r := .ok _) hselect]
      split <;> rfl
  | fuzzyTrigram =>
    obtain ⟨hlimit, hroom⟩ := hfit trivial
    exact eval_defaultSearchPaged (eval_strategySearch hf db saved bits held .fuzzyTrigram hq)
      hlimit hroom
  | levenshtein =>
    obtain ⟨hlimit, hroom⟩ := hfit trivial
    exact eval_defaultSearchPaged (eval_strategySearch hf db saved bits held .levenshtein hq)
      hlimit hroom
  | damerauLevenshtein =>
    obtain ⟨hlimit, hroom⟩ := hfit trivial
    exact eval_defaultSearchPaged (eval_strategySearch hf db saved bits held .damerauLevenshtein hq)
      hlimit hroom

omit hf

theorem eval_likeCount (patterns : List Text) :
    (likeCount sq patterns).eval (quiet db saved bits held) =
      (outcome ((likeHits sq patterns db).whole.map List.length), quiet db saved bits held) := by
  have hrows : (sq.likeRows "SELECT COUNT(*) FROM entries WHERE norm LIKE" patterns
      db.entries).rows.length = (likeHits sq patterns db).rows.length := by
    rw [likeHits, Stepped.map, List.length_map, Sqlite.likeRows_rows, Sqlite.likeRows_rows]
    exact (((sq.scan_perm _ _ db.entries).trans (sq.scan_perm _ _ db.entries).symm).filter
      _).length_eq
  have hstop : (sq.likeRows "SELECT COUNT(*) FROM entries WHERE norm LIKE" patterns
      db.entries).stop = (likeHits sq patterns db).stop := by
    rw [likeHits, Stepped.map, Sqlite.likeRows_stop, Sqlite.likeRows_stop]
  rw [likeCount, eval_tryQuery]
  simp only [Stepped.collect_results, Stepped.whole, hstop]
  cases (likeHits sq patterns db).stop with
  | none => simp only [Option.elim_none, Except.map, hrows]
  | some e => rfl

theorem eval_matchedCount (expr : Text) :
    (matchedCount sq expr).eval (quiet db saved bits held) =
      (outcome ((sq.matchRows expr db.docs).whole.map List.length),
        quiet db saved bits held) := by
  rw [matchedCount, eval_tryQuery, Stepped.collect_results]

theorem whole_map_length {α β : Type} (f : α → β) (s : Stepped α) :
    (s.map f).whole.map List.length = s.whole.map List.length := by
  rw [Stepped.whole_map]
  cases s.whole with
  | error e => rfl
  | ok rows => exact congrArg Except.ok (List.length_map f)

theorem rankedRows_length (expr : Text) (docs : Docs) :
    (sq.rankedRows expr docs).whole.map List.length =
      (sq.matchRows expr docs).whole.map List.length := by
  unfold Sqlite.rankedRows Sqlite.matchRows
  cases Fts5.parse expr with
  | none => rfl
  | some phrases =>
    simp only [Stepped.whole, Option.elim_none, Except.map, List.length_insertionSort,
      List.length_map, (sq.ties_perm _ _ _).length_eq]

/-- The error that ends the rows of a strategy's statement, if one does. -/
def rowsStop (sq : Sqlite) (q : Text) (db : Db) : SearchStrategy → Option SearchError
  | .trigramBm25 => (TrigramBm25.rows sq q db).stop
  | .substring => (Substring.rows sq q db).stop
  | .allTerms => (likeHits sq (AllTerms.patterns q) db).stop
  | _ => none

/-- What `match_count` answers: the number of rows, when nothing ends them. -/
def strategyCount (sq : Sqlite) (q : Text) (db : Db) (st : SearchStrategy) :
    Except SearchError ℕ :=
  (strategyRows sq q db st).bind fun rows =>
    (rowsStop sq q db st).elim (.ok (counted st rows)) .error

theorem strategyCount_select {q : Text} {st : SearchStrategy} (hst : ¬ RanksHits st)
    {s : Stepped Hit} (hrows : strategyRows sq q db st = .ok s.rows)
    (hstop : rowsStop sq q db st = s.stop) :
    strategyCount sq q db st = s.whole.map List.length := by
  rw [strategyCount, hrows, hstop, counted_of_not hst]
  obtain ⟨rows, stop⟩ := s
  cases stop <;> rfl

theorem eval_rangeCount_rows (col : Entry → Option Text) (key : Text) (upper : Option Text) :
    (rangeCount col key upper).eval (quiet db saved bits held) =
      (.ok (rangeRows col key upper db.entries).length, quiet db saved bits held) := by
  have hlen := (rangeRows_perm col key upper db.entries).length_eq
  rw [List.length_map, List.length_map] at hlen
  rw [rangeCount, Sql.eval_query, hlen]

include hf

/-- The count of a strategy that fetches its hits stops at `u32::MAX`. -/
theorem eval_strategyCount (st : SearchStrategy) {q : Text} (hq : q ≠ []) :
    ((buildStrategy sq st).matchCount q).eval (quiet db saved bits held) =
      (outcome (strategyCount sq q db st), quiet db saved bits held) := by
  cases st with
  | trigramBm25 =>
    rw [strategyCount_select db id rfl rfl]
    simp only [buildStrategy, TrigramBm25.algorithm, TrigramBm25.rows]
    split
    · exact eval_likeCount db saved bits held _
    · rw [eval_matchedCount, whole_map_length, rankedRows_length]
  | substring =>
    rw [strategyCount_select db id rfl rfl]
    simp only [buildStrategy, Substring.algorithm, Substring.rows]
    split
    · exact eval_likeCount db saved bits held _
    · rw [eval_matchedCount, whole_map_length]
  | prefixMatch =>
    exact eval_rangeCount_rows db saved bits held (fun en => some en.norm) q (rangeUpperBound q)
  | suffixMatch =>
    exact eval_rangeCount_rows db saved bits held Entry.normRev (reverseChars q)
      (rangeUpperBound (reverseChars q))
  | allTerms =>
    simp only [buildStrategy, AllTerms.algorithm]
    by_cases hempty : (AllTerms.patterns q).isEmpty = true
    · have hnil : AllTerms.patterns q = [] := List.isEmpty_iff.mp hempty
      have hnone : (likeHits sq [] db).stop = none := by
        rw [likeHits, Stepped.map, Sqlite.likeRows_stop, if_neg]
        simp [Sqlite.reachesLong]
      rw [if_pos hempty, strategyCount, strategyRows, if_pos hempty, rowsStop, hnil, hnone]
      rfl
    · rw [if_neg hempty, eval_prepared (eval_likeCount db saved bits held _)]
      by_cases hdeep : Sqlite.tooDeep (AllTerms.patterns q).length = true
      · rw [if_pos hdeep, strategyCount, strategyRows, if_neg hempty, if_pos hdeep]
        rfl
      · have hrows : strategyRows sq q db .allTerms =
            .ok (likeHits sq (AllTerms.patterns q) db).rows := by
          rw [strategyRows, if_neg hempty, if_neg hdeep]
        rw [if_neg hdeep, strategyCount_select db id hrows rfl]
  | fuzzyTrigram =>
    exact eval_defaultMatchCount (eval_strategySearch hf db saved bits held .fuzzyTrigram hq)
  | levenshtein =>
    exact eval_defaultMatchCount (eval_strategySearch hf db saved bits held .levenshtein hq)
  | damerauLevenshtein =>
    exact eval_defaultMatchCount (eval_strategySearch hf db saved bits held .damerauLevenshtein hq)

end Paged

/-- The statement that counts meets an error: an expression that is cut at U+0000, or a pattern
that is too long for `LIKE`. -/
def CountFails (q : Text) (db : Db) : SearchStrategy → Prop
  | .trigramBm25 | .substring => ¬ Searchable q
  | .allTerms => ∃ (id : Int64) (en : Entry), db.entries[id]? = some en ∧
    ReachesLong (splitWhitespace q) en.norm
  | _ => False

theorem not_countFails_of_ranksHits {st : SearchStrategy} (hst : RanksHits st) (q : Text) :
    ¬ CountFails q db st := by
  cases st with
  | fuzzyTrigram | levenshtein | damerauLevenshtein => exact id
  | trigramBm25 | substring | prefixMatch | suffixMatch | allTerms => exact hst.elim

theorem ListsFound.stop_iff {q : Text} {s : Stepped Hit} (h : ListsFound sq q db s) :
    s.stop = none ↔ Searchable q := by
  refine ⟨fun hnone => ?_, h.whole⟩
  by_contra hcut
  rw [h.cut hcut] at hnone
  cases hnone

variable (sq) in
theorem rowsStop_eq_none_iff (hs : Synced db) (q : Text) (st : SearchStrategy) :
    rowsStop sq q db st = none ↔ ¬ CountFails q db st := by
  cases st with
  | trigramBm25 => exact (trigramBm25_listsFound hs q).stop_iff.trans not_not.symm
  | substring => exact (substring_listsFound hs q).stop_iff.trans not_not.symm
  | allTerms =>
    rw [rowsStop, AllTerms.patterns, likeHits_stop_iff]
    simp only [CountFails, not_exists, not_and]
  | prefixMatch | suffixMatch | fuzzyTrigram | levenshtein | damerauLevenshtein =>
    exact iff_of_true rfl id

/-- The empty query has no statement that fails. -/
theorem rowsStop_nil (st : SearchStrategy) : rowsStop sq [] db st = none := by
  cases st with
  | trigramBm25 => exact (likeHits_short sq (q := []) (by decide) db).2
  | substring => exact (likeHits_short sq (q := []) (by decide) db).2
  | allTerms =>
    refine (likeHits_stop_iff sq db []).mpr ?_
    rintro id en _ ⟨before, t, after, h, _⟩
    exact absurd h.symm (by simp)
  | prefixMatch | suffixMatch | fuzzyTrigram | levenshtein | damerauLevenshtein => rfl

end Search

namespace SearchEngine

variable {env : Env} {e : SearchEngine} {query : Text} {db : Db} {bits : UInt8}

/-- The entry is found by the query: it matches, and the query is not empty once
normalized. -/
def Found (env : Env) (e : SearchEngine) (query : Text) (en : Entry) : Prop :=
  e.normalizer env query ≠ [] ∧ Matches env.sqlite (e.normalizer env query) en e.strategy

/-- The search for the query fails. -/
def Rejected (env : Env) (e : SearchEngine) (query : Text) : Prop :=
  Refused (e.normalizer env query) e.strategy

theorem matchedRows_spec (env : Env) (e : SearchEngine) (query : Text) (hs : Synced db) :
    (Rejected env e query → ∃ err, matchedRows env e query db = .error err) ∧
    (¬ Rejected env e query → ∃ rows, matchedRows env e query db = .ok rows ∧
      ∀ id, id ∈ rows.map Hit.id ↔ ∃ en, db.entries[id]? = some en ∧ Found env e query en) := by
  by_cases hq : e.normalizer env query = []
  · constructor
    · intro h
      rw [Rejected, hq] at h
      exact absurd h (not_refused_nil _)
    · intro _
      refine ⟨[], by rw [matchedRows, hq]; rfl, fun id => ?_⟩
      simp [Found, hq]
  · have hrows : matchedRows env e query db =
        strategyRows env.sqlite (e.normalizer env query) db e.strategy := by
      rw [matchedRows, if_neg fun h => hq (List.isEmpty_iff.mp h)]
    rw [hrows]
    simp only [Found, ne_eq, hq, not_false_iff, true_and]
    exact strategyRows_spec hs e.strategy

theorem matchedRows_sorted (hst : RanksHits e.strategy) {rows : List Hit}
    (h : matchedRows env e query db = .ok rows) : rows.Pairwise hitOrder := by
  unfold matchedRows at h
  split at h
  · rw [← Except.ok.inj h]
    exact List.Pairwise.nil
  · exact strategyRows_sorted hst h

/-- What `match_count` answers. -/
def countedRows (env : Env) (e : SearchEngine) (query : Text) (db : Db) : Except SearchError ℕ :=
  (matchedRows env e query db).bind fun rows =>
    (rowsStop env.sqlite (e.normalizer env query) db e.strategy).elim
      (.ok (counted e.strategy rows)) .error

theorem countedRows_ok {rows : List Hit} (hrows : matchedRows env e query db = .ok rows) {n : ℕ}
    (h : countedRows env e query db = .ok n) :
    rowsStop env.sqlite (e.normalizer env query) db e.strategy = none ∧
      counted e.strategy rows = n := by
  rw [countedRows, hrows] at h
  cases hstop : rowsStop env.sqlite (e.normalizer env query) db e.strategy with
  | none =>
    rw [hstop] at h
    exact ⟨rfl, Except.ok.inj h⟩
  | some err =>
    rw [hstop] at h
    cases h

/-! ### The calls run the strategy on the locked connection -/

section Locked

variable (env) (hq : ¬ (e.normalizer env query).isEmpty = true) (db : Db) (bits : UInt8)

include hq

theorem search_eval (limit : UInt32) :
    ((search env e query limit).run (quiet db none bits false)).1 =
      (((buildStrategy env.sqlite e.strategy).search (e.normalizer env query) limit).eval
        (quiet db none bits true)).1 := by
  simp only [search, if_neg hq, Prog.run, lockedConn, algorithm, eval_bind, eval_acquire_quiet,
    andThen_ok]

theorem searchPage_eval {perPage page offset : UInt32}
    (hoffset : checkedMul page perPage = some offset) :
    ((searchPage env e query perPage page).run (quiet db none bits false)).1 =
      (((buildStrategy env.sqlite e.strategy).searchPaged (e.normalizer env query) perPage
        offset).eval (quiet db none bits true)).1 := by
  simp only [searchPage, if_neg hq, hoffset, Prog.run, lockedConn, algorithm, eval_bind,
    eval_acquire_quiet, andThen_ok]

theorem matchCount_eval :
    ((matchCount env e query).run (quiet db none bits false)).1 =
      (((buildStrategy env.sqlite e.strategy).matchCount (e.normalizer env query)).eval
        (quiet db none bits true)).1 := by
  simp only [matchCount, if_neg hq, Prog.run, lockedConn, algorithm, eval_bind,
    eval_acquire_quiet, andThen_ok]

end Locked

section Answers

variable (hf : env.sqlite.rowFault = none) (e : SearchEngine) (query : Text) (db : Db)
  (bits : UInt8)

include hf

theorem search_run (n : UInt32) :
    ((search env e query n).run (quiet db none bits false)).1 =
      outcome ((matchedRows env e query db).map (limited n)) := by
  unfold matchedRows
  by_cases hq : (e.normalizer env query).isEmpty = true
  · simp only [search, hq, if_true, Prog.run, eval_pure, Except.map, outcome, limited,
      List.take_nil]
  · have hne : e.normalizer env query ≠ [] := mt List.isEmpty_iff.mpr hq
    rw [search_eval env hq, if_neg hq, eval_strategySearch hf db none bits true e.strategy hne]

theorem searchPage_run {perPage page : UInt32} (hpos : 0 < perPage)
    (hfit : (page.toNat + 1) * perPage.toNat < 2 ^ 32) :
    ((searchPage env e query perPage page).run (quiet db none bits false)).1 =
      outcome ((matchedRows env e query db).map fun rows =>
        (rows.drop (page.toNat * perPage.toNat)).take perPage.toNat) := by
  have hsplit : (page.toNat + 1) * perPage.toNat = page.toNat * perPage.toNat + perPage.toNat := by
    rw [Nat.add_mul, Nat.one_mul]
  obtain ⟨offset, hoffset, hvalue⟩ := checkedMul_some (a := page) (b := perPage) (by omega)
  unfold matchedRows
  by_cases hq : (e.normalizer env query).isEmpty = true
  · simp only [searchPage, hq, if_true, Prog.run, eval_pure, Except.map, outcome, List.drop_nil,
      List.take_nil]
  · have hne : e.normalizer env query ≠ [] := mt List.isEmpty_iff.mpr hq
    have hlimit : perPage ≠ 0 := fun h => by simp [h] at hpos
    have hroom : perPage.toNat + offset.toNat < 2 ^ 32 := by
      rw [hvalue]
      omega
    have hslice : slice perPage offset = fun rows =>
        (rows.drop (page.toNat * perPage.toNat)).take perPage.toNat := by
      funext rows
      rw [slice, limited, hvalue]
    rw [searchPage_eval env hq db bits hoffset, if_neg hq, ← hslice,
      eval_strategyPaged hf db none bits true e.strategy hne fun _ => ⟨hlimit, hroom⟩]

theorem matchCount_run :
    ((matchCount env e query).run (quiet db none bits false)).1 =
      outcome (countedRows env e query db) := by
  unfold countedRows matchedRows
  by_cases hq : (e.normalizer env query).isEmpty = true
  · rw [matchCount, if_pos hq, if_pos hq, List.isEmpty_iff.mp hq, rowsStop_nil]
    change Outcome.ok 0 = Outcome.ok (counted e.strategy [])
    rw [counted_eq e.strategy (Nat.zero_le _)]
    rfl
  · have hne : e.normalizer env query ≠ [] := mt List.isEmpty_iff.mpr hq
    rw [matchCount_eval env hq, if_neg hq, eval_strategyCount hf db none bits true e.strategy hne]
    rfl

end Answers

/-- `search`, `search_page` and `match_count` answer from one list, each document found once. -/
structure PagesPartition (env : Env) (e : SearchEngine) (query : Text) (db : Db) (bits : UInt8)
    (rows : List Hit) : Prop where
  search : ∀ n : UInt32, ((SearchEngine.search env e query n).run (quiet db none bits false)).1 =
    .ok (rows.take n.toNat)
  page : ∀ perPage page : UInt32, 0 < perPage → (page.toNat + 1) * perPage.toNat ≤ 2 ^ 32 - 1 →
    ((searchPage env e query perPage page).run (quiet db none bits false)).1 =
      .ok ((rows.drop (page.toNat * perPage.toNat)).take perPage.toNat)
  count : ((matchCount env e query).run (quiet db none bits false)).1 = .ok rows.length
  once : (rows.map Hit.id).Nodup
  found : ∀ id, id ∈ rows.map Hit.id ↔ ∃ en, db.entries[id]? = some en ∧ Found env e query en
  sorted : RanksHits e.strategy → rows.Pairwise hitOrder

section Partition

variable (hf : env.sqlite.rowFault = none) (hs : Synced db) (hsize : db.entries.size ≤ 2 ^ 32 - 1)
  (bits : UInt8)

include hf hs

theorem pagesPartition_of_rows (hsize : db.entries.size ≤ 2 ^ 32 - 1) {rows : List Hit}
    (hrows : matchedRows env e query db = .ok rows)
    (hcount : ¬ CountFails (e.normalizer env query) db e.strategy) :
    PagesPartition env e query db bits rows := by
  obtain ⟨hreject, hfound⟩ := matchedRows_spec env e query hs
  refine ⟨?_, ?_, ?_, stored_nodup (matchedRows_ok hs hrows).2, ?_,
    fun hst => matchedRows_sorted hst hrows⟩
  · intro n
    rw [search_run hf, hrows]
    rfl
  · intro perPage page hpos hfit
    rw [searchPage_run hf e query db bits hpos (by omega), hrows]
    rfl
  · have hle := (matchedRows_ok hs hrows).2.length_le
    rw [List.length_map, List.length_map, Std.ExtTreeMap.length_toList] at hle
    rw [matchCount_run hf e query db bits, countedRows, hrows,
      (rowsStop_eq_none_iff env.sqlite db hs _ _).mpr hcount]
    exact congrArg Outcome.ok (counted_eq e.strategy (hle.trans hsize))
  · by_cases h : Rejected env e query
    · obtain ⟨err, herr⟩ := hreject h
      rw [herr] at hrows
      cases hrows
    · obtain ⟨rows', hrows', hids⟩ := hfound h
      rw [hrows'] at hrows
      rw [← Except.ok.inj hrows]
      exact hids

theorem not_rejected_of_search {rows : List Hit} (n : UInt32)
    (h : ((search env e query n).run (quiet db none bits false)).1 = .ok rows) :
    ¬ Rejected env e query := by
  intro hr
  obtain ⟨err, hrows⟩ := (matchedRows_spec env e query hs).1 hr
  rw [search_run hf, hrows] at h
  cases h

theorem not_countFails_of_count {n : ℕ}
    (h : ((matchCount env e query).run (quiet db none bits false)).1 = .ok n) :
    ¬ CountFails (e.normalizer env query) db e.strategy := by
  rw [← rowsStop_eq_none_iff env.sqlite db hs]
  rw [matchCount_run hf e query db bits] at h
  cases hrows : matchedRows env e query db with
  | error err =>
    rw [countedRows, hrows] at h
    cases h
  | ok rows =>
    cases hcount : countedRows env e query db with
    | error err =>
      rw [hcount] at h
      cases h
    | ok m => exact (countedRows_ok hrows hcount).1

/-- The pages of a document search partition the documents found, just when the search and the
count are both answered. -/
theorem document_pages_partition_iff (hsize : db.entries.size ≤ 2 ^ 32 - 1) (e : SearchEngine)
    (query : Text) :
    (∃ rows, PagesPartition env e query db bits rows) ↔
      ¬ Refused (e.normalizer env query) e.strategy ∧
        ¬ CountFails (e.normalizer env query) db e.strategy := by
  constructor
  · rintro ⟨rows, h⟩
    exact ⟨not_rejected_of_search hf hs bits u32Max (h.search u32Max),
      not_countFails_of_count hf hs bits h.count⟩
  · rintro ⟨hanswered, hcount⟩
    obtain ⟨rows, hrows, _⟩ := (matchedRows_spec env e query hs).2 hanswered
    exact ⟨rows, pagesPartition_of_rows hf hs bits hsize hrows hcount⟩

end Partition

/-- Two documents under one prefix: each of the two pages of one hit shows one. -/
theorem document_pages_partition_swapped :
    ∃ rows, PagesPartition .ascii swappedEngine ['a'] swappedHost.file DEFAULT_FIELD_BITS rows :=
  have hfresh : Host.Ok .ascii {} := Host.fresh_ok
  have hsynced : Synced swappedHost.file := (Host.run_ok swappedActions hfresh).invariant.synced
  have hsize : swappedHost.file.entries.size ≤ 2 ^ 32 - 1 := by
    have hkeys := congrArg List.length swappedHost_pages.1.2.2.2.2
    rw [List.length_map, Std.ExtTreeMap.length_toList] at hkeys
    rw [hkeys]
    decide
  (document_pages_partition_iff rfl hsynced DEFAULT_FIELD_BITS hsize swappedEngine ['a']).mpr
    ⟨id, id⟩

def keepCaseEngine : SearchEngine := { options := { lowercase := false }, strategy := .substring }

/-- The search lists nothing, and the count is an error. -/
theorem keepCaseHost_cut :
    keepCaseHost.opened = some { engine := keepCaseEngine, fieldBits := DEFAULT_FIELD_BITS } ∧
      ((search .ascii keepCaseEngine cutQuery 10).run
        (quiet keepCaseHost.file none DEFAULT_FIELD_BITS false)).1 = .ok [] ∧
      ((matchCount .ascii keepCaseEngine cutQuery).run
        (quiet keepCaseHost.file none DEFAULT_FIELD_BITS false)).1 =
          .err (.db "unterminated string") := by
  decide +kernel

theorem document_pages_not_partition :
    ¬ ∀ (actions : List Action) (o : OpenEngine) (query : Text),
      (Host.run .ascii {} actions).opened = some o →
      (Host.run .ascii {} actions).file.entries.size ≤ 2 ^ 32 - 1 →
      ∃ rows, PagesPartition .ascii o.engine query (Host.run .ascii {} actions).file o.fieldBits
        rows := by
  intro h
  obtain ⟨hopened, _, hcount⟩ := keepCaseHost_cut
  obtain ⟨rows, hpart⟩ := h keepCaseActions _ cutQuery hopened keepCaseHost_hits.2
  have hlength := hpart.count
  change ((matchCount .ascii keepCaseEngine cutQuery).run
    (quiet keepCaseHost.file none DEFAULT_FIELD_BITS false)).1 = _ at hlength
  rw [hcount] at hlength
  cases hlength

end SearchEngine

end Unfydqry
