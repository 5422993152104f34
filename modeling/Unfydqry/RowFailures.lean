import Unfydqry.PageBounds

/-! # A failure while the rows of a search are read

A strategy that ranks its hits reads every row and answers with the first error. The
statements with a `LIMIT` keep the rows that could be read, so a failing step, also one that
fails of itself, only shortens the answer. -/

namespace Unfydqry

open LockedStore Prog SearchEngine Search

namespace Search

/-- The steps of a statement, whatever its rows are. -/
def stepsOf {α : Type} (s : Stepped α) : Stepped Unit := s.map fun _ => ()

/-- The steps of the statement of a search, when it runs one. -/
def stepped (sq : Sqlite) (st : SearchStrategy) (q : Text) (limit offset : UInt32) (db : Db) :
    Option (Stepped Unit) :=
  match st with
  | .trigramBm25 =>
    some (stepsOf ((TrigramBm25.rows sq q db).limited limit.toNat offset.toNat))
  | .substring => some (stepsOf ((Substring.rows sq q db).limited limit.toNat offset.toNat))
  | .prefixMatch =>
    let rows := rangeRows (fun e => some e.norm) q (rangeUpperBound q) db.entries
    some (stepsOf ((Stepped.mk rows none).limited limit.toNat offset.toNat))
  | .suffixMatch =>
    let rows := rangeRows Entry.normRev (reverseChars q) (rangeUpperBound (reverseChars q))
      db.entries
    some (stepsOf ((Stepped.mk rows none).limited limit.toNat offset.toNat))
  | .allTerms =>
    if (AllTerms.patterns q).isEmpty then none
    else if Sqlite.tooDeep (AllTerms.patterns q).length then none
    else some (stepsOf ((likeHits sq (AllTerms.patterns q) db).limited limit.toNat offset.toNat))
  | .fuzzyTrigram =>
    if q.length < 3 then some (stepsOf (sq.scanAll db.entries))
    else (buildFts5Or (trigrams q)).map fun expr => stepsOf (sq.matchRows expr db.docs)
  | .levenshtein | .damerauLevenshtein => some (stepsOf (sq.scanAll db.entries))

/-- The steps of the statement of a page. -/
def pageStepped (sq : Sqlite) (st : SearchStrategy) (q : Text) (limit offset : UInt32) (db : Db) :
    Option (Stepped Unit) :=
  match st with
  | .fuzzyTrigram | .levenshtein | .damerauLevenshtein =>
    if limit = 0 then none
    else (checkedAdd limit offset).bind fun total => stepped sq st q total 0 db
  | .trigramBm25 | .substring | .prefixMatch | .suffixMatch | .allTerms =>
    stepped sq st q limit offset db

/-- A step fails: row `k` is one of the steps, the last of which finds the end of the rows, or
an error of the statement's own ends them. -/
def Meets (k : ℕ) (steps : Option (Stepped Unit)) : Prop :=
  ∃ s, steps = some s ∧ (k ≤ s.rows.length ∨ s.stop ≠ none)

theorem not_meets_none (k : ℕ) : ¬ Meets k none := by
  rintro ⟨s, hs, _⟩
  cases hs

theorem meets_some {α : Type} (k : ℕ) (s : Stepped α) :
    Meets k (some (stepsOf s)) ↔ k ≤ s.rows.length ∨ s.stop ≠ none := by
  have hlength : (stepsOf s).rows.length = s.rows.length := List.length_map _
  constructor
  · rintro ⟨t, ht, hk⟩
    rwa [← Option.some.inj ht, hlength] at hk
  · intro h
    exact ⟨stepsOf s, rfl, by rwa [hlength]⟩

/-- What a failure at row `k` makes of the answer of a search. -/
structure Failure (st : SearchStrategy) (k : ℕ) (steps : Option (Stepped Unit))
    (calm faulty : Outcome SearchError (List Hit) × EngineWorld) : Prop where
  unseen : ¬ Meets k steps → faulty = calm
  reported : RanksHits st → Meets k steps → ∃ err, faulty.1 = .err err
  cut : ¬ RanksHits st → Meets k steps → ∃ hits, faulty.1 = .ok hits

section Failing

variable {sq : Sqlite} (hf : sq.rowFault = none) (k : ℕ) (err : SearchError) {st : SearchStrategy}

theorem failure_none (x : Outcome SearchError (List Hit) × EngineWorld) :
    Failure st k none x x where
  unseen _ := rfl
  reported _ h := absurd h (not_meets_none k)
  cut _ h := absurd h (not_meets_none k)

include hf

theorem selectHits_failure (hst : ¬ RanksHits st) (limit offset : UInt32) (f : Db → Stepped Hit)
    (db : Db) (saved : Option Db) (bits : UInt8) (held : Bool) :
    Failure st k (some (stepsOf ((f db).limited limit.toNat offset.toNat)))
      ((selectHits sq limit offset f).eval (quiet db saved bits held))
      ((selectHits (sq.failingAt k err) limit offset f).eval (quiet db saved bits held)) where
  unseen h := by
    rw [meets_some, not_or, Nat.not_le] at h
    rw [eval_selectHits_step, eval_selectHits_step, sq.step_beyond err h.1, Sqlite.step_calm hf]
  reported hranks := absurd hranks hst
  cut _ _ := ⟨_, rfl⟩

theorem collect_failure (hst : RanksHits st) {α : Type} (s : Stepped α) (g : List α → List Hit)
    (w : EngineWorld) :
    Failure st k (some (stepsOf s))
      (outcome ((Stepped.collect (sq.step s).results).map g), w)
      (outcome ((Stepped.collect ((sq.failingAt k err).step s).results).map g), w) where
  unseen h := by
    rw [meets_some, not_or, Nat.not_le] at h
    rw [sq.step_beyond err h.1, Sqlite.step_calm hf]
  reported _ h := by
    rw [meets_some] at h
    rw [Stepped.collect_results]
    by_cases hk : k ≤ s.rows.length
    · rw [sq.whole_failingAt err hk]
      exact ⟨err, rfl⟩
    · obtain ⟨e, he⟩ := Option.ne_none_iff_exists'.mp (h.resolve_left hk)
      rw [sq.step_beyond err (Nat.not_le.mp hk), Stepped.whole, he]
      exact ⟨e, rfl⟩
  cut h := absurd hst h

theorem wordFuzzySearch_failure (hst : RanksHits st) (dist : Text → Text → ℕ → Option ℕ)
    (q : Text) (limit : UInt32) (db : Db) (saved : Option Db) (bits : UInt8) (held : Bool) :
    Failure st k (some (stepsOf (sq.scanAll db.entries)))
      ((wordFuzzySearch sq dist q limit).eval (quiet db saved bits held))
      ((wordFuzzySearch (sq.failingAt k err) dist q limit).eval (quiet db saved bits held)) := by
  rw [wordFuzzySearch, wordFuzzySearch, eval_tryQuery, eval_tryQuery]
  exact collect_failure hf k err hst (sq.scanAll db.entries) _ _

theorem fuzzyTrigram_failure {q : Text} (hq : q ≠ []) (limit : UInt32) (db : Db)
    (saved : Option Db) (bits : UInt8) (held : Bool) :
    Failure .fuzzyTrigram k (stepped sq .fuzzyTrigram q limit 0 db)
      ((FuzzyTrigram.search sq q limit).eval (quiet db saved bits held))
      ((FuzzyTrigram.search (sq.failingAt k err) q limit).eval (quiet db saved bits held)) := by
  have hempty : q.isEmpty = false := List.isEmpty_eq_false_iff.mpr hq
  have hranks : RanksHits .fuzzyTrigram := trivial
  simp only [FuzzyTrigram.search, hempty, Bool.false_eq_true, if_false, stepped]
  by_cases hlen : q.length < 3
  · simp only [if_pos hlen, FuzzyTrigram.searchShort, eval_tryQuery]
    exact collect_failure hf k err hranks (sq.scanAll db.entries) _ _
  · simp only [if_neg hlen, FuzzyTrigram.searchLong]
    cases buildFts5Or (trigrams q) with
    | none => exact failure_none k _
    | some expr =>
      simp only [eval_tryQuery, Option.map_some]
      exact collect_failure hf k err hranks (sq.matchRows expr db.docs) _ _

omit hf in
theorem likeHits_failingAt (sq : Sqlite) (patterns : List Text) :
    likeHits (sq.failingAt k err) patterns = likeHits sq patterns := by
  have hcond : ∀ norm, (sq.failingAt k err).likeAll norm patterns = sq.likeAll norm patterns := by
    intro norm
    rw [Sqlite.likeAll_eq, Sqlite.likeAll_eq]
    rfl
  funext db
  simp only [likeHits, Sqlite.likeRows, hcond]
  rfl

omit hf in
/-- A refused statement steps nothing, whatever would fail. -/
theorem prepared_failure {n : ℕ} {steps : Stepped Unit} {run run' : EngineM (List Hit)}
    {w : EngineWorld} (h : Failure st k (some steps) (run.eval w) (run'.eval w)) :
    Failure st k (if Sqlite.tooDeep n then none else some steps)
      ((AllTerms.prepared sq n run).eval w)
      ((AllTerms.prepared (sq.failingAt k err) n run').eval w) := by
  unfold AllTerms.prepared
  split
  · exact failure_none k _
  · exact h

theorem select_failure (hst : ¬ RanksHits st) (q : Text) (limit offset : UInt32) (db : Db)
    (saved : Option Db) (bits : UInt8) (held : Bool) :
    Failure st k (stepped sq st q limit offset db)
      (((buildStrategy sq st).searchPaged q limit offset).eval (quiet db saved bits held))
      (((buildStrategy (sq.failingAt k err) st).searchPaged q limit offset).eval
        (quiet db saved bits held)) := by
  have hselect := fun f => selectHits_failure hf k err hst limit offset f db saved bits held
  cases st with
  | trigramBm25 => exact hselect (TrigramBm25.rows sq q)
  | substring => exact hselect (Substring.rows sq q)
  | prefixMatch =>
    exact hselect fun db =>
      { rows := rangeRows (fun e => some e.norm) q (rangeUpperBound q) db.entries }
  | suffixMatch =>
    exact hselect fun db =>
      { rows := rangeRows Entry.normRev (reverseChars q) (rangeUpperBound (reverseChars q))
          db.entries }
  | allTerms =>
    simp only [buildStrategy, AllTerms.algorithm, stepped, likeHits_failingAt]
    split
    · exact failure_none k _
    · exact prepared_failure k err (hselect (likeHits sq (AllTerms.patterns q)))
  | fuzzyTrigram | levenshtein | damerauLevenshtein => exact absurd trivial hst

theorem rank_failure (hst : RanksHits st) {q : Text} (hq : q ≠ []) (limit : UInt32) (db : Db)
    (saved : Option Db) (bits : UInt8) (held : Bool) :
    Failure st k (stepped sq st q limit 0 db)
      (((buildStrategy sq st).search q limit).eval (quiet db saved bits held))
      (((buildStrategy (sq.failingAt k err) st).search q limit).eval
        (quiet db saved bits held)) := by
  have hword := fun dist => wordFuzzySearch_failure hf k err hst dist q limit db saved bits held
  cases st with
  | fuzzyTrigram => exact fuzzyTrigram_failure hf k err hq limit db saved bits held
  | levenshtein => exact hword levenshtein
  | damerauLevenshtein => exact hword osa
  | trigramBm25 | substring | prefixMatch | suffixMatch | allTerms => exact hst.elim

omit hf in
/-- A statement without an offset is the one with offset zero. -/
theorem search_eq_paged (sq : Sqlite) (hst : ¬ RanksHits st) (q : Text) (limit : UInt32) :
    (buildStrategy sq st).search q limit = (buildStrategy sq st).searchPaged q limit 0 := by
  cases st with
  | trigramBm25 | substring | prefixMatch | suffixMatch | allTerms => rfl
  | fuzzyTrigram | levenshtein | damerauLevenshtein => exact absurd trivial hst

theorem search_failure (st : SearchStrategy) {q : Text} (hq : q ≠ []) (limit : UInt32) (db : Db)
    (saved : Option Db) (bits : UInt8) (held : Bool) :
    Failure st k (stepped sq st q limit 0 db)
      (((buildStrategy sq st).search q limit).eval (quiet db saved bits held))
      (((buildStrategy (sq.failingAt k err) st).search q limit).eval
        (quiet db saved bits held)) := by
  by_cases hst : RanksHits st
  · exact rank_failure hf k err hst hq limit db saved bits held
  · rw [search_eq_paged sq hst, search_eq_paged (sq.failingAt k err) hst]
    exact select_failure hf k err hst q limit 0 db saved bits held

omit hf in
theorem pageStepped_of_ranksHits (sq : Sqlite) (hst : RanksHits st) (q : Text)
    (limit offset : UInt32) (db : Db) :
    pageStepped sq st q limit offset db =
      if limit = 0 then none
      else (checkedAdd limit offset).bind fun total => stepped sq st q total 0 db := by
  cases st with
  | fuzzyTrigram | levenshtein | damerauLevenshtein => rfl
  | trigramBm25 | substring | prefixMatch | suffixMatch | allTerms => exact hst.elim

omit hf in
theorem pageStepped_of_not (sq : Sqlite) (hst : ¬ RanksHits st) (q : Text)
    (limit offset : UInt32) (db : Db) :
    pageStepped sq st q limit offset db = stepped sq st q limit offset db := by
  cases st with
  | trigramBm25 | substring | prefixMatch | suffixMatch | allTerms => rfl
  | fuzzyTrigram | levenshtein | damerauLevenshtein => exact absurd trivial hst

theorem searchPaged_failure (st : SearchStrategy) {q : Text} (hq : q ≠ []) (limit offset : UInt32)
    (db : Db) (saved : Option Db) (bits : UInt8) (held : Bool) :
    Failure st k (pageStepped sq st q limit offset db)
      (((buildStrategy sq st).searchPaged q limit offset).eval (quiet db saved bits held))
      (((buildStrategy (sq.failingAt k err) st).searchPaged q limit offset).eval
        (quiet db saved bits held)) := by
  by_cases hst : RanksHits st
  · rw [searchPaged_of_ranksHits sq hst, searchPaged_of_ranksHits (sq.failingAt k err) hst,
      pageStepped_of_ranksHits sq hst, defaultSearchPaged, defaultSearchPaged]
    by_cases hlimit : limit = 0
    · rw [if_pos hlimit, if_pos hlimit, if_pos hlimit]
      exact failure_none k _
    · rw [if_neg hlimit, if_neg hlimit, if_neg hlimit]
      cases checkedAdd limit offset with
      | none => exact failure_none k _
      | some total =>
        have hsearch := rank_failure hf k err hst hq total db saved bits held
        simp only [Option.bind_some, eval_bind]
        refine ⟨fun h => ?_, fun _ h => ?_, fun h => absurd hst h⟩
        · rw [hsearch.unseen h]
        · obtain ⟨err', herr⟩ := hsearch.reported hst h
          exact ⟨err', andThen_of_err _ herr⟩
  · rw [pageStepped_of_not sq hst]
    exact select_failure hf k err hst q limit offset db saved bits held

end Failing

end Search

/-- The same environment with stepping a `SELECT` failing at row `k`. -/
def Env.failingAt (env : Env) (k : ℕ) (err : SearchError) : Env :=
  { env with sqlite := env.sqlite.failingAt k err }

namespace SearchEngine

/-- How many rows the statement of `search` yields, when it steps one. -/
def searchSteps (env : Env) (e : SearchEngine) (query : Text) (limit : UInt32) (db : Db) :
    Option (Stepped Unit) :=
  let q := e.normalizer env query
  if q.isEmpty then none else stepped env.sqlite e.strategy q limit 0 db

def pageSteps (env : Env) (e : SearchEngine) (query : Text) (perPage page : UInt32) (db : Db) :
    Option (Stepped Unit) :=
  let q := e.normalizer env query
  if q.isEmpty then none
  else (checkedMul page perPage).bind fun offset =>
    pageStepped env.sqlite e.strategy q perPage offset db

def recordSteps (env : Env) (e : SearchEngine) (query : Text) (limit fieldsPerRecord : UInt32)
    (db : Db) : Option (Stepped Unit) :=
  searchSteps env e query (saturatingMul limit (atLeastOne fieldsPerRecord)) db

/-- A failure while the rows are read is reported: the call fails when it meets the failure, and
never answers with fewer hits than without it. -/
structure Reports {α : Type} (env : Env) (db : Db) (bits : UInt8) (k : ℕ) (err : SearchError)
    (steps : Option (Stepped Unit)) (call : Env → EngineM (List α)) : Prop where
  failed : Meets k steps → ∃ err',
    ((call (env.failingAt k err)).run (quiet db none bits false)).1 = .err err'
  whole : ∀ hits short, ((call env).run (quiet db none bits false)).1 = .ok hits →
    ((call (env.failingAt k err)).run (quiet db none bits false)).1 = .ok short →
    hits.length ≤ short.length

variable {env : Env} {e : SearchEngine} {query : Text} {db : Db} {bits : UInt8} {k : ℕ}
  {err : SearchError}

/-- A call that steps no statement meets no failure. -/
theorem reports_none {α : Type} {call : Env → EngineM (List α)} {ranks : Prop}
    (hsame : call (env.failingAt k err) = call env) :
    Reports env db bits k err none call ↔ (Meets k none → ranks) := by
  refine iff_of_true ⟨fun h => absurd h (not_meets_none k), fun hits short hhits hshort => ?_⟩
    fun h => absurd h (not_meets_none k)
  rw [hsame, hhits, Outcome.ok.injEq] at hshort
  rw [hshort]

/-- A query with no key steps no statement. -/
theorem reports_empty {α : Type} {e : SearchEngine} {query : Text}
    {call : Env → EngineM (List α)} {ranks : Prop}
    (hq : (e.normalizer env query).isEmpty = true)
    (hnone : ∀ env', (e.normalizer env' query).isEmpty = true → call env' = pure []) :
    Reports env db bits k err none call ↔ (Meets k none → ranks) :=
  reports_none ((hnone (env.failingAt k err) hq).trans (hnone env hq).symm)

/-- What follows the search reports nothing itself, so the call reports what the search does. -/
theorem reports_of_failure {α : Type} {st : SearchStrategy} {steps : Option (Stepped Unit)}
    {calm faulty : Outcome SearchError (List Hit) × EngineWorld} {call : Env → EngineM (List α)}
    {f : List Hit → EngineM (List α)} (hfail : Failure st k steps calm faulty)
    (herrless : ∀ hits, (f hits).Errless)
    (hcalm : ((call env).run (quiet db none bits false)).1 = (andThen calm f).1)
    (hfaulty : ((call (env.failingAt k err)).run (quiet db none bits false)).1 =
      (andThen faulty f).1) :
    Reports env db bits k err steps call ↔ (Meets k steps → RanksHits st) := by
  constructor
  · intro h hmeets
    obtain ⟨err', herr⟩ := h.failed hmeets
    by_contra hst
    obtain ⟨hits, hhits⟩ := hfail.cut hst hmeets
    rw [hfaulty, andThen_of_ok f hhits] at herr
    exact herrless _ _ _ herr
  · intro h
    by_cases hmeets : Meets k steps
    · obtain ⟨err', herr'⟩ := hfail.reported (h hmeets) hmeets
      have herr := andThen_of_err f herr'
      rw [← hfaulty] at herr
      refine ⟨fun _ => ⟨err', herr⟩, fun hits short _ hshort => ?_⟩
      rw [herr] at hshort
      cases hshort
    · refine ⟨fun h' => absurd h' hmeets, fun hits short hhits hshort => ?_⟩
      rw [hfaulty, hfail.unseen hmeets, ← hcalm, hhits, Outcome.ok.injEq] at hshort
      rw [hshort]

/-! ### The three calls -/

/-- The records of the hits read. -/
def recordsFrom (limit : UInt32) (hits : List Hit) : EngineM (List RecordHit) := do
  Prog.release
  let decoded ← Prog.traverse decode hits
  pure (limited limit (collapse decoded))

theorem searchRecords_eval (env : Env) {e : SearchEngine} {query : Text}
    (hq : ¬ (e.normalizer env query).isEmpty = true) (limit perRecord : UInt32) (db : Db)
    (bits : UInt8) :
    ((searchRecords env e query limit perRecord).run (quiet db none bits false)).1 =
      (andThen (((buildStrategy env.sqlite e.strategy).search (e.normalizer env query)
        (saturatingMul limit (atLeastOne perRecord))).eval (quiet db none bits true))
        (recordsFrom limit)).1 := by
  simp only [searchRecords, if_neg hq, Prog.run, lockedConn, algorithm, eval_bind,
    eval_acquire_quiet, andThen_ok]
  rfl

/-- Collapsing hits into records may panic on the width, but reports no error. -/
theorem recordsFrom_errless (limit : UInt32) (hits : List Hit) :
    (recordsFrom limit hits).Errless := by
  have hdecode : ∀ h, (decode h).Errless := by
    intro h
    refine errless_bind (errless_bind errless_read fun _ => errless_trap _) fun _ => ?_
    refine errless_bind ?_ fun _ => errless_pure _
    exact errless_bind errless_read fun _ =>
      errless_bind (errless_trap _) fun _ => errless_pure _
  exact errless_bind errless_release fun _ =>
    errless_bind (errless_traverse hdecode hits) fun _ => errless_pure _

section Calls

variable (hf : env.sqlite.rowFault = none) (e : SearchEngine) (query : Text) (db : Db)
  (bits : UInt8) (k : ℕ) (err : SearchError)

include hf

theorem search_reports_iff (limit : UInt32) :
    Reports env db bits k err (searchSteps env e query limit db)
        (fun env => search env e query limit) ↔
      (Meets k (searchSteps env e query limit db) → RanksHits e.strategy) := by
  unfold searchSteps
  by_cases hq : (e.normalizer env query).isEmpty = true
  · rw [if_pos hq]
    exact reports_empty hq fun env' h => if_pos h
  · have hne : e.normalizer env query ≠ [] := mt List.isEmpty_iff.mpr hq
    rw [if_neg hq]
    have hsearch := search_failure hf k err e.strategy hne limit db none bits true
    refine reports_of_failure hsearch errless_pure ?_ ?_
    · rw [search_eval env hq, andThen_pure]
    · rw [search_eval (env.failingAt k err) hq, andThen_pure]
      rfl

theorem searchPage_reports_iff (perPage page : UInt32) :
    Reports env db bits k err (pageSteps env e query perPage page db)
        (fun env => searchPage env e query perPage page) ↔
      (Meets k (pageSteps env e query perPage page db) → RanksHits e.strategy) := by
  unfold pageSteps
  by_cases hq : (e.normalizer env query).isEmpty = true
  · rw [if_pos hq]
    exact reports_empty hq fun env' h => if_pos h
  · have hne : e.normalizer env query ≠ [] := mt List.isEmpty_iff.mpr hq
    rw [if_neg hq]
    cases hoffset : checkedMul page perPage with
    | none =>
      refine reports_none ?_
      simp only [searchPage, hoffset]
      rfl
    | some offset =>
      have hpaged :=
        searchPaged_failure hf k err e.strategy hne perPage offset db none bits true
      refine reports_of_failure hpaged errless_pure ?_ ?_
      · rw [searchPage_eval env hq db bits hoffset, andThen_pure]
      · rw [searchPage_eval (env.failingAt k err) hq db bits hoffset, andThen_pure]
        rfl

theorem searchRecords_reports_iff (limit perRecord : UInt32) :
    Reports env db bits k err (recordSteps env e query limit perRecord db)
        (fun env => searchRecords env e query limit perRecord) ↔
      (Meets k (recordSteps env e query limit perRecord db) → RanksHits e.strategy) := by
  unfold recordSteps searchSteps
  by_cases hq : (e.normalizer env query).isEmpty = true
  · rw [if_pos hq]
    exact reports_empty hq fun env' h => if_pos h
  · have hne : e.normalizer env query ≠ [] := mt List.isEmpty_iff.mpr hq
    rw [if_neg hq]
    exact reports_of_failure (search_failure hf k err e.strategy hne _ db none bits true)
      (recordsFrom_errless limit) (searchRecords_eval env hq limit perRecord db bits)
      (searchRecords_eval (env.failingAt k err) hq limit perRecord db bits)

/-- A failing row is reported just when the strategy ranks its hits, or the failure comes after
the last step of the call's statement, where nothing meets it. -/
theorem row_failure_reported_iff :
    (∀ limit, Reports env db bits k err (searchSteps env e query limit db)
        (fun env => search env e query limit) ↔
      (Meets k (searchSteps env e query limit db) → RanksHits e.strategy)) ∧
    (∀ perPage page, Reports env db bits k err (pageSteps env e query perPage page db)
        (fun env => searchPage env e query perPage page) ↔
      (Meets k (pageSteps env e query perPage page db) → RanksHits e.strategy)) ∧
    ∀ limit perRecord, Reports env db bits k err (recordSteps env e query limit perRecord db)
        (fun env => searchRecords env e query limit perRecord) ↔
      (Meets k (recordSteps env e query limit perRecord db) → RanksHits e.strategy) :=
  ⟨search_reports_iff hf e query db bits k err, searchPage_reports_iff hf e query db bits k err,
    searchRecords_reports_iff hf e query db bits k err⟩

end Calls

/-- Edit distance reports a failure at the first row, also to the record layer. -/
theorem row_failure_reported_first :
    Reports .ascii lastPageHost.file DEFAULT_FIELD_BITS 0 (.db "disk I/O error")
      (recordSteps .ascii lastPageEngine ['a'] 1 1 lastPageHost.file)
      (fun env => searchRecords env lastPageEngine ['a'] 1 1) := by
  have hf : Env.ascii.sqlite.rowFault = none := rfl
  obtain ⟨_, _, hrecords⟩ := row_failure_reported_iff hf lastPageEngine ['a'] lastPageHost.file
    DEFAULT_FIELD_BITS 0 (.db "disk I/O error")
  exact (hrecords 1 1).mpr fun _ => trivial

/-- A prefix search finds two fields; with the second row failing it answers with one. -/
theorem swappedHost_cut :
    swappedHost.opened = some { engine := swappedEngine, fieldBits := DEFAULT_FIELD_BITS } ∧
      searchSteps .ascii swappedEngine ['a'] 10 swappedHost.file = some { rows := [(), ()] } ∧
      ((search .ascii swappedEngine ['a'] 10).run
          (quiet swappedHost.file none DEFAULT_FIELD_BITS false)).1 =
        .ok [{ id := 512, score := 0 }, { id := 256, score := 0 }] ∧
      ((search (Env.ascii.failingAt 1 (.db "disk I/O error")) swappedEngine ['a'] 10).run
          (quiet swappedHost.file none DEFAULT_FIELD_BITS false)).1 =
        .ok [{ id := 512, score := 0 }] := by
  decide +kernel

theorem row_failure_not_reported :
    ¬ ∀ (actions : List Action) (o : OpenEngine) (query : Text) (limit : UInt32) (k : ℕ)
      (err : SearchError), (Host.run .ascii {} actions).opened = some o →
      Reports .ascii (Host.run .ascii {} actions).file o.fieldBits k err
        (searchSteps .ascii o.engine query limit (Host.run .ascii {} actions).file)
        (fun env => search env o.engine query limit) := by
  intro h
  obtain ⟨hopened, hsteps, _, hcut⟩ := swappedHost_cut
  have hfailed := (h swappedActions _ ['a'] 10 1 (.db "disk I/O error") hopened).failed
  obtain ⟨err', herr⟩ := hfailed ⟨_, hsteps, .inl (by decide)⟩
  change ((search (Env.ascii.failingAt 1 (.db "disk I/O error")) swappedEngine ['a'] 10).run
    (quiet swappedHost.file none DEFAULT_FIELD_BITS false)).1 = _ at herr
  rw [hcut] at herr
  cases herr

end SearchEngine

end Unfydqry
