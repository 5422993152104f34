import Unfydqry.Search.Strategy

/-! # The complete list of rows a strategy yields

Every `search` is a prefix of one list that depends on the query and the file only;
`LIMIT` and `truncate` take the prefix. -/

namespace Unfydqry

open LockedStore Prog

/-- An answer that needs no further statement. -/
def outcome {α : Type} : Except SearchError α → Outcome SearchError α
  | .ok a => .ok a
  | .error e => .err e

namespace Search

namespace FuzzyTrigram

def shortRows (sq : Sqlite) (q : Text) (db : Db) : List Hit :=
  ((sq.scanAll db.entries).rows.filterMap fun r =>
    similarHit r.1 (exactMatchSimilarity q r.2.norm)).insertionSort hitOrder

def longRows (sq : Sqlite) (q : Text) (db : Db) : Except SearchError (List Hit) :=
  match buildFts5Or (trigrams q) with
  | none => .error (.db "internal: 3+ char query produced no trigrams")
  | some expr => (sq.matchRows expr db.docs).whole.map fun rows =>
    (rows.filterMap fun r =>
      similarHit r.1 (jaccard (trigrams q) (trigrams r.2))).insertionSort hitOrder

end FuzzyTrigram

def wordRows (sq : Sqlite) (dist : Text → Text → ℕ → Option ℕ) (q : Text) (db : Db) : List Hit :=
  ((sq.scanAll db.entries).rows.filterMap (wordHit dist q)).insertionSort hitOrder

/-- The rows a strategy reads; those that come with an error are skipped by the strategies
that answer with their `SELECT`. -/
def strategyRows (sq : Sqlite) (q : Text) (db : Db) : SearchStrategy → Except SearchError (List Hit)
  | .trigramBm25 => .ok (TrigramBm25.rows sq q db).rows
  | .substring => .ok (Substring.rows sq q db).rows
  | .prefixMatch => .ok (rangeRows (fun e => some e.norm) q (rangeUpperBound q) db.entries)
  | .suffixMatch =>
    .ok (rangeRows Entry.normRev (reverseChars q) (rangeUpperBound (reverseChars q)) db.entries)
  | .allTerms =>
    if (AllTerms.patterns q).isEmpty then .ok []
    else if Sqlite.tooDeep (AllTerms.patterns q).length then .error (sq.refusal .depth)
    else .ok (likeHits sq (AllTerms.patterns q) db).rows
  | .fuzzyTrigram =>
    if q.length < 3 then .ok (FuzzyTrigram.shortRows sq q db) else FuzzyTrigram.longRows sq q db
  | .levenshtein => .ok (wordRows sq levenshtein q db)
  | .damerauLevenshtein => .ok (wordRows sq osa q db)

/-- The two tables hold the same ids with the same text. -/
def Synced (db : Db) : Prop :=
  ∀ id : Int64, db.docs[id]? = db.entries[id]?.map Entry.norm

theorem docs_toList {db : Db} (hs : Synced db) :
    db.docs.toList = db.entries.toList.map fun r => (r.1, r.2.norm) := by
  have hdocs : db.docs = db.entries.map fun _ e => e.norm := by
    refine Table.ext_lookup fun id => ?_
    rw [Table.lookup_map, hs]
  rw [hdocs, Std.ExtTreeMap.toList_map]

variable {sq : Sqlite} (hf : sq.rowFault = none) (db : Db) (saved : Option Db) (bits : UInt8)
  (held : Bool)

theorem eval_tryQuery {α : Type} (f : Db → Except SearchError α) :
    (stmt (Sql.tryQuery f) : EngineM α).eval (quiet db saved bits held) =
      (outcome (f db), quiet db saved bits held) := by
  cases h : f db with
  | ok a =>
    apply eval_stmt_quiet_ok _ _ _ _
    rw [Sql.tryQuery, h]
    rfl
  | error e =>
    apply eval_stmt_quiet_error _ _ _ _
    rw [Sql.tryQuery, h]
    rfl

theorem eval_selectHits_step (sq : Sqlite) (limit offset : UInt32) (f : Db → Stepped Hit) :
    (selectHits sq limit offset f).eval (quiet db saved bits held) =
      (.ok (Stepped.filterOk (sq.step ((f db).limited limit.toNat offset.toNat)).results),
        quiet db saved bits held) := rfl

include hf

theorem eval_selectHits (limit offset : UInt32) (f : Db → Stepped Hit) :
    (selectHits sq limit offset f).eval (quiet db saved bits held) =
      (.ok (limited limit ((f db).rows.drop offset.toNat)), quiet db saved bits held) := by
  rw [eval_selectHits_step, Sqlite.step_calm hf, Stepped.filterOk_results]
  rfl

theorem eval_wordFuzzySearch (dist : Text → Text → ℕ → Option ℕ) (q : Text) (limit : UInt32) :
    (wordFuzzySearch sq dist q limit).eval (quiet db saved bits held) =
      (.ok (limited limit (wordRows sq dist q db)), quiet db saved bits held) := by
  rw [wordFuzzySearch, eval_tryQuery, Sqlite.step_calm hf, Stepped.collect_results]
  rfl

theorem eval_fuzzyTrigram {q : Text} (hq : q ≠ []) (limit : UInt32) :
    (FuzzyTrigram.search sq q limit).eval (quiet db saved bits held) =
      (outcome ((strategyRows sq q db .fuzzyTrigram).map (limited limit)),
        quiet db saved bits held) := by
  have hempty : q.isEmpty = false := List.isEmpty_eq_false_iff.mpr hq
  rw [FuzzyTrigram.search, hempty, if_neg (by simp), strategyRows]
  by_cases hlen : q.length < 3
  · rw [if_pos hlen, if_pos hlen, FuzzyTrigram.searchShort, eval_tryQuery, Sqlite.step_calm hf,
      Stepped.collect_results]
    rfl
  · rw [if_neg hlen, if_neg hlen, FuzzyTrigram.searchLong, FuzzyTrigram.longRows]
    cases buildFts5Or (trigrams q) with
    | none => rfl
    | some expr =>
      simp only [eval_tryQuery, Sqlite.step_calm hf, Stepped.collect_results]
      cases (sq.matchRows expr db.docs).whole <;> rfl

omit hf in
/-- A statement that is refused when it is prepared is not run. -/
theorem eval_prepared {α : Type} {n : ℕ} {run : EngineM α} {w : EngineWorld}
    {r : Except SearchError α} (hrun : run.eval w = (outcome r, w)) :
    (AllTerms.prepared sq n run).eval w =
      (outcome (if Sqlite.tooDeep n then .error (sq.refusal .depth) else r), w) := by
  unfold AllTerms.prepared
  split
  · exact eval_throw _ _
  · exact hrun

theorem eval_strategySearch (st : SearchStrategy) {q : Text} (hq : q ≠ []) (limit : UInt32) :
    ((buildStrategy sq st).search q limit).eval (quiet db saved bits held) =
      (outcome ((strategyRows sq q db st).map (limited limit)), quiet db saved bits held) := by
  cases st with
  | trigramBm25 => exact eval_selectHits hf db saved bits held limit 0 _
  | substring => exact eval_selectHits hf db saved bits held limit 0 _
  | prefixMatch => exact eval_selectHits hf db saved bits held limit 0 _
  | suffixMatch => exact eval_selectHits hf db saved bits held limit 0 _
  | allTerms =>
    simp only [buildStrategy, AllTerms.algorithm, strategyRows]
    split
    · simp only [eval_pure, Except.map, limited, List.take_nil]
      rfl
    · have hselect := eval_selectHits hf db saved bits held limit 0
        (likeHits sq (AllTerms.patterns q))
      rw [eval_prepared (r := .ok _) hselect]
      split <;> rfl
  | fuzzyTrigram => exact eval_fuzzyTrigram hf db saved bits held hq limit
  | levenshtein => exact eval_wordFuzzySearch hf db saved bits held _ q limit
  | damerauLevenshtein => exact eval_wordFuzzySearch hf db saved bits held _ q limit

omit hf

/-- The ids of the entries whose normalized text satisfies `p`. -/
def idsWhere (p : Text → Prop) [DecidablePred p] (db : Db) : List Int64 :=
  (db.entries.toList.filter fun r => p r.2.norm).map Prod.fst

/-- A search answers with exactly the ids whose normalized text satisfies `p`, each once. -/
def Finds (sq : Sqlite) (st : SearchStrategy) (q : Text) (limit : UInt32) (db : Db)
    (p : Text → Prop) [DecidablePred p] : Prop :=
  ∃ hits, (((buildStrategy sq st).search q limit).run
      (quiet db none DEFAULT_FIELD_BITS false)).1 = .ok hits ∧
    (hits.map Hit.id).Perm (idsWhere p db)

/-- `match_count` answers with the number of ids whose normalized text satisfies `p`. -/
def Counts (sq : Sqlite) (st : SearchStrategy) (q : Text) (db : Db) (p : Text → Prop)
    [DecidablePred p] : Prop :=
  (((buildStrategy sq st).matchCount q).run (quiet db none DEFAULT_FIELD_BITS false)).1 =
    .ok (idsWhere p db).length

theorem mem_filter_ids (f : Entry → Bool) (id : Int64) :
    id ∈ (db.entries.toList.filter fun r => f r.2).map Prod.fst ↔
      ∃ en, db.entries[id]? = some en ∧ f en = true := by
  rw [List.mem_map]
  constructor
  · rintro ⟨r, hr, rfl⟩
    obtain ⟨hmem, hf⟩ := List.mem_filter.mp hr
    exact ⟨r.2, (Table.mem_toList _ _ _).mp hmem, hf⟩
  · rintro ⟨en, hen, hf⟩
    exact ⟨(id, en), List.mem_filter.mpr ⟨(Table.mem_toList _ _ _).mpr hen, hf⟩, rfl⟩

theorem mem_idsWhere (p : Text → Prop) [DecidablePred p] (id : Int64) :
    id ∈ idsWhere p db ↔ ∃ en, db.entries[id]? = some en ∧ p en.norm := by
  rw [idsWhere, mem_filter_ids db fun en => decide (p en.norm)]
  simp only [decide_eq_true_iff]

section Exact

variable {p r : Text → Prop} [DecidablePred p] [DecidablePred r]

theorem idsWhere_perm_iff :
    (idsWhere r db).Perm (idsWhere p db) ↔
      ∀ (id : Int64) en, db.entries[id]? = some en → (r en.norm ↔ p en.norm) := by
  constructor
  · intro h id en hen
    have hmem := h.mem_iff (a := id)
    rw [mem_idsWhere, mem_idsWhere] at hmem
    simpa only [hen, Option.some.injEq, exists_eq_left'] using hmem
  · intro h
    refine List.Perm.of_eq ?_
    unfold idsWhere
    congr 1
    refine List.filter_congr fun x hx => ?_
    exact decide_eq_decide.mpr (h x.1 x.2 ((Table.mem_toList _ _ _).mp hx))

theorem idsWhere_length_le : (idsWhere p db).length ≤ db.entries.size := by
  have hle := List.length_filter_le (fun x : Int64 × Entry => decide (p x.2.norm))
    db.entries.toList
  rwa [Std.ExtTreeMap.length_toList, ← List.length_map Prod.fst] at hle

/-- When the strategy's list holds the entries that satisfy `r`, the search is exact for
`p` just when `r` and `p` hold of the same entries. -/
theorem finds_iff_of_ids (hf : sq.rowFault = none) {st : SearchStrategy} {q : Text} (hq : q ≠ [])
    {limit : UInt32} (hlimit : db.entries.size ≤ limit.toNat) {rows : List Hit}
    (hrows : strategyRows sq q db st = .ok rows)
    (hids : (rows.map Hit.id).Perm (idsWhere r db)) :
    Finds sq st q limit db p ↔
      ∀ (id : Int64) en, db.entries[id]? = some en → (r en.norm ↔ p en.norm) := by
  have hfit : rows.length ≤ limit.toNat := by
    have hlen := hids.length_eq
    rw [List.length_map] at hlen
    rw [hlen]
    exact (idsWhere_length_le db).trans hlimit
  have hrun : (((buildStrategy sq st).search q limit).run
      (quiet db none DEFAULT_FIELD_BITS false)).1 = .ok rows := by
    rw [Prog.run, eval_strategySearch hf db none _ _ st hq limit, hrows]
    simp only [Except.map, limited, List.take_of_length_le hfit, outcome]
  rw [← idsWhere_perm_iff]
  constructor
  · rintro ⟨hits, hok, hperm⟩
    rw [hrun, Outcome.ok.injEq] at hok
    subst hok
    exact hids.symm.trans hperm
  · intro hperm
    exact ⟨rows, hrun, hids.trans hperm⟩

variable (hpr : ∀ v, p v → r v)

include hpr

theorem idsWhere_length_eq_iff :
    (idsWhere r db).length = (idsWhere p db).length ↔
      ∀ (id : Int64) en, db.entries[id]? = some en → r en.norm → p en.norm := by
  have hiff := Table.filter_length_eq_iff db.entries.toList (p := fun x => decide (p x.2.norm))
    (q := fun x => decide (r x.2.norm)) fun x _ hx => by simpa using hpr _ (by simpa using hx)
  rw [idsWhere, idsWhere, List.length_map, List.length_map, hiff]
  constructor
  · intro h id en hen
    simpa using h (id, en) ((Table.mem_toList _ _ _).mpr hen)
  · intro h x hx
    simpa using h x.1 x.2 ((Table.mem_toList _ _ _).mp hx)

/-- A strategy that misses nothing is exact when it finds nothing else. -/
theorem finds_iff_of_rows (hf : sq.rowFault = none) {st : SearchStrategy} {q : Text} (hq : q ≠ [])
    {limit : UInt32} (hlimit : db.entries.size ≤ limit.toNat) {rows : List Hit}
    (hrows : strategyRows sq q db st = .ok rows)
    (hids : (rows.map Hit.id).Perm (idsWhere r db)) :
    Finds sq st q limit db p ↔
      ∀ (id : Int64) en, db.entries[id]? = some en → r en.norm → p en.norm := by
  rw [finds_iff_of_ids db hf hq hlimit hrows hids]
  refine forall_congr' fun id => forall_congr' fun en => imp_congr_right fun _ => ?_
  exact ⟨fun h => h.mp, fun h => ⟨h, hpr _⟩⟩

theorem counts_iff_of_rows {st : SearchStrategy} {q : Text}
    (hcount : (((buildStrategy sq st).matchCount q).run
      (quiet db none DEFAULT_FIELD_BITS false)).1 = .ok (idsWhere r db).length) :
    Counts sq st q db p ↔
      ∀ (id : Int64) en, db.entries[id]? = some en → r en.norm → p en.norm := by
  rw [Counts, hcount, Outcome.ok.injEq, idsWhere_length_eq_iff db hpr]

end Exact

end Search

end Unfydqry
