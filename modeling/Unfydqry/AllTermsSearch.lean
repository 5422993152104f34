import Unfydqry.DocumentPages

/-! # Every term in the document

The statement of `search/all_terms.rs` as it is written: a clause with one numbered parameter
for each escaped term, followed by the parameters of `LIMIT` and `OFFSET`. It selects the
entries that contain every term literally, as far as SQLite takes that many terms and patterns
of that length and `LIKE` reads the texts to their ends. -/

namespace Unfydqry.Search

open LockedStore Prog

namespace AllTerms

/-- A value bound to a parameter. -/
inductive Bound where
  | text (t : Text)
  | number (n : UInt32)
  deriving Repr, DecidableEq

/-- The value of the parameter `?i`; the first one is `?1`. -/
def param (binds : List Bound) (i : ℕ) : Option Bound := if i = 0 then none else binds[i - 1]?

/-- The pattern `'%'||?i||'%'`, when the parameter has a value. -/
def paramPattern (binds : List Bound) (i : ℕ) : Option Text :=
  match param binds i with
  | some (.text t) => some (Like.containsPattern t)
  | some (.number n) => some (Like.containsPattern (toString n).toList)
  | none => none

/-- `like_and_clause(n)`: the parameters of its conditions, in order. -/
def likeAndClause (n : ℕ) : List ℕ := List.range' 1 n

/-- The conditions of the clause, evaluated from the left up to the first that does not hold;
`LIKE` with a missing value does not. -/
def clauseHolds (sq : Sqlite) (binds : List Bound) (norm : Text) :
    List ℕ → Except SearchError Bool
  | [] => .ok true
  | i :: clause =>
    match paramPattern binds i with
    | none => .ok false
    | some p =>
      if Like.tooLong p then .error (sq.refusal .pattern)
      else if Like.isMatch p norm then clauseHolds sq binds norm clause
      else .ok false

/-- The number bound to a parameter after `LIMIT` or `OFFSET`. -/
def paramNumber (binds : List Bound) (i : ℕ) : Option UInt32 :=
  match param binds i with
  | some (.number n) => some n
  | _ => none

/-- The rows of `entries` under the clause, for the statement `sql`. -/
def selectRows (sq : Sqlite) (sql : String) (binds : List Bound) (clause : List ℕ)
    (entries : Entries) : Stepped (Int64 × Entry) :=
  .select (fun r => clauseHolds sq binds r.2.norm clause)
    (sq.scan sql (clause.filterMap (paramPattern binds)) entries)

/-- The number of parameters a statement has: the greatest it names. -/
def paramCount (indices : List ℕ) : ℕ := indices.foldl max 0

/-- The error of a statement that is given too many or too few values. -/
def wrongCount (given needed : ℕ) : SearchError :=
  .db s!"Wrong number of parameters passed to query. Got {given}, needed {needed}"

/-- `SELECT id FROM entries WHERE {clause} LIMIT ?{limit_idx} OFFSET ?{offset_idx}`; the
statement of `search` has no `OFFSET`. -/
def selectNumbered (sq : Sqlite) (clause : List ℕ) (limitIdx : ℕ) (offsetIdx : Option ℕ)
    (binds : List Bound) : EngineM (List Hit) :=
  prepared sq clause.length (Prog.stmt (Sql.tryQuery fun db =>
    let needed := paramCount (clause ++ limitIdx :: offsetIdx.toList)
    if binds.length ≠ needed then .error (wrongCount binds.length needed)
    else
      match paramNumber binds limitIdx, offsetIdx.elim (some 0) (paramNumber binds) with
      | some limit, some offset =>
        let rows := selectRows sq "SELECT id FROM entries WHERE norm LIKE" binds clause db.entries
        let hits := rows.map fun r => ({ id := r.1, score := 0 } : Hit)
        .ok (Stepped.filterOk (sq.step (hits.limited limit.toNat offset.toNat)).results)
      | _, _ => .error (.db "datatype mismatch")))

/-- `SELECT COUNT(*) FROM entries WHERE {clause}`. -/
def countNumbered (sq : Sqlite) (clause : List ℕ) (binds : List Bound) : EngineM ℕ :=
  prepared sq clause.length (Prog.stmt (Sql.tryQuery fun db =>
    if binds.length ≠ paramCount clause then
      .error (wrongCount binds.length (paramCount clause))
    else
      let rows := selectRows sq "SELECT COUNT(*) FROM entries WHERE norm LIKE" binds clause
        db.entries
      (Stepped.collect rows.results).map List.length))

/-- `q.split_whitespace().map(escape_like)`. -/
def escapedTerms (q : Text) : List Text := (splitWhitespace q).map Like.escapeLike

/-- The three calls with their statements and bound values. -/
def numbered (sq : Sqlite) : SearchAlgorithm where
  search q limit :=
    let terms := escapedTerms q
    if terms.isEmpty then pure []
    else
      let n := terms.length
      selectNumbered sq (likeAndClause n) (n + 1) none (terms.map .text ++ [.number limit])
  searchPaged q limit offset :=
    let terms := escapedTerms q
    if terms.isEmpty then pure []
    else
      let n := terms.length
      selectNumbered sq (likeAndClause n) (n + 1) (some (n + 2))
        (terms.map .text ++ [.number limit, .number offset])
  matchCount q :=
    let terms := escapedTerms q
    if terms.isEmpty then pure 0
    else countNumbered sq (likeAndClause terms.length) (terms.map .text)

/-! ### The parameters name their terms -/

theorem paramCount_clause (n : ℕ) : paramCount (likeAndClause n) = n := by
  unfold paramCount likeAndClause
  induction n with
  | zero => rfl
  | succ n ih =>
    rw [List.range'_concat, List.foldl_append, ih, List.foldl_cons, List.foldl_nil]
    omega

theorem paramCount_limit (n : ℕ) : paramCount (likeAndClause n ++ [n + 1]) = n + 1 := by
  have hclause := paramCount_clause n
  unfold paramCount at *
  rw [List.foldl_append, hclause, List.foldl_cons, List.foldl_nil]
  omega

theorem paramCount_offset (n : ℕ) : paramCount (likeAndClause n ++ [n + 1, n + 2]) = n + 2 := by
  have hclause := paramCount_clause n
  unfold paramCount at *
  rw [List.foldl_append, hclause, List.foldl_cons, List.foldl_cons, List.foldl_nil]
  omega

/-- The clause lists the patterns of the terms in order, whatever is bound behind them. -/
theorem paramPattern_clause (terms : List Text) (rest : List Bound) :
    (likeAndClause terms.length).map (paramPattern (terms.map .text ++ rest)) =
      terms.map fun t => some (Like.containsPattern t) := by
  refine List.ext_getElem (by simp [likeAndClause]) fun k hk _ => ?_
  have hlt : k < terms.length := by simpa [likeAndClause] using hk
  have hvalue : param (terms.map .text ++ rest) (k + 1) = some (.text terms[k]) := by
    rw [param, if_neg (Nat.succ_ne_zero k), Nat.add_sub_cancel,
      List.getElem?_append_left (by simpa using hlt), List.getElem?_map,
      List.getElem?_eq_getElem hlt, Option.map_some]
  simp only [likeAndClause, List.getElem_map, List.getElem_range', Nat.add_comm 1, Nat.one_mul,
    paramPattern, hvalue]

theorem clausePatterns (terms : List Text) (rest : List Bound) :
    (likeAndClause terms.length).filterMap (paramPattern (terms.map .text ++ rest)) =
      terms.map Like.containsPattern := by
  have hmap := congrArg (List.filterMap id) (paramPattern_clause terms rest)
  rw [List.filterMap_map, List.filterMap_map] at hmap
  simpa [Function.comp_def] using hmap

/-- The clause is evaluated as the conditions on its patterns. -/
theorem clauseHolds_eq (sq : Sqlite) {binds : List Bound} {clause : List ℕ} {ps : List Text}
    (h : clause.map (paramPattern binds) = ps.map some) (norm : Text) :
    clauseHolds sq binds norm clause = sq.likeAll norm ps := by
  induction clause generalizing ps with
  | nil =>
    rw [List.map_nil, eq_comm, List.map_eq_nil_iff] at h
    rw [h]
    rfl
  | cons i clause ih =>
    cases ps with
    | nil => cases h
    | cons p ps =>
      rw [List.map_cons, List.map_cons, List.cons.injEq] at h
      rw [clauseHolds, h.1, Sqlite.likeAll, ih h.2]

theorem paramNumber_limit (terms : List Text) (limit : UInt32) (rest : List Bound) :
    paramNumber (terms.map .text ++ .number limit :: rest) (terms.length + 1) = some limit := by
  simp [paramNumber, param]

theorem paramNumber_offset (terms : List Text) (limit offset : UInt32) :
    paramNumber (terms.map .text ++ [.number limit, .number offset]) (terms.length + 2) =
      some offset := by
  simp [paramNumber, param]

theorem selectRows_eq (sq : Sqlite) (sql : String) (terms : List Text) (rest : List Bound)
    (entries : Entries) :
    selectRows sq sql (terms.map .text ++ rest) (likeAndClause terms.length) entries =
      sq.likeRows sql (terms.map Like.containsPattern) entries := by
  have hclause : (likeAndClause terms.length).map (paramPattern (terms.map .text ++ rest)) =
      (terms.map Like.containsPattern).map some := by
    rw [paramPattern_clause, List.map_map]
    rfl
  simp only [selectRows, clausePatterns, clauseHolds_eq sq hclause, Sqlite.likeRows]

theorem patterns_eq (q : Text) : patterns q = (escapedTerms q).map Like.containsPattern := by
  rw [patterns, escapedTerms, List.map_map]
  rfl

theorem isEmpty_patterns (q : Text) : (patterns q).isEmpty = (escapedTerms q).isEmpty := by
  rw [patterns_eq, List.isEmpty_map]

theorem length_clause (n : ℕ) : (likeAndClause n).length = n := List.length_range'

/-- With its parameters bound, the statement is the plain one. -/
theorem selectNumbered_eq (sq : Sqlite) (q : Text) {limitIdx : ℕ} {offsetIdx : Option ℕ}
    {limit offset : UInt32} {rest : List Bound}
    (hcount : ((escapedTerms q).map Bound.text ++ rest).length =
      paramCount (likeAndClause (escapedTerms q).length ++ limitIdx :: offsetIdx.toList))
    (hlimit : paramNumber ((escapedTerms q).map .text ++ rest) limitIdx = some limit)
    (hoffset : offsetIdx.elim (some 0) (paramNumber ((escapedTerms q).map .text ++ rest)) =
      some offset) :
    selectNumbered sq (likeAndClause (escapedTerms q).length) limitIdx offsetIdx
        ((escapedTerms q).map .text ++ rest) =
      prepared sq (patterns q).length (selectHits sq limit offset (likeHits sq (patterns q))) := by
  rw [selectNumbered, length_clause, patterns_eq, List.length_map]
  simp only [hcount, ne_eq, not_true_eq_false, if_false, hlimit, hoffset, selectRows_eq]
  rfl

theorem numbered_search (sq : Sqlite) (q : Text) (limit : UInt32) :
    (numbered sq).search q limit = (algorithm sq).search q limit := by
  simp only [numbered, algorithm, isEmpty_patterns]
  split
  · rfl
  · refine selectNumbered_eq sq q ?_ (paramNumber_limit _ limit []) rfl
    rw [Option.toList_none, paramCount_limit]
    simp

theorem numbered_searchPaged (sq : Sqlite) (q : Text) (limit offset : UInt32) :
    (numbered sq).searchPaged q limit offset = (algorithm sq).searchPaged q limit offset := by
  simp only [numbered, algorithm, isEmpty_patterns]
  split
  · rfl
  · refine selectNumbered_eq sq q ?_ (paramNumber_limit _ limit _)
      (paramNumber_offset _ limit offset)
    rw [Option.toList_some, paramCount_offset]
    simp

theorem numbered_matchCount (sq : Sqlite) (q : Text) :
    (numbered sq).matchCount q = (algorithm sq).matchCount q := by
  simp only [numbered, algorithm, isEmpty_patterns]
  split
  · rfl
  · have hrows := selectRows_eq sq "SELECT COUNT(*) FROM entries WHERE norm LIKE"
      (escapedTerms q) []
    rw [List.append_nil] at hrows
    rw [countNumbered, length_clause, patterns_eq, List.length_map]
    simp only [paramCount_clause, List.length_map, ne_eq, not_true_eq_false, if_false, hrows]
    rfl

/-! ### The entries that contain every term -/

/-- Every term is a run of the text, up to the case of ASCII letters. -/
def HasTerms (terms : List Text) (v : Text) : Prop :=
  ∀ t ∈ terms, t.map Like.asciiLower <:+: v.map Like.asciiLower

instance (terms : List Text) : DecidablePred (HasTerms terms) := fun v =>
  inferInstanceAs (Decidable (∀ t ∈ terms, t.map Like.asciiLower <:+: v.map Like.asciiLower))

/-- The search answers with exactly the entries that satisfy `p`, each once and with score 0,
and the count with their number. -/
def Selects (sq : Sqlite) (q : Text) (limit : UInt32) (db : Db) (bits : UInt8) (p : Text → Prop)
    [DecidablePred p] : Prop :=
  (∃ hits, (((numbered sq).search q limit).run (quiet db none bits false)).1 = .ok hits ∧
    hits.Perm ((idsWhere p db).map fun id => { id := id, score := 0 })) ∧
  (((numbered sq).matchCount q).run (quiet db none bits false)).1 = .ok (idsWhere p db).length

/-- SQLite takes the statement of the query, and on every stored text its conditions are
evaluated to what they say. -/
structure Evaluates (q : Text) (db : Db) : Prop where
  depth : (splitWhitespace q).length ≤ 997
  short : ∀ (id : Int64) en, db.entries[id]? = some en → ¬ ReachesLong (splitWhitespace q) en.norm
  read : ∀ (id : Int64) en, db.entries[id]? = some en →
    (SeesTerms (splitWhitespace q) en.norm ↔ HasTerms (splitWhitespace q) en.norm)

theorem idsWhere_congr {p r : Text → Prop} [DecidablePred p] [DecidablePred r]
    (h : ∀ v, p v ↔ r v) (db : Db) : idsWhere p db = idsWhere r db := by
  simp only [idsWhere, h]

theorem hasTerms_congr {terms terms' : List Text} (h : ∀ t, t ∈ terms' ↔ t ∈ terms) (v : Text) :
    HasTerms terms' v ↔ HasTerms terms v := by
  simp only [HasTerms, h]

theorem tooDeep_iff (n : ℕ) : Sqlite.tooDeep n = true ↔ ¬ n ≤ 997 := by
  rw [Sqlite.tooDeep, decide_eq_true_iff, Sqlite.MAX_EXPR_DEPTH, Sqlite.clauseDepth]
  omega

/-- Hits of score 0 with the ids of one list are the hits of that list. -/
theorem hits_perm_iff {hits : List Hit} (h : ∀ x ∈ hits, x.score = 0) (ids : List Int64) :
    hits.Perm (ids.map fun id => { id := id, score := 0 }) ↔ (hits.map Hit.id).Perm ids := by
  have hback : (hits.map Hit.id).map (fun id => ({ id := id, score := 0 } : Hit)) = hits := by
    rw [List.map_map]
    refine (List.map_congr_left fun x hx => ?_).trans (List.map_id hits)
    rw [Function.comp_apply, ← h x hx]
    rfl
  have hids : (ids.map fun id => ({ id := id, score := 0 } : Hit)).map Hit.id = ids := by
    rw [List.map_map]
    exact List.map_id ids
  constructor
  · intro hp
    rw [← hids]
    exact hp.map Hit.id
  · intro hp
    rw [← hback]
    exact hp.map _

section Selects

variable {sq : Sqlite} (hf : sq.rowFault = none) (db : Db) {q : Text}
  (hterms : splitWhitespace q ≠ []) (bits : UInt8)

include hf hterms

theorem search_numbered (limit : UInt32) :
    (((numbered sq).search q limit).run (quiet db none bits false)).1 =
      outcome (if Sqlite.tooDeep (splitWhitespace q).length then .error (sq.refusal .depth)
        else .ok (limited limit (likeHits sq (patterns q) db).rows)) := by
  have hempty : ¬ (patterns q).isEmpty = true := by
    rw [patterns, List.isEmpty_map, List.isEmpty_iff]
    exact hterms
  have hselect := eval_selectHits hf db none bits false limit 0 (likeHits sq (patterns q))
  rw [numbered_search]
  simp only [algorithm, if_neg hempty]
  rw [Prog.run, eval_prepared (r := .ok _) hselect, patterns, List.length_map]
  rfl

omit hf in
theorem count_numbered :
    (((numbered sq).matchCount q).run (quiet db none bits false)).1 =
      outcome (if Sqlite.tooDeep (splitWhitespace q).length then .error (sq.refusal .depth)
        else (likeHits sq (patterns q) db).whole.map List.length) := by
  have hempty : ¬ (patterns q).isEmpty = true := by
    rw [patterns, List.isEmpty_map, List.isEmpty_iff]
    exact hterms
  rw [numbered_matchCount]
  simp only [algorithm, if_neg hempty]
  rw [Prog.run, eval_prepared (eval_likeCount db none bits false _), patterns, List.length_map]

/-- The two calls are exact for the terms of the query just when they are evaluated to what
they say. -/
theorem selects_iff {limit : UInt32} (hlimit : db.entries.size ≤ limit.toNat) :
    Selects sq q limit db bits (HasTerms (splitWhitespace q)) ↔ Evaluates q db := by
  have hids := likeHits_ids sq db (splitWhitespace q)
  have hscore : ∀ x ∈ (likeHits sq (patterns q) db).rows, x.score = 0 := by
    intro x hx
    obtain ⟨r, _, rfl⟩ := List.mem_map.mp hx
    rfl
  have hfit : (likeHits sq (patterns q) db).rows.length ≤ limit.toNat := by
    have hlen := hids.length_eq
    rw [List.length_map] at hlen
    rw [patterns, hlen]
    exact (idsWhere_length_le db).trans hlimit
  have hstop := likeHits_stop_iff sq db (splitWhitespace q)
  rw [Selects, search_numbered hf db hterms, count_numbered db hterms]
  by_cases hdeep : Sqlite.tooDeep (splitWhitespace q).length = true
  · rw [if_pos hdeep]
    refine iff_of_false ?_ fun h => (tooDeep_iff _).mp hdeep h.depth
    rintro ⟨⟨hits, hok, _⟩, _⟩
    cases hok
  · have hdepth : (splitWhitespace q).length ≤ 997 := not_not.mp (mt (tooDeep_iff _).mpr hdeep)
    have hall : limited limit (likeHits sq (patterns q) db).rows =
        (likeHits sq (patterns q) db).rows := List.take_of_length_le hfit
    simp only [if_neg hdeep, outcome, Outcome.ok.injEq, exists_eq_left', hall,
      hits_perm_iff hscore]
    constructor
    · rintro ⟨hperm, hcount⟩
      refine ⟨hdepth, hstop.mp ?_, (idsWhere_perm_iff db).mp (hids.symm.trans hperm)⟩
      cases hnone : (likeHits sq (patterns q) db).stop with
      | none => exact hnone
      | some err =>
        rw [Stepped.whole, hnone] at hcount
        cases hcount
    · intro h
      have hperm := hids.trans ((idsWhere_perm_iff db).mpr h.read)
      refine ⟨hperm, ?_⟩
      have hlength := hperm.length_eq
      rw [List.length_map] at hlength
      rw [patterns, Stepped.whole, hstop.mpr h.short]
      exact congrArg Outcome.ok hlength

end Selects

/-- AllTerms selects exactly the entries that contain every term literally, and so it does for
a query with the same terms in any order and however often, just when both statements are taken
and evaluated to what they say. -/
theorem allTerms_exact_iff {sq : Sqlite} (hf : sq.rowFault = none) (db : Db) {q q' : Text}
    (hterms : splitWhitespace q ≠ [])
    (hsame : ∀ t, t ∈ splitWhitespace q' ↔ t ∈ splitWhitespace q) {limit : UInt32}
    (hlimit : db.entries.size ≤ limit.toNat) (bits : UInt8) :
    Selects sq q limit db bits (HasTerms (splitWhitespace q)) ∧
        Selects sq q' limit db bits (HasTerms (splitWhitespace q)) ↔
      Evaluates q db ∧ Evaluates q' db := by
  have hterms' : splitWhitespace q' ≠ [] := by
    intro hnil
    obtain ⟨t, ht⟩ := List.exists_mem_of_ne_nil _ hterms
    have hmem := (hsame t).mpr ht
    rw [hnil] at hmem
    cases hmem
  have hids := idsWhere_congr (hasTerms_congr hsame) db
  have hselects := selects_iff hf db hterms' bits hlimit
  unfold Selects at hselects
  rw [hids] at hselects
  exact and_congr (selects_iff hf db hterms bits hlimit) hselects

theorem evaluates_of_decided {q : Text} {db : Db}
    (h : (splitWhitespace q).length ≤ 997 ∧ (likeHits .plain (patterns q) db).stop = none ∧
      idsWhere (SeesTerms (splitWhitespace q)) db = idsWhere (HasTerms (splitWhitespace q)) db) :
    Evaluates q db where
  depth := h.1
  short := (likeHits_stop_iff _ _ _).mp h.2.1
  read := (idsWhere_perm_iff db).mp (List.Perm.of_eq h.2.2)

/-- Two terms, one of them `%`, in either order and one of them twice. -/
theorem allTerms_exact_percent :
    Selects .plain ['b', ' ', '%'] u32Max keepCaseHost.file DEFAULT_FIELD_BITS
        (HasTerms (splitWhitespace ['b', ' ', '%'])) ∧
      Selects .plain ['%', ' ', 'b', ' ', 'b'] u32Max keepCaseHost.file DEFAULT_FIELD_BITS
        (HasTerms (splitWhitespace ['b', ' ', '%'])) :=
  have hfirst : splitWhitespace ['b', ' ', '%'] = [['b'], ['%']] := by decide
  have hsecond : splitWhitespace ['%', ' ', 'b', ' ', 'b'] = [['%'], ['b'], ['b']] := by decide
  have hsame : ∀ t, t ∈ splitWhitespace ['%', ' ', 'b', ' ', 'b'] ↔
      t ∈ splitWhitespace ['b', ' ', '%'] := by
    intro t
    rw [hfirst, hsecond]
    simp only [List.mem_cons, List.not_mem_nil, or_false, or_self]
    exact or_comm
  (allTerms_exact_iff rfl keepCaseHost.file (by decide) hsame keepCaseHost_hits.2
    DEFAULT_FIELD_BITS).mpr
      ⟨evaluates_of_decided (by decide +kernel), evaluates_of_decided (by decide +kernel)⟩

/-- `n` times the same term. -/
def repeatedQuery (n : ℕ) : Text := (List.replicate n ['a', ' ']).flatten

theorem splitWhitespace_repeatedQuery (n : ℕ) :
    splitWhitespace (repeatedQuery n) = List.replicate n ['a'] := by
  induction n with
  | zero => rfl
  | succ n ih =>
    rw [repeatedQuery, List.replicate_succ, List.flatten_cons, ← repeatedQuery,
      List.replicate_succ, ← ih]
    rfl

theorem allTerms_not_exact :
    ¬ ∀ (actions : List Action) (query : Text), splitWhitespace query ≠ [] →
      (splitWhitespace query).length ≤ 32766 →
      (Host.run .ascii {} actions).file.entries.size ≤ u32Max.toNat →
      Selects .plain query u32Max (Host.run .ascii {} actions).file DEFAULT_FIELD_BITS
        (HasTerms (splitWhitespace query)) := by
  intro h
  have hterms := splitWhitespace_repeatedQuery 998
  have hlength : (splitWhitespace (repeatedQuery 998)).length = 998 := by
    rw [hterms, List.length_replicate]
  have hne : splitWhitespace (repeatedQuery 998) ≠ [] := by
    intro hnil
    rw [hnil] at hlength
    cases hlength
  have hselects := h keepCaseActions _ hne (by omega) keepCaseHost_hits.2
  have hdepth := ((selects_iff rfl _ hne DEFAULT_FIELD_BITS keepCaseHost_hits.2).mp hselects).depth
  omega

end AllTerms

end Unfydqry.Search
