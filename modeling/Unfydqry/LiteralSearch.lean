import Unfydqry.Search.Rows
import Unfydqry.IndexInvariant

/-! # Substring search

A query of one or two characters is looked for with `LIKE` in `entries`, which compares
ASCII letters without case and stops at U+0000, a longer one with an FTS5 phrase in `docs`,
whose tokenizer folds case and skips U+0000. Neither is plain containment. -/

namespace Unfydqry.Search

open LockedStore Prog

/-- How a query is found in a text: a short one as `LIKE` reads both, a longer one as the
tokenizer does, unless U+0000 ends its phrase. -/
def FoundIn (sq : Sqlite) (q v : Text) : Prop :=
  if q.length < 3 then Like.Contains q v
  else '\x00' ∉ q ∧ (Fts5.tokenChars q).map sq.fold <:+: (Fts5.tokenChars v).map sq.fold

instance (sq : Sqlite) (q : Text) : DecidablePred (FoundIn sq q) := fun _ =>
  inferInstanceAs (Decidable (if q.length < 3 then _ else _))

theorem belowTrigramLen_iff (q : Text) : belowTrigramLen q = true ↔ q.length < 3 := by
  rw [belowTrigramLen, Option.isNone_iff_eq_none, List.getElem?_eq_none_iff]
  omega

theorem not_tooLong_short {q : Text} (hq : q.length < 3) :
    Like.tooLong (termPattern q) = false := by
  have hescaped := Like.length_escapeLike_le q
  have hlen : (termPattern q).length ≤ 6 := by
    simp only [termPattern, Like.containsPattern, List.length_append, List.length_cons,
      List.length_nil]
    omega
  have hbytes := Like.bytes_le (termPattern q)
  rw [Like.tooLong, decide_eq_false_iff_not, Like.MAX_PATTERN_LENGTH]
  omega

variable {sq : Sqlite} {db : Db}

theorem likeHits_short (sq : Sqlite) {q : Text} (hq : q.length < 3) (db : Db) :
    ((likeHits sq [termPattern q] db).rows.map Hit.id).Perm (idsWhere (FoundIn sq q) db) ∧
      (likeHits sq [termPattern q] db).stop = none := by
  have hfit := not_tooLong_short hq
  have hmatch : ∀ v, ([termPattern q].all fun p => !Like.tooLong p && Like.isMatch p v) =
      decide (FoundIn sq q v) := by
    intro v
    rw [List.all_cons, List.all_nil, Bool.and_true, hfit, Bool.not_false, Bool.true_and,
      Bool.eq_iff_iff, decide_eq_true_iff, termPattern, Like.isMatch_contains, FoundIn, if_pos hq]
  constructor
  · rw [likeHits, Stepped.map, List.map_map, Sqlite.likeRows_rows, idsWhere]
    simp only [hmatch]
    exact ((sq.scan_perm _ _ db.entries).filter _).map _
  · have hnone : ∀ v, Sqlite.reachesLong v [termPattern q] = false :=
      Sqlite.not_reachesLong (by simpa using hfit)
    rw [likeHits, Stepped.map, Sqlite.likeRows_stop, if_neg]
    simp [hnone]

theorem matched_ids (hs : Synced db) {q : Text} (hq : ¬ q.length < 3) (hfree : '\x00' ∉ q) :
    (db.docs.toList.filter fun r => Fts5.isMatch sq.fold [q] r.2).map Prod.fst =
      idsWhere (FoundIn sq q) db := by
  have hmatch : ∀ v, Fts5.isMatch sq.fold [q] v = decide (FoundIn sq q v) := by
    intro v
    rw [Bool.eq_iff_iff, decide_eq_true_iff, Fts5.isMatch_single sq.fold hfree, FoundIn, if_neg hq]
    exact ⟨fun h => ⟨hfree, h.2⟩, fun h => ⟨by omega, h.2⟩⟩
  rw [docs_toList hs, List.filter_map, List.map_map, idsWhere]
  simp only [Function.comp_def, hmatch]

/-- A long query has to be written as a phrase, which U+0000 would end. -/
def Searchable (q : Text) : Prop := q.length < 3 ∨ '\x00' ∉ q

/-- No entry is found by a query whose phrase is cut. -/
theorem idsWhere_unsearchable {q : Text} (h : ¬ Searchable q) :
    idsWhere (FoundIn sq q) db = [] := by
  rw [Searchable, not_or, not_not] at h
  have hnone : ∀ v, ¬ FoundIn sq q v := by
    intro v
    rw [FoundIn, if_neg h.1]
    exact fun hv => hv.1 h.2
  simp [idsWhere, hnone]

theorem parse_of_searchable {q : Text} (hlong : ¬ q.length < 3) :
    (Searchable q → Fts5.parse (Fts5.fts5Phrase q) = some [q]) ∧
      (¬ Searchable q → Fts5.parse (Fts5.fts5Phrase q) = none) := by
  rw [Fts5.parse_fts5Phrase, Searchable]
  constructor
  · intro h
    rw [if_neg (h.resolve_left hlong)]
  · intro h
    rw [not_or, not_not] at h
    rw [if_pos h.2]

/-- The statement of a query lists the entries that the query is found in, in some order. An
expression that is cut ends it at the first step. -/
structure ListsFound (sq : Sqlite) (q : Text) (db : Db) (s : Stepped Hit) : Prop where
  ids : (s.rows.map Hit.id).Perm (idsWhere (FoundIn sq q) db)
  whole : Searchable q → s.stop = none
  cut : ¬ Searchable q → s = .failed (sq.refusal .expression)

theorem listsFound_like (sq : Sqlite) {q : Text} (hq : q.length < 3) (db : Db) :
    ListsFound sq q db (likeHits sq [termPattern q] db) where
  ids := (likeHits_short sq hq db).1
  whole _ := (likeHits_short sq hq db).2
  cut h := absurd (.inl hq) h

theorem listsFound_cut {q : Text} (h : ¬ Searchable q) (db : Db) :
    ListsFound sq q db (.failed (sq.refusal .expression)) where
  ids := by
    rw [idsWhere_unsearchable h]
    exact List.Perm.refl _
  whole h' := absurd h' h
  cut _ := rfl

theorem substring_listsFound (hs : Synced db) (q : Text) :
    ListsFound sq q db (Substring.rows sq q db) := by
  unfold Substring.rows
  by_cases hq : q.length < 3
  · rw [if_pos ((belowTrigramLen_iff q).mpr hq)]
    exact listsFound_like sq hq db
  · rw [if_neg (mt (belowTrigramLen_iff q).mp hq), Sqlite.matchRows]
    obtain ⟨hok, herr⟩ := parse_of_searchable hq
    by_cases h : Searchable q
    · rw [hok h]
      refine ⟨?_, fun _ => rfl, fun h' => absurd h h'⟩
      rw [← matched_ids hs hq (h.resolve_left hq), Stepped.map, List.map_map]
      exact List.Perm.refl _
    · rw [herr h]
      exact listsFound_cut h db

theorem trigramBm25_listsFound (hs : Synced db) (q : Text) :
    ListsFound sq q db (TrigramBm25.rows sq q db) := by
  unfold TrigramBm25.rows
  by_cases hq : q.length < 3
  · rw [if_pos ((belowTrigramLen_iff q).mpr hq)]
    exact listsFound_like sq hq db
  · rw [if_neg (mt (belowTrigramLen_iff q).mp hq), Sqlite.rankedRows]
    obtain ⟨hok, herr⟩ := parse_of_searchable hq
    by_cases h : Searchable q
    · rw [hok h]
      refine ⟨?_, fun _ => rfl, fun h' => absurd h h'⟩
      have hid : (Prod.fst ∘ fun id : Int64 => (id, sq.bm25 db.docs [q] id)) = id := rfl
      have hsorted := (List.perm_insertionSort (fun a b : Int64 × ℚ => a.2 ≤ b.2)
        ((sq.ties db.docs [q] (idsWhere (FoundIn sq q) db)).map fun id =>
          (id, sq.bm25 db.docs [q] id))).map Prod.fst
      rw [List.map_map, hid, List.map_id] at hsorted
      simp only [Stepped.map, List.map_map, matched_ids hs hq (h.resolve_left hq)]
      exact hsorted.trans (sq.ties_perm _ _ _)
    · rw [herr h]
      exact listsFound_cut h db

/-- Reading the stored texts decides nothing: the query is found in those that contain it. -/
def ReadLiterally (sq : Sqlite) (q : Text) (db : Db) : Prop :=
  ∀ (id : Int64) en, db.entries[id]? = some en → (FoundIn sq q en.norm ↔ q <:+: en.norm)

/-- Substring and TrigramBm25 are plain containment just when the paths that serve them read
the stored texts literally. -/
theorem literal_search_iff (hf : sq.rowFault = none) (hs : Synced db) {q : Text} (hq : q ≠ [])
    {limit : UInt32} (hlimit : db.entries.size ≤ limit.toNat) :
    (Finds sq .substring q limit db (q <:+: ·) ↔ ReadLiterally sq q db) ∧
      (Finds sq .trigramBm25 q limit db (q <:+: ·) ↔ ReadLiterally sq q db) :=
  ⟨finds_iff_of_ids db hf hq hlimit rfl (substring_listsFound hs q).ids,
    finds_iff_of_ids db hf hq hlimit rfl (trigramBm25_listsFound hs q).ids⟩

/-- A query with U+0000 between two letters. -/
def cutQuery : Text := ['a', '\x00', 'b']

/-- One upper-case text, under options that keep case. -/
def keepCaseActions : List Action :=
  [.reopen (.withOptions
    { normalize := { lowercase := false }, strategy := .substring, fieldBits := none }),
    .call (.index 1 ['A', 'B', 'C'])]

def keepCaseHost : Host := Host.run .ascii {} keepCaseActions

theorem keepCaseHost_hits :
    keepCaseHost.opened.map (fun o => (o.engine.normalizer .ascii ['a', 'b', 'c'],
      (((buildStrategy .plain .substring).search ['a', 'b', 'c'] u32Max).run
        (quiet keepCaseHost.file none DEFAULT_FIELD_BITS false)).1,
      idsWhere (['a', 'b', 'c'] <:+: ·) keepCaseHost.file)) =
    some (['a', 'b', 'c'], .ok [{ id := 1, score := 0 }], []) ∧
    keepCaseHost.file.entries.size ≤ u32Max.toNat := by
  decide +kernel

theorem substring_search_not_literal :
    ¬ ∀ (actions : List Action) (o : OpenEngine) (query : Text),
      (Host.run .ascii {} actions).opened = some o → o.engine.normalizer .ascii query ≠ [] →
        Finds .plain .substring (o.engine.normalizer .ascii query) u32Max
          (Host.run .ascii {} actions).file (o.engine.normalizer .ascii query <:+: ·) := by
  intro h
  obtain ⟨o, ho, heq⟩ := Option.map_eq_some_iff.mp keepCaseHost_hits.1
  rw [Prod.mk.injEq, Prod.mk.injEq] at heq
  obtain ⟨hnorm, hfound, hnone⟩ := heq
  have hfinds := h keepCaseActions o ['a', 'b', 'c'] ho (by rw [hnorm]; decide)
  rw [hnorm] at hfinds
  obtain ⟨hits, hrun, hperm⟩ := hfinds
  rw [show Host.run .ascii {} keepCaseActions = keepCaseHost from rfl, hfound,
    Outcome.ok.injEq] at hrun
  subst hrun
  rw [show Host.run .ascii {} keepCaseActions = keepCaseHost from rfl, hnone] at hperm
  exact absurd hperm.length_eq (by decide)

theorem literal_search_keepCase :
    (Finds .plain .substring ['A', 'B'] u32Max keepCaseHost.file (['A', 'B'] <:+: ·) ↔
        ReadLiterally .plain ['A', 'B'] keepCaseHost.file) ∧
      (Finds .plain .trigramBm25 ['A', 'B'] u32Max keepCaseHost.file (['A', 'B'] <:+: ·) ↔
        ReadLiterally .plain ['A', 'B'] keepCaseHost.file) :=
  have hfresh : Host.Ok .ascii {} := Host.fresh_ok
  have hinv := (Host.run_ok keepCaseActions hfresh).invariant
  literal_search_iff rfl hinv.synced (by decide) keepCaseHost_hits.2

end Unfydqry.Search
