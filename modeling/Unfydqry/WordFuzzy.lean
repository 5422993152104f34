import Unfydqry.EditDistances
import Unfydqry.DocumentPages

/-! # Words within a distance of the query

The scan over the words of a document finds the least distance although it stops at an exact
word, and the hits are those documents, ranked. The exchange of neighbours only lowers
distances. -/

namespace Unfydqry.Search

open LockedStore Prog EditDistance

/-- `osa` without a threshold. -/
def osaDist (a b : Text) : ℕ := osaTable a b a.length b.length

/-- The least distance of a word of the text. -/
def LeastWord (D : Text → Text → ℕ) (q v : Text) (d : ℕ) : Prop :=
  IsLeast {n | ∃ w ∈ splitWhitespace v, D q w = n} d

/-- All documents that have a word within the threshold, scored with the least distance and
ranked. -/
structure WordHits (D : Text → Text → ℕ) (q : Text) (db : Db) (rows : List Hit) : Prop where
  sorted : rows.Pairwise hitOrder
  nodup : (rows.map Hit.id).Nodup
  mem : ∀ h, h ∈ rows ↔ ∃ en d, db.entries[h.id]? = some en ∧ LeastWord D q en.norm d ∧
    d ≤ maxDistance q.length ∧ h.score = d

/-! ### One document -/

theorem foldl_min_zero (ds : List ℕ) : ds.foldl min 0 = 0 := by
  induction ds with
  | nil => rfl
  | cons d ds ih => rw [List.foldl_cons, Nat.zero_min, ih]

theorem bestWord_eq (dist : Text → Text → ℕ → Option ℕ) (q : Text) (threshold : ℕ) (ws : List Text)
    (best : Option ℕ) :
    bestWord dist q threshold best ws =
      (best.toList ++ ws.filterMap fun w => dist q w threshold).min? := by
  induction ws generalizing best with
  | nil => cases best <;> rfl
  | cons w ws ih =>
    rw [bestWord]
    cases hd : dist q w threshold with
    | none => simp only [List.filterMap_cons, hd, ih]
    | some d =>
      have hmin : (best.toList ++ d :: ws.filterMap fun w => dist q w threshold).min? =
          some ((ws.filterMap fun w => dist q w threshold).foldl min
            (best.elim d fun b => min b d)) := by
        cases best <;> rfl
      simp only [List.filterMap_cons, hd, hmin]
      split
      · rename_i hzero
        have hbest : (best.elim d fun b => min b d) = 0 := by
          cases best with
          | none => exact hzero
          | some b =>
            rw [Option.elim_some, hzero]
            omega
        rw [hbest, foldl_min_zero]
      · rw [ih]
        rfl

theorem min?_within_iff (D : Text → Text → ℕ) (q v : Text) (threshold d : ℕ) :
    ((splitWhitespace v).filterMap fun w => atMost threshold (D q w)).min? = some d ↔
      LeastWord D q v d ∧ d ≤ threshold := by
  rw [List.min?_eq_some_iff]
  simp only [List.mem_filterMap, within_eq_some]
  constructor
  · rintro ⟨⟨w, hw, hdist, hle⟩, hmin⟩
    refine ⟨⟨⟨w, hw, hdist⟩, ?_⟩, hle⟩
    rintro e ⟨w', hw', rfl⟩
    by_cases h : D q w' ≤ threshold
    · exact hmin _ ⟨w', hw', rfl, h⟩
    · omega
  · rintro ⟨⟨⟨w, hw, hdist⟩, hmin⟩, hle⟩
    refine ⟨⟨w, hw, hdist, hle⟩, ?_⟩
    rintro e ⟨w', hw', hdist', _⟩
    exact hmin ⟨w', hw', hdist'⟩

section Rows

variable {dist : Text → Text → ℕ → Option ℕ} {D : Text → Text → ℕ}
  (hdist : ∀ a b max, dist a b max = atMost max (D a b))

include hdist

theorem wordHit_eq_some (q : Text) (r : Int64 × Entry) (h : Hit) :
    wordHit dist q r = some h ↔ h.id = r.1 ∧ ∃ d, LeastWord D q r.2.norm d ∧
      d ≤ maxDistance q.length ∧ h.score = d := by
  obtain ⟨id, score⟩ := h
  have hmap : wordHit dist q r =
      (bestWord dist q (maxDistance q.length) none (splitWhitespace r.2.norm)).map
        fun d => { id := r.1, score := (d : ℚ) } := by
    rw [wordHit]
    cases bestWord dist q (maxDistance q.length) none (splitWhitespace r.2.norm) <;> rfl
  rw [hmap, bestWord_eq]
  simp only [hdist, Option.toList_none, List.nil_append, Option.map_eq_some_iff, min?_within_iff,
    Hit.mk.injEq]
  constructor
  · rintro ⟨d, ⟨hleast, hle⟩, rfl, rfl⟩
    exact ⟨rfl, d, hleast, hle, rfl⟩
  · rintro ⟨rfl, d, hleast, hle, rfl⟩
    exact ⟨d, ⟨hleast, hle⟩, rfl, rfl⟩

theorem wordRows_hits (sq : Sqlite) (q : Text) (db : Db) :
    WordHits D q db (wordRows sq dist q db) := by
  refine ⟨sorted_insertionSort _, ?_, fun h => ?_⟩
  · have hstored : Stored db (wordRows sq dist q db) :=
      stored_perm (List.perm_insertionSort _ _)
        (stored_filterMap (wordHit_id dist) (stored_scan _ _))
    exact stored_nodup hstored
  · rw [wordRows, List.mem_insertionSort, List.mem_filterMap]
    simp only [wordHit_eq_some hdist]
    constructor
    · rintro ⟨⟨id, en⟩, hr, hid, d, hd⟩
      exact ⟨en, d, by rw [hid]; exact (mem_scanAll _ _).mp hr, hd⟩
    · rintro ⟨en, d, hen, hd⟩
      exact ⟨(h.id, en), (mem_scanAll _ _).mpr hen, rfl, d, hd⟩

end Rows

/-! ### The two strategies -/

theorem levenshtein_dist (a b : Text) (max : ℕ) :
    levenshtein a b max = atMost max (editDist a b) := by rw [levenshtein_eq, editTable_whole]

theorem osaDist_le (a b : Text) : osaDist a b ≤ editDist a b := by
  rw [osaDist, ← editTable_whole]
  exact osaTable_le a b a.length b.length

theorem leastWord_exists {D : Text → Text → ℕ} {q v w : Text} (hw : w ∈ splitWhitespace v) :
    ∃ d, LeastWord D q v d ∧ d ≤ D q w := by
  have hsome : ∃ n, ∃ w ∈ splitWhitespace v, D q w = n := ⟨D q w, w, hw, rfl⟩
  exact ⟨Nat.find hsome, ⟨Nat.find_spec hsome, fun n hn => Nat.find_min' hsome hn⟩,
    Nat.find_min' hsome ⟨w, hw, rfl⟩⟩

/-- A hit of the one distance is a hit of a smaller one, with a score no larger. -/
theorem wordHits_mono {D D' : Text → Text → ℕ} (hle : ∀ a b, D' a b ≤ D a b) {q : Text} {db : Db}
    {rows rows' : List Hit} (h : WordHits D q db rows) (h' : WordHits D' q db rows') :
    ∀ hit ∈ rows, ∃ hit' ∈ rows', hit'.id = hit.id ∧ hit'.score ≤ hit.score := by
  intro hit hmem
  obtain ⟨en, d, hen, ⟨⟨w, hw, hd⟩, _⟩, hmax, hscore⟩ := (h.mem hit).mp hmem
  obtain ⟨d', hleast, hd'⟩ := leastWord_exists (D := D') (q := q) hw
  have hlow := hle q w
  refine ⟨{ id := hit.id, score := d' }, (h'.mem _).mpr ⟨en, d', hen, hleast, by omega, rfl⟩,
    rfl, ?_⟩
  have hscores : d' ≤ d := by omega
  rw [hscore]
  exact Nat.cast_le.mpr hscores

/-- Both searches return the first `limit` of exactly the documents with a word within the
threshold, ranked; and every hit of the one is found by the other with a score no larger. -/
theorem word_fuzzy_exact {sq : Sqlite} (hf : sq.rowFault = none) (q : Text) (db : Db)
    (bits : UInt8) :
    (∃ rows, WordHits editDist q db rows ∧ ∀ limit,
      (((buildStrategy sq .levenshtein).search q limit).run (quiet db none bits false)).1 =
        .ok (limited limit rows)) ∧
    (∃ rows, WordHits osaDist q db rows ∧ ∀ limit,
      (((buildStrategy sq .damerauLevenshtein).search q limit).run (quiet db none bits false)).1 =
        .ok (limited limit rows)) ∧
    ∀ limit limit' : UInt32, db.entries.size ≤ limit'.toNat → ∃ hits hits',
      (((buildStrategy sq .levenshtein).search q limit).run (quiet db none bits false)).1 =
        .ok hits ∧
      (((buildStrategy sq .damerauLevenshtein).search q limit').run (quiet db none bits false)).1 =
        .ok hits' ∧
      ∀ hit ∈ hits, ∃ hit' ∈ hits', hit'.id = hit.id ∧ hit'.score ≤ hit.score := by
  have hlev := wordRows_hits levenshtein_dist sq q db
  have hosa := wordRows_hits osa_eq sq q db
  have hrun : ∀ dist limit, ((wordFuzzySearch sq dist q limit).run (quiet db none bits false)).1 =
      .ok (limited limit (wordRows sq dist q db)) := by
    intro dist limit
    rw [Prog.run, eval_wordFuzzySearch hf]
  refine ⟨⟨_, hlev, hrun levenshtein⟩, ⟨_, hosa, hrun osa⟩, fun limit limit' hlimit => ?_⟩
  refine ⟨_, _, hrun levenshtein limit, hrun osa limit', fun hit hmem => ?_⟩
  have hfit : (wordRows sq osa q db).length ≤ limit'.toNat := by
    have hscan : (sq.scanAll db.entries).rows.length = db.entries.size := by
      rw [Sqlite.scanAll, (sq.scan_perm _ _ _).length_eq, Std.ExtTreeMap.length_toList]
    have hle := List.length_filterMap_le (wordHit osa q) (sq.scanAll db.entries).rows
    rw [wordRows, List.length_insertionSort]
    omega
  rw [limited, List.take_of_length_le hfit]
  exact wordHits_mono osaDist_le hlev hosa hit (List.mem_of_mem_take hmem)

/-- Two letters of the stored word exchanged. -/
theorem word_fuzzy_exact_exchange :
    ∃ rows, WordHits osaDist ['A', 'C', 'B'] keepCaseHost.file rows ∧
      limited 10 rows = [{ id := 1, score := 1 }] := by
  have hf : Sqlite.plain.rowFault = none := rfl
  obtain ⟨_, ⟨rows, hrows, hrun⟩, _⟩ :=
    word_fuzzy_exact hf ['A', 'C', 'B'] keepCaseHost.file DEFAULT_FIELD_BITS
  have hfound : (((buildStrategy .plain .damerauLevenshtein).search ['A', 'C', 'B'] 10).run
      (quiet keepCaseHost.file none DEFAULT_FIELD_BITS false)).1 =
        .ok [{ id := 1, score := 1 }] := by
    decide +kernel
  rw [hrun 10, Outcome.ok.injEq] at hfound
  exact ⟨rows, hrows, hfound⟩

end Unfydqry.Search
