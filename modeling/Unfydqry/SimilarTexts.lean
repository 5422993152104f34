import Unfydqry.QuotedQueries
import Mathlib.Data.Finset.Card
import Mathlib.Data.Finset.Dedup

/-! # Similar texts through the full-text table

A text that is similar enough shares a trigram with the query, so the expression of the
trigrams selects it, and the search answers as a scan of all entries would. -/

namespace Unfydqry.Search

open LockedStore Prog

/-- The set of trigrams of a text. -/
def trigramSet (s : Text) : Finset (Char × Char × Char) := (windows s).toFinset

/-- The size of the intersection over the size of the union. -/
def similarity (q v : Text) : ℚ :=
  ((trigramSet q ∩ trigramSet v).card : ℚ) / (trigramSet q ∪ trigramSet v).card

/-- Three tenths of the union are shared. -/
def Similar (q v : Text) : Prop :=
  3 * (trigramSet q ∪ trigramSet v).card ≤ 10 * (trigramSet q ∩ trigramSet v).card

/-- A scan of all entries that computes the similarity of every text. -/
def scanSimilar (q : Text) (db : Db) : List Hit :=
  (db.entries.toList.filterMap fun r =>
    similarHit r.1 (jaccard (trigrams q) (trigrams r.2.norm))).insertionSort hitOrder

/-- The hits are the similar entries with their scores, best first, as the scan finds them. -/
structure SimilarHits (q : Text) (db : Db) (hits : List Hit) : Prop where
  scanned : hits = scanSimilar q db
  sorted : hits.Pairwise hitOrder
  nodup : (hits.map Hit.id).Nodup
  mem : ∀ h, h ∈ hits ↔ ∃ en, db.entries[h.id]? = some en ∧ Similar q en.norm ∧
    h.score = 1 - similarity q en.norm

/-! ### Trigram sets -/

theorem card_trigramSet (s : Text) : (trigramSet s).card = (trigrams s).length := by
  rw [trigramSet, trigrams, List.card_toFinset]

theorem card_inter (q v : Text) :
    (trigramSet q ∩ trigramSet v).card =
      ((trigrams q).filter fun t => t ∈ trigrams v).length := by
  have hset : ((trigrams q).filter fun t => t ∈ trigrams v).toFinset =
      trigramSet q ∩ trigramSet v := by
    ext t
    simp [trigramSet, trigrams]
  have hnodup : (trigrams q).Nodup := List.nodup_dedup _
  rw [← hset, List.toFinset_card_of_nodup (hnodup.filter _)]

theorem jaccard_eq (q v : Text) : jaccard (trigrams q) (trigrams v) = similarity q v := by
  have hunion := Finset.card_union_add_card_inter (trigramSet q) (trigramSet v)
  have hq := card_trigramSet q
  have hv := card_trigramSet v
  have hsub : (trigrams q).length + (trigrams v).length -
      (trigramSet q ∩ trigramSet v).card = (trigramSet q ∪ trigramSet v).card := by omega
  unfold jaccard similarity
  dsimp only
  rw [← card_inter, hsub]
  split
  · rename_i hzero
    rw [hzero, Nat.cast_zero, div_zero]
  · rfl

theorem similar_iff {q : Text} (hlen : 3 ≤ q.length) (v : Text) :
    THRESHOLD ≤ jaccard (trigrams q) (trigrams v) ↔ Similar q v := by
  have hpos : 0 < (trigramSet q ∪ trigramSet v).card := by
    have hsub : trigramSet q ⊆ trigramSet q ∪ trigramSet v := Finset.subset_union_left
    have hle := Finset.card_le_card hsub
    have hne : 0 < (trigramSet q).card := by
      rw [card_trigramSet, List.length_pos_iff]
      exact trigrams_ne_nil hlen
    omega
  have hcast : (0 : ℚ) < (trigramSet q ∪ trigramSet v).card := by exact_mod_cast hpos
  rw [jaccard_eq, similarity, THRESHOLD, Similar, div_le_div_iff₀ (by norm_num) hcast]
  constructor
  · intro h
    have h' : (3 * (trigramSet q ∪ trigramSet v).card : ℚ) ≤
        (trigramSet q ∩ trigramSet v).card * 10 := h
    rw [mul_comm 10]
    exact_mod_cast h'
  · intro h
    rw [mul_comm 10] at h
    exact_mod_cast h

/-! ### The search and the scan -/

theorem similarHit_eq_some (id : Int64) (sim : ℚ) (h : Hit) :
    similarHit id sim = some h ↔ THRESHOLD ≤ sim ∧ h.id = id ∧ h.score = 1 - sim := by
  unfold similarHit
  obtain ⟨hid, hscore⟩ := h
  split
  · rename_i hsim
    simp only [Option.some.injEq, Hit.mk.injEq]
    exact ⟨fun heq => ⟨hsim, heq.1.symm, heq.2.symm⟩, fun heq => ⟨heq.2.1.symm, heq.2.2.symm⟩⟩
  · rename_i hsim
    exact iff_of_false (by simp) fun heq => hsim heq.1

theorem filterMap_filter_of_isSome {α β : Type} {l : List α} {p : α → Bool} {f : α → Option β}
    (h : ∀ x, (f x).isSome = true → p x = true) : (l.filter p).filterMap f = l.filterMap f := by
  induction l with
  | nil => rfl
  | cons x l ih =>
    by_cases hp : p x = true
    · rw [List.filter_cons_of_pos hp, List.filterMap_cons, List.filterMap_cons, ih]
    · have hnone : f x = none := by
        rw [← Option.not_isSome_iff_eq_none]
        exact fun hsome => hp (h x hsome)
      rw [List.filter_cons_of_neg hp, ih, List.filterMap_cons_none hnone]

variable {sq : Sqlite} {q : Text} (hlen : 3 ≤ q.length) {db : Db}

include hlen

/-- Nothing is lost by asking the full-text table first. -/
theorem longRows_eq_scan (hs : Synced db) (hnul : '\x00' ∉ q) :
    FuzzyTrigram.longRows sq q db = .ok (scanSimilar q db) := by
  obtain ⟨expr, hexpr, _, hsome⟩ := parse_trigrams hlen
  have hselected : ∀ r : Int64 × Text,
      (similarHit r.1 (jaccard (trigrams q) (trigrams r.2))).isSome = true →
      Fts5.isMatch sq.fold (((trigrams q).map trigramText).insertionSort (· ≤ ·)) r.2 = true :=
    fun r hr => selected_of_jaccard sq.fold hnul ((similarHit_isSome _ _).mp hr)
  simp only [FuzzyTrigram.longRows, hexpr, Sqlite.matchRows, hsome hnul, Stepped.whole,
    Option.elim_none, Except.map]
  rw [filterMap_filter_of_isSome hselected, docs_toList hs, List.filterMap_map, scanSimilar]
  rfl

theorem scanSimilar_hits : SimilarHits q db (scanSimilar q db) := by
  have hid : ∀ (r : Int64 × Entry) (h : Hit),
      similarHit r.1 (jaccard (trigrams q) (trigrams r.2.norm)) = some h → h.id = r.1 :=
    fun r h hr => similarHit_id hr
  refine ⟨rfl, sorted_insertionSort _, ?_, fun h => ?_⟩
  · have hstored : Stored db (scanSimilar q db) :=
      stored_perm (List.perm_insertionSort _ _) (stored_filterMap hid (List.Subperm.refl _))
    exact stored_nodup hstored
  · rw [scanSimilar, List.mem_insertionSort, List.mem_filterMap]
    constructor
    · rintro ⟨r, hr, hh⟩
      rw [similarHit_eq_some, similar_iff hlen, jaccard_eq] at hh
      obtain ⟨hsim, hrid, hscore⟩ := hh
      refine ⟨r.2, ?_, hsim, hscore⟩
      rw [hrid]
      exact (Table.mem_toList _ _ _).mp hr
    · rintro ⟨en, hen, hsim, hscore⟩
      refine ⟨(h.id, en), (Table.mem_toList _ _ _).mpr hen, ?_⟩
      rw [similarHit_eq_some, similar_iff hlen, jaccard_eq]
      exact ⟨hsim, rfl, hscore⟩

/-- On tables in sync the unlimited search is the scan, just when the query has no U+0000. -/
theorem fuzzyTrigram_scan_iff (hf : sq.rowFault = none) (hs : Synced db) {limit : UInt32}
    (hlimit : db.entries.size ≤ limit.toNat) (bits : UInt8) :
    (∃ hits, (((buildStrategy sq .fuzzyTrigram).search q limit).run (quiet db none bits false)).1 =
        .ok hits ∧ SimilarHits q db hits) ↔ '\x00' ∉ q := by
  have hne : q ≠ [] := by
    rintro rfl
    simp at hlen
  constructor
  · rintro ⟨hits, hrun, _⟩
    have hst : AsksFts .fuzzyTrigram := trivial
    exact (search_answers_iff hlen hf hst db bits limit).mp ⟨hits, hrun⟩ rfl
  · intro hnul
    have hfit : (scanSimilar q db).length ≤ limit.toNat := by
      have hle := List.length_filterMap_le
        (fun r : Int64 × Entry => similarHit r.1 (jaccard (trigrams q) (trigrams r.2.norm)))
        db.entries.toList
      rw [Std.ExtTreeMap.length_toList] at hle
      rw [scanSimilar, List.length_insertionSort]
      omega
    refine ⟨scanSimilar q db, ?_, scanSimilar_hits hlen⟩
    rw [Prog.run, eval_strategySearch hf db none bits false .fuzzyTrigram hne limit, strategyRows,
      if_neg (by omega), longRows_eq_scan hlen hs hnul]
    simp only [Except.map, outcome, limited, List.take_of_length_le hfit]

omit hlen

theorem fuzzyTrigram_scan_keepCase :
    (∃ hits, (((buildStrategy .plain .fuzzyTrigram).search ['A', 'B', 'C'] u32Max).run
        (quiet keepCaseHost.file none DEFAULT_FIELD_BITS false)).1 = .ok hits ∧
      SimilarHits ['A', 'B', 'C'] keepCaseHost.file hits) ↔ '\x00' ∉ ['A', 'B', 'C'] :=
  have hfresh : Host.Ok .ascii {} := Host.fresh_ok
  have hinv := (Host.run_ok keepCaseActions hfresh).invariant
  fuzzyTrigram_scan_iff (by decide) rfl hinv.synced keepCaseHost_hits.2 DEFAULT_FIELD_BITS

theorem fuzzyTrigram_scan_cut :
    ¬ ∀ (db : Db) (q : Text) (limit : UInt32), Synced db → 3 ≤ q.length →
      db.entries.size ≤ limit.toNat →
      ∃ hits, (((buildStrategy .plain .fuzzyTrigram).search q limit).run
        (quiet db none DEFAULT_FIELD_BITS false)).1 = .ok hits ∧ SimilarHits q db hits := by
  intro h
  obtain ⟨hits, hrun, _⟩ := h Db.fresh cutQuery 10 (fun _ => rfl) (by decide) (by decide)
  have herr : (((buildStrategy .plain .fuzzyTrigram).search cutQuery 10).run
      (quiet Db.fresh none DEFAULT_FIELD_BITS false)).1 = .err (.db "unterminated string") := by
    decide +kernel
  rw [herr] at hrun
  cases hrun

end Unfydqry.Search
