import Unfydqry.Lib.RankedPages
import Unfydqry.Search.Rows

/-! # The rows of a strategy are stored fields, best score first -/

namespace Unfydqry.Search

open RankedPages

theorem rangeRows_perm (col : Entry → Option Text) (key : Text) (upper : Option Text)
    (entries : Entries) :
    ((rangeRows col key upper entries).map Hit.id).Perm
      ((entries.toList.filter fun r => inRange key upper (col r.2)).map Prod.fst) := by
  have hlist : ∀ l : List (Int64 × Entry),
      (((l.filterMap fun r => (col r.2).map fun v => (v, r.1)).filter
        fun r => inRange key upper (some r.1)).map Prod.snd) =
      (l.filter fun r => inRange key upper (col r.2)).map Prod.fst := by
    intro l
    induction l with
    | nil => rfl
    | cons r l ih =>
      cases hcol : col r.2 with
      | none =>
        have hout : inRange key upper none = false := by cases upper <;> rfl
        simp only [List.filterMap_cons, hcol, Option.map_none, ih, List.filter_cons, hout,
          Bool.false_eq_true, ite_false]
      | some v =>
        cases hin : inRange key upper (some v) with
        | true => simp [hcol, hin, ih]
        | false => simp [hcol, hin, ih]
  rw [← hlist, rangeRows, List.map_map]
  exact ((List.perm_insertionSort _ _).filter _).map _

/-- Ids of stored rows, none twice more often than stored. -/
def Stored (db : Db) (rows : List Hit) : Prop :=
  (rows.map Hit.id).Subperm (db.entries.toList.map Prod.fst)

def BestFirst (rows : List Hit) : Prop := rows.Pairwise fun a b => a.score ≤ b.score

theorem bestFirst_zero {α : Type} (l : List α) (f : α → Int64) :
    BestFirst (l.map fun a => { id := f a, score := 0 }) := by
  rw [BestFirst, List.pairwise_map]
  exact List.pairwise_of_forall fun _ _ => le_refl _

theorem hitOrder_iff (a b : Hit) :
    hitOrder a b ↔ rankOrder (a.id.toInt, a.score) (b.id.toInt, b.score) := by
  simp only [hitOrder, rankOrder, Int64.le_iff_toInt_le]

instance : Std.Total hitOrder where
  total a b := by
    rw [hitOrder_iff, hitOrder_iff]
    exact Std.Total.total _ _

instance : IsTrans Hit hitOrder where
  trans a b c := by
    rw [hitOrder_iff, hitOrder_iff, hitOrder_iff]
    exact Trans.trans

theorem sorted_insertionSort (hits : List Hit) : (hits.insertionSort hitOrder).Pairwise hitOrder :=
  List.pairwise_insertionSort hitOrder hits

theorem bestFirst_of_sorted {rows : List Hit} (h : rows.Pairwise hitOrder) : BestFirst rows := by
  refine h.imp fun {a b} hab => ?_
  rcases hab with hlt | heq
  · exact hlt.le
  · exact heq.1.le

theorem bestFirst_insertionSort (hits : List Hit) : BestFirst (hits.insertionSort hitOrder) :=
  bestFirst_of_sorted (sorted_insertionSort hits)

theorem stored_nodup {db : Db} {rows : List Hit} (h : Stored db rows) :
    (rows.map Hit.id).Nodup := by
  obtain ⟨ids, hperm, hsub⟩ := h
  exact hperm.nodup_iff.mp ((Table.toList_nodup db.entries).sublist hsub)

variable {sq : Sqlite} {q : Text} {db : Db}

theorem stored_filterMap {α : Type} {l : List (Int64 × α)} {f : Int64 × α → Option Hit}
    (hf : ∀ r h, f r = some h → h.id = r.1)
    (hl : (l.map Prod.fst).Subperm (db.entries.toList.map Prod.fst)) :
    Stored db (l.filterMap f) := by
  have hsub : ((l.filterMap f).map Hit.id).Sublist (l.map Prod.fst) := by
    clear hl
    induction l with
    | nil => exact List.Sublist.refl _
    | cons r l ih =>
      cases hr : f r with
      | none =>
        rw [List.filterMap_cons_none hr]
        exact ih.cons _
      | some h =>
        rw [List.filterMap_cons_some hr, List.map_cons, List.map_cons, hf r h hr]
        exact ih.cons_cons _
  exact hsub.subperm.trans hl

theorem stored_perm {rows rows' : List Hit} (hp : rows.Perm rows') (h : Stored db rows') :
    Stored db rows :=
  (hp.map Hit.id).subperm.trans h

theorem stored_scan (sql : String) (binds : List Text) :
    ((sq.scan sql binds db.entries).map Prod.fst).Subperm (db.entries.toList.map Prod.fst) :=
  ((sq.scan_perm sql binds db.entries).map _).subperm

theorem stored_likeHits (patterns : List Text) : Stored db (likeHits sq patterns db).rows := by
  rw [Stored, likeHits, Stepped.map, List.map_map, Sqlite.likeRows_rows]
  exact (List.filter_sublist.map _).subperm.trans (stored_scan _ _)

theorem bestFirst_likeHits (patterns : List Text) : BestFirst (likeHits sq patterns db).rows :=
  bestFirst_zero _ _

theorem stored_docs (hs : Synced db) :
    (db.docs.toList.map Prod.fst).Subperm (db.entries.toList.map Prod.fst) := by
  rw [docs_toList hs, List.map_map]
  exact List.Subperm.refl _

theorem stored_range (col : Entry → Option Text) (key : Text) (upper : Option Text) :
    Stored db (rangeRows col key upper db.entries) :=
  (rangeRows_perm col key upper db.entries).subperm.trans (List.filter_sublist.map _).subperm

theorem similarHit_id {id : Int64} {sim : ℚ} {h : Hit} (hsim : similarHit id sim = some h) :
    h.id = id := by
  unfold similarHit at hsim
  split at hsim
  · rw [← Option.some.inj hsim]
  · cases hsim

theorem wordHit_id (dist : Text → Text → ℕ → Option ℕ) (r : Int64 × Entry) (h : Hit)
    (hr : wordHit dist q r = some h) : h.id = r.1 := by
  obtain ⟨d, _, rfl⟩ := Option.map_eq_some_iff.mp hr
  rfl

theorem matchRows_rows (expr : Text) (docs : Docs) :
    (sq.matchRows expr docs).rows.Sublist docs.toList := by
  unfold Sqlite.matchRows
  split
  · exact List.nil_sublist _
  · exact List.filter_sublist

variable (sq) in
theorem rankedRows_rows (expr : Text) (docs : Docs) :
    (sq.rankedRows expr docs).rows.Pairwise (fun a b => a.2 ≤ b.2) ∧
      ((sq.rankedRows expr docs).rows.map Prod.fst).Subperm (docs.toList.map Prod.fst) := by
  unfold Sqlite.rankedRows
  split
  · exact ⟨List.Pairwise.nil, List.nil_subperm⟩
  · rename_i phrases _
    have htotal : Std.Total fun a b : Int64 × ℚ => a.2 ≤ b.2 := ⟨fun a b => le_total a.2 b.2⟩
    have htrans : IsTrans (Int64 × ℚ) fun a b => a.2 ≤ b.2 := ⟨fun _ _ _ => le_trans⟩
    refine ⟨List.pairwise_insertionSort _ _, ?_⟩
    refine ((List.perm_insertionSort _ _).map Prod.fst).subperm.trans ?_
    rw [List.map_map]
    have hid : (Prod.fst ∘ fun id : Int64 => (id, sq.bm25 docs phrases id)) = id := rfl
    rw [hid, List.map_id]
    exact (sq.ties_perm _ _ _).subperm.trans (List.filter_sublist.map _).subperm

theorem except_map_ok {ε α β : Type} {x : Except ε α} {f : α → β} {b : β}
    (h : x.map f = .ok b) : ∃ a, x = .ok a ∧ f a = b := by
  cases x with
  | error e => cases h
  | ok a => exact ⟨a, rfl, Except.ok.inj h⟩

variable (hs : Synced db) {rows : List Hit}

include hs

theorem substring_rows :
    BestFirst (Substring.rows sq q db).rows ∧ Stored db (Substring.rows sq q db).rows := by
  unfold Substring.rows
  split
  · exact ⟨bestFirst_likeHits _, stored_likeHits _⟩
  · refine ⟨bestFirst_zero _ _, ?_⟩
    rw [Stored, Stepped.map, List.map_map]
    exact ((matchRows_rows _ _).map _).subperm.trans (stored_docs hs)

theorem trigramBm25_rows :
    BestFirst (TrigramBm25.rows sq q db).rows ∧ Stored db (TrigramBm25.rows sq q db).rows := by
  unfold TrigramBm25.rows
  split
  · exact ⟨bestFirst_likeHits _, stored_likeHits _⟩
  · obtain ⟨hsorted, hsub⟩ := rankedRows_rows sq (Fts5.fts5Phrase q) db.docs
    constructor
    · rw [BestFirst, Stepped.map, List.pairwise_map]
      exact hsorted
    · rw [Stored, Stepped.map, List.map_map]
      exact hsub.trans (stored_docs hs)

theorem fuzzyTrigram_rows (h : strategyRows sq q db .fuzzyTrigram = .ok rows) :
    BestFirst rows ∧ Stored db rows := by
  rw [strategyRows] at h
  split at h
  · rw [← Except.ok.inj h]
    refine ⟨bestFirst_insertionSort _, stored_perm (List.perm_insertionSort _ _) ?_⟩
    exact stored_filterMap (fun r h hr => similarHit_id hr) (stored_scan _ _)
  · unfold FuzzyTrigram.longRows at h
    split at h
    · cases h
    · obtain ⟨ms, hms, rfl⟩ := except_map_ok h
      rw [← (Stepped.whole_ok hms).2]
      refine ⟨bestFirst_insertionSort _, stored_perm (List.perm_insertionSort _ _) ?_⟩
      exact stored_filterMap (fun r h hr => similarHit_id hr)
        (((matchRows_rows _ _).map _).subperm.trans (stored_docs hs))

/-- The strategies that rank their hits themselves, by score and then by id. -/
def RanksHits : SearchStrategy → Prop
  | .fuzzyTrigram | .levenshtein | .damerauLevenshtein => True
  | _ => False

omit hs in
theorem strategyRows_sorted {st : SearchStrategy} (hst : RanksHits st)
    (h : strategyRows sq q db st = .ok rows) : rows.Pairwise hitOrder := by
  cases st with
  | fuzzyTrigram =>
    rw [strategyRows] at h
    split at h
    · rw [← Except.ok.inj h]
      exact sorted_insertionSort _
    · unfold FuzzyTrigram.longRows at h
      split at h
      · cases h
      · obtain ⟨ms, _, rfl⟩ := except_map_ok h
        exact sorted_insertionSort _
  | levenshtein =>
    rw [← Except.ok.inj h]
    exact sorted_insertionSort _
  | damerauLevenshtein =>
    rw [← Except.ok.inj h]
    exact sorted_insertionSort _
  | trigramBm25 | substring | prefixMatch | suffixMatch | allTerms => exact hst.elim

theorem strategyRows_ok {st : SearchStrategy} (h : strategyRows sq q db st = .ok rows) :
    BestFirst rows ∧ Stored db rows := by
  cases st with
  | trigramBm25 =>
    rw [← Except.ok.inj h]
    exact trigramBm25_rows hs
  | substring =>
    rw [← Except.ok.inj h]
    exact substring_rows hs
  | prefixMatch =>
    rw [← Except.ok.inj h]
    exact ⟨bestFirst_zero _ _, stored_range _ _ _⟩
  | suffixMatch =>
    rw [← Except.ok.inj h]
    exact ⟨bestFirst_zero _ _, stored_range _ _ _⟩
  | allTerms =>
    rw [strategyRows] at h
    split at h
    · rw [← Except.ok.inj h]
      exact ⟨List.Pairwise.nil, List.nil_subperm⟩
    · split at h
      · cases h
      · rw [← Except.ok.inj h]
        exact ⟨bestFirst_likeHits _, stored_likeHits _⟩
  | fuzzyTrigram => exact fuzzyTrigram_rows hs h
  | levenshtein =>
    rw [← Except.ok.inj h]
    refine ⟨bestFirst_insertionSort _, stored_perm (List.perm_insertionSort _ _) ?_⟩
    exact stored_filterMap (wordHit_id _) (stored_scan _ _)
  | damerauLevenshtein =>
    rw [← Except.ok.inj h]
    refine ⟨bestFirst_insertionSort _, stored_perm (List.perm_insertionSort _ _) ?_⟩
    exact stored_filterMap (wordHit_id _) (stored_scan _ _)

end Unfydqry.Search
