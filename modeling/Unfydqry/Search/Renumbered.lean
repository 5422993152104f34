import Unfydqry.Lib.Renaming
import Unfydqry.Search.RowOrder

/-! # Searches of a renumbered index

When the ids are renumbered in order, a `SELECT` whose scores depend on the texts and whose
row order depends on the texts and the order of the ids yields the same rows under their
new ids, and so does every strategy. -/

namespace Unfydqry

/-- The scores and the row orders that SQLite leaves open depend on the ids through their
order only. -/
structure Sqlite.OrderOnly (sq : Sqlite) : Prop where
  scan : ∀ (f : Int64 → Int64) (t t' : Entries), Table.KeepsOrder f t → Table.Renamed f t t' →
    ∀ sql binds, sq.scan sql binds t' = (sq.scan sql binds t).map fun r => (f r.1, r.2)
  bm25 : ∀ (f : Int64 → Int64) (t t' : Docs), Table.KeepsOrder f t → Table.Renamed f t t' →
    ∀ phrases (id : Int64) text, t[id]? = some text →
      sq.bm25 t' phrases (f id) = sq.bm25 t phrases id
  ties : ∀ (f : Int64 → Int64) (t t' : Docs), Table.KeepsOrder f t → Table.Renamed f t t' →
    ∀ phrases ids, ids.Sublist (t.toList.map Prod.fst) →
      sq.ties t' phrases (ids.map f) = (sq.ties t phrases ids).map f

theorem Sqlite.plain_orderOnly : Sqlite.plain.OrderOnly where
  scan _ _ _ _ h _ _ := h
  bm25 _ _ _ _ _ _ _ _ _ := rfl
  ties _ _ _ _ _ _ _ _ := rfl

def Hit.renumbered (f : Int64 → Int64) (h : Hit) : Hit := { h with id := f h.id }

/-- The tables of `db'` are those of `db` with the ids renumbered in order. -/
structure Db.Renumbered (f : Int64 → Int64) (db db' : Db) : Prop where
  entries : Table.Renamed f db.entries db'.entries
  docs : Table.Renamed f db.docs db'.docs
  entriesOrder : Table.KeepsOrder f db.entries
  docsOrder : Table.KeepsOrder f db.docs

namespace Search

variable {sq : Sqlite} {f : Int64 → Int64} {db db' : Db}

theorem id_le_iff (hf : Table.KeepsOrder f db.entries) {a b : Int64} {x y : Entry}
    (ha : (a, x) ∈ db.entries.toList) (hb : (b, y) ∈ db.entries.toList) : f a ≤ f b ↔ a ≤ b := by
  have h := hf _ ha _ hb
  rw [← Std.isLE_compare, ← Std.isLE_compare, h]

theorem rank_renumbered (hf : Table.KeepsOrder f db.entries) {hits : List Hit}
    (hstored : Stored db hits) :
    (hits.map (Hit.renumbered f)).insertionSort hitOrder =
      (hits.insertionSort hitOrder).map (Hit.renumbered f) := by
  have hentry : ∀ h ∈ hits, ∃ en, (h.id, en) ∈ db.entries.toList := by
    intro h hh
    obtain ⟨⟨id, en⟩, hr, heq⟩ := List.mem_map.mp (hstored.subset (List.mem_map_of_mem hh))
    exact ⟨en, by rw [← heq]; exact hr⟩
  symm
  refine List.map_insertionSort hitOrder hitOrder _ _ fun a ha b hb => ?_
  obtain ⟨x, hx⟩ := hentry a ha
  obtain ⟨y, hy⟩ := hentry b hb
  simp only [hitOrder, Hit.renumbered, id_le_iff hf hx hy]

theorem filterMap_renumbered {α : Type} (l : List (Int64 × α)) {g : Int64 × α → Option Hit}
    (hg : ∀ id x, g (f id, x) = (g (id, x)).map (Hit.renumbered f)) :
    (l.map fun r => (f r.1, r.2)).filterMap g = (l.filterMap g).map (Hit.renumbered f) := by
  rw [List.filterMap_map, List.map_filterMap]
  exact List.filterMap_congr fun r _ => hg r.1 r.2

theorem similarHit_renumbered (id : Int64) (sim : ℚ) :
    similarHit (f id) sim = (similarHit id sim).map (Hit.renumbered f) := by
  unfold similarHit
  split <;> rfl

theorem wordHit_renumbered (dist : Text → Text → ℕ → Option ℕ) (q : Text) (id : Int64)
    (en : Entry) :
    wordHit dist q (f id, en) = (wordHit dist q (id, en)).map (Hit.renumbered f) := by
  unfold wordHit
  rw [Option.map_map]
  rfl

section Renumbered

variable (h : db.Renumbered f db')

include h

theorem rangeRows_renumbered (col : Entry → Option Text) (key : Text) (upper : Option Text) :
    rangeRows col key upper db'.entries =
      (rangeRows col key upper db.entries).map (Hit.renumbered f) := by
  have hrows : (db'.entries.toList.filterMap fun r => (col r.2).map fun v => (v, r.1)) =
      (db.entries.toList.filterMap fun r => (col r.2).map fun v => (v, r.1)).map
        fun r => (r.1, f r.2) := by
    rw [h.entries, List.filterMap_map, List.map_filterMap]
    refine List.filterMap_congr fun r _ => ?_
    simp only [Function.comp_def, Option.map_map]
  have hsort : ∀ l : List (Text × Int64), indexOrder (l.map fun r => (r.1, f r.2)) =
      (indexOrder l).map fun r => (r.1, f r.2) := by
    intro l
    symm
    exact List.map_insertionSort _ _ _ _ fun a _ b _ => Iff.rfl
  simp only [rangeRows, hrows, hsort, List.filter_map, List.map_map]
  rfl

theorem matchRows_renumbered (expr : Text) :
    sq.matchRows expr db'.docs = (sq.matchRows expr db.docs).map fun r => (f r.1, r.2) := by
  unfold Sqlite.matchRows
  cases Fts5.parse expr with
  | none => rfl
  | some phrases =>
    change Stepped.mk _ none = Stepped.mk _ none
    rw [h.docs.filter]

variable (hsq : sq.OrderOnly)

include hsq

theorem rankedRows_renumbered (expr : Text) :
    sq.rankedRows expr db'.docs = (sq.rankedRows expr db.docs).map fun r => (f r.1, r.2) := by
  unfold Sqlite.rankedRows
  cases Fts5.parse expr with
  | none => rfl
  | some phrases =>
    simp only [Stepped.map]
    congr 1
    obtain ⟨ids, hids⟩ : ∃ ids, ids = (db.docs.toList.filter fun r =>
      Fts5.isMatch sq.fold phrases r.2).map Prod.fst := ⟨_, rfl⟩
    have hsub : ids.Sublist (db.docs.toList.map Prod.fst) := by
      rw [hids]
      exact List.filter_sublist.map _
    have hids' : ((db'.docs.toList.filter fun r => Fts5.isMatch sq.fold phrases r.2).map
        Prod.fst) = ids.map f := by
      rw [h.docs.filter fun text => Fts5.isMatch sq.fold phrases text, hids, List.map_map,
        List.map_map]
      rfl
    have hscore : ∀ id ∈ sq.ties db.docs phrases ids,
        sq.bm25 db'.docs phrases (f id) = sq.bm25 db.docs phrases id := by
      intro id hid
      have hmem := hsub.subset ((sq.ties_perm _ _ _).mem_iff.mp hid)
      obtain ⟨⟨k, text⟩, hr, rfl⟩ := List.mem_map.mp hmem
      exact hsq.bm25 f _ _ h.docsOrder h.docs phrases k text ((Table.mem_toList _ _ _).mp hr)
    rw [hids', ← hids, hsq.ties f _ _ h.docsOrder h.docs phrases ids hsub, List.map_map]
    have hmap : (sq.ties db.docs phrases ids).map
          ((fun id => (id, sq.bm25 db'.docs phrases id)) ∘ f) =
        ((sq.ties db.docs phrases ids).map fun id => (id, sq.bm25 db.docs phrases id)).map
          fun r => (f r.1, r.2) := by
      rw [List.map_map]
      refine List.map_congr_left fun id hid => ?_
      simp only [Function.comp_def, hscore id hid]
    rw [hmap]
    symm
    exact List.map_insertionSort _ _ _ _ fun a _ b _ => Iff.rfl

theorem scanAll_renumbered :
    (sq.scanAll db'.entries).rows =
      (sq.scanAll db.entries).rows.map fun r => (f r.1, r.2) :=
  hsq.scan f _ _ h.entriesOrder h.entries _ _

theorem likeHits_renumbered (patterns : List Text) :
    likeHits sq patterns db' = (likeHits sq patterns db).map (Hit.renumbered f) := by
  rw [likeHits, likeHits, Sqlite.likeRows, Sqlite.likeRows,
    hsq.scan f _ _ h.entriesOrder h.entries, Stepped.select_map, Stepped.map_map, Stepped.map_map]
  rfl

theorem substring_renumbered (q : Text) :
    Substring.rows sq q db' = (Substring.rows sq q db).map (Hit.renumbered f) := by
  unfold Substring.rows
  split
  · exact likeHits_renumbered h hsq _
  · rw [matchRows_renumbered h, Stepped.map_map, Stepped.map_map]
    rfl

theorem trigramBm25_renumbered (q : Text) :
    TrigramBm25.rows sq q db' = (TrigramBm25.rows sq q db).map (Hit.renumbered f) := by
  unfold TrigramBm25.rows
  split
  · exact likeHits_renumbered h hsq _
  · rw [rankedRows_renumbered h hsq, Stepped.map_map, Stepped.map_map]
    rfl

theorem wordRows_renumbered (dist : Text → Text → ℕ → Option ℕ) (q : Text) :
    wordRows sq dist q db' = (wordRows sq dist q db).map (Hit.renumbered f) := by
  rw [wordRows, wordRows, scanAll_renumbered h hsq,
    filterMap_renumbered _ (wordHit_renumbered dist q)]
  exact rank_renumbered h.entriesOrder (stored_filterMap (wordHit_id _) (stored_scan _ _))

theorem fuzzyTrigram_renumbered (hs : Synced db) (q : Text) :
    strategyRows sq q db' .fuzzyTrigram =
      (strategyRows sq q db .fuzzyTrigram).map (List.map (Hit.renumbered f)) := by
  rw [strategyRows, strategyRows]
  split
  · change Except.ok _ = Except.ok _
    rw [FuzzyTrigram.shortRows, FuzzyTrigram.shortRows, scanAll_renumbered h hsq,
      filterMap_renumbered _ fun id en => similarHit_renumbered id _]
    congr 1
    exact rank_renumbered h.entriesOrder
      (stored_filterMap (fun r h hr => similarHit_id hr) (stored_scan _ _))
  · unfold FuzzyTrigram.longRows
    cases buildFts5Or (trigrams q) with
    | none => rfl
    | some expr =>
      simp only [matchRows_renumbered h, Stepped.whole_map]
      cases hm : (sq.matchRows expr db.docs).whole with
      | error e => rfl
      | ok rows =>
        change Except.ok _ = Except.ok _
        dsimp only
        rw [← (Stepped.whole_ok hm).2,
          filterMap_renumbered _ fun id text => similarHit_renumbered id _]
        congr 1
        exact rank_renumbered h.entriesOrder (stored_filterMap (fun r h hr => similarHit_id hr)
          (((matchRows_rows _ _).map _).subperm.trans (stored_docs hs)))

/-- Every strategy finds the same rows under their new ids. -/
theorem strategyRows_renumbered (hs : Synced db) (q : Text) (st : SearchStrategy) :
    strategyRows sq q db' st =
      (strategyRows sq q db st).map (List.map (Hit.renumbered f)) := by
  cases st with
  | trigramBm25 =>
    rw [strategyRows, strategyRows, trigramBm25_renumbered h hsq]
    rfl
  | substring =>
    rw [strategyRows, strategyRows, substring_renumbered h hsq]
    rfl
  | prefixMatch => exact congrArg Except.ok (rangeRows_renumbered h _ _ _)
  | suffixMatch => exact congrArg Except.ok (rangeRows_renumbered h _ _ _)
  | allTerms =>
    simp only [strategyRows, likeHits_renumbered h hsq]
    split
    · rfl
    · split <;> rfl
  | fuzzyTrigram => exact fuzzyTrigram_renumbered h hsq hs q
  | levenshtein => exact congrArg Except.ok (wordRows_renumbered h hsq _ q)
  | damerauLevenshtein => exact congrArg Except.ok (wordRows_renumbered h hsq _ q)

end Renumbered

end Search

end Unfydqry
