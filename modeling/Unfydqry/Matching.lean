import Unfydqry.LiteralSearch
import Unfydqry.Search.RowOrder

/-! # Which documents a strategy matches

For every strategy a condition on the stored entry that its complete list of rows
satisfies exactly. Only a rejected expression, of a full-text query that is read to its
end or of too many terms, yields no list at all. -/

namespace Unfydqry.Search

open LockedStore Prog Store

/-! ### The expression of the trigrams -/

theorem fts5Phrase_append (p rest : Text) :
    Fts5.fts5Phrase p ++ rest = '"' :: (Fts5.doubleQuotes p ++ '"' :: rest) := by
  simp [Fts5.fts5Phrase]

theorem joinOr_cons (p : Text) {ps : List Text} (hps : ps ≠ []) :
    joinOr (p :: ps) = p ++ (" OR ".toList ++ joinOr ps) := by
  cases ps with
  | nil => exact absurd rfl hps
  | cons p' ps => simp only [joinOr, List.append_assoc]

/-- The expression of some phrases, the first of which is not cut off. -/
theorem cString_joinOr {p : Text} (hp : '\x00' ∉ p) {ps : List Text} (hps : ps ≠ []) :
    cString (joinOr ((p :: ps).map Fts5.fts5Phrase)) =
      Fts5.fts5Phrase p ++
        (" OR ".toList ++ cString (joinOr (ps.map Fts5.fts5Phrase))) := by
  have hmap : ps.map Fts5.fts5Phrase ≠ [] := fun h => hps (List.map_eq_nil_iff.mp h)
  have hphrase : '\x00' ∉ Fts5.fts5Phrase p := fun h => hp ((Fts5.nul_mem_fts5Phrase p).mp h)
  have hor : '\x00' ∉ " OR ".toList := by decide
  rw [List.map_cons, joinOr_cons _ hmap, cString_append_of_free hphrase,
    cString_append_of_free hor]

theorem readPhrases_joinOr_cons {p : Text} (hp : '\x00' ∉ p) {ps : List Text} (hps : ps ≠ [])
    (n : ℕ) :
    Fts5.readPhrases (n + 1) (cString (joinOr ((p :: ps).map Fts5.fts5Phrase))) =
      (Fts5.readPhrases n (cString (joinOr (ps.map Fts5.fts5Phrase)))).map (p :: ·) := by
  rw [cString_joinOr hp hps, fts5Phrase_append, Fts5.readPhrases,
    Fts5.readPhrase_append _ (by simp)]
  simp

theorem length_le_joinOr {ps : List Text} (hfree : ∀ p ∈ ps, '\x00' ∉ p) :
    ps.length ≤ (cString (joinOr (ps.map Fts5.fts5Phrase))).length := by
  induction ps with
  | nil => exact Nat.zero_le _
  | cons p ps ih =>
    rw [List.forall_mem_cons] at hfree
    have hphrase : '\x00' ∉ Fts5.fts5Phrase p :=
      fun h => hfree.1 ((Fts5.nul_mem_fts5Phrase p).mp h)
    have hpos : 1 ≤ (Fts5.fts5Phrase p).length := by simp [Fts5.fts5Phrase]
    by_cases hlast : ps = []
    · rw [hlast, List.map_cons, List.map_nil, joinOr, cString_eq_self hphrase]
      exact hpos
    · have hrest := ih hfree.2
      rw [cString_joinOr hfree.1 hlast, List.length_append, List.length_append, List.length_cons]
      omega

theorem readPhrases_joinOr {ps : List Text} (hps : ps ≠ []) (hfree : ∀ p ∈ ps, '\x00' ∉ p)
    {n : ℕ} (hn : ps.length ≤ n) :
    Fts5.readPhrases n (cString (joinOr (ps.map Fts5.fts5Phrase))) = some ps := by
  induction ps generalizing n with
  | nil => exact absurd rfl hps
  | cons p ps ih =>
    rw [List.forall_mem_cons] at hfree
    obtain ⟨n, rfl⟩ : ∃ m, n = m + 1 := ⟨n - 1, by simp at hn; omega⟩
    by_cases hlast : ps = []
    · subst hlast
      have hphrase : '\x00' ∉ Fts5.fts5Phrase p :=
        fun h => hfree.1 ((Fts5.nul_mem_fts5Phrase p).mp h)
      rw [List.map_cons, List.map_nil, joinOr, cString_eq_self hphrase]
      simp [Fts5.fts5Phrase, Fts5.readPhrases, Fts5.readPhrase_doubleQuotes]
    · have hrest := ih hlast hfree.2 (n := n) (by simp at hn; omega)
      rw [readPhrases_joinOr_cons hfree.1 hlast, hrest, Option.map_some]

theorem readPhrases_joinOr_nul {ps : List Text} (h : ∃ p ∈ ps, '\x00' ∈ p) (n : ℕ) :
    Fts5.readPhrases n (cString (joinOr (ps.map Fts5.fts5Phrase))) = none := by
  induction ps generalizing n with
  | nil => simp at h
  | cons p ps ih =>
    cases n with
    | zero => rfl
    | succ n =>
      by_cases hp : '\x00' ∈ p
      · -- the expression ends inside the first phrase
        obtain ⟨q', hq'⟩ := Fts5.cString_fts5Phrase_nul hp
        have hcut : cString (joinOr ((p :: ps).map Fts5.fts5Phrase)) =
            '"' :: Fts5.doubleQuotes q' := by
          by_cases hlast : ps = []
          · rw [hlast, List.map_cons, List.map_nil, joinOr, hq']
          · have hmap : ps.map Fts5.fts5Phrase ≠ [] := fun h => hlast (List.map_eq_nil_iff.mp h)
            rw [List.map_cons, joinOr_cons _ hmap,
              cString_append_of_mem ((Fts5.nul_mem_fts5Phrase p).mpr hp), hq']
        rw [hcut]
        simp [Fts5.readPhrases, Fts5.readPhrase_unclosed]
      · obtain ⟨p', hmem, hnul⟩ := h
        have hin : p' ∈ ps := (List.mem_cons.mp hmem).resolve_left fun heq => hp (heq ▸ hnul)
        rw [readPhrases_joinOr_cons hp (List.ne_nil_of_mem hin), ih ⟨p', hin, hnul⟩ n,
          Option.map_none]

theorem infix_of_mem_windows {s : Text} {t : Char × Char × Char} (h : t ∈ windows s) :
    trigramText t <:+: s := by
  induction s with
  | nil => cases h
  | cons a s ih =>
    match s, h, ih with
    | b :: c :: s, h, ih =>
      rw [windows, List.mem_cons] at h
      rcases h with rfl | h
      · exact (List.prefix_append [a, b, c] s).isInfix
      · exact (ih h).trans (List.suffix_cons a _).isInfix

theorem mem_windows_of_mem {s : Text} {x : Char} (hx : x ∈ s) (hlen : 3 ≤ s.length) :
    ∃ t ∈ windows s, x ∈ trigramText t := by
  induction s with
  | nil => cases hx
  | cons a s ih =>
    match s, hx, hlen, ih with
    | b :: c :: s, hx, _, ih =>
      by_cases hfirst : x ∈ [a, b, c]
      · exact ⟨(a, b, c), List.mem_cons_self .., hfirst⟩
      · -- a later character is in a later window
        simp only [List.mem_cons, List.not_mem_nil, or_false, not_or] at hfirst hx
        have hrest : x ∈ s := by
          rcases hx with h | h | h | h
          · exact absurd h hfirst.1
          · exact absurd h hfirst.2.1
          · exact absurd h hfirst.2.2
          · exact h
        have hlong : 3 ≤ (b :: c :: s).length := by
          have hpos := List.length_pos_of_mem hrest
          simp only [List.length_cons]
          omega
        obtain ⟨t, ht, hxt⟩ := ih (List.mem_cons_of_mem _ (List.mem_cons_of_mem _ hrest)) hlong
        exact ⟨t, List.mem_cons_of_mem _ ht, hxt⟩

theorem trigrams_ne_nil {q : Text} (hlen : 3 ≤ q.length) : trigrams q ≠ [] := by
  match q, hlen with
  | a :: b :: c :: q, _ =>
    intro h
    have hmem : (a, b, c) ∈ trigrams (a :: b :: c :: q) :=
      List.mem_dedup.mpr (List.mem_cons_self ..)
    rw [h] at hmem
    cases hmem

/-- The expression of a long query lists its trigrams, unless one holds U+0000. -/
theorem parse_trigrams {q : Text} (hlen : 3 ≤ q.length) :
    ∃ expr, buildFts5Or (trigrams q) = some expr ∧
      ('\x00' ∈ q → Fts5.parse expr = none) ∧
      ('\x00' ∉ q → Fts5.parse expr =
        some (((trigrams q).map trigramText).insertionSort (· ≤ ·))) := by
  have hsort : ∀ p, p ∈ ((trigrams q).map trigramText).insertionSort (· ≤ ·) ↔
      ∃ t ∈ windows q, trigramText t = p := by
    intro p
    rw [List.mem_insertionSort, List.mem_map]
    simp only [trigrams, List.mem_dedup]
  have hne := trigrams_ne_nil hlen
  have hnil : ((trigrams q).map trigramText).insertionSort (· ≤ ·) ≠ [] := by
    intro h
    have hz := congrArg List.length h
    rw [List.length_insertionSort, List.length_map, List.length_nil,
      List.length_eq_zero_iff] at hz
    exact hne hz
  refine ⟨_, by rw [buildFts5Or, if_neg (by simpa using hne)], ?_, ?_⟩
  · intro hnul
    obtain ⟨t, ht, hin⟩ := mem_windows_of_mem hnul hlen
    exact readPhrases_joinOr_nul ⟨_, (hsort _).mpr ⟨t, ht, rfl⟩, hin⟩ _
  · intro hnul
    have hfree : ∀ p ∈ ((trigrams q).map trigramText).insertionSort (· ≤ ·), '\x00' ∉ p := by
      intro p hp hin
      obtain ⟨t, ht, rfl⟩ := (hsort p).mp hp
      exact hnul ((infix_of_mem_windows ht).subset hin)
    exact readPhrases_joinOr hnil hfree (length_le_joinOr hfree)

theorem windows_of_jaccard {a b : List (Char × Char × Char)} (h : THRESHOLD ≤ jaccard a b) :
    ∃ t ∈ a, t ∈ b := by
  by_contra hnone
  have hinter : (a.filter fun t => t ∈ b) = [] := by
    refine List.filter_eq_nil_iff.mpr fun t ht hb => ?_
    exact hnone ⟨t, ht, by simpa using hb⟩
  have hpos : (0 : ℚ) < THRESHOLD := by
    rw [THRESHOLD]
    norm_num
  have hzero : jaccard a b = 0 := by
    unfold jaccard
    simp [hinter]
  rw [hzero] at h
  exact absurd h hpos.not_ge

/-- A similar text has a trigram of the query, so the expression selects it. -/
theorem selected_of_jaccard (fold : Char → Char) {q v : Text} (hnul : '\x00' ∉ q)
    (h : THRESHOLD ≤ jaccard (trigrams q) (trigrams v)) :
    Fts5.isMatch fold (((trigrams q).map trigramText).insertionSort (· ≤ ·)) v = true := by
  obtain ⟨t, hq, hv⟩ := windows_of_jaccard h
  have hrun := infix_of_mem_windows (List.mem_dedup.mp hv)
  have hown := infix_of_mem_windows (List.mem_dedup.mp hq)
  rw [Fts5.isMatch, List.any_eq_true]
  refine ⟨trigramText t, ?_, ?_⟩
  · rw [List.mem_insertionSort]
    exact List.mem_map_of_mem hq
  · exact Fts5.phraseMatches_of_infix fold (fun h => hnul (hown.subset h)) (le_refl 3) hrun

/-! ### The condition of each strategy -/

/-- `LIKE` finds every term, with patterns that it does not refuse. -/
def SeesTerms (terms : List Text) (v : Text) : Prop :=
  ∀ t ∈ terms, Like.tooLong (termPattern t) = false ∧ Like.Contains t v

instance (terms : List Text) : DecidablePred (SeesTerms terms) := fun v =>
  inferInstanceAs (Decidable (∀ t ∈ terms, _ ∧ Like.Contains t v))

/-- `LIKE` comes to a term whose pattern it refuses: it finds all terms before that one. -/
def ReachesLong (terms : List Text) (v : Text) : Prop :=
  ∃ before t after, terms = before ++ t :: after ∧ SeesTerms before v ∧
    Like.tooLong (termPattern t) = true

theorem reachesLong_iff (terms : List Text) (v : Text) :
    Sqlite.reachesLong v (terms.map termPattern) = true ↔ ReachesLong terms v := by
  induction terms with
  | nil =>
    refine iff_of_false Bool.false_ne_true ?_
    rintro ⟨before, t, after, h, _⟩
    exact absurd h.symm (by simp)
  | cons t terms ih =>
    rw [List.map_cons, Sqlite.reachesLong, Bool.or_eq_true, Bool.and_eq_true, ih, termPattern,
      Like.isMatch_contains]
    constructor
    · rintro (hlong | ⟨hsees, before, t', after, rfl, hbefore, hlong⟩)
      · exact ⟨[], t, terms, rfl, by simp [SeesTerms], hlong⟩
      · by_cases hfit : Like.tooLong (termPattern t) = true
        · exact ⟨[], t, _, rfl, by simp [SeesTerms], hfit⟩
        · refine ⟨t :: before, t', after, rfl, ?_, hlong⟩
          exact List.forall_mem_cons.mpr ⟨⟨Bool.eq_false_iff.mpr hfit, hsees⟩, hbefore⟩
    · rintro ⟨before, t', after, h, hbefore, hlong⟩
      cases before with
      | nil =>
        obtain ⟨rfl, rfl⟩ := List.cons_eq_cons.mp h
        exact .inl hlong
      | cons b before =>
        obtain ⟨rfl, rfl⟩ := List.cons_eq_cons.mp h
        obtain ⟨⟨_, hsees⟩, hrest⟩ := List.forall_mem_cons.mp hbefore
        exact .inr ⟨hsees, before, t', after, rfl, hrest, hlong⟩

/-- What the rows of a strategy have in common; `inRange` is the comparison of the range
scans. -/
def Matches (sq : Sqlite) (q : Text) (en : Entry) : SearchStrategy → Prop
  | .trigramBm25 => FoundIn sq q en.norm
  | .substring => FoundIn sq q en.norm
  | .prefixMatch => inRange q (rangeUpperBound q) (some en.norm) = true
  | .suffixMatch =>
    inRange (reverseChars q) (rangeUpperBound (reverseChars q)) en.normRev = true
  | .allTerms => splitWhitespace q ≠ [] ∧ SeesTerms (splitWhitespace q) en.norm
  | .fuzzyTrigram =>
    if q.length < 3 then q = en.norm else THRESHOLD ≤ jaccard (trigrams q) (trigrams en.norm)
  | .levenshtein =>
    ∃ w ∈ splitWhitespace en.norm, (levenshtein q w (maxDistance q.length)).isSome
  | .damerauLevenshtein => ∃ w ∈ splitWhitespace en.norm, (osa q w (maxDistance q.length)).isSome

/-- The search fails: the trigrams of the query make an expression that is cut at U+0000, or its
terms more conditions than a statement may have. -/
def Refused (q : Text) : SearchStrategy → Prop
  | .fuzzyTrigram => ¬ Searchable q
  | .allTerms => Sqlite.tooDeep (splitWhitespace q).length = true
  | _ => False

theorem bestWord_isSome (dist : Text → Text → ℕ → Option ℕ) (q : Text) (threshold : ℕ)
    (ws : List Text) (best : Option ℕ) :
    (bestWord dist q threshold best ws).isSome =
      (best.isSome || ws.any fun w => (dist q w threshold).isSome) := by
  induction ws generalizing best with
  | nil => simp [bestWord]
  | cons w ws ih =>
    cases hd : dist q w threshold with
    | none => simp [bestWord, hd, ih]
    | some d =>
      by_cases hz : d = 0
      · simp [bestWord, hd, hz]
      · simp [bestWord, hd, hz, ih]

section Membership

variable {sq : Sqlite} {q : Text} {db : Db} {rows : List Hit}

theorem mem_filterMap_ids {α : Type} {l : List (Int64 × α)} {f : Int64 × α → Option Hit}
    (hf : ∀ r h, f r = some h → h.id = r.1) (id : Int64) :
    id ∈ ((l.filterMap f).insertionSort hitOrder).map Hit.id ↔
      ∃ v, (id, v) ∈ l ∧ (f (id, v)).isSome = true := by
  simp only [List.mem_map, List.mem_insertionSort, List.mem_filterMap]
  constructor
  · rintro ⟨h, ⟨r, hr, hh⟩, rfl⟩
    have hid := hf r h hh
    refine ⟨r.2, ?_, ?_⟩
    · rw [hid]
      exact hr
    · rw [hid, hh]
      rfl
  · rintro ⟨v, hv, hsome⟩
    obtain ⟨h, hh⟩ := Option.isSome_iff_exists.mp hsome
    exact ⟨h, ⟨_, hv, hh⟩, hf _ h hh⟩

theorem mem_scanAll (id : Int64) (en : Entry) :
    (id, en) ∈ (sq.scanAll db.entries).rows ↔ db.entries[id]? = some en := by
  rw [Sqlite.scanAll, (sq.scan_perm _ _ db.entries).mem_iff, Table.mem_toList]

theorem wordHit_isSome (dist : Text → Text → ℕ → Option ℕ) (r : Int64 × Entry) :
    (wordHit dist q r).isSome = true ↔
      ∃ w ∈ splitWhitespace r.2.norm, (dist q w (maxDistance q.length)).isSome := by
  have hbest := bestWord_isSome dist q (maxDistance q.length) (splitWhitespace r.2.norm) none
  rw [Option.isSome_none, Bool.false_or] at hbest
  rw [← List.any_eq_true, ← hbest, wordHit]
  cases bestWord dist q (maxDistance q.length) none (splitWhitespace r.2.norm) <;> simp

theorem mem_wordRows (dist : Text → Text → ℕ → Option ℕ) (id : Int64) :
    id ∈ (wordRows sq dist q db).map Hit.id ↔ ∃ en, db.entries[id]? = some en ∧
      ∃ w ∈ splitWhitespace en.norm, (dist q w (maxDistance q.length)).isSome := by
  rw [wordRows, mem_filterMap_ids (wordHit_id dist)]
  simp only [mem_scanAll, wordHit_isSome]

theorem similarHit_isSome (id : Int64) (sim : ℚ) :
    (similarHit id sim).isSome = true ↔ THRESHOLD ≤ sim := by
  unfold similarHit
  split
  · rename_i h
    exact iff_of_true rfl h
  · rename_i h
    exact iff_of_false (by simp) h

theorem mem_shortRows (id : Int64) :
    id ∈ (FuzzyTrigram.shortRows sq q db).map Hit.id ↔
      ∃ en, db.entries[id]? = some en ∧ q = en.norm := by
  have hsim : ∀ v : Text, THRESHOLD ≤ exactMatchSimilarity q v ↔ q = v := by
    intro v
    unfold exactMatchSimilarity THRESHOLD
    split
    · rename_i h
      exact iff_of_true (by norm_num) h
    · rename_i h
      exact iff_of_false (by norm_num) h
  rw [FuzzyTrigram.shortRows, mem_filterMap_ids fun r h hr => similarHit_id hr]
  simp only [mem_scanAll, similarHit_isSome, hsim]

theorem seesTerms_iff (terms : List Text) (v : Text) :
    ((terms.map termPattern).all fun p => !Like.tooLong p && Like.isMatch p v) = true ↔
      SeesTerms terms v := by
  rw [List.all_map, List.all_eq_true]
  refine forall_congr' fun t => imp_congr_right fun _ => ?_
  rw [Function.comp_apply, Bool.and_eq_true, Bool.not_eq_true', termPattern, Like.isMatch_contains]

variable (sq db) in
theorem likeHits_ids (terms : List Text) :
    ((likeHits sq (terms.map termPattern) db).rows.map Hit.id).Perm
      (idsWhere (SeesTerms terms) db) := by
  have hsees : ∀ v, ((terms.map termPattern).all fun p => !Like.tooLong p && Like.isMatch p v) =
      decide (SeesTerms terms v) := fun v => by
    rw [Bool.eq_iff_iff, decide_eq_true_iff, seesTerms_iff]
  rw [likeHits, Stepped.map, List.map_map, Sqlite.likeRows_rows, idsWhere]
  simp only [hsees]
  exact ((sq.scan_perm _ _ db.entries).filter _).map _

variable (sq db) in
theorem likeHits_stop_iff (terms : List Text) :
    (likeHits sq (terms.map termPattern) db).stop = none ↔
      ∀ (id : Int64) en, db.entries[id]? = some en → ¬ ReachesLong terms en.norm := by
  rw [likeHits, Stepped.map, Sqlite.likeRows_stop, ite_eq_right_iff]
  simp only [reduceCtorEq, imp_false, List.any_eq_true, reachesLong_iff, not_exists, not_and]
  constructor
  · intro h id en hen
    exact h (id, en) ((Table.mem_toList _ _ _).mpr hen)
  · intro h r hr
    exact h r.1 r.2 ((Table.mem_toList _ _ _).mp hr)

variable (hs : Synced db)

include hs

theorem mem_longRows (sq : Sqlite) (hlen : 3 ≤ q.length) :
    ('\x00' ∈ q → ∃ err, FuzzyTrigram.longRows sq q db = .error err) ∧
    ('\x00' ∉ q → ∃ rows, FuzzyTrigram.longRows sq q db = .ok rows ∧
      ∀ id, id ∈ rows.map Hit.id ↔ ∃ en, db.entries[id]? = some en ∧
        THRESHOLD ≤ jaccard (trigrams q) (trigrams en.norm)) := by
  obtain ⟨expr, hexpr, hnone, hsome⟩ := parse_trigrams hlen
  constructor
  · intro hnul
    refine ⟨sq.refusal .expression, ?_⟩
    simp only [FuzzyTrigram.longRows, hexpr, Sqlite.matchRows, hnone hnul]
    rfl
  · intro hnul
    refine ⟨_, by simp only [FuzzyTrigram.longRows, hexpr, Sqlite.matchRows, hsome hnul]; rfl,
      fun id => ?_⟩
    rw [mem_filterMap_ids fun r h hr => similarHit_id hr]
    simp only [similarHit_isSome, List.mem_filter, docs_toList hs, List.mem_map, Prod.mk.injEq]
    constructor
    · rintro ⟨v, ⟨⟨r, hr, rfl, rfl⟩, _⟩, hsim⟩
      exact ⟨r.2, (Table.mem_toList _ _ _).mp hr, hsim⟩
    · rintro ⟨en, hen, hsim⟩
      exact ⟨en.norm, ⟨⟨(id, en), (Table.mem_toList _ _ _).mpr hen, rfl, rfl⟩,
        selected_of_jaccard sq.fold hnul hsim⟩, hsim⟩

omit hs in
theorem not_refused_nil (st : SearchStrategy) : ¬ Refused [] st := by
  cases st with
  | fuzzyTrigram => exact not_not.mpr (.inl (by decide))
  | allTerms => exact Bool.false_ne_true
  | trigramBm25 | substring | prefixMatch | suffixMatch | levenshtein | damerauLevenshtein =>
    exact id

/-- A strategy fails on a query that it refuses, and otherwise lists the entries that match. -/
theorem strategyRows_spec (st : SearchStrategy) :
    (Refused q st → ∃ err, strategyRows sq q db st = .error err) ∧
    (¬ Refused q st → ∃ rows, strategyRows sq q db st = .ok rows ∧
      ∀ id, id ∈ rows.map Hit.id ↔ ∃ en, db.entries[id]? = some en ∧ Matches sq q en st) := by
  have hrange : ∀ (col : Entry → Option Text) (key : Text) (id : Int64),
      id ∈ (rangeRows col key (rangeUpperBound key) db.entries).map Hit.id ↔
        ∃ en, db.entries[id]? = some en ∧ inRange key (rangeUpperBound key) (col en) = true := by
    intro col key id
    rw [(rangeRows_perm col key _ db.entries).mem_iff,
      mem_filter_ids db fun en => inRange key (rangeUpperBound key) (col en)]
  cases st with
  | trigramBm25 =>
    refine ⟨fun h => h.elim, fun _ => ⟨_, rfl, fun id => ?_⟩⟩
    rw [(trigramBm25_listsFound hs q).ids.mem_iff, mem_idsWhere]
    rfl
  | substring =>
    refine ⟨fun h => h.elim, fun _ => ⟨_, rfl, fun id => ?_⟩⟩
    rw [(substring_listsFound hs q).ids.mem_iff, mem_idsWhere]
    rfl
  | prefixMatch => exact ⟨fun h => h.elim, fun _ => ⟨_, rfl, hrange _ q⟩⟩
  | suffixMatch => exact ⟨fun h => h.elim, fun _ => ⟨_, rfl, hrange _ (reverseChars q)⟩⟩
  | allTerms =>
    simp only [Refused, strategyRows, AllTerms.patterns, List.isEmpty_map, List.isEmpty_iff,
      List.length_map]
    by_cases hnil : splitWhitespace q = []
    · rw [if_pos hnil]
      refine ⟨fun h => ?_, fun _ => ⟨[], rfl, fun id => by simp [Matches, hnil]⟩⟩
      rw [hnil] at h
      cases h
    · rw [if_neg hnil]
      refine ⟨fun h => ⟨_, if_pos h⟩, fun h => ⟨_, if_neg h, fun id => ?_⟩⟩
      rw [(likeHits_ids sq db (splitWhitespace q)).mem_iff, mem_idsWhere]
      simp only [Matches, ne_eq, hnil, not_false_iff, true_and]
  | fuzzyTrigram =>
    by_cases hlen : q.length < 3
    · refine ⟨fun h => absurd (.inl hlen) h, fun _ => ⟨_, if_pos hlen, fun id => ?_⟩⟩
      simp only [mem_shortRows, Matches, if_pos hlen]
    · obtain ⟨herr, hok⟩ := mem_longRows hs sq (Nat.le_of_not_lt hlen)
      have hsearch : Searchable q ↔ '\x00' ∉ q := or_iff_right hlen
      simp only [strategyRows, if_neg hlen, hsearch, Matches, Refused]
      exact ⟨fun h => herr (not_not.mp h), fun h => hok (not_not.mp h)⟩
  | levenshtein => exact ⟨fun h => h.elim, fun _ => ⟨_, rfl, mem_wordRows levenshtein⟩⟩
  | damerauLevenshtein => exact ⟨fun h => h.elim, fun _ => ⟨_, rfl, mem_wordRows osa⟩⟩

end Membership

end Unfydqry.Search
