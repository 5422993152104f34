import Unfydqry.FoundHighlighted
import Unfydqry.Search.DisjointWords
import Unfydqry.TopRecords

/-! # Queries made of whitespace only

The calls test the normalized query for emptiness. Whitespace is trimmed by an optional
step; without it such a query is searched for like any other. -/

namespace Unfydqry

open LockedStore Prog SearchEngine Search Steps

/-! ### Whitespace under the steps -/

def Spaces (s : Text) : Prop := ∀ c ∈ s, isWhitespace c = true

/-- The Unicode functions map whitespace to whitespace and none of it to nothing. -/
structure Unicode.KeepsWhitespace (u : Unicode) : Prop where
  nfkc : ∀ s, Spaces s → Spaces (u.nfkc s) ∧ (u.nfkc s = [] ↔ s = [])
  nfd : ∀ s, Spaces s → Spaces (u.nfd s) ∧ (u.nfd s = [] ↔ s = [])
  nfc : ∀ s, Spaces s → Spaces (u.nfc s) ∧ (u.nfc s = [] ↔ s = [])
  lower : ∀ c, isWhitespace c = true → u.toLowercase c = [c]

theorem toNat_of_isWhitespace {c : Char} (h : isWhitespace c = true) :
    c.toNat ≤ 0x3000 ∧ (c.toNat ≤ 0x20 ∨ 0x80 ≤ c.toNat) ∧ c.toNat ≠ 0 ∧
      (c.toNat < 0x300 ∨ 0x370 ≤ c.toNat) ∧ (c.toNat < 0x2010 ∨ 0x2016 ≤ c.toNat) ∧
      c.toNat ≠ 0x2212 := by
  simp only [isWhitespace, within, Bool.or_eq_true, Bool.and_eq_true, decide_eq_true_eq,
    beq_iff_eq] at h
  omega

section Step

variable {c : Char} (h : isWhitespace c = true)

include h

theorem katakanaToHiragana_space : katakanaToHiragana c = c := by
  have hc := toNat_of_isWhitespace h
  have hout : within 0x30A1 0x30F6 c = false := by
    simp only [within, Bool.and_eq_false_iff, decide_eq_false_iff_not]
    omega
  rw [katakanaToHiragana, hout, if_neg (by simp)]

theorem replacement_space (last : Option Char) : replacement last c = none := by
  have hc := toNat_of_isWhitespace h
  have hne : ∀ n, 0x3000 < n → (c.toNat == n) = false := by
    intro n hn
    simp only [beq_eq_false_iff_ne]
    omega
  simp only [replacement, hne 0x3005 (by omega), hne 0x309D (by omega), hne 0x30FD (by omega),
    hne 0x309E (by omega), hne 0x30FE (by omega), Bool.or_self, Bool.false_eq_true, if_false]

theorem isDash_space_char : isDash c = false := by
  have hc := toNat_of_isWhitespace h
  simp only [isDash, within, Bool.or_eq_false_iff, Bool.and_eq_false_iff, decide_eq_false_iff_not,
    beq_eq_false_iff_ne]
  omega

theorem combiningMarks_space : combiningMarks c = false := by
  have hc := toNat_of_isWhitespace h
  simp only [combiningMarks, within, Bool.and_eq_false_iff, decide_eq_false_iff_not]
  omega

end Step

section Text

variable {s : Text} (h : Spaces s)

include h

theorem expandIterationMarks_spaces : expandIterationMarks s = s := by
  have hloop : ∀ last, expandFrom last s = s := by
    induction s with
    | nil => exact fun _ => rfl
    | cons c s ih =>
      rw [Spaces, List.forall_mem_cons] at h
      intro last
      rw [expandFrom, replacement_space h.1, Option.getD_none, ih h.2]
  exact hloop none

theorem kanaFold_spaces : kanaFold s = s :=
  (List.map_congr_left fun c hc => katakanaToHiragana_space (h c hc)).trans (List.map_id s)

theorem foldChoonpu_spaces : foldChoonpu s = s := by
  have hloop : ∀ prev, foldChoonpuFrom prev s = s := by
    induction s with
    | nil => exact fun _ => rfl
    | cons c s ih =>
      rw [Spaces, List.forall_mem_cons] at h
      have hc := toNat_of_isWhitespace h.1
      have hne : (c.toNat == 0x30FC) = false := by
        simp only [beq_eq_false_iff_ne]
        omega
      intro prev
      rw [foldChoonpuFrom, hne, Bool.false_and, if_neg (by simp), ih h.2]
  exact hloop false

theorem lowercase_spaces {u : Unicode} (hu : u.KeepsWhitespace) : lowercase u s = s := by
  induction s with
  | nil => rfl
  | cons c s ih =>
    rw [Spaces, List.forall_mem_cons] at h
    have hrest := ih h.2
    rw [lowercase] at hrest ⊢
    rw [List.flatMap_cons, hu.lower c h.1, hrest]
    rfl

theorem foldDiacritics_spaces {u : Unicode} (hu : u.KeepsWhitespace) :
    Spaces (foldDiacritics u s) ∧ (foldDiacritics u s = [] ↔ s = []) := by
  obtain ⟨hnfd, hnil⟩ := hu.nfd s h
  have hkeep : (u.nfd s).filter (fun c => !combiningMarks c) = u.nfd s :=
    List.filter_eq_self.mpr fun c hc => by rw [combiningMarks_space (hnfd c hc)]; rfl
  obtain ⟨hnfc, hnil'⟩ := hu.nfc (u.nfd s) hnfd
  rw [foldDiacritics, hkeep]
  exact ⟨hnfc, hnil'.trans hnil⟩

theorem normalizeHyphens_spaces : normalizeHyphens s = s := by
  induction s with
  | nil => rfl
  | cons c s ih =>
    rw [Spaces, List.forall_mem_cons] at h
    have hrest := ih h.2
    rw [normalizeHyphens] at hrest ⊢
    rw [List.map_cons, isDash_space_char h.1, if_neg (by simp), hrest]

theorem stripDigitGrouping_spaces : stripDigitGrouping s = s := by
  have hloop : ∀ prev, stripFrom prev s = s := by
    induction s with
    | nil => exact fun _ => rfl
    | cons c s ih =>
      rw [Spaces, List.forall_mem_cons] at h
      have hne : (c == ',') = false := by
        rw [beq_eq_false_iff_ne]
        rintro rfl
        exact absurd h.1 (by decide)
      intro prev
      rw [stripFrom, hne, Bool.false_and, Bool.false_and, if_neg (by simp), ih h.2]
  exact hloop none

theorem collapseWhitespace_spaces : collapseWhitespace s = [] := by
  have hloop : ∀ pending, collapseFrom pending false s = [] := by
    induction s with
    | nil => exact fun _ => rfl
    | cons c s ih =>
      rw [Spaces, List.forall_mem_cons] at h
      intro pending
      rw [collapseFrom, if_pos h.1, ih h.2]
  exact hloop false

end Text

/-- The text is whitespace, and empty only if `s` is. -/
def SpacesLike (s t : Text) : Prop := Spaces t ∧ (t = [] ↔ s = [])

theorem SpacesLike.step {s t : Text} (h : SpacesLike s t) {f : Text → Text}
    (hf : ∀ t, Spaces t → Spaces (f t) ∧ (f t = [] ↔ t = [])) (b : Bool) :
    SpacesLike s (if b then f t else t) := by
  cases b with
  | false => exact h
  | true => exact ⟨(hf t h.1).1, (hf t h.1).2.trans h.2⟩

/-- A whitespace-only text stays one, and becomes empty just when it is trimmed or was
empty. -/
theorem normalize_spaces {u : Unicode} (hu : u.KeepsWhitespace) (o : NormalizeOptions) {s : Text}
    (h : Spaces s) :
    Spaces (normalize u o s) ∧ (normalize u o s = [] ↔ o.collapseWhitespace = true ∨ s = []) := by
  have hsame : ∀ {f : Text → Text}, (∀ t, Spaces t → f t = t) →
      ∀ t, Spaces t → Spaces (f t) ∧ (f t = [] ↔ t = []) := by
    intro f hf t ht
    rw [hf t ht]
    exact ⟨ht, Iff.rfl⟩
  have hfoundation : SpacesLike s (u.nfkc s) := hu.nfkc s h
  have hsteps := ((((((hfoundation.step (hsame fun t => expandIterationMarks_spaces)
    o.expandIterationMarks).step (hsame fun t => kanaFold_spaces) o.kanaFold).step
    (hsame fun t => foldChoonpu_spaces) o.foldChoonpu).step
    (hsame fun t ht => lowercase_spaces ht hu) o.lowercase).step
    (fun t ht => foldDiacritics_spaces ht hu) o.foldDiacritics).step
    (hsame fun t => normalizeHyphens_spaces) o.normalizeHyphens).step
    (hsame fun t => stripDigitGrouping_spaces) o.stripDigitGrouping
  unfold normalize
  dsimp only
  cases hc : o.collapseWhitespace with
  | true =>
    simp only [if_true, collapseWhitespace_spaces hsteps.1, true_or, and_true]
    intro c hc
    cases hc
  | false =>
    simp only [Bool.false_eq_true, if_false, false_or]
    exact hsteps

/-! ### What a whitespace query matches -/

namespace Search

theorem splitWhitespace_spaces {s : Text} (h : Spaces s) : splitWhitespace s = [] := by
  rw [splitWhitespace]
  induction s with
  | nil => rfl
  | cons c s ih =>
    rw [Spaces, List.forall_mem_cons] at h
    rw [splitWhitespaceFrom, if_pos h.1, List.isEmpty_nil, if_pos rfl, ih h.2]

/-- A stored text that a whitespace query finds: it holds, starts with, ends with or resembles
the query, or has a word of one character as long as the query is one character. -/
def SpacesMatch (sq : Sqlite) (q v : Text) : SearchStrategy → Prop
  | .trigramBm25 | .substring => FoundIn sq q v
  | .prefixMatch => q <+: v
  | .suffixMatch => q <:+ v
  | .allTerms => False
  | .fuzzyTrigram =>
    if q.length < 3 then q = v else THRESHOLD ≤ jaccard (trigrams q) (trigrams v)
  | .levenshtein | .damerauLevenshtein => q.length = 1 ∧ ∃ w ∈ splitWhitespace v, w.length = 1

section Matching

variable {q : Text} (h : Spaces q) (hne : q ≠ [])

include h

theorem not_overrun_spaces (v : Text) : ¬ Overrun q v := by
  rintro ⟨a, b, d, w, rfl, _⟩
  have hgap := h beforeGap (by simp)
  exact absurd hgap (by decide)

include hne

/-- A word shares no character with the query. -/
theorem spaces_levenshtein_iff (v : Text) :
    (∃ w ∈ splitWhitespace v, (levenshtein q w (maxDistance q.length)).isSome = true) ↔
      q.length = 1 ∧ ∃ w ∈ splitWhitespace v, w.length = 1 := by
  have hpos : 0 < q.length := List.length_pos_iff.mpr hne
  have hword : ∀ w ∈ splitWhitespace v,
      ((levenshtein q w (maxDistance q.length)).isSome = true ↔ q.length = 1 ∧ w.length = 1) := by
    intro w hw
    obtain ⟨hw, hchars⟩ := splitWhitespace_words hw
    have hlen : 0 < w.length := List.length_pos_iff.mpr hw
    have hapart : ∀ c ∈ q, c ∉ w := by
      intro c hc hcw
      have hspace := h c hc
      rw [hchars c hcw] at hspace
      cases hspace
    rw [levenshtein_disjoint hne hw hapart, maxDistance]
    omega
  constructor
  · rintro ⟨w, hw, hsome⟩
    obtain ⟨hq, hone⟩ := (hword w hw).mp hsome
    exact ⟨hq, w, hw, hone⟩
  · rintro ⟨hq, w, hw, hone⟩
    exact ⟨w, hw, (hword w hw).mpr ⟨hq, hone⟩⟩

theorem spaces_osa_iff (v : Text) :
    (∃ w ∈ splitWhitespace v, (osa q w (maxDistance q.length)).isSome = true) ↔
      q.length = 1 ∧ ∃ w ∈ splitWhitespace v, w.length = 1 := by
  rw [← spaces_levenshtein_iff h hne v]
  refine exists_congr fun w => and_congr_right fun hw => ?_
  have hchars := (splitWhitespace_words hw).2
  rw [osa_disjoint]
  intro c hc hcw
  have hspace := h c hc
  rw [hchars c hcw] at hspace
  cases hspace

/-- What a strategy matches a whitespace query with. -/
theorem matches_spaces_iff (sq : Sqlite) {en : Entry}
    (hrev : en.normRev = some (reverseChars en.norm)) (st : SearchStrategy) :
    Matches sq q en st ↔ SpacesMatch sq q en.norm st := by
  have hreverse : Spaces (reverseChars q) := fun c hc => h c (List.mem_reverse.mp hc)
  cases st with
  | trigramBm25 => rfl
  | substring => rfl
  | prefixMatch =>
    rw [Matches, inRange_iff, or_iff_left (not_overrun_spaces h en.norm)]
    rfl
  | suffixMatch =>
    rw [Matches, hrev, inRange_iff, or_iff_left (not_overrun_spaces hreverse _)]
    exact List.reverse_prefix
  | allTerms =>
    rw [Matches, splitWhitespace_spaces h]
    simp [SpacesMatch]
  | fuzzyTrigram => rfl
  | levenshtein => exact spaces_levenshtein_iff h hne en.norm
  | damerauLevenshtein => exact spaces_osa_iff h hne en.norm

omit hne in
/-- It has no U+0000 to cut its expression, and no terms. -/
theorem spaces_answered (db : Db) (st : SearchStrategy) :
    ¬ Refused q st ∧ ¬ CountFails q db st := by
  have hnul : '\x00' ∉ q := fun hmem => absurd (h _ hmem) (by decide)
  have hterms := splitWhitespace_spaces h
  cases st with
  | trigramBm25 | substring => exact ⟨id, not_not.mpr (.inr hnul)⟩
  | fuzzyTrigram => exact ⟨not_not.mpr (.inr hnul), id⟩
  | allTerms =>
    refine ⟨?_, ?_⟩
    · rw [Refused, hterms]
      exact Bool.false_ne_true
    · rintro ⟨id, en, _, before, t, after, hsplit, _⟩
      rw [hterms] at hsplit
      exact absurd hsplit.symm (by simp)
  | prefixMatch | suffixMatch | levenshtein | damerauLevenshtein => exact ⟨id, id⟩

end Matching

/-! ### Searches that find nothing -/

section Nothing

variable {sq : Sqlite} (hf : sq.rowFault = none) (db : Db) (saved : Option Db) (bits : UInt8)
  (held : Bool)

/-- An empty answer, or the error of offsets that overflow. -/
def Nothing {α : Type} (answer : Outcome SearchError (List α)) : Prop :=
  answer = .ok [] ∨ ∃ err, answer = .err err

theorem eval_defaultSearchPaged_nil {search : Text → UInt32 → EngineM (List Hit)} {q : Text}
    {w : EngineWorld} (hsearch : ∀ n, (search q n).eval w = (.ok [], w)) (limit offset : UInt32) :
    Nothing ((defaultSearchPaged search q limit offset).eval w).1 := by
  unfold defaultSearchPaged
  split
  · exact .inl rfl
  · cases checkedAdd limit offset with
    | none => exact .inr ⟨_, rfl⟩
    | some total =>
      refine .inl ?_
      simp only [eval_bind, hsearch, andThen_ok, eval_pure, List.drop_nil]

include hf

theorem eval_strategyPaged_nil (st : SearchStrategy) {q : Text} (hq : q ≠ [])
    (hrows : strategyRows sq q db st = .ok []) (limit offset : UInt32) :
    Nothing (((buildStrategy sq st).searchPaged q limit offset).eval
      (quiet db saved bits held)).1 := by
  have hsearch : ∀ n, ((buildStrategy sq st).search q n).eval (quiet db saved bits held) =
      (.ok [], quiet db saved bits held) := by
    intro n
    rw [eval_strategySearch hf db saved bits held st hq, hrows]
    simp only [Except.map, outcome, limited, List.take_nil]
  have hselect : ∀ f : Db → Stepped Hit, (f db).rows = [] →
      (selectHits sq limit offset f).eval (quiet db saved bits held) =
        (outcome (.ok []), quiet db saved bits held) := by
    intro f hnil
    rw [eval_selectHits hf, hnil]
    simp only [outcome, limited, List.drop_nil, List.take_nil]
  have hlisted : ∀ f : Db → Stepped Hit, .ok (f db).rows = Except.ok (ε := SearchError) [] →
      Nothing ((selectHits sq limit offset f).eval (quiet db saved bits held)).1 := by
    intro f hnil
    rw [hselect f (Except.ok.inj hnil)]
    exact .inl rfl
  cases st with
  | trigramBm25 => exact hlisted (TrigramBm25.rows sq q) hrows
  | substring => exact hlisted (Substring.rows sq q) hrows
  | prefixMatch => exact hlisted _ hrows
  | suffixMatch => exact hlisted _ hrows
  | allTerms =>
    simp only [buildStrategy, AllTerms.algorithm]
    rw [strategyRows] at hrows
    split
    · exact .inl rfl
    · rename_i hterms
      rw [if_neg hterms] at hrows
      split at hrows
      · cases hrows
      · rename_i hshallow
        have hnil := hselect (likeHits sq (AllTerms.patterns q)) (Except.ok.inj hrows)
        rw [eval_prepared hnil, if_neg hshallow]
        exact .inl rfl
  | fuzzyTrigram => exact eval_defaultSearchPaged_nil hsearch limit offset
  | levenshtein => exact eval_defaultSearchPaged_nil hsearch limit offset
  | damerauLevenshtein => exact eval_defaultSearchPaged_nil hsearch limit offset

end Nothing

end Search

namespace SearchEngine

variable {env : Env} {e : SearchEngine} {query : Text} {db : Db} {bits : UInt8}

/-- No call finds anything; a page whose end overflows may fail instead. -/
structure FindsNothing (env : Env) (e : SearchEngine) (query : Text) (db : Db) (bits : UInt8) :
    Prop where
  search : ∀ n : UInt32, ((SearchEngine.search env e query n).run (quiet db none bits false)).1 =
    .ok []
  page : ∀ perPage page : UInt32,
    Nothing ((searchPage env e query perPage page).run (quiet db none bits false)).1
  records : ∀ limit perRecord : UInt32,
    ((searchRecords env e query limit perRecord).run (quiet db none bits false)).1 = .ok []
  recordsPage : ∀ perPage page perRecord : UInt32,
    Nothing ((searchRecordsPage env e query perPage page perRecord).run
      (quiet db none bits false)).1
  count : ((matchCount env e query).run (quiet db none bits false)).1 = .ok 0
  countRecords : ∀ perRecord : UInt32,
    ((matchCountRecords env e query perRecord).run (quiet db none bits false)).1 = .ok 0

section Empty

variable (hf : env.sqlite.rowFault = none) (hb : ValidBits bits)
  (hrows : matchedRows env e query db = .ok [])

include hf hrows

theorem searchPage_nothing (perPage page : UInt32) :
    Nothing ((searchPage env e query perPage page).run (quiet db none bits false)).1 := by
  unfold matchedRows at hrows
  by_cases hq : (e.normalizer env query).isEmpty = true
  · simp only [searchPage, hq, if_true, Prog.run, eval_pure]
    exact .inl rfl
  · have hne : e.normalizer env query ≠ [] := mt List.isEmpty_iff.mpr hq
    rw [if_neg hq] at hrows
    cases hoffset : checkedMul page perPage with
    | none =>
      simp only [searchPage, if_neg hq, hoffset]
      exact .inr ⟨_, rfl⟩
    | some offset =>
      rw [searchPage_eval env hq db bits hoffset]
      exact eval_strategyPaged_nil hf db none bits true e.strategy hne hrows perPage offset

theorem matchCount_zero
    (hstop : rowsStop env.sqlite (e.normalizer env query) db e.strategy = none) :
    ((matchCount env e query).run (quiet db none bits false)).1 = .ok 0 := by
  rw [matchCount_run hf, countedRows, hrows, hstop]
  exact congrArg Outcome.ok (counted_eq e.strategy (Nat.zero_le _))

include hb

theorem eval_searchRecords_nothing (limit perRecord : UInt32) :
    ∃ held, (searchRecords env e query limit perRecord).eval (quiet db none bits false) =
      (.ok [], quiet db none bits held) := by
  obtain ⟨held, h⟩ := eval_searchRecords hf hb e query db limit perRecord
  have hnone : recordsOf bits limit (saturatingMul limit (atLeastOne perRecord)) [] = [] := by
    have hcollapse : collapse [] = [] := rfl
    simp only [recordsOf, limited, List.take_nil, List.map_nil, hcollapse]
  refine ⟨held, ?_⟩
  rw [h, hrows, Except.map, outcome, hnone]

theorem searchRecordsPage_nothing (perPage page perRecord : UInt32) :
    Nothing ((searchRecordsPage env e query perPage page perRecord).run
      (quiet db none bits false)).1 := by
  unfold searchRecordsPage
  cases checkedMul page perPage with
  | none => exact .inr ⟨_, rfl⟩
  | some offset =>
    dsimp only
    cases checkedAdd offset perPage with
    | none => exact .inr ⟨_, rfl⟩
    | some total =>
      obtain ⟨held, h⟩ := eval_searchRecords_nothing hf hb hrows total perRecord
      refine .inl ?_
      simp only [Prog.run, eval_bind, h, andThen_ok, eval_pure, limited, List.drop_nil,
        List.take_nil]

theorem findsNothing_of_rows
    (hstop : rowsStop env.sqlite (e.normalizer env query) db e.strategy = none) :
    FindsNothing env e query db bits where
  search n := by
    rw [search_run hf, hrows, Except.map, outcome, limited, List.take_nil]
  page := searchPage_nothing hf hrows
  records limit perRecord := by
    obtain ⟨held, h⟩ := eval_searchRecords_nothing hf hb hrows limit perRecord
    rw [Prog.run, h]
  recordsPage := searchRecordsPage_nothing hf hb hrows
  count := matchCount_zero hf hrows hstop
  countRecords perRecord := by
    rw [matchCountRecords_answer hf hb, hrows]
    simp only [Except.map, outcome, limited, List.take_nil, List.map_nil, List.dedup_nil,
      List.length_nil]

end Empty

/-- The calls find nothing just when the list they all answer from is empty. -/
theorem findsNothing_iff (hf : env.sqlite.rowFault = none) (hb : ValidBits bits)
    {rows : List Hit} (hrows : matchedRows env e query db = .ok rows)
    (hstop : rowsStop env.sqlite (e.normalizer env query) db e.strategy = none) :
    FindsNothing env e query db bits ↔ rows = [] := by
  constructor
  · intro h
    have hsearch := h.search u32Max
    rw [search_run hf, hrows, Except.map, outcome, Outcome.ok.injEq, limited] at hsearch
    have hmax : u32Max.toNat ≠ 0 := by decide
    exact (List.take_eq_nil_iff.mp hsearch).resolve_left hmax
  · rintro rfl
    exact findsNothing_of_rows hf hb hrows hstop

/-- A query of whitespace finds nothing just when it is trimmed away or no stored text matches
the whitespace that is left of it. -/
theorem whitespace_query_finds_nothing_iff (env : Env) (hu : env.unicode.KeepsWhitespace)
    (hf : env.sqlite.rowFault = none) (actions : List Action) (o : OpenEngine)
    (ho : (Host.run env {} actions).opened = some o) (query : Text) (hquery : Spaces query) :
    FindsNothing env o.engine query (Host.run env {} actions).file o.fieldBits ↔
      o.engine.options.collapseWhitespace = true ∨ query = [] ∨
      ∀ (id : Int64) en, (Host.run env {} actions).file.entries[id]? = some en →
        ¬ SpacesMatch env.sqlite (o.engine.normalizer env query) en.norm o.engine.strategy := by
  have hinv := index_invariant env actions
  have hb : ValidBits o.fieldBits := (hinv.engine o ho).2.2
  obtain ⟨hspaces, hempty⟩ := normalize_spaces hu o.engine.options hquery
  obtain ⟨_, hfound⟩ := matchedRows_spec env o.engine query hinv.synced
  obtain ⟨hanswered, hcounted⟩ := spaces_answered hspaces
    (Host.run env {} actions).file o.engine.strategy
  obtain ⟨rows, hrows, hids⟩ := hfound hanswered
  have hstop := (rowsStop_eq_none_iff env.sqlite _ hinv.synced _ _).mpr hcounted
  have hnil : rows = [] ↔ ∀ (id : Int64) en,
      (Host.run env {} actions).file.entries[id]? = some en → ¬ Found env o.engine query en := by
    constructor
    · intro h id en hen hmatch
      have hid := (hids id).mpr ⟨en, hen, hmatch⟩
      rw [h] at hid
      cases hid
    · intro h
      refine List.eq_nil_iff_forall_not_mem.mpr fun hit hhit => ?_
      obtain ⟨en, hen, hmatch⟩ := (hids hit.id).mp (List.mem_map_of_mem hhit)
      exact h hit.id en hen hmatch
  rw [findsNothing_iff hf hb hrows hstop, hnil, ← or_assoc, ← hempty]
  by_cases hq : normalize env.unicode o.engine.options query = []
  · exact iff_of_true (fun id en _ hmatch => hmatch.1 hq) (.inl hq)
  · rw [or_iff_right hq]
    refine forall_congr' fun id => forall_congr' fun en => imp_congr_right fun hen => not_congr ?_
    rw [Found, SearchEngine.normalizer,
      matches_spaces_iff hspaces hq env.sqlite (hinv.reversed id en hen)]
    exact and_iff_right hq

/-! ### A blank between two words -/

theorem ascii_keepsWhitespace : Unicode.ascii.KeepsWhitespace where
  nfkc _ h := ⟨h, Iff.rfl⟩
  nfd _ h := ⟨h, Iff.rfl⟩
  nfc _ h := ⟨h, Iff.rfl⟩
  lower c h := by
    have hc := toNat_of_isWhitespace h
    have hnot : ¬ (c.val ≥ 'A'.val ∧ c.val ≤ 'Z'.val) := by
      rintro ⟨hlo, hhi⟩
      have hlo : 65 ≤ c.toNat := hlo
      have hhi : c.toNat ≤ 90 := hhi
      omega
    have hsame : c.toLower = c := dif_neg hnot
    show [c.toLower] = [c]
    rw [hsame]

/-- No step is on. -/
def blankActions : List Action :=
  [.reopen (.withOptions { normalize := {}, strategy := .substring, fieldBits := none }),
    .call (.index 1 ['a', ' ', 'b'])]

def blankHost : Host := Host.run .ascii {} blankActions

def blankEngine : SearchEngine := { options := {}, strategy := .substring }

theorem blankHost_answers :
    blankHost.opened = some { engine := blankEngine, fieldBits := DEFAULT_FIELD_BITS } ∧
    ((search .ascii blankEngine [' '] 1).run
      (quiet blankHost.file none DEFAULT_FIELD_BITS false)).1 = .ok [{ id := 1, score := 0 }] := by
  decide +kernel

theorem whitespace_query_finds :
    ¬ ∀ (actions : List Action) (o : OpenEngine) (query : Text),
      (Host.run .ascii {} actions).opened = some o → Spaces query →
      FindsNothing .ascii o.engine query (Host.run .ascii {} actions).file o.fieldBits := by
  intro h
  obtain ⟨hopened, hfound⟩ := blankHost_answers
  have hnone := (h blankActions _ [' '] hopened (by simp [Spaces, isWhitespace, within])).search 1
  rw [blankHost] at hfound
  rw [hfound] at hnone
  cases hnone

theorem whitespace_query_finds_nothing_blank :
    FindsNothing .ascii blankEngine [' '] blankHost.file DEFAULT_FIELD_BITS ↔
      blankEngine.options.collapseWhitespace = true ∨ [' '] = [] ∨
      ∀ (id : Int64) en, blankHost.file.entries[id]? = some en →
        ¬ SpacesMatch .plain (blankEngine.normalizer .ascii [' ']) en.norm blankEngine.strategy :=
  whitespace_query_finds_nothing_iff .ascii ascii_keepsWhitespace rfl blankActions
    { engine := blankEngine, fieldBits := DEFAULT_FIELD_BITS } blankHost_answers.1 [' ']
    (by simp [Spaces, isWhitespace, within])

end SearchEngine

end Unfydqry
