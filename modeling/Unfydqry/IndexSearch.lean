import Unfydqry.IndexMachine
import Unfydqry.PrefixSuffix
import Unfydqry.SimilarTexts
import Unfydqry.AllTermsSearch
import Unfydqry.WordFuzzy

/-! # Searching the abstract machine

What a search finds is read off the texts that the host has stored, whatever the calls and
opens that stored them: the keys of the text and of the query decide. -/

namespace Unfydqry

open LockedStore Prog SearchEngine EditDistance

namespace Search

/-- A strategy finds the key `v` of a text under the key `q` of a query. -/
def FindsKey (sq : Sqlite) (q v : Text) : SearchStrategy → Prop
  | .trigramBm25 => FoundIn sq q v
  | .substring => FoundIn sq q v
  | .prefixMatch => q <+: v ∨ Overrun q v
  | .suffixMatch => q <:+ v ∨ Overrun (reverseChars q) (reverseChars v)
  | .allTerms => splitWhitespace q ≠ [] ∧ SeesTerms (splitWhitespace q) v
  | .fuzzyTrigram => if q.length < 3 then q = v else Similar q v
  | .levenshtein => ∃ w ∈ splitWhitespace v, editDist q w ≤ maxDistance q.length
  | .damerauLevenshtein => ∃ w ∈ splitWhitespace v, osaDist q w ≤ maxDistance q.length

/-- The score of a text that is found; `trigramBm25` leaves it to SQLite. -/
def ScoresKey (q v : Text) (score : ℚ) : SearchStrategy → Prop
  | .trigramBm25 => True
  | .substring | .prefixMatch | .suffixMatch | .allTerms => score = 0
  | .fuzzyTrigram => score = if q.length < 3 then 0 else 1 - similarity q v
  | .levenshtein => ∃ d : ℕ, LeastWord editDist q v d ∧ score = d
  | .damerauLevenshtein => ∃ d : ℕ, LeastWord osaDist q v d ∧ score = d

theorem atMost_isSome (max d : ℕ) : (atMost max d).isSome = true ↔ d ≤ max := by
  rw [Option.isSome_iff_exists]
  constructor
  · intro h
    obtain ⟨e, he⟩ := h
    obtain ⟨rfl, hle⟩ := (within_eq_some max d e).mp he
    exact hle
  · intro h
    exact ⟨d, (within_eq_some max d d).mpr ⟨rfl, h⟩⟩

theorem matches_iff (sq : Sqlite) (q : Text) {en : Entry}
    (hrev : en.normRev = some (reverseChars en.norm)) (st : SearchStrategy) :
    Matches sq q en st ↔ FindsKey sq q en.norm st := by
  cases st with
  | trigramBm25 => exact Iff.rfl
  | substring => exact Iff.rfl
  | prefixMatch => exact inRange_iff q en.norm
  | suffixMatch =>
    have hsuffix : reverseChars q <+: reverseChars en.norm ↔ q <:+ en.norm :=
      List.reverse_prefix
    rw [FindsKey, ← hsuffix, ← inRange_iff, Matches, hrev]
  | allTerms => exact Iff.rfl
  | fuzzyTrigram =>
    rw [Matches, FindsKey]
    by_cases hlen : q.length < 3
    · rw [if_pos hlen, if_pos hlen]
    · rw [if_neg hlen, if_neg hlen]
      exact similar_iff (Nat.le_of_not_lt hlen) en.norm
  | levenshtein => simp only [Matches, FindsKey, levenshtein_dist, atMost_isSome]
  | damerauLevenshtein => simp only [Matches, FindsKey, osa_eq, atMost_isSome, osaDist]

theorem rangeRows_score (col : Entry → Option Text) (key : Text) (upper : Option Text)
    (entries : Entries) {h : Hit} (hmem : h ∈ rangeRows col key upper entries) :
    h.score = 0 := by
  obtain ⟨r, _, rfl⟩ := List.mem_map.mp hmem
  rfl

theorem likeHits_score {sq : Sqlite} {patterns : List Text} {db : Db} {h : Hit}
    (hmem : h ∈ (likeHits sq patterns db).rows) : h.score = 0 := by
  obtain ⟨r, _, rfl⟩ := List.mem_map.mp hmem
  rfl

theorem substring_score {sq : Sqlite} {q : Text} {db : Db} {h : Hit}
    (hmem : h ∈ (Substring.rows sq q db).rows) : h.score = 0 := by
  unfold Substring.rows at hmem
  split at hmem
  · exact likeHits_score hmem
  · obtain ⟨r, _, rfl⟩ := List.mem_map.mp hmem
    rfl

theorem shortRows_score {sq : Sqlite} {q : Text} {db : Db} {h : Hit}
    (hmem : h ∈ FuzzyTrigram.shortRows sq q db) :
    ∃ en, db.entries[h.id]? = some en ∧ h.score = 0 := by
  rw [FuzzyTrigram.shortRows, List.mem_insertionSort, List.mem_filterMap] at hmem
  obtain ⟨r, hr, hh⟩ := hmem
  obtain ⟨hsim, hid, hscore⟩ := (similarHit_eq_some _ _ _).mp hh
  refine ⟨r.2, ?_, ?_⟩
  · rw [hid]
    exact (mem_scanAll _ _).mp hr
  · unfold exactMatchSimilarity at hsim hscore
    split at hscore
    · rw [hscore, sub_self]
    · rename_i hne
      rw [if_neg hne, THRESHOLD] at hsim
      norm_num at hsim

/-- Every row carries the score of its entry. -/
theorem strategyRows_scores {sq : Sqlite} {q : Text} {db : Db} (hs : Synced db)
    {st : SearchStrategy} {rows : List Hit} (hrows : strategyRows sq q db st = .ok rows) {h : Hit}
    (hmem : h ∈ rows) :
    ∃ en, db.entries[h.id]? = some en ∧ ScoresKey q en.norm h.score st := by
  obtain ⟨hreject, hfound⟩ := @strategyRows_spec sq q db hs st
  have hstored : ∃ en, db.entries[h.id]? = some en := by
    by_cases hr : Refused q st
    · obtain ⟨err, herr⟩ := hreject hr
      rw [herr] at hrows
      cases hrows
    · obtain ⟨rows', hrows', hids⟩ := hfound hr
      rw [hrows'] at hrows
      rw [← Except.ok.inj hrows] at hmem
      obtain ⟨en, hen, _⟩ := (hids h.id).mp (List.mem_map_of_mem hmem)
      exact ⟨en, hen⟩
  obtain ⟨en, hen⟩ := hstored
  cases st with
  | trigramBm25 => exact ⟨en, hen, trivial⟩
  | substring =>
    rw [← Except.ok.inj hrows] at hmem
    exact ⟨en, hen, substring_score hmem⟩
  | prefixMatch =>
    rw [← Except.ok.inj hrows] at hmem
    exact ⟨en, hen, rangeRows_score _ _ _ _ hmem⟩
  | suffixMatch =>
    rw [← Except.ok.inj hrows] at hmem
    exact ⟨en, hen, rangeRows_score _ _ _ _ hmem⟩
  | allTerms =>
    refine ⟨en, hen, ?_⟩
    rw [strategyRows] at hrows
    split at hrows
    · rw [← Except.ok.inj hrows] at hmem
      cases hmem
    · split at hrows
      · cases hrows
      · rw [← Except.ok.inj hrows] at hmem
        exact likeHits_score hmem
  | fuzzyTrigram =>
    rw [strategyRows] at hrows
    split at hrows
    · rename_i hlen
      rw [← Except.ok.inj hrows] at hmem
      obtain ⟨en, hen, hscore⟩ := shortRows_score hmem
      refine ⟨en, hen, ?_⟩
      rw [ScoresKey, if_pos hlen]
      exact hscore
    · rename_i hlen
      have hlong : 3 ≤ q.length := Nat.le_of_not_lt hlen
      by_cases hnul : '\x00' ∈ q
      · obtain ⟨err, herr⟩ := (mem_longRows hs sq hlong).1 hnul
        rw [herr] at hrows
        cases hrows
      · rw [longRows_eq_scan hlong hs hnul] at hrows
        rw [← Except.ok.inj hrows] at hmem
        obtain ⟨en, hen, _, hscore⟩ := ((scanSimilar_hits hlong).mem h).mp hmem
        refine ⟨en, hen, ?_⟩
        rw [ScoresKey, if_neg hlen]
        exact hscore
  | levenshtein =>
    rw [← Except.ok.inj hrows] at hmem
    obtain ⟨en, d, hen, hleast, _, hscore⟩ :=
      ((wordRows_hits levenshtein_dist sq q db).mem h).mp hmem
    exact ⟨en, hen, d, hleast, hscore⟩
  | damerauLevenshtein =>
    rw [← Except.ok.inj hrows] at hmem
    obtain ⟨en, d, hen, hleast, _, hscore⟩ := ((wordRows_hits osa_eq sq q db).mem h).mp hmem
    exact ⟨en, hen, d, hleast, hscore⟩

/-! ### A text under its own key -/

/-- A text without whitespace is one word. -/
theorem splitWhitespaceFrom_single (word s : Text) (hne : word ++ s ≠ [])
    (hs : ∀ c ∈ s, Steps.isWhitespace c = false) : splitWhitespaceFrom word s = [word ++ s] := by
  induction s generalizing word with
  | nil =>
    rw [List.append_nil] at hne ⊢
    rw [splitWhitespaceFrom, if_neg (mt List.isEmpty_iff.mp hne)]
  | cons c s ih =>
    have hc : ¬ Steps.isWhitespace c = true := by
      rw [hs c (List.mem_cons_self ..)]
      exact Bool.false_ne_true
    rw [splitWhitespaceFrom, if_neg hc,
      ih (word ++ [c]) (by simp) (fun d hd => hs d (List.mem_cons_of_mem c hd)),
      List.append_assoc]
    rfl

/-- The statement of the terms is accepted, and `LIKE` reads them and the text to the end. -/
structure TermsFit (v : Text) : Prop where
  some : splitWhitespace v ≠ []
  depth : (splitWhitespace v).length ≤ 997
  short : ∀ t ∈ splitWhitespace v, Like.tooLong (termPattern t) = false
  free : '\x00' ∉ v

/-- The strategy finds a text under its own key. -/
def FindsItself (v : Text) : SearchStrategy → Prop
  | .trigramBm25 | .substring | .fuzzyTrigram => Searchable v
  | .prefixMatch | .suffixMatch => True
  | .allTerms => TermsFit v
  | .levenshtein | .damerauLevenshtein => ∀ c ∈ v, Steps.isWhitespace c = false

theorem like_contains_self (v : Text) : Like.Contains v v := by
  unfold Like.Contains
  split
  · exact List.suffix_refl _
  · exact List.infix_refl _

theorem like_contains_of_infix {t v : Text} (hfree : '\x00' ∉ v) (h : t <:+: v) :
    Like.Contains t v := by
  have hterm : '\x00' ∉ t := fun hmem => hfree (h.subset hmem)
  rw [Like.Contains, if_neg hterm, Store.readText_eq_map hterm, Store.readText_eq_map hfree]
  exact (h.map Store.decoded).map Like.asciiLower

theorem foundIn_self (sq : Sqlite) {v : Text} (h : Searchable v) : FoundIn sq v v := by
  unfold FoundIn
  split
  · exact like_contains_self v
  · rename_i hlong
    exact ⟨h.resolve_left hlong, List.infix_refl _⟩

theorem findsKey_self (sq : Sqlite) {v : Text} (hv : v ≠ []) {st : SearchStrategy}
    (h : FindsItself v st) : FindsKey sq v v st := by
  cases st with
  | trigramBm25 => exact foundIn_self sq h
  | substring => exact foundIn_self sq h
  | prefixMatch => exact .inl (List.prefix_refl v)
  | suffixMatch => exact .inl (List.suffix_refl v)
  | allTerms =>
    obtain ⟨hsome, _, hshort, hfree⟩ := h
    refine ⟨hsome, fun t ht => ⟨hshort t ht, ?_⟩⟩
    exact like_contains_of_infix hfree (infix_splitWhitespace ht)
  | fuzzyTrigram =>
    rw [FindsKey]
    split
    · rfl
    · rw [Similar, Finset.union_self, Finset.inter_self]
      omega
  | levenshtein =>
    have hword : splitWhitespace v = [v] := splitWhitespaceFrom_single [] v hv h
    refine ⟨v, ?_, ?_⟩
    · rw [hword]
      exact List.mem_singleton_self v
    · rw [editDist_self]
      exact Nat.zero_le _
  | damerauLevenshtein =>
    have hword : splitWhitespace v = [v] := splitWhitespaceFrom_single [] v hv h
    refine ⟨v, ?_, ?_⟩
    · rw [hword]
      exact List.mem_singleton_self v
    · have hle := osaDist_le v v
      rw [editDist_self] at hle
      omega

theorem not_refused_of_findsItself {v : Text} {st : SearchStrategy} (h : FindsItself v st) :
    ¬ Refused v st := by
  cases st with
  | fuzzyTrigram => exact not_not.mpr h
  | allTerms => exact fun hdeep => (AllTerms.tooDeep_iff _).mp hdeep h.depth
  | trigramBm25 | substring | prefixMatch | suffixMatch | levenshtein | damerauLevenshtein =>
    exact id

end Search

/-! ### The answer of the index -/

namespace Index

/-- The query finds the text stored under the id. -/
def Finds (env : Env) (query : Text) (id : Int64) : Index → Prop
  | .opened s strategy texts => ∃ text, texts[id]? = some text ∧
    normalize env.unicode s.options query ≠ [] ∧
      Search.FindsKey env.sqlite (normalize env.unicode s.options query)
        (normalize env.unicode s.options text) strategy
  | _ => False

/-- A hit has the score of the text stored under its id. -/
def Scores (env : Env) (query : Text) (h : Hit) : Index → Prop
  | .opened s strategy texts => ∃ text, texts[h.id]? = some text ∧
      Search.ScoresKey (normalize env.unicode s.options query)
        (normalize env.unicode s.options text) h.score strategy
  | _ => False

/-- The search for the query fails: the expression of its trigrams is cut at U+0000, or it has
more terms than a statement may. -/
def Refuses (env : Env) (query : Text) : Index → Prop
  | .opened s strategy _ => Search.Refused (normalize env.unicode s.options query) strategy
  | _ => False

/-- The hits are ranked by score, then by id. -/
def Ranks : Index → Prop
  | .opened _ strategy _ => Search.RanksHits strategy
  | _ => False

/-- The complete answer to a query: each text found once, with its score, and in order. -/
structure Lists (env : Env) (query : Text) (i : Index) (rows : List Hit) : Prop where
  once : (rows.map Hit.id).Nodup
  found : ∀ id, id ∈ rows.map Hit.id ↔ i.Finds env query id
  scores : ∀ h ∈ rows, i.Scores env query h
  ranked : i.Ranks → rows.Pairwise Search.hitOrder

def texts : Index → Catalog
  | .closed _ texts | .opened _ _ texts => texts
  | _ => ∅

/-- The open index holds the text, and its strategy finds it under its own key. -/
def HoldsFindable (env : Env) (id : Int64) (text : Text) : Index → Prop
  | .opened s strategy texts => texts[id]? = some text ∧
    normalize env.unicode s.options text ≠ [] ∧
      Search.FindsItself (normalize env.unicode s.options text) strategy
  | _ => False

end Index

namespace Stamp

variable {env : Env} {s : Stamp} {texts : Catalog} {strategy : SearchStrategy} {query : Text}

theorem file_synced : Search.Synced (s.file env texts) := by
  intro id
  simp only [file, Table.lookup_map, Option.map_map]
  rfl

theorem entry_file {id : Int64} {en : Entry} :
    (s.file env texts).entries[id]? = some en ↔
      ∃ text, texts[id]? = some text ∧ renderEntry env s.options text = en := by
  rw [file_renders.entries_lookup, Option.map_eq_some_iff]

/-- The rows of a search, read off the stored texts. -/
theorem matchedRows_file (hr : ¬ (Index.opened s strategy texts).Refuses env query) :
    ∃ rows, matchedRows env (s.engine strategy) query (s.file env texts) = .ok rows ∧
      (Index.opened s strategy texts).Lists env query rows ∧ rows.length ≤ texts.size := by
  obtain ⟨rows, hrows, hids⟩ :=
    (matchedRows_spec env (s.engine strategy) query file_synced).2 hr
  have hstored := (matchedRows_ok file_synced hrows).2
  refine ⟨rows, hrows, ⟨Search.stored_nodup hstored, ?_, ?_, ?_⟩, ?_⟩
  · intro id
    rw [hids]
    constructor
    · intro h
      obtain ⟨en, hen, hne, hmatch⟩ := h
      obtain ⟨text, ht, rfl⟩ := entry_file.mp hen
      exact ⟨text, ht, hne, (Search.matches_iff _ _ rfl _).mp hmatch⟩
    · intro h
      obtain ⟨text, ht, hne, hfinds⟩ := h
      exact ⟨_, entry_file.mpr ⟨text, ht, rfl⟩, hne, (Search.matches_iff _ _ rfl _).mpr hfinds⟩
  · intro h hmem
    rw [matchedRows] at hrows
    split at hrows
    · rw [← Except.ok.inj hrows] at hmem
      cases hmem
    · obtain ⟨en, hen, hscore⟩ := Search.strategyRows_scores file_synced hrows hmem
      obtain ⟨text, ht, rfl⟩ := entry_file.mp hen
      exact ⟨text, ht, hscore⟩
  · intro hranks
    exact matchedRows_sorted (e := s.engine strategy) hranks hrows
  · have hle := hstored.length_le
    rw [List.length_map, List.length_map, Std.ExtTreeMap.length_toList] at hle
    exact hle.trans_eq Std.ExtTreeMap.size_map

theorem matchedRows_refused (hr : (Index.opened s strategy texts).Refuses env query) :
    ∃ err, matchedRows env (s.engine strategy) query (s.file env texts) = .error err :=
  (matchedRows_spec env (s.engine strategy) query file_synced).1 hr

end Stamp

/-- After every run a search answers with the first hits of one list, which is complete and
exact for the texts that the abstract machine holds, unless the query is refused. -/
theorem index_searches (env : Env) (hf : env.sqlite.rowFault = none) (actions : List Action)
    {o : OpenEngine} (ho : (Host.run env {} actions).opened = some o) (query : Text) :
    ((Index.run env .fresh actions).Refuses env query → ∃ err, ∀ n,
      ((search env o.engine query n).run (Host.world (Host.run env {} actions).file o)).1 =
        .err err) ∧
    (¬ (Index.run env .fresh actions).Refuses env query → ∃ rows,
      (Index.run env .fresh actions).Lists env query rows ∧ ∀ n,
        ((search env o.engine query n).run (Host.world (Host.run env {} actions).file o)).1 =
          .ok (rows.take n.toNat)) := by
  obtain ⟨s, strategy, texts, hi, hhost, rfl⟩ := Index.open_run ho
  rw [hi, hhost]
  have hsearch : ∀ n, ((search env (s.engine strategy) query n).run
      (Host.world (s.file env texts) { engine := s.engine strategy, fieldBits := s.width })).1 =
        outcome ((matchedRows env (s.engine strategy) query (s.file env texts)).map
          (Search.limited n)) := fun n => search_run hf _ _ _ _ n
  constructor
  · intro hr
    obtain ⟨err, herr⟩ := Stamp.matchedRows_refused hr
    refine ⟨err, fun n => ?_⟩
    show ((search env (s.engine strategy) query n).run _).1 = _
    rw [Index.host, hsearch, herr]
    rfl
  · intro hr
    obtain ⟨rows, hrows, hlists, _⟩ := Stamp.matchedRows_file hr
    refine ⟨rows, hlists, fun n => ?_⟩
    show ((search env (s.engine strategy) query n).run _).1 = _
    rw [Index.host, hsearch, hrows]
    rfl

def searchedActions : List Action :=
  [.reopen plainOptions, .call (.index 1 ['a']), .call (.index 2 ['b'])]

theorem searchedActions_opened : (Host.run .ascii {} searchedActions).opened =
    some { engine := plainEngine, fieldBits := DEFAULT_FIELD_BITS } := by decide +kernel

/-- One of two texts contains the query. -/
theorem index_searches_second : ∃ rows,
    (Index.run .ascii .fresh searchedActions).Lists .ascii ['b'] rows ∧ ∀ n,
      ((search .ascii plainEngine ['b'] n).run (Host.world (Host.run .ascii {} searchedActions).file
        { engine := plainEngine, fieldBits := DEFAULT_FIELD_BITS })).1 =
          .ok (rows.take n.toNat) :=
  (index_searches .ascii rfl searchedActions searchedActions_opened ['b']).2
    id

/-- After every run a search for the text of a document finds the document. -/
theorem own_text_found (env : Env) (hf : env.sqlite.rowFault = none) (actions : List Action)
    {o : OpenEngine} (ho : (Host.run env {} actions).opened = some o) {id : Int64} {text : Text}
    (ht : (Index.run env .fresh actions).HoldsFindable env id text) {n : UInt32}
    (hn : (Index.run env .fresh actions).texts.size ≤ n.toNat) :
    ∃ hits,
      ((search env o.engine text n).run (Host.world (Host.run env {} actions).file o)).1 =
        .ok hits ∧ id ∈ hits.map Hit.id := by
  obtain ⟨s, strategy, texts, hi, hhost, rfl⟩ := Index.open_run ho
  rw [hi] at ht hn
  rw [hhost]
  obtain ⟨ht, hne, hself⟩ := ht
  have hr : ¬ (Index.opened s strategy texts).Refuses env text :=
    Search.not_refused_of_findsItself hself
  obtain ⟨rows, hrows, hlists, hsize⟩ := Stamp.matchedRows_file hr
  refine ⟨rows, ?_, ?_⟩
  · have hrun := search_run hf (s.engine strategy) text (s.file env texts) s.width n
    rw [hrows] at hrun
    have hfit : Search.limited n rows = rows := List.take_of_length_le (hsize.trans hn)
    exact hrun.trans (congrArg Outcome.ok hfit)
  · rw [hlists.found]
    exact ⟨text, ht, hne, Search.findsKey_self env.sqlite hne hself⟩

theorem own_text_found_second : ∃ hits,
    ((search .ascii plainEngine ['b'] 2).run (Host.world (Host.run .ascii {} searchedActions).file
      { engine := plainEngine, fieldBits := DEFAULT_FIELD_BITS })).1 = .ok hits ∧
        2 ∈ hits.map Hit.id :=
  own_text_found .ascii rfl searchedActions searchedActions_opened
    ⟨by decide +kernel, by decide +kernel, .inl (by decide +kernel)⟩ (by decide +kernel)

end Unfydqry
