import Unfydqry.DocumentPages

/-! # Which pages are answered

`search_page` checks `page * per_page`. The default `search_paged` then checks
`limit + offset`, where the statements with `LIMIT` and `OFFSET` check nothing more. -/

namespace Unfydqry

open LockedStore Prog SearchEngine Search

namespace Search

/-- The strategies that rank their hits keep the default `search_paged`. -/
theorem searchPaged_of_ranksHits (sq : Sqlite) {st : SearchStrategy} (hst : RanksHits st) :
    (buildStrategy sq st).searchPaged = defaultSearchPaged (buildStrategy sq st).search := by
  cases st with
  | fuzzyTrigram | levenshtein | damerauLevenshtein => rfl
  | trigramBm25 | substring | prefixMatch | suffixMatch | allTerms => exact hst.elim

theorem eval_defaultSearchPaged_zero (search : Text → UInt32 → EngineM (List Hit)) (q : Text)
    (offset : UInt32) (w : EngineWorld) :
    (defaultSearchPaged search q 0 offset).eval w = (.ok [], w) := by
  rw [defaultSearchPaged, if_pos rfl, eval_pure]

/-- A page whose end is past `u32::MAX` is an error, wherever it starts. -/
theorem eval_defaultSearchPaged_overflow (search : Text → UInt32 → EngineM (List Hit)) (q : Text)
    {limit offset : UInt32} (hlimit : limit ≠ 0) (hover : 2 ^ 32 ≤ limit.toNat + offset.toNat)
    (w : EngineWorld) :
    (defaultSearchPaged search q limit offset).eval w =
      (.err (.db s!"limit {limit} + offset {offset} overflows u32"), w) := by
  have hnone : checkedAdd limit offset = none := if_neg (Nat.not_lt.mpr hover)
  rw [defaultSearchPaged, if_neg hlimit, hnone]
  exact eval_throw _ _

variable {sq : Sqlite} (hf : sq.rowFault = none) {db : Db} (saved : Option Db) (bits : UInt8)
  (held : Bool)

include hf

theorem eval_strategyPaged_iff (st : SearchStrategy) {q : Text} (hq : q ≠ []) {rows : List Hit}
    (hrows : strategyRows sq q db st = .ok rows) (limit offset : UInt32) :
    (((buildStrategy sq st).searchPaged q limit offset).eval (quiet db saved bits held)).1 =
        .ok (slice limit offset rows) ↔
      (RanksHits st → limit = 0 ∨ limit.toNat + offset.toNat ≤ 2 ^ 32 - 1) := by
  by_cases hst : RanksHits st
  · by_cases hlimit : limit = 0
    · subst hlimit
      have hzero : slice 0 offset rows = [] := by
        rw [slice, limited, UInt32.toNat_zero, List.take_zero]
      rw [searchPaged_of_ranksHits sq hst, eval_defaultSearchPaged_zero, hzero]
      exact iff_of_true rfl fun _ => .inl rfl
    · by_cases hroom : limit.toNat + offset.toNat < 2 ^ 32
      · rw [eval_strategyPaged hf db saved bits held st hq fun _ => ⟨hlimit, hroom⟩, hrows]
        exact iff_of_true rfl fun _ => .inr (by omega)
      · rw [searchPaged_of_ranksHits sq hst,
          eval_defaultSearchPaged_overflow _ q hlimit (Nat.not_lt.mp hroom)]
        refine iff_of_false (fun h => by cases h) fun h => ?_
        rcases h hst with hzero | hsum
        · exact hlimit hzero
        · omega
  · rw [eval_strategyPaged hf db saved bits held st hq fun h => absurd h hst, hrows]
    exact iff_of_true rfl fun h => absurd h hst

end Search

namespace SearchEngine

variable {env : Env} {e : SearchEngine} {query : Text} {db : Db}

/-- The page is answered with its part of the matches, and a page that starts at or past the
number of matches with none. -/
structure AcceptsPage (env : Env) (e : SearchEngine) (query : Text) (perPage page : UInt32)
    (db : Db) (bits : UInt8) (rows : List Hit) : Prop where
  shown : ((searchPage env e query perPage page).run (quiet db none bits false)).1 =
    .ok ((rows.drop (page.toNat * perPage.toNat)).take perPage.toNat)
  past : ∀ total, ((matchCount env e query).run (quiet db none bits false)).1 = .ok total →
    total ≤ page.toNat * perPage.toNat →
    ((searchPage env e query perPage page).run (quiet db none bits false)).1 = .ok []

section Accepts

variable (hf : env.sqlite.rowFault = none) {rows : List Hit}
  (hrows : matchedRows env e query db = .ok rows) (bits : UInt8)

include hf hrows

theorem searchPage_shown_iff {perPage page : UInt32}
    (hfit : page.toNat * perPage.toNat ≤ 2 ^ 32 - 1) :
    ((searchPage env e query perPage page).run (quiet db none bits false)).1 =
        .ok ((rows.drop (page.toNat * perPage.toNat)).take perPage.toNat) ↔
      (RanksHits e.strategy → e.normalizer env query = [] ∨ perPage = 0 ∨
        (page.toNat + 1) * perPage.toNat ≤ 2 ^ 32 - 1) := by
  unfold matchedRows at hrows
  by_cases hq : e.normalizer env query = []
  · rw [hq, List.isEmpty_nil, if_pos rfl] at hrows
    rw [← Except.ok.inj hrows, List.drop_nil, List.take_nil]
    simp only [searchPage, hq, List.isEmpty_nil, if_true]
    exact iff_of_true rfl fun _ => .inl trivial
  · have hne : ¬ (e.normalizer env query).isEmpty = true := mt List.isEmpty_iff.mp hq
    obtain ⟨offset, hoffset, hvalue⟩ := checkedMul_some (a := page) (b := perPage) (by omega)
    rw [if_neg hne] at hrows
    have hpaged := eval_strategyPaged_iff hf none bits true e.strategy hq hrows perPage offset
    have hsum : perPage.toNat + offset.toNat = (page.toNat + 1) * perPage.toNat := by
      rw [hvalue, Nat.add_mul, Nat.one_mul, Nat.add_comm]
    rw [slice, limited, hsum, hvalue] at hpaged
    simp only [hq, false_or, ← hpaged, searchPage_eval env hne db bits hoffset]

/-- What `match_count` answers is the number of matches, or `u32::MAX` when there are more and
the strategy fetches them to count. -/
theorem length_le_of_matchCount {total : ℕ}
    (h : ((matchCount env e query).run (quiet db none bits false)).1 = .ok total) :
    rows.length ≤ total ∨ RanksHits e.strategy ∧ total = 2 ^ 32 - 1 := by
  have hcounted : countedRows env e query db = .ok total := by
    rw [matchCount_run hf] at h
    cases hcount : countedRows env e query db with
    | error err =>
      rw [hcount] at h
      cases h
    | ok n =>
      rw [hcount, outcome, Outcome.ok.injEq] at h
      rw [h]
  replace h := (countedRows_ok hrows hcounted).2
  by_cases hst : RanksHits e.strategy
  · by_cases hlen : rows.length ≤ 2 ^ 32 - 1
    · rw [counted_eq e.strategy hlen] at h
      exact .inl h.le
    · refine .inr ⟨hst, ?_⟩
      cases hs : e.strategy with
      | fuzzyTrigram | levenshtein | damerauLevenshtein =>
        rw [hs] at h
        rw [← h]
        exact Nat.min_eq_right (Nat.not_le.mp hlen).le
      | trigramBm25 | substring | prefixMatch | suffixMatch | allTerms =>
        rw [hs] at hst
        exact hst.elim
  · rw [counted_of_not hst] at h
    exact .inl h.le

theorem acceptsPage_iff {perPage page : UInt32} (hfit : page.toNat * perPage.toNat ≤ 2 ^ 32 - 1) :
    AcceptsPage env e query perPage page db bits rows ↔
      (RanksHits e.strategy → e.normalizer env query = [] ∨ perPage = 0 ∨
        (page.toNat + 1) * perPage.toNat ≤ 2 ^ 32 - 1) := by
  have hshown := searchPage_shown_iff hf hrows bits hfit
  refine ⟨fun h => hshown.mp h.shown, fun h => ⟨hshown.mpr h, fun total hcount hpast => ?_⟩⟩
  rw [hshown.mpr h, Outcome.ok.injEq]
  rcases length_le_of_matchCount hf hrows bits hcount with hlen | ⟨hst, hmax⟩
  · rw [List.drop_of_length_le (hlen.trans hpast), List.take_nil]
  · rcases h hst with hq | hzero | hend
    · rw [matchedRows, hq, List.isEmpty_nil, if_pos rfl] at hrows
      rw [← Except.ok.inj hrows, List.drop_nil, List.take_nil]
    · rw [hzero]
      exact List.take_zero
    · have hnone : perPage.toNat = 0 := by
        rw [Nat.add_mul, Nat.one_mul] at hend
        omega
      rw [hnone, List.take_zero]

/-- Every page whose start is at most `u32::MAX` is answered, except that the strategies which
rank their hits reject one that ends past it; on the rest all strategies slice one list. -/
theorem page_accepted_iff :
    (∀ perPage page : UInt32, page.toNat * perPage.toNat ≤ 2 ^ 32 - 1 →
      (AcceptsPage env e query perPage page db bits rows ↔
        (RanksHits e.strategy → e.normalizer env query = [] ∨ perPage = 0 ∨
          (page.toNat + 1) * perPage.toNat ≤ 2 ^ 32 - 1))) ∧
    (e.normalizer env query ≠ [] → ∀ limit offset : UInt32,
      ((((e.algorithm env).searchPaged (e.normalizer env query) limit offset).run
          (quiet db none bits false)).1 = .ok (slice limit offset rows) ↔
        (RanksHits e.strategy → limit = 0 ∨ limit.toNat + offset.toNat ≤ 2 ^ 32 - 1))) := by
  refine ⟨fun perPage page hfit => acceptsPage_iff hf hrows bits hfit, fun hq limit offset => ?_⟩
  have hstrategy : strategyRows env.sqlite (e.normalizer env query) db e.strategy = .ok rows := by
    rwa [matchedRows, if_neg fun h => hq (List.isEmpty_iff.mp h)] at hrows
  exact eval_strategyPaged_iff hf none bits false e.strategy hq hstrategy limit offset

end Accepts

/-- One document under edit distance. -/
def lastPageActions : List Action :=
  [.reopen (.withConfig { normalize := .loose, strategy := .levenshtein, fieldBits := none }),
    .call (.index 1 ['a'])]

def lastPageHost : Host := Host.run .ascii {} lastPageActions

def lastPageEngine : SearchEngine :=
  { options := NormalizeProfile.loose.options, strategy := .levenshtein }

/-- The page of two hits that starts at `u32::MAX - 1` is an error. -/
theorem lastPageHost_answers :
    lastPageHost.opened = some { engine := lastPageEngine, fieldBits := DEFAULT_FIELD_BITS } ∧
      matchedRows .ascii lastPageEngine ['a'] lastPageHost.file = .ok [{ id := 1, score := 0 }] ∧
      ((searchPage .ascii lastPageEngine ['a'] 2 2147483647).run
          (quiet lastPageHost.file none DEFAULT_FIELD_BITS false)).1 =
        .err (.db "limit 2 + offset 4294967294 overflows u32") := by
  decide +kernel

theorem page_accepted_iff_last :
    AcceptsPage .ascii lastPageEngine ['a'] 1 4294967294 lastPageHost.file DEFAULT_FIELD_BITS
      [{ id := 1, score := 0 }] := by
  have hf : Env.ascii.sqlite.rowFault = none := rfl
  obtain ⟨hpages, _⟩ := page_accepted_iff hf lastPageHost_answers.2.1 DEFAULT_FIELD_BITS
  exact (hpages 1 4294967294 (by decide)).mpr fun _ => .inr (.inr (by decide))

theorem page_not_accepted :
    ¬ ∀ (actions : List Action) (o : OpenEngine) (query : Text) (perPage page : UInt32)
      (rows : List Hit), (Host.run .ascii {} actions).opened = some o →
      matchedRows .ascii o.engine query (Host.run .ascii {} actions).file = .ok rows →
      page.toNat * perPage.toNat ≤ 2 ^ 32 - 1 →
      AcceptsPage .ascii o.engine query perPage page (Host.run .ascii {} actions).file o.fieldBits
        rows := by
  intro h
  obtain ⟨hopened, hrows, herr⟩ := lastPageHost_answers
  have hshown := (h lastPageActions _ ['a'] 2 2147483647 _ hopened hrows (by decide)).shown
  change ((searchPage .ascii lastPageEngine ['a'] 2 2147483647).run
    (quiet lastPageHost.file none DEFAULT_FIELD_BITS false)).1 = _ at hshown
  rw [herr] at hshown
  cases hshown

end SearchEngine

end Unfydqry
