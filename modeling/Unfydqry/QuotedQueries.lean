import Unfydqry.DocumentPages

/-! # Queries written into a full-text expression

The quotes keep every character of the query from being read as syntax, with one exception:
the expression is read as a C string, so U+0000 ends it inside a phrase. The first step of the
statement then fails, which `FuzzyTrigram` and the counts report and the other calls skip. -/

namespace Unfydqry.Search

open LockedStore Prog

/-- The strategy asks the full-text table. -/
def AsksFts : SearchStrategy → Prop
  | .trigramBm25 | .substring | .fuzzyTrigram => True
  | _ => False

/-- The call succeeds on the file, with no other call or fault in its way. -/
def Answers {α : Type} (call : EngineM α) (db : Db) (bits : UInt8) : Prop :=
  ∃ a, (call.run (quiet db none bits false)).1 = .ok a

theorem outcome_ok_iff {α : Type} (r : Except SearchError α) :
    (∃ a, outcome r = .ok a) ↔ ∃ a, r = .ok a := by
  cases r with
  | ok a => exact iff_of_true ⟨a, rfl⟩ ⟨a, rfl⟩
  | error e => exact iff_of_false (by rintro ⟨a, h⟩; cases h) (by rintro ⟨a, h⟩; cases h)

theorem map_ok_iff {α β : Type} (f : α → β) (r : Except SearchError α) :
    (∃ b, r.map f = .ok b) ↔ ∃ a, r = .ok a := by
  cases r with
  | ok a => exact iff_of_true ⟨f a, rfl⟩ ⟨a, rfl⟩
  | error e => exact iff_of_false (by rintro ⟨b, h⟩; cases h) (by rintro ⟨a, h⟩; cases h)

theorem matchRows_whole_iff (sq : Sqlite) (expr : Text) (docs : Docs) :
    (∃ rows, (sq.matchRows expr docs).whole = .ok rows) ↔
      ∃ phrases, Fts5.parse expr = some phrases := by
  unfold Sqlite.matchRows
  cases Fts5.parse expr with
  | none => exact iff_of_false (by rintro ⟨rows, h⟩; cases h) (by rintro ⟨ps, h⟩; cases h)
  | some phrases => exact iff_of_true ⟨_, rfl⟩ ⟨_, rfl⟩

theorem parse_fts5Phrase_iff (q : Text) :
    Fts5.parse (Fts5.fts5Phrase q) = some [q] ↔ '\x00' ∉ q := by
  rw [Fts5.parse_fts5Phrase]
  by_cases hnul : '\x00' ∈ q
  · rw [if_pos hnul]
    exact iff_of_false (by simp) (not_not.mpr hnul)
  · rw [if_neg hnul]
    exact iff_of_true rfl hnul

theorem phrase_read_iff (q : Text) :
    (∃ phrases, Fts5.parse (Fts5.fts5Phrase q) = some phrases) ↔ '\x00' ∉ q := by
  rw [Fts5.parse_fts5Phrase]
  by_cases hnul : '\x00' ∈ q
  · rw [if_pos hnul]
    exact iff_of_false (by simp) (not_not.mpr hnul)
  · rw [if_neg hnul]
    exact iff_of_true ⟨_, rfl⟩ hnul

section Long

variable {q : Text} (hlen : 3 ≤ q.length)

include hlen

theorem parse_trigrams_iff :
    (∃ expr phrases, buildFts5Or (trigrams q) = some expr ∧ Fts5.parse expr = some phrases ∧
      phrases.Perm ((trigrams q).map trigramText)) ↔ '\x00' ∉ q := by
  obtain ⟨expr, hexpr, hnone, hsome⟩ := parse_trigrams hlen
  constructor
  · rintro ⟨expr', phrases, hexpr', hparse, _⟩ hnul
    rw [hexpr, Option.some.injEq] at hexpr'
    rw [← hexpr', hnone hnul] at hparse
    cases hparse
  · intro hnul
    exact ⟨expr, _, hexpr, hsome hnul, List.perm_insertionSort _ _⟩

theorem longRows_ok_iff (sq : Sqlite) (db : Db) :
    (∃ rows, FuzzyTrigram.longRows sq q db = .ok rows) ↔ '\x00' ∉ q := by
  obtain ⟨expr, hexpr, hnone, hsome⟩ := parse_trigrams hlen
  simp only [FuzzyTrigram.longRows, hexpr]
  rw [map_ok_iff, matchRows_whole_iff]
  constructor
  · rintro ⟨phrases, hparse⟩ hnul
    rw [hnone hnul] at hparse
    cases hparse
  · intro hnul
    exact ⟨_, hsome hnul⟩

omit hlen in
theorem fuzzy_imp_iff (p : Prop) :
    (SearchStrategy.fuzzyTrigram = .fuzzyTrigram → p) ↔ p :=
  ⟨fun h => h rfl, fun h _ => h⟩

theorem strategyRows_ok_iff (sq : Sqlite) {st : SearchStrategy} (hst : AsksFts st) (db : Db) :
    (∃ rows, strategyRows sq q db st = .ok rows) ↔ (st = .fuzzyTrigram → '\x00' ∉ q) := by
  cases st with
  | trigramBm25 => exact iff_of_true ⟨_, rfl⟩ (fun h => by cases h)
  | substring => exact iff_of_true ⟨_, rfl⟩ (fun h => by cases h)
  | fuzzyTrigram =>
    rw [strategyRows, if_neg (by omega), longRows_ok_iff hlen]
    exact (fuzzy_imp_iff _).symm
  | prefixMatch | suffixMatch | allTerms | levenshtein | damerauLevenshtein => exact hst.elim

variable {sq : Sqlite} (hf : sq.rowFault = none) {st : SearchStrategy} (hst : AsksFts st) (db : Db)
  (bits : UInt8)

include hf hst

theorem search_answers_iff (limit : UInt32) :
    Answers ((buildStrategy sq st).search q limit) db bits ↔
      (st = .fuzzyTrigram → '\x00' ∉ q) := by
  have hne : q ≠ [] := by
    rintro rfl
    simp at hlen
  rw [Answers, Prog.run, eval_strategySearch hf db none bits false st hne limit, outcome_ok_iff,
    map_ok_iff, strategyRows_ok_iff hlen sq hst db]

theorem count_answers_iff : Answers ((buildStrategy sq st).matchCount q) db bits ↔ '\x00' ∉ q := by
  have hlong : ¬ belowTrigramLen q = true := by
    rw [belowTrigramLen_iff]
    omega
  have hmatched : ∀ expr, Answers (matchedCount sq expr) db bits ↔
      ∃ phrases, Fts5.parse expr = some phrases := by
    intro expr
    rw [Answers, Prog.run, eval_matchedCount, outcome_ok_iff, map_ok_iff, matchRows_whole_iff]
  cases st with
  | trigramBm25 =>
    simp only [buildStrategy, TrigramBm25.algorithm, if_neg hlong]
    rw [hmatched, phrase_read_iff]
  | substring =>
    simp only [buildStrategy, Substring.algorithm, if_neg hlong]
    rw [hmatched, phrase_read_iff]
  | fuzzyTrigram =>
    -- the default count runs the search
    have hsearch := search_answers_iff hlen hf hst db bits u32Max
    rw [fuzzy_imp_iff] at hsearch
    rw [← hsearch]
    simp only [buildStrategy, withDefaults, defaultMatchCount, Answers, Prog.run, eval_bind]
    cases hrun : (FuzzyTrigram.search sq q u32Max).eval (quiet db none bits false) with
    | mk answer w =>
      cases answer <;> simp [andThen, eval_pure]
  | prefixMatch | suffixMatch | allTerms | levenshtein | damerauLevenshtein => exact hst.elim

/-- A page of no hits is answered without a search by the default implementation. -/
theorem page_answers_iff {limit offset : UInt32} (hfit : limit.toNat + offset.toNat < 2 ^ 32) :
    Answers ((buildStrategy sq st).searchPaged q limit offset) db bits ↔
      (st = .fuzzyTrigram → '\x00' ∉ q ∨ limit = 0) := by
  have hne : q ≠ [] := by
    rintro rfl
    simp at hlen
  have hselect : ∀ f : Db → Stepped Hit, Answers (selectHits sq limit offset f) db bits := by
    intro f
    rw [Answers, Prog.run, eval_selectHits hf]
    exact ⟨_, rfl⟩
  cases st with
  | trigramBm25 => exact iff_of_true (hselect (TrigramBm25.rows sq q)) (fun h => by cases h)
  | substring => exact iff_of_true (hselect (Substring.rows sq q)) (fun h => by cases h)
  | fuzzyTrigram =>
    rw [fuzzy_imp_iff]
    by_cases hlimit : limit = 0
    · subst hlimit
      exact iff_of_true ⟨[], rfl⟩ (.inr rfl)
    · rw [Answers, Prog.run,
        eval_strategyPaged hf db none bits false _ hne fun _ => ⟨hlimit, hfit⟩, outcome_ok_iff,
        map_ok_iff, strategyRows_ok_iff hlen sq hst db, fuzzy_imp_iff,
        or_iff_left hlimit]
  | prefixMatch | suffixMatch | allTerms | levenshtein | damerauLevenshtein => exact hst.elim

end Long

/-- A query of three characters or more is read back from its phrase and from the expression of
its trigrams just when it has no U+0000. With one, the counts and the calls of `FuzzyTrigram`
fail, and no other call of the full-text strategies does. -/
theorem quoted_query_iff (q : Text) (hlen : 3 ≤ q.length) :
    (Fts5.parse (Fts5.fts5Phrase q) = some [q] ↔ '\x00' ∉ q) ∧
    ((∃ expr phrases, buildFts5Or (trigrams q) = some expr ∧ Fts5.parse expr = some phrases ∧
      phrases.Perm ((trigrams q).map trigramText)) ↔ '\x00' ∉ q) ∧
    ∀ (sq : Sqlite) (st : SearchStrategy) (db : Db) (bits : UInt8), sq.rowFault = none →
      AsksFts st →
      (Answers ((buildStrategy sq st).matchCount q) db bits ↔ '\x00' ∉ q) ∧
      ∀ limit, (Answers ((buildStrategy sq st).search q limit) db bits ↔
          (st = .fuzzyTrigram → '\x00' ∉ q)) ∧
        ∀ offset : UInt32, limit.toNat + offset.toNat < 2 ^ 32 →
          (Answers ((buildStrategy sq st).searchPaged q limit offset) db bits ↔
            (st = .fuzzyTrigram → '\x00' ∉ q ∨ limit = 0)) :=
  ⟨parse_fts5Phrase_iff q, parse_trigrams_iff hlen, fun _ _ db bits hf hst =>
    ⟨count_answers_iff hlen hf hst db bits, fun limit =>
      ⟨search_answers_iff hlen hf hst db bits limit, fun _ hfit =>
        page_answers_iff hlen hf hst db bits hfit⟩⟩⟩

theorem quoted_query_quotes :
    Fts5.parse (Fts5.fts5Phrase ['"', '"', 'O', 'R', '"']) = some [['"', '"', 'O', 'R', '"']] ∧
      ∀ st, AsksFts st →
        Answers ((buildStrategy .plain st).search ['"', '"', 'O', 'R', '"'] 10) Db.fresh 0 := by
  have hquery := quoted_query_iff ['"', '"', 'O', 'R', '"'] (by decide)
  have hfree : '\x00' ∉ ['"', '"', 'O', 'R', '"'] := by decide
  exact ⟨hquery.1.mpr hfree, fun st hst =>
    ((hquery.2.2 .plain st Db.fresh 0 rfl hst).2 10).1.mpr fun _ => hfree⟩

theorem quoted_query_cut :
    ¬ ∀ q : Text, 3 ≤ q.length →
      Fts5.parse (Fts5.fts5Phrase q) = some [q] ∧
      (∃ expr phrases, buildFts5Or (trigrams q) = some expr ∧ Fts5.parse expr = some phrases) ∧
      ∀ st, AsksFts st → Answers ((buildStrategy .plain st).search q 10) Db.fresh 0 := by
  intro h
  have hphrase := (h cutQuery (by decide)).1
  have hcut : Fts5.parse (Fts5.fts5Phrase cutQuery) = none := by decide
  rw [hcut] at hphrase
  cases hphrase

end Unfydqry.Search
