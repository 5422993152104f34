import Unfydqry.Search.EditDist
import Unfydqry.Search.FuzzyTrigram

/-! # The eight strategies (`search/*.rs`) -/

namespace Unfydqry.Search

open LockedStore

/-- `SELECT id FROM entries WHERE norm LIKE ?1 ...` -/
def likeHits (sq : Sqlite) (patterns : List Text) (db : Db) : Stepped Hit :=
  (sq.likeRows "SELECT id FROM entries WHERE norm LIKE" patterns db.entries).map fun r =>
    { id := r.1, score := 0 }

/-- `SELECT COUNT(*) FROM entries WHERE norm LIKE ?1 ...` -/
def likeCount (sq : Sqlite) (patterns : List Text) : EngineM ℕ :=
  Prog.stmt (Sql.tryQuery fun db =>
    let rows := sq.likeRows "SELECT COUNT(*) FROM entries WHERE norm LIKE" patterns db.entries
    (Stepped.collect rows.results).map List.length)

/-- `SELECT COUNT(*) FROM docs WHERE docs MATCH ?1` -/
def matchedCount (sq : Sqlite) (expr : Text) : EngineM ℕ :=
  Prog.stmt (Sql.tryQuery fun db =>
    (Stepped.collect (sq.matchRows expr db.docs).results).map List.length)

/-- The pattern of a short query, or of one term. -/
def termPattern (t : Text) : Text := Like.containsPattern (Like.escapeLike t)

namespace Substring

def rows (sq : Sqlite) (q : Text) (db : Db) : Stepped Hit :=
  if belowTrigramLen q then likeHits sq [termPattern q] db
  else (sq.matchRows (Fts5.fts5Phrase q) db.docs).map fun r => { id := r.1, score := 0 }

def algorithm (sq : Sqlite) : SearchAlgorithm where
  search q limit := selectHits sq limit 0 (rows sq q)
  searchPaged q limit offset := selectHits sq limit offset (rows sq q)
  matchCount q :=
    if belowTrigramLen q then likeCount sq [termPattern q]
    else matchedCount sq (Fts5.fts5Phrase q)

end Substring

namespace TrigramBm25

def rows (sq : Sqlite) (q : Text) (db : Db) : Stepped Hit :=
  if belowTrigramLen q then likeHits sq [termPattern q] db
  else (sq.rankedRows (Fts5.fts5Phrase q) db.docs).map fun r => { id := r.1, score := r.2 }

def algorithm (sq : Sqlite) : SearchAlgorithm where
  search q limit := selectHits sq limit 0 (rows sq q)
  searchPaged q limit offset := selectHits sq limit offset (rows sq q)
  matchCount q :=
    if belowTrigramLen q then likeCount sq [termPattern q]
    else matchedCount sq (Fts5.fts5Phrase q)

end TrigramBm25

/-- `search/prefix.rs`, through the index on `norm`. -/
def prefixAlgorithm (sq : Sqlite) : SearchAlgorithm where
  search q limit := rangeQuery sq (fun e => some e.norm) q (rangeUpperBound q) limit 0
  searchPaged q limit offset :=
    rangeQuery sq (fun e => some e.norm) q (rangeUpperBound q) limit offset
  matchCount q := rangeCount (fun e => some e.norm) q (rangeUpperBound q)

/-- `search/suffix.rs`, through the index on `norm_rev`. -/
def suffixAlgorithm (sq : Sqlite) : SearchAlgorithm where
  search q limit :=
    let rq := reverseChars q
    rangeQuery sq Entry.normRev rq (rangeUpperBound rq) limit 0
  searchPaged q limit offset :=
    let rq := reverseChars q
    rangeQuery sq Entry.normRev rq (rangeUpperBound rq) limit offset
  matchCount q :=
    let rq := reverseChars q
    rangeCount Entry.normRev rq (rangeUpperBound rq)

namespace AllTerms

def patterns (q : Text) : List Text := (splitWhitespace q).map termPattern

/-- `conn.prepare(&sql)?` before the statement is run. -/
def prepared {α : Type} (sq : Sqlite) (n : ℕ) (run : EngineM α) : EngineM α :=
  if Sqlite.tooDeep n then Prog.throw (sq.refusal .depth) else run

def algorithm (sq : Sqlite) : SearchAlgorithm where
  search q limit :=
    if (patterns q).isEmpty then pure []
    else prepared sq (patterns q).length (selectHits sq limit 0 (likeHits sq (patterns q)))
  searchPaged q limit offset :=
    if (patterns q).isEmpty then pure []
    else prepared sq (patterns q).length (selectHits sq limit offset (likeHits sq (patterns q)))
  matchCount q :=
    if (patterns q).isEmpty then pure 0
    else prepared sq (patterns q).length (likeCount sq (patterns q))

end AllTerms

/-- An algorithm that keeps the default `match_count` and `search_paged`. -/
def withDefaults (search : Text → UInt32 → EngineM (List Hit)) : SearchAlgorithm where
  search := search
  matchCount := defaultMatchCount search
  searchPaged := defaultSearchPaged search

/-- `build_strategy`. -/
def buildStrategy (sq : Sqlite) : SearchStrategy → SearchAlgorithm
  | .trigramBm25 => TrigramBm25.algorithm sq
  | .substring => Substring.algorithm sq
  | .prefixMatch => prefixAlgorithm sq
  | .suffixMatch => suffixAlgorithm sq
  | .allTerms => AllTerms.algorithm sq
  | .fuzzyTrigram => withDefaults (FuzzyTrigram.search sq)
  | .levenshtein => withDefaults (wordFuzzySearch sq levenshtein)
  | .damerauLevenshtein => withDefaults (wordFuzzySearch sq osa)

end Unfydqry.Search
