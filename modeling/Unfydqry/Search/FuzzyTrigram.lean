import Unfydqry.Search.Basic

/-! # Trigram similarity (`search/fuzzy_trigram.rs`) -/

namespace Unfydqry.Search

open LockedStore

/-- Minimum similarity of a match. -/
def THRESHOLD : ℚ := 3 / 10

/-- `chars.windows(3)`. -/
def windows : Text → List (Char × Char × Char)
  | a :: b :: c :: cs => (a, b, c) :: windows (b :: c :: cs)
  | _ => []

/-- The set of trigrams, each once. -/
def trigrams (chars : Text) : List (Char × Char × Char) := (windows chars).dedup

def exactMatchSimilarity (query doc : Text) : ℚ := if query = doc then 1 else 0

def jaccard (a b : List (Char × Char × Char)) : ℚ :=
  let inter := (a.filter fun t => t ∈ b).length
  let union := a.length + b.length - inter
  if union = 0 then 0 else (inter : ℚ) / union

def trigramText (t : Char × Char × Char) : Text := [t.1, t.2.1, t.2.2]

/-- `parts.join(" OR ")`. -/
def joinOr : List Text → Text
  | [] => []
  | [p] => p
  | p :: ps => p ++ " OR ".toList ++ joinOr ps

def buildFts5Or (tset : List (Char × Char × Char)) : Option Text :=
  if tset.isEmpty then none
  else
    some (joinOr (((tset.map trigramText).insertionSort (· ≤ ·)).map Fts5.fts5Phrase))

/-- The hit of a row whose text has similarity `sim`. -/
def similarHit (id : Int64) (sim : ℚ) : Option Hit :=
  if sim ≥ THRESHOLD then some { id := id, score := 1 - sim } else none

namespace FuzzyTrigram

/-- Queries of fewer than three characters: a full scan with exact comparison. -/
def searchShort (sq : Sqlite) (q : Text) (limit : UInt32) : EngineM (List Hit) :=
  Prog.stmt (Sql.tryQuery fun db =>
    (Stepped.collect (sq.step (sq.scanAll db.entries)).results).map fun rows => rankAndTruncate
      (rows.filterMap fun r => similarHit r.1 (exactMatchSimilarity q r.2.norm)) limit)

def searchLong (sq : Sqlite) (q : Text) (limit : UInt32) : EngineM (List Hit) :=
  match buildFts5Or (trigrams q) with
  | none => Prog.throw (.db "internal: 3+ char query produced no trigrams")
  | some expr =>
    Prog.stmt (Sql.tryQuery fun db =>
      (Stepped.collect (sq.step (sq.matchRows expr db.docs)).results).map fun rows =>
        rankAndTruncate
          (rows.filterMap fun r => similarHit r.1 (jaccard (trigrams q) (trigrams r.2))) limit)

def search (sq : Sqlite) (q : Text) (limit : UInt32) : EngineM (List Hit) :=
  if q.isEmpty then pure []
  else if q.length < 3 then searchShort sq q limit
  else searchLong sq q limit

end FuzzyTrigram

end Unfydqry.Search
