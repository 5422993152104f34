import Unfydqry.Store.Sqlite
import Unfydqry.Normalize.Steps
import Mathlib.Data.Char
import Mathlib.Data.List.Lex
import Mathlib.Data.List.Sort
import Mathlib.Data.UInt

/-! # The query algorithms: what they share (`search/mod.rs`)

An algorithm receives a normalized, non-empty query and runs its `SELECT` on the
locked connection. Scores are exact rationals. -/

namespace Unfydqry

open LockedStore

structure Hit where
  id : Int64
  score : ℚ
  deriving Repr, DecidableEq

/-- The trait `SearchAlgorithm`. -/
structure SearchAlgorithm where
  search : Text → UInt32 → EngineM (List Hit)
  matchCount : Text → EngineM ℕ
  searchPaged : Text → UInt32 → UInt32 → EngineM (List Hit)

namespace Search

/-- `u32::checked_add`. -/
def checkedAdd (a b : UInt32) : Option UInt32 :=
  if a.toNat + b.toNat < 2 ^ 32 then some (a + b) else none

/-- `u32::checked_mul`. -/
def checkedMul (a b : UInt32) : Option UInt32 :=
  if a.toNat * b.toNat < 2 ^ 32 then some (a * b) else none

/-- `u32::saturating_mul`. -/
def saturatingMul (a b : UInt32) : UInt32 :=
  (checkedMul a b).getD (UInt32.ofNat (2 ^ 32 - 1))

/-- `u32::MAX`. -/
def u32Max : UInt32 := UInt32.ofNat (2 ^ 32 - 1)

/-- The default `match_count`: all hits, counted. -/
def defaultMatchCount (search : Text → UInt32 → EngineM (List Hit)) (query : Text) : EngineM ℕ := do
  let hits ← search query u32Max
  pure hits.length

/-- The default `search_paged`: fetch `limit + offset` hits and drop the first `offset`. -/
def defaultSearchPaged (search : Text → UInt32 → EngineM (List Hit)) (query : Text)
    (limit offset : UInt32) : EngineM (List Hit) :=
  if limit = 0 then pure []
  else
    match checkedAdd limit offset with
    | none => Prog.throw (.db s!"limit {limit} + offset {offset} overflows u32")
    | some total => do
      let hits ← search query total
      pure (hits.drop offset.toNat)

/-- The first `n` elements, where the limit is a `u32`. -/
def limited {α : Type} (limit : UInt32) (rows : List α) : List α := rows.take limit.toNat

/-- The rows of a `SELECT ... LIMIT ?`, skipping those that cannot be read. -/
def selectHits (sq : Sqlite) (limit offset : UInt32) (f : Db → Stepped Hit) :
    EngineM (List Hit) :=
  Prog.stmt (Sql.query fun db =>
    Stepped.filterOk (sq.step ((f db).limited limit.toNat offset.toNat)).results)

/-- `below_trigram_len`. -/
def belowTrigramLen (q : Text) : Bool := q[2]?.isNone

/-- `reverse_chars`. -/
def reverseChars (s : Text) : Text := s.reverse

/-- `u32::from(c) + 1` as a character. -/
def nextChar (c : Char) : Option Char := Steps.fromU32 (c.toNat + 1)

/-- The loop of `range_upper_bound` on the characters, last one first. -/
def bumpLast : Text → Option Text
  | [] => none
  | last :: rest =>
    match nextChar last with
    | some next => some (rest.reverse ++ [next])
    | none => bumpLast rest

def rangeUpperBound (s : Text) : Option Text := bumpLast s.reverse

/-- `col >= key [AND col < upper]`; a missing value compares as false. -/
def inRange (key : Text) (upper : Option Text) (value : Option Text) : Bool :=
  match value, upper with
  | none, _ => false
  | some v, some u => key ≤ v && v < u
  | some v, none => key ≤ v

/-- A row of the index on a column, in the order of the index: by value, then by rowid. -/
def indexOrder (rows : List (Text × Int64)) : List (Text × Int64) :=
  rows.insertionSort fun a b => a.1 ≤ b.1

/-- The rows of `range_query` on the column `col`, through the index on it. -/
def rangeRows (col : Entry → Option Text) (key : Text) (upper : Option Text)
    (entries : Entries) : List Hit :=
  let rows := entries.toList.filterMap fun r => (col r.2).map fun v => (v, r.1)
  ((indexOrder rows).filter fun r => inRange key upper (some r.1)).map fun r =>
    { id := r.2, score := 0 }

def rangeQuery (sq : Sqlite) (col : Entry → Option Text) (key : Text) (upper : Option Text)
    (limit offset : UInt32) : EngineM (List Hit) :=
  selectHits sq limit offset fun db => { rows := rangeRows col key upper db.entries }

def rangeCount (col : Entry → Option Text) (key : Text) (upper : Option Text) : EngineM ℕ :=
  Prog.stmt (Sql.query fun db =>
    (db.entries.toList.filter fun r => inRange key upper (col r.2)).length)

/-- `a.score.total_cmp(&b.score).then(a.id.cmp(&b.id))`. -/
def hitOrder (a b : Hit) : Prop := a.score < b.score ∨ a.score = b.score ∧ a.id ≤ b.id

instance : DecidableRel hitOrder := fun a b =>
  inferInstanceAs (Decidable (a.score < b.score ∨ a.score = b.score ∧ a.id ≤ b.id))

/-- `rank_and_truncate`. -/
def rankAndTruncate (hits : List Hit) (limit : UInt32) : List Hit :=
  limited limit (hits.insertionSort hitOrder)

end Search

end Unfydqry
