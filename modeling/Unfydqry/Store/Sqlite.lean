import Unfydqry.Store.Db
import Unfydqry.Store.Like
import Unfydqry.Store.Fts5
import Mathlib.Data.List.Sort
import Mathlib.Data.Rat.Defs
import Mathlib.Algebra.Order.Ring.Unbundled.Rat

/-! # What the engine relies on of SQLite

The parts of SQLite's behaviour that its documentation leaves open are fields of a
structure: the order in which a scan visits `entries`, the ranking function and
its ties, the texts of its messages. For a fixed statement and a fixed file each is one
fixed value. -/

namespace Unfydqry

open LockedStore

/-- What stepping a `SELECT` yields: rows, and the error that ends them, if one does. -/
structure Stepped (α : Type) where
  rows : List α
  stop : Option SearchError := none
  deriving DecidableEq

namespace Stepped

variable {α β : Type}

/-- The first step fails. -/
def failed (e : SearchError) : Stepped α := { rows := [], stop := some e }

def map (f : α → β) (s : Stepped α) : Stepped β := { rows := s.rows.map f, stop := s.stop }

/-- `LIMIT ? OFFSET ?`: nothing is stepped past the last row asked for. -/
def limited (limit offset : ℕ) (s : Stepped α) : Stepped α where
  rows := (s.rows.drop offset).take limit
  stop := if limit = 0 ∨ offset + limit ≤ s.rows.length then none else s.stop

/-- The rows for which a condition holds; a row on which it cannot be evaluated ends them. -/
def select (cond : α → Except SearchError Bool) : List α → Stepped α
  | [] => { rows := [] }
  | r :: rest =>
    match cond r with
    | .error e => failed e
    | .ok false => select cond rest
    | .ok true => { select cond rest with rows := r :: (select cond rest).rows }

/-- The results of the steps, one after another. -/
def results (s : Stepped α) : List (Except SearchError α) :=
  s.rows.map .ok ++ (s.stop.map .error).toList

/-- `rows.filter_map(Result::ok).collect()` -/
def filterOk (rows : List (Except SearchError α)) : List α := rows.filterMap Except.toOption

/-- `collect::<Result<Vec<_>, _>>()`, or a loop that returns on the first error. -/
def collect : List (Except SearchError α) → Except SearchError (List α)
  | [] => .ok []
  | .error e :: _ => .error e
  | .ok a :: rows => (collect rows).map (a :: ·)

theorem filterOk_results (s : Stepped α) : filterOk s.results = s.rows := by
  have hok : filterOk (s.rows.map .ok) = s.rows := by
    rw [filterOk, List.filterMap_map]
    exact List.filterMap_some
  have hstop : filterOk ((s.stop.map .error).toList : List (Except SearchError α)) = [] := by
    cases s.stop <;> rfl
  rw [filterOk] at hok hstop
  rw [results, filterOk, List.filterMap_append, hok, hstop, List.append_nil]

/-- What a loop makes of the results that returns on the first error. -/
def whole (s : Stepped α) : Except SearchError (List α) := s.stop.elim (.ok s.rows) .error

theorem map_map {γ : Type} (f : α → β) (g : β → γ) (s : Stepped α) :
    (s.map f).map g = s.map (g ∘ f) := by
  rw [map, map, map, List.map_map]

theorem whole_map (f : α → β) (s : Stepped α) : (s.map f).whole = s.whole.map (List.map f) := by
  obtain ⟨rows, stop⟩ := s
  cases stop <;> rfl

theorem whole_ok {s : Stepped α} {rows : List α} (h : s.whole = .ok rows) :
    s.stop = none ∧ s.rows = rows := by
  obtain ⟨rows', stop⟩ := s
  cases stop with
  | none => exact ⟨rfl, Except.ok.inj h⟩
  | some e => cases h

theorem collect_results (s : Stepped α) : collect s.results = s.whole := by
  obtain ⟨rows, stop⟩ := s
  have hread : ∀ l : List α, collect (l.map .ok ++ (stop.map .error).toList) =
      (Stepped.mk l stop).whole := by
    intro l
    induction l with
    | nil => cases stop <;> rfl
    | cons a l ih =>
      rw [List.map_cons, List.cons_append, collect, ih]
      cases stop <;> rfl
  exact hread rows

/-! ### Rows that meet a condition -/

section Select

variable {cond : α → Except SearchError Bool} {l : List α}

theorem select_of_ok {p : α → Bool} (h : ∀ r ∈ l, cond r = .ok (p r)) :
    select cond l = { rows := l.filter p } := by
  induction l with
  | nil => rfl
  | cons r l ih =>
    rw [List.forall_mem_cons] at h
    rw [select, h.1, ih h.2, List.filter_cons]
    cases p r <;> rfl

theorem select_of_never (h : ∀ r ∈ l, cond r ≠ .ok true) : (select cond l).rows = [] := by
  induction l with
  | nil => rfl
  | cons r l ih =>
    rw [List.forall_mem_cons] at h
    rw [select]
    cases hc : cond r with
    | error e => rfl
    | ok b =>
      cases b with
      | false => exact ih h.2
      | true => exact absurd hc h.1

theorem select_stop {e : SearchError} (h : (select cond l).stop = some e) :
    ∃ r ∈ l, cond r = .error e := by
  induction l with
  | nil => cases h
  | cons r l ih =>
    rw [select] at h
    cases hc : cond r with
    | error e' =>
      rw [hc] at h
      exact ⟨r, List.mem_cons_self .., hc.trans (congrArg _ (Option.some.inj h))⟩
    | ok b =>
      rw [hc] at h
      cases b <;>
      · obtain ⟨r', hr', he⟩ := ih h
        exact ⟨r', List.mem_cons_of_mem r hr', he⟩

theorem select_runs (h : (select cond l).stop = none) : ∀ r ∈ l, ∃ b, cond r = .ok b := by
  induction l with
  | nil => exact fun r hr => absurd hr List.not_mem_nil
  | cons r l ih =>
    rw [select] at h
    cases hc : cond r with
    | error e =>
      rw [hc] at h
      cases h
    | ok b =>
      rw [hc] at h
      have hrest : (select cond l).stop = none := by cases b <;> exact h
      exact List.forall_mem_cons.mpr ⟨⟨b, hc⟩, ih hrest⟩

theorem select_map (f : β → α) (l : List β) :
    select cond (l.map f) = (select (cond ∘ f) l).map f := by
  induction l with
  | nil => rfl
  | cons r l ih =>
    rw [List.map_cons, select, select, ih]
    cases hc : cond (f r) with
    | error e =>
      simp only [Function.comp_apply, hc]
      rfl
    | ok b =>
      simp only [Function.comp_apply, hc]
      cases b <;> rfl

end Select

end Stepped

/-- The refusals whose text SQLite chooses: a full-text expression it cannot read, an
expression tree that is too deep, a `LIKE` pattern that is too long. -/
inductive Refusal where
  | expression
  | depth
  | pattern
  deriving Repr, DecidableEq

structure Sqlite where
  /-- Case folding of the trigram tokenizer. -/
  fold : Char → Char
  /-- The rows of `entries` in the order the statement visits them. -/
  scan : String → List Text → Entries → List (Int64 × Entry)
  scan_perm : ∀ sql binds t, (scan sql binds t).Perm t.toList
  /-- `bm25(docs)` of a row for the phrases of the expression. -/
  bm25 : Docs → List Text → Int64 → ℚ
  /-- The order in which rows of equal rank come out. -/
  ties : Docs → List Text → List Int64 → List Int64
  ties_perm : ∀ docs phrases ids, (ties docs phrases ids).Perm ids
  message : Refusal → String
  /-- The row at which stepping a `SELECT` fails, if one does. -/
  rowFault : Option (ℕ × SearchError) := none

namespace Sqlite

def refusal (sq : Sqlite) (r : Refusal) : SearchError := .db (sq.message r)

/-- The rows a statement yields, unless stepping it fails. -/
def step (sq : Sqlite) {α : Type} (s : Stepped α) : Stepped α :=
  match sq.rowFault with
  | none => s
  | some (k, e) => if k ≤ s.rows.length then { rows := s.rows.take k, stop := some e } else s

theorem step_calm {sq : Sqlite} (h : sq.rowFault = none) {α : Type} (s : Stepped α) :
    sq.step s = s := by
  simp only [step, h]

/-- The same database with stepping a `SELECT` failing at row `k`. -/
def failingAt (sq : Sqlite) (k : ℕ) (err : SearchError) : Sqlite :=
  { sq with rowFault := some (k, err) }

section Failing

variable {α : Type} (sq : Sqlite) {k : ℕ} (err : SearchError) {s : Stepped α}

/-- A failure after the last step is not seen. -/
theorem step_beyond (hk : s.rows.length < k) : (sq.failingAt k err).step s = s := by
  simp only [step, failingAt, if_neg (Nat.not_le.mpr hk)]

theorem whole_failingAt (hk : k ≤ s.rows.length) :
    ((sq.failingAt k err).step s).whole = .error err := by
  simp only [step, failingAt, if_pos hk, Stepped.whole, Option.elim_some]

end Failing

/-! ### Statements on the full-text table -/

/-- `WHERE docs MATCH ?1` without `ORDER BY`: ascending rowid. -/
def matchRows (sq : Sqlite) (expr : Text) (docs : Docs) : Stepped (Int64 × Text) :=
  match Fts5.parse expr with
  | none => .failed (sq.refusal .expression)
  | some phrases => { rows := docs.toList.filter fun r => Fts5.isMatch sq.fold phrases r.2 }

/-- `WHERE docs MATCH ?1 ORDER BY bm25(docs)`. -/
def rankedRows (sq : Sqlite) (expr : Text) (docs : Docs) : Stepped (Int64 × ℚ) :=
  match Fts5.parse expr with
  | none => .failed (sq.refusal .expression)
  | some phrases =>
    let ids := (docs.toList.filter fun r => Fts5.isMatch sq.fold phrases r.2).map Prod.fst
    { rows := ((sq.ties docs phrases ids).map fun id =>
        (id, sq.bm25 docs phrases id)).insertionSort fun a b => a.2 ≤ b.2 }

/-! ### Statements on `entries` -/

/-- `SELECT id, norm FROM entries`. -/
def scanAll (sq : Sqlite) (entries : Entries) : Stepped (Int64 × Entry) :=
  { rows := sq.scan "SELECT id, norm FROM entries" [] entries }

/-- `SQLITE_MAX_EXPR_DEPTH`. -/
def MAX_EXPR_DEPTH : ℕ := 1000

/-- The depth of `n` conditions `norm LIKE '%'||?i||'%' ESCAPE '\'` joined by `AND`: four for
the first one, and one more for each that follows. -/
def clauseDepth (n : ℕ) : ℕ := n + 3

/-- A statement with so many conditions is refused when it is prepared. -/
def tooDeep (n : ℕ) : Bool := MAX_EXPR_DEPTH < clauseDepth n

/-- `norm LIKE p1 ESCAPE '\' AND norm LIKE p2 ESCAPE '\' ...`: the conditions are evaluated from
the left, up to the first one that does not hold. -/
def likeAll (sq : Sqlite) (norm : Text) : List Text → Except SearchError Bool
  | [] => .ok true
  | p :: ps =>
    if Like.tooLong p then .error (sq.refusal .pattern)
    else if Like.isMatch p norm then likeAll sq norm ps else .ok false

/-- The rows of `entries` under `LIKE` conditions, for the statement `sql`. -/
def likeRows (sq : Sqlite) (sql : String) (patterns : List Text) (entries : Entries) :
    Stepped (Int64 × Entry) :=
  .select (fun r => sq.likeAll r.2.norm patterns) (sq.scan sql patterns entries)

/-- Evaluating the conditions on the text comes to a pattern that is too long. -/
def reachesLong (norm : Text) : List Text → Bool
  | [] => false
  | p :: ps => Like.tooLong p || (Like.isMatch p norm && reachesLong norm ps)

theorem likeAll_eq (sq : Sqlite) (norm : Text) (ps : List Text) :
    sq.likeAll norm ps = if reachesLong norm ps then .error (sq.refusal .pattern)
      else .ok (ps.all fun p => !Like.tooLong p && Like.isMatch p norm) := by
  induction ps with
  | nil => rfl
  | cons p ps ih =>
    rw [likeAll, ih, reachesLong, List.all_cons]
    cases Like.tooLong p <;> cases Like.isMatch p norm <;> simp

/-- With a pattern that is too long no text meets all conditions. -/
theorem likeAll_ne_true (sq : Sqlite) {ps : List Text} (h : ∃ p ∈ ps, Like.tooLong p = true)
    (norm : Text) : sq.likeAll norm ps ≠ .ok true := by
  have hnone : (ps.all fun p => !Like.tooLong p && Like.isMatch p norm) = false := by
    obtain ⟨p, hp, hlong⟩ := h
    rw [List.all_eq_false]
    exact ⟨p, hp, by simp [hlong]⟩
  rw [likeAll_eq, hnone]
  split <;> simp

theorem not_reachesLong {ps : List Text} (h : ∀ p ∈ ps, Like.tooLong p = false) (norm : Text) :
    reachesLong norm ps = false := by
  induction ps with
  | nil => rfl
  | cons p ps ih =>
    rw [List.forall_mem_cons] at h
    rw [reachesLong, h.1, ih h.2, Bool.and_false]
    rfl

/-- The rows that meet the conditions are listed, all of them or, with a pattern that is too
long, none. -/
theorem likeRows_rows (sq : Sqlite) (sql : String) (patterns : List Text) (entries : Entries) :
    (sq.likeRows sql patterns entries).rows =
      (sq.scan sql patterns entries).filter fun r =>
        patterns.all fun p => !Like.tooLong p && Like.isMatch p r.2.norm := by
  unfold likeRows
  by_cases hlong : ∃ p ∈ patterns, Like.tooLong p = true
  · rw [Stepped.select_of_never fun r _ => likeAll_ne_true sq hlong r.2.norm]
    symm
    refine List.filter_eq_nil_iff.mpr fun r _ hall => ?_
    obtain ⟨p, hp, hl⟩ := hlong
    have hfit := List.all_eq_true.mp hall p hp
    rw [hl] at hfit
    cases hfit
  · have hfit : ∀ p ∈ patterns, Like.tooLong p = false := fun p hp =>
      Bool.eq_false_iff.mpr fun h => hlong ⟨p, hp, h⟩
    rw [Stepped.select_of_ok fun r _ => by
      rw [likeAll_eq, not_reachesLong hfit, if_neg Bool.false_ne_true]]

/-- The error that ends the rows, when a text comes to a pattern that is too long. -/
theorem likeRows_stop (sq : Sqlite) (sql : String) (patterns : List Text) (entries : Entries) :
    (sq.likeRows sql patterns entries).stop =
      if entries.toList.any fun r => reachesLong r.2.norm patterns
      then some (sq.refusal .pattern) else none := by
  have hany : (entries.toList.any fun r => reachesLong r.2.norm patterns) =
      (sq.scan sql patterns entries).any fun r => reachesLong r.2.norm patterns :=
    (List.Perm.any_eq (sq.scan_perm sql patterns entries)).symm
  rw [hany]
  cases hstop : (sq.likeRows sql patterns entries).stop with
  | none =>
    rw [if_neg]
    intro h
    obtain ⟨r, hr, hreach⟩ := List.any_eq_true.mp h
    obtain ⟨b, hb⟩ := Stepped.select_runs hstop r hr
    rw [likeAll_eq, if_pos hreach] at hb
    cases hb
  | some e =>
    obtain ⟨r, hr, herr⟩ := Stepped.select_stop hstop
    rw [likeAll_eq] at herr
    split at herr
    · rename_i hreach
      rw [if_pos (List.any_eq_true.mpr ⟨r, hr, hreach⟩), ← Except.error.inj herr]
    · cases herr

/-- An instance: scans and ties in the order of the rowid, one rank for all rows, and the
case folding of ASCII letters. -/
def plain : Sqlite where
  fold := Char.toLower
  scan _ _ entries := entries.toList
  scan_perm _ _ _ := List.Perm.refl _
  bm25 _ _ _ := 0
  ties _ _ ids := ids
  ties_perm _ _ _ := List.Perm.refl _
  message
    | .expression => "unterminated string"
    | .depth => "Expression tree is too large (maximum depth 1000)"
    | .pattern => "LIKE or GLOB pattern too complex"

end Sqlite

end Unfydqry
