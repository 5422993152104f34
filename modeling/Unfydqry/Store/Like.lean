import Unfydqry.Store.Chars
import Mathlib.Algebra.BigOperators.Group.List.Basic
import Mathlib.Algebra.GroupWithZero.Nat

/-! # `LIKE` patterns

SQLite's `LIKE ... ESCAPE '\'`: `%` stands for any run, `_` for any one
character, the escape character makes the next one literal, and `A`-`Z` compare
equal to `a`-`z`. Pattern and text are handed over as C strings. -/

namespace Unfydqry

namespace Like

open Store

/-- The fold under which `LIKE` compares two characters. -/
def asciiLower (c : Char) : Char := c.toLower

def sameChar (c d : Char) : Bool := asciiLower c == asciiLower d

/-- `patternCompare`, on the characters read. -/
def patternCompare : Text → Text → Bool
  | [], s => s.isEmpty
  | c :: p, s =>
    if c = '%' then s.tails.any (patternCompare p)
    else
      match s with
      | [] => false
      | x :: s =>
        if c = '_' then patternCompare p s
        else if c = '\\' then
          match p with
          | [] => false
          | d :: p => sameChar d x && patternCompare p s
        else sameChar c x && patternCompare p s

/-- `s LIKE p ESCAPE '\'`. -/
def isMatch (p s : Text) : Bool := patternCompare (readText p) (readText s)

/-- `SQLITE_MAX_LIKE_PATTERN_LENGTH`, in bytes. -/
def MAX_PATTERN_LENGTH : ℕ := 50000

/-- The pattern is refused as too complex. -/
def tooLong (p : Text) : Bool := MAX_PATTERN_LENGTH < (p.map Char.utf8Size).sum

/-- `search::escape_like`. -/
def escapeLike (s : Text) : Text :=
  s.flatMap fun c => if c = '\\' ∨ c = '%' ∨ c = '_' then ['\\', c] else [c]

/-- The pattern `'%'||?1||'%'` for an escaped text. -/
def containsPattern (escaped : Text) : Text := '%' :: escaped ++ ['%']

theorem sameChar_iff (c d : Char) : sameChar c d = true ↔ asciiLower c = asciiLower d := by
  rw [sameChar, beq_iff_eq]

theorem patternCompare_any (p s : Text) :
    patternCompare ('%' :: p) s = s.tails.any (patternCompare p) := by
  cases p <;> cases s <;> simp [patternCompare]

theorem patternCompare_escaped (c : Char) (p s : Text) :
    patternCompare (escapeLike [c] ++ p) s = true ↔
      ∃ x t, s = x :: t ∧ asciiLower c = asciiLower x ∧ patternCompare p t = true := by
  have hmeta : '\\' ≠ '%' ∧ '\\' ≠ '_' := by decide
  by_cases hc : c = '\\' ∨ c = '%' ∨ c = '_'
  · simp only [escapeLike, List.flatMap_cons, List.flatMap_nil, if_pos hc, List.append_nil,
      List.cons_append, List.nil_append]
    cases s with
    | nil => simp [patternCompare, hmeta.1]
    | cons x t => simp [patternCompare, hmeta.1, hmeta.2, sameChar_iff]
  · simp only [escapeLike, List.flatMap_cons, List.flatMap_nil, if_neg hc, List.append_nil,
      List.cons_append, List.nil_append]
    rw [not_or, not_or] at hc
    obtain ⟨hbackslash, hpercent, hunderscore⟩ := hc
    cases s with
    | nil => cases p <;> simp [patternCompare, hpercent]
    | cons x t =>
      have hstep : patternCompare (c :: p) (x :: t) = (sameChar c x && patternCompare p t) := by
        cases p <;> simp [patternCompare, hpercent, hunderscore, hbackslash]
      rw [hstep, Bool.and_eq_true, sameChar_iff]
      simp

theorem escapeLike_cons (c : Char) (q : Text) :
    escapeLike (c :: q) = escapeLike [c] ++ escapeLike q := by
  simp [escapeLike]

/-- An escaped text matches the texts that begin with it and go on with the rest of the
pattern. -/
theorem patternCompare_literal (q p s : Text) :
    patternCompare (escapeLike q ++ p) s = true ↔
      ∃ a t, s = a ++ t ∧ a.map asciiLower = q.map asciiLower ∧ patternCompare p t = true := by
  induction q generalizing s with
  | nil =>
    constructor
    · intro h
      exact ⟨[], s, rfl, rfl, h⟩
    · rintro ⟨a, t, rfl, ha, h⟩
      rw [List.map_nil, List.map_eq_nil_iff] at ha
      subst ha
      exact h
  | cons c q ih =>
    rw [escapeLike_cons, List.append_assoc, patternCompare_escaped]
    constructor
    · rintro ⟨x, t, rfl, hc, hm⟩
      obtain ⟨a, u, rfl, ha, hu⟩ := (ih t).mp hm
      exact ⟨x :: a, u, rfl, by rw [List.map_cons, List.map_cons, ha, hc], hu⟩
    · rintro ⟨a, t, rfl, ha, ht⟩
      obtain ⟨x, a, rfl, hx, ha⟩ := List.map_eq_cons_iff.mp ha
      exact ⟨x, a ++ t, rfl, hx.symm, (ih _).mpr ⟨a, t, rfl, ha, ht⟩⟩

/-- `%q%`, escaped, matches the texts that contain `q` up to the case of ASCII letters. -/
theorem patternCompare_contains (q s : Text) :
    patternCompare (containsPattern (escapeLike q)) s = true ↔
      q.map asciiLower <:+: s.map asciiLower := by
  have hrest : ∀ t, patternCompare ['%'] t = true := by
    intro t
    have hnil : ([] : Text) ∈ t.tails := (List.mem_tails _ _).mpr (List.nil_suffix ..)
    rw [patternCompare_any]
    exact List.any_eq_true.mpr ⟨[], hnil, rfl⟩
  rw [containsPattern, List.cons_append, patternCompare_any, List.any_eq_true]
  constructor
  · rintro ⟨t, ht, hm⟩
    obtain ⟨u, rfl⟩ := (List.mem_tails _ _).mp ht
    obtain ⟨a, t, rfl, ha, _⟩ := (patternCompare_literal q _ _).mp hm
    rw [← ha]
    exact ⟨u.map asciiLower, t.map asciiLower, by simp⟩
  · rintro ⟨u, t, h⟩
    obtain ⟨ua, t, rfl, hu, rfl⟩ := List.append_eq_map_iff.mp h
    obtain ⟨u, a, rfl, rfl, ha⟩ := List.map_eq_append_iff.mp hu
    rw [List.append_assoc]
    exact ⟨a ++ t, (List.mem_tails _ _).mpr (List.suffix_append u _),
      (patternCompare_literal q _ _).mpr ⟨a, t, rfl, ha, hrest t⟩⟩

/-- `%q`, escaped, matches the texts that end with `q`. -/
theorem patternCompare_endsWith (q s : Text) :
    patternCompare ('%' :: escapeLike q) s = true ↔
      q.map asciiLower <:+ s.map asciiLower := by
  have hlast : ∀ t, patternCompare (escapeLike q) t = true ↔
      t.map asciiLower = q.map asciiLower := by
    intro t
    have h := patternCompare_literal q [] t
    rw [List.append_nil] at h
    rw [h]
    constructor
    · rintro ⟨a, u, rfl, ha, hu⟩
      rw [patternCompare, List.isEmpty_iff] at hu
      rw [hu, List.append_nil, ha]
    · intro heq
      exact ⟨t, [], (List.append_nil t).symm, heq, rfl⟩
  rw [patternCompare_any, List.any_eq_true]
  constructor
  · rintro ⟨t, ht, hm⟩
    rw [← (hlast t).mp hm]
    exact ((List.mem_tails _ _).mp ht).map asciiLower
  · rintro ⟨u, hu⟩
    obtain ⟨a, t, rfl, _, ht⟩ := List.append_eq_map_iff.mp hu
    exact ⟨t, (List.mem_tails _ _).mpr (List.suffix_append a t), (hlast t).mpr ht⟩

/-! ### The pattern of a query -/

theorem bytes_le (p : Text) : (p.map Char.utf8Size).sum ≤ 4 * p.length := by
  induction p with
  | nil => exact Nat.zero_le _
  | cons c p ih =>
    have hc := c.utf8Size_le_four
    rw [List.map_cons, List.sum_cons, List.length_cons]
    omega

theorem length_escapeLike_le (q : Text) : (escapeLike q).length ≤ 2 * q.length := by
  induction q with
  | nil => exact Nat.zero_le _
  | cons c q ih =>
    have hchar : (escapeLike [c]).length ≤ 2 := by
      rw [escapeLike, List.flatMap_cons, List.flatMap_nil, List.append_nil]
      split <;> simp
    rw [escapeLike_cons, List.length_append, List.length_cons]
    omega

theorem nul_mem_escapeLike (q : Text) : '\x00' ∈ escapeLike q ↔ '\x00' ∈ q := by
  induction q with
  | nil => exact Iff.rfl
  | cons c q ih =>
    have hchar : '\x00' ∈ escapeLike [c] ↔ '\x00' = c := by
      by_cases hc : c = '\\' ∨ c = '%' ∨ c = '_'
      · simp [escapeLike, hc]
      · simp [escapeLike, hc]
    rw [escapeLike_cons, List.mem_append, List.mem_cons, hchar, ih]

theorem cString_escapeLike (q : Text) : cString (escapeLike q) = escapeLike (cString q) := by
  induction q with
  | nil => rfl
  | cons c q ih =>
    by_cases hz : c = '\x00'
    · subst hz
      rfl
    · have hfree : '\x00' ∉ escapeLike [c] := by
        rw [nul_mem_escapeLike, List.mem_singleton]
        exact fun h => hz h.symm
      rw [escapeLike_cons, cString_append_of_free hfree, ih, cString_cons hz, ← escapeLike_cons]

theorem decoded_escapeLike (q : Text) :
    (escapeLike q).map decoded = escapeLike (q.map decoded) := by
  rw [escapeLike, escapeLike, List.map_flatMap, List.flatMap_map]
  refine List.flatMap_congr fun c _ => ?_
  have hsame : (decoded c = '\\' ∨ decoded c = '%' ∨ decoded c = '_') ↔
      (c = '\\' ∨ c = '%' ∨ c = '_') := by
    rw [decoded_eq_iff (by decide), decoded_eq_iff (by decide), decoded_eq_iff (by decide)]
  by_cases hc : c = '\\' ∨ c = '%' ∨ c = '_'
  · have hback : decoded '\\' = '\\' := decoded_of_lt (by decide)
    rw [if_pos hc, if_pos (hsame.mpr hc), List.map_cons, List.map_cons, List.map_nil, hback]
  · rw [if_neg hc, if_neg (mt hsame.mp hc), List.map_cons, List.map_nil]

/-- What `LIKE` finds for a query: a run of the text, or, when U+0000 ends the pattern before
its last `%`, the end of the text. -/
def Contains (q s : Text) : Prop :=
  if '\x00' ∈ q then (readText q).map asciiLower <:+ (readText s).map asciiLower
  else (readText q).map asciiLower <:+: (readText s).map asciiLower

instance (q : Text) : DecidablePred (Contains q) := fun _ =>
  inferInstanceAs (Decidable (if '\x00' ∈ q then _ else _))

theorem isMatch_contains (q s : Text) :
    isMatch (containsPattern (escapeLike q)) s = true ↔ Contains q s := by
  have hescape : ∀ t : Text, (escapeLike (cString t)).map decoded = escapeLike (readText t) :=
    fun t => decoded_escapeLike (cString t)
  have hany : decoded '%' = '%' := decoded_of_lt (by decide)
  have hpercent : '%' ≠ '\x00' := by decide
  unfold isMatch Contains
  split
  · rename_i hz
    have hread : readText (containsPattern (escapeLike q)) = '%' :: escapeLike (readText q) := by
      rw [containsPattern, List.cons_append, readText, cString_cons hpercent,
        cString_append_of_mem ((nul_mem_escapeLike q).mpr hz), cString_escapeLike, List.map_cons,
        hany, hescape]
    rw [hread, patternCompare_endsWith]
  · rename_i hz
    have hread : readText (containsPattern (escapeLike q)) =
        containsPattern (escapeLike (readText q)) := by
      rw [containsPattern, List.cons_append, readText, cString_cons hpercent,
        cString_append_of_free (mt (nul_mem_escapeLike q).mp hz),
        show cString ['%'] = ['%'] from rfl, List.map_cons, List.map_append, hany]
      rw [readText, cString_eq_self hz, decoded_escapeLike]
      exact congrArg (fun c => '%' :: (escapeLike (q.map decoded) ++ [c])) hany
    rw [hread, patternCompare_contains]

end Like

end Unfydqry
