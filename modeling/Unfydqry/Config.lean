import Mathlib.Tactic.Common

/-! # Behaviour selectors of the engine (`config.rs`)

The presets, the composable option set with its fingerprint, the strategies and the two
configurations a host opens an index with. Text is a list of Unicode scalars. -/

namespace Unfydqry

/-- A Rust string, by its scalars. -/
abbrev Text := List Char

structure NormalizeOptions where
  lowercase : Bool := false
  kanaFold : Bool := false
  foldDiacritics : Bool := false
  foldChoonpu : Bool := false
  expandIterationMarks : Bool := false
  normalizeHyphens : Bool := false
  stripDigitGrouping : Bool := false
  collapseWhitespace : Bool := false
  deriving Repr, DecidableEq

inductive NormalizeProfile where
  | loose
  | nfkcCaseFold
  deriving Repr, DecidableEq

namespace NormalizeProfile

def asKey : NormalizeProfile → Text
  | .loose => "loose".toList
  | .nfkcCaseFold => "nfkc_case_fold".toList

/-- The step set a preset expands to. -/
def options : NormalizeProfile → NormalizeOptions
  | .loose => { lowercase := true, kanaFold := true }
  | .nfkcCaseFold => { lowercase := true }

end NormalizeProfile

namespace NormalizeOptions

/-- `parts.join("+")`. -/
def joinParts : List Text → Text
  | [] => []
  | [p] => p
  | p :: ps => p ++ '+' :: joinParts ps

/-- The enabled steps by their keys, in fixed order. -/
def parts (o : NormalizeOptions) : List Text :=
  ["nfkc".toList] ++
  (if o.lowercase then ["lower".toList] else []) ++
  (if o.kanaFold then ["kana".toList] else []) ++
  (if o.foldDiacritics then ["diacritics".toList] else []) ++
  (if o.foldChoonpu then ["choonpu".toList] else []) ++
  (if o.expandIterationMarks then ["iter".toList] else []) ++
  (if o.normalizeHyphens then ["hyphen".toList] else []) ++
  (if o.stripDigitGrouping then ["digitgroup".toList] else []) ++
  (if o.collapseWhitespace then ["ws".toList] else [])

/-- The key stamped in `meta`; the two presets keep their historical keys. -/
def fingerprint (o : NormalizeOptions) : Text :=
  if o = NormalizeProfile.loose.options then "loose".toList
  else if o = NormalizeProfile.nfkcCaseFold.options then "nfkc_case_fold".toList
  else joinParts o.parts

/-- The option set a key was made from. -/
def readFingerprint (key : Text) : NormalizeOptions :=
  if key = "loose".toList then NormalizeProfile.loose.options
  else if key = "nfkc_case_fold".toList then NormalizeProfile.nfkcCaseFold.options
  else
    let names := key.splitOn '+'
    { lowercase := "lower".toList ∈ names
      kanaFold := "kana".toList ∈ names
      foldDiacritics := "diacritics".toList ∈ names
      foldChoonpu := "choonpu".toList ∈ names
      expandIterationMarks := "iter".toList ∈ names
      normalizeHyphens := "hyphen".toList ∈ names
      stripDigitGrouping := "digitgroup".toList ∈ names
      collapseWhitespace := "ws".toList ∈ names }

theorem joinParts_eq (ps : List Text) : joinParts ps = ['+'].intercalate ps := by
  induction ps with
  | nil => rfl
  | cons p ps ih =>
    cases ps with
    | nil => simp [joinParts]
    | cons q ps =>
      change p ++ '+' :: joinParts (q :: ps) = _
      rw [ih, List.intercalate_cons_cons, List.append_assoc]
      rfl

theorem mem_parts (o : NormalizeOptions) (name : Text) :
    name ∈ o.parts ↔ name = "nfkc".toList ∨ (o.lowercase = true ∧ name = "lower".toList) ∨
      (o.kanaFold = true ∧ name = "kana".toList) ∨
      (o.foldDiacritics = true ∧ name = "diacritics".toList) ∨
      (o.foldChoonpu = true ∧ name = "choonpu".toList) ∨
      (o.expandIterationMarks = true ∧ name = "iter".toList) ∨
      (o.normalizeHyphens = true ∧ name = "hyphen".toList) ∨
      (o.stripDigitGrouping = true ∧ name = "digitgroup".toList) ∨
      (o.collapseWhitespace = true ∧ name = "ws".toList) := by
  have hpart : ∀ (b : Bool) (p : Text), name ∈ (if b then [p] else []) ↔ b = true ∧ name = p := by
    intro b p
    cases b <;> simp
  simp only [parts, List.mem_append, List.mem_singleton, hpart, or_assoc]

theorem splitOn_parts (o : NormalizeOptions) : (joinParts o.parts).splitOn '+' = o.parts := by
  have hsep : ∀ p ∈ o.parts, '+' ∉ p := by
    intro p hp
    rw [mem_parts] at hp
    rcases hp with h | h | h | h | h | h | h | h | h <;> simp [h]
  have hne : o.parts ≠ [] := List.ne_nil_of_mem ((mem_parts o _).mpr (.inl rfl))
  rw [joinParts_eq, List.splitOn_intercalate '+' hsep hne]

theorem joinParts_ne (o : NormalizeOptions) {key : Text} (hkey : "nfkc".toList ∉ key.splitOn '+') :
    joinParts o.parts ≠ key := by
  intro h
  rw [← h, splitOn_parts, mem_parts] at hkey
  exact hkey (.inl rfl)

theorem readFingerprint_fingerprint (o : NormalizeOptions) :
    readFingerprint o.fingerprint = o := by
  unfold fingerprint
  split
  · rename_i h
    rw [h]
    rfl
  · split
    · rename_i h
      rw [h]
      rfl
    · rw [readFingerprint, if_neg (joinParts_ne o (by decide)),
        if_neg (joinParts_ne o (by decide)), splitOn_parts]
      obtain ⟨lower, kana, diacritics, choonpu, iter, hyphen, digitgroup, ws⟩ := o
      simp [mem_parts]

/-- A stamped key determines the option set. -/
theorem fingerprint_injective {o o' : NormalizeOptions}
    (h : o.fingerprint = o'.fingerprint) : o = o' := by
  rw [← readFingerprint_fingerprint o, h, readFingerprint_fingerprint]

end NormalizeOptions

inductive SearchStrategy where
  | trigramBm25
  | substring
  | prefixMatch
  | suffixMatch
  | allTerms
  | fuzzyTrigram
  | levenshtein
  | damerauLevenshtein
  deriving Repr, DecidableEq

/-- Low bits of a packed id reserved for the field slot, by default. -/
def DEFAULT_FIELD_BITS : UInt8 := 8

structure EngineConfig where
  normalize : NormalizeProfile
  strategy : SearchStrategy
  fieldBits : Option UInt8

/-- The configuration of `SearchEngine::new`. -/
def EngineConfig.default : EngineConfig :=
  { normalize := .loose, strategy := .trigramBm25, fieldBits := none }

structure EngineOptionsConfig where
  normalize : NormalizeOptions
  strategy : SearchStrategy
  fieldBits : Option UInt8

end Unfydqry
