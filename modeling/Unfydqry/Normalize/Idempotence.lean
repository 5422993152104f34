import Unfydqry.Normalize.FoldExcerpt
import Unfydqry.Normalize.SecondRun

/-! # When normalizing again changes nothing

NFKC runs first and once. Lowercasing, repeating a letter and dropping a mark can each
put two scalars side by side that NFKC would have composed, or that an earlier step would
have acted on. -/

namespace Unfydqry

open Steps

/-- The steps leave nothing to a second run. Without `fold_diacritics` each kana, kanji and
capital of the text, with the marks that the steps on kana leave behind it, is composed once
lowercased; with it, no iteration mark and no `ー` ends up behind a letter it acts on. -/
def Settles (u : Unicode) (mark : Char → Bool) (o : NormalizeOptions) (x : Text) : Prop :=
  (o.foldDiacritics = false → ∀ k ∈ clusters u.isWritten mark (foldKana o (u.nfkc x)),
    u.nfc (lowered u o k) = lowered u o k) ∧
  (o.foldDiacritics = true → Quiet o (foldDiacritics u (lowered u o (foldKana o (u.nfkc x)))))

/-- A text normalizes to a fixed point exactly when its steps leave nothing to a second run. -/
theorem normalize_idempotent_iff (u : Unicode) (d : CharData) (mark : Char → Bool)
    (o : NormalizeOptions) (hforms : u.NormalForms d) (hscalars : u.Scalars d) (hkana : u.Kana d)
    (hsegments : u.Segments mark) (hcasing : Casing u d mark) (hscript : Script u d mark)
    (x : Text) :
    normalize u o (normalize u o x) = normalize u o x ↔ Settles u mark o x := by
  cases hd : o.foldDiacritics with
  | false =>
    rw [fixed_iff_composed hforms hscalars hcasing hscript hsegments hkana hd, Settles, hd]
    exact ⟨fun h => ⟨fun _ => h, fun ho => (by cases ho)⟩, fun h => h.1 rfl⟩
  | true =>
    rw [fixed_iff_quiet hforms hscalars hkana hscript hd, Settles, hd]
    exact ⟨fun h => ⟨fun ho => (by cases ho), fun _ => h⟩, fun h => h.2 rfl⟩

/-- `はゝー` becomes `はは`, and `j` composes with no dakuten. -/
theorem normalize_idempotent_repeated :
    normalize Unicode.FoldExcerpt.unicode
        { expandIterationMarks := true, kanaFold := true, foldChoonpu := true, lowercase := true }
        (normalize Unicode.FoldExcerpt.unicode
          { expandIterationMarks := true, kanaFold := true, foldChoonpu := true, lowercase := true }
          ['ハ', 'ゝ', 'ー', 'J', '\u3099']) =
      normalize Unicode.FoldExcerpt.unicode
        { expandIterationMarks := true, kanaFold := true, foldChoonpu := true, lowercase := true }
        ['ハ', 'ゝ', 'ー', 'J', '\u3099'] :=
  (normalize_idempotent_iff Unicode.FoldExcerpt.unicode Unicode.Excerpt.data
    Unicode.FoldExcerpt.mark
    { expandIterationMarks := true, kanaFold := true, foldChoonpu := true, lowercase := true }
    Unicode.FoldExcerpt.normalForms Unicode.FoldExcerpt.scalars Unicode.FoldExcerpt.kana
    Unicode.FoldExcerpt.segments Unicode.FoldExcerpt.casing Unicode.FoldExcerpt.script
    ['ハ', 'ゝ', 'ー', 'J', '\u3099']).mpr (by unfold Settles; decide)

/-- The loose profile lowercases `J` in front of a caron. -/
theorem normalize_not_idempotent :
    ¬ ∀ (o : NormalizeOptions) (x : Text),
      normalize Unicode.Excerpt.unicode o (normalize Unicode.Excerpt.unicode o x) =
        normalize Unicode.Excerpt.unicode o x := by
  intro hall
  have hloose := hall NormalizeProfile.loose.options ['J', '\u030C']
  exact absurd hloose (by decide)

/-! ### Option sets that settle every text -/

variable {u : Unicode} {d : CharData} {o : NormalizeOptions}

/-- A run of `normalize` by its steps; kana and punctuation stay. -/
theorem normalize_of_steps {x a f : Text} (b c e : Text) (hnfkc : u.nfkc x = a)
    (hexpand : (if o.expandIterationMarks then expandIterationMarks a else a) = b)
    (hkana : kanaFold b = b)
    (hchoonpu : (if o.foldChoonpu then foldChoonpu b else b) = c)
    (hlower : (if o.lowercase then lowercase u c else c) = e)
    (hmarks : (if o.foldDiacritics then foldDiacritics u e else e) = f)
    (hpunct : normalizeHyphens f = f ∧ stripDigitGrouping f = f ∧ collapseWhitespace f = f) :
    normalize u o x = f := by
  simp only [normalize, hnfkc, hexpand, hkana, ite_self, hchoonpu, hlower, hmarks, hpunct.1,
    hpunct.2.1, hpunct.2.2]

theorem foldDiacritics_sample {s t : Text} (hd : o.foldDiacritics = true) (hs : u.nfd s = s)
    (hst : (s.filter fun c => !combiningMarks c) = t) (ht : u.nfc t = t) :
    (if o.foldDiacritics then foldDiacritics u s else s) = t := by
  rw [hd, if_pos rfl, foldDiacritics, hs, hst, ht]

section Samples

variable (h : u.Samples)

include h

theorem lowercase_sample (s : Text)
    (hs : ∀ c ∈ s, c ∈ ['は', 'ゝ', '\u309A', 'ぱ', 'か', '\u0301', 'ー', '\u3099', 'が', '\u030C',
      'j', 'ǰ']) : lowercase u s = s := by
  have hid : ∀ c ∈ s, u.toLowercase c = [c] := fun c hc => h.lower c (hs c hc)
  rw [lowercase, List.flatMap_congr hid, List.flatMap_singleton']

/-- Repeating a letter puts it before a handakuten. -/
theorem not_idempotent_repeat (he : o.expandIterationMarks = true)
    (hd : o.foldDiacritics = false) :
    ∃ x, normalize u o (normalize u o x) ≠ normalize u o x := by
  have first : normalize u o ['は', 'ゝ', '\u309A'] = ['は', 'は', '\u309A'] :=
    normalize_of_steps
      ['は', 'は', '\u309A'] ['は', 'は', '\u309A'] ['は', 'は', '\u309A']
      (h.nfkc _ (by simp)) (by rw [he]; rfl) rfl (ite_self _)
      (by rw [lowercase_sample h _ (by simp), ite_self]) (by rw [hd]; rfl) (by decide)
  have second : normalize u o ['は', 'は', '\u309A'] = ['は', 'ぱ'] :=
    normalize_of_steps
      ['は', 'ぱ'] ['は', 'ぱ'] ['は', 'ぱ']
      h.nfkc_handakuten (by rw [he]; rfl) rfl (ite_self _)
      (by rw [lowercase_sample h _ (by simp), ite_self]) (by rw [hd]; rfl) (by decide)
  refine ⟨['は', 'ゝ', '\u309A'], ?_⟩
  rw [first, second]
  decide

/-- Dropping an accent puts an iteration mark after a letter. -/
theorem not_idempotent_accent (he : o.expandIterationMarks = true)
    (hd : o.foldDiacritics = true) :
    ∃ x, normalize u o (normalize u o x) ≠ normalize u o x := by
  have first : normalize u o ['か', '\u0301', 'ゝ'] = ['か', 'ゝ'] :=
    normalize_of_steps
      ['か', '\u0301', 'ゝ'] ['か', '\u0301', 'ゝ'] ['か', '\u0301', 'ゝ']
      (h.nfkc _ (by simp)) (by rw [he]; rfl) rfl (ite_self _)
      (by rw [lowercase_sample h _ (by simp), ite_self])
      (foldDiacritics_sample hd (h.nfd _ (by simp)) rfl (h.nfc _ (by simp))) (by decide)
  have second : normalize u o ['か', 'ゝ'] = ['か', 'か'] :=
    normalize_of_steps
      ['か', 'か'] ['か', 'か'] ['か', 'か']
      (h.nfkc _ (by simp)) (by rw [he]; rfl) rfl (ite_self _)
      (by rw [lowercase_sample h _ (by simp), ite_self])
      (foldDiacritics_sample hd (h.nfd _ (by simp)) rfl (h.nfc _ (by simp))) (by decide)
  refine ⟨['か', '\u0301', 'ゝ'], ?_⟩
  rw [first, second]
  decide

/-- Dropping a prolonged sound mark puts a letter before a dakuten. -/
theorem not_idempotent_choonpu (he : o.expandIterationMarks = false)
    (hc : o.foldChoonpu = true) (hd : o.foldDiacritics = false) :
    ∃ x, normalize u o (normalize u o x) ≠ normalize u o x := by
  have first : normalize u o ['か', 'ー', '\u3099'] = ['か', '\u3099'] :=
    normalize_of_steps
      ['か', 'ー', '\u3099'] ['か', '\u3099'] ['か', '\u3099']
      (h.nfkc _ (by simp)) (by rw [he]; rfl) rfl (by rw [hc]; rfl)
      (by rw [lowercase_sample h _ (by simp), ite_self]) (by rw [hd]; rfl) (by decide)
  have second : normalize u o ['か', '\u3099'] = ['が'] :=
    normalize_of_steps
      ['が'] ['が'] ['が']
      h.nfkc_dakuten (by rw [he]; rfl) rfl (by rw [hc]; rfl)
      (by rw [lowercase_sample h _ (by simp), ite_self]) (by rw [hd]; rfl) (by decide)
  refine ⟨['か', 'ー', '\u3099'], ?_⟩
  rw [first, second]
  decide

/-- Dropping an accent puts a prolonged sound mark after a letter. -/
theorem not_idempotent_prolonged (he : o.expandIterationMarks = false)
    (hc : o.foldChoonpu = true) (hd : o.foldDiacritics = true) :
    ∃ x, normalize u o (normalize u o x) ≠ normalize u o x := by
  have first : normalize u o ['か', '\u0301', 'ー'] = ['か', 'ー'] :=
    normalize_of_steps
      ['か', '\u0301', 'ー'] ['か', '\u0301', 'ー'] ['か', '\u0301', 'ー']
      (h.nfkc _ (by simp)) (by rw [he]; rfl) rfl (by rw [hc]; rfl)
      (by rw [lowercase_sample h _ (by simp), ite_self])
      (foldDiacritics_sample hd (h.nfd _ (by simp)) rfl (h.nfc _ (by simp))) (by decide)
  have second : normalize u o ['か', 'ー'] = ['か'] :=
    normalize_of_steps
      ['か', 'ー'] ['か'] ['か']
      (h.nfkc _ (by simp)) (by rw [he]; rfl) rfl (by rw [hc]; rfl)
      (by rw [lowercase_sample h _ (by simp), ite_self])
      (foldDiacritics_sample hd (h.nfd _ (by simp)) rfl (h.nfc _ (by simp))) (by decide)
  refine ⟨['か', '\u0301', 'ー'], ?_⟩
  rw [first, second]
  decide

/-- Lowercasing puts a letter before an accent its capital does not compose with. -/
theorem not_idempotent_lowercase (he : o.expandIterationMarks = false)
    (hc : o.foldChoonpu = false) (hl : o.lowercase = true) (hd : o.foldDiacritics = false) :
    ∃ x, normalize u o (normalize u o x) ≠ normalize u o x := by
  have first : normalize u o ['J', '\u030C'] = ['j', '\u030C'] := by
    have hlower : lowercase u ['J', '\u030C'] = ['j', '\u030C'] := by
      rw [lowercase, List.flatMap_cons, h.lower_j, List.flatMap_cons,
        h.lower '\u030C' (by decide)]
      rfl
    exact normalize_of_steps
      ['J', '\u030C'] ['J', '\u030C'] ['j', '\u030C']
      (h.nfkc _ (by simp)) (by rw [he]; rfl) rfl (by rw [hc]; rfl)
      (by rw [hl]; exact hlower) (by rw [hd]; rfl) (by decide)
  have second : normalize u o ['j', '\u030C'] = ['ǰ'] :=
    normalize_of_steps
      ['ǰ'] ['ǰ'] ['ǰ']
      h.nfkc_caron (by rw [he]; rfl) rfl (by rw [hc]; rfl)
      (by rw [lowercase_sample h _ (by simp), ite_self]) (by rw [hd]; rfl) (by decide)
  refine ⟨['J', '\u030C'], ?_⟩
  rw [first, second]
  decide

end Samples

/-- An option set normalizes every text to a fixed point exactly when it neither expands
iteration marks nor folds prolonged sound marks, and folds diacritics if it lowercases. -/
theorem every_text_fixed_iff (u : Unicode) (d : CharData) (o : NormalizeOptions)
    (hforms : u.NormalForms d) (hscalars : u.Scalars d) (hkana : u.Kana d)
    (hsamples : u.Samples) :
    (∀ x, normalize u o (normalize u o x) = normalize u o x) ↔
      o.expandIterationMarks = false ∧ o.foldChoonpu = false ∧
        (o.lowercase = true → o.foldDiacritics = true) := by
  constructor
  · intro hall
    have hnone : ¬ ∃ x, normalize u o (normalize u o x) ≠ normalize u o x :=
      fun ⟨x, hx⟩ => hx (hall x)
    have he : o.expandIterationMarks = false := by
      cases he : o.expandIterationMarks with
      | false => rfl
      | true =>
        cases hd : o.foldDiacritics with
        | false => exact absurd (not_idempotent_repeat hsamples he hd) hnone
        | true => exact absurd (not_idempotent_accent hsamples he hd) hnone
    have hc : o.foldChoonpu = false := by
      cases hc : o.foldChoonpu with
      | false => rfl
      | true =>
        cases hd : o.foldDiacritics with
        | false => exact absurd (not_idempotent_choonpu hsamples he hc hd) hnone
        | true => exact absurd (not_idempotent_prolonged hsamples he hc hd) hnone
    refine ⟨he, hc, fun hl => ?_⟩
    cases hd : o.foldDiacritics with
    | true => rfl
    | false => exact absurd (not_idempotent_lowercase hsamples he hc hl hd) hnone
  · rintro ⟨he, hc, hl⟩
    exact normalize_normalize hforms hscalars hkana he hc hl

example (x : Text) :
    normalize Unicode.Excerpt.unicode { lowercase := true, foldDiacritics := true }
        (normalize Unicode.Excerpt.unicode { lowercase := true, foldDiacritics := true } x) =
      normalize Unicode.Excerpt.unicode { lowercase := true, foldDiacritics := true } x :=
  (every_text_fixed_iff Unicode.Excerpt.unicode Unicode.Excerpt.data _
    Unicode.Excerpt.normalForms Unicode.Excerpt.scalars Unicode.Excerpt.kana
    Unicode.Excerpt.samples).mpr ⟨rfl, rfl, fun _ => rfl⟩ x

end Unfydqry
