import Unfydqry.Normalize.FoldExcerpt

/-! # Variants of a text and its key

Two texts that differ in letter case only, or in katakana and hiragana only, should have
one key. The steps that fold them come after NFKC, which does not compose the variants
alike. -/

namespace Unfydqry

open Steps

/-- Lowercasing leaves nothing to compose in the text, and there is no lunate sigma. -/
def CaseFolds (u : Unicode) (mark : Char → Bool) (o : NormalizeOptions) (x : Text) : Prop :=
  lunateSigma ∉ x ∧ (o.foldDiacritics = false → ∀ k ∈ clusters u.isCapital mark x,
    u.nfc (lowercase u (u.nfkc k)) = lowercase u (u.nfkc k))

/-- NFKC composes no voiced `ワ` row in the text. -/
def KanaFolds (u : Unicode) (mark : Char → Bool) (x : Text) : Prop :=
  ∀ k ∈ clusters isKatakana mark x, ∀ a ∈ u.nfkc k, isVoicedWa a = false

section Variants

variable (u : Unicode) (d : CharData) (mark : Char → Bool) (o : NormalizeOptions)
  (hforms : u.NormalForms d) (hscalars : u.Scalars d) (hkana : u.Kana d)
  (hsegments : u.Segments mark) (hcasing : Casing u d mark) (hpairs : KanaPairs u d mark)

include hforms hscalars hkana hsegments hcasing hpairs

/-- A text and its lowercase variant have one key exactly when the case folds, a text and
its hiragana variant exactly when the kana fold. -/
theorem variants_meet_iff (x : Text) :
    ((o.lowercase = true → normalize u o (lowercase u x) = normalize u o x) ∧
      (o.kanaFold = true → normalize u o (kanaFold x) = normalize u o x)) ↔
      (o.lowercase = true → CaseFolds u mark o x) ∧ (o.kanaFold = true → KanaFolds u mark x) := by
  refine and_congr (imp_congr_right fun ho => ?_) (imp_congr_right fun ho => ?_)
  · exact case_meets_iff hforms hscalars hcasing hsegments ho x
  · exact kana_meets_iff hforms hkana hpairs hsegments hscalars ho x

/-! ### Texts with one variant -/

omit hkana hpairs in
theorem key_eq_of_lowercase (ho : o.lowercase = true) {x y : Text}
    (h : lowercase u x = lowercase u y) (hx : CaseFolds u mark o x) (hy : CaseFolds u mark o y) :
    normalize u o x = normalize u o y := by
  rw [← (case_meets_iff hforms hscalars hcasing hsegments ho x).mpr hx, h]
  exact (case_meets_iff hforms hscalars hcasing hsegments ho y).mpr hy

omit hcasing in
theorem key_eq_of_kanaFold (ho : o.kanaFold = true) {x y : Text} (h : kanaFold x = kanaFold y)
    (hx : KanaFolds u mark x) (hy : KanaFolds u mark y) : normalize u o x = normalize u o y := by
  rw [← (kana_meets_iff hforms hkana hpairs hsegments hscalars ho x).mpr hx, h]
  exact (kana_meets_iff hforms hkana hpairs hsegments hscalars ho y).mpr hy

end Variants

/-- `ガ` in two scalars meets `が`. -/
theorem variants_meet_dakuten :
    normalize Unicode.FoldExcerpt.unicode NormalizeProfile.loose.options
        (kanaFold ['カ', '\u3099', 'J']) =
      normalize Unicode.FoldExcerpt.unicode NormalizeProfile.loose.options
        ['カ', '\u3099', 'J'] :=
  ((variants_meet_iff Unicode.FoldExcerpt.unicode Unicode.Excerpt.data
    Unicode.FoldExcerpt.mark NormalizeProfile.loose.options Unicode.FoldExcerpt.normalForms
    Unicode.FoldExcerpt.scalars Unicode.FoldExcerpt.kana Unicode.FoldExcerpt.segments
    Unicode.FoldExcerpt.casing Unicode.FoldExcerpt.kanaPairs ['カ', '\u3099', 'J']).mpr
      ⟨fun _ => by unfold CaseFolds; decide, fun _ => by unfold KanaFolds; decide⟩).2 rfl

/-- The loose profile keeps a caron that the lowercase variant composes with. -/
theorem variants_not_met :
    ¬ ∀ (o : NormalizeOptions) (x : Text),
      (o.lowercase = true →
        normalize Unicode.FoldExcerpt.unicode o (lowercase Unicode.FoldExcerpt.unicode x) =
          normalize Unicode.FoldExcerpt.unicode o x) ∧
      (o.kanaFold = true →
        normalize Unicode.FoldExcerpt.unicode o (kanaFold x) =
          normalize Unicode.FoldExcerpt.unicode o x) := by
  intro hall
  have hloose := (hall NormalizeProfile.loose.options ['J', '\u030C']).1 rfl
  exact absurd hloose (by decide)

end Unfydqry
