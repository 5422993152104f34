import Unfydqry.Normalize.KanaVariants

/-! # The steps without tables

The steps after NFKC that call no Unicode table look at a scalar and at the one before it
only. What they settle between two neighbours, the later steps leave settled. -/

namespace Unfydqry

open Steps

/-- The steps of `normalize` after NFKC. -/
def afterNfkc (u : Unicode) (o : NormalizeOptions) (s : Text) : Text :=
  let s := if o.expandIterationMarks then expandIterationMarks s else s
  let s := if o.kanaFold then kanaFold s else s
  let s := if o.foldChoonpu then foldChoonpu s else s
  let s := if o.lowercase then lowercase u s else s
  let s := if o.foldDiacritics then foldDiacritics u s else s
  let s := if o.normalizeHyphens then normalizeHyphens s else s
  let s := if o.stripDigitGrouping then stripDigitGrouping s else s
  let s := if o.collapseWhitespace then collapseWhitespace s else s
  s

theorem normalize_eq_afterNfkc (u : Unicode) (o : NormalizeOptions) (x : Text) :
    normalize u o x = afterNfkc u o (u.nfkc x) := rfl

theorem afterNfkc_eq {u : Unicode} {o : NormalizeOptions} (hl : o.lowercase = false)
    (hd : o.foldDiacritics = false) (s : Text) : afterNfkc u o s = punctuate o (foldKana o s) := by
  simp only [afterNfkc, punctuate, foldKana, hl, hd, Bool.false_eq_true, if_false]

namespace Steps

/-- Every scalar stands to the one before it in the relation; `last` is the scalar before
the text. -/
def Linked (R : Option Char → Char → Prop) (last : Option Char) : Text → Prop
  | [] => True
  | c :: cs => R last c ∧ Linked R (some c) cs

instance decidableLinked {R : Option Char → Char → Prop} [∀ last c, Decidable (R last c)] :
    ∀ (last : Option Char) (s : Text), Decidable (Linked R last s)
  | _, [] => isTrue trivial
  | last, c :: cs =>
    have := decidableLinked (R := R) (some c) cs
    inferInstanceAs (Decidable (R last c ∧ Linked R (some c) cs))

/-- Neither a kana nor a kanji stands there. -/
def Mute (last : Option Char) : Prop := last.any isKana = false ∧ last.any isKanji = false

/-- The relation holds of what the last three steps write, and after it. -/
structure Indifferent (R : Option Char → Char → Prop) : Prop where
  mute : ∀ {last}, Mute last → ∀ c, R last c
  hyphen : ∀ last, R last '-'
  space : ∀ last, R last ' '

/-! ### The last three steps keep neighbours -/

theorem mute_none : Mute none := ⟨rfl, rfl⟩

theorem mute_of_lt {c : Char} (h : c.toNat < 0x3041) : Mute (some c) := by
  simp only [Mute, Option.any_some, isKana, isKanji, within, Bool.or_eq_false_iff,
    Bool.and_eq_false_iff, decide_eq_false_iff_not]
  omega

theorem mute_of_isAsciiDigit {last : Option Char} (h : last.any isAsciiDigit = true) :
    Mute last := by
  cases last with
  | none => exact mute_none
  | some c =>
    simp only [Option.any_some, isAsciiDigit, within, Bool.and_eq_true, decide_eq_true_eq] at h
    exact mute_of_lt (by omega)

section Linked

variable {R : Option Char → Char → Prop} (hR : Indifferent R)

include hR

theorem Linked.normalizeHyphens {s : Text} {last : Option Char} (h : Linked R last s) :
    Linked R (last.map fun c => if isDash c then '-' else c) (normalizeHyphens s) := by
  induction s generalizing last with
  | nil => trivial
  | cons c cs ih =>
    refine ⟨?_, ih h.2⟩
    dsimp only
    split
    · exact hR.hyphen _
    · cases last with
      | none => exact h.1
      | some a =>
        rw [Option.map_some]
        split
        · exact hR.mute (mute_of_lt (by decide)) c
        · exact h.1

theorem Linked.stripFrom {s : Text} {prev q : Option Char} (h : Linked R prev s)
    (hq : q = prev ∨ Mute q ∧ Mute prev) : Linked R q (stripFrom prev s) := by
  induction s generalizing prev q with
  | nil => trivial
  | cons c cs ih =>
    rw [Steps.stripFrom]
    split
    · rename_i hdrop
      simp only [Bool.and_eq_true, beq_iff_eq] at hdrop
      have hmute : Mute q := by
        rcases hq with rfl | ⟨hmute, _⟩
        · exact mute_of_isAsciiDigit hdrop.1.2
        · exact hmute
      have hcomma : Mute (some c) := by
        rw [hdrop.1.1]
        exact mute_of_lt (by decide)
      exact ih h.2 (.inr ⟨hmute, hcomma⟩)
    · refine ⟨?_, ih h.2 (.inl rfl)⟩
      rcases hq with rfl | ⟨hmute, _⟩
      · exact h.1
      · exact hR.mute hmute c

theorem Linked.collapseFrom {s : Text} {prev q : Option Char} {pending started : Bool}
    (h : Linked R prev s) (hprev : pending = false → q = prev ∨ Mute q)
    (hstart : started = false → Mute q) : Linked R q (collapseFrom pending started s) := by
  induction s generalizing prev q pending started with
  | nil => trivial
  | cons c cs ih =>
    rw [Steps.collapseFrom]
    split
    · exact ih h.2 (fun hp => by cases hp) hstart
    · have hrest : Linked R (some c) (Steps.collapseFrom false true cs) :=
        ih h.2 (fun _ => .inl rfl) fun hs => by cases hs
      split
      · exact ⟨hR.space q, hR.mute (mute_of_lt (by decide)) c, hrest⟩
      · rename_i hboth
        refine ⟨?_, hrest⟩
        cases pending with
        | false =>
          rcases hprev rfl with rfl | hmute
          · exact h.1
          · exact hR.mute hmute c
        | true =>
          cases started with
          | false => exact hR.mute (hstart rfl) c
          | true => exact absurd rfl hboth

theorem Linked.punctuate {s : Text} (o : NormalizeOptions) (h : Linked R none s) :
    Linked R none (punctuate o s) := by
  have hhyphens : Linked R none (if o.normalizeHyphens then Steps.normalizeHyphens s else s) := by
    split
    · exact h.normalizeHyphens hR
    · exact h
  have hgroups : Linked R none
      (let s := if o.normalizeHyphens then Steps.normalizeHyphens s else s
        if o.stripDigitGrouping then stripDigitGrouping s else s) := by
    dsimp only
    split
    · exact hhyphens.stripFrom hR (.inl rfl)
    · exact hhyphens
  unfold Steps.punctuate
  dsimp only at hgroups ⊢
  split
  · exact hgroups.collapseFrom hR (fun _ => .inl rfl) fun _ => mute_none
  · exact hgroups

end Linked

/-! ### Iteration marks -/

/-- The scalar is no mark, or one that stands for itself. -/
def Repeats (last : Option Char) (c : Char) : Prop := (replacement last c).getD c = c

instance (last : Option Char) (c : Char) : Decidable (Repeats last c) :=
  inferInstanceAs (Decidable ((replacement last c).getD c = c))

theorem expandFrom_eq_iff (s : Text) (last : Option Char) :
    expandFrom last s = s ↔ Linked Repeats last s := by
  induction s generalizing last with
  | nil => exact iff_of_true rfl trivial
  | cons c cs ih =>
    rw [Linked, ← ih, Repeats, expandFrom, List.cons.injEq]
    constructor
    · rintro ⟨hc, hcs⟩
      rw [hc] at hcs
      exact ⟨hc, hcs⟩
    · rintro ⟨hc, hcs⟩
      refine ⟨hc, ?_⟩
      rw [hc]
      exact hcs

theorem replacement_mute {last : Option Char} (h : Mute last) (c : Char) :
    replacement last c = none := by
  have hnone : ∀ p : Char → Bool, last.any p = false → last.filter p = none := by
    intro p hp
    cases last with
    | none => rfl
    | some a => exact Option.filter_some_neg (by simpa using hp)
  rw [replacement, hnone isKanji h.2, hnone isKana h.1]
  simp

theorem indifferent_repeats : Indifferent Repeats where
  mute h c := by rw [Repeats, replacement_mute h]; rfl
  hyphen last := by rw [Repeats, replacement_unmarked (by decide)]; rfl
  space last := by rw [Repeats, replacement_unmarked (by decide)]; rfl

theorem not_isIterationMark_of_isKanji {c : Char} (h : isKanji c = true) :
    isIterationMark c = false := by
  simp only [isKanji, within, Bool.or_eq_true, Bool.and_eq_true, decide_eq_true_eq] at h
  simp only [isIterationMark, Bool.or_eq_false_iff, beq_eq_false_iff_ne]
  omega

theorem isKanji_of_isKana {c : Char} (h : isKana c = true) : isKanji c = false := by
  simp only [isKana, within, Bool.or_eq_true, Bool.and_eq_true, decide_eq_true_eq] at h
  simp only [isKanji, within, Bool.or_eq_false_iff, Bool.and_eq_false_iff,
    decide_eq_false_iff_not]
  omega

theorem not_isIterationMark_addDakuten {c : Char} (h : isVoiceableKana c = true) :
    isIterationMark (addDakuten c) = false := by
  have hrange := voiceable_kana h
  have hnat := addDakuten_voiceable h
  simp only [isHiragana, isKatakana, within, Bool.and_eq_true, decide_eq_true_eq] at hrange
  simp only [isIterationMark, Bool.or_eq_false_iff, beq_eq_false_iff_ne]
  omega

theorem addDakuten_of_isIterationMark {c : Char} (h : isIterationMark c = true) :
    addDakuten c = c := by
  cases hv : isVoiceableKana c with
  | false => rw [addDakuten, hv, if_neg (by simp)]
  | true =>
    have hrange := voiceable_kana hv
    simp only [isHiragana, isKatakana, within, Bool.and_eq_true, decide_eq_true_eq] at hrange
    simp only [isIterationMark, Bool.or_eq_true, beq_iff_eq] at h
    omega

/-- What stands for a mark repeats the scalar before it again. -/
theorem repeats_replacement (last : Option Char) (c : Char) :
    Repeats last ((replacement last c).getD c) := by
  cases hr : replacement last c with
  | none =>
    rw [Option.getD_none, Repeats, hr]
    rfl
  | some r =>
    rw [Option.getD_some, Repeats]
    -- a mark that is left only stands after a kana that is itself a mark
    have hkana : ∀ a, last = some a → isKana a = true → isIterationMark a = true →
        (replacement last a).getD a = a := by
      intro a hlast ha hmark
      have hfilter : (some a).filter isKana = some a := Option.filter_some_pos ha
      have hdakuten : ((some a).filter isKana).map addDakuten = some a := by
        rw [hfilter, Option.map_some, addDakuten_of_isIterationMark hmark]
      have hkanji : a.toNat ≠ 0x3005 := by
        intro heq
        simp only [isKana, within, heq] at ha
        exact absurd ha (by decide)
      rw [replacement, if_neg (by simpa using hkanji), hlast, hdakuten, hfilter]
      split
      · rfl
      · split <;> rfl
    have hunmarked : isIterationMark r = false → (replacement last r).getD r = r := by
      intro hmark
      rw [replacement_unmarked hmark]
      rfl
    have hsame : ∀ p : Char → Bool, last.filter p = some r → last = some r ∧ p r = true :=
      fun p h => Option.filter_eq_some_iff.mp h
    unfold replacement at hr
    split at hr
    · exact hunmarked (not_isIterationMark_of_isKanji (hsame isKanji hr).2)
    · split at hr
      · obtain ⟨hlast, hr⟩ := hsame isKana hr
        cases hmark : isIterationMark r with
        | false => exact hunmarked hmark
        | true => exact hkana r hlast hr hmark
      · split at hr
        · obtain ⟨a, ha, rfl⟩ := Option.map_eq_some_iff.mp hr
          obtain ⟨hlast, ha⟩ := Option.filter_eq_some_iff.mp ha
          cases hv : isVoiceableKana a with
          | true => exact hunmarked (not_isIterationMark_addDakuten hv)
          | false =>
            rw [addDakuten, hv, if_neg (by simp)] at hunmarked ⊢
            cases hmark : isIterationMark a with
            | false => exact hunmarked hmark
            | true => exact hkana a hlast ha hmark
        · cases hr

theorem linked_expandFrom (s : Text) (last : Option Char) :
    Linked Repeats last (expandFrom last s) := by
  induction s generalizing last with
  | nil => trivial
  | cons c cs ih => exact ⟨repeats_replacement last c, ih _⟩

theorem linked_kanaFold {s : Text} (h : Linked Repeats none s) :
    Linked Repeats none (kanaFold s) := by
  rw [← expandFrom_eq_iff] at h ⊢
  have hcomm := kanaFold_expandFrom s none
  rw [h] at hcomm
  exact hcomm.symm

/-! ### Prolonged sound marks -/

/-- No `ー` stands after a kana. -/
def Unprolonged (last : Option Char) (c : Char) : Prop :=
  c.toNat = 0x30FC → last.any isKana = false

instance (last : Option Char) (c : Char) : Decidable (Unprolonged last c) :=
  inferInstanceAs (Decidable (c.toNat = 0x30FC → last.any isKana = false))

theorem foldChoonpuFrom_of_linked {s : Text} {last : Option Char}
    (h : Linked Unprolonged last s) : foldChoonpuFrom (last.any isKana) s = s := by
  induction s generalizing last with
  | nil => rfl
  | cons c cs ih =>
    have hkeep : ¬ (c.toNat == 0x30FC && last.any isKana) = true := by
      rw [Bool.and_eq_true, beq_iff_eq]
      rintro ⟨hc, hlast⟩
      rw [h.1 hc] at hlast
      cases hlast
    have hrest := ih h.2
    rw [Option.any_some] at hrest
    rw [foldChoonpuFrom, if_neg hkeep, hrest]

theorem linked_foldChoonpuFrom (s : Text) (last : Option Char) :
    Linked Unprolonged last (foldChoonpuFrom (last.any isKana) s) := by
  induction s generalizing last with
  | nil => trivial
  | cons c cs ih =>
    rw [foldChoonpuFrom]
    split
    · exact ih last
    · rename_i hkeep
      refine ⟨fun hc => ?_, ih (some c)⟩
      rw [Bool.and_eq_true, beq_iff_eq] at hkeep
      exact Bool.eq_false_iff.mpr fun hlast => hkeep ⟨hc, hlast⟩

theorem indifferent_unprolonged : Indifferent Unprolonged where
  mute h _ _ := h.1
  hyphen _ h := absurd h (by decide)
  space _ h := absurd h (by decide)

/-- A scalar that repeats after a dropped `ー` repeats after the kana before it. -/
theorem repeats_of_choonpu {a b c : Char} (ha : a.toNat = 0x30FC) (hb : isKana b = true)
    (h : Repeats (some a) c) : Repeats (some b) c := by
  have hkana : isKana a = true := by
    simp only [isKana, within, ha]
    decide
  have hplain : isIterationMark a = false := by simp [isIterationMark, ha]
  have hdakuten : addDakuten a = a := by
    cases hv : isVoiceableKana a with
    | false => rw [addDakuten, hv, if_neg (by simp)]
    | true =>
      have hrange := voiceable_kana hv
      simp only [isHiragana, isKatakana, within, Bool.and_eq_true, decide_eq_true_eq] at hrange
      omega
  have hnone : (some b).filter isKanji = none :=
    Option.filter_some_neg (by simp [isKanji_of_isKana hb])
  cases hmark : isIterationMark c with
  | false =>
    rw [Repeats, replacement_unmarked hmark]
    rfl
  | true =>
    -- after `ー` only `々` is left, and it repeats no kana
    have hkanji : c.toNat = 0x3005 := by
      by_contra hkanji
      simp only [Repeats, replacement, Bool.or_eq_true, beq_iff_eq, if_neg hkanji,
        Option.filter_some_pos hkana, Option.map_some, hdakuten] at h
      simp only [isIterationMark, Bool.or_eq_true, beq_iff_eq] at hmark
      have hac : a = c := by
        split at h
        · exact h
        · split at h
          · exact h
          · omega
      rw [hac] at hplain
      simp only [isIterationMark, Bool.or_eq_false_iff, beq_eq_false_iff_ne] at hplain
      omega
    rw [Repeats, replacement, if_pos (by rw [hkanji]; rfl), hnone]
    rfl

/-- `prev` is the scalar read last, `q` the one kept last. -/
theorem Linked.foldChoonpuFrom {s : Text} {prev q : Option Char} (h : Linked Repeats prev s)
    (hq : q = prev ∨ (∃ b, q = some b ∧ isKana b = true) ∧ ∃ a, prev = some a ∧ a.toNat = 0x30FC) :
    Linked Repeats q (foldChoonpuFrom (q.any isKana) s) := by
  induction s generalizing prev q with
  | nil => trivial
  | cons c cs ih =>
    rw [Steps.foldChoonpuFrom]
    split
    · rename_i hdrop
      rw [Bool.and_eq_true, beq_iff_eq, Option.any_eq_true] at hdrop
      exact ih h.2 (.inr ⟨hdrop.2, c, rfl, hdrop.1⟩)
    · refine ⟨?_, ih (q := some c) h.2 (.inl rfl)⟩
      rcases hq with rfl | ⟨⟨b, rfl, hb⟩, a, rfl, ha⟩
      · exact h.1
      · exact repeats_of_choonpu ha hb h.1

/-! ### Kana -/

theorem kanaFold_of_isKatakana {s : Text} (h : ∀ c ∈ s, isKatakana c = false) :
    kanaFold s = s := by
  rw [kanaFold, List.map_congr_left fun c hc => katakanaToHiragana_of_not (h c hc),
    List.map_id'' fun _ => rfl]

/-- `fold_choonpu` only drops scalars. -/
theorem sublist_foldChoonpuFrom (s : Text) (prev : Bool) : (foldChoonpuFrom prev s).Sublist s := by
  induction s generalizing prev with
  | nil => exact List.Sublist.refl _
  | cons c s ih =>
    rw [foldChoonpuFrom]
    split
    · exact (ih prev).cons c
    · exact (ih _).cons_cons c

theorem mem_foldChoonpuFrom {s : Text} {prev : Bool} {c : Char}
    (h : c ∈ foldChoonpuFrom prev s) : c ∈ s := (sublist_foldChoonpuFrom s prev).subset h

theorem isKatakana_punctuate {s : Text} (o : NormalizeOptions)
    (h : ∀ c ∈ s, isKatakana c = false) : ∀ c ∈ punctuate o s, isKatakana c = false :=
  fun c hc => (mem_punctuate hc).elim (h c) isKatakana_of_plain

/-! ### What the steps on kana settle -/

/-- No step on kana changes the text. -/
structure KanaSettled (o : NormalizeOptions) (s : Text) : Prop where
  marks : o.expandIterationMarks = true → Linked Repeats none s
  kana : o.kanaFold = true → ∀ c ∈ s, isKatakana c = false
  choonpu : o.foldChoonpu = true → Linked Unprolonged none s

theorem foldKana_of_settled {o : NormalizeOptions} {s : Text} (h : KanaSettled o s) :
    foldKana o s = s := by
  have hmarks : o.expandIterationMarks = true → expandIterationMarks s = s := fun ho =>
    (expandFrom_eq_iff s none).mpr (h.marks ho)
  have hkana : o.kanaFold = true → kanaFold s = s := fun ho =>
    kanaFold_of_isKatakana (h.kana ho)
  have hchoonpu : o.foldChoonpu = true → foldChoonpu s = s := fun ho =>
    foldChoonpuFrom_of_linked (h.choonpu ho)
  unfold foldKana
  simp only [ite_eq_right_iff.mpr hmarks, ite_eq_right_iff.mpr hkana,
    ite_eq_right_iff.mpr hchoonpu]

theorem settled_foldKana (o : NormalizeOptions) (s : Text) : KanaSettled o (foldKana o s) := by
  obtain ⟨t, ht⟩ : ∃ t, t = (let s := if o.expandIterationMarks then expandIterationMarks s else s
    if o.kanaFold then kanaFold s else s) := ⟨_, rfl⟩
  have hmarks : o.expandIterationMarks = true → Linked Repeats none t := by
    intro ho
    simp only [ho, if_true] at ht
    rw [ht]
    split
    · exact linked_kanaFold (linked_expandFrom s none)
    · exact linked_expandFrom s none
  have hkana : o.kanaFold = true → ∀ c ∈ t, isKatakana c = false := by
    intro ho c hc
    simp only [ho, if_true] at ht
    rw [ht] at hc
    obtain ⟨a, _, rfl⟩ := List.mem_map.mp hc
    exact isKatakana_katakanaToHiragana a
  have hfold : foldKana o s = if o.foldChoonpu then foldChoonpu t else t := by rw [ht]; rfl
  rw [hfold]
  split
  · exact ⟨fun ho => (hmarks ho).foldChoonpuFrom (.inl rfl),
      fun ho c hc => hkana ho c (mem_foldChoonpuFrom hc),
      fun _ => linked_foldChoonpuFrom t none⟩
  · rename_i hchoonpu
    exact ⟨hmarks, hkana, fun ho => absurd ho hchoonpu⟩

theorem KanaSettled.punctuate {o : NormalizeOptions} {s : Text} (h : KanaSettled o s) :
    KanaSettled o (punctuate o s) where
  marks ho := (h.marks ho).punctuate indifferent_repeats o
  kana ho := isKatakana_punctuate o (h.kana ho)
  choonpu ho := (h.choonpu ho).punctuate indifferent_unprolonged o

theorem foldKana_kanaFold {o : NormalizeOptions} (ho : o.kanaFold = true) (s : Text) :
    foldKana o (kanaFold s) = foldKana o s := by
  have htwice : ∀ t, kanaFold (kanaFold t) = kanaFold t := by
    intro t
    refine kanaFold_of_isKatakana fun c hc => ?_
    obtain ⟨a, _, rfl⟩ := List.mem_map.mp hc
    exact isKatakana_katakanaToHiragana a
  have hfold : ∀ t, foldKana o t =
      (let t := kanaFold (if o.expandIterationMarks then expandIterationMarks t else t)
        if o.foldChoonpu then foldChoonpu t else t) := by
    intro t
    unfold foldKana
    simp only [ho, if_true]
  rw [hfold, hfold, kanaFold_expand, kanaFold_expand, htwice]

end Steps

/-- Without lowercasing and folding diacritics, folding again changes nothing, and a text
folds like its hiragana variant. -/
theorem afterNfkc_stable (u : Unicode) (o : NormalizeOptions) (hl : o.lowercase = false)
    (hd : o.foldDiacritics = false) (s : Text) :
    afterNfkc u o (afterNfkc u o s) = afterNfkc u o s ∧
      (o.kanaFold = true → afterNfkc u o (kanaFold s) = afterNfkc u o s) := by
  simp only [afterNfkc_eq hl hd]
  refine ⟨?_, fun ho => by rw [foldKana_kanaFold ho]⟩
  rw [foldKana_of_settled (settled_foldKana o s).punctuate, punctuate_punctuate]

/-- `カーゝ` and `かーゝ` fold to `か`. -/
theorem afterNfkc_stable_marks :
    afterNfkc Unicode.ascii
        { expandIterationMarks := true, kanaFold := true, foldChoonpu := true }
        (kanaFold ['カ', 'ー', 'ゝ']) =
      afterNfkc Unicode.ascii
        { expandIterationMarks := true, kanaFold := true, foldChoonpu := true }
        ['カ', 'ー', 'ゝ'] :=
  (afterNfkc_stable Unicode.ascii
    { expandIterationMarks := true, kanaFold := true, foldChoonpu := true } rfl rfl
    ['カ', 'ー', 'ゝ']).2 rfl

end Unfydqry
