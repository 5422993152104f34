import Unfydqry.Normalize.Passes

/-! # Letters that the steps neither add nor drop

A step that keeps the number of letters of some kind keeps a text with one more of them
apart from one without. -/

namespace Unfydqry

open Steps

variable {P Q : Char → Bool}

theorem countP_optional (b : Bool) {s t : Text} (h : t.countP P = s.countP P) :
    (if b then t else s).countP P = s.countP P := by
  cases b
  · rfl
  · exact h

theorem countP_flatMap_of_mem {g : Char → Text} {s : Text}
    (h : ∀ c ∈ s, (g c).countP Q = [c].countP P) : (s.flatMap g).countP Q = s.countP P := by
  induction s with
  | nil => rfl
  | cons c s ih =>
    rw [List.forall_mem_cons] at h
    rw [List.flatMap_cons, List.countP_append, h.1, ih h.2, ← List.countP_append]
    rfl

theorem countP_flatMap {g : Char → Text} (h : ∀ c, (g c).countP Q = [c].countP P) (s : Text) :
    (s.flatMap g).countP Q = s.countP P := countP_flatMap_of_mem fun c _ => h c

theorem countP_foldChoonpuFrom (h : ∀ c, c.toNat = 0x30FC → P c = false) (s : Text)
    (prev : Bool) : (foldChoonpuFrom prev s).countP P = s.countP P := by
  induction s generalizing prev with
  | nil => rfl
  | cons c s ih =>
    rw [foldChoonpuFrom]
    split
    · rename_i hmark
      rw [Bool.and_eq_true, beq_iff_eq] at hmark
      rw [ih, List.countP_cons, h c hmark.1]
      rfl
    · rw [List.countP_cons, List.countP_cons, ih]

/-! ### Scalars that the last three steps leave in their order -/

theorem filter_normalizeHyphens (hdash : ∀ c, isDash c = true → P c = false) (s : Text) :
    (normalizeHyphens s).filter P = s.filter P := by
  induction s with
  | nil => rfl
  | cons c s ih =>
    rw [normalizeHyphens] at ih ⊢
    rw [List.map_cons, List.filter_cons, List.filter_cons, ih]
    split
    · rename_i hc
      rw [hdash c hc, hdash '-' (by decide), if_neg (by simp), if_neg (by simp)]
    · rfl

theorem filter_stripFrom (hcomma : P ',' = false) (s : Text) (prev : Option Char) :
    (stripFrom prev s).filter P = s.filter P := by
  induction s generalizing prev with
  | nil => rfl
  | cons c s ih =>
    rw [stripFrom]
    split
    · rename_i hdrop
      rw [Bool.and_eq_true, Bool.and_eq_true, beq_iff_eq] at hdrop
      rw [ih, List.filter_cons, hdrop.1.1, hcomma]
      rfl
    · rw [List.filter_cons, List.filter_cons, ih]

theorem filter_collapseFrom (hspace : ∀ c, isWhitespace c = true → P c = false) (s : Text)
    (pending started : Bool) : (collapseFrom pending started s).filter P = s.filter P := by
  induction s generalizing pending started with
  | nil => rfl
  | cons c s ih =>
    rw [collapseFrom]
    split
    · rename_i hc
      rw [ih, List.filter_cons, hspace c hc]
      rfl
    · split
      · rw [List.filter_cons, List.filter_cons, List.filter_cons, ih, hspace ' ' (by decide)]
        rfl
      · rw [List.filter_cons, List.filter_cons, ih]

theorem filter_punctuate (hdash : ∀ c, isDash c = true → P c = false) (hcomma : P ',' = false)
    (hspace : ∀ c, isWhitespace c = true → P c = false) (o : NormalizeOptions) (s : Text) :
    (punctuate o s).filter P = s.filter P :=
  @punctuate_keeps (fun t => t.filter P = s.filter P)
    (fun t h => (filter_normalizeHyphens hdash t).trans h)
    (fun t h => (filter_stripFrom hcomma t none).trans h)
    (fun t h => (filter_collapseFrom hspace t false false).trans h) o s rfl

theorem countP_punctuate (hdash : ∀ c, isDash c = true → P c = false) (hcomma : P ',' = false)
    (hspace : ∀ c, isWhitespace c = true → P c = false) (o : NormalizeOptions) (s : Text) :
    (punctuate o s).countP P = s.countP P := by
  rw [List.countP_eq_length_filter, filter_punctuate hdash hcomma hspace,
    ← List.countP_eq_length_filter]

section NormalForms

variable {u : Unicode} {d : CharData} (hn : u.NormalForms d)
  (hcanon : ∀ c, (d.canon c).countP Q = [c].countP P)

include hn hcanon

theorem countP_nfd (s : Text) : (u.nfd s).countP Q = s.countP P := by
  rw [hn.nfd_eq, (CanonicalOrder.reorder_perm d.ccc _).countP_eq, countP_flatMap hcanon]

theorem countP_nfc (s : Text) : (u.nfc s).countP P = s.countP P := by
  rw [← countP_nfd hn hcanon, hn.nfd_nfc, countP_nfd hn hcanon]

theorem countP_foldDiacritics (hs : u.Scalars d)
    (hmarks : ∀ c, combiningMarks c = true → Q c = false)
    (s : Text) : (foldDiacritics u s).countP P = s.countP P := by
  have hdecomposed : ∀ a ∈ (u.nfd s).filter fun c => !combiningMarks c, d.canon a = [a] := by
    intro a ha
    rw [List.mem_filter, hn.nfd_eq, (CanonicalOrder.reorder_perm d.ccc _).mem_iff,
      List.mem_flatMap] at ha
    obtain ⟨⟨c, _, hac⟩, _⟩ := ha
    exact hs.canon_canon c a hac
  have hfilter : ((u.nfd s).filter fun c => !combiningMarks c).countP Q = (u.nfd s).countP Q := by
    rw [List.countP_filter]
    refine List.countP_congr fun c _ => ?_
    rw [Bool.and_eq_true, Bool.not_eq_true', and_iff_left_iff_imp]
    intro hQ
    rw [Bool.eq_false_iff]
    intro hmark
    rw [hmarks c hmark] at hQ
    cases hQ
  rw [foldDiacritics, countP_nfc hn hcanon, ← countP_flatMap hcanon,
    List.flatMap_congr hdecomposed, List.flatMap_singleton', hfilter, countP_nfd hn hcanon]

end NormalForms

/-! ### Iteration marks and kana -/

/-- A statement about the members of a text is decided member by member. -/
instance (priority := high) decidableForallMem (s : Text) (p : Char → Prop) [DecidablePred p] :
    Decidable (∀ c ∈ s, p c) :=
  List.decidableBAll p s

namespace Steps

/-- What the list of voiceable kana itself decides. -/
theorem voiceable_table :
    (∀ c ∈ "かきくけこさしすせそたちつてとはひふへほカキクケコサシスセソタチツテトハヒフヘホ".toList,
      isHiragana c = true ∨ isKatakana c = true ∧ c.toNat ≤ 0x30DB) ∧
    (∀ n < 86, isVoiceableKana (katakanaToHiragana (Char.ofNat (0x30A1 + n))) =
      isVoiceableKana (Char.ofNat (0x30A1 + n))) ∧
    ∀ c ∈ "かきくけこさしすせそたちつてとはひふへほカキクケコサシスセソタチツテトハヒフヘホ".toList,
      isKana (addDakuten c) = true := by decide +kernel

theorem voiceable_kana {c : Char} (h : isVoiceableKana c = true) :
    isHiragana c = true ∨ isKatakana c = true ∧ c.toNat ≤ 0x30DB :=
  voiceable_table.1 c (of_decide_eq_true h)

theorem addDakuten_voiceable {c : Char} (h : isVoiceableKana c = true) :
    (addDakuten c).toNat = c.toNat + 1 := by
  have hrange := voiceable_kana h
  simp only [isHiragana, isKatakana, within, Bool.and_eq_true, decide_eq_true_eq] at hrange
  have hvalid : (c.toNat + 1).isValidChar := by
    unfold Nat.isValidChar
    omega
  rw [addDakuten, if_pos h, fromU32, if_pos hvalid, Option.getD_some, toNat_ofNat hvalid]

theorem isScript_of_isKana {c : Char} (h : isKana c = true) : isScript c = true := by
  rw [isScript, h]
  rfl

theorem isScript_of_isIterationMark {c : Char} (h : isIterationMark c = true) :
    isScript c = true := by
  simp only [isIterationMark, Bool.or_eq_true, beq_iff_eq] at h
  simp only [isScript, isKana, isKanji, within, Bool.or_eq_true, Bool.and_eq_true,
    decide_eq_true_eq, beq_iff_eq]
  omega

theorem isKana_addDakuten {c : Char} (h : isKana c = true) : isKana (addDakuten c) = true := by
  cases hv : isVoiceableKana c with
  | false =>
    rw [addDakuten, hv, if_neg (by simp)]
    exact h
  | true => exact voiceable_table.2.2 c (of_decide_eq_true hv)

theorem isKana_of_letter {c : Char} (h : isKatakana c = true ∨ isHiragana c = true) :
    isKana c = true := by
  simp only [isKatakana, isHiragana, within, Bool.and_eq_true, decide_eq_true_eq] at h
  simp only [isKana, within, Bool.or_eq_true, Bool.and_eq_true, decide_eq_true_eq]
  omega

/-- What stands for a mark is a kana or a kanji. -/
theorem replacement_script {last : Option Char} {c r : Char} (h : replacement last c = some r) :
    isScript c = true ∧ isScript r = true := by
  constructor
  · refine isScript_of_isIterationMark (Bool.of_not_eq_false fun hmark => ?_)
    rw [replacement_unmarked hmark] at h
    cases h
  · unfold replacement at h
    split at h
    · rw [isScript, (Option.filter_eq_some_iff.mp h).2, Bool.or_true, Bool.true_or]
    · split at h
      · exact isScript_of_isKana (Option.filter_eq_some_iff.mp h).2
      · split at h
        · obtain ⟨a, ha, rfl⟩ := Option.map_eq_some_iff.mp h
          exact isScript_of_isKana (isKana_addDakuten (Option.filter_eq_some_iff.mp ha).2)
        · cases h

end Steps

theorem countP_expandFrom (h : ∀ c, isScript c = true → P c = false) (s : Text)
    (last : Option Char) : (expandFrom last s).countP P = s.countP P := by
  induction s generalizing last with
  | nil => rfl
  | cons c s ih =>
    rw [expandFrom]
    cases hr : replacement last c with
    | none => rw [Option.getD_none, List.countP_cons, List.countP_cons, ih]
    | some r =>
      obtain ⟨hc, hr⟩ := replacement_script hr
      rw [Option.getD_some, List.countP_cons, List.countP_cons, ih, h c hc, h r hr]

theorem countP_kanaFold (h : ∀ c, isScript c = true → P c = false) (s : Text) :
    (kanaFold s).countP P = s.countP P := by
  rw [kanaFold, List.map_eq_flatMap]
  refine countP_flatMap (fun c => ?_) s
  cases hc : isKatakana c with
  | false => rw [katakanaToHiragana_of_not hc]
  | true =>
    have hkata := isScript_of_isKana (isKana_of_letter (.inl hc))
    have hhira := isScript_of_isKana (isKana_of_letter
      (.inr (isHiragana_katakanaToHiragana hc)))
    rw [List.countP_singleton, List.countP_singleton, h c hkata, h _ hhira]

theorem countP_foldKana (h : ∀ c, isScript c = true → P c = false) (o : NormalizeOptions)
    (s : Text) : (foldKana o s).countP P = s.countP P := by
  have hprolonged : ∀ c : Char, c.toNat = 0x30FC → P c = false := by
    intro c hc
    refine h c (isScript_of_isKana ?_)
    simp [isKana, within, hc]
  exact @foldKana_keeps (fun t => t.countP P = s.countP P)
    (fun t ht => (countP_expandFrom h t none).trans ht)
    (fun t ht => (countP_kanaFold h t).trans ht)
    (fun t ht => (countP_foldChoonpuFrom hprolonged t false).trans ht) o s rfl

end Unfydqry
