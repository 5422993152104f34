import Unfydqry.Normalize.NormalForms

/-! # When normalizing twice is normalizing once

`normalize` runs in two parts: the steps that change letters, then the three steps on
punctuation. A text whose letters no step changes keeps them through the second part. -/

namespace Unfydqry

namespace Steps

/-! ### Punctuation -/

/-- The last three steps of `normalize`. -/
def punctuate (o : NormalizeOptions) (s : Text) : Text :=
  let s := if o.normalizeHyphens then normalizeHyphens s else s
  let s := if o.stripDigitGrouping then stripDigitGrouping s else s
  if o.collapseWhitespace then collapseWhitespace s else s

theorem isDash_normalizeHyphens {s : Text} {c : Char} (h : c ∈ normalizeHyphens s) :
    isDash c = true → c = '-' := by
  obtain ⟨a, _, rfl⟩ := List.mem_map.mp h
  intro hdash
  split
  · rfl
  · rename_i ha
    rw [if_neg ha] at hdash
    exact absurd hdash ha

theorem normalizeHyphens_of_dashes {s : Text} (h : ∀ c ∈ s, isDash c = true → c = '-') :
    normalizeHyphens s = s := by
  induction s with
  | nil => rfl
  | cons c s ih =>
    rw [List.forall_mem_cons] at h
    rw [normalizeHyphens, List.map_cons]
    congr 1
    · split
      · rename_i hc
        exact (h.1 hc).symm
      · rfl
    · exact ih h.2

theorem mem_normalizeHyphens {s : Text} {c : Char} (h : c ∈ normalizeHyphens s) :
    c ∈ s ∨ c = '-' := by
  obtain ⟨a, ha, rfl⟩ := List.mem_map.mp h
  split
  · exact .inr rfl
  · exact .inl ha

theorem isDash_space : isDash ' ' = false := by decide

/-- What a step keeps of two texts is kept whether the step is on or not. -/
theorem optional_related {R : Text → Text → Prop} {f : Text → Text}
    (hf : ∀ s t, R s t → R (f s) (f t)) (b : Bool) {s t : Text} (h : R s t) :
    R (if b then f s else s) (if b then f t else t) := by
  cases b
  · exact h
  · exact hf s t h

/-- What each of the three steps keeps of two texts, they keep together. -/
theorem punctuate_related {R : Text → Text → Prop}
    (hhyphens : ∀ s t, R s t → R (normalizeHyphens s) (normalizeHyphens t))
    (hgroups : ∀ s t, R s t → R (stripDigitGrouping s) (stripDigitGrouping t))
    (hspaces : ∀ s t, R s t → R (collapseWhitespace s) (collapseWhitespace t))
    (o : NormalizeOptions) {s t : Text} (h : R s t) : R (punctuate o s) (punctuate o t) :=
  optional_related hspaces _ (optional_related hgroups _ (optional_related hhyphens _ h))

theorem punctuate_keeps {P : Text → Prop} (hhyphens : ∀ s, P s → P (normalizeHyphens s))
    (hgroups : ∀ s, P s → P (stripDigitGrouping s)) (hspaces : ∀ s, P s → P (collapseWhitespace s))
    (o : NormalizeOptions) {s : Text} (h : P s) : P (punctuate o s) :=
  @punctuate_related (fun s _ => P s) (fun s _ => hhyphens s) (fun s _ => hgroups s)
    (fun s _ => hspaces s) o s s h

/-- What the last three steps write is of the text, a hyphen or a space. -/
theorem mem_punctuate {o : NormalizeOptions} {s : Text} {c : Char} (h : c ∈ punctuate o s) :
    c ∈ s ∨ isPlain c = true := by
  refine @punctuate_keeps (fun t => c ∈ t → c ∈ s ∨ isPlain c = true) ?_ ?_ ?_ o s .inl h
  · intro t ht hc
    rcases mem_normalizeHyphens hc with hc | rfl
    · exact ht hc
    · exact .inr rfl
  · exact fun t ht hc => ht (mem_stripFrom hc)
  · intro t ht hc
    rcases mem_collapseFrom hc with hc | rfl
    · exact ht hc
    · exact .inr rfl

/-- A scalar that the last three steps look at. -/
def isJoint (c : Char) : Bool := isDash c || c == ',' || isAsciiDigit c || isWhitespace c

/-- Texts that may be cut at punctuation and put together with plain scalars. -/
structure Joined (P : Text → Prop) : Prop where
  cut : ∀ p c q, isJoint c = true → P (p ++ c :: q) → P p ∧ P q
  join : ∀ p b q, isPlain b = true → P p → P q → P (p ++ b :: q)

section Joined

variable {P : Text → Prop} (hP : Joined P)

include hP

theorem Joined.normalizeHyphens (s p : Text) (h : P (p ++ s)) :
    P (p ++ Steps.normalizeHyphens s) := by
  induction s generalizing p with
  | nil => exact h
  | cons c s ih =>
    have hhead : P (p ++ (if isDash c then '-' else c) :: s) := by
      split
      · rename_i hc
        obtain ⟨hp, hs⟩ := hP.cut p c s (by rw [isJoint, hc]; rfl) h
        exact hP.join p '-' s rfl hp hs
      · exact h
    have hrest := ih (p ++ [if isDash c then '-' else c]) (by
      rw [List.append_assoc]
      exact hhead)
    rw [List.append_assoc] at hrest
    exact hrest

theorem Joined.stripFrom (s p : Text) (prev : Option Char) (h : P (p ++ s)) :
    P (p ++ Steps.stripFrom prev s) := by
  induction s generalizing p prev with
  | nil => exact h
  | cons c s ih =>
    rw [Steps.stripFrom]
    split
    · -- the comma goes; the digit after it joins the parts
      rename_i hdrop
      simp only [Bool.and_eq_true, beq_iff_eq] at hdrop
      cases s with
      | nil => cases hdrop.2
      | cons digit rest =>
        have hdigit : isAsciiDigit digit = true := hdrop.2
        obtain ⟨hp, hdrest⟩ := hP.cut p c _ (by rw [hdrop.1.1]; rfl) h
        obtain ⟨_, hrest⟩ := hP.cut [] digit rest (by rw [isJoint, hdigit]; simp) hdrest
        exact ih p _ (hP.join p digit rest (by rw [isPlain, hdigit]; rfl) hp hrest)
    · have hrest := ih (p ++ [c]) (some c) (by
        rw [List.append_assoc]
        exact h)
      rw [List.append_assoc] at hrest
      exact hrest

theorem Joined.collapseFrom (s p : Text) (pending started : Bool)
    (h : pending = false → P (p ++ s)) (hpending : pending = true → P p ∧ P s)
    (hstart : started = false → p = []) : P (p ++ Steps.collapseFrom pending started s) := by
  induction s generalizing p pending started with
  | nil =>
    cases pending with
    | false => exact h rfl
    | true =>
      rw [Steps.collapseFrom, List.append_nil]
      exact (hpending rfl).1
  | cons c s ih =>
    rw [Steps.collapseFrom]
    split
    · rename_i hc
      have hjoint : isJoint c = true := by rw [isJoint, hc, Bool.or_true]
      refine ih p true started (fun hp => by cases hp) (fun _ => ?_) hstart
      cases pending with
      | false => exact hP.cut p c s hjoint (h rfl)
      | true =>
        obtain ⟨hp, hs⟩ := hpending rfl
        exact ⟨hp, (hP.cut [] c s hjoint hs).2⟩
    · have hkeep : ∀ p', P (p' ++ c :: s) →
          P (p' ++ c :: Steps.collapseFrom false true s) := by
        intro p' hp'
        have hih := ih (p' ++ [c]) false true (fun _ => by
          rw [List.append_assoc]
          exact hp') (fun hp => by cases hp) fun hs => by cases hs
        rw [List.append_assoc] at hih
        exact hih
      split
      · rename_i hboth
        rw [Bool.and_eq_true] at hboth
        obtain ⟨hp, hs⟩ := hpending hboth.1
        have hspace := hkeep (p ++ [' ']) (by
          rw [List.append_assoc]
          exact hP.join p ' ' (c :: s) rfl hp hs)
        rw [List.append_assoc] at hspace
        exact hspace
      · rename_i hboth
        apply hkeep p
        cases pending with
        | false => exact h rfl
        | true =>
          have hempty : started = false := by
            cases started with
            | false => rfl
            | true => exact absurd rfl hboth
          rw [hstart hempty]
          exact (hpending rfl).2

theorem Joined.punctuate {s : Text} (h : P s) (o : NormalizeOptions) :
    P (Steps.punctuate o s) :=
  punctuate_keeps (fun s h => hP.normalizeHyphens s [] h) (fun s h => hP.stripFrom s [] none h)
    (fun s h => hP.collapseFrom s [] false false (fun _ => h) (fun hp => by cases hp) fun _ => rfl)
    o h

end Joined

theorem punctuate_punctuate (o : NormalizeOptions) (s : Text) :
    punctuate o (punctuate o s) = punctuate o s := by
  have hyphens : o.normalizeHyphens = true → normalizeHyphens (punctuate o s) = punctuate o s := by
    intro ho
    refine normalizeHyphens_of_dashes fun c hc hdash => ?_
    unfold punctuate at hc
    simp only [ho, if_true] at hc
    have hstrip : c ∈ (if o.stripDigitGrouping then stripDigitGrouping (normalizeHyphens s)
        else normalizeHyphens s) → c = '-' := by
      intro h
      split at h
      · exact isDash_normalizeHyphens (mem_stripFrom h) hdash
      · exact isDash_normalizeHyphens h hdash
    split at hc
    · rcases mem_collapseFrom hc with h | rfl
      · exact hstrip h
      · rw [isDash_space] at hdash
        cases hdash
    · exact hstrip hc
  have hgroups : o.stripDigitGrouping = true →
      stripDigitGrouping (punctuate o s) = punctuate o s := by
    intro ho
    apply stripFrom_of_ungrouped
    unfold punctuate
    simp only [ho, if_true]
    have h : Ungrouped none
        (stripFrom none (if o.normalizeHyphens then normalizeHyphens s else s)) :=
      ungrouped_stripFrom _ (.inl rfl)
    split
    · exact h.collapseFrom (fun _ => rfl) fun _ => rfl
    · exact h
  have hspaces : o.collapseWhitespace = true →
      collapseWhitespace (punctuate o s) = punctuate o s := by
    intro ho
    unfold punctuate
    simp only [ho, if_true]
    exact collapseFrom_collapseFrom _ _ _
  generalize punctuate o s = y at hyphens hgroups hspaces
  unfold punctuate
  simp only [ite_eq_right_iff.mpr hyphens, ite_eq_right_iff.mpr hgroups,
    ite_eq_right_iff.mpr hspaces]

end Steps

open Steps

/-! ### Letters -/

/-- The steps of `normalize` before `normalize_hyphens`, without the two on iteration
and prolonged sound marks. -/
def foldLetters (u : Unicode) (o : NormalizeOptions) (input : Text) : Text :=
  let s := u.nfkc input
  let s := if o.kanaFold then kanaFold s else s
  let s := if o.lowercase then lowercase u s else s
  if o.foldDiacritics then foldDiacritics u s else s

theorem normalize_eq_punctuate {u : Unicode} {o : NormalizeOptions}
    (hexpand : o.expandIterationMarks = false) (hchoonpu : o.foldChoonpu = false) (x : Text) :
    normalize u o x = punctuate o (foldLetters u o x) := by
  simp only [normalize, punctuate, foldLetters, hexpand, hchoonpu, Bool.false_eq_true, if_false]

/-- The text after the step `lowercase`, if it is on. -/
def lowered (u : Unicode) (o : NormalizeOptions) (s : Text) : Text :=
  if o.lowercase then lowercase u s else s

/-- No step on letters changes the text. -/
structure Letters (u : Unicode) (d : CharData) (o : NormalizeOptions) (s : Text) : Prop where
  nfkc : u.nfkc s = s
  kana : o.kanaFold = true → ∀ c ∈ s, isKatakana c = false
  lower : o.lowercase = true → ∀ c ∈ s, u.toLowercase c = [c]
  marks : o.foldDiacritics = true → ∀ c ∈ s, ∀ a ∈ d.canon c, combiningMarks a = false

variable {u : Unicode} {d : CharData} {o : NormalizeOptions}

section Fold

variable (hn : u.NormalForms d)

include hn

theorem foldDiacritics_of_letters {s : Text} (h : Letters u d o s)
    (ho : o.foldDiacritics = true) : foldDiacritics u s = s := by
  have hmarks : ∀ a ∈ u.nfd s, combiningMarks a = false := by
    intro a ha
    rw [hn.nfd_eq, (CanonicalOrder.reorder_perm d.ccc _).mem_iff, List.mem_flatMap] at ha
    obtain ⟨c, hc, ha⟩ := ha
    exact h.marks ho c hc a ha
  have hfilter : ((u.nfd s).filter fun c => !combiningMarks c) = u.nfd s := by
    rw [List.filter_eq_self]
    intro a ha
    rw [hmarks a ha]
    rfl
  rw [foldDiacritics, hfilter, hn.nfc_nfd, hn.nfc_of_nfkc s h.nfkc]

theorem foldLetters_of_letters {s : Text} (h : Letters u d o s) : foldLetters u o s = s := by
  have hkana : o.kanaFold = true → kanaFold s = s := by
    intro ho
    have hid : ∀ c ∈ s, katakanaToHiragana c = c := fun c hc =>
      katakanaToHiragana_of_not (h.kana ho c hc)
    rw [kanaFold, List.map_congr_left hid, List.map_id'']
    exact fun _ => rfl
  have hlower : o.lowercase = true → lowercase u s = s := by
    intro ho
    have hid := List.flatMap_congr (f := u.toLowercase) (g := fun c => [c]) (h.lower ho)
    rw [lowercase, hid, List.flatMap_singleton']
  unfold foldLetters
  simp only [h.nfkc, ite_eq_right_iff.mpr hkana, ite_eq_right_iff.mpr hlower,
    ite_eq_right_iff.mpr (foldDiacritics_of_letters hn h)]

end Fold

/-! ### The letters come out settled -/

theorem toNat_lt_of_plain {c : Char} (h : isPlain c = true) : c.toNat < 0x0300 := by
  simp only [isPlain, isAsciiDigit, within, Bool.or_eq_true, Bool.and_eq_true,
    decide_eq_true_eq, beq_iff_eq] at h
  rcases h with (⟨_, h⟩ | rfl) | rfl
  · omega
  · decide
  · decide

theorem isKatakana_of_plain {c : Char} (h : isPlain c = true) : isKatakana c = false := by
  have hlt := toNat_lt_of_plain h
  simp only [isKatakana, within, Bool.and_eq_false_iff, decide_eq_false_iff_not]
  omega

theorem combiningMarks_of_plain {c : Char} (h : isPlain c = true) :
    combiningMarks c = false := by
  have hlt := toNat_lt_of_plain h
  simp only [combiningMarks, within, Bool.and_eq_false_iff, decide_eq_false_iff_not]
  omega

theorem isKatakana_of_isWaRow {c : Char} (h : isWaRow c = true) : isKatakana c = true := by
  simp only [isWaRow, isKatakana, within, Bool.and_eq_true, decide_eq_true_eq] at h ⊢
  omega

/-- In the folded text a letter of the `ワ` row only stands before an unblocked dakuten. -/
theorem allReach_canon (hk : u.Kana d) {w : Text} (hw : ∀ c ∈ w, isKatakana c = false) :
    CanonicalOrder.AllReach d.ccc (fun c => isWaRow c = true) dakuten (w.flatMap d.canon) := by
  induction w with
  | nil => trivial
  | cons c w ih =>
    rw [List.forall_mem_cons] at hw
    rw [List.flatMap_cons]
    refine CanonicalOrder.AllReach.append ?_ (ih hw.2)
    by_cases hrow : ∃ a ∈ d.canon c, isWaRow a = true
    · obtain ⟨a, ha, hwa⟩ := hrow
      have hcanon : d.canon c = [a, dakuten] := by
        rcases hk.canon_kana c a ha (isKatakana_of_isWaRow hwa) with h | h
        · rw [hw.1] at h
          cases h
        · exact h.2
      rw [hcanon]
      refine ⟨fun _ => .inl rfl, fun h => ?_, trivial⟩
      exact absurd h (by decide)
    · have hnone : ∀ s : Text, (∀ a ∈ s, isWaRow a ≠ true) →
          CanonicalOrder.AllReach d.ccc (fun c => isWaRow c = true) dakuten s := by
        intro s hs
        induction s with
        | nil => trivial
        | cons a s ih =>
          rw [List.forall_mem_cons] at hs
          exact ⟨fun h => absurd h hs.1, ih hs.2⟩
      exact hnone _ fun a ha h => hrow ⟨a, ha, h⟩

section Settled

variable (hn : u.NormalForms d) (hs : u.Scalars d)

include hs

theorem Letters.of_mem {s t : Text} (h : Letters u d o s) (ht : u.nfkc t = t)
    (hmem : ∀ c ∈ t, c ∈ s ∨ isPlain c = true) : Letters u d o t where
  nfkc := ht
  kana ho c hc := (hmem c hc).elim (h.kana ho c) isKatakana_of_plain
  lower ho c hc := (hmem c hc).elim (h.lower ho c) (hs.lower_plain c)
  marks ho c hc := by
    rcases hmem c hc with hc | hplain
    · exact h.marks ho c hc
    · intro a ha
      rw [hs.canon_plain c hplain, List.mem_singleton] at ha
      rw [ha]
      exact combiningMarks_of_plain hplain

include hn

theorem joined_nfkc : Joined fun s => u.nfkc s = s where
  cut p c q _ h := by
    obtain ⟨hp, hcq⟩ := hn.nfkc_substring p (c :: q) h
    exact ⟨hp, (hn.nfkc_substring [c] q hcq).2⟩
  join p b q hb hp hq := hs.nfkc_plain b p q hb hp hq

theorem Letters.punctuate {s : Text} (h : Letters u d o s) :
    Letters u d o (Steps.punctuate o s) :=
  h.of_mem hs ((joined_nfkc hn hs).punctuate h.nfkc o) fun _ => mem_punctuate

variable (hk : u.Kana d)

include hk

/-- The scalars that reach `fold_diacritics`. -/
structure Folded (u : Unicode) (o : NormalizeOptions) (c : Char) : Prop where
  nfkc : u.nfkc [c] = [c]
  kana : o.kanaFold = true → isKatakana c = false
  lower : o.lowercase = true → u.toLowercase c = [c]

omit hn in
theorem folded_lowered {s : Text} (hstable : ∀ c ∈ s, u.nfkc [c] = [c])
    (hkana : o.kanaFold = true → ∀ c ∈ s, isKatakana c = false) :
    ∀ c ∈ lowered u o s, Folded u o c := by
  intro c hc
  unfold lowered at hc
  split at hc
  · obtain ⟨a, ha, hca⟩ := List.mem_flatMap.mp hc
    exact ⟨hs.lower_nfkc a (hstable a ha) c hca,
      fun ho => hk.lower_kana a (hkana ho a ha) c hca, fun _ => hs.lower_lower a c hca⟩
  · rename_i hlower
    exact ⟨hstable c hc, fun ho => hkana ho c hc, fun ho => absurd ho hlower⟩

/-- An unblocked dakuten composes with the letter of the `ワ` row before it. -/
theorem isWaRow_of_reach {z : Text} (hnfc : u.nfc z = z)
    (hreach : CanonicalOrder.AllReach d.ccc (fun c => isWaRow c = true) dakuten
      (CanonicalOrder.reorder d.ccc (z.flatMap d.canon)))
    {c : Char} (hc : c ∈ z) (hcanon : d.canon c = [c]) : isWaRow c = false := by
  rw [Bool.eq_false_iff]
  intro hwa
  obtain ⟨p, q, rfl⟩ := List.append_of_mem hc
  have hq : u.nfc q = q := (hn.nfc_substring [c] q (hn.nfc_substring p (c :: q) hnfc).2).2
  rw [List.flatMap_append, List.flatMap_cons, hcanon, List.singleton_append,
    CanonicalOrder.reorder_append_starter (hk.ccc_wa c hwa)] at hreach
  have hafter := CanonicalOrder.reaches_of_reorder
    (fun a ha => hs.canon_mark a (nfc_mem hn hq ha))
    (fun a ha => hs.canon_starter a (nfc_mem hn hq ha)) hk.ccc_dakuten (hn.nfc_ordered q hq)
    (hreach.reaches hwa)
  obtain ⟨m, r, rfl, hm⟩ := hafter.split
  apply hk.voiced c m hwa hm
  have hfrom := (hn.nfc_substring p _ hnfc).2
  have hsplit : c :: (m ++ dakuten :: r) = (c :: (m ++ [dakuten])) ++ r := by
    rw [List.cons_append, List.append_assoc]
    rfl
  rw [hsplit] at hfrom
  exact (hn.nfc_substring _ r hfrom).1

/-- What `fold_diacritics` makes of folded scalars is settled. -/
theorem letters_foldDiacritics {w : Text} (hw : ∀ c ∈ w, Folded u o c) :
    Letters u d o (foldDiacritics u w) := by
  obtain ⟨t, ht⟩ : ∃ t, t = (u.nfd w).filter fun c => !combiningMarks c := ⟨_, rfl⟩
  obtain ⟨z, hz⟩ : ∃ z, z = u.nfc t := ⟨_, rfl⟩
  have hmem : ∀ a ∈ t, combiningMarks a = false ∧ ∃ c ∈ w, a ∈ d.canon c := by
    intro a ha
    rw [ht, List.mem_filter, hn.nfd_eq, (CanonicalOrder.reorder_perm d.ccc _).mem_iff,
      List.mem_flatMap] at ha
    exact ⟨by simpa using ha.2, ha.1⟩
  have hcanon : t.flatMap d.canon = t := by
    have hid : ∀ a ∈ t, d.canon a = [a] := by
      intro a ha
      obtain ⟨_, c, _, hac⟩ := hmem a ha
      exact hs.canon_canon c a hac
    rw [List.flatMap_congr hid, List.flatMap_singleton']
  have hnfd :
      CanonicalOrder.reorder d.ccc (z.flatMap d.canon) = CanonicalOrder.reorder d.ccc t := by
    have h := hn.nfd_nfc t
    rw [hn.nfd_eq, hn.nfd_eq, hcanon, ← hz] at h
    exact h
  -- a scalar of a decomposition in the result comes from a folded scalar
  have hback : ∀ c ∈ z, ∀ a ∈ d.canon c, a ∈ t := by
    intro c hc a ha
    have h : a ∈ CanonicalOrder.reorder d.ccc (z.flatMap d.canon) := by
      rw [(CanonicalOrder.reorder_perm d.ccc _).mem_iff]
      exact List.mem_flatMap.mpr ⟨c, hc, ha⟩
    rw [hnfd, (CanonicalOrder.reorder_perm d.ccc _).mem_iff] at h
    exact h
  have hnfc : u.nfc z = z := by
    rw [hz]
    exact hn.nfc_idem t
  have hsingle : ∀ c ∈ z, u.nfc [c] = [c] := fun c hc => nfc_mem hn hnfc hc
  rw [foldDiacritics, ← ht, ← hz]
  refine ⟨hn.nfkc_of_nfc z hnfc fun c hc => ?_, fun ho c hc => ?_, fun ho c hc => ?_,
    fun _ c hc a ha => (hmem a (hback c hc a ha)).1⟩
  · refine hs.nfkc_canon c (hsingle c hc) fun a ha => ?_
    obtain ⟨_, c₀, hc₀, ha₀⟩ := hmem a (hback c hc a ha)
    exact hs.canon_nfkc c₀ (hw c₀ hc₀).nfkc a ha₀
  · rw [Bool.eq_false_iff]
    intro hkata
    obtain ⟨a, ha, haKata, haSelf⟩ := hk.kana_canon c hkata
    obtain ⟨_, c₀, hc₀, ha₀⟩ := hmem a (hback c hc a ha)
    rcases hk.canon_kana c₀ a ha₀ haKata with h | ⟨hwa, _⟩
    · rw [(hw c₀ hc₀).kana ho] at h
      cases h
    · -- `c` is a bare letter of the `ワ` row, cut off from its dakuten
      have hself : a = c := haSelf hwa
      subst hself
      have hw' : ∀ c ∈ w, isKatakana c = false := fun c hc => (hw c hc).kana ho
      have hreach := (allReach_canon hk hw').reorder hk.ccc_wa
      rw [← hn.nfd_eq] at hreach
      have hfilter := hreach.filter (p := fun c => !combiningMarks c) (by decide)
      rw [← ht] at hfilter
      have hresult := hfilter.reorder hk.ccc_wa
      rw [← hnfd] at hresult
      rw [isWaRow_of_reach hn hs hk hnfc hresult hc (hs.canon_canon a a ha)] at hwa
      cases hwa
  · refine hs.lower_of_canon c fun a ha => ?_
    obtain ⟨_, c₀, hc₀, ha₀⟩ := hmem a (hback c hc a ha)
    exact hs.lower_canon c₀ ((hw c₀ hc₀).lower ho) a ha₀

theorem letters_foldLetters (h : o.lowercase = true → o.foldDiacritics = true) (x : Text) :
    Letters u d o (foldLetters u o x) := by
  unfold foldLetters
  cases hfold : o.foldDiacritics with
  | true =>
    have hnfkc : u.nfkc (if o.kanaFold then kanaFold (u.nfkc x) else u.nfkc x) =
        if o.kanaFold then kanaFold (u.nfkc x) else u.nfkc x := by
      split
      · exact nfkc_kanaFold hn hk _ [] (hn.nfkc_idem x)
      · exact hn.nfkc_idem x
    simp only [if_true]
    refine letters_foldDiacritics hn hs hk (folded_lowered hs hk (fun c => nfkc_mem hn hnfkc)
      fun ho c hc => ?_)
    rw [if_pos ho] at hc
    obtain ⟨a, _, rfl⟩ := List.mem_map.mp hc
    exact isKatakana_katakanaToHiragana a
  | false =>
    have hlower : o.lowercase = false := by
      rw [Bool.eq_false_iff]
      intro hl
      rw [h hl] at hfold
      cases hfold
    have hnone : ∀ {P : Prop}, o.foldDiacritics = true → P := by
      intro P ho
      rw [hfold] at ho
      cases ho
    have hnoLower : ∀ {P : Prop}, o.lowercase = true → P := by
      intro P ho
      rw [hlower] at ho
      cases ho
    simp only [hlower, Bool.false_eq_true, if_false]
    split
    · refine ⟨nfkc_kanaFold hn hk _ [] (hn.nfkc_idem x), fun _ c hc => ?_, hnoLower, hnone⟩
      obtain ⟨a, _, rfl⟩ := List.mem_map.mp hc
      exact isKatakana_katakanaToHiragana a
    · rename_i hkana
      exact ⟨hn.nfkc_idem x, fun ho => absurd ho hkana, hnoLower, hnone⟩

theorem normalize_normalize (hexpand : o.expandIterationMarks = false)
    (hchoonpu : o.foldChoonpu = false) (h : o.lowercase = true → o.foldDiacritics = true)
    (x : Text) : normalize u o (normalize u o x) = normalize u o x := by
  have hletters := (letters_foldLetters hn hs hk h x).punctuate hn hs
  simp only [normalize_eq_punctuate hexpand hchoonpu]
  rw [foldLetters_of_letters hn hletters, punctuate_punctuate]

end Settled

end Unfydqry
