import Unfydqry.Lib.PairTable
import Unfydqry.Normalize.FixedPoint

/-! # An excerpt of the Unicode data

The normal forms and lowercasing over a few compositions: enough kana for the voiced
rows the steps tell apart, and one Latin letter whose capital composes with nothing. On
texts without other composites, capitals and compatibility characters they are the
standard ones. -/

namespace Unfydqry

namespace Unicode

/-- The values of the forms on the texts the counterexamples run through. -/
structure Samples (u : Unicode) : Prop where
  nfkc : ∀ s ∈ [['は', 'ゝ', '\u309A'], ['か', '\u0301', 'ゝ'], ['か', 'ゝ'],
    ['か', 'ー', '\u3099'], ['か', '\u0301', 'ー'], ['か', 'ー'], ['J', '\u030C']],
    u.nfkc s = s
  nfkc_handakuten : u.nfkc ['は', 'は', '\u309A'] = ['は', 'ぱ']
  nfkc_dakuten : u.nfkc ['か', '\u3099'] = ['が']
  nfkc_caron : u.nfkc ['j', '\u030C'] = ['ǰ']
  nfd : ∀ s ∈ [['か', '\u0301', 'ゝ'], ['か', 'か'], ['か', '\u0301', 'ー'], ['か']],
    u.nfd s = s
  nfc : ∀ s ∈ [['か', 'ゝ'], ['か', 'か'], ['か', 'ー'], ['か']], u.nfc s = s
  lower : ∀ c ∈ ['は', 'ゝ', '\u309A', 'ぱ', 'か', '\u0301', 'ー', '\u3099', 'が', '\u030C', 'j',
    'ǰ'], u.toLowercase c = [c]
  lower_j : u.toLowercase 'J' = ['j']

namespace Excerpt

/-- A letter, a mark and what they compose to. -/
def compositions : List (Char × Char × Char) :=
  [('か', '\u3099', 'が'), ('カ', '\u3099', 'ガ'), ('は', '\u309A', 'ぱ'), ('ハ', '\u309A', 'パ'),
    ('ワ', '\u3099', '\u30F7'), ('ヰ', '\u3099', '\u30F8'), ('ヱ', '\u3099', '\u30F9'),
    ('ヲ', '\u3099', '\u30FA'), ('j', '\u030C', 'ǰ')]

def pair (a b : Char) : Option Char :=
  (compositions.find? fun t => t.1 == a && t.2.1 == b).map fun t => t.2.2

/-- The full canonical decomposition. -/
def canon (c : Char) : Text :=
  ((compositions.find? fun t => t.2.2 == c).map fun t => [t.1, t.2.1]).getD [c]

def data : CharData where
  ccc c := if c = dakuten then 8 else 0
  canon := canon

def unicode : Unicode where
  nfkc := PairTable.compose pair
  nfd s := s.flatMap canon
  nfc := PairTable.compose pair
  toLowercase c := if c = 'J' then ['j'] else [c]

theorem mem_of_pair {a b c : Char} (h : pair a b = some c) : (a, b, c) ∈ compositions := by
  rw [pair, Option.map_eq_some_iff] at h
  obtain ⟨t, ht, rfl⟩ := h
  have hkey := List.find?_some ht
  rw [Bool.and_eq_true, beq_iff_eq, beq_iff_eq] at hkey
  rw [← hkey.1, ← hkey.2]
  exact List.mem_of_find?_eq_some ht

theorem pair_eq_none {a b : Char} (h : ∀ t ∈ compositions, ¬ (t.1 = a ∧ t.2.1 = b)) :
    pair a b = none := by
  rw [pair, Option.map_eq_none_iff, List.find?_eq_none]
  intro t ht hkey
  rw [Bool.and_eq_true, beq_iff_eq, beq_iff_eq] at hkey
  exact h t ht hkey

/-! ### What the table itself decides -/

theorem parts_apart : ∀ t ∈ compositions, ∀ s ∈ compositions,
    s.1 ≠ t.2.2 ∧ s.2.1 ≠ t.2.2 ∧ s.2.1 ≠ t.1 := by
  simp [compositions]

theorem pair_composition : ∀ t ∈ compositions, pair t.1 t.2.1 = some t.2.2 := by decide

theorem canon_composition : ∀ t ∈ compositions,
    canon t.2.2 = [t.1, t.2.1] ∧ canon t.1 = [t.1] ∧ canon t.2.1 = [t.2.1] := by decide

theorem parts_not_plain : ∀ t ∈ compositions, ∀ c ∈ [t.1, t.2.1, t.2.2],
    isPlain c = false ∧ c ≠ 'J' := by
  simp [compositions, isPlain, Steps.isAsciiDigit, Steps.within]

theorem starters_not_dakuten : ∀ t ∈ compositions, ∀ c ∈ [t.1, t.2.2], c ≠ dakuten := by
  simp [compositions, dakuten]

theorem mark_not_kana : ∀ t ∈ compositions,
    isKatakana t.2.1 = false ∧ isHiragana t.2.1 = false := by decide

theorem katakana_composition : ∀ t ∈ compositions,
    (isKatakana t.1 = true → isKatakana t.2.2 = true ∨ isWaRow t.1 = true ∧ t.2.1 = dakuten) ∧
    (isKatakana t.2.2 = true → isKatakana t.1 = true ∧ isWaRow t.1 = false) := by decide

/-- A hiragana row of the table has its katakana row. -/
theorem hiragana_composition : ∀ t ∈ compositions, isHiragana t.1 = true →
    pair (Char.ofNat (t.1.toNat + 0x60)) t.2.1 ≠ none := by decide

theorem flat : PairTable.Flat pair := by
  refine ⟨fun h x => ?_, fun h x => ?_, fun h x => ?_⟩
  · exact pair_eq_none fun s hs he =>
      (parts_apart _ (mem_of_pair h) s hs).1 he.1
  · exact pair_eq_none fun s hs he =>
      (parts_apart _ (mem_of_pair h) s hs).2.1 he.2
  · exact pair_eq_none fun s hs he =>
      (parts_apart _ (mem_of_pair h) s hs).2.2 he.2

theorem canon_cases (c : Char) :
    canon c = [c] ∧ (∀ t ∈ compositions, t.2.2 ≠ c) ∨
      ∃ t ∈ compositions, t.2.2 = c ∧ canon c = [t.1, t.2.1] := by
  unfold canon
  cases h : compositions.find? fun t => t.2.2 == c with
  | none =>
    left
    refine ⟨rfl, fun t ht hc => ?_⟩
    have hnot := List.find?_eq_none.mp h t ht
    rw [hc] at hnot
    exact hnot (beq_self_eq_true c)
  | some t =>
    right
    have hc := List.find?_some h
    exact ⟨t, List.mem_of_find?_eq_some h, beq_iff_eq.mp hc, rfl⟩

theorem undoes : PairTable.Undoes pair canon := by
  refine ⟨fun h => ?_, fun c => ?_⟩
  · exact canon_composition _ (mem_of_pair h)
  · rcases canon_cases c with h | ⟨t, ht, rfl, _⟩
    · exact .inl h.1
    · exact .inr ⟨t.1, t.2.1, pair_composition t ht⟩

theorem nfkc_eq_self_iff (s : Text) :
    unicode.nfkc s = s ↔ s.IsChain fun a b => pair a b = none :=
  PairTable.compose_eq_self_iff flat s

theorem ccc_eq (c : Char) : data.ccc c = if c = dakuten then 8 else 0 := rfl

theorem reorder_eq_self (s : Text) : CanonicalOrder.reorder data.ccc s = s := by
  induction s with
  | nil => rfl
  | cons c s ih =>
    rw [CanonicalOrder.reorder, ih]
    cases s with
    | nil => rfl
    | cons x s =>
      rw [CanonicalOrder.insert, if_neg]
      rw [ccc_eq, ccc_eq]
      split <;> split <;> omega

theorem normalForms : unicode.NormalForms data where
  nfkc_idem s := (nfkc_eq_self_iff _).mpr (PairTable.composed_compose flat s)
  nfc_idem s := (nfkc_eq_self_iff _).mpr (PairTable.composed_compose flat s)
  nfkc_substring p q h := by
    rw [nfkc_eq_self_iff] at h ⊢
    rw [nfkc_eq_self_iff]
    exact ⟨h.left_of_append, h.right_of_append⟩
  nfc_substring p q h := by
    have h := (nfkc_eq_self_iff _).mp h
    exact ⟨(nfkc_eq_self_iff p).mpr h.left_of_append, (nfkc_eq_self_iff q).mpr h.right_of_append⟩
  nfd_eq s := (reorder_eq_self _).symm
  nfd_nfc s := PairTable.flatMap_compose undoes s
  nfc_nfd s := PairTable.compose_flatMap undoes flat s
  nfc_ordered s h := by
    refine ((nfkc_eq_self_iff s).mp h).imp fun a b _ => ?_
    rw [ccc_eq, ccc_eq]
    split
    · right
      split <;> omega
    · exact .inl rfl
  nfc_of_nfkc s h := h
  nfkc_of_nfc s h _ := h

theorem nfkc_single (c : Char) : unicode.nfkc [c] = [c] := rfl

theorem lower_eq (c : Char) : unicode.toLowercase c = if c = 'J' then ['j'] else [c] := rfl

theorem lower_of_ne {c : Char} (h : c ≠ 'J') : unicode.toLowercase c = [c] := by
  rw [lower_eq, if_neg h]

theorem canon_dakuten : canon dakuten = [dakuten] := by
  rcases canon_cases dakuten with h | ⟨t, ht, hc, _⟩
  · exact h.1
  · exact absurd hc (starters_not_dakuten t ht _ (by simp))

theorem scalars : unicode.Scalars data where
  canon_canon c := PairTable.split_split undoes c
  canon_mark c _ h := by
    rw [ccc_eq] at h
    split at h
    · rename_i hc
      rw [hc]
      exact canon_dakuten
    · omega
  canon_starter c _ h := by
    rcases canon_cases c with hc | ⟨t, ht, _, hc⟩
    · exact ⟨c, [], hc.1, h⟩
    · refine ⟨t.1, [t.2.1], hc, ?_⟩
      rw [ccc_eq, if_neg (starters_not_dakuten t ht _ (by simp))]
  canon_nfkc _ _ a _ := nfkc_single a
  nfkc_canon c _ _ := nfkc_single c
  nfkc_plain b p q hb hp hq := by
    rw [nfkc_eq_self_iff] at hp hq ⊢
    have hnone : ∀ t ∈ compositions, t.1 ≠ b ∧ t.2.1 ≠ b := by
      intro t ht
      have hplain := parts_not_plain t ht
      refine ⟨?_, ?_⟩
      · rintro rfl
        rw [(hplain _ (by simp)).1] at hb
        cases hb
      · rintro rfl
        rw [(hplain _ (by simp)).1] at hb
        cases hb
    refine hp.append (List.isChain_cons.mpr ⟨fun y _ => ?_, hq⟩) fun x _ y hy => ?_
    · exact pair_eq_none fun t ht he => (hnone t ht).1 he.1
    · cases hy
      exact pair_eq_none fun t ht he => (hnone t ht).2 he.2
  canon_plain b hb := by
    rcases canon_cases b with h | ⟨t, ht, rfl, _⟩
    · exact h.1
    · rw [(parts_not_plain t ht _ (by simp)).1] at hb
      cases hb
  lower_plain b hb := by
    apply lower_of_ne
    rintro rfl
    exact absurd hb (by decide)
  lower_lower c a ha := by
    rw [lower_eq] at ha
    split at ha
    · rw [List.mem_singleton] at ha
      rw [ha]
      rfl
    · rename_i hc
      rw [List.mem_singleton] at ha
      rw [ha]
      exact lower_of_ne hc
  lower_nfkc _ _ a _ := nfkc_single a
  lower_canon c h a ha := by
    rcases canon_cases c with hc | ⟨t, ht, _, hc⟩
    · change a ∈ canon c at ha
      rw [hc.1, List.mem_singleton] at ha
      rw [ha]
      exact h
    · change a ∈ canon c at ha
      rw [hc] at ha
      refine lower_of_ne (parts_not_plain t ht a ?_).2
      exact List.mem_of_mem_take (i := 2) ha
  lower_of_canon c h := by
    rcases canon_cases c with hc | ⟨t, ht, rfl, _⟩
    · exact h c (by change c ∈ canon c; rw [hc.1]; exact List.mem_singleton.mpr rfl)
    · exact lower_of_ne (parts_not_plain t ht _ (by simp)).2

theorem isWaRow_cases {k : Char} (h : isWaRow k = true) :
    k = 'ワ' ∨ k = 'ヰ' ∨ k = 'ヱ' ∨ k = 'ヲ' := by
  simp only [isWaRow, Steps.within, Bool.and_eq_true, decide_eq_true_eq] at h
  have h1 : 'ワ'.toNat = 0x30EF := rfl
  have h2 : 'ヰ'.toNat = 0x30F0 := rfl
  have h3 : 'ヱ'.toNat = 0x30F1 := rfl
  have h4 : 'ヲ'.toNat = 0x30F2 := rfl
  rw [← Char.toNat_inj, ← Char.toNat_inj, ← Char.toNat_inj, ← Char.toNat_inj]
  omega

theorem kana : unicode.Kana data where
  boundary c p q hc hp hq := by
    rw [nfkc_eq_self_iff] at hp hq ⊢
    refine hp.append hq fun x _ y hy => pair_eq_none fun t ht he => ?_
    cases hy
    have hmark := mark_not_kana t ht
    rw [he.2] at hmark
    rcases hc with hc | hc
    · rw [hmark.1] at hc
      cases hc
    · rw [hmark.2] at hc
      cases hc
  row c s hc h := by
    rw [nfkc_eq_self_iff, List.isChain_cons] at h ⊢
    refine ⟨fun y hy => pair_eq_none fun t ht he => ?_, h.2⟩
    have hiragana := Steps.isHiragana_katakanaToHiragana hc
    rw [← he.1] at hiragana
    have hpair := hiragana_composition t ht hiragana
    have hnat := Steps.katakanaToHiragana_toNat hc
    have hrange := hc
    simp only [isKatakana, Steps.within, Bool.and_eq_true, decide_eq_true_eq] at hrange
    have hback : t.1.toNat + 0x60 = c.toNat := by
      rw [he.1, hnat]
      omega
    rw [hback, Char.ofNat_toNat, he.2] at hpair
    exact hpair (h.1 y hy)
  lower_kana c hc a ha := by
    rw [lower_eq] at ha
    split at ha
    · rw [List.mem_singleton] at ha
      rw [ha]
      decide
    · rw [List.mem_singleton] at ha
      rw [ha]
      exact hc
  canon_kana c a ha hkata := by
    change a ∈ canon c at ha
    change isKatakana c = true ∨ isWaRow a = true ∧ canon c = [a, dakuten]
    rcases canon_cases c with hc | ⟨t, ht, rfl, hc⟩
    · rw [hc.1, List.mem_singleton] at ha
      rw [← ha]
      exact .inl hkata
    · rw [hc, List.mem_cons, List.mem_singleton] at ha
      rcases ha with rfl | rfl
      · rcases (katakana_composition t ht).1 hkata with h | ⟨hwa, hmark⟩
        · exact .inl h
        · rw [hc, hmark]
          exact .inr ⟨hwa, rfl⟩
      · rw [(mark_not_kana t ht).1] at hkata
        cases hkata
  kana_canon c hc := by
    change ∃ a ∈ canon c, _
    rcases canon_cases c with h | ⟨t, ht, rfl, h⟩
    · rw [h.1]
      exact ⟨c, List.mem_singleton.mpr rfl, hc, fun _ => rfl⟩
    · obtain ⟨hkata, hwa⟩ := (katakana_composition t ht).2 hc
      rw [h]
      refine ⟨t.1, List.mem_cons_self .., hkata, fun h => ?_⟩
      rw [hwa] at h
      cases h
  ccc_wa k hk := by
    rw [ccc_eq, if_neg]
    rintro rfl
    exact absurd hk (by decide)
  ccc_dakuten := by decide
  voiced k m hk hm h := by
    have hclass : data.ccc dakuten = 8 := rfl
    have hempty : m = [] := by
      cases m with
      | nil => rfl
      | cons b m =>
        have hb := hm b (List.mem_cons_self ..)
        rw [hclass, ccc_eq] at hb
        split at hb <;> omega
    subst hempty
    have hpair := ((nfkc_eq_self_iff _).mp h).rel
    rcases isWaRow_cases hk with rfl | rfl | rfl | rfl <;> exact absurd hpair (by decide)

theorem samples : unicode.Samples where
  nfkc := by decide +kernel
  nfkc_handakuten := by decide
  nfkc_dakuten := by decide
  nfkc_caron := by decide
  nfd := by decide
  nfc := by decide
  lower c hc := by
    apply lower_of_ne
    rintro rfl
    simp at hc
  lower_j := rfl

end Excerpt

end Unicode

end Unfydqry
