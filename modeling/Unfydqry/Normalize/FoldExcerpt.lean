import Unfydqry.Normalize.CaseVariants
import Unfydqry.Normalize.Excerpt
import Unfydqry.Normalize.KanaVariants
import Unfydqry.Normalize.Pieces

/-! # The excerpt of the Unicode data with the sigmas

The compositions are those of the first excerpt. The lunate sigmas are its compatibility
characters, and three capitals have small letters. -/

namespace Unfydqry

open Steps

namespace Unicode

namespace FoldExcerpt

open Excerpt (pair canon data compositions mem_of_pair pair_eq_none canon_cases flat undoes)

/-- NFKC's replacement of a scalar that is no composite. -/
def compatChar (c : Char) : Char :=
  if c = lunateSigma then 'Σ' else if c = '\u03F2' then finalSigma else c

def lowerChar (c : Char) : Char :=
  if c = 'J' then 'j' else if c = lunateSigma then '\u03F2' else if c = 'Σ' then 'σ' else c

def unicode : Unicode where
  nfkc s := PairTable.compose pair (s.map compatChar)
  nfd := Excerpt.unicode.nfd
  nfc := Excerpt.unicode.nfc
  toLowercase c := [lowerChar c]

/-- The combining marks of the compositions. -/
def marks : List Char := ['\u3099', '\u309A', '\u030C']

def mark (c : Char) : Bool := c ∈ marks

/-! ### What the tables themselves decide -/

def lunates : List Char := [lunateSigma, '\u03F2']

def capitals : List Char := ['J', lunateSigma, 'Σ']

theorem compatChar_cases (c : Char) : c ∈ lunates ∨ compatChar c = c ∧ c ∉ lunates := by
  simp only [lunates, List.mem_cons, List.not_mem_nil, or_false, not_or, compatChar]
  split
  · exact .inl (.inl ‹_›)
  · split
    · exact .inl (.inr ‹_›)
    · exact .inr ⟨rfl, ‹_›, ‹_›⟩

theorem lowerChar_cases (c : Char) : c ∈ capitals ∨ lowerChar c = c ∧ c ∉ capitals := by
  simp only [capitals, List.mem_cons, List.not_mem_nil, or_false, not_or, lowerChar]
  split
  · exact .inl (.inl ‹_›)
  · split
    · exact .inl (.inr (.inl ‹_›))
    · split
      · exact .inl (.inr (.inr ‹_›))
      · exact .inr ⟨rfl, ‹_›, ‹_›, ‹_›⟩

theorem capital_lower : ∀ c ∈ capitals, lowerChar c ≠ c ∧ lowerChar c ∉ capitals := by decide

theorem capital_canon : ∀ c ∈ capitals, canon c = [c] ∧ canon (lowerChar c) = [lowerChar c] ∧
    data.ccc c = data.ccc (lowerChar c) := by decide

theorem capital_kind : ∀ c ∈ capitals, ∀ a ∈ [c, lowerChar c], isPlain a = false ∧
    isKatakana a = false ∧ isWa a = false ∧ a ≠ finalSigma := by decide

theorem lunate_compat : ∀ c ∈ lunates, compatChar c ≠ c ∧ compatChar c ∉ lunates := by decide

theorem lunate_kind : ∀ c ∈ lunates, ∀ a ∈ [c, compatChar c], isPlain a = false ∧
    mark a = false ∧ isKatakana a = false ∧ isHiragana a = false := by decide

theorem mark_kind : ∀ c ∈ marks, isKatakana c = false ∧ isHiragana c = false ∧
    c ∉ capitals ∧ ∀ b ∈ capitals, lowerChar b ≠ c := by decide

theorem composition_table : ∀ t ∈ compositions, ∀ c ∈ [t.1, t.2.1, t.2.2],
    c ∉ lunates ∧ c ∉ capitals ∧ c ≠ finalSigma := by decide

theorem mark_composition : ∀ t ∈ compositions,
    mark t.2.1 = true ∧ mark t.1 = false ∧ mark t.2.2 = false := by decide

theorem compatChar_eq_iff (c : Char) : compatChar c = c ↔ c ∉ lunates := by
  rcases compatChar_cases c with h | ⟨h, hc⟩
  · exact iff_of_false (lunate_compat c h).1 (not_not.mpr h)
  · exact iff_of_true h hc

theorem compatChar_not_lunate (c : Char) : compatChar c ∉ lunates := by
  rcases compatChar_cases c with h | ⟨h, hc⟩
  · exact (lunate_compat c h).2
  · rw [h]
    exact hc

theorem mark_compatChar (c : Char) : mark (compatChar c) = mark c := by
  rcases compatChar_cases c with h | ⟨h, _⟩
  · have hkind := lunate_kind c h
    rw [(hkind c (by simp)).2.1, (hkind _ (by simp)).2.1]
  · rw [h]

theorem map_compatChar {s : Text} (h : ∀ c ∈ s, c ∉ lunates) : s.map compatChar = s := by
  rw [List.map_congr_left fun c hc => (compatChar_eq_iff c).mpr (h c hc),
    List.map_id'' fun _ => rfl]

theorem mem_nfkc {s : Text} {a : Char} (h : a ∈ unicode.nfkc s) :
    (∃ c ∈ s, compatChar c = a) ∨
      ∃ t ∈ compositions, t.2.2 = a ∧ ∃ c ∈ s, compatChar c = t.1 := by
  rcases PairTable.mem_compose h with h | ⟨x, hx, y, _, hpair⟩
  · exact .inl (List.mem_map.mp h)
  · exact .inr ⟨_, mem_of_pair hpair, rfl, List.mem_map.mp hx⟩

theorem nfkc_eq_self_iff (s : Text) : unicode.nfkc s = s ↔
    (∀ c ∈ s, c ∉ lunates) ∧ s.IsChain fun a b => pair a b = none := by
  constructor
  · intro h
    have hlunate : ∀ c ∈ s, c ∉ lunates := by
      intro c hc
      rw [← h] at hc
      rcases mem_nfkc hc with ⟨a, _, rfl⟩ | ⟨t, ht, rfl, _⟩
      · exact compatChar_not_lunate a
      · exact (composition_table t ht _ (by simp)).1
    refine ⟨hlunate, (PairTable.compose_eq_self_iff flat s).mp ?_⟩
    have hcompose : PairTable.compose pair (s.map compatChar) = s := h
    rw [map_compatChar hlunate] at hcompose
    exact hcompose
  · rintro ⟨hlunate, hchain⟩
    change PairTable.compose pair (s.map compatChar) = s
    rw [map_compatChar hlunate]
    exact PairTable.compose_of_composed hchain

theorem nfkc_single (c : Char) : unicode.nfkc [c] = [c] ↔ c ∉ lunates := by
  rw [nfkc_eq_self_iff]
  exact ⟨fun h => h.1 c (List.mem_singleton.mpr rfl),
    fun h => ⟨fun a ha => by rw [List.mem_singleton.mp ha]; exact h, List.isChain_singleton c⟩⟩

theorem normalForms : unicode.NormalForms data where
  nfkc_idem s := by
    rw [nfkc_eq_self_iff]
    refine ⟨fun c hc => ?_, PairTable.composed_compose flat _⟩
    rcases mem_nfkc hc with ⟨a, _, rfl⟩ | ⟨t, ht, rfl, _⟩
    · exact compatChar_not_lunate a
    · exact (composition_table t ht _ (by simp)).1
  nfc_idem := Excerpt.normalForms.nfc_idem
  nfkc_substring p q h := by
    rw [nfkc_eq_self_iff, List.forall_mem_append] at h
    rw [nfkc_eq_self_iff, nfkc_eq_self_iff]
    exact ⟨⟨h.1.1, h.2.left_of_append⟩, h.1.2, h.2.right_of_append⟩
  nfc_substring := Excerpt.normalForms.nfc_substring
  nfd_eq := Excerpt.normalForms.nfd_eq
  nfd_nfc := Excerpt.normalForms.nfd_nfc
  nfc_nfd := Excerpt.normalForms.nfc_nfd
  nfc_ordered := Excerpt.normalForms.nfc_ordered
  nfc_of_nfkc s h := (PairTable.compose_eq_self_iff flat s).mpr ((nfkc_eq_self_iff s).mp h).2
  nfkc_of_nfc s h hs := (nfkc_eq_self_iff s).mpr
    ⟨fun c hc => (nfkc_single c).mp (hs c hc), (PairTable.compose_eq_self_iff flat s).mp h⟩

theorem lower_eq_self_iff (c : Char) : unicode.toLowercase c = [c] ↔ c ∉ capitals := by
  change [lowerChar c] = [c] ↔ _
  rw [List.cons.injEq, and_iff_left rfl]
  rcases lowerChar_cases c with h | ⟨h, hc⟩
  · exact iff_of_false (capital_lower c h).1 (not_not.mpr h)
  · exact iff_of_true h hc

theorem lowerChar_not_capital (c : Char) : lowerChar c ∉ capitals := by
  rcases lowerChar_cases c with h | ⟨h, hc⟩
  · exact (capital_lower c h).2
  · rw [h]
    exact hc

theorem mem_lower {c a : Char} (h : a ∈ unicode.toLowercase c) : a = lowerChar c :=
  List.mem_singleton.mp h

/-- A scalar of a decomposition is the scalar itself or part of a composition. -/
theorem mem_canon {c a : Char} (h : a ∈ canon c) :
    a = c ∨ (∃ t ∈ compositions, t.2.2 = c ∧ a ∈ [t.1, t.2.1, t.2.2]) := by
  rcases canon_cases c with hc | ⟨t, ht, hc, hcanon⟩
  · rw [hc.1, List.mem_singleton] at h
    exact .inl h
  · rw [hcanon] at h
    exact .inr ⟨t, ht, hc, List.mem_of_mem_take (i := 2) h⟩

theorem scalars : unicode.Scalars data where
  canon_canon := Excerpt.scalars.canon_canon
  canon_mark := Excerpt.scalars.canon_mark
  canon_starter := Excerpt.scalars.canon_starter
  canon_nfkc c h a ha := by
    rw [nfkc_single] at h ⊢
    rcases mem_canon ha with rfl | ⟨t, ht, _, ha⟩
    · exact h
    · exact (composition_table t ht a ha).1
  nfkc_canon c _ h := by
    rw [nfkc_single]
    rcases canon_cases c with hc | ⟨t, ht, rfl, _⟩
    · refine (nfkc_single c).mp (h c ?_)
      change c ∈ canon c
      rw [hc.1]
      exact List.mem_singleton.mpr rfl
    · exact (composition_table t ht _ (by simp)).1
  nfkc_plain b p q hb hp hq := by
    rw [nfkc_eq_self_iff] at hp hq ⊢
    have hchain := (Excerpt.nfkc_eq_self_iff _).mp (Excerpt.scalars.nfkc_plain b p q hb
      ((Excerpt.nfkc_eq_self_iff p).mpr hp.2) ((Excerpt.nfkc_eq_self_iff q).mpr hq.2))
    refine ⟨List.forall_mem_append.mpr
      ⟨hp.1, List.forall_mem_cons.mpr ⟨fun h => ?_, hq.1⟩⟩, hchain⟩
    rw [(lunate_kind b h b (by simp)).1] at hb
    cases hb
  canon_plain := Excerpt.scalars.canon_plain
  lower_plain b hb := by
    rw [lower_eq_self_iff]
    intro h
    rw [(capital_kind b h b (by simp)).1] at hb
    cases hb
  lower_lower c a ha := by
    rw [mem_lower ha, lower_eq_self_iff]
    exact lowerChar_not_capital c
  lower_nfkc c h a ha := by
    rw [nfkc_single] at h ⊢
    rw [mem_lower ha]
    rcases lowerChar_cases c with hc | ⟨hc, _⟩
    · have htable : ∀ c ∈ capitals, c ∉ lunates → lowerChar c ∉ lunates := by decide
      exact htable c hc h
    · rw [hc]
      exact h
  lower_canon c h a ha := by
    rw [lower_eq_self_iff] at h ⊢
    rcases mem_canon ha with rfl | ⟨t, ht, _, ha⟩
    · exact h
    · exact (composition_table t ht a ha).2.1
  lower_of_canon c h := by
    rw [lower_eq_self_iff]
    rcases canon_cases c with hc | ⟨t, ht, rfl, _⟩
    · refine (lower_eq_self_iff c).mp (h c ?_)
      change c ∈ canon c
      rw [hc.1]
      exact List.mem_singleton.mpr rfl
    · exact (composition_table t ht _ (by simp)).2.1

theorem kana_not_lunate {c : Char} (hc : isKatakana c = true ∨ isHiragana c = true) :
    c ∉ lunates := by
  intro h
  obtain ⟨_, _, hkata, hhira⟩ := lunate_kind c h c (by simp)
  rcases hc with hc | hc
  · rw [hkata] at hc
    cases hc
  · rw [hhira] at hc
    cases hc

theorem kana : unicode.Kana data where
  boundary c p q hc hp hq := by
    rw [nfkc_eq_self_iff] at hp hq ⊢
    have hchain := (Excerpt.nfkc_eq_self_iff _).mp (Excerpt.kana.boundary c p q hc
      ((Excerpt.nfkc_eq_self_iff p).mpr hp.2) ((Excerpt.nfkc_eq_self_iff _).mpr hq.2))
    exact ⟨List.forall_mem_append.mpr ⟨hp.1, hq.1⟩, hchain⟩
  row c s hc h := by
    rw [nfkc_eq_self_iff] at h ⊢
    have hchain := (Excerpt.nfkc_eq_self_iff _).mp (Excerpt.kana.row c s hc
      ((Excerpt.nfkc_eq_self_iff _).mpr h.2))
    refine ⟨List.forall_mem_cons.mpr ⟨?_, (List.forall_mem_cons.mp h.1).2⟩, hchain⟩
    exact kana_not_lunate (.inr (isHiragana_katakanaToHiragana hc))
  lower_kana c hc a ha := by
    rw [mem_lower ha]
    rcases lowerChar_cases c with h | ⟨h, _⟩
    · exact (capital_kind c h _ (by simp)).2.1
    · rw [h]
      exact hc
  canon_kana := Excerpt.kana.canon_kana
  kana_canon := Excerpt.kana.kana_canon
  ccc_wa := Excerpt.kana.ccc_wa
  ccc_dakuten := Excerpt.kana.ccc_dakuten
  voiced := Excerpt.kana.voiced

/-! ### Clusters -/

theorem capital_of_isCapital {c : Char} (h : unicode.isCapital c = true) : c ∈ capitals := by
  by_contra hnot
  rw [isCapital, (lower_eq_self_iff c).mpr hnot] at h
  simp at h

theorem letter_not_mark {c : Char} (h : unicode.Letter c) : mark c = false := by
  refine Bool.eq_false_iff.mpr fun hc => ?_
  obtain ⟨hkata, hhira, hcapital, hsmall⟩ := mark_kind c (of_decide_eq_true hc)
  rcases h with h | ⟨b, hb, hbc⟩ | h | h
  · exact hcapital (capital_of_isCapital h)
  · exact hsmall b (capital_of_isCapital hb) (Option.some.inj hbc)
  · rw [hkata] at h
    cases h
  · rw [hhira] at h
    cases h

theorem nfkc_append {c : Char} (h : mark c = false) (x y : Text) :
    unicode.nfkc (x ++ c :: y) = unicode.nfkc x ++ unicode.nfkc (c :: y) := by
  change PairTable.compose pair ((x ++ c :: y).map compatChar) = _
  rw [List.map_append, List.map_cons]
  refine PairTable.compose_append (fun a => pair_eq_none fun t ht he => ?_) _ _
  have hmark := (mark_composition t ht).1
  rw [he.2, mark_compatChar, h] at hmark
  cases hmark

theorem segments : unicode.Segments mark where
  before _ x y hc := nfkc_append (letter_not_mark hc) x y
  after c m _ y _ _ ha := nfkc_append ha (c :: m) y
  letter _ hc := letter_not_mark hc

theorem compat_eq (c : Char) : unicode.compat c = canon (compatChar c) :=
  List.flatMap_singleton _ _

theorem decomposing : Decomposing unicode data where
  nfd_nfkc s := by
    rw [Excerpt.reorder_eq_self]
    change (PairTable.compose pair (s.map compatChar)).flatMap canon = _
    rw [PairTable.flatMap_compose undoes, List.flatMap_map]
    exact List.flatMap_congr fun c _ => (compat_eq c).symm
  nfkc_ne s hs := PairTable.compose_ne fun h => hs (List.map_eq_nil_iff.mp h)
  canon_ne c := by
    change canon c ≠ []
    rcases canon_cases c with h | ⟨t, _, _, h⟩
    · rw [h.1]
      exact List.cons_ne_nil c []
    · rw [h]
      exact List.cons_ne_nil _ _

/-! ### Case -/

/-- The letters that have a case. -/
def cased : List Char := capitals ++ capitals.map lowerChar

theorem mem_cased {c : Char} (h : unicode.Cased c) : c ∈ cased := by
  rcases h with h | ⟨b, hb, hbc⟩
  · exact List.mem_append_left _ (capital_of_isCapital h)
  · refine List.mem_append_right _ (List.mem_map.mpr ⟨b, capital_of_isCapital hb, ?_⟩)
    exact Option.some.inj hbc

/-- The letters and marks of such a cluster, and what they compose to. -/
theorem cased_inert : (∀ c ∈ cased ++ marks,
      isInert (compatChar c) = true ∧ isInert (lowerChar (compatChar c)) = true) ∧
    ∀ t ∈ compositions, ∀ c ∈ cased, compatChar c = t.1 →
      isInert t.2.2 = true ∧ isInert (lowerChar t.2.2) = true := by decide +kernel

theorem capital_compat : ∀ c ∈ capitals,
    (c ≠ lunateSigma → ((unicode.toLowercase c).flatMap unicode.compat).flatMap
        unicode.toLowercase = (unicode.compat c).flatMap unicode.toLowercase) ∧
      ∀ b ∈ unicode.toLowercase c, ∀ a ∈ unicode.compat b, unicode.toLowercase a = [a] := by
  decide

theorem casing : Casing unicode data mark where
  toDecomposing := decomposing
  lower_single a _ := by
    refine ⟨lowerChar a, rfl, ?_⟩
    rcases lowerChar_cases a with h | ⟨h, _⟩
    · exact (capital_canon a h).2.2.symm
    · rw [h]
  lower_marks c _ := ⟨lowerChar c, [], rfl, fun b hb => by cases hb⟩
  lower_canon c := by
    change ([lowerChar c] : Text).flatMap canon = (canon c).flatMap unicode.toLowercase
    rw [List.flatMap_singleton]
    rcases lowerChar_cases c with h | ⟨h, hc⟩
    · rw [(capital_canon c h).1, (capital_canon c h).2.1]
      rfl
    · have hid : ∀ a ∈ canon c, unicode.toLowercase a = [a] :=
        scalars.lower_canon c ((lower_eq_self_iff c).mpr hc)
      rw [h, List.flatMap_congr hid, List.flatMap_singleton']
  lower_compat c hne := by
    rcases lowerChar_cases c with h | ⟨_, hc⟩
    · exact (capital_compat c h).1 hne
    · rw [(lower_eq_self_iff c).mpr hc, List.flatMap_singleton]
  compat_lower c hc := (capital_compat c (capital_of_isCapital hc)).2
  compat_mark b hb := by
    have htable : ∀ b ∈ marks, ∀ a ∈ unicode.compat b, unicode.toLowercase a = [a] := by decide
    exact htable b (of_decide_eq_true hb)
  inert c m hc hm a ha := by
    have hmem : ∀ e ∈ c :: m, e ∈ cased ++ marks := by
      intro e he
      rcases List.mem_cons.mp he with rfl | he
      · exact List.mem_append_left _ (mem_cased hc)
      · exact List.mem_append_right _ (of_decide_eq_true (hm e he))
    have hboth : isInert a = true ∧ isInert (lowerChar a) = true := by
      rcases mem_nfkc ha with ⟨e, he, rfl⟩ | ⟨t, ht, rfl, e, he, het⟩
      · exact cased_inert.1 e (hmem e he)
      · rcases List.mem_cons.mp he with rfl | he
        · exact cased_inert.2 t ht e (mem_cased hc) het
        · -- a mark is no first part
          have hfirst := (mark_composition t ht).2.1
          rw [← het, mark_compatChar, hm e he] at hfirst
          cases hfirst
    refine ⟨hboth.1, fun b hb => ?_⟩
    rw [mem_lower hb]
    exact hboth.2
  lower_lunate := rfl
  compat_lunate := by decide
  lower_sigma c := by
    change [lowerChar c].countP _ = _
    rcases lowerChar_cases c with h | ⟨h, _⟩
    · have hkind := capital_kind c h
      rw [List.countP_singleton, List.countP_singleton,
        beq_eq_false_iff_ne.mpr (hkind c (by simp)).2.2.2,
        beq_eq_false_iff_ne.mpr (hkind _ (by simp)).2.2.2]
    · rw [h]
  canon_sigma c := by
    change (canon c).countP _ = _
    rcases canon_cases c with h | ⟨t, ht, rfl, h⟩
    · rw [h.1]
    · have htable : ∀ t ∈ compositions, ([t.1, t.2.1] : Text).countP (· == finalSigma) =
          [t.2.2].countP (· == finalSigma) := by decide
      rw [h]
      exact htable t ht

/-! ### Kana -/

/-- The table has a hiragana row for every katakana row but the `ワ` row. -/
theorem kana_table : (∀ n < 86, canon (katakanaToHiragana (Char.ofNat (0x30A1 + n))) =
      (canon (Char.ofNat (0x30A1 + n))).map katakanaToHiragana) ∧
    (∀ t ∈ compositions, isKatakana t.1 = true → isKatakana t.2.2 = true ∨
      isVoicedWa t.2.2 = true) ∧
    (∀ t ∈ compositions, isIterationMark t.2.2 = false ∧
      (isHiragana t.1 = true → isVoicedWa t.2.2 = false)) ∧
    (∀ t ∈ compositions, ([t.1, t.2.1] : Text).countP isWaRow = [t.2.2].countP isWa) ∧
    ∀ n < 4, ∃ t ∈ compositions, t.2.2 = Char.ofNat (0x30F7 + n) := by decide +kernel

theorem compat_kana {c : Char} (h : isKatakana c = true ∨ isHiragana c = true) :
    compatChar c = c := (compatChar_eq_iff c).mpr (kana_not_lunate h)

theorem canon_katakana {c : Char} (h : isKatakana c = true) :
    canon (katakanaToHiragana c) = (canon c).map katakanaToHiragana := by
  simp only [isKatakana, within, Bool.and_eq_true, decide_eq_true_eq] at h
  have htable := kana_table.1 (c.toNat - 0x30A1) (by omega)
  rw [show 0x30A1 + (c.toNat - 0x30A1) = c.toNat by omega, Char.ofNat_toNat] at htable
  exact htable

theorem composite_of_isVoicedWa {c : Char} (h : isVoicedWa c = true) :
    ∃ t ∈ compositions, t.2.2 = c := by
  simp only [isVoicedWa, within, Bool.and_eq_true, decide_eq_true_eq] at h
  have htable := kana_table.2.2.2.2 (c.toNat - 0x30F7) (by omega)
  rw [show 0x30F7 + (c.toNat - 0x30F7) = c.toNat by omega, Char.ofNat_toNat] at htable
  exact htable

theorem mem_nfkc_kana {c : Char} {m : Text} (hc : isKatakana c = true ∨ isHiragana c = true)
    (hm : ∀ b ∈ m, mark b = true) {a : Char} (ha : a ∈ unicode.nfkc (c :: m)) :
    a = c ∨ a ∈ marks ∨ ∃ t ∈ compositions, t.1 = c ∧ t.2.2 = a := by
  have hmark : ∀ e ∈ m, compatChar e = e := by
    have htable : ∀ e ∈ marks, compatChar e = e := by decide
    exact fun e he => htable e (of_decide_eq_true (hm e he))
  rcases mem_nfkc ha with ⟨e, he, rfl⟩ | ⟨t, ht, hta, e, he, het⟩
  · rcases List.mem_cons.mp he with rfl | he
    · exact .inl (compat_kana hc)
    · rw [hmark e he]
      exact .inr (.inl (of_decide_eq_true (hm e he)))
  · rcases List.mem_cons.mp he with rfl | he
    · rw [compat_kana hc] at het
      exact .inr (.inr ⟨t, ht, het.symm, hta⟩)
    · have hfirst := (mark_composition t ht).2.1
      rw [← het, mark_compatChar, hm e he] at hfirst
      cases hfirst

theorem kanaPairs : KanaPairs unicode data mark where
  toDecomposing := decomposing
  compat_kana c h := by
    rw [compat_eq, compat_eq, compat_kana (.inl h),
      compat_kana (.inr (isHiragana_katakanaToHiragana h))]
    exact canon_katakana h
  canon_kana _ h := canon_katakana h
  canon_katakana c a ha hkata := by
    rcases canon_cases c with h | ⟨t, ht, rfl, h⟩
    · change a ∈ canon c at ha
      rw [h.1, List.mem_singleton] at ha
      rw [← ha]
      exact .inl hkata
    · change a ∈ canon t.2.2 at ha
      rw [h, List.mem_cons, List.mem_singleton] at ha
      rcases ha with rfl | rfl
      · exact kana_table.2.1 t ht hkata
      · rw [(Excerpt.mark_not_kana t ht).1] at hkata
        cases hkata
  ccc_kana c h := by
    have hccc : ∀ a : Char, a.toNat ≠ 0x3099 → data.ccc a = 0 := by
      intro a ha
      rw [Excerpt.ccc_eq, if_neg]
      rintro rfl
      exact ha rfl
    have hnat := katakanaToHiragana_toNat h
    simp only [isKatakana, within, Bool.and_eq_true, decide_eq_true_eq] at h
    rw [hccc c (by omega), hccc _ (by omega)]
  unmarked c m hc hm a ha := by
    rcases mem_nfkc_kana hc hm ha with rfl | hmark | ⟨t, ht, _, rfl⟩
    · simp only [isKatakana, isHiragana, within, Bool.and_eq_true, decide_eq_true_eq] at hc
      simp only [isIterationMark, Bool.or_eq_false_iff, beq_eq_false_iff_ne]
      omega
    · have htable : ∀ a ∈ marks, isIterationMark a = false := by decide
      exact htable a hmark
    · exact (kana_table.2.2.1 t ht).1
  hiragana c m hc hm a ha := by
    rcases mem_nfkc_kana (.inr hc) hm ha with rfl | hmark | ⟨t, ht, rfl, rfl⟩
    · simp only [isHiragana, isVoicedWa, within, Bool.and_eq_true, decide_eq_true_eq,
        Bool.and_eq_false_iff, decide_eq_false_iff_not] at hc ⊢
      omega
    · have htable : ∀ a ∈ marks, isVoicedWa a = false := by decide
      exact htable a hmark
    · exact (kana_table.2.2.1 t ht).2 hc
  canon_wa c := by
    change (canon c).countP isWaRow = [c].countP isWa
    rcases canon_cases c with ⟨h, hnot⟩ | ⟨t, ht, rfl, h⟩
    · have hvoiced : isVoicedWa c = false := by
        refine Bool.eq_false_iff.mpr fun hv => ?_
        obtain ⟨t, ht, htc⟩ := composite_of_isVoicedWa hv
        exact hnot t ht htc
      rw [h, List.countP_singleton, List.countP_singleton, isWa, hvoiced, Bool.or_false]
    · rw [h]
      exact kana_table.2.2.2.1 t ht
  lower_wa c := by
    change [lowerChar c].countP isWa = [c].countP isWa
    rcases lowerChar_cases c with h | ⟨h, _⟩
    · have hkind := capital_kind c h
      rw [List.countP_singleton, List.countP_singleton, (hkind c (by simp)).2.2.1,
        (hkind _ (by simp)).2.2.1]
    · rw [h]

/-! ### Kana, kanji and iteration marks -/

theorem script_table : (∀ c ∈ marks, isInert c = true) ∧ (∀ c ∈ cased, isInert c = true) ∧
    (∀ c ∈ capitals, isScript c = false) ∧ (∀ c ∈ lunates, isKana c = false) ∧
    (∀ t ∈ compositions, isScript t.1 = true → isVoicing t.2.1 = true ∧ isVoicing t.2.2 = false) ∧
    (∀ t ∈ compositions, isKana t.2.2 = false →
      ([t.1, t.2.1] : Text).countP isVoicing = [t.2.2].countP isVoicing) ∧
    (∀ t ∈ compositions, ([t.1, t.2.1] : Text).countP isIterationMark =
      [t.2.2].countP isIterationMark) ∧
    ∀ t ∈ compositions, ([t.1, t.2.1] : Text).countP (·.toNat == 0x30FC) =
      [t.2.2].countP (·.toNat == 0x30FC) := by decide +kernel

theorem script_not_mark {c : Char} (h : isScript c = true) : mark c = false := by
  refine Bool.eq_false_iff.mpr fun hc => ?_
  rw [not_isScript_of_isInert (script_table.1 c (of_decide_eq_true hc))] at h
  cases h

theorem canon_countP {P : Char → Bool} (h : ∀ t ∈ compositions,
    ([t.1, t.2.1] : Text).countP P = [t.2.2].countP P) (c : Char) :
    (canon c).countP P = [c].countP P := by
  rcases canon_cases c with hc | ⟨t, ht, rfl, hc⟩
  · rw [hc.1]
  · rw [hc]
    exact h t ht

theorem canon_iterationMark {c : Char} (h : isIterationMark c = true) : canon c = [c] := by
  rcases canon_cases c with hc | ⟨t, ht, rfl, _⟩
  · exact hc.1
  · rw [(kana_table.2.2.1 t ht).1] at h
    cases h

theorem script : Script unicode data mark where
  starts c h := by
    refine ⟨nfkc_append (script_not_mark h), fun m a y _ ha => ?_, script_not_mark h⟩
    exact nfkc_append ha (c :: m) y
  marks b hb := script_table.1 b (of_decide_eq_true hb)
  cased c hc := script_table.2.1 c (mem_cased hc)
  lower c hc := (lower_eq_self_iff c).mpr fun h => by
    rw [script_table.2.2.1 c h] at hc
    cases hc
  voiced c hc := by
    have hletter := voiceable_kana hc
    have hkana := isKana_addDakuten (isKana_of_letter (hletter.elim .inr fun h => .inl h.1))
    refine (nfkc_single _).mpr fun h => ?_
    rw [script_table.2.2.2.1 _ h] at hkana
    cases hkana
  composes c m hc hform hm hstable := by
    have hlunate := (nfkc_single c).mp hform
    obtain ⟨hnone, hchain⟩ := (nfkc_eq_self_iff m).mp hstable
    cases m with
    | nil => exact .inl hform
    | cons b m =>
      cases hpair : pair c b with
      | none =>
        refine .inl ((nfkc_eq_self_iff _).mpr ⟨List.forall_mem_cons.mpr ⟨hlunate, hnone⟩, ?_⟩)
        exact List.isChain_cons_cons.mpr ⟨hpair, hchain⟩
      | some e =>
        have hcompose : unicode.nfkc (c :: b :: m) = e :: m := by
          change PairTable.compose pair ((c :: b :: m).map compatChar) = e :: m
          rw [map_compatChar (List.forall_mem_cons.mpr ⟨hlunate, hnone⟩),
            PairTable.compose_pair hpair, PairTable.compose_of_composed (s := m) hchain.tail]
        obtain ⟨hmark, hletter⟩ := script_table.2.2.2.2.1 _ (mem_of_pair hpair) hc
        dsimp only at hmark hletter
        right
        rw [hcompose, List.countP_cons, List.countP_cons, List.countP_cons, hmark, hletter,
          if_pos rfl, if_neg (by simp)]
        omega
  canon_voicing c hc := by
    change (canon c).countP isVoicing = _
    rcases canon_cases c with h | ⟨t, ht, rfl, h⟩
    · rw [h.1]
    · rw [h]
      exact script_table.2.2.2.2.2.1 t ht hc
  canon_marks := canon_countP script_table.2.2.2.2.2.2.1
  canon_choonpu := canon_countP script_table.2.2.2.2.2.2.2
  canon_mark c hc := by
    refine ⟨c, hc, ?_, .inl (canon_iterationMark hc)⟩
    rw [Excerpt.ccc_eq, if_neg]
    rintro rfl
    exact absurd hc (by decide)
  canon_inj c b hc hb h := by
    change canon c = canon b at h
    rw [canon_iterationMark hc, canon_iterationMark hb] at h
    exact (List.cons.inj h).1

end FoldExcerpt

end Unicode

end Unfydqry
