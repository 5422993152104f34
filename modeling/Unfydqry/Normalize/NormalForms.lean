import Unfydqry.Normalize.Steps
import Unfydqry.Normalize.StepsFixed
import Unfydqry.Lib.CanonicalOrder

/-! # What the steps rely on of the Unicode normal forms

The properties of NFC, NFD, NFKC and of `char::to_lowercase` that the pipeline's fixed
points rest on, as the Unicode standard and its character data give them. -/

namespace Unfydqry

/-- The character data behind the normal forms. -/
structure CharData where
  /-- `Canonical_Combining_Class`. -/
  ccc : Char → ℕ
  /-- The full canonical decomposition. -/
  canon : Char → Text

/-- `U+3099`, the combining dakuten. -/
def dakuten : Char := '\u3099'

/-- The letters `katakana_to_hiragana` changes. -/
def isKatakana (c : Char) : Bool := Steps.within 0x30A1 0x30F6 c

def isHiragana (c : Char) : Bool := Steps.within 0x3041 0x3096 c

/-- `ワ`, `ヰ`, `ヱ` and `ヲ`, whose voiced forms `ヷ` to `ヺ` have no hiragana. -/
def isWaRow (c : Char) : Bool := Steps.within 0x30EF 0x30F2 c

/-- ASCII scalars that compose with nothing on either side. -/
def isPlain (c : Char) : Bool := Steps.isAsciiDigit c || c == '-' || c == ' '

namespace Unicode

/-- The normal forms as functions on texts. -/
structure NormalForms (u : Unicode) (d : CharData) : Prop where
  nfkc_idem : ∀ s, u.nfkc (u.nfkc s) = u.nfkc s
  nfc_idem : ∀ s, u.nfc (u.nfc s) = u.nfc s
  /-- The forms are closed under substrings. -/
  nfkc_substring : ∀ p q, u.nfkc (p ++ q) = p ++ q → u.nfkc p = p ∧ u.nfkc q = q
  nfc_substring : ∀ p q, u.nfc (p ++ q) = p ++ q → u.nfc p = p ∧ u.nfc q = q
  nfd_eq : ∀ s, u.nfd s = CanonicalOrder.reorder d.ccc (s.flatMap d.canon)
  /-- A text and its form are canonically equivalent. -/
  nfd_nfc : ∀ s, u.nfd (u.nfc s) = u.nfd s
  nfc_nfd : ∀ s, u.nfc (u.nfd s) = u.nfc s
  nfc_ordered : ∀ s, u.nfc s = s → CanonicalOrder.Ordered d.ccc s
  nfc_of_nfkc : ∀ s, u.nfkc s = s → u.nfc s = s
  /-- NFKC is NFC where no scalar has a compatibility decomposition. -/
  nfkc_of_nfc : ∀ s, u.nfc s = s → (∀ c ∈ s, u.nfkc [c] = [c]) → u.nfkc s = s

/-- Single scalars. -/
structure Scalars (u : Unicode) (d : CharData) : Prop where
  canon_canon : ∀ c, ∀ a ∈ d.canon c, d.canon a = [a]
  canon_mark : ∀ c, u.nfc [c] = [c] → 0 < d.ccc c → d.canon c = [c]
  canon_starter : ∀ c, u.nfc [c] = [c] → d.ccc c = 0 → ∃ a l, d.canon c = a :: l ∧ d.ccc a = 0
  canon_nfkc : ∀ c, u.nfkc [c] = [c] → ∀ a ∈ d.canon c, u.nfkc [a] = [a]
  nfkc_canon : ∀ c, u.nfc [c] = [c] → (∀ a ∈ d.canon c, u.nfkc [a] = [a]) → u.nfkc [c] = [c]
  /-- A plain scalar is a boundary of composition. -/
  nfkc_plain : ∀ b p q, isPlain b = true → u.nfkc p = p → u.nfkc q = q →
    u.nfkc (p ++ b :: q) = p ++ b :: q
  canon_plain : ∀ b, isPlain b = true → d.canon b = [b]
  lower_plain : ∀ b, isPlain b = true → u.toLowercase b = [b]
  lower_lower : ∀ c, ∀ a ∈ u.toLowercase c, u.toLowercase a = [a]
  lower_nfkc : ∀ c, u.nfkc [c] = [c] → ∀ a ∈ u.toLowercase c, u.nfkc [a] = [a]
  lower_canon : ∀ c, u.toLowercase c = [c] → ∀ a ∈ d.canon c, u.toLowercase a = [a]
  lower_of_canon : ∀ c, (∀ a ∈ d.canon c, u.toLowercase a = [a]) → u.toLowercase c = [c]

/-- The kana blocks. -/
structure Kana (u : Unicode) (d : CharData) : Prop where
  /-- No kana letter composes with what stands before it. -/
  boundary : ∀ c p q, isKatakana c = true ∨ isHiragana c = true → u.nfkc p = p →
    u.nfkc (c :: q) = c :: q → u.nfkc (p ++ c :: q) = p ++ c :: q
  /-- A hiragana letter composes with no mark its katakana does not compose with. -/
  row : ∀ c s, isKatakana c = true → u.nfkc (c :: s) = c :: s →
    u.nfkc (Steps.katakanaToHiragana c :: s) = Steps.katakanaToHiragana c :: s
  lower_kana : ∀ c, isKatakana c = false → ∀ a ∈ u.toLowercase c, isKatakana a = false
  /-- Only `ヷ` to `ヺ` have a katakana letter in their decomposition and are none. -/
  canon_kana : ∀ c, ∀ a ∈ d.canon c, isKatakana a = true →
    isKatakana c = true ∨ isWaRow a = true ∧ d.canon c = [a, dakuten]
  kana_canon : ∀ c, isKatakana c = true →
    ∃ a ∈ d.canon c, isKatakana a = true ∧ (isWaRow a = true → a = c)
  ccc_wa : ∀ k, isWaRow k = true → d.ccc k = 0
  ccc_dakuten : 0 < d.ccc dakuten
  /-- `ワ` and an unblocked dakuten compose. -/
  voiced : ∀ k m, isWaRow k = true → (∀ b ∈ m, 0 < d.ccc b ∧ d.ccc b < d.ccc dakuten) →
    u.nfc (k :: (m ++ [dakuten])) ≠ k :: (m ++ [dakuten])

end Unicode

namespace Steps

theorem toNat_ofNat {n : ℕ} (h : n.isValidChar) : (Char.ofNat n).toNat = n := by
  rw [Char.ofNat, dif_pos h]
  rfl

theorem katakanaToHiragana_toNat {c : Char} (h : isKatakana c = true) :
    (katakanaToHiragana c).toNat = c.toNat - 0x60 := by
  have hrange := h
  simp only [isKatakana, within, Bool.and_eq_true, decide_eq_true_eq] at hrange
  have hvalid : (c.toNat - 0x60).isValidChar := by
    unfold Nat.isValidChar
    omega
  unfold isKatakana at h
  rw [katakanaToHiragana, if_pos h, fromU32, if_pos hvalid, Option.getD_some, toNat_ofNat hvalid]

theorem katakanaToHiragana_of_not {c : Char} (h : isKatakana c = false) :
    katakanaToHiragana c = c := by
  rw [katakanaToHiragana, if_neg]
  rw [isKatakana] at h
  rw [h]
  simp

theorem isHiragana_katakanaToHiragana {c : Char} (h : isKatakana c = true) :
    isHiragana (katakanaToHiragana c) = true := by
  have hrange := h
  simp only [isKatakana, within, Bool.and_eq_true, decide_eq_true_eq] at hrange
  simp only [isHiragana, within, katakanaToHiragana_toNat h, Bool.and_eq_true,
    decide_eq_true_eq]
  omega

theorem isKatakana_katakanaToHiragana (c : Char) :
    isKatakana (katakanaToHiragana c) = false := by
  cases h : isKatakana c with
  | true =>
    have hrange := h
    simp only [isKatakana, within, Bool.and_eq_true, decide_eq_true_eq] at hrange
    simp only [isKatakana, within, katakanaToHiragana_toNat h, Bool.and_eq_false_iff,
      decide_eq_false_iff_not]
    omega
  | false => rw [katakanaToHiragana_of_not h, h]

end Steps

/-! ### Steps that keep a text in NFKC -/

section Keeps

variable {u : Unicode} {d : CharData} (hn : u.NormalForms d)

include hn

theorem nfkc_nil : u.nfkc [] = [] := (hn.nfkc_substring (u.nfkc []) [] (by
  rw [List.append_nil]
  exact hn.nfkc_idem [])).2

theorem nfkc_mem {s : Text} (h : u.nfkc s = s) {c : Char} (hc : c ∈ s) : u.nfkc [c] = [c] := by
  obtain ⟨p, q, rfl⟩ := List.append_of_mem hc
  have htail := (hn.nfkc_substring p (c :: q) h).2
  exact (hn.nfkc_substring [c] q htail).1

theorem nfc_mem {s : Text} (h : u.nfc s = s) {c : Char} (hc : c ∈ s) : u.nfc [c] = [c] := by
  obtain ⟨p, q, rfl⟩ := List.append_of_mem hc
  have htail := (hn.nfc_substring p (c :: q) h).2
  exact (hn.nfc_substring [c] q htail).1

theorem nfkc_kanaFold (hk : u.Kana d) (s p : Text) (h : u.nfkc (p ++ s) = p ++ s) :
    u.nfkc (p ++ Steps.kanaFold s) = p ++ Steps.kanaFold s := by
  induction s generalizing p with
  | nil => exact h
  | cons c s ih =>
    obtain ⟨hp, hcs⟩ := hn.nfkc_substring p (c :: s) h
    have hhead : u.nfkc (p ++ Steps.katakanaToHiragana c :: s) =
        p ++ Steps.katakanaToHiragana c :: s := by
      cases hkata : isKatakana c with
      | false =>
        rw [Steps.katakanaToHiragana_of_not hkata]
        exact h
      | true =>
        exact hk.boundary _ p s (.inr (Steps.isHiragana_katakanaToHiragana hkata)) hp
          (hk.row c s hkata hcs)
    have hrest := ih (p ++ [Steps.katakanaToHiragana c]) (by
      rw [List.append_assoc]
      exact hhead)
    rw [List.append_assoc] at hrest
    exact hrest

end Keeps

end Unfydqry
