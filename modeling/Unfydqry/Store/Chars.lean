import Unfydqry.Config
import Mathlib.Data.List.Infix
import Mathlib.Data.List.TakeWhile

/-! # How SQLite reads the characters of a text

A C string ends at the first U+0000. The UTF-8 reader returns U+FFFD in place of the
noncharacters U+FFFE and U+FFFF. -/

namespace Unfydqry

namespace Store

/-- The characters before the first U+0000. -/
def cString (s : Text) : Text := s.takeWhile fun c => c.toNat ≠ 0

/-- The character the UTF-8 reader returns. -/
def decoded (c : Char) : Char := if c.toNat = 0xFFFE ∨ c.toNat = 0xFFFF then '\uFFFD' else c

/-- A text as a function reads it that is handed a C string. -/
def readText (s : Text) : Text := (cString s).map decoded

theorem toNat_ne_zero {c : Char} (h : c ≠ '\x00') : c.toNat ≠ 0 := by
  simpa [← Char.toNat_inj] using h

theorem cString_cons {c : Char} (h : c ≠ '\x00') (s : Text) :
    cString (c :: s) = c :: cString s := by
  simp [cString, toNat_ne_zero h]

theorem cString_append_of_free {s : Text} (h : '\x00' ∉ s) (t : Text) :
    cString (s ++ t) = s ++ cString t := by
  have hs : ∀ c ∈ s, decide (c.toNat ≠ 0) = true := by
    intro c hc
    have hne : c ≠ '\x00' := fun heq => h (heq ▸ hc)
    exact decide_eq_true (toNat_ne_zero hne)
  exact List.takeWhile_append_of_pos hs

theorem cString_eq_self {s : Text} (h : '\x00' ∉ s) : cString s = s := by
  have happend := cString_append_of_free h []
  rwa [List.append_nil, show cString [] = [] from rfl, List.append_nil] at happend

theorem cString_append_of_mem {s : Text} (h : '\x00' ∈ s) (t : Text) :
    cString (s ++ t) = cString s := by
  induction s with
  | nil => cases h
  | cons c s ih =>
    by_cases hz : c = '\x00'
    · subst hz
      rfl
    · have hrest := ih ((List.mem_cons.mp h).resolve_left fun heq => hz heq.symm)
      rw [List.cons_append, cString_cons hz, cString_cons hz, hrest]

theorem decoded_of_lt {c : Char} (h : c.toNat < 0xFFFE) : decoded c = c := by
  rw [decoded, if_neg]
  omega

/-- No character becomes one below U+FFFD, and none of those changes. -/
theorem decoded_eq_iff {d : Char} (hd : d.toNat < 0xFFFD) (c : Char) : decoded c = d ↔ c = d := by
  unfold decoded
  split
  · rename_i hc
    have hrepl : '\uFFFD'.toNat = 0xFFFD := by decide
    constructor
    · rintro rfl
      omega
    · rintro rfl
      omega
  · exact Iff.rfl

theorem readText_eq_map {s : Text} (h : '\x00' ∉ s) : readText s = s.map decoded := by
  rw [readText, cString_eq_self h]

end Store

end Unfydqry
