import Unfydqry.Config

/-! # Strings on the two sides of the binding

A Kotlin string is a list of UTF-16 code units, and a unit of a surrogate pair may stand
alone. Such a string has no UTF-8 form, and the encoder throws. -/

namespace Unfydqry.Binding

/-- The code units of a Kotlin string. -/
abbrev KotlinString := List UInt16

def isHighSurrogate (u : UInt16) : Bool := 0xD800 ≤ u.toNat && u.toNat < 0xDC00

def isLowSurrogate (u : UInt16) : Bool := 0xDC00 ≤ u.toNat && u.toNat < 0xE000

/-- The character of a surrogate pair. -/
def pairChar (u v : UInt16) : Char :=
  Char.ofNat (0x10000 + (u.toNat - 0xD800) * 0x400 + (v.toNat - 0xDC00))

/-- The text of a string, unless a surrogate stands alone. -/
def decodeUtf16 : KotlinString → Option Text
  | [] => some []
  | [u] => if isHighSurrogate u || isLowSurrogate u then none else some [Char.ofNat u.toNat]
  | u :: v :: rest =>
    if isHighSurrogate u then
      if isLowSurrogate v then (decodeUtf16 rest).map (pairChar u v :: ·) else none
    else if isLowSurrogate u then none
    else (decodeUtf16 (v :: rest)).map (Char.ofNat u.toNat :: ·)

def charUnits (c : Char) : KotlinString :=
  if c.toNat < 0x10000 then [UInt16.ofNat c.toNat]
  else
    [UInt16.ofNat (0xD800 + (c.toNat - 0x10000) / 0x400),
      UInt16.ofNat (0xDC00 + (c.toNat - 0x10000) % 0x400)]

/-- The code units of a text. -/
def utf16 (t : Text) : KotlinString := t.flatMap charUnits

/-- The UTF-8 form of a text. -/
def utf8 (t : Text) : List UInt8 := t.flatMap String.utf8EncodeChar

/-- The text of bytes that are valid UTF-8. -/
def fromUtf8 (bs : List UInt8) : Option Text := bs.toByteArray.utf8Decode?.map Array.toList

/-- `FfiConverterString.toUtf8`: an encoder that reports malformed input. -/
def toUtf8 (s : KotlinString) : Option (List UInt8) := (decodeUtf16 s).map utf8

theorem fromUtf8_utf8 (t : Text) : fromUtf8 (utf8 t) = some t := by
  have h : (utf8 t).toByteArray.utf8Decode? = some t.toArray := List.utf8Decode?_utf8Encode
  rw [fromUtf8, h]
  rfl

/-! ### Code units and characters -/

theorem decodeUtf16_plain {u : UInt16} (hh : isHighSurrogate u = false)
    (hl : isLowSurrogate u = false) (s : KotlinString) :
    decodeUtf16 (u :: s) = (decodeUtf16 s).map (Char.ofNat u.toNat :: ·) := by
  cases s with
  | nil => simp [decodeUtf16, hh, hl]
  | cons v s => simp [decodeUtf16, hh, hl]

theorem decodeUtf16_pair {u v : UInt16} (hh : isHighSurrogate u = true)
    (hl : isLowSurrogate v = true) (s : KotlinString) :
    decodeUtf16 (u :: v :: s) = (decodeUtf16 s).map (pairChar u v :: ·) := by
  rw [decodeUtf16, if_pos hh, if_pos hl]

/-- What a string that decodes begins with. -/
theorem decodeUtf16_cases {u : UInt16} {s : KotlinString} {t : Text}
    (h : decodeUtf16 (u :: s) = some t) :
    (isHighSurrogate u = false ∧ isLowSurrogate u = false ∧
      ∃ t', decodeUtf16 s = some t' ∧ t = Char.ofNat u.toNat :: t') ∨
    (isHighSurrogate u = true ∧ ∃ v s', s = v :: s' ∧ isLowSurrogate v = true ∧
      ∃ t', decodeUtf16 s' = some t' ∧ t = pairChar u v :: t') := by
  by_cases hh : isHighSurrogate u = true
  · right
    refine ⟨hh, ?_⟩
    cases s with
    | nil =>
      rw [decodeUtf16, hh] at h
      cases h
    | cons v s' =>
      rw [decodeUtf16, if_pos hh] at h
      obtain ⟨hl, h⟩ := Option.ite_none_right_eq_some.mp h
      obtain ⟨t', ht, rfl⟩ := Option.map_eq_some_iff.mp h
      exact ⟨v, s', rfl, hl, t', ht, rfl⟩
  · left
    have hh : isHighSurrogate u = false := by simpa using hh
    by_cases hl : isLowSurrogate u = true
    · cases s with
      | nil =>
        rw [decodeUtf16, hh, hl] at h
        cases h
      | cons v s' =>
        rw [decodeUtf16, hh, hl] at h
        cases h
    · have hl : isLowSurrogate u = false := by simpa using hl
      rw [decodeUtf16_plain hh hl] at h
      obtain ⟨t', ht, rfl⟩ := Option.map_eq_some_iff.mp h
      exact ⟨hh, hl, t', ht, rfl⟩

theorem char_range (c : Char) : c.toNat < 0xD800 ∨ 0xDFFF < c.toNat ∧ c.toNat < 0x110000 := c.valid

theorem toNat_ofNat_of_lt {n : ℕ} (h : n < 0x10000) : (UInt16.ofNat n).toNat = n :=
  UInt16.toNat_ofNat_of_lt' h

theorem decodeUtf16_charUnits (c : Char) (s : KotlinString) :
    decodeUtf16 (charUnits c ++ s) = (decodeUtf16 s).map (c :: ·) := by
  have hr := char_range c
  by_cases h : c.toNat < 0x10000
  · have hu := toNat_ofNat_of_lt h
    have hh : isHighSurrogate (UInt16.ofNat c.toNat) = false := by
      simp only [isHighSurrogate, hu, Bool.and_eq_false_iff, decide_eq_false_iff_not]
      omega
    have hl : isLowSurrogate (UInt16.ofNat c.toNat) = false := by
      simp only [isLowSurrogate, hu, Bool.and_eq_false_iff, decide_eq_false_iff_not]
      omega
    rw [charUnits, if_pos h, List.singleton_append, decodeUtf16_plain hh hl, hu,
      Char.ofNat_toNat]
  · have hu : (UInt16.ofNat (0xD800 + (c.toNat - 0x10000) / 0x400)).toNat =
        0xD800 + (c.toNat - 0x10000) / 0x400 := toNat_ofNat_of_lt (by omega)
    have hv : (UInt16.ofNat (0xDC00 + (c.toNat - 0x10000) % 0x400)).toNat =
        0xDC00 + (c.toNat - 0x10000) % 0x400 := toNat_ofNat_of_lt (by omega)
    have hh : isHighSurrogate (UInt16.ofNat (0xD800 + (c.toNat - 0x10000) / 0x400)) = true := by
      simp only [isHighSurrogate, hu, Bool.and_eq_true, decide_eq_true_eq]
      omega
    have hl : isLowSurrogate (UInt16.ofNat (0xDC00 + (c.toNat - 0x10000) % 0x400)) = true := by
      simp only [isLowSurrogate, hv, Bool.and_eq_true, decide_eq_true_eq]
      omega
    have hc : 0x10000 + (0xD800 + (c.toNat - 0x10000) / 0x400 - 0xD800) * 0x400 +
        (0xDC00 + (c.toNat - 0x10000) % 0x400 - 0xDC00) = c.toNat := by omega
    rw [charUnits, if_neg h]
    show decodeUtf16 (_ :: _ :: s) = _
    rw [decodeUtf16_pair hh hl, pairChar, hu, hv, hc, Char.ofNat_toNat]

theorem decodeUtf16_utf16 (t : Text) : decodeUtf16 (utf16 t) = some t := by
  induction t with
  | nil => rfl
  | cons c t ih =>
    rw [utf16, List.flatMap_cons, decodeUtf16_charUnits]
    show (decodeUtf16 (utf16 t)).map (c :: ·) = some (c :: t)
    rw [ih]
    rfl

/-- `Char.ofNat` keeps the scalars. -/
theorem toNat_scalar {n : ℕ} (h : n < 0xD800 ∨ 0xDFFF < n ∧ n < 0x110000) :
    (Char.ofNat n).toNat = n := by
  rw [Char.ofNat, dif_pos h]
  rfl

theorem charUnits_plain {u : UInt16} (hh : isHighSurrogate u = false)
    (hl : isLowSurrogate u = false) : charUnits (Char.ofNat u.toNat) = [u] := by
  have hu : u.toNat < 0x10000 := u.toNat_lt
  simp only [isHighSurrogate, Bool.and_eq_false_iff, decide_eq_false_iff_not] at hh
  simp only [isLowSurrogate, Bool.and_eq_false_iff, decide_eq_false_iff_not] at hl
  rw [charUnits, toNat_scalar (by omega), if_pos hu, UInt16.ofNat_toNat]

theorem charUnits_pair {u v : UInt16} (hh : isHighSurrogate u = true)
    (hl : isLowSurrogate v = true) : charUnits (pairChar u v) = [u, v] := by
  simp only [isHighSurrogate, Bool.and_eq_true, decide_eq_true_eq] at hh
  simp only [isLowSurrogate, Bool.and_eq_true, decide_eq_true_eq] at hl
  have hn : (pairChar u v).toNat =
      0x10000 + (u.toNat - 0xD800) * 0x400 + (v.toNat - 0xDC00) := toNat_scalar (by omega)
  have hu : 0xD800 + ((pairChar u v).toNat - 0x10000) / 0x400 = u.toNat := by omega
  have hv : 0xDC00 + ((pairChar u v).toNat - 0x10000) % 0x400 = v.toNat := by omega
  rw [charUnits, if_neg (by omega), hu, hv, UInt16.ofNat_toNat, UInt16.ofNat_toNat]

theorem utf16_of_decode {s : KotlinString} {t : Text} (h : decodeUtf16 s = some t) :
    utf16 t = s := by
  induction hn : s.length using Nat.strongRecOn generalizing s t with
  | ind n ih =>
    cases s with
    | nil =>
      cases h
      rfl
    | cons u s =>
      rw [List.length_cons] at hn
      rcases decodeUtf16_cases h with ⟨hh, hl, t', ht, rfl⟩ | ⟨hh, v, s', rfl, hl, t', ht, rfl⟩
      · rw [utf16, List.flatMap_cons, charUnits_plain hh hl]
        show u :: utf16 t' = u :: s
        rw [ih s.length (by omega) ht rfl]
      · rw [List.length_cons] at hn
        rw [utf16, List.flatMap_cons, charUnits_pair hh hl]
        show u :: v :: utf16 t' = u :: v :: s'
        rw [ih s'.length (by omega) ht rfl]

/-- A string has a UTF-8 form if it is the code units of a text. -/
theorem toUtf8_eq_some {s : KotlinString} {bs : List UInt8} :
    toUtf8 s = some bs ↔ ∃ t, utf16 t = s ∧ utf8 t = bs := by
  constructor
  · intro h
    obtain ⟨t, ht, hbs⟩ := Option.map_eq_some_iff.mp h
    exact ⟨t, utf16_of_decode ht, hbs⟩
  · intro h
    obtain ⟨t, rfl, rfl⟩ := h
    rw [toUtf8, decodeUtf16_utf16]
    rfl

/-! ### Lengths -/

/-- A character of one code unit has at most three bytes. -/
theorem length_utf8EncodeChar_le (c : Char) :
    (String.utf8EncodeChar c).length ≤ 3 * (charUnits c).length := by
  rw [String.length_utf8EncodeChar]
  by_cases h : c.toNat < 0x10000
  · have hsize : c.utf8Size ≠ 4 := by
      intro h4
      have h5 := Char.utf8Size_eq_four_iff.mp h4
      rw [UInt32.lt_iff_toNat_lt] at h5
      have h6 : 0xffff < c.toNat := h5
      omega
    have hle := c.utf8Size_le_four
    rw [charUnits, if_pos h, List.length_singleton]
    omega
  · have hle := c.utf8Size_le_four
    rw [charUnits, if_neg h]
    show c.utf8Size ≤ 6
    omega

theorem length_utf8_le (t : Text) : (utf8 t).length ≤ 3 * (utf16 t).length := by
  induction t with
  | nil => exact Nat.le_refl 0
  | cons c t ih =>
    have hc := length_utf8EncodeChar_le c
    rw [utf8, utf16] at ih ⊢
    rw [List.flatMap_cons, List.flatMap_cons, List.length_append, List.length_append]
    omega

end Unfydqry.Binding
