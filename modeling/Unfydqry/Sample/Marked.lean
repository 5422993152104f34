import Unfydqry.Binding.Strings
import Unfydqry.Lib.Delimited

/-! # How the samples draw marked text

The three sample apps ask for highlights between two control characters and read the answer
with a loop of their own each: by code units, by grapheme clusters and by code points. All
three draw the same characters, and emphasize the same of them. -/

namespace Unfydqry.Sample

open Binding Delimited

/-- STX. -/
def OPEN : Char := '\x02'

/-- ETX. -/
def CLOSE : Char := '\x03'

/-- The characters of marked text, each with whether it is emphasized. -/
def emphasis (marked : Text) : List (Char × Bool) := inside OPEN CLOSE false marked

/-! ### Android: `Highlight.annotated` -/

namespace Android

/-- A string and the ranges of it that have the match style. -/
structure AnnotatedString where
  text : KotlinString
  spanStyles : List (ℕ × ℕ)
  within : ∀ r ∈ spanStyles, r.2 ≤ text.length

namespace AnnotatedString

def empty : AnnotatedString where
  text := []
  spanStyles := []
  within := by simp

def append (a : AnnotatedString) (s : KotlinString) : AnnotatedString where
  text := a.text ++ s
  spanStyles := a.spanStyles
  within r hr := by
    have h := a.within r hr
    rw [List.length_append]
    omega

/-- `withStyle(matchStyle) { append(s) }`. -/
def withStyle (a : AnnotatedString) (s : KotlinString) : AnnotatedString where
  text := a.text ++ s
  spanStyles := a.spanStyles ++ [(a.text.length, a.text.length + s.length)]
  within r hr := by
    rw [List.length_append]
    rcases List.mem_append.mp hr with hr | hr
    · have h := a.within r hr
      omega
    · obtain rfl := List.mem_singleton.mp hr
      exact Nat.le_refl _

/-- The code units, each with whether a range covers it. -/
def drawn (a : AnnotatedString) : List (UInt16 × Bool) :=
  a.text.mapIdx fun i u => (u, a.spanStyles.any fun r => decide (r.1 ≤ i) && decide (i < r.2))

theorem drawn_append (a : AnnotatedString) (s : KotlinString) :
    (a.append s).drawn = a.drawn ++ s.map (·, false) := by
  show (a.text ++ s).mapIdx _ = _
  rw [List.mapIdx_append]
  congr 1
  refine List.ext_getElem (by simp) fun i hi _ => ?_
  simp only [List.getElem_mapIdx, List.getElem_map, append, Prod.mk.injEq, true_and,
    List.any_eq_false]
  intro r hr
  have h := a.within r hr
  simp only [Bool.and_eq_true, decide_eq_true_eq]
  omega

theorem drawn_withStyle (a : AnnotatedString) (s : KotlinString) :
    (a.withStyle s).drawn = a.drawn ++ s.map (·, true) := by
  show (a.text ++ s).mapIdx _ = _
  rw [List.mapIdx_append]
  congr 1
  · refine List.ext_getElem (by simp [drawn]) fun i hi _ => ?_
    have hlt : i < a.text.length := by simpa using hi
    have hout : ¬ a.text.length ≤ i := by omega
    simp [drawn, withStyle, hout]
  · refine List.ext_getElem (by simp) fun i hi _ => ?_
    have hlt : i < s.length := by simpa using hi
    simp only [List.getElem_mapIdx, List.getElem_map, withStyle, Prod.mk.injEq, true_and,
      List.any_append, List.any_cons, List.any_nil, Bool.or_false, Bool.or_eq_true,
      Bool.and_eq_true, decide_eq_true_eq]
    right
    omega

end AnnotatedString

/-- The state of the loop of `annotated`. -/
structure Loop where
  built : AnnotatedString
  run : KotlinString
  inMatch : Bool

namespace Loop

def flush (l : Loop) : Loop :=
  if l.run.isEmpty then l
  else
    { l with
      built := if l.inMatch then l.built.withStyle l.run else l.built.append l.run
      run := [] }

def read (l : Loop) (ch : UInt16) : Loop :=
  if ch = 2 then { l.flush with inMatch := true }
  else if ch = 3 then { l.flush with inMatch := false }
  else { l with run := l.run ++ [ch] }

/-- What has been built and what would be flushed. -/
def shown (l : Loop) : List (UInt16 × Bool) := l.built.drawn ++ l.run.map (·, l.inMatch)

theorem flush_drawn (l : Loop) : l.flush.built.drawn = l.shown ∧ l.flush.run = [] := by
  unfold flush shown
  by_cases hrun : l.run.isEmpty = true
  · rw [if_pos hrun, List.isEmpty_iff.mp hrun]
    exact ⟨(List.append_nil _).symm, rfl⟩
  · rw [if_neg hrun]
    refine ⟨?_, rfl⟩
    cases l.inMatch with
    | false => exact AnnotatedString.drawn_append _ _
    | true => exact AnnotatedString.drawn_withStyle _ _

theorem reads : Reads read (fun ch => [ch]) 2 3 inMatch shown := by
  have hflush : ∀ (l : Loop) (b : Bool),
      ({ l.flush with inMatch := b } : Loop).shown = l.shown := by
    intro l b
    obtain ⟨hbuilt, hrun⟩ := flush_drawn l
    rw [← hbuilt]
    show l.flush.built.drawn ++ l.flush.run.map (·, b) = _
    rw [hrun, List.map_nil, List.append_nil]
  constructor
  · intro l
    exact ⟨rfl, hflush l true⟩
  · intro l
    exact ⟨rfl, hflush l false⟩
  · intro l ch hopen hclose
    rw [read, if_neg hopen, if_neg hclose]
    refine ⟨rfl, ?_⟩
    show l.built.drawn ++ (l.run ++ [ch]).map (·, l.inMatch) = l.shown ++ _
    rw [List.map_append, ← List.append_assoc]
    rfl

end Loop

def annotated (marked pfx : KotlinString) : AnnotatedString :=
  let built := if pfx.isEmpty then .empty else AnnotatedString.empty.append pfx
  let read := marked.foldl Loop.read { built := built, run := [], inMatch := false }
  read.flush.built

theorem annotated_drawn (marked pfx : KotlinString) :
    (annotated marked pfx).drawn = pfx.map (·, false) ++ inside 2 3 false marked := by
  have hbuilt : (if pfx.isEmpty then AnnotatedString.empty
      else AnnotatedString.empty.append pfx).drawn = pfx.map (·, false) := by
    cases pfx with
    | nil => rfl
    | cons u pfx => exact AnnotatedString.drawn_append _ _
  rw [annotated, (Loop.flush_drawn _).1, Loop.reads.foldl, Loop.shown, hbuilt, List.map_nil,
    List.append_nil, spread_singleton]

end Android

/-! ### iOS: `Highlight.attributed` -/

namespace Ios

/-- The grapheme clusters of a string. A control character, other than a line break, is one of
its own. -/
structure Characters where
  characters : Text → List Text
  flatten : ∀ s, (characters s).flatten = s
  control : ∀ s, ∀ g ∈ characters s, ∀ c ∈ g, c.toNat < 0x20 → c ≠ '\r' → c ≠ '\n' → g = [c]

/-- The characters, each with whether it has the match style. -/
abbrev AttributedString := List (Char × Bool)

/-- The state of the loop of `attributed`. -/
structure Loop where
  result : AttributedString
  span : Text
  inMatch : Bool

namespace Loop

def flush (l : Loop) : Loop :=
  if l.span.isEmpty then l
  else { l with result := l.result ++ l.span.map (·, l.inMatch), span := [] }

def read (l : Loop) (ch : Text) : Loop :=
  if ch = [OPEN] then { l.flush with inMatch := true }
  else if ch = [CLOSE] then { l.flush with inMatch := false }
  else { l with span := l.span ++ ch }

def shown (l : Loop) : AttributedString := l.result ++ l.span.map (·, l.inMatch)

theorem flush_result (l : Loop) : l.flush.result = l.shown ∧ l.flush.span = [] := by
  unfold flush shown
  by_cases hspan : l.span.isEmpty = true
  · rw [if_pos hspan, List.isEmpty_iff.mp hspan]
    exact ⟨(List.append_nil _).symm, rfl⟩
  · rw [if_neg hspan]
    exact ⟨rfl, rfl⟩

theorem reads : Reads read id [OPEN] [CLOSE] inMatch shown := by
  have hflush : ∀ (l : Loop) (b : Bool),
      ({ l.flush with inMatch := b } : Loop).shown = l.shown := by
    intro l b
    obtain ⟨hresult, hspan⟩ := flush_result l
    rw [← hresult]
    show l.flush.result ++ l.flush.span.map (·, b) = _
    rw [hspan, List.map_nil, List.append_nil]
  constructor
  · intro l
    exact ⟨rfl, hflush l true⟩
  · intro l
    exact ⟨rfl, hflush l false⟩
  · intro l ch hopen hclose
    rw [read, if_neg hopen, if_neg hclose]
    refine ⟨rfl, ?_⟩
    show l.result ++ (l.span ++ ch).map (·, l.inMatch) = l.shown ++ ch.map (·, l.inMatch)
    rw [List.map_append, ← List.append_assoc]
    rfl

end Loop

def attributed (c : Characters) (marked : Text) : AttributedString :=
  let read := (c.characters marked).foldl Loop.read { result := [], span := [], inMatch := false }
  read.flush.result

theorem attributed_eq (c : Characters) (marked : Text) : attributed c marked = emphasis marked := by
  have hfree : ∀ g ∈ c.characters marked, g ≠ [OPEN] → g ≠ [CLOSE] → Free OPEN CLOSE g := by
    intro g hg hopen hclose a ha
    constructor
    · intro h
      subst h
      exact hopen (c.control marked g hg _ ha (by decide) (by decide) (by decide))
    · intro h
      subst h
      exact hclose (c.control marked g hg _ ha (by decide) (by decide) (by decide))
  have hkeeps : Keeps id [OPEN] [CLOSE] OPEN CLOSE (c.characters marked) :=
    ⟨by decide, rfl, rfl, hfree⟩
  have hread := inside_flatMap hkeeps false
  rw [List.flatMap_id, c.flatten] at hread
  rw [attributed, (Loop.flush_result _).1, Loop.reads.foldl, ← hread]
  rfl

end Ios

/-! ### Flutter: `_highlightedSpan` -/

namespace Flutter

/-- `String.runes`: a surrogate pair is one code point, a lone surrogate another. -/
def runes : List UInt16 → List ℕ
  | [] => []
  | [u] => [u.toNat]
  | u :: v :: rest =>
    if isHighSurrogate u && isLowSurrogate v then
      (0x10000 + (u.toNat - 0xD800) * 0x400 + (v.toNat - 0xDC00)) :: runes rest
    else u.toNat :: runes (v :: rest)

/-- `StringBuffer.writeCharCode`. -/
def charCodeUnits (rune : ℕ) : List UInt16 :=
  if rune < 0x10000 then [UInt16.ofNat rune]
  else
    [UInt16.ofNat (0xD800 + (rune - 0x10000) / 0x400),
      UInt16.ofNat (0xDC00 + (rune - 0x10000) % 0x400)]

/-- A `TextSpan` without children. -/
structure TextSpan where
  text : List UInt16
  matchStyle : Bool

/-- The state of the loop of `_highlightedSpan`. -/
structure Loop where
  children : List TextSpan
  buf : List UInt16
  inMatch : Bool

/-- The code units of spans, each with whether it has the match style. -/
def drawn (children : List TextSpan) : List (UInt16 × Bool) :=
  children.flatMap fun s => s.text.map (·, s.matchStyle)

namespace Loop

def flush (l : Loop) : Loop :=
  if l.buf.isEmpty then l
  else { l with children := l.children ++ [{ text := l.buf, matchStyle := l.inMatch }], buf := [] }

def read (l : Loop) (rune : ℕ) : Loop :=
  if rune = 0x02 then { l.flush with inMatch := true }
  else if rune = 0x03 then { l.flush with inMatch := false }
  else { l with buf := l.buf ++ charCodeUnits rune }

def shown (l : Loop) : List (UInt16 × Bool) := drawn l.children ++ l.buf.map (·, l.inMatch)

theorem flush_drawn (l : Loop) : drawn l.flush.children = l.shown ∧ l.flush.buf = [] := by
  unfold flush shown
  by_cases hbuf : l.buf.isEmpty = true
  · rw [if_pos hbuf, List.isEmpty_iff.mp hbuf]
    exact ⟨(List.append_nil _).symm, rfl⟩
  · rw [if_neg hbuf]
    refine ⟨?_, rfl⟩
    rw [drawn, List.flatMap_append, List.flatMap_singleton]
    rfl

theorem reads : Reads read charCodeUnits 0x02 0x03 inMatch shown := by
  have hflush : ∀ (l : Loop) (b : Bool),
      ({ l.flush with inMatch := b } : Loop).shown = l.shown := by
    intro l b
    obtain ⟨hchildren, hbuf⟩ := flush_drawn l
    rw [← hchildren]
    show drawn l.flush.children ++ l.flush.buf.map (·, b) = _
    rw [hbuf, List.map_nil, List.append_nil]
  constructor
  · intro l
    exact ⟨rfl, hflush l true⟩
  · intro l
    exact ⟨rfl, hflush l false⟩
  · intro l rune hopen hclose
    rw [read, if_neg hopen, if_neg hclose]
    refine ⟨rfl, ?_⟩
    show drawn l.children ++ (l.buf ++ charCodeUnits rune).map (·, l.inMatch) = l.shown ++ _
    rw [List.map_append, ← List.append_assoc]
    rfl

end Loop

def highlightedSpan (marked pfx : List UInt16) : List TextSpan :=
  let children := if pfx.isEmpty then [] else [{ text := pfx, matchStyle := false }]
  let read := (runes marked).foldl Loop.read { children := children, buf := [], inMatch := false }
  read.flush.children

theorem highlightedSpan_drawn (marked pfx : List UInt16) :
    drawn (highlightedSpan marked pfx) =
      pfx.map (·, false) ++ spread charCodeUnits (inside 0x02 0x03 false (runes marked)) := by
  have hchildren : drawn (if pfx.isEmpty then []
      else [{ text := pfx, matchStyle := false }]) = pfx.map (·, false) := by
    cases pfx with
    | nil => rfl
    | cons u pfx => exact List.append_nil _
  rw [highlightedSpan, (Loop.flush_drawn _).1, Loop.reads.foldl, Loop.shown, hchildren,
    List.map_nil, List.append_nil]

end Flutter

/-! ### The same characters are drawn -/

theorem toNat_ne {c d : Char} (h : c ≠ d) : c.toNat ≠ d.toNat :=
  fun heq => h (Char.toNat_inj.mp heq)

theorem charUnits_keeps (marked : Text) : Keeps charUnits OPEN CLOSE 2 3 marked := by
  refine ⟨by decide, by decide, by decide, fun a _ hopen hclose u hu => ?_⟩
  have h2 : a.toNat ≠ 2 := toNat_ne hopen
  have h3 : a.toNat ≠ 3 := toNat_ne hclose
  have hr := char_range a
  have hne : ∀ n : ℕ, n < 0x10000 → n ≠ 2 → n ≠ 3 →
      UInt16.ofNat n ≠ 2 ∧ UInt16.ofNat n ≠ 3 := by
    intro n hn hn2 hn3
    have hv := toNat_ofNat_of_lt hn
    constructor
    · intro h
      rw [h] at hv
      exact hn2 hv.symm
    · intro h
      rw [h] at hv
      exact hn3 hv.symm
  rw [charUnits] at hu
  by_cases hlt : a.toNat < 0x10000
  · rw [if_pos hlt, List.mem_singleton] at hu
    rw [hu]
    exact hne _ hlt h2 h3
  · rw [if_neg hlt] at hu
    rcases List.mem_cons.mp hu with rfl | hu
    · exact hne _ (by omega) (by omega) (by omega)
    · rw [List.mem_singleton.mp hu]
      exact hne _ (by omega) (by omega) (by omega)

theorem runes_charUnits (c : Char) (s : List UInt16) :
    Flutter.runes (charUnits c ++ s) = c.toNat :: Flutter.runes s := by
  have hr := char_range c
  rw [charUnits]
  by_cases h : c.toNat < 0x10000
  · have hu := toNat_ofNat_of_lt h
    have hh : isHighSurrogate (UInt16.ofNat c.toNat) = false := by
      simp only [isHighSurrogate, hu, Bool.and_eq_false_iff, decide_eq_false_iff_not]
      omega
    rw [if_pos h, List.singleton_append]
    cases s with
    | nil =>
      show [(UInt16.ofNat c.toNat).toNat] = [c.toNat]
      rw [hu]
    | cons v s => rw [Flutter.runes, hh, Bool.false_and, if_neg (by simp), hu]
  · have hu : (UInt16.ofNat (0xD800 + (c.toNat - 0x10000) / 0x400)).toNat =
        0xD800 + (c.toNat - 0x10000) / 0x400 := toNat_ofNat_of_lt (by omega)
    have hv : (UInt16.ofNat (0xDC00 + (c.toNat - 0x10000) % 0x400)).toNat =
        0xDC00 + (c.toNat - 0x10000) % 0x400 := toNat_ofNat_of_lt (by omega)
    have hpair : (isHighSurrogate (UInt16.ofNat (0xD800 + (c.toNat - 0x10000) / 0x400)) &&
        isLowSurrogate (UInt16.ofNat (0xDC00 + (c.toNat - 0x10000) % 0x400))) = true := by
      simp only [isHighSurrogate, isLowSurrogate, hu, hv, Bool.and_eq_true, decide_eq_true_eq]
      omega
    have hc : 0x10000 + (0xD800 + (c.toNat - 0x10000) / 0x400 - 0xD800) * 0x400 +
        (0xDC00 + (c.toNat - 0x10000) % 0x400 - 0xDC00) = c.toNat := by omega
    rw [if_neg h]
    show Flutter.runes (_ :: _ :: s) = _
    rw [Flutter.runes, if_pos hpair, hu, hv, hc]

theorem runes_utf16 (t : Text) : Flutter.runes (utf16 t) = t.flatMap fun c => [c.toNat] := by
  induction t with
  | nil => rfl
  | cons c t ih =>
    rw [utf16, List.flatMap_cons, runes_charUnits]
    show c.toNat :: Flutter.runes (utf16 t) = _
    rw [ih]
    rfl

/-- What the three samples draw of marked text after an unstyled beginning. -/
structure Draws (c : Ios.Characters) (marked : Text) (drawn : List (Char × Bool)) : Prop where
  android : ∀ pfx, (Android.annotated (utf16 marked) pfx).drawn =
    pfx.map (·, false) ++ spread charUnits drawn
  ios : Ios.attributed c marked = drawn
  flutter : ∀ pfx, Flutter.drawn (Flutter.highlightedSpan (utf16 marked) pfx) =
    pfx.map (·, false) ++ spread charUnits drawn

theorem draws_emphasis (c : Ios.Characters) (marked : Text) :
    Draws c marked (emphasis marked) := by
  constructor
  · intro pfx
    rw [Android.annotated_drawn, utf16, inside_flatMap (charUnits_keeps marked)]
    rfl
  · exact Ios.attributed_eq c marked
  · intro pfx
    have hkeeps : Keeps (fun c : Char => [c.toNat]) OPEN CLOSE 0x02 0x03 marked := by
      refine ⟨by decide, rfl, rfl, fun a _ hopen hclose n hn => ?_⟩
      rw [List.mem_singleton.mp hn]
      exact ⟨toNat_ne hopen, toNat_ne hclose⟩
    have hunits : (fun c : Char => [c.toNat].flatMap Flutter.charCodeUnits) = charUnits := by
      funext c
      exact List.append_nil _
    rw [Flutter.highlightedSpan_drawn, runes_utf16, inside_flatMap hkeeps, spread_spread, hunits]
    rfl

end Unfydqry.Sample
