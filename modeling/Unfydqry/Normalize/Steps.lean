import Unfydqry.Config

/-! # The normalization pipeline (`normalize/steps.rs`, `normalize/mod.rs`)

Each step is a function on texts. The three Unicode normalization forms and
`char::to_lowercase` come from outside the repository and are a parameter. -/

namespace Unfydqry

/-- The Unicode functions the steps call. -/
structure Unicode where
  nfkc : Text → Text
  nfd : Text → Text
  nfc : Text → Text
  toLowercase : Char → Text

namespace Steps

/-- `char::from_u32`. -/
def fromU32 (n : ℕ) : Option Char :=
  if n.isValidChar then some (Char.ofNat n) else none

/-- `lo..=hi` contains the scalar. -/
def within (lo hi : ℕ) (c : Char) : Bool := lo ≤ c.toNat && c.toNat ≤ hi

/-- `normalize::katakana_to_hiragana`. -/
def katakanaToHiragana (c : Char) : Char :=
  if within 0x30A1 0x30F6 c then (fromU32 (c.toNat - 0x60)).getD c else c

/-- `COMBINING_MARKS`. -/
def combiningMarks (c : Char) : Bool := within 0x0300 0x036F c

def isKana (c : Char) : Bool :=
  within 0x3041 0x3096 c || within 0x309D 0x309F c || within 0x30A1 0x30FF c

def isKanji (c : Char) : Bool :=
  within 0x3400 0x4DBF c || within 0x4E00 0x9FFF c || within 0xF900 0xFAFF c ||
    within 0x20000 0x2FFFF c

def isDash (c : Char) : Bool :=
  c.toNat == 0x002D || within 0x2010 0x2015 c || c.toNat == 0x2212 || c.toNat == 0xFF0D

def isVoiceableKana (c : Char) : Bool :=
  c ∈ "かきくけこさしすせそたちつてとはひふへほカキクケコサシスセソタチツテトハヒフヘホ".toList

def addDakuten (c : Char) : Char :=
  if isVoiceableKana c then (fromU32 (c.toNat + 1)).getD c else c

/-- `char::is_whitespace`, the `White_Space` property. -/
def isWhitespace (c : Char) : Bool :=
  within 0x0009 0x000D c || c.toNat == 0x0020 || c.toNat == 0x0085 || c.toNat == 0x00A0 ||
    c.toNat == 0x1680 || within 0x2000 0x200A c || c.toNat == 0x2028 || c.toNat == 0x2029 ||
    c.toNat == 0x202F || c.toNat == 0x205F || c.toNat == 0x3000

def isAsciiDigit (c : Char) : Bool := within 0x30 0x39 c

def lowercase (u : Unicode) (s : Text) : Text := s.flatMap u.toLowercase

def kanaFold (s : Text) : Text := s.map katakanaToHiragana

def foldDiacritics (u : Unicode) (s : Text) : Text :=
  u.nfc ((u.nfd s).filter fun c => !combiningMarks c)

/-- The loop of `fold_choonpu`; `prev` is `prev_is_kana`. -/
def foldChoonpuFrom (prev : Bool) : Text → Text
  | [] => []
  | c :: cs =>
    if c.toNat == 0x30FC && prev then foldChoonpuFrom prev cs
    else c :: foldChoonpuFrom (isKana c) cs

def foldChoonpu (s : Text) : Text := foldChoonpuFrom false s

/-- What stands for a mark after `last`, the last scalar written. -/
def replacement (last : Option Char) (c : Char) : Option Char :=
  if c.toNat == 0x3005 then last.filter isKanji
  else if c.toNat == 0x309D || c.toNat == 0x30FD then last.filter isKana
  else if c.toNat == 0x309E || c.toNat == 0x30FE then (last.filter isKana).map addDakuten
  else none

/-- The loop of `expand_iteration_marks`; `last` is `out.last()`. -/
def expandFrom (last : Option Char) : Text → Text
  | [] => []
  | c :: cs =>
    let r := (replacement last c).getD c
    r :: expandFrom (some r) cs

def expandIterationMarks (s : Text) : Text := expandFrom none s

def normalizeHyphens (s : Text) : Text := s.map fun c => if isDash c then '-' else c

/-- The loop of `strip_digit_grouping`; `prev` is the scalar before the current one. -/
def stripFrom (prev : Option Char) : Text → Text
  | [] => []
  | c :: cs =>
    if c == ',' && prev.any isAsciiDigit && cs.head?.any isAsciiDigit then stripFrom (some c) cs
    else c :: stripFrom (some c) cs

def stripDigitGrouping (s : Text) : Text := stripFrom none s

/-- The loop of `collapse_whitespace`; `started` says that `out` is non-empty. -/
def collapseFrom (pending started : Bool) : Text → Text
  | [] => []
  | c :: cs =>
    if isWhitespace c then collapseFrom true started cs
    else if pending && started then ' ' :: c :: collapseFrom false true cs
    else c :: collapseFrom false true cs

def collapseWhitespace (s : Text) : Text := collapseFrom false false s

end Steps

/-- `Composable::normalize`: NFKC, then the enabled steps in their fixed order. -/
def normalize (u : Unicode) (o : NormalizeOptions) (input : Text) : Text :=
  let s := u.nfkc input
  let s := if o.expandIterationMarks then Steps.expandIterationMarks s else s
  let s := if o.kanaFold then Steps.kanaFold s else s
  let s := if o.foldChoonpu then Steps.foldChoonpu s else s
  let s := if o.lowercase then Steps.lowercase u s else s
  let s := if o.foldDiacritics then Steps.foldDiacritics u s else s
  let s := if o.normalizeHyphens then Steps.normalizeHyphens s else s
  let s := if o.stripDigitGrouping then Steps.stripDigitGrouping s else s
  let s := if o.collapseWhitespace then Steps.collapseWhitespace s else s
  s

/-- The Unicode functions as they are on ASCII texts. -/
def Unicode.ascii : Unicode where
  nfkc := id
  nfd := id
  nfc := id
  toLowercase c := [c.toLower]

/-- The normal forms make no text of the empty one. -/
structure Unicode.KeepsEmpty (u : Unicode) : Prop where
  nfkc : u.nfkc [] = []
  nfd : u.nfd [] = []
  nfc : u.nfc [] = []

theorem normalize_nil {u : Unicode} (hu : u.KeepsEmpty) (o : NormalizeOptions) :
    normalize u o [] = [] := by
  have hdiacritics : Steps.foldDiacritics u [] = [] := by
    rw [Steps.foldDiacritics, hu.nfd, List.filter_nil, hu.nfc]
  have hstep : ∀ (b : Bool) (f : Text → Text), f [] = [] → (if b then f [] else []) = [] := by
    intro b f hf
    rw [hf, ite_self]
  unfold normalize
  dsimp only
  rw [hu.nfkc, hstep _ Steps.expandIterationMarks rfl, hstep _ Steps.kanaFold rfl,
    hstep _ Steps.foldChoonpu rfl, hstep _ (Steps.lowercase u) rfl,
    hstep _ (Steps.foldDiacritics u) hdiacritics, hstep _ Steps.normalizeHyphens rfl,
    hstep _ Steps.stripDigitGrouping rfl, hstep _ Steps.collapseWhitespace rfl]

end Unfydqry
