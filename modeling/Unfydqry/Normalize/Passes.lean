import Unfydqry.Normalize.Clusters
import Unfydqry.Normalize.FixedPoint

/-! # The steps on texts that differ in a few clusters

The clusters hold letters and marks that no step but lowercasing and folding diacritics
looks at, so the other steps leave them and do the same around them. -/

namespace Unfydqry

open Blocks (Differ)

namespace Steps

/-- `々`, `ゝ`, `ヽ`, `ゞ` and `ヾ`. -/
def isIterationMark (c : Char) : Bool :=
  c.toNat == 0x3005 || c.toNat == 0x309D || c.toNat == 0x30FD || c.toNat == 0x309E ||
    c.toNat == 0x30FE

/-- Kana, kanji and `々`, which the steps on kana read and write. -/
def isScript (c : Char) : Bool := isKana c || isKanji c || c.toNat == 0x3005

/-- No kana, no kanji, no iteration mark and no punctuation. -/
def isInert (c : Char) : Bool :=
  !(isKana c || isKanji c || c.toNat == 0x3005 || isDash c || c == ',' || isAsciiDigit c ||
    isWhitespace c)

/-- The steps on kana, in their order. -/
def foldKana (o : NormalizeOptions) (s : Text) : Text :=
  let s := if o.expandIterationMarks then expandIterationMarks s else s
  let s := if o.kanaFold then kanaFold s else s
  if o.foldChoonpu then foldChoonpu s else s

theorem normalize_eq (u : Unicode) (o : NormalizeOptions) (x : Text) :
    normalize u o x = punctuate o
      (let s := foldKana o (u.nfkc x)
        let s := if o.lowercase then lowercase u s else s
        if o.foldDiacritics then foldDiacritics u s else s) := rfl

/-- What each of the three steps keeps of two texts, they keep together. -/
theorem foldKana_related {R : Text → Text → Prop}
    (hexpand : ∀ s t, R s t → R (expandIterationMarks s) (expandIterationMarks t))
    (hkana : ∀ s t, R s t → R (kanaFold s) (kanaFold t))
    (hchoonpu : ∀ s t, R s t → R (foldChoonpu s) (foldChoonpu t))
    (o : NormalizeOptions) {s t : Text} (h : R s t) : R (foldKana o s) (foldKana o t) :=
  optional_related hchoonpu _ (optional_related hkana _ (optional_related hexpand _ h))

theorem foldKana_keeps {P : Text → Prop} (hexpand : ∀ s, P s → P (expandIterationMarks s))
    (hkana : ∀ s, P s → P (kanaFold s)) (hchoonpu : ∀ s, P s → P (foldChoonpu s))
    (o : NormalizeOptions) {s : Text} (h : P s) : P (foldKana o s) :=
  @foldKana_related (fun s _ => P s) (fun s _ => hexpand s) (fun s _ => hkana s)
    (fun s _ => hchoonpu s) o s s h

theorem replacement_unmarked {c : Char} (h : isIterationMark c = false) (last : Option Char) :
    replacement last c = none := by
  simp only [isIterationMark, Bool.or_eq_false_iff] at h
  rw [replacement, h.1.1.1.1, h.1.1.1.2, h.1.1.2, h.1.2, h.2]
  rfl

/-- Without marks the text stays, and its last scalar is the one to repeat. -/
theorem expandFrom_unmarked {p : Text} (hp : ∀ c ∈ p, isIterationMark c = false) (hne : p ≠ [])
    (last : Option Char) :
    ∃ a ∈ p, ∀ t, expandFrom last (p ++ t) = p ++ expandFrom (some a) t := by
  induction p generalizing last with
  | nil => exact absurd rfl hne
  | cons c p ih =>
    rw [List.forall_mem_cons] at hp
    have hstep : ∀ t, expandFrom last (c :: t) = c :: expandFrom (some c) t := by
      intro t
      rw [expandFrom, replacement_unmarked hp.1]
      rfl
    cases p with
    | nil => exact ⟨c, List.mem_cons_self .., hstep⟩
    | cons x p =>
      obtain ⟨a, ha, hrest⟩ := ih hp.2 (by simp) (some c)
      refine ⟨a, List.mem_cons_of_mem _ ha, fun t => ?_⟩
      rw [List.cons_append, hstep, hrest]
      rfl

section Inert

variable {c : Char} (h : isInert c = true)

include h

theorem inert_kana : isKana c = false ∧ isKanji c = false := by
  simp only [isInert, Bool.not_eq_true', Bool.or_eq_false_iff] at h
  exact ⟨h.1.1.1.1.1.1, h.1.1.1.1.1.2⟩

theorem inert_katakana : isKatakana c = false := by
  have hkana := (inert_kana h).1
  simp only [isKana, isKatakana, within, Bool.or_eq_false_iff, Bool.and_eq_false_iff,
    decide_eq_false_iff_not] at hkana ⊢
  omega

theorem inert_punctuation :
    isDash c = false ∧ c ≠ ',' ∧ isAsciiDigit c = false ∧ isWhitespace c = false := by
  simp only [isInert, Bool.not_eq_true', Bool.or_eq_false_iff, beq_eq_false_iff_ne] at h
  exact ⟨h.1.1.1.2, h.1.1.2, h.1.2, h.2⟩

theorem inert_unmarked : isIterationMark c = false := by
  have hkana := (inert_kana h).1
  simp only [isInert, Bool.not_eq_true', Bool.or_eq_false_iff, beq_eq_false_iff_ne] at h
  have hmark : c.toNat ≠ 0x3005 := h.1.1.1.1.2
  simp only [isKana, within, Bool.or_eq_false_iff, Bool.and_eq_false_iff,
    decide_eq_false_iff_not] at hkana
  simp only [isIterationMark, Bool.or_eq_false_iff, beq_eq_false_iff_ne]
  omega

end Inert

/-! ### One block -/

section Block

variable {p : Text} (hp : ∀ c ∈ p, isInert c = true)

include hp

theorem map_inert {f : Char → Char} (hf : ∀ c, isInert c = true → f c = c) : p.map f = p := by
  rw [List.map_congr_left fun c hc => hf c (hp c hc), List.map_id'' fun _ => rfl]

variable (hne : p ≠ [])

include hne

theorem foldChoonpuFrom_inert (prev : Bool) (t : Text) :
    foldChoonpuFrom prev (p ++ t) = p ++ foldChoonpuFrom false t := by
  induction p generalizing prev with
  | nil => exact absurd rfl hne
  | cons c p ih =>
    rw [List.forall_mem_cons] at hp
    have hkana := (inert_kana hp.1).1
    have hmark : (c.toNat == 0x30FC) = false := by
      rw [beq_eq_false_iff_ne]
      intro heq
      rw [isKana, within, within, within, heq] at hkana
      exact absurd hkana (by decide)
    rw [List.cons_append, foldChoonpuFrom, hmark, Bool.false_and, if_neg (by simp), hkana]
    cases p with
    | nil => rfl
    | cons x p => rw [ih hp.2 (by simp)]; rfl

theorem stripFrom_inert (prev : Option Char) :
    ∃ a, isInert a = true ∧ ∀ t, stripFrom prev (p ++ t) = p ++ stripFrom (some a) t := by
  induction p generalizing prev with
  | nil => exact absurd rfl hne
  | cons c p ih =>
    rw [List.forall_mem_cons] at hp
    have hcomma : (c == ',') = false := beq_eq_false_iff_ne.mpr (inert_punctuation hp.1).2.1
    have hstep : ∀ t, stripFrom prev (c :: t) = c :: stripFrom (some c) t := by
      intro t
      rw [stripFrom, hcomma, Bool.false_and, Bool.false_and, if_neg (by simp)]
    cases p with
    | nil => exact ⟨c, hp.1, hstep⟩
    | cons x p =>
      obtain ⟨a, ha, hrest⟩ := ih hp.2 (by simp) (some c)
      refine ⟨a, ha, fun t => ?_⟩
      rw [List.cons_append, hstep, hrest]
      rfl

theorem collapseFrom_inert (pending started : Bool) (t : Text) :
    collapseFrom pending started (p ++ t) =
      (if pending && started then [' '] else []) ++ (p ++ collapseFrom false true t) := by
  induction p generalizing pending started with
  | nil => exact absurd rfl hne
  | cons c p ih =>
    rw [List.forall_mem_cons] at hp
    have hspace := (inert_punctuation hp.1).2.2.2
    have hrest : collapseFrom false true (p ++ t) = p ++ collapseFrom false true t := by
      cases p with
      | nil => rfl
      | cons x p => rw [ih hp.2 (by simp)]; rfl
    rw [List.cons_append, collapseFrom, hspace, if_neg (by simp), hrest]
    split <;> rfl

end Block

/-! ### A text with blocks -/

/-- Blocks that the steps on kana and punctuation leave. -/
def InertBlocks (bs : List (Text × Text)) : Prop :=
  ∀ b ∈ bs, (∀ c ∈ b.1, isInert c = true) ∧ (∀ c ∈ b.2, isInert c = true) ∧ b.1 ≠ [] ∧ b.2 ≠ []

/-- An iteration mark after it repeats nothing. -/
def Calm (last : Option Char) : Prop := ∀ c, last = some c → isInert c = true

theorem replacement_calm {last : Option Char} (h : Calm last) (c : Char) :
    replacement last c = none := by
  cases last with
  | none => simp [replacement]
  | some a =>
    obtain ⟨hkana, hkanji⟩ := inert_kana (h a rfl)
    have hnone : (some a).filter isKana = none ∧ (some a).filter isKanji = none :=
      ⟨Option.filter_some_neg (by simp [hkana]), Option.filter_some_neg (by simp [hkanji])⟩
    simp only [replacement, hnone.1, hnone.2, Option.map_none, ite_self]

section Differ

variable {bs : List (Text × Text)} {s t : Text} (hbs : InertBlocks bs) (h : Differ bs s t)

include hbs h

theorem differ_map {f : Char → Char} (hf : ∀ c, isInert c = true → f c = c) :
    Differ bs (s.map f) (t.map f) := by
  have hid : (bs.map fun b => (b.1.map f, b.2.map f)) = bs := by
    refine (List.map_congr_left fun b hb => ?_).trans (List.map_id _)
    rw [map_inert (hbs b hb).1 hf, map_inert (hbs b hb).2.1 hf]
    rfl
  rw [← hid]
  exact h.map f

theorem differ_expandFrom {last last' : Option Char}
    (hlast : last = last' ∨ Calm last ∧ Calm last') :
    Differ bs (expandFrom last s) (expandFrom last' t) := by
  induction h generalizing last last' with
  | nil => exact .nil
  | same c h ih =>
    have hr : replacement last c = replacement last' c := by
      rcases hlast with rfl | ⟨hl, hl'⟩
      · rfl
      · rw [replacement_calm hl, replacement_calm hl']
    rw [expandFrom, expandFrom, hr]
    exact .same _ (ih hbs (.inl rfl))
  | block p q h ih =>
    rw [InertBlocks, List.forall_mem_cons] at hbs
    obtain ⟨a, ha, hp⟩ := expandFrom_unmarked (fun c hc => inert_unmarked (hbs.1.1 c hc))
      hbs.1.2.2.1 last
    obtain ⟨b, hb, hq⟩ := expandFrom_unmarked (fun c hc => inert_unmarked (hbs.1.2.1 c hc))
      hbs.1.2.2.2 last'
    rw [hp, hq]
    refine .block p q (ih hbs.2 (.inr ⟨fun c hc => ?_, fun c hc => ?_⟩))
    · cases hc
      exact hbs.1.1 a ha
    · cases hc
      exact hbs.1.2.1 b hb

theorem differ_foldChoonpuFrom (prev : Bool) :
    Differ bs (foldChoonpuFrom prev s) (foldChoonpuFrom prev t) := by
  induction h generalizing prev with
  | nil => exact .nil
  | same c h ih =>
    rw [foldChoonpuFrom, foldChoonpuFrom]
    split
    · exact ih hbs prev
    · exact .same c (ih hbs _)
  | block p q h ih =>
    rw [InertBlocks, List.forall_mem_cons] at hbs
    rw [foldChoonpuFrom_inert hbs.1.1 hbs.1.2.2.1, foldChoonpuFrom_inert hbs.1.2.1 hbs.1.2.2.2]
    exact .block p q (ih hbs.2 false)

theorem differ_head_digit : s.head?.any isAsciiDigit = t.head?.any isAsciiDigit := by
  cases h with
  | nil => rfl
  | same c h => rfl
  | block p q h =>
    rw [InertBlocks, List.forall_mem_cons] at hbs
    have hhead : ∀ {p : Text}, (∀ c ∈ p, isInert c = true) → p ≠ [] → ∀ t : Text,
        (p ++ t).head?.any isAsciiDigit = false := by
      intro p hp hne t
      cases p with
      | nil => exact absurd rfl hne
      | cons c p => exact (inert_punctuation (hp c (List.mem_cons_self ..))).2.2.1
    rw [hhead hbs.1.1 hbs.1.2.2.1, hhead hbs.1.2.1 hbs.1.2.2.2]

theorem differ_stripFrom {prev prev' : Option Char}
    (hprev : prev.any isAsciiDigit = prev'.any isAsciiDigit) :
    Differ bs (stripFrom prev s) (stripFrom prev' t) := by
  induction h generalizing prev prev' with
  | nil => exact .nil
  | same c h ih =>
    rw [stripFrom, stripFrom, hprev, differ_head_digit hbs h]
    split
    · exact ih hbs rfl
    · exact .same c (ih hbs rfl)
  | block p q h ih =>
    rw [InertBlocks, List.forall_mem_cons] at hbs
    obtain ⟨a, ha, hp⟩ := stripFrom_inert hbs.1.1 hbs.1.2.2.1 prev
    obtain ⟨b, hb, hq⟩ := stripFrom_inert hbs.1.2.1 hbs.1.2.2.2 prev'
    rw [hp, hq]
    refine .block p q (ih hbs.2 ?_)
    rw [Option.any_some, Option.any_some, (inert_punctuation ha).2.2.1,
      (inert_punctuation hb).2.2.1]

theorem differ_collapseFrom (pending started : Bool) :
    Differ bs (collapseFrom pending started s) (collapseFrom pending started t) := by
  induction h generalizing pending started with
  | nil => exact .nil
  | same c h ih =>
    rw [collapseFrom, collapseFrom]
    split
    · exact ih hbs true started
    · split
      · exact .same _ (.same _ (ih hbs _ _))
      · exact .same _ (ih hbs _ _)
  | block p q h ih =>
    rw [InertBlocks, List.forall_mem_cons] at hbs
    rw [collapseFrom_inert hbs.1.1 hbs.1.2.2.1, collapseFrom_inert hbs.1.2.1 hbs.1.2.2.2]
    exact .prepend (.block p q (ih hbs.2 _ _)) _

theorem differ_foldKana (o : NormalizeOptions) : Differ bs (foldKana o s) (foldKana o t) :=
  @foldKana_related (Differ bs) (fun _ _ h => differ_expandFrom hbs h (.inl rfl))
    (fun _ _ h => differ_map hbs h fun _ hc => katakanaToHiragana_of_not (inert_katakana hc))
    (fun _ _ h => differ_foldChoonpuFrom hbs h false) o _ _ h

theorem differ_punctuate (o : NormalizeOptions) : Differ bs (punctuate o s) (punctuate o t) := by
  refine @punctuate_related (Differ bs) (fun _ _ h => differ_map hbs h fun c hc => ?_)
    (fun _ _ h => differ_stripFrom hbs h rfl)
    (fun _ _ h => differ_collapseFrom hbs h false false) o _ _ h
  rw [(inert_punctuation hc).1, if_neg (by simp)]

end Differ

end Steps

end Unfydqry
