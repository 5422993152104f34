import Unfydqry.Normalize.CaseVariants

/-! # Texts in NFKC pieces

After the steps on kana and `lowercase` a text need not be in NFKC, but it is made of texts
in NFKC and of letters with the marks after them. NFKC then works on these clusters alone. -/

namespace Unfydqry

open Blocks (Differ)
open Steps

/-- `U+3099` and `U+309A`, the marks that compose with kana. -/
def isVoicing (c : Char) : Bool := c.toNat == 0x3099 || c.toNat == 0x309A

/-- A letter that composes with nothing before it, and after it with marks only. -/
structure Unicode.Starts (u : Unicode) (mark : Char → Bool) (c : Char) : Prop where
  before : ∀ x y, u.nfkc (x ++ c :: y) = u.nfkc x ++ u.nfkc (c :: y)
  after : ∀ m a y, (∀ b ∈ m, mark b = true) → mark a = false →
    u.nfkc (c :: (m ++ a :: y)) = u.nfkc (c :: m) ++ u.nfkc (a :: y)
  letter : mark c = false

/-- What the second run relies on of kana, kanji and iteration marks. -/
structure Script (u : Unicode) (d : CharData) (mark : Char → Bool) : Prop where
  starts : ∀ c, isScript c = true → u.Starts mark c
  marks : ∀ b, mark b = true → isInert b = true
  cased : ∀ c, u.Cased c → isInert c = true
  lower : ∀ c, isScript c = true → u.toLowercase c = [c]
  voiced : ∀ c, isVoiceableKana c = true → u.nfkc [addDakuten c] = [addDakuten c]
  /-- Such a letter composes with a voicing mark if with any. -/
  composes : ∀ c m, isScript c = true → u.nfkc [c] = [c] → (∀ b ∈ m, mark b = true) →
    u.nfkc m = m →
      u.nfkc (c :: m) = c :: m ∨ (u.nfkc (c :: m)).countP isVoicing < (c :: m).countP isVoicing
  /-- Only kana have a voicing mark in their decomposition. -/
  canon_voicing : ∀ c, isKana c = false → (d.canon c).countP isVoicing = [c].countP isVoicing
  canon_marks : ∀ c, (d.canon c).countP isIterationMark = [c].countP isIterationMark
  canon_choonpu : ∀ c, (d.canon c).countP (·.toNat == 0x30FC) = [c].countP (·.toNat == 0x30FC)
  /-- An iteration mark decomposes to one and its dakuten, and no two to the same. -/
  canon_mark : ∀ c, isIterationMark c = true → ∃ a, isIterationMark a = true ∧ d.ccc a = 0 ∧
    (d.canon c = [a] ∨ d.canon c = [a, dakuten])
  canon_inj : ∀ c b, isIterationMark c = true → isIterationMark b = true →
    d.canon c = d.canon b → c = b

/-- The letters the steps on kana and `lowercase` write. -/
def Unicode.isWritten (u : Unicode) (c : Char) : Bool := isScript c || u.isCapital c

/-- Pieces in NFKC of scalars in `G`, with clusters in `L` between them. -/
inductive Pieces (u : Unicode) (mark : Char → Bool) (G : Char → Prop) (L : Char → Text → Prop) :
    Text → Prop where
  | piece {q : Text} (hq : u.nfkc q = q) (hG : ∀ a ∈ q, G a) : Pieces u mark G L q
  | cluster {q m r : Text} {c : Char} (hq : u.nfkc q = q) (hG : ∀ a ∈ q, G a)
    (hc : u.Starts mark c) (hm : ∀ b ∈ m, mark b = true) (hL : L c m)
    (hr : ∀ a y, r = a :: y → mark a = false) (h : Pieces u mark G L r) :
    Pieces u mark G L (q ++ c :: (m ++ r))

section Pieces

variable {u : Unicode} {d : CharData} {mark : Char → Bool} {G : Char → Prop}
  {L : Char → Text → Prop} (hn : u.NormalForms d)

include hn

/-! ### The form of a text in pieces -/

theorem Unicode.Starts.split {c : Char} (hc : u.Starts mark c) {m r : Text}
    (hm : ∀ b ∈ m, mark b = true) (hr : ∀ a y, r = a :: y → mark a = false) (q : Text) :
    u.nfkc (q ++ c :: (m ++ r)) = u.nfkc q ++ (u.nfkc (c :: m) ++ u.nfkc r) := by
  rw [hc.before]
  cases r with
  | nil => rw [nfkc_nil hn, List.append_nil, List.append_nil]
  | cons a y => rw [hc.after m a y hm (hr a y rfl)]

/-- The form differs in clusters. -/
theorem Pieces.differ {s : Text} (h : Pieces u mark G L s) :
    ∃ bs, Differ bs s (u.nfkc s) ∧ ∀ b ∈ bs, ∃ c m, b = (c :: m, u.nfkc (c :: m)) ∧ L c m ∧
      (∀ a ∈ m, mark a = true) ∧ ∀ a ∈ c :: m, a ∈ s := by
  induction h with
  | piece hq _ =>
    rw [hq]
    exact ⟨[], .refl _, by simp⟩
  | @cluster q m r c hq _ hc hm hL hr _ ih =>
    obtain ⟨bs, hdiffer, hbs⟩ := ih
    refine ⟨(c :: m, u.nfkc (c :: m)) :: bs, ?_, List.forall_mem_cons.mpr ⟨?_, fun b hb => ?_⟩⟩
    · rw [hc.split hn hm hr, hq]
      exact (Differ.block (c :: m) _ hdiffer).prepend q
    · exact ⟨c, m, rfl, hL, hm, fun a ha => by
        rw [← List.cons_append]
        exact List.mem_append_right q (List.mem_append_left r ha)⟩
    · obtain ⟨c', m', hb, hL', hm', hmem⟩ := hbs b hb
      exact ⟨c', m', hb, hL', hm', fun a ha => List.mem_append_right q
        (List.mem_cons_of_mem c (List.mem_append_right m (hmem a ha)))⟩

/-! ### Pieces under punctuation -/

/-- Punctuation is cut out of a piece. -/
theorem Pieces.cut {s : Text} (h : Pieces u mark G L s) {j : Char} {p q : Text}
    (hs : s = p ++ j :: q) (hj : ∀ a m, L a m → a ≠ j) (hmark : mark j = false) :
    Pieces u mark G L p ∧ Pieces u mark G L q := by
  induction h generalizing p with
  | piece hq hG =>
    subst hs
    obtain ⟨hp, htail⟩ := hn.nfkc_substring p (j :: q) hq
    rw [List.forall_mem_append, List.forall_mem_cons] at hG
    exact ⟨.piece hp hG.1, .piece (hn.nfkc_substring [j] q htail).2 hG.2.2⟩
  | @cluster q₀ m r c hq hG hc hm hL hr h ih =>
    rcases List.append_eq_append_iff.mp hs with ⟨e, rfl, he⟩ | ⟨e, rfl, he⟩
    · cases e with
      | nil => exact absurd (List.cons.inj he).1 (hj c m hL)
      | cons a e =>
        obtain ⟨rfl, hrest⟩ := List.cons.inj he
        -- the cut is behind the letter, so behind its marks
        rcases List.append_eq_append_iff.mp hrest with ⟨f, rfl, rfl⟩ | ⟨f, rfl, hf⟩
        · obtain ⟨hleft, hright⟩ := ih rfl
          refine ⟨.cluster hq hG hc hm hL (fun a y hay => ?_) hleft, hright⟩
          rw [hay] at hr
          exact hr a _ rfl
        · cases f with
          | nil =>
            obtain ⟨hleft, hright⟩ := ih (p := []) hf.symm
            rw [List.append_nil] at hm hL
            have hcut : Pieces u mark G L (q₀ ++ c :: (e ++ [])) :=
              .cluster hq hG hc hm hL (by simp) hleft
            rw [List.append_nil] at hcut
            exact ⟨hcut, hright⟩
          | cons b f =>
            obtain ⟨rfl, _⟩ := List.cons.inj hf
            rw [hm j (by simp)] at hmark
            cases hmark
    · cases e with
      | nil => exact absurd (List.cons.inj he).1.symm (hj c m hL)
      | cons a e =>
        obtain ⟨rfl, rfl⟩ := List.cons.inj he
        obtain ⟨hp, htail⟩ := hn.nfkc_substring p (j :: e) hq
        rw [List.forall_mem_append, List.forall_mem_cons] at hG
        exact ⟨.piece hp hG.1,
          .cluster (hn.nfkc_substring [j] e htail).2 hG.2.2 hc hm hL hr h⟩

omit hn in
theorem Pieces.join (hs : u.Scalars d) {p q : Text} {b : Char} (hp : Pieces u mark G L p)
    (hq : Pieces u mark G L q) (hb : isPlain b = true) (hG : G b) (hmark : mark b = false) :
    Pieces u mark G L (p ++ b :: q) := by
  induction hp with
  | @piece p₀ hp hGp =>
    have hpiece : ∀ q₀ : Text, u.nfkc q₀ = q₀ → (∀ a ∈ q₀, G a) →
        u.nfkc (p₀ ++ b :: q₀) = p₀ ++ b :: q₀ ∧ ∀ a ∈ p₀ ++ b :: q₀, G a := fun q₀ hq₀ hGq =>
      ⟨hs.nfkc_plain b p₀ q₀ hb hp hq₀, List.forall_mem_append.mpr
        ⟨hGp, List.forall_mem_cons.mpr ⟨hG, hGq⟩⟩⟩
    cases hq with
    | piece hq hGq =>
      obtain ⟨hform, hall⟩ := hpiece _ hq hGq
      exact .piece hform hall
    | @cluster q₀ m r c hq hGq hc hm hL hr h =>
      obtain ⟨hform, hall⟩ := hpiece q₀ hq hGq
      have hjoined := Pieces.cluster hform hall hc hm hL hr h
      rwa [List.append_assoc] at hjoined
  | @cluster p₀ m r c hp hGp hc hm hL hr _ ih =>
    rw [List.append_assoc, List.cons_append, List.append_assoc]
    refine .cluster hp hGp hc hm hL (fun a y hay => ?_) ih
    cases r with
    | nil =>
      obtain ⟨rfl, _⟩ := List.cons.inj hay
      exact hmark
    | cons x r =>
      obtain ⟨rfl, _⟩ := List.cons.inj hay
      exact hr _ r rfl

end Pieces

/-! ### Pieces through the steps on letters -/

/-- A text in pieces whose clusters are those of kana, kanji and capitals. -/
def KanaPieces (u : Unicode) (mark : Char → Bool) : Text → Prop :=
  Pieces u mark (fun a => u.isWritten a = false) fun c m => u.isWritten c = true ∧ u.nfkc m = m

/-- A text in pieces whose clusters are those of kana, kanji and letters with a case. -/
def LowerPieces (u : Unicode) (mark : Char → Bool) : Text → Prop :=
  Pieces u mark (fun _ => True) fun c m => u.Cased c ∨ isScript c = true ∧ u.nfkc m = m

theorem expandFrom_append_unmarked {q : Text} (hq : ∀ c ∈ q, isIterationMark c = false)
    (last : Option Char) : ∃ last', ∀ t, expandFrom last (q ++ t) = q ++ expandFrom last' t := by
  cases q with
  | nil => exact ⟨last, fun _ => rfl⟩
  | cons c q =>
    obtain ⟨a, _, ha⟩ := expandFrom_unmarked hq (List.cons_ne_nil c q) last
    exact ⟨some a, ha⟩

theorem not_isIterationMark_of_not_isScript {c : Char} (h : isScript c = false) :
    isIterationMark c = false :=
  Bool.eq_false_iff.mpr fun hmark => by
    rw [isScript_of_isIterationMark hmark] at h
    cases h

theorem not_isKana_of_not_isScript {c : Char} (h : isScript c = false) : isKana c = false :=
  Bool.eq_false_iff.mpr fun hkana => by
    rw [isScript_of_isKana hkana] at h
    cases h

theorem not_isScript_of_isInert {c : Char} (h : isInert c = true) : isScript c = false := by
  simp only [isInert, Bool.not_eq_true', Bool.or_eq_false_iff] at h
  rw [isScript, h.1.1.1.1.1.1, h.1.1.1.1.1.2, h.1.1.1.1.2]
  rfl

section Steps

variable {u : Unicode} {d : CharData} {mark : Char → Bool} (hn : u.NormalForms d)
  (hm : u.Segments mark) (hc : Casing u d mark) (hk : Script u d mark)

include hm hk

theorem starts_of_isWritten {c : Char} (h : u.isWritten c = true) : u.Starts mark c := by
  rcases Bool.or_eq_true_iff.mp h with h | h
  · exact hk.starts c h
  · exact ⟨fun x y => hm.before c x y (.inl h), fun m a y => hm.after c m a y (.inl h),
      hm.letter c (.inl h)⟩

omit hk in
theorem starts_of_cased {c : Char} (h : u.Cased c) : u.Starts mark c := by
  have hletter : u.Letter c := h.elim .inl fun h => .inr (.inl h)
  exact ⟨fun x y => hm.before c x y hletter, fun m a y => hm.after c m a y hletter,
    hm.letter c hletter⟩

omit hm in
theorem not_isScript_of_mark {b : Char} (h : mark b = true) : isScript b = false :=
  not_isScript_of_isInert (hk.marks b h)

omit hm hk in
theorem not_isWritten {q : Text} (hq : ∀ a ∈ q, u.isWritten a = false) :
    (∀ a ∈ q, isScript a = false) ∧ ∀ a ∈ q, u.isCapital a = false :=
  ⟨fun a ha => (Bool.or_eq_false_iff.mp (hq a ha)).1,
    fun a ha => (Bool.or_eq_false_iff.mp (hq a ha)).2⟩

include hn

theorem kanaPieces_of_nfkc {s : Text} (h : u.nfkc s = s) : KanaPieces u mark s := by
  induction hlen : s.length using Nat.strong_induction_on generalizing s with
  | _ n ih =>
  rcases cluster_cases u.isWritten mark s with hnone | ⟨q, c, m, r, rfl, hq, hc, hmarks, hr⟩
  · exact .piece h hnone
  · obtain ⟨hstable, htail⟩ := hn.nfkc_substring q _ h
    have hrest := (hn.nfkc_substring [c] (m ++ r) htail).2
    obtain ⟨hmstable, hrstable⟩ := hn.nfkc_substring m r hrest
    refine .cluster hstable hq (starts_of_isWritten hm hk hc) hmarks ⟨hc, hmstable⟩ hr
      (ih r.length ?_ hrstable rfl)
    rw [← hlen]
    simp only [List.length_append, List.length_cons]
    omega

omit hn

theorem KanaPieces.expandFrom {s : Text} (h : KanaPieces u mark s) (last : Option Char) :
    KanaPieces u mark (expandFrom last s) := by
  induction h generalizing last with
  | @piece q hq hG =>
    obtain ⟨last', hexpand⟩ := expandFrom_append_unmarked (fun a ha =>
      not_isIterationMark_of_not_isScript ((not_isWritten hG).1 a ha)) last
    have hsame := hexpand []
    rw [List.append_nil] at hsame
    rw [hsame]
    exact .piece (by rw [Steps.expandFrom, List.append_nil, hq]) (by
      rw [Steps.expandFrom, List.append_nil]
      exact hG)
  | @cluster q m r c hq hG hc hmarks hL hr _ ih =>
    obtain ⟨last', hpre⟩ := expandFrom_append_unmarked (fun a ha =>
      not_isIterationMark_of_not_isScript ((not_isWritten hG).1 a ha)) last
    have hletter : u.isWritten ((replacement last' c).getD c) = true := by
      cases hr : replacement last' c with
      | none => exact hL.1
      | some a => rw [Option.getD_some, Unicode.isWritten, (replacement_script hr).2]; rfl
    obtain ⟨last'', hpost⟩ := expandFrom_append_unmarked (q := m) (fun b hb =>
      not_isIterationMark_of_not_isScript (not_isScript_of_mark hk (hmarks b hb)))
      (some ((replacement last' c).getD c))
    rw [hpre, Steps.expandFrom, hpost]
    refine .cluster hq hG (starts_of_isWritten hm hk hletter) hmarks ⟨hletter, hL.2⟩
      (fun a y hay => ?_) (ih last'')
    cases r with
    | nil => cases hay
    | cons b r =>
      rw [Steps.expandFrom, List.cons.injEq] at hay
      rw [← hay.1]
      cases hb : replacement last'' b with
      | none => exact hr b r rfl
      | some a => exact (hk.starts a (replacement_script hb).2).letter

theorem KanaPieces.kanaFold {s : Text} (h : KanaPieces u mark s) :
    KanaPieces u mark (kanaFold s) := by
  have hsame : ∀ q : Text, (∀ a ∈ q, isScript a = false) → Steps.kanaFold q = q := by
    intro q hq
    refine (List.map_congr_left fun a ha => katakanaToHiragana_of_not ?_).trans (List.map_id q)
    refine Bool.eq_false_iff.mpr fun hkata => ?_
    have hscript := isScript_of_isKana (isKana_of_letter (.inl hkata))
    rw [hq a ha] at hscript
    cases hscript
  have hletter : ∀ c, katakanaToHiragana c = c ∨ isScript (katakanaToHiragana c) = true := by
    intro c
    cases hkata : isKatakana c with
    | false => exact .inl (katakanaToHiragana_of_not hkata)
    | true =>
      exact .inr (isScript_of_isKana
        (isKana_of_letter (.inr (isHiragana_katakanaToHiragana hkata))))
  induction h with
  | piece hq hG =>
    rw [hsame _ (not_isWritten hG).1]
    exact .piece hq hG
  | @cluster q m r c hq hG hc hmarks hL hr _ ih =>
    have hfold : Steps.kanaFold (q ++ c :: (m ++ r)) =
        q ++ katakanaToHiragana c :: (m ++ Steps.kanaFold r) := by
      have hmap : ∀ x y : Text, Steps.kanaFold (x ++ y) = Steps.kanaFold x ++ Steps.kanaFold y :=
        fun _ _ => List.map_append
      have hcons : Steps.kanaFold (c :: (m ++ r)) =
          katakanaToHiragana c :: Steps.kanaFold (m ++ r) := rfl
      rw [hmap, hcons, hmap, hsame q (not_isWritten hG).1,
        hsame m fun b hb => not_isScript_of_mark hk (hmarks b hb)]
    have hwritten : u.isWritten (katakanaToHiragana c) = true := by
      rcases hletter c with h | h
      · rw [h]
        exact hL.1
      · rw [Unicode.isWritten, h]
        rfl
    rw [hfold]
    refine .cluster hq hG (starts_of_isWritten hm hk hwritten) hmarks ⟨hwritten, hL.2⟩
      (fun a y hay => ?_) ih
    cases r with
    | nil => cases hay
    | cons b r =>
      rw [← (List.cons.inj hay).1]
      rcases hletter b with h | h
      · rw [h]
        exact hr b r rfl
      · exact (hk.starts _ h).letter

omit hm hk in
theorem foldChoonpuFrom_append {q : Text} (hq : ∀ a ∈ q, isScript a = false) (prev : Bool)
    (t : Text) :
    foldChoonpuFrom prev (q ++ t) = q ++ foldChoonpuFrom (q.isEmpty && prev) t := by
  induction q generalizing prev with
  | nil => rfl
  | cons c q ih =>
    rw [List.forall_mem_cons] at hq
    have hkana := not_isKana_of_not_isScript hq.1
    have hkeep : ¬ (c.toNat == 0x30FC && prev) = true := by
      rw [Bool.and_eq_true, beq_iff_eq]
      rintro ⟨hc, _⟩
      simp [isKana, within, hc] at hkana
    rw [List.cons_append, foldChoonpuFrom, if_neg hkeep, hkana, ih hq.2, Bool.and_false]
    rfl

include hn

/-- A dropped `ー` leaves its marks to the letter before it. -/
theorem KanaPieces.foldChoonpuFrom {s : Text} (h : KanaPieces u mark s) :
    KanaPieces u mark (foldChoonpuFrom false s) ∧
      ∀ {q b}, u.nfkc q = q → (∀ a ∈ q, u.isWritten a = false) → u.isWritten b = true →
        (∀ a y, s = a :: y → mark a = false) →
          KanaPieces u mark (q ++ b :: foldChoonpuFrom true s) := by
  have hbare : ∀ {q b t}, u.nfkc q = q → (∀ a ∈ q, u.isWritten a = false) →
      u.isWritten b = true → (∀ a y, t = a :: y → mark a = false) → KanaPieces u mark t →
        KanaPieces u mark (q ++ b :: t) := by
    intro q b t hq hG hb ht h
    exact Pieces.cluster (m := []) hq hG (starts_of_isWritten hm hk hb) (by simp)
      ⟨hb, nfkc_nil hn⟩ ht h
  induction h with
  | @piece q₀ hq₀ hG₀ =>
    have hsame : ∀ prev, Steps.foldChoonpuFrom prev q₀ = q₀ := by
      intro prev
      have happend := foldChoonpuFrom_append (not_isWritten hG₀).1 prev []
      rwa [List.append_nil, Steps.foldChoonpuFrom, List.append_nil] at happend
    rw [hsame, hsame]
    exact ⟨.piece hq₀ hG₀, fun hq hG hb hs => hbare hq hG hb hs (.piece hq₀ hG₀)⟩
  | @cluster q₀ m r c hq₀ hG₀ hc hmarks hL hr _ ih =>
    obtain ⟨hrest, hafter⟩ := ih
    have hhead : ∀ a y, Steps.foldChoonpuFrom false r = a :: y → mark a = false := by
      intro a y hay
      cases r with
      | nil => cases hay
      | cons x r =>
        rw [Steps.foldChoonpuFrom, Bool.and_false, if_neg (by simp)] at hay
        rw [← (List.cons.inj hay).1]
        exact hr x r rfl
    -- a letter in front of the marks, whether it is `c` or the one before a dropped `c`
    have hmarked : ∀ {q b} prev, u.nfkc q = q → (∀ a ∈ q, u.isWritten a = false) →
        u.isWritten b = true →
          KanaPieces u mark (q ++ b :: Steps.foldChoonpuFrom prev (m ++ r)) := by
      intro q b prev hq hG hb
      rw [foldChoonpuFrom_append fun a ha => not_isScript_of_mark hk (hmarks a ha)]
      cases hprev : m.isEmpty && prev with
      | false => exact .cluster hq hG (starts_of_isWritten hm hk hb) hmarks ⟨hb, hL.2⟩ hhead hrest
      | true =>
        have hnil : m = [] := List.isEmpty_iff.mp (Bool.and_eq_true_iff.mp hprev).1
        rw [hnil]
        exact hafter hq hG hb hr
    have hkept : Steps.foldChoonpuFrom false (c :: (m ++ r)) =
        c :: Steps.foldChoonpuFrom (isKana c) (m ++ r) := by
      rw [Steps.foldChoonpuFrom, Bool.and_false, if_neg (by simp)]
    have hfirst : KanaPieces u mark (q₀ ++ c :: Steps.foldChoonpuFrom (isKana c) (m ++ r)) :=
      hmarked _ hq₀ hG₀ hL.1
    rw [foldChoonpuFrom_append (not_isWritten hG₀).1, foldChoonpuFrom_append (not_isWritten hG₀).1,
      Bool.and_false, hkept]
    refine ⟨hfirst, fun {q b} hq hG hb hs => ?_⟩
    cases q₀ with
    | nil =>
      rw [List.isEmpty_nil, Bool.true_and, List.nil_append, Steps.foldChoonpuFrom]
      split
      · exact hmarked true hq hG hb
      · refine hbare hq hG hb (fun a y hay => ?_) hfirst
        rw [← (List.cons.inj hay).1]
        exact hc.letter
    | cons x q₀ =>
      rw [List.isEmpty_cons, Bool.false_and, hkept]
      refine hbare hq hG hb (fun a y hay => ?_) hfirst
      rw [← (List.cons.inj hay).1]
      exact hs x _ rfl

theorem KanaPieces.foldKana {s : Text} (h : KanaPieces u mark s) (o : NormalizeOptions) :
    KanaPieces u mark (foldKana o s) :=
  foldKana_keeps (fun _ h => h.expandFrom hm hk none) (fun _ h => h.kanaFold hm hk)
    (fun _ h => (h.foldChoonpuFrom hn hm hk).1) o h

/-! ### Lowercasing -/

omit hn hm hk in
theorem lowered_append (o : NormalizeOptions) (s t : Text) :
    lowered u o (s ++ t) = lowered u o s ++ lowered u o t := by
  unfold lowered
  split
  · exact List.flatMap_append
  · rfl

omit hn hm hk in
theorem lowered_of_not_capital {o : NormalizeOptions} {q : Text}
    (hq : ∀ a ∈ q, u.isCapital a = false) : lowered u o q = q := by
  have hid : ∀ a ∈ q, u.toLowercase a = [a] := by
    intro a ha
    simpa [Unicode.isCapital] using hq a ha
  unfold lowered
  split
  · exact (List.flatMap_congr hid).trans (List.flatMap_singleton' q)
  · rfl

omit hn hm in
theorem not_isCapital_of_isScript {c : Char} (h : isScript c = true) : u.isCapital c = false := by
  rw [Unicode.isCapital, hk.lower c h, bne_self_eq_false]

omit hn hk in
theorem not_isCapital_of_mark {b : Char} (h : mark b = true) : u.isCapital b = false :=
  Bool.eq_false_iff.mpr fun hcap => by
    rw [hm.letter b (.inl hcap)] at h
    cases h

include hc

omit hn in
theorem lowered_cluster (o : NormalizeOptions) {c : Char} {m : Text} (h : u.isWritten c = true)
    (hmarks : ∀ b ∈ m, mark b = true) :
    ∃ a m', lowered u o (c :: m) = a :: m' ∧ u.Starts mark a ∧ (∀ b ∈ m', mark b = true) ∧
      (u.Cased a ∨ isScript a = true ∧ m' = m) := by
  have hstarts := starts_of_isWritten hm hk h
  rcases Bool.or_eq_true_iff.mp h with hscript | hcap
  · have hsame : lowered u o (c :: m) = c :: m :=
      lowered_of_not_capital (List.forall_mem_cons.mpr ⟨not_isCapital_of_isScript hk hscript,
        fun b hb => not_isCapital_of_mark hm (hmarks b hb)⟩)
    exact ⟨c, m, hsame, hstarts, hmarks, .inr ⟨hscript, rfl⟩⟩
  · unfold lowered
    split
    · obtain ⟨a, m', hlower, hcased, hm'⟩ := lowercase_cluster hc hm hcap hmarks
      exact ⟨a, m', hlower, starts_of_cased hm hcased, hm', .inl hcased⟩
    · exact ⟨c, m, rfl, hstarts, hmarks, .inl (.inl hcap)⟩

omit hn hk in
theorem lowered_head (o : NormalizeOptions) {r : Text}
    (hr : ∀ a y, r = a :: y → mark a = false) :
    ∀ a y, lowered u o r = a :: y → mark a = false := by
  intro a y hay
  cases r with
  | nil =>
    rw [lowered_of_not_capital (by simp)] at hay
    cases hay
  | cons x r =>
    rw [← List.singleton_append, lowered_append] at hay
    cases hcap : u.isCapital x with
    | false =>
      rw [lowered_of_not_capital (by simpa using hcap)] at hay
      rw [← (List.cons.inj hay).1]
      exact hr x r rfl
    | true =>
      unfold lowered at hay
      split at hay
      · obtain ⟨b, m, hlower, hcased, _⟩ :=
          lowercase_cluster hc hm hcap (m := []) (by simp)
        rw [hlower] at hay
        rw [← (List.cons.inj hay).1]
        exact (starts_of_cased hm hcased).letter
      · rw [← (List.cons.inj hay).1]
        exact hr x r rfl

omit hn in
theorem KanaPieces.lowered {t : Text} (h : KanaPieces u mark t) (o : NormalizeOptions) :
    LowerPieces u mark (lowered u o t) := by
  induction h with
  | piece hq hG =>
    rw [lowered_of_not_capital (not_isWritten hG).2]
    exact .piece hq fun _ _ => trivial
  | @cluster q m r c hq hG _ hmarks hL hr _ ih =>
    obtain ⟨a, m', hlower, hstarts, hm', hL'⟩ := lowered_cluster hm hc hk o hL.1 hmarks
    have hcluster : u.Cased a ∨ isScript a = true ∧ u.nfkc m' = m' :=
      hL'.imp_right fun h => ⟨h.1, by rw [h.2, hL.2]⟩
    rw [← List.cons_append, lowered_append, lowered_append, hlower,
      lowered_of_not_capital (not_isWritten hG).2]
    exact .cluster hq (fun _ _ => trivial) hstarts hm' hcluster (lowered_head hm hc o hr) ih

/-- The clusters decide whether lowercasing leaves the text in NFKC. -/
theorem KanaPieces.nfkc_lowered {t : Text} (h : KanaPieces u mark t) {o : NormalizeOptions}
    (hclusters : ∀ k ∈ clusters u.isWritten mark t,
      u.nfkc (Unfydqry.lowered u o k) = Unfydqry.lowered u o k) :
    u.nfkc (Unfydqry.lowered u o t) = Unfydqry.lowered u o t := by
  induction h with
  | piece hq hG => rw [lowered_of_not_capital (not_isWritten hG).2, hq]
  | @cluster q m r c hq hG hstart hmarks hL hr _ ih =>
    have hplain : ∀ b ∈ m, u.isWritten b = false := by
      intro b hb
      refine Bool.eq_false_iff.mpr fun hwritten => ?_
      have hnot := (starts_of_isWritten hm hk hwritten).letter
      rw [hmarks b hb] at hnot
      cases hnot
    rw [clusters_append hG, clusters_cons hL.1 hmarks hplain hr, List.forall_mem_cons] at hclusters
    obtain ⟨a, m', hlower, hstarts, hm', _⟩ := lowered_cluster hm hc hk o hL.1 hmarks
    have hcluster := hclusters.1
    rw [hlower] at hcluster
    rw [← List.cons_append, lowered_append, lowered_append, hlower,
      lowered_of_not_capital (not_isWritten hG).2, List.cons_append,
      hstarts.split hn hm' (lowered_head hm hc o hr), hq, hcluster, ih hclusters.2]
    rfl

/-! ### Punctuation -/

omit hn hm hc hk in
theorem isJoint_of_isInert {c : Char} (h : isInert c = true) : isJoint c = false := by
  obtain ⟨hdash, hcomma, hdigit, hspace⟩ := inert_punctuation h
  rw [isJoint, hdash, hdigit, hspace, beq_eq_false_iff_ne.mpr hcomma]
  rfl

omit hn hm hc hk in
theorem isJoint_of_isScript {c : Char} (h : isScript c = true) : isJoint c = false := by
  have hcomma : ','.toNat = 0x2C := rfl
  simp only [isScript, isKana, isKanji, within, Bool.or_eq_true, Bool.and_eq_true,
    decide_eq_true_eq, beq_iff_eq] at h
  simp only [isJoint, isDash, isAsciiDigit, isWhitespace, within, Bool.or_eq_false_iff,
    Bool.and_eq_false_iff, decide_eq_false_iff_not, beq_eq_false_iff_ne, ne_eq, ← Char.toNat_inj]
  omega

omit hn hm hc hk in
theorem not_isScript_of_isJoint {c : Char} (h : isJoint c = true) : isScript c = false :=
  Bool.eq_false_iff.mpr fun hscript => by
    rw [isJoint_of_isScript hscript] at h
    cases h

omit hn hm hc hk in
theorem isJoint_of_isPlain {c : Char} (h : isPlain c = true) : isJoint c = true := by
  simp only [isPlain, Bool.or_eq_true, beq_iff_eq] at h
  rcases h with (h | rfl) | rfl
  · rw [isJoint, h, Bool.or_true, Bool.true_or]
  · rfl
  · rfl

omit hm hc in
theorem joined_lowerPieces (hs : u.Scalars d) : Joined (LowerPieces u mark) where
  cut p j q hj h := by
    refine Pieces.cut hn h rfl (fun a m hL => ?_) (Bool.eq_false_iff.mpr fun hmark => ?_)
    · rintro rfl
      have hnot : isJoint a = false := hL.elim (fun h => isJoint_of_isInert (hk.cased a h))
        fun h => isJoint_of_isScript h.1
      rw [hj] at hnot
      cases hnot
    · rw [isJoint_of_isInert (hk.marks j hmark)] at hj
      cases hj
  join p b q hb hp hq := by
    refine Pieces.join hs hp hq hb trivial (Bool.eq_false_iff.mpr fun hmark => ?_)
    have hnot := isJoint_of_isInert (hk.marks b hmark)
    rw [isJoint_of_isPlain hb] at hnot
    cases hnot

end Steps

end Unfydqry
