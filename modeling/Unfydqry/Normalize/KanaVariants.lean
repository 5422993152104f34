import Unfydqry.Normalize.Counts
import Unfydqry.Normalize.Passes

/-! # Texts that differ in katakana and hiragana

`kana_fold` runs after NFKC and has no hiragana for `ヷ`, `ヸ`, `ヹ` and `ヺ`. A text and its
hiragana variant meet unless NFKC composes one of these out of a letter of the text. -/

namespace Unfydqry

open Blocks (Differ)
open Steps

/-- `ヷ`, `ヸ`, `ヹ` and `ヺ`. -/
def isVoicedWa (c : Char) : Bool := within 0x30F7 0x30FA c

def isWa (c : Char) : Bool := isWaRow c || isVoicedWa c

/-- What the kana folding relies on of the character data. -/
structure KanaPairs (u : Unicode) (d : CharData) (mark : Char → Bool) : Prop
    extends Decomposing u d where
  /-- A katakana letter and its hiragana decompose alike. -/
  compat_kana : ∀ c, isKatakana c = true →
    u.compat (katakanaToHiragana c) = (u.compat c).map katakanaToHiragana
  canon_kana : ∀ c, isKatakana c = true →
    d.canon (katakanaToHiragana c) = (d.canon c).map katakanaToHiragana
  canon_katakana : ∀ c, ∀ a ∈ d.canon c, isKatakana a = true →
    isKatakana c = true ∨ isVoicedWa c = true
  ccc_kana : ∀ c, isKatakana c = true → d.ccc (katakanaToHiragana c) = d.ccc c
  /-- Kana and their marks form no iteration mark. -/
  unmarked : ∀ c m, isKatakana c = true ∨ isHiragana c = true → (∀ b ∈ m, mark b = true) →
    ∀ a ∈ u.nfkc (c :: m), isIterationMark a = false
  hiragana : ∀ c m, isHiragana c = true → (∀ b ∈ m, mark b = true) →
    ∀ a ∈ u.nfkc (c :: m), isVoicedWa a = false
  canon_wa : ∀ c, (d.canon c).countP isWaRow = [c].countP isWa
  lower_wa : ∀ c, (u.toLowercase c).countP isWa = [c].countP isWa

namespace Steps

theorem katakanaToHiragana_cases (c : Char) :
    isKatakana c = true ∧ isHiragana (katakanaToHiragana c) = true ∨
      isKatakana c = false ∧ katakanaToHiragana c = c := by
  cases h : isKatakana c with
  | true => exact .inl ⟨rfl, isHiragana_katakanaToHiragana h⟩
  | false => exact .inr ⟨rfl, katakanaToHiragana_of_not h⟩

/-- The classes of letters that iteration marks look at do not tell kana apart. -/
theorem kana_classes (c : Char) :
    isIterationMark (katakanaToHiragana c) = isIterationMark c ∧
      isVoicedWa (katakanaToHiragana c) = isVoicedWa c ∧
      isKana (katakanaToHiragana c) = isKana c ∧ isKanji (katakanaToHiragana c) = isKanji c := by
  rcases katakanaToHiragana_cases c with ⟨h, hk⟩ | ⟨_, h⟩
  · simp only [isKatakana, isHiragana, within, Bool.and_eq_true, decide_eq_true_eq] at h hk
    have hclass : ∀ a : Char, 0x3041 ≤ a.toNat ∧ a.toNat ≤ 0x3096 ∨
        0x30A1 ≤ a.toNat ∧ a.toNat ≤ 0x30F6 → isIterationMark a = false ∧ isVoicedWa a = false ∧
          isKana a = true ∧ isKanji a = false := by
      intro a ha
      simp only [isIterationMark, isVoicedWa, isKana, isKanji, within, Bool.or_eq_false_iff,
        Bool.and_eq_false_iff, Bool.or_eq_true, Bool.and_eq_true, decide_eq_true_eq,
        decide_eq_false_iff_not, beq_eq_false_iff_ne]
      omega
    obtain ⟨h1, h2, h3, h4⟩ := hclass c (.inr h)
    obtain ⟨k1, k2, k3, k4⟩ := hclass _ (.inl hk)
    rw [h1, h2, h3, h4, k1, k2, k3, k4]
    exact ⟨rfl, rfl, rfl, rfl⟩
  · rw [h]
    exact ⟨rfl, rfl, rfl, rfl⟩

theorem isVoicedWa_addDakuten (c : Char) : isVoicedWa (addDakuten c) = isVoicedWa c := by
  cases h : isVoiceableKana c with
  | true =>
    have hrange := voiceable_kana h
    have hnat := addDakuten_voiceable h
    simp only [isHiragana, isKatakana, within, Bool.and_eq_true, decide_eq_true_eq] at hrange
    have hnone : ∀ a : Char, a.toNat ≤ 0x30DC → isVoicedWa a = false := by
      intro a ha
      simp only [isVoicedWa, within, Bool.and_eq_false_iff, decide_eq_false_iff_not]
      omega
    rw [hnone c (by omega), hnone _ (by omega)]
  | false => rw [addDakuten, h, if_neg (by simp)]

theorem addDakuten_katakanaToHiragana (c : Char) :
    addDakuten (katakanaToHiragana c) = katakanaToHiragana (addDakuten c) := by
  rcases katakanaToHiragana_cases c with ⟨h, _⟩ | ⟨h, hk⟩
  · have hnat := katakanaToHiragana_toNat h
    have hrange := h
    simp only [isKatakana, within, Bool.and_eq_true, decide_eq_true_eq] at hrange
    have hsame := voiceable_table.2.1 (c.toNat - 0x30A1) (by omega)
    rw [show 0x30A1 + (c.toNat - 0x30A1) = c.toNat by omega, Char.ofNat_toNat] at hsame
    cases hv : isVoiceableKana c with
    | true =>
      rw [hv] at hsame
      have hlast := (voiceable_kana hv).resolve_left fun hhira => by
        simp only [isHiragana, within, Bool.and_eq_true, decide_eq_true_eq] at hhira
        omega
      have hup := addDakuten_voiceable hv
      have hkata : isKatakana (addDakuten c) = true := by
        simp only [isKatakana, within, Bool.and_eq_true, decide_eq_true_eq]
        omega
      rw [← Char.toNat_inj, addDakuten_voiceable hsame, katakanaToHiragana_toNat hkata]
      omega
    | false =>
      rw [hv] at hsame
      rw [addDakuten, addDakuten, hv, hsame, if_neg (by simp), if_neg (by simp)]
  · rw [hk]
    cases hv : isVoiceableKana c with
    | true =>
      have hhira := (voiceable_kana hv).resolve_right fun hkata => by
        rw [h] at hkata
        cases hkata.1
      have hup := addDakuten_voiceable hv
      simp only [isHiragana, within, Bool.and_eq_true, decide_eq_true_eq] at hhira
      refine (katakanaToHiragana_of_not ?_).symm
      simp only [isKatakana, within, Bool.and_eq_false_iff, decide_eq_false_iff_not]
      omega
    | false =>
      rw [addDakuten, hv, if_neg (by simp), hk]

/-- Expanding iteration marks and folding kana may change places. -/
theorem kanaFold_expandFrom (s : Text) (last : Option Char) :
    kanaFold (expandFrom last s) = expandFrom (last.map katakanaToHiragana) (kanaFold s) := by
  have hstep : ∀ (c : Char) (last : Option Char),
      (replacement (last.map katakanaToHiragana) (katakanaToHiragana c)).getD
          (katakanaToHiragana c) =
        katakanaToHiragana ((replacement last c).getD c) := by
    intro c last
    cases hmark : isIterationMark c with
    | false =>
      have hmark' := (kana_classes c).1.trans hmark
      rw [replacement_unmarked hmark, replacement_unmarked hmark']
      rfl
    | true =>
      have hk : katakanaToHiragana c = c := by
        rcases katakanaToHiragana_cases c with ⟨h, _⟩ | ⟨_, h⟩
        · simp only [isIterationMark, Bool.or_eq_true, beq_iff_eq] at hmark
          simp only [isKatakana, within, Bool.and_eq_true, decide_eq_true_eq] at h
          omega
        · exact h
      have hfilter : ∀ p : Char → Bool, (∀ a, p (katakanaToHiragana a) = p a) →
          (last.map katakanaToHiragana).filter p = (last.filter p).map katakanaToHiragana := by
        intro p hp
        cases last with
        | none => rfl
        | some a =>
          rw [Option.map_some, Option.filter_some, Option.filter_some, hp]
          split <;> rfl
      have hkana := hfilter isKana fun a => (kana_classes a).2.2.1
      have hkanji := hfilter isKanji fun a => (kana_classes a).2.2.2
      have hdakuten : ((last.filter isKana).map katakanaToHiragana).map addDakuten =
          ((last.filter isKana).map addDakuten).map katakanaToHiragana := by
        have hcomm : addDakuten ∘ katakanaToHiragana = katakanaToHiragana ∘ addDakuten := by
          funext a
          rw [Function.comp_apply, Function.comp_apply, addDakuten_katakanaToHiragana]
        rw [Option.map_map, Option.map_map, hcomm]
      have hreplace : replacement (last.map katakanaToHiragana) c =
          (replacement last c).map katakanaToHiragana := by
        simp only [replacement, hkana, hkanji, hdakuten]
        split
        · rfl
        · split
          · rfl
          · split <;> rfl
      rw [hk, hreplace]
      cases replacement last c with
      | none => exact hk.symm
      | some r => rfl
  induction s generalizing last with
  | nil => rfl
  | cons c s ih =>
    have hcons : ∀ a : Char, ∀ t : Text, kanaFold (a :: t) = katakanaToHiragana a :: kanaFold t :=
      fun _ _ => rfl
    have hexpand : ∀ (last : Option Char) (c : Char) (s : Text), expandFrom last (c :: s) =
        (replacement last c).getD c :: expandFrom (some ((replacement last c).getD c)) s :=
      fun _ _ _ => rfl
    rw [hexpand, hcons, ih, hcons, hexpand, hstep, Option.map_some]

theorem kanaFold_expand (o : NormalizeOptions) (s : Text) :
    kanaFold (if o.expandIterationMarks then expandIterationMarks s else s) =
      if o.expandIterationMarks then expandIterationMarks (kanaFold s) else kanaFold s := by
  split
  · exact kanaFold_expandFrom s none
  · rfl

/-! ### A letter that only one of two texts has -/

/-- The left blocks have a voiced letter, the right ones have none. -/
def LosesVoiced (bs : List (Text × Text)) : Prop :=
  ∀ b ∈ bs, (∀ a ∈ b.1, isIterationMark a = false) ∧ (∃ a ∈ b.1, isVoicedWa a = true) ∧
    (∀ a ∈ b.2, isIterationMark a = false ∧ isVoicedWa a = false) ∧ b.2 ≠ []

/-- Without a voiced letter before it a mark does not become one. -/
theorem replacement_voiced {last : Option Char} {c : Char}
    (hlast : ∀ a, last = some a → isVoicedWa a = false) (hc : isVoicedWa c = false) :
    isVoicedWa ((replacement last c).getD c) = false := by
  cases hr : replacement last c with
  | none => exact hc
  | some r =>
    have hfilter : ∀ {p : Char → Bool} {a : Char}, last.filter p = some a →
        isVoicedWa a = false := fun h => hlast _ (Option.filter_eq_some_iff.mp h).1
    unfold replacement at hr
    split at hr
    · exact hfilter hr
    · split at hr
      · exact hfilter hr
      · split at hr
        · obtain ⟨a, ha, rfl⟩ := Option.map_eq_some_iff.mp hr
          rw [Option.getD_some, isVoicedWa_addDakuten, hfilter ha]
        · cases hr

section Loses

variable {bs : List (Text × Text)} {s t : Text} (hbs : LosesVoiced bs) (h : Differ bs s t)

include hbs h

theorem countP_loses : t.countP isVoicedWa + bs.length ≤ s.countP isVoicedWa := by
  induction h with
  | nil => exact Nat.le_refl 0
  | same c h ih =>
    have hrest := ih hbs
    rw [List.countP_cons, List.countP_cons]
    omega
  | block p q h ih =>
    rw [LosesVoiced, List.forall_mem_cons] at hbs
    have hrest := ih hbs.2
    have hp : 0 < p.countP isVoicedWa := List.countP_pos_iff.mpr hbs.1.2.1
    have hq : q.countP isVoicedWa = 0 := List.countP_eq_zero.mpr fun a ha => by
      rw [(hbs.1.2.2.1 a ha).2]
      simp
    rw [List.countP_append, List.countP_append, List.length_cons]
    omega

theorem countP_expandFrom_loses (last last' : Option Char)
    (hlast : last = last' ∨ ∀ a, last' = some a → isVoicedWa a = false) :
    (expandFrom last' t).countP isVoicedWa + bs.length ≤
      (expandFrom last s).countP isVoicedWa := by
  induction h generalizing last last' with
  | nil => exact Nat.le_refl 0
  | same c h ih =>
    have hexpand : ∀ (last : Option Char) (s : Text), expandFrom last (c :: s) =
        (replacement last c).getD c :: expandFrom (some ((replacement last c).getD c)) s :=
      fun _ _ => rfl
    rw [hexpand, hexpand, List.countP_cons, List.countP_cons]
    rcases hlast with rfl | hlast
    · have hrest := ih hbs (some ((replacement last c).getD c)) _ (.inl rfl)
      omega
    · cases hv : isVoicedWa c with
      | true =>
        -- a voiced letter is no mark and stays on both sides
        have hmark : isIterationMark c = false := by
          simp only [isVoicedWa, isIterationMark, within, Bool.and_eq_true, decide_eq_true_eq,
            Bool.or_eq_false_iff, beq_eq_false_iff_ne] at hv ⊢
          omega
        rw [replacement_unmarked hmark, replacement_unmarked hmark]
        have hrest := ih hbs (some c) _ (.inl rfl)
        rw [Option.getD_none]
        omega
      | false =>
        have hr := replacement_voiced hlast hv
        have hrest := ih hbs (some ((replacement last c).getD c))
          (some ((replacement last' c).getD c)) (.inr fun a ha => by cases ha; exact hr)
        rw [hr, if_neg (by simp)]
        omega
  | block p q h ih =>
    rw [LosesVoiced, List.forall_mem_cons] at hbs
    dsimp only at hbs
    obtain ⟨hmarks, ⟨a, ha, hvoiced⟩, hright, hne⟩ := hbs.1
    have hp : 0 < p.countP isVoicedWa := List.countP_pos_iff.mpr ⟨a, ha, hvoiced⟩
    have hq : q.countP isVoicedWa = 0 := List.countP_eq_zero.mpr fun a ha => by
      rw [(hright a ha).2]
      simp
    obtain ⟨b, _, hleft⟩ := expandFrom_unmarked hmarks (List.ne_nil_of_mem ha) last
    obtain ⟨b', hb', hrest'⟩ := expandFrom_unmarked (fun a ha => (hright a ha).1) hne last'
    have hrest := ih hbs.2 (some b) (some b') (.inr fun a ha => by
      cases ha
      exact (hright b' hb').2)
    rw [hleft, hrest', List.countP_append, List.countP_append, List.length_cons]
    omega

end Loses

end Steps

/-! ### The forms of the two texts -/

section Forms

variable {u : Unicode} {d : CharData} {mark : Char → Bool} {o : NormalizeOptions}
  (hn : u.NormalForms d) (hk : u.Kana d) (hp : KanaPairs u d mark)

include hp

theorem kanaFold_reorder (y : Text) :
    kanaFold (CanonicalOrder.reorder d.ccc y) = CanonicalOrder.reorder d.ccc (kanaFold y) := by
  refine (CanonicalOrder.reorder_map fun a _ => ?_).symm
  rcases katakanaToHiragana_cases a with ⟨h, _⟩ | ⟨_, h⟩
  · exact hp.ccc_kana a h
  · rw [h]

theorem kanaFold_compat (x : Text) :
    kanaFold ((kanaFold x).flatMap u.compat) = kanaFold (x.flatMap u.compat) := by
  have htwice : ∀ s : Text, kanaFold (kanaFold s) = kanaFold s := by
    intro s
    simp only [kanaFold, List.map_map]
    refine List.map_congr_left fun c _ => ?_
    exact katakanaToHiragana_of_not (isKatakana_katakanaToHiragana c)
  have hmap : ∀ s : Text, kanaFold (s.flatMap u.compat) =
      s.flatMap fun c => kanaFold (u.compat c) := fun s => List.map_flatMap
  rw [hmap, hmap]
  rw [kanaFold, List.flatMap_map]
  refine List.flatMap_congr fun c _ => ?_
  rcases katakanaToHiragana_cases c with ⟨h, _⟩ | ⟨_, h⟩
  · rw [hp.compat_kana c h]
    exact htwice _
  · rw [h]

include hn

theorem nfd_kanaFold {t : Text} (ht : ∀ a ∈ t, isVoicedWa a = false) :
    u.nfd (kanaFold t) = kanaFold (u.nfd t) := by
  have hflat : (kanaFold t).flatMap d.canon = kanaFold (t.flatMap d.canon) := by
    have hmap : kanaFold (t.flatMap d.canon) = t.flatMap fun c => kanaFold (d.canon c) :=
      List.map_flatMap
    rw [hmap, kanaFold, List.flatMap_map]
    refine List.flatMap_congr fun c hc => ?_
    rcases katakanaToHiragana_cases c with ⟨h, _⟩ | ⟨hnot, h⟩
    · exact hp.canon_kana c h
    · -- no katakana in its decomposition, for `c` is not one of the voiced letters
      have hid : ∀ a ∈ d.canon c, katakanaToHiragana a = a := by
        intro a ha
        rcases katakanaToHiragana_cases a with ⟨hkata, _⟩ | ⟨_, ha⟩
        · rcases hp.canon_katakana c a ha hkata with hcase | hcase
          · rw [hnot] at hcase
            cases hcase
          · rw [ht c hc] at hcase
            cases hcase
        · exact ha
      rw [h, kanaFold, List.map_congr_left hid, List.map_id'' fun _ => rfl]
  rw [hn.nfd_eq, hn.nfd_eq, hflat, kanaFold_reorder hp]

include hk

theorem kanaFold_nfkc {x : Text} (h : ∀ a ∈ u.nfkc x, isVoicedWa a = false)
    (h' : ∀ a ∈ u.nfkc (kanaFold x), isVoicedWa a = false) :
    kanaFold (u.nfkc (kanaFold x)) = kanaFold (u.nfkc x) := by
  have hform : ∀ y, (∀ a ∈ u.nfkc y, isVoicedWa a = false) →
      u.nfd (kanaFold (u.nfkc y)) =
        CanonicalOrder.reorder d.ccc (kanaFold (y.flatMap u.compat)) := by
    intro y hy
    rw [nfd_kanaFold hn hp hy, hp.nfd_nfkc, kanaFold_reorder hp]
  have hstable : ∀ y, u.nfc (kanaFold (u.nfkc y)) = kanaFold (u.nfkc y) := fun y =>
    hn.nfc_of_nfkc _ (nfkc_kanaFold hn hk _ [] (hn.nfkc_idem y))
  have hnfd : u.nfd (kanaFold (u.nfkc (kanaFold x))) = u.nfd (kanaFold (u.nfkc x)) := by
    rw [hform _ h', hform _ h, kanaFold_compat hp]
  rw [← hstable, ← hn.nfc_nfd, hnfd, hn.nfc_nfd, hstable]

end Forms

/-! ### When the variants meet -/

section Meet

variable {u : Unicode} {d : CharData} {mark : Char → Bool} {o : NormalizeOptions}
  (hn : u.NormalForms d) (hk : u.Kana d) (hp : KanaPairs u d mark) (hm : u.Segments mark)

theorem kana_varies : Varies u isKatakana mark fun c => [katakanaToHiragana c] where
  letter c h := .inr (.inr (.inl h))
  image c h := ⟨katakanaToHiragana c, [], rfl,
    .inr (.inr (.inr (isHiragana_katakanaToHiragana h))), fun b hb => by cases hb⟩
  other c h := by rw [katakanaToHiragana_of_not h]

include hm

theorem kanaFold_cluster {c : Char} {m : Text} (hmarks : ∀ b ∈ m, mark b = true) :
    kanaFold (c :: m) = katakanaToHiragana c :: m := by
  have hid : ∀ b ∈ m, katakanaToHiragana b = b := by
    intro b hb
    refine katakanaToHiragana_of_not (Bool.eq_false_iff.mpr fun hkata => ?_)
    have hmark := hm.letter b (.inr (.inr (.inl hkata)))
    rw [hmarks b hb] at hmark
    cases hmark
  rw [kanaFold, List.map_cons, List.map_congr_left hid, List.map_id'' fun _ => rfl]

include hp

/-- The forms of a cluster hold no iteration mark, and its hiragana no voiced letter. -/
theorem kana_cluster {k x : Text} (hkx : k ∈ clusters isKatakana mark x) :
    (∀ a ∈ u.nfkc k, isIterationMark a = false) ∧
      (∀ a ∈ u.nfkc (kanaFold k), isIterationMark a = false ∧ isVoicedWa a = false) ∧
      u.nfkc (kanaFold k) ≠ [] := by
  obtain ⟨c, m, rfl, hkata, hmarks, _⟩ := mem_clusters hkx
  have hhira := isHiragana_katakanaToHiragana hkata
  rw [kanaFold_cluster hm hmarks]
  refine ⟨hp.unmarked c m (.inl hkata) hmarks, fun a ha => ⟨?_, ?_⟩,
    hp.nfkc_ne _ (List.cons_ne_nil _ _)⟩
  · exact hp.unmarked _ m (.inr hhira) hmarks a ha
  · exact hp.hiragana _ m hhira hmarks a ha

include hn

omit hp in
theorem kana_differ (x : Text) : Differ
    ((clusters isKatakana mark x).map fun k =>
      (kanaFold (u.nfkc k), kanaFold (u.nfkc (kanaFold k))))
    (kanaFold (u.nfkc x)) (kanaFold (u.nfkc (kanaFold x))) := by
  have h := ((kana_varies (u := u)).differ hn hm x).map katakanaToHiragana
  rw [List.map_map] at h
  have hfold : ∀ s : Text, (s.flatMap fun c => [katakanaToHiragana c]) = kanaFold s := fun s =>
    List.map_eq_flatMap.symm
  simp only [hfold, Function.comp_def] at h
  exact h

omit hm in
/-- Normalizing keeps the letters of the `ワ` row that folding leaves, the voiced ones. -/
theorem voiced_normalize (hs : u.Scalars d) (ho : o.kanaFold = true) (x : Text) :
    (normalize u o x).countP isWa =
      (if o.expandIterationMarks then expandIterationMarks (kanaFold (u.nfkc x))
        else kanaFold (u.nfkc x)).countP isVoicedWa := by
  have hrange : ∀ c, isWa c = true → 0x30EF ≤ c.toNat ∧ c.toNat ≤ 0x30FA := by
    intro c h
    simp only [isWa, isWaRow, isVoicedWa, within, Bool.or_eq_true, Bool.and_eq_true,
      decide_eq_true_eq] at h
    omega
  have hne : ∀ p : Char → Bool, (∀ c, p c = true → c.toNat < 0x30EF ∨ 0x30FA < c.toNat) →
      ∀ c, p c = true → isWa c = false := by
    intro p hp c h
    refine Bool.eq_false_iff.mpr fun hwa => ?_
    have hin := hrange c hwa
    have hout := hp c h
    omega
  have hdash := hne isDash fun c h => by
    simp only [isDash, within, Bool.or_eq_true, Bool.and_eq_true, decide_eq_true_eq,
      beq_iff_eq] at h
    omega
  have hspace := hne isWhitespace fun c h => by
    simp only [isWhitespace, within, Bool.or_eq_true, Bool.and_eq_true, decide_eq_true_eq,
      beq_iff_eq] at h
    omega
  have hmarks : ∀ c, combiningMarks c = true → isWaRow c = false := by
    intro c h
    simp only [combiningMarks, isWaRow, within, Bool.and_eq_true, Bool.and_eq_false_iff,
      decide_eq_true_eq, decide_eq_false_iff_not] at h ⊢
    omega
  have hprolonged : ∀ c : Char, c.toNat = 0x30FC → isWa c = false := by
    intro c h
    refine Bool.eq_false_iff.mpr fun hwa => ?_
    have hin := hrange c hwa
    omega
  -- folding leaves the voiced letters only, and they were there before
  have hfold : ∀ s : Text, (kanaFold s).countP isWa = s.countP isVoicedWa ∧
      (kanaFold s).countP isVoicedWa = s.countP isVoicedWa := by
    intro s
    rw [kanaFold, List.map_eq_flatMap]
    refine ⟨countP_flatMap (fun c => ?_) s, countP_flatMap (fun c => ?_) s⟩
    · have hvoiced := (kana_classes c).2.1
      have hrow : isWaRow (katakanaToHiragana c) = false := Bool.eq_false_iff.mpr fun h => by
        have hkata := isKatakana_of_isWaRow h
        rw [isKatakana_katakanaToHiragana] at hkata
        cases hkata
      rw [List.countP_singleton, List.countP_singleton, isWa, hrow, hvoiced, Bool.false_or]
    · rw [List.countP_singleton, List.countP_singleton, (kana_classes c).2.1]
  have hkana : (foldKana o (u.nfkc x)).countP isWa =
      (if o.expandIterationMarks then expandIterationMarks (kanaFold (u.nfkc x))
        else kanaFold (u.nfkc x)).countP isVoicedWa := by
    rw [← kanaFold_expand, (hfold _).2, ← (hfold _).1, foldKana, ho]
    exact countP_optional _ (countP_foldChoonpuFrom hprolonged _ false)
  rw [normalize_eq, countP_punctuate hdash (by decide) hspace]
  exact (countP_optional _ (countP_foldDiacritics hn hp.canon_wa hs hmarks _)).trans
    ((countP_optional _ (countP_flatMap hp.lower_wa _)).trans hkana)

include hk

/-- Folding first loses the voiced letters that NFKC composes. -/
theorem losesVoiced_kana (x : Text) : LosesVoiced
    (((clusters isKatakana mark x).map fun k =>
      (kanaFold (u.nfkc k), kanaFold (u.nfkc (kanaFold k)))).filter fun b => b.1 ≠ b.2) := by
  have hfolded : ∀ {s : Text} {p : Char → Bool}, (∀ c, p (katakanaToHiragana c) = p c) →
      ∀ a ∈ kanaFold s, ∃ c ∈ s, p a = p c := by
    intro s p hp a ha
    obtain ⟨c, hc, rfl⟩ := List.mem_map.mp ha
    exact ⟨c, hc, hp c⟩
  intro b hb
  obtain ⟨hb, hne⟩ := List.mem_filter.mp hb
  obtain ⟨k, hkx, rfl⟩ := List.mem_map.mp hb
  obtain ⟨hleft, hright, hnil⟩ := kana_cluster hp hm hkx
  refine ⟨fun a ha => ?_, ?_, fun a ha => ⟨?_, ?_⟩, fun h => hnil (List.map_eq_nil_iff.mp h)⟩
  · obtain ⟨c, hc, heq⟩ := hfolded (fun c => (kana_classes c).1) a ha
    rw [heq, hleft c hc]
  · by_contra hnone
    have hvoiced : ∀ a ∈ u.nfkc k, isVoicedWa a = false := by
      intro a ha
      refine Bool.eq_false_iff.mpr fun h => hnone ⟨_, List.mem_map_of_mem ha, ?_⟩
      rw [(kana_classes a).2.1, h]
    have hsame := kanaFold_nfkc hn hk hp hvoiced fun a ha => (hright a ha).2
    rw [hsame] at hne
    simp at hne
  · obtain ⟨c, hc, heq⟩ := hfolded (fun c => (kana_classes c).1) a ha
    rw [heq, (hright c hc).1]
  · obtain ⟨c, hc, heq⟩ := hfolded (fun c => (kana_classes c).2.1) a ha
    rw [heq, (hright c hc).2]

theorem kana_meets_iff (hs : u.Scalars d) (ho : o.kanaFold = true) (x : Text) :
    normalize u o (kanaFold x) = normalize u o x ↔
      ∀ k ∈ clusters isKatakana mark x, ∀ a ∈ u.nfkc k, isVoicedWa a = false := by
  have hdiffer := kana_differ hn hm x
  constructor
  · intro h k hkx a ha
    have hcount := voiced_normalize hn hp hs ho x
    rw [← h, voiced_normalize hn hp hs ho] at hcount
    have hloses := losesVoiced_kana hn hk hp hm x
    have hempty : ((clusters isKatakana mark x).map fun k =>
        (kanaFold (u.nfkc k), kanaFold (u.nfkc (kanaFold k)))).filter (fun b => b.1 ≠ b.2) =
          [] := by
      apply List.length_eq_zero_iff.mp
      split at hcount
      · have hle := countP_expandFrom_loses hloses hdiffer.proper none none (.inl rfl)
        unfold expandIterationMarks at hcount
        omega
      · have hle := countP_loses hloses hdiffer.proper
        omega
    have hsame : kanaFold (u.nfkc k) = kanaFold (u.nfkc (kanaFold k)) := by
      have hnot := List.filter_eq_nil_iff.mp hempty _ (List.mem_map_of_mem hkx)
      simpa using hnot
    have hmem : katakanaToHiragana a ∈ kanaFold (u.nfkc (kanaFold k)) := by
      rw [← hsame]
      exact List.mem_map_of_mem ha
    obtain ⟨b, hb, hab⟩ := List.mem_map.mp hmem
    rw [← (kana_classes a).2.1, ← hab, (kana_classes b).2.1]
    exact ((kana_cluster hp hm hkx).2.1 b hb).2
  · intro h
    have hsame : kanaFold (u.nfkc x) = kanaFold (u.nfkc (kanaFold x)) := by
      refine hdiffer.eq fun b hb => ?_
      obtain ⟨k, hkx, rfl⟩ := List.mem_map.mp hb
      refine (kanaFold_nfkc hn hk hp (h k hkx) fun a ha => ?_).symm
      exact ((kana_cluster hp hm hkx).2.1 a ha).2
    have hkana : ∀ s t : Text, kanaFold s = kanaFold t → foldKana o s = foldKana o t := by
      intro s t hst
      simp only [foldKana, ho, if_true, kanaFold_expand, hst]
    rw [normalize_eq, normalize_eq, hkana _ _ hsame.symm]

end Meet

end Unfydqry
