import Mathlib.Data.List.Forall2
import Unfydqry.Normalize.Neighbours
import Unfydqry.Normalize.Pieces

/-! # The second run of `normalize`

A text that `normalize` has written goes through the steps again. NFKC may compose in it a
letter with a mark that a step has put behind it; the steps on kana may find an iteration
mark or a `ー` behind a letter from which an accent was dropped. Nothing else changes. -/

namespace Unfydqry

open Blocks (Differ)
open Steps

namespace Steps

/-! ### Runs without punctuation -/

theorem stripFrom_append (a y : Text) (prev : Option Char) :
    ∃ a' prev', stripFrom prev (a ++ y) = a' ++ stripFrom prev' y := by
  induction a generalizing prev with
  | nil => exact ⟨[], prev, rfl⟩
  | cons c a ih =>
    obtain ⟨a', prev', h⟩ := ih (some c)
    rw [List.cons_append, stripFrom, h]
    split
    · exact ⟨a', prev', rfl⟩
    · exact ⟨c :: a', prev', rfl⟩

theorem collapseFrom_append (a y : Text) (pending started : Bool) :
    ∃ a' pending' started', collapseFrom pending started (a ++ y) =
      a' ++ collapseFrom pending' started' y := by
  induction a generalizing pending started with
  | nil => exact ⟨[], pending, started, rfl⟩
  | cons c a ih =>
    rw [List.cons_append, collapseFrom]
    split
    · exact ih true started
    · obtain ⟨a', pending', started', h⟩ := ih false true
      rw [h]
      split
      · exact ⟨' ' :: c :: a', pending', started', rfl⟩
      · exact ⟨c :: a', pending', started', rfl⟩

section Joint

variable {k : Text} (hk : ∀ c ∈ k, isJoint c = false)

include hk

theorem not_joint {c : Char} (hc : c ∈ k) :
    isDash c = false ∧ (c == ',') = false ∧ isWhitespace c = false := by
  have h := hk c hc
  simp only [isJoint, Bool.or_eq_false_iff] at h
  exact ⟨h.1.1.1, h.1.1.2, h.2⟩

theorem stripFrom_run (y : Text) (prev : Option Char) :
    ∃ prev', stripFrom prev (k ++ y) = k ++ stripFrom prev' y := by
  induction k generalizing prev with
  | nil => exact ⟨prev, rfl⟩
  | cons c k ih =>
    obtain ⟨prev', h⟩ := ih (fun a ha => hk a (List.mem_cons_of_mem c ha)) (some c)
    have hcomma := (not_joint hk List.mem_cons_self).2.1
    rw [List.cons_append, stripFrom, hcomma, Bool.false_and, Bool.false_and, if_neg (by simp), h]
    exact ⟨prev', rfl⟩

theorem collapseFrom_run (y : Text) (pending started : Bool) :
    ∃ a pending' started', collapseFrom pending started (k ++ y) =
      a ++ (k ++ collapseFrom pending' started' y) := by
  have hopen : ∀ k : Text, (∀ c ∈ k, isWhitespace c = false) →
      collapseFrom false true (k ++ y) = k ++ collapseFrom false true y := by
    intro k hk
    induction k with
    | nil => rfl
    | cons c k ih =>
      rw [List.forall_mem_cons] at hk
      rw [List.cons_append, collapseFrom, hk.1, if_neg (by simp), Bool.false_and,
        if_neg (by simp), ih hk.2]
      rfl
  cases k with
  | nil => exact ⟨[], pending, started, rfl⟩
  | cons c k =>
    have hspace : ∀ x ∈ c :: k, isWhitespace x = false := fun x hx => (not_joint hk hx).2.2
    rw [List.forall_mem_cons] at hspace
    rw [List.cons_append, collapseFrom, hspace.1, if_neg (by simp), hopen k hspace.2]
    split
    · exact ⟨[' '], false, true, rfl⟩
    · exact ⟨[], false, true, rfl⟩

/-- The last three steps leave a run without punctuation whole. -/
theorem infix_punctuate {s : Text} (h : k <:+: s) (o : NormalizeOptions) :
    k <:+: punctuate o s := by
  have hhyphens : ∀ s : Text, k <:+: s → k <:+: normalizeHyphens s := by
    rintro _ ⟨a, b, rfl⟩
    have hsame : normalizeHyphens k = k := normalizeHyphens_of_dashes fun c hc hdash => by
      rw [(not_joint hk hc).1] at hdash
      cases hdash
    refine ⟨normalizeHyphens a, normalizeHyphens b, ?_⟩
    have happend : ∀ x y : Text,
        normalizeHyphens (x ++ y) = normalizeHyphens x ++ normalizeHyphens y :=
      fun _ _ => List.map_append
    rw [happend, happend, hsame]
  have hgroups : ∀ s : Text, k <:+: s → k <:+: stripDigitGrouping s := by
    rintro _ ⟨a, b, rfl⟩
    obtain ⟨a', prev, ha⟩ := stripFrom_append a (k ++ b) none
    obtain ⟨prev', hk'⟩ := stripFrom_run hk b prev
    refine ⟨a', stripFrom prev' b, ?_⟩
    rw [stripDigitGrouping, List.append_assoc a, ha, hk', List.append_assoc]
  have hspaces : ∀ s : Text, k <:+: s → k <:+: collapseWhitespace s := by
    rintro _ ⟨a, b, rfl⟩
    obtain ⟨a', pending, started, ha⟩ := collapseFrom_append a (k ++ b) false false
    obtain ⟨e, pending', started', hk'⟩ := collapseFrom_run hk b pending started
    refine ⟨a' ++ e, collapseFrom pending' started' b, ?_⟩
    rw [collapseWhitespace, List.append_assoc a, ha, hk']
    simp only [List.append_assoc]
  exact punctuate_keeps hhyphens hgroups hspaces o h

end Joint

/-! ### Neighbours -/

/-- The relation holds of a text when it holds of any two neighbours. -/
theorem linked_iff_infixes {R : Option Char → Char → Prop} (hR : Indifferent R) {s : Text} :
    Linked R none s ↔ ∀ a c, [a, c] <:+: s → R (some a) c := by
  have hsome : ∀ (s : Text) (b : Char), Linked R (some b) s ↔
      ∀ a c, [a, c] <:+: b :: s → R (some a) c := by
    intro s
    induction s with
    | nil =>
      refine fun b => iff_of_true trivial fun a c h => ?_
      have hlen := h.length_le
      simp at hlen
    | cons x s ih =>
      intro b
      rw [Linked, ih]
      constructor
      · rintro ⟨hx, hrest⟩ a c h
        rcases List.infix_cons_iff.mp h with h | h
        · obtain ⟨rfl, hpre⟩ := List.cons_prefix_cons.mp h
          obtain ⟨rfl, _⟩ := List.cons_prefix_cons.mp hpre
          exact hx
        · exact hrest a c h
      · intro h
        exact ⟨h b x ⟨[], s, rfl⟩, fun a c hac => h a c (List.infix_cons hac)⟩
  cases s with
  | nil =>
    refine iff_of_true trivial fun a c h => ?_
    have hlen := h.length_le
    simp at hlen
  | cons b s => exact (and_iff_right (hR.mute mute_none b)).trans (hsome s b)

theorem linked_punctuate_iff {R : Option Char → Char → Prop} (hR : Indifferent R)
    (hplain : ∀ last c, isScript c = false → R last c) (o : NormalizeOptions) (s : Text) :
    Linked R none (punctuate o s) ↔ Linked R none s := by
  refine ⟨fun h => ?_, fun h => h.punctuate hR o⟩
  rw [linked_iff_infixes hR] at h ⊢
  intro a c hac
  cases hc : isJoint c with
  | true => exact hplain _ c (not_isScript_of_isJoint hc)
  | false =>
    cases ha : isJoint a with
    | true =>
      refine hR.mute ?_ c
      have hscript := not_isScript_of_isJoint ha
      simp only [isScript, Bool.or_eq_false_iff] at hscript
      exact hscript.1
    | false =>
      refine h a c (infix_punctuate (fun x hx => ?_) hac o)
      rcases List.mem_cons.mp hx with rfl | hx
      · exact ha
      · rw [List.mem_singleton.mp hx]
        exact hc

theorem repeats_of_not_isScript {c : Char} (h : isScript c = false) (last : Option Char) :
    Repeats last c := by
  rw [Repeats, replacement_unmarked (not_isIterationMark_of_not_isScript h)]
  rfl

theorem unprolonged_of_not_isScript {c : Char} (h : isScript c = false) (last : Option Char) :
    Unprolonged last c := by
  intro hc
  have hkana := not_isKana_of_not_isScript h
  simp [isKana, within, hc] at hkana

/-! ### The scalars of the steps on kana -/

/-- What holds of the scalars of a text, and of a letter with its dakuten, holds of the
expanded text. -/
theorem forall_expandFrom {P : Char → Prop} (hP : ∀ c, P c → P (addDakuten c)) {s : Text}
    (hs : ∀ c ∈ s, P c) {last : Option Char} (hlast : ∀ a, last = some a → P a) :
    ∀ c ∈ expandFrom last s, P c := by
  induction s generalizing last with
  | nil => simp [expandFrom]
  | cons c s ih =>
    rw [List.forall_mem_cons] at hs
    have hletter : P ((replacement last c).getD c) := by
      cases hr : replacement last c with
      | none => exact hs.1
      | some r =>
        rw [Option.getD_some]
        have hfilter : ∀ {p : Char → Bool} {a : Char}, last.filter p = some a → P a :=
          fun h => hlast _ (Option.filter_eq_some_iff.mp h).1
        unfold replacement at hr
        split at hr
        · exact hfilter hr
        · split at hr
          · exact hfilter hr
          · split at hr
            · obtain ⟨a, ha, rfl⟩ := Option.map_eq_some_iff.mp hr
              exact hP a (hfilter ha)
            · cases hr
    rw [expandFrom, List.forall_mem_cons]
    exact ⟨hletter, ih hs.2 fun a ha => by cases ha; exact hletter⟩

theorem forall_foldKana {P : Char → Prop} (hP : ∀ c, P c → P (addDakuten c))
    (hfold : ∀ c, isKatakana c = true → P c → P (katakanaToHiragana c)) {s : Text}
    (hs : ∀ c ∈ s, P c) (o : NormalizeOptions) : ∀ c ∈ foldKana o s, P c := by
  refine @foldKana_keeps (fun t => ∀ c ∈ t, P c) (fun t ht => forall_expandFrom hP ht (by simp))
    (fun t ht c hc => ?_) (fun t ht c hc => ht c (mem_foldChoonpuFrom hc)) o s hs
  obtain ⟨a, ha, rfl⟩ := List.mem_map.mp hc
  cases hkata : isKatakana a with
  | false =>
    rw [katakanaToHiragana_of_not hkata]
    exact ht a ha
  | true => exact hfold a hkata (ht a ha)

end Steps

section Scalars

variable {u : Unicode} {d : CharData} {mark : Char → Bool} {o : NormalizeOptions}
  (hn : u.NormalForms d) (hs : u.Scalars d) (hk : u.Kana d) (hx : Script u d mark)

include hk hx

theorem stable_foldKana {s : Text} (h : ∀ c ∈ s, u.nfkc [c] = [c]) (o : NormalizeOptions) :
    ∀ c ∈ foldKana o s, u.nfkc [c] = [c] := by
  refine forall_foldKana (fun c hc => ?_) (fun c hkata hc => hk.row c [] hkata hc) h o
  cases hv : isVoiceableKana c with
  | true => exact hx.voiced c hv
  | false =>
    rw [addDakuten, hv, if_neg (by simp)]
    exact hc

omit hk in
theorem small_foldKana {s : Text} (h : ∀ c ∈ s, u.toLowercase c = [c]) (o : NormalizeOptions) :
    ∀ c ∈ foldKana o s, u.toLowercase c = [c] := by
  refine forall_foldKana (fun c hc => ?_) (fun c hkata _ => ?_) h o
  · cases hv : isVoiceableKana c with
    | true =>
      have hletter := voiceable_kana hv
      exact hx.lower _ (isScript_of_isKana (isKana_addDakuten
        (isKana_of_letter (hletter.elim .inr fun h => .inl h.1))))
    | false =>
      rw [addDakuten, hv, if_neg (by simp)]
      exact hc
  · exact hx.lower _ (isScript_of_isKana
      (isKana_of_letter (.inr (isHiragana_katakanaToHiragana hkata))))

include hn hs

/-- The scalars that reach `fold_diacritics`. -/
theorem folded_run (o : NormalizeOptions) (x : Text) :
    ∀ c ∈ lowered u o (foldKana o (u.nfkc x)), Folded u o c :=
  folded_lowered hs hk
    (stable_foldKana hk hx (fun _ => nfkc_mem hn (hn.nfkc_idem x)) o)
    fun ho => (settled_foldKana o (u.nfkc x)).kana ho

omit hx hk in
theorem Folded.of_mem_punctuate {w : Text} (h : ∀ c ∈ w, Folded u o c) :
    ∀ c ∈ punctuate o w, Folded u o c := by
  intro c hc
  rcases mem_punctuate hc with hc | hplain
  · exact h c hc
  · have hform := hs.nfkc_plain c [] [] hplain (nfkc_nil hn) (nfkc_nil hn)
    exact ⟨hform, fun _ => isKatakana_of_plain hplain, fun _ => hs.lower_plain c hplain⟩

omit hn hs hx hk in
theorem lowered_of_small {s : Text} (h : o.lowercase = true → ∀ c ∈ s, u.toLowercase c = [c]) :
    lowered u o s = s := by
  unfold lowered
  split
  · rename_i ho
    exact (List.flatMap_congr (h ho)).trans (List.flatMap_singleton' s)
  · rfl

omit hn hs hk hx in
theorem linked_inert {R : Option Char → Char → Prop}
    (hplain : ∀ last c, isScript c = false → R last c) {p s : Text}
    (hp : ∀ b ∈ p, isInert b = true) (hne : p ≠ []) (hs : ∀ q, Mute q → Linked R q s)
    (q : Option Char) : Linked R q (p ++ s) := by
  induction p generalizing q with
  | nil => exact absurd rfl hne
  | cons b p ih =>
    rw [List.forall_mem_cons] at hp
    refine ⟨hplain q b (not_isScript_of_isInert hp.1), ?_⟩
    cases p with
    | nil => exact hs (some b) (inert_kana hp.1)
    | cons a p => exact ih hp.2 (by simp) (some b)

omit hn hs hk in
/-- A capital and its small letter take no part in such a relation. -/
theorem linked_lowered {R : Option Char → Char → Prop} (hR : Indifferent R)
    (hplain : ∀ last c, isScript c = false → R last c) (hc : Casing u d mark)
    (o : NormalizeOptions) {s : Text} {last q : Option Char} (h : Linked R last s)
    (hq : q = last ∨ Mute q) : Linked R q (lowered u o s) := by
  induction s generalizing last q with
  | nil =>
    rw [lowered_of_not_capital (by simp)]
    trivial
  | cons c s ih =>
    rw [← List.singleton_append, lowered_append]
    by_cases hsame : lowered u o [c] = [c]
    · rw [hsame]
      refine ⟨?_, ih h.2 (.inl rfl)⟩
      rcases hq with rfl | hmute
      · exact h.1
      · exact hR.mute hmute c
    · have hcap : u.isCapital c = true := Bool.of_not_eq_false fun hcap =>
        hsame (lowered_of_not_capital (by simpa using hcap))
      obtain ⟨a, m, hlower, hmarks⟩ := hc.lower_marks c hcap
      have hform : lowered u o [c] = a :: m := by
        unfold lowered at hsame ⊢
        split at hsame
        · rename_i ho
          rw [if_pos ho, lowercase, List.flatMap_singleton, hlower]
        · exact absurd rfl hsame
      have hcased : u.Cased a := .inr ⟨c, hcap, by rw [hlower]; rfl⟩
      rw [hform]
      exact linked_inert hplain (List.forall_mem_cons.mpr
        ⟨hx.cased a hcased, fun b hb => hx.marks b (hmarks b hb)⟩) (by simp)
        (fun q hmute => ih h.2 (.inr hmute)) q

/-- What reaches `normalize_hyphens` without `fold_diacritics` is settled. -/
theorem settled_lowered (hc : Casing u d mark) (o : NormalizeOptions) (x : Text) :
    KanaSettled o (lowered u o (foldKana o (u.nfkc x))) := by
  have h := settled_foldKana o (u.nfkc x)
  have hscript : ∀ {R : Option Char → Char → Prop}, Indifferent R →
      (∀ last c, isScript c = false → R last c) → Linked R none (foldKana o (u.nfkc x)) →
        Linked R none (lowered u o (foldKana o (u.nfkc x))) := fun hR hplain h =>
    linked_lowered hx hR hplain hc o h (.inl rfl)
  exact ⟨fun ho => hscript indifferent_repeats
      (fun last _ hc => repeats_of_not_isScript hc last) (h.marks ho),
    fun ho c hc => (folded_run hn hs hk hx o x c hc).kana ho,
    fun ho => hscript indifferent_unprolonged
      (fun last _ hc => unprolonged_of_not_isScript hc last) (h.choonpu ho)⟩

end Scalars

/-! ### Without `fold_diacritics` -/

section Composition

variable {u : Unicode} {d : CharData} {mark : Char → Bool} {o : NormalizeOptions}
  (hn : u.NormalForms d) (hs : u.Scalars d) (hc : Casing u d mark) (hx : Script u d mark)

include hn hc

theorem flatMap_canon_nfkc {s : Text} (h : ∀ c ∈ s, u.nfkc [c] = [c]) :
    ((u.nfkc s).flatMap d.canon).Perm (s.flatMap d.canon) := by
  have hnfd : (u.nfd (u.nfkc s)).Perm ((u.nfkc s).flatMap d.canon) := by
    rw [hn.nfd_eq]
    exact CanonicalOrder.reorder_perm d.ccc _
  have hcompat : (u.nfd (u.nfkc s)).Perm (s.flatMap u.compat) := by
    rw [hc.nfd_nfkc]
    exact CanonicalOrder.reorder_perm d.ccc _
  have hcanon : (s.flatMap u.compat).Perm (s.flatMap d.canon) := by
    refine List.Perm.flatMap_left s fun c hcs => ?_
    rw [Unicode.compat, h c hcs, hn.nfd_eq, List.flatMap_singleton]
    exact CanonicalOrder.reorder_perm d.ccc _
  exact hnfd.symm.trans (hcompat.trans hcanon)

include hs in
theorem small_nfkc {s : Text} (h : ∀ c ∈ s, u.nfkc [c] = [c])
    (hsmall : ∀ c ∈ s, u.toLowercase c = [c]) : ∀ a ∈ u.nfkc s, u.toLowercase a = [a] := by
  refine fun a ha => hs.lower_of_canon a fun b hb => ?_
  have hmem : b ∈ s.flatMap d.canon :=
    (flatMap_canon_nfkc hn hc h).mem_iff.mp (List.mem_flatMap.mpr ⟨a, ha, hb⟩)
  obtain ⟨c, hcs, hbc⟩ := List.mem_flatMap.mp hmem
  exact hs.lower_canon c (hsmall c hcs) b hbc

include hx

/-- A letter with a case composes with no voicing mark. -/
theorem countP_voicing_cased {c : Char} {m : Text} (hcased : u.Cased c)
    (hmarks : ∀ b ∈ m, mark b = true) (hstable : ∀ a ∈ c :: m, u.nfkc [a] = [a]) :
    (u.nfkc (c :: m)).countP isVoicing = (c :: m).countP isVoicing := by
  have hcanon : ∀ t : Text, (∀ a ∈ t, isInert a = true) →
      (t.flatMap d.canon).countP isVoicing = t.countP isVoicing := fun t ht =>
    countP_flatMap_of_mem fun a ha => hx.canon_voicing a (inert_kana (ht a ha)).1
  rw [← hcanon _ fun a ha => (hc.inert c m hcased hmarks a ha).1,
    (flatMap_canon_nfkc hn hc hstable).countP_eq, hcanon]
  exact List.forall_mem_cons.mpr ⟨hx.cased c hcased, fun b hb => hx.marks b (hmarks b hb)⟩

omit hn hc hx in
theorem countP_voicing_run (o : NormalizeOptions) (s : Text) :
    (punctuate o (foldKana o s)).countP isVoicing = s.countP isVoicing := by
  have hout : ∀ p : Char → Bool, (∀ c, p c = true → c.toNat ≠ 0x3099 ∧ c.toNat ≠ 0x309A) →
      ∀ c, p c = true → isVoicing c = false := by
    intro p hp c h
    rw [isVoicing, beq_eq_false_iff_ne.mpr (hp c h).1, beq_eq_false_iff_ne.mpr (hp c h).2]
    rfl
  have hdash := hout isDash fun c h => by
    simp only [isDash, within, Bool.or_eq_true, Bool.and_eq_true, decide_eq_true_eq,
      beq_iff_eq] at h
    omega
  have hspace := hout isWhitespace fun c h => by
    simp only [isWhitespace, within, Bool.or_eq_true, Bool.and_eq_true, decide_eq_true_eq,
      beq_iff_eq] at h
    omega
  have hscript := hout isScript fun c h => by
    simp only [isScript, isKana, isKanji, within, Bool.or_eq_true, Bool.and_eq_true,
      decide_eq_true_eq, beq_iff_eq] at h
    omega
  rw [countP_punctuate hdash (by decide) hspace, countP_foldKana hscript]

/-- A text that the second run leaves is in NFKC. -/
theorem nfkc_of_fixed {n : Text} (hpieces : LowerPieces u mark n)
    (hfolded : ∀ c ∈ n, Folded u o c) (hsettled : KanaSettled o n)
    (hpunct : punctuate o n = n) (hrun : punctuate o (foldKana o (u.nfkc n)) = n) :
    u.nfkc n = n := by
  have hstable : ∀ c ∈ n, u.nfkc [c] = [c] := fun c hcn => (hfolded c hcn).nfkc
  obtain ⟨bs, hdiffer, hbs⟩ := hpieces.differ hn
  -- no cluster gains a voicing mark, and kana clusters lose one if NFKC changes them
  have hblock : ∀ b ∈ bs, b.2.countP isVoicing ≤ b.1.countP isVoicing ∧
      (b.2.countP isVoicing = b.1.countP isVoicing → b.1 ≠ b.2 →
        ∃ c m, b.1 = c :: m ∧ b.2 = u.nfkc (c :: m) ∧ u.Cased c ∧ ∀ a ∈ m, mark a = true) := by
    intro b hb
    obtain ⟨c, m, rfl, hL, hmarks, hmem⟩ := hbs b hb
    rcases hL with hcased | ⟨hscript, hm⟩
    · have hcount := countP_voicing_cased hn hc hx hcased hmarks fun a ha => hstable a (hmem a ha)
      exact ⟨hcount.le, fun _ _ => ⟨c, m, rfl, rfl, hcased, hmarks⟩⟩
    · rcases hx.composes c m hscript (hstable c (hmem c List.mem_cons_self)) hmarks hm with h | h
      · rw [h]
        exact ⟨Nat.le_refl _, fun _ hne => absurd rfl hne⟩
      · exact ⟨h.le, fun heq => absurd heq h.ne⟩
  have hcount : (u.nfkc n).countP isVoicing = n.countP isVoicing := by
    rw [← countP_voicing_run o, hrun]
  have hsame := (hdiffer.countP_le fun b hb => (hblock b hb).1).2 hcount
  have hcased : ∀ b ∈ bs.filter (fun b => b.1 ≠ b.2), ∃ c m, b.1 = c :: m ∧
      b.2 = u.nfkc (c :: m) ∧ u.Cased c ∧ (∀ a ∈ m, mark a = true) ∧ ∀ a ∈ b.1, a ∈ n := by
    intro b hb
    obtain ⟨hb, hne⟩ := List.mem_filter.mp hb
    obtain ⟨c, m, h1, h2, hcased, hmarks⟩ := (hblock b hb).2 (hsame b hb) (by simpa using hne)
    obtain ⟨_, _, hpair, _, _, hmem⟩ := hbs b hb
    refine ⟨c, m, h1, h2, hcased, hmarks, ?_⟩
    rw [hpair]
    exact hmem
  have hinert : InertBlocks (bs.filter fun b => b.1 ≠ b.2) := by
    intro b hb
    obtain ⟨c, m, h1, h2, hcase, hmarks, _⟩ := hcased b hb
    rw [h1, h2]
    exact ⟨List.forall_mem_cons.mpr ⟨hx.cased c hcase, fun a ha => hx.marks a (hmarks a ha)⟩,
      fun a ha => (hc.inert c m hcase hmarks a ha).1, by simp, hc.nfkc_ne _ (by simp)⟩
  -- the other clusters go through the run as they are
  have hfinal := differ_punctuate hinert (differ_foldKana hinert hdiffer.proper o) o
  rw [foldKana_of_settled hsettled, hpunct, hrun] at hfinal
  have hweight : ∀ t : Text, (t.map fun c => (d.canon c).length).sum =
      (t.flatMap d.canon).length := fun t => List.length_flatMap.symm
  have hblocks := (hfinal.eq_iff (fun c => (d.canon c).length)
    (fun c => List.length_pos_of_ne_nil (hc.canon_ne c)) fun b hb => by
      obtain ⟨c, m, h1, h2, _, _, hmem⟩ := hcased b hb
      rw [hweight, hweight, h2, ← h1,
        (flatMap_canon_nfkc hn hc fun a ha => hstable a (hmem a ha)).length_eq]).mp rfl
  exact (hdiffer.proper.eq hblocks).symm

variable (hm : u.Segments mark) (hk : u.Kana d)

include hm

omit hn in
theorem not_joint_lowered (o : NormalizeOptions) {t k : Text}
    (hkt : k ∈ clusters u.isWritten mark t) : ∀ a ∈ lowered u o k, isJoint a = false := by
  obtain ⟨c, m, rfl, hwritten, hmarks, _⟩ := mem_clusters hkt
  obtain ⟨a, m', hlower, _, hm', hL⟩ := lowered_cluster hm hc hx o hwritten hmarks
  rw [hlower, List.forall_mem_cons]
  exact ⟨hL.elim (fun h => isJoint_of_isInert (hx.cased a h)) fun h => isJoint_of_isScript h.1,
    fun b hb => isJoint_of_isInert (hx.marks b (hm' b hb))⟩

include hs hk

/-- What is written is in NFKC when lowercasing leaves nothing to compose in the clusters. -/
theorem nfkc_run_iff (o : NormalizeOptions) (x : Text) :
    u.nfkc (punctuate o (lowered u o (foldKana o (u.nfkc x)))) =
        punctuate o (lowered u o (foldKana o (u.nfkc x))) ↔
      ∀ k ∈ clusters u.isWritten mark (foldKana o (u.nfkc x)),
        u.nfc (lowered u o k) = lowered u o k := by
  constructor
  · intro h k hkt
    have hinfix : lowered u o k <:+: lowered u o (foldKana o (u.nfkc x)) := by
      obtain ⟨a, b, hsplit⟩ := clusters_infix hkt
      refine ⟨lowered u o a, lowered u o b, ?_⟩
      rw [← lowered_append, ← lowered_append, hsplit]
    obtain ⟨a, b, hsplit⟩ := infix_punctuate (not_joint_lowered hc hx hm o hkt) hinfix o
    rw [← hsplit] at h
    have hstable := (hn.nfkc_substring _ b h).1
    exact hn.nfc_of_nfkc _ (hn.nfkc_substring a _ hstable).2
  · intro h
    have hpieces : KanaPieces u mark (foldKana o (u.nfkc x)) :=
      (kanaPieces_of_nfkc hn hm hx (hn.nfkc_idem x)).foldKana hn hm hx o
    refine (joined_nfkc hn hs).punctuate (hpieces.nfkc_lowered hn hm hc hx fun k hkt => ?_) o
    refine hn.nfkc_of_nfc _ (h k hkt) fun c hck => ?_
    have hmem : c ∈ lowered u o (foldKana o (u.nfkc x)) := by
      obtain ⟨a, b, hsplit⟩ := clusters_infix hkt
      rw [← hsplit, lowered_append, lowered_append]
      exact List.mem_append_left _ (List.mem_append_right _ hck)
    exact (folded_run hn hs hk hx o x c hmem).nfkc

/-- Without `fold_diacritics` the second run changes nothing when there is nothing left to
compose in the clusters. -/
theorem fixed_iff_composed (hd : o.foldDiacritics = false) (x : Text) :
    normalize u o (normalize u o x) = normalize u o x ↔
      ∀ k ∈ clusters u.isWritten mark (foldKana o (u.nfkc x)),
        u.nfc (lowered u o k) = lowered u o k := by
  have hrun : ∀ x, normalize u o x = punctuate o (lowered u o (foldKana o (u.nfkc x))) := by
    intro x
    rw [normalize_eq, hd]
    rfl
  rw [← nfkc_run_iff hn hs hc hx hm hk]
  obtain ⟨w, hw⟩ : ∃ w, w = lowered u o (foldKana o (u.nfkc x)) := ⟨_, rfl⟩
  obtain ⟨n, hN⟩ : ∃ n, n = punctuate o w := ⟨_, rfl⟩
  have hfolded : ∀ c ∈ n, Folded u o c := by
    rw [hN, hw]
    exact Folded.of_mem_punctuate hn hs (folded_run hn hs hk hx o x)
  have hsettled : KanaSettled o n := by
    rw [hN, hw]
    exact (settled_lowered hn hs hk hx hc o x).punctuate
  have hpunct : punctuate o n = n := by rw [hN, punctuate_punctuate]
  have hpieces : LowerPieces u mark n := by
    rw [hN, hw]
    exact (joined_lowerPieces hn hx hs).punctuate (((kanaPieces_of_nfkc hn hm hx
      (hn.nfkc_idem x)).foldKana hn hm hx o).lowered hm hc hx o) o
  rw [hrun x, ← hw, ← hN, hrun n]
  have hstable : ∀ c ∈ n, u.nfkc [c] = [c] := fun c hcn => (hfolded c hcn).nfkc
  have hsmall : lowered u o (foldKana o (u.nfkc n)) = foldKana o (u.nfkc n) := by
    refine lowered_of_small fun ho => small_foldKana hx ?_ o
    exact small_nfkc hn hs hc hstable fun c hcn => (hfolded c hcn).lower ho
  rw [hsmall]
  constructor
  · exact nfkc_of_fixed hn hc hx hpieces hfolded hsettled hpunct
  · intro h
    rw [h, foldKana_of_settled hsettled, hpunct]

end Composition

/-! ### With `fold_diacritics` -/

namespace Steps

/-- One text repeats a mark where the other has one, and is the same elsewhere. -/
def Marked (a b : Char) : Prop := a = b ∨ isIterationMark a = true ∧ isIterationMark b = true

theorem expandFrom_marks (s : Text) (last : Option Char) :
    (expandFrom last s).countP isIterationMark ≤ s.countP isIterationMark ∧
      ((expandFrom last s).countP isIterationMark = s.countP isIterationMark →
        List.Forall₂ Marked s (expandFrom last s)) := by
  induction s generalizing last with
  | nil => exact ⟨Nat.le_refl 0, fun _ => .nil⟩
  | cons c s ih =>
    obtain ⟨hle, hmarked⟩ := ih (some ((replacement last c).getD c))
    rw [expandFrom, List.countP_cons, List.countP_cons]
    cases hc : isIterationMark c with
    | false =>
      rw [replacement_unmarked hc, Option.getD_none] at hle hmarked ⊢
      rw [hc, if_neg (by simp), Nat.add_zero, Nat.add_zero]
      exact ⟨hle, fun h => .cons (.inl rfl) (hmarked h)⟩
    | true =>
      rw [if_pos rfl]
      split
      · rename_i hr
        exact ⟨by omega, fun h => .cons (.inr ⟨hc, hr⟩) (hmarked (by omega))⟩
      · exact ⟨by omega, fun h => by omega⟩

theorem foldChoonpuFrom_of_count {s : Text} {prev : Bool}
    (h : (foldChoonpuFrom prev s).countP (·.toNat == 0x30FC) = s.countP (·.toNat == 0x30FC)) :
    foldChoonpuFrom prev s = s := by
  have hother := countP_foldChoonpuFrom (P := fun c => decide ¬ (c.toNat == 0x30FC) = true)
    (fun c hc => by simp [hc]) s prev
  refine (sublist_foldChoonpuFrom s prev).eq_of_length ?_
  rw [List.length_eq_countP_add_countP (·.toNat == 0x30FC), h, hother,
    ← List.length_eq_countP_add_countP]

theorem countP_marked {s t : Text} (h : List.Forall₂ Marked s t) :
    t.countP (·.toNat == 0x30FC) = s.countP (·.toNat == 0x30FC) := by
  have hnone : ∀ c, isIterationMark c = true → (c.toNat == 0x30FC) = false := by
    intro c hc
    simp only [isIterationMark, Bool.or_eq_true, beq_iff_eq] at hc
    rw [beq_eq_false_iff_ne]
    omega
  induction h with
  | nil => rfl
  | @cons a b s t hab _ ih =>
    have hletter : (b.toNat == 0x30FC) = (a.toNat == 0x30FC) := by
      rcases hab with rfl | ⟨ha, hb⟩
      · rfl
      · rw [hnone a ha, hnone b hb]
    rw [List.countP_cons, List.countP_cons, ih, hletter]

end Steps

/-- Iteration marks and the dakuten. -/
def isSign (c : Char) : Bool := isIterationMark c || c == dakuten

section Signs

variable {u : Unicode} {d : CharData} {mark : Char → Bool} {o : NormalizeOptions}
  (hn : u.NormalForms d) (hs : u.Scalars d) (hx : Script u d mark)

/-- The signs of a scalar's decomposition. -/
def signs (d : CharData) (c : Char) : Text := (d.canon c).filter isSign

include hx

theorem signs_mark {c : Char} (h : isIterationMark c = true) : ∃ a, isIterationMark a = true ∧
    signs d c = d.canon c ∧ (signs d c = [a] ∨ signs d c = [a, dakuten]) := by
  obtain ⟨a, ha, _, hcanon⟩ := hx.canon_mark c h
  have hsign : isSign a = true := by rw [isSign, ha]; rfl
  have hdakuten : isSign dakuten = true := rfl
  refine ⟨a, ha, ?_, ?_⟩
  · rcases hcanon with hcanon | hcanon <;> rw [signs, hcanon] <;> simp [hsign, hdakuten]
  · rcases hcanon with hcanon | hcanon
    · exact .inl (by rw [signs, hcanon]; simp [hsign])
    · exact .inr (by rw [signs, hcanon]; simp [hsign, hdakuten])

/-- Texts that differ in marks only are told apart by the signs. -/
theorem eq_of_signs {s t : Text} (h : List.Forall₂ Marked s t)
    (hsigns : s.flatMap (signs d) = t.flatMap (signs d)) : s = t := by
  -- read from the end: there a mark with a dakuten shows the dakuten, one without does not
  have hback : ∀ {s t : Text}, List.Forall₂ Marked s t →
      s.flatMap (fun c => (signs d c).reverse) = t.flatMap (fun c => (signs d c).reverse) →
        s = t := by
    intro s t h
    induction h with
    | nil => exact fun _ => rfl
    | @cons a b s t hab _ ih =>
      intro heq
      rw [List.flatMap_cons, List.flatMap_cons] at heq
      have hletter : a = b := by
        rcases hab with rfl | ⟨ha, hb⟩
        · rfl
        · obtain ⟨a', ha', hacanon, hasigns⟩ := signs_mark hx ha
          obtain ⟨b', hb', hbcanon, hbsigns⟩ := signs_mark hx hb
          have hne : ∀ e, isIterationMark e = true → e ≠ dakuten := by
            rintro e he rfl
            exact absurd he (by decide)
          refine hx.canon_inj a b ha hb ?_
          rw [← hacanon, ← hbcanon]
          rcases hasigns with hasigns | hasigns <;> rcases hbsigns with hbsigns | hbsigns <;>
            rw [hasigns, hbsigns] at heq ⊢
          · rw [(List.cons.inj heq).1]
          · exact absurd (List.cons.inj heq).1 (hne a' ha')
          · exact absurd (List.cons.inj heq).1.symm (hne b' hb')
          · rw [(List.cons.inj (List.cons.inj heq).2).1]
      subst hletter
      rw [ih (List.append_cancel_left heq)]
  have hreverse := congrArg List.reverse hsigns
  rw [List.reverse_flatMap, List.reverse_flatMap] at hreverse
  have heq := hback (List.forall₂_reverse_iff.mpr h) hreverse
  exact List.reverse_injective heq

include hn hs

theorem filter_nfd (s : Text) : (u.nfd s).filter isSign = s.flatMap (signs d) := by
  have hstarter : ∀ a, d.canon a = [a] → isIterationMark a = true → d.ccc a = 0 := by
    intro a hcanon ha
    obtain ⟨b, _, hccc, hb⟩ := hx.canon_mark a ha
    rw [hcanon] at hb
    rcases hb with hb | hb
    · rw [(List.cons.inj hb).1]
      exact hccc
    · cases (List.cons.inj hb).2
  rw [hn.nfd_eq, CanonicalOrder.reorder_filter, List.filter_flatMap]
  · rfl
  · intro a ha b hb hka hkb hpos hlt
    have hself : ∀ e ∈ s.flatMap d.canon, d.canon e = [e] := by
      intro e he
      obtain ⟨c, _, hec⟩ := List.mem_flatMap.mp he
      exact hs.canon_canon c e hec
    have hmark : ∀ e ∈ s.flatMap d.canon, isSign e = true → 0 < d.ccc e → e = dakuten := by
      intro e he hke hpos
      rcases Bool.or_eq_true_iff.mp hke with h | h
      · have hzero := hstarter e (hself e he) h
        omega
      · exact beq_iff_eq.mp h
    rw [hmark a ha hka hpos, hmark b hb hkb (by omega)] at hlt
    omega

/-- Dropping the accents keeps the signs. -/
theorem signs_foldDiacritics (s : Text) :
    (foldDiacritics u s).flatMap (signs d) = s.flatMap (signs d) := by
  have hkeep : ((u.nfd s).filter fun c => !combiningMarks c).filter isSign =
      (u.nfd s).filter isSign := by
    rw [List.filter_filter]
    refine List.filter_congr fun c _ => ?_
    cases hc : isSign c with
    | false => rfl
    | true =>
      have hnot : combiningMarks c = false := by
        rcases Bool.or_eq_true_iff.mp hc with h | h
        · simp only [isIterationMark, Bool.or_eq_true, beq_iff_eq] at h
          simp only [combiningMarks, within, Bool.and_eq_false_iff, decide_eq_false_iff_not]
          omega
        · rw [beq_iff_eq.mp h]
          decide
      rw [hnot]
      rfl
  have hself : ((u.nfd s).filter fun c => !combiningMarks c).flatMap (signs d) =
      ((u.nfd s).filter fun c => !combiningMarks c).filter isSign := by
    have hcanon : ((u.nfd s).filter fun c => !combiningMarks c).flatMap d.canon =
        (u.nfd s).filter fun c => !combiningMarks c :=
      (List.flatMap_congr fun a ha =>
        nfd_decomposed hn hs s a (List.mem_filter.mp ha).1).trans (List.flatMap_singleton' _)
    exact List.filter_flatMap.symm.trans (congrArg (List.filter isSign) hcanon)
  rw [← filter_nfd hn hs hx, foldDiacritics, hn.nfd_nfc, filter_nfd hn hs hx, hself, hkeep,
    filter_nfd hn hs hx]

omit hn hs in
theorem signs_punctuate (o : NormalizeOptions) (s : Text) :
    (punctuate o s).flatMap (signs d) = s.flatMap (signs d) := by
  have hempty : ∀ c, isScript c = false → c.toNat ≠ 0x3099 → c.toNat ≠ 0x309A →
      signs d c = [] := by
    intro c hc h1 h2
    have hmarks := hx.canon_marks c
    have hvoicing := hx.canon_voicing c (not_isKana_of_not_isScript hc)
    rw [List.countP_singleton, not_isIterationMark_of_not_isScript hc, if_neg (by simp),
      List.countP_eq_zero] at hmarks
    rw [List.countP_singleton, isVoicing, beq_eq_false_iff_ne.mpr h1, beq_eq_false_iff_ne.mpr h2,
      Bool.or_self, if_neg (by simp), List.countP_eq_zero] at hvoicing
    rw [signs, List.filter_eq_nil_iff]
    intro a ha hsign
    rcases Bool.or_eq_true_iff.mp hsign with h | h
    · exact hmarks a ha h
    · refine hvoicing a ha ?_
      rw [beq_iff_eq.mp h]
      rfl
  have hjoint : ∀ c, isJoint c = true → (!(signs d c).isEmpty) = false := by
    intro c hc
    have hne : ∀ n, isJoint (Char.ofNat n) = false → c ≠ Char.ofNat n := by
      rintro n hn rfl
      rw [hn] at hc
      cases hc
    have h1 := hne 0x3099 (by decide)
    have h2 := hne 0x309A (by decide)
    rw [hempty c (not_isScript_of_isJoint hc) (fun h => h1 (Char.toNat_inj.mp h))
      fun h => h2 (Char.toNat_inj.mp h)]
    rfl
  have hfilter : ∀ t : Text, t.flatMap (signs d) =
      (t.filter fun c => !(signs d c).isEmpty).flatMap (signs d) := by
    intro t
    induction t with
    | nil => rfl
    | cons c t ih =>
      rw [List.flatMap_cons, List.filter_cons, ih]
      cases hc : signs d c with
      | nil => rfl
      | cons a l =>
        rw [List.isEmpty_cons, Bool.not_false, if_pos rfl, List.flatMap_cons, hc]
  have hkeep : (punctuate o s).filter (fun c => !(signs d c).isEmpty) =
      s.filter fun c => !(signs d c).isEmpty := by
    refine filter_punctuate (fun c hc => hjoint c ?_) (hjoint ',' rfl) (fun c hc => hjoint c ?_) o s
    · rw [isJoint, hc]
      rfl
    · rw [isJoint, hc, Bool.or_true]
  rw [hfilter, hkeep, ← hfilter]

include hn hs

omit hx in
/-- A run that changes nothing has as many kana, kanji and marks of a kind as before. -/
theorem countP_of_fixed {n : Text} (hrun : punctuate o (foldDiacritics u (foldKana o n)) = n)
    {P : Char → Bool} (hP : ∀ c, P c = true → isScript c = true)
    (hcanon : ∀ c, (d.canon c).countP P = [c].countP P) :
    (foldKana o n).countP P = n.countP P := by
  have hjoint : ∀ c, isJoint c = true → P c = false := fun c hc =>
    Bool.eq_false_iff.mpr fun h => by
      rw [isJoint_of_isScript (hP c h)] at hc
      cases hc
  have hmarks : ∀ c, combiningMarks c = true → P c = false := fun c hc =>
    Bool.eq_false_iff.mpr fun h => by
      have hletter := hP c h
      simp only [isScript, isKana, isKanji, combiningMarks, within, Bool.or_eq_true,
        Bool.and_eq_true, decide_eq_true_eq, beq_iff_eq] at hletter hc
      omega
  have hdash : ∀ c, isDash c = true → P c = false := fun c hc =>
    hjoint c (by rw [isJoint, hc]; rfl)
  have hspace : ∀ c, isWhitespace c = true → P c = false := fun c hc =>
    hjoint c (by rw [isJoint, hc, Bool.or_true])
  have hdiacritics := countP_foldDiacritics hn hcanon hs hmarks (foldKana o n)
  rw [← countP_punctuate hdash (hjoint ',' rfl) hspace o, hrun] at hdiacritics
  exact hdiacritics.symm

/-- What the steps on kana change shows in the text that the run ends with. -/
theorem foldKana_of_fixed {n : Text} (hkata : o.kanaFold = true → ∀ c ∈ n, isKatakana c = false)
    (hrun : punctuate o (foldDiacritics u (foldKana o n)) = n) : foldKana o n = n := by
  have hmarks := countP_of_fixed hn hs hrun (fun _ => isScript_of_isIterationMark) hx.canon_marks
  have hchoonpu := countP_of_fixed hn hs hrun (fun c hc => isScript_of_isKana (by
    simp [isKana, within, beq_iff_eq.mp hc])) hx.canon_choonpu
  obtain ⟨e, he⟩ : ∃ e, e = if o.expandIterationMarks then expandIterationMarks n else n :=
    ⟨_, rfl⟩
  have hkana : (if o.kanaFold then kanaFold e else e) = e := by
    split
    · rename_i ho
      rw [he, kanaFold_expand, kanaFold_of_isKatakana (hkata ho)]
    · rfl
  have hfold : foldKana o n = if o.foldChoonpu then foldChoonpu e else e := by
    unfold foldKana
    dsimp only
    rw [← he, hkana]
  -- no mark was replaced by a letter
  have hpointwise : List.Forall₂ Marked n e := by
    have hcount : e.countP isIterationMark = n.countP isIterationMark := by
      rw [← hmarks, hfold]
      split
      · exact (countP_foldChoonpuFrom (fun c hc => by simp [isIterationMark, hc]) e false).symm
      · rfl
    rw [he] at hcount ⊢
    split
    · rename_i ho
      rw [if_pos ho] at hcount
      exact (expandFrom_marks n none).2 hcount
    · exact List.forall₂_same.mpr fun _ _ => .inl rfl
  -- and no `ー` dropped
  have hkept : foldKana o n = e := by
    rw [hfold] at hchoonpu ⊢
    split
    · rename_i ho
      rw [if_pos ho] at hchoonpu
      exact foldChoonpuFrom_of_count (hchoonpu.trans (countP_marked hpointwise).symm)
    · rfl
  have hsigns := signs_foldDiacritics hn hs hx (foldKana o n)
  rw [← signs_punctuate hx o, hrun, hkept] at hsigns
  rw [hkept]
  exact (eq_of_signs hx hpointwise hsigns).symm

end Signs

/-- No iteration mark stands after a letter it repeats, and no `ー` after a kana, as far as the
steps on them are on. -/
structure Quiet (o : NormalizeOptions) (s : Text) : Prop where
  marks : o.expandIterationMarks = true → Linked Repeats none s
  choonpu : o.foldChoonpu = true → Linked Unprolonged none s

instance (o : NormalizeOptions) (s : Text) : Decidable (Quiet o s) :=
  decidable_of_iff ((o.expandIterationMarks = true → Linked Repeats none s) ∧
      (o.foldChoonpu = true → Linked Unprolonged none s))
    ⟨fun h => ⟨h.1, h.2⟩, fun h => ⟨h.marks, h.choonpu⟩⟩

theorem quiet_punctuate_iff (o : NormalizeOptions) (s : Text) :
    Quiet o (punctuate o s) ↔ Quiet o s := by
  have hmarks := linked_punctuate_iff indifferent_repeats
    (fun last _ hc => repeats_of_not_isScript hc last) o s
  have hchoonpu := linked_punctuate_iff indifferent_unprolonged
    (fun last _ hc => unprolonged_of_not_isScript hc last) o s
  constructor
  · exact fun h => ⟨fun ho => hmarks.mp (h.marks ho), fun ho => hchoonpu.mp (h.choonpu ho)⟩
  · exact fun h => ⟨fun ho => hmarks.mpr (h.marks ho), fun ho => hchoonpu.mpr (h.choonpu ho)⟩

/-- With `fold_diacritics` the second run changes nothing when dropping the accents has put
nothing behind a letter that the steps on kana act on. -/
theorem fixed_iff_quiet {u : Unicode} {d : CharData} {mark : Char → Bool} {o : NormalizeOptions}
    (hn : u.NormalForms d) (hs : u.Scalars d) (hk : u.Kana d) (hx : Script u d mark)
    (hd : o.foldDiacritics = true) (x : Text) :
    normalize u o (normalize u o x) = normalize u o x ↔
      Quiet o (foldDiacritics u (lowered u o (foldKana o (u.nfkc x)))) := by
  have hrun : ∀ x, normalize u o x =
      punctuate o (foldDiacritics u (lowered u o (foldKana o (u.nfkc x)))) := by
    intro x
    rw [normalize_eq, hd]
    rfl
  have hletters := letters_foldDiacritics hn hs hk (folded_run hn hs hk hx o x)
  rw [← quiet_punctuate_iff]
  obtain ⟨n, hN⟩ : ∃ n, n = punctuate o (foldDiacritics u (lowered u o (foldKana o (u.nfkc x)))) :=
    ⟨_, rfl⟩
  have hwritten : Letters u d o n := by
    rw [hN]
    exact hletters.punctuate hn hs
  have hpunct : punctuate o n = n := by rw [hN, punctuate_punctuate]
  have hsmall : lowered u o (foldKana o n) = foldKana o n :=
    lowered_of_small fun ho => small_foldKana hx (hwritten.lower ho) o
  rw [hrun x, ← hN, hrun n, hwritten.nfkc, hsmall]
  constructor
  · intro h
    have hsettled := settled_foldKana o n
    rw [foldKana_of_fixed hn hs hx hwritten.kana h] at hsettled
    exact ⟨hsettled.marks, hsettled.choonpu⟩
  · intro h
    rw [foldKana_of_settled ⟨h.marks, hwritten.kana, h.choonpu⟩,
      foldDiacritics_of_letters hn hwritten hd, hpunct]

end Unfydqry
