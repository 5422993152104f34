import Unfydqry.Normalize.Counts
import Unfydqry.Normalize.Passes

/-! # Texts that differ in letter case

`lowercase` runs after NFKC. Canonical equivalence does not see the difference, so a text
and its lowercase variant meet if the diacritics step composes once more; without it they
meet if no capital keeps a mark that its small letter would compose with. -/

namespace Unfydqry

open Blocks (Differ)
open Steps

/-- `Ϲ`, which decomposes to `Σ`, while its small letter `ϲ` decomposes to `ς`. -/
def lunateSigma : Char := '\u03F9'

def finalSigma : Char := 'ς'

/-- A letter that has a case. -/
def Unicode.Cased (u : Unicode) (c : Char) : Prop :=
  u.isCapital c = true ∨ ∃ b, u.isCapital b = true ∧ (u.toLowercase b).head? = some c

/-- What the case folding relies on of the character data. -/
structure Casing (u : Unicode) (d : CharData) (mark : Char → Bool) : Prop
    extends Decomposing u d where
  /-- Only composites have more than one scalar in lower case. -/
  lower_single : ∀ a, d.canon a = [a] → ∃ b, u.toLowercase a = [b] ∧ d.ccc b = d.ccc a
  lower_marks : ∀ c, u.isCapital c = true →
    ∃ a m, u.toLowercase c = a :: m ∧ ∀ b ∈ m, mark b = true
  lower_canon : ∀ c, (u.toLowercase c).flatMap d.canon = (d.canon c).flatMap u.toLowercase
  lower_compat : ∀ c, c ≠ lunateSigma →
    ((u.toLowercase c).flatMap u.compat).flatMap u.toLowercase =
      (u.compat c).flatMap u.toLowercase
  /-- The small letter of a capital, and a mark, decompose to small letters and marks. -/
  compat_lower : ∀ c, u.isCapital c = true → ∀ b ∈ u.toLowercase c, ∀ a ∈ u.compat b,
    u.toLowercase a = [a]
  compat_mark : ∀ b, mark b = true → ∀ a ∈ u.compat b, u.toLowercase a = [a]
  /-- A letter that has a case forms no kana, kanji or punctuation with its marks. -/
  inert : ∀ c m, u.Cased c → (∀ b ∈ m, mark b = true) → ∀ a ∈ u.nfkc (c :: m),
    isInert a = true ∧ ∀ b ∈ u.toLowercase a, isInert b = true
  lower_lunate : u.toLowercase lunateSigma = ['\u03F2']
  compat_lunate : u.compat lunateSigma = ['Σ'] ∧ u.compat '\u03F2' = [finalSigma]
  lower_sigma : ∀ c, (u.toLowercase c).countP (· == finalSigma) = [c].countP (· == finalSigma)
  canon_sigma : ∀ c, (d.canon c).countP (· == finalSigma) = [c].countP (· == finalSigma)

variable {u : Unicode} {d : CharData} {mark : Char → Bool} {o : NormalizeOptions}
  (hn : u.NormalForms d) (hs : u.Scalars d) (hc : Casing u d mark)

section Lower

include hn hs

theorem nfd_decomposed (x : Text) : ∀ a ∈ u.nfd x, d.canon a = [a] := by
  intro a ha
  rw [hn.nfd_eq, (CanonicalOrder.reorder_perm d.ccc _).mem_iff, List.mem_flatMap] at ha
  obtain ⟨c, _, hac⟩ := ha
  exact hs.canon_canon c a hac

theorem compat_decomposed (x : Text) : ∀ a ∈ x.flatMap u.compat, d.canon a = [a] := by
  intro a ha
  obtain ⟨c, _, hac⟩ := List.mem_flatMap.mp ha
  exact nfd_decomposed hn hs _ a hac

include hc

omit hn hs in
theorem reorder_lowercase {y : Text} (hy : ∀ a ∈ y, d.canon a = [a]) :
    CanonicalOrder.reorder d.ccc (lowercase u y) =
      lowercase u (CanonicalOrder.reorder d.ccc y) := by
  obtain ⟨f, hf⟩ : ∃ f : Char → Char, f = fun a => (u.toLowercase a).headD a := ⟨_, rfl⟩
  have hlower : ∀ a ∈ y, u.toLowercase a = [f a] ∧ d.ccc (f a) = d.ccc a := by
    intro a ha
    obtain ⟨b, hb, hccc⟩ := hc.lower_single a (hy a ha)
    rw [hf]
    dsimp only
    rw [hb]
    exact ⟨rfl, hccc⟩
  have hmap : ∀ s : Text, (∀ a ∈ s, a ∈ y) → lowercase u s = s.map f := by
    intro s hs
    rw [lowercase, List.map_eq_flatMap]
    exact List.flatMap_congr fun a ha => (hlower a (hs a ha)).1
  rw [hmap y fun _ => id, CanonicalOrder.reorder_map fun a ha => (hlower a ha).2,
    hmap _ fun a ha => (CanonicalOrder.reorder_perm d.ccc y).mem_iff.mp ha]

theorem nfd_lowercase (x : Text) : u.nfd (lowercase u x) = lowercase u (u.nfd x) := by
  have hflat : (lowercase u x).flatMap d.canon = lowercase u (x.flatMap d.canon) := by
    rw [lowercase, lowercase, List.flatMap_assoc, List.flatMap_assoc]
    exact List.flatMap_congr fun c _ => hc.lower_canon c
  have hdecomposed : ∀ a ∈ x.flatMap d.canon, d.canon a = [a] := by
    intro a ha
    obtain ⟨c, _, hac⟩ := List.mem_flatMap.mp ha
    exact hs.canon_canon c a hac
  rw [hn.nfd_eq, hn.nfd_eq, hflat, reorder_lowercase hc hdecomposed]

theorem nfd_lowercase_nfkc (x : Text) : u.nfd (lowercase u (u.nfkc x)) =
    CanonicalOrder.reorder d.ccc (lowercase u (x.flatMap u.compat)) := by
  rw [nfd_lowercase hn hs hc, hc.nfd_nfkc, reorder_lowercase hc (compat_decomposed hn hs x)]

/-- Without a lunate sigma the variants are canonically equivalent once lowercased. -/
theorem nfd_case {x : Text} (hx : lunateSigma ∉ x) :
    u.nfd (lowercase u (u.nfkc (lowercase u x))) = u.nfd (lowercase u (u.nfkc x)) := by
  have hsame : lowercase u ((lowercase u x).flatMap u.compat) =
      lowercase u (x.flatMap u.compat) := by
    simp only [lowercase, List.flatMap_assoc]
    refine List.flatMap_congr fun c hcx => ?_
    rw [← List.flatMap_assoc]
    exact hc.lower_compat c fun hc => hx (hc ▸ hcx)
  rw [nfd_lowercase_nfkc hn hs hc, nfd_lowercase_nfkc hn hs hc, hsame]

end Lower

/-! ### The clusters that differ -/

section Blocks

variable (hm : u.Segments mark)

include hc hm

omit hm in
theorem case_varies : Varies u u.isCapital mark u.toLowercase where
  letter c h := .inl h
  image c h := by
    obtain ⟨a, m, hlower, hmarks⟩ := hc.lower_marks c h
    exact ⟨a, m, hlower, .inr (.inl ⟨c, h, by rw [hlower]; rfl⟩), hmarks⟩
  other c h := by simpa [Unicode.isCapital] using h

theorem lowercase_cluster {c : Char} {m : Text} (h : u.isCapital c = true)
    (hmarks : ∀ b ∈ m, mark b = true) : ∃ a m', lowercase u (c :: m) = a :: m' ∧ u.Cased a ∧
      ∀ b ∈ m', mark b = true := by
  obtain ⟨a, m', hlower, hm'⟩ := hc.lower_marks c h
  have hsame : m.flatMap u.toLowercase = m := by
    have hid : ∀ b ∈ m, u.toLowercase b = [b] := by
      intro b hb
      refine (case_varies hc).other b (Bool.eq_false_iff.mpr fun hcap => ?_)
      have hmark := hm.letter b (.inl hcap)
      rw [hmarks b hb] at hmark
      cases hmark
    rw [List.flatMap_congr hid, List.flatMap_singleton']
  refine ⟨a, m' ++ m, ?_, .inr ⟨c, h, by rw [hlower]; rfl⟩,
    List.forall_mem_append.mpr ⟨hm', hmarks⟩⟩
  rw [lowercase, List.flatMap_cons, hlower, hsame, List.cons_append]

/-- The clusters of capitals in the two forms, before and after lowercasing. -/
theorem inertBlocks_case (s : Text) :
    InertBlocks ((clusters u.isCapital mark s).map fun k => (u.nfkc k, u.nfkc (lowercase u k))) ∧
    InertBlocks ((clusters u.isCapital mark s).map fun k =>
      (lowercase u (u.nfkc k), lowercase u (u.nfkc (lowercase u k)))) := by
  have hnil : ∀ x : Text, x ≠ [] → lowercase u x ≠ [] := by
    intro x hx hempty
    obtain ⟨a, y, rfl⟩ := List.exists_cons_of_ne_nil hx
    rw [lowercase, List.flatMap_cons, List.append_eq_nil_iff] at hempty
    cases ha : u.isCapital a with
    | true =>
      obtain ⟨b, m, hb, _⟩ := hc.lower_marks a ha
      rw [hb] at hempty
      cases hempty.1
    | false =>
      rw [(case_varies hc).other a ha] at hempty
      cases hempty.1
  have hone : ∀ k : Text, (∃ c m, k = c :: m ∧ u.Cased c ∧ ∀ b ∈ m, mark b = true) →
      ((∀ a ∈ u.nfkc k, isInert a = true) ∧ u.nfkc k ≠ []) ∧
        (∀ a ∈ lowercase u (u.nfkc k), isInert a = true) ∧ lowercase u (u.nfkc k) ≠ [] := by
    rintro k ⟨c, m, rfl, hcased, hmarks⟩
    have hne := hc.nfkc_ne (c :: m) (by simp)
    refine ⟨⟨fun a ha => (hc.inert c m hcased hmarks a ha).1, hne⟩, fun a ha => ?_, hnil _ hne⟩
    obtain ⟨b, hb, hab⟩ := List.mem_flatMap.mp ha
    exact (hc.inert c m hcased hmarks b hb).2 a hab
  have hblock : ∀ k ∈ clusters u.isCapital mark s,
      (∃ c m, k = c :: m ∧ u.Cased c ∧ ∀ b ∈ m, mark b = true) ∧
        ∃ c m, lowercase u k = c :: m ∧ u.Cased c ∧ ∀ b ∈ m, mark b = true := by
    intro k hk
    obtain ⟨c, m, rfl, hcap, hmarks, _⟩ := mem_clusters hk
    exact ⟨⟨c, m, rfl, .inl hcap, hmarks⟩, lowercase_cluster hc hm hcap hmarks⟩
  refine ⟨fun b hb => ?_, fun b hb => ?_⟩
  · obtain ⟨k, hk, rfl⟩ := List.mem_map.mp hb
    obtain ⟨h1, h2⟩ := hblock k hk
    exact ⟨(hone k h1).1.1, (hone _ h2).1.1, (hone k h1).1.2, (hone _ h2).1.2⟩
  · obtain ⟨k, hk, rfl⟩ := List.mem_map.mp hb
    obtain ⟨h1, h2⟩ := hblock k hk
    exact ⟨(hone k h1).2.1, (hone _ h2).2.1, (hone k h1).2.2, (hone _ h2).2.2⟩

end Blocks

/-! ### The lunate sigma -/

section Sigma

include hn hs hc

theorem sigma_normalize (o : NormalizeOptions) (x : Text) :
    (normalize u o x).countP (· == finalSigma) =
      (x.flatMap u.compat).countP (· == finalSigma) := by
  have hne : ∀ p : Char → Bool, p finalSigma = false → ∀ c, p c = true →
      (c == finalSigma) = false := by
    intro p hp c h
    rw [beq_eq_false_iff_ne]
    rintro rfl
    rw [hp] at h
    cases h
  have hnfkc : (u.nfkc x).countP (· == finalSigma) =
      (x.flatMap u.compat).countP (· == finalSigma) := by
    rw [← countP_nfd hn hc.canon_sigma, hc.nfd_nfkc,
      (CanonicalOrder.reorder_perm d.ccc _).countP_eq]
  rw [normalize_eq, countP_punctuate (hne isDash (by decide)) (by decide)
    (hne isWhitespace (by decide))]
  exact (countP_optional _ (countP_foldDiacritics hn hc.canon_sigma hs
    (hne combiningMarks (by decide)) _)).trans
    ((countP_optional _ (countP_flatMap hc.lower_sigma _)).trans
      ((countP_foldKana (hne isScript (by decide)) o _).trans hnfkc))

omit hn hs in
/-- Every lunate sigma makes one more final sigma of the variant in small letters. -/
theorem sigma_lowercase (x : Text) :
    ((lowercase u x).flatMap u.compat).countP (· == finalSigma) =
      (x.flatMap u.compat).countP (· == finalSigma) + x.count lunateSigma := by
  have hone : ∀ c, ((u.toLowercase c).flatMap u.compat).countP (· == finalSigma) =
      (u.compat c).countP (· == finalSigma) + [c].count lunateSigma := by
    intro c
    by_cases hlunate : c = lunateSigma
    · subst hlunate
      rw [hc.lower_lunate, hc.compat_lunate.1, List.flatMap_singleton, hc.compat_lunate.2]
      decide
    · rw [← countP_flatMap hc.lower_sigma, hc.lower_compat c hlunate,
        countP_flatMap hc.lower_sigma, List.count_singleton, beq_eq_false_iff_ne.mpr hlunate]
      rfl
  induction x with
  | nil => rfl
  | cons c x ih =>
    have htail : (c :: x).count lunateSigma = [c].count lunateSigma + x.count lunateSigma := by
      rw [← List.singleton_append, List.count_append]
    rw [lowercase] at ih ⊢
    rw [List.flatMap_cons, List.flatMap_append, List.countP_append, hone, ih, List.flatMap_cons,
      List.countP_append, htail]
    omega

theorem lunate_not_mem {x : Text} (h : normalize u o (lowercase u x) = normalize u o x) :
    lunateSigma ∉ x := by
  have hcount := sigma_normalize hn hs hc o (lowercase u x)
  rw [h, sigma_normalize hn hs hc, sigma_lowercase hc] at hcount
  rw [← List.count_eq_zero]
  omega

end Sigma

/-! ### When the variants meet -/

section Meet

variable (hm : u.Segments mark)

include hn hs hc

theorem lowercase_small {k x : Text} (hk : k ∈ clusters u.isCapital mark x)
    (hm : u.Segments mark) :
    lowercase u (u.nfkc (lowercase u k)) = u.nfkc (lowercase u k) := by
  obtain ⟨c, m, rfl, hcap, hmarks, _⟩ := mem_clusters hk
  have hsmall : ∀ e ∈ lowercase u (c :: m), ∀ b ∈ u.compat e, u.toLowercase b = [b] := by
    intro e he
    obtain ⟨c₀, hc₀, hec⟩ := List.mem_flatMap.mp he
    rcases List.mem_cons.mp hc₀ with rfl | hc₀
    · exact hc.compat_lower _ hcap e hec
    · have hmark := hmarks c₀ hc₀
      have hsame : u.toLowercase c₀ = [c₀] := by
        refine (case_varies hc).other c₀ (Bool.eq_false_iff.mpr fun h => ?_)
        rw [hm.letter c₀ (.inl h)] at hmark
        cases hmark
      rw [hsame, List.mem_singleton] at hec
      rw [hec]
      exact hc.compat_mark c₀ hmark
  have hid : ∀ a ∈ u.nfkc (lowercase u (c :: m)), u.toLowercase a = [a] := by
    intro a ha
    refine hs.lower_of_canon a fun b hb => ?_
    have hmem : b ∈ u.nfd (u.nfkc (lowercase u (c :: m))) := by
      rw [hn.nfd_eq, (CanonicalOrder.reorder_perm d.ccc _).mem_iff]
      exact List.mem_flatMap.mpr ⟨a, ha, hb⟩
    rw [hc.nfd_nfkc, (CanonicalOrder.reorder_perm d.ccc _).mem_iff] at hmem
    obtain ⟨e, he, hbe⟩ := List.mem_flatMap.mp hmem
    exact hsmall e he b hbe
  exact (List.flatMap_congr hid).trans (List.flatMap_singleton' _)

include hm

/-- A cluster meets its variant if lowercasing leaves nothing to compose. -/
theorem cluster_meets_iff {k x : Text} (hk : k ∈ clusters u.isCapital mark x)
    (hlunate : lunateSigma ∉ k) :
    lowercase u (u.nfkc k) = lowercase u (u.nfkc (lowercase u k)) ↔
      u.nfc (lowercase u (u.nfkc k)) = lowercase u (u.nfkc k) := by
  have hsmall := lowercase_small hn hs hc hk hm
  have hstable : u.nfc (u.nfkc (lowercase u k)) = u.nfkc (lowercase u k) :=
    hn.nfc_of_nfkc _ (hn.nfkc_idem _)
  have hform : u.nfc (lowercase u (u.nfkc k)) = u.nfkc (lowercase u k) := by
    rw [← hn.nfc_nfd, ← nfd_case hn hs hc hlunate, hn.nfc_nfd, hsmall, hstable]
  rw [hsmall, hform]
  exact eq_comm

omit hs in
theorem case_differ (x : Text) : Differ
    ((clusters u.isCapital mark x).map fun k => (u.nfkc k, u.nfkc (lowercase u k)))
    (foldKana o (u.nfkc x)) (foldKana o (u.nfkc (lowercase u x))) :=
  differ_foldKana (inertBlocks_case hc hm x).1 ((case_varies hc).differ hn hm x) o

omit hs hc hm in
theorem nfd_lowercase_congr {p q s t : Text}
    (hp : u.nfd (lowercase u p) = u.nfd (lowercase u q))
    (hs : u.nfd (lowercase u s) = u.nfd (lowercase u t)) :
    u.nfd (lowercase u (p ++ s)) = u.nfd (lowercase u (q ++ t)) := by
  have happend : ∀ a b : Text, lowercase u (a ++ b) = lowercase u a ++ lowercase u b :=
    fun _ _ => List.flatMap_append
  rw [hn.nfd_eq, hn.nfd_eq] at hp hs
  rw [hn.nfd_eq, hn.nfd_eq, happend, happend, List.flatMap_append, List.flatMap_append,
    CanonicalOrder.reorder_append_congr hp hs]

theorem case_meets_of_diacritics (ho : o.lowercase = true) (hd : o.foldDiacritics = true)
    {x : Text} (hx : lunateSigma ∉ x) : normalize u o (lowercase u x) = normalize u o x := by
  have hnfd : u.nfd (lowercase u (foldKana o (u.nfkc x))) =
      u.nfd (lowercase u (foldKana o (u.nfkc (lowercase u x)))) := by
    refine (case_differ hn hc hm x).congr (F := fun s => u.nfd (lowercase u s))
      (nfd_lowercase_congr hn) fun b hb => ?_
    obtain ⟨k, hk, rfl⟩ := List.mem_map.mp hb
    obtain ⟨_, _, _, _, _, hsub⟩ := mem_clusters hk
    exact (nfd_case hn hs hc fun h => hx (hsub _ h)).symm
  simp only [normalize_eq, ho, hd, if_true, foldDiacritics, hnfd]

theorem case_meets_iff_clusters (ho : o.lowercase = true) (hd : o.foldDiacritics = false)
    {x : Text} (hx : lunateSigma ∉ x) : normalize u o (lowercase u x) = normalize u o x ↔
      ∀ k ∈ clusters u.isCapital mark x,
        u.nfc (lowercase u (u.nfkc k)) = lowercase u (u.nfkc k) := by
  have hkeep : ∀ k ∈ clusters u.isCapital mark x, lunateSigma ∉ k := by
    intro k hk h
    obtain ⟨_, _, _, _, _, hsub⟩ := mem_clusters hk
    exact hx (hsub _ h)
  have hlower : Differ ((clusters u.isCapital mark x).map fun k =>
        (lowercase u (u.nfkc k), lowercase u (u.nfkc (lowercase u k))))
      (lowercase u (foldKana o (u.nfkc x)))
      (lowercase u (foldKana o (u.nfkc (lowercase u x)))) := by
    have h := (case_differ hn hc hm (o := o) x).flatMap u.toLowercase
    rw [List.map_map] at h
    exact h
  have hfinal := differ_punctuate (inertBlocks_case hc hm x).2 hlower o
  have hweight : ∀ t : Text, (t.map fun c => (d.canon c).length).sum = (u.nfd t).length := by
    intro t
    rw [hn.nfd_eq, (CanonicalOrder.reorder_perm d.ccc _).length_eq, List.length_flatMap]
  have hiff := hfinal.eq_iff (fun c => (d.canon c).length)
    (fun c => List.length_pos_of_ne_nil (hc.canon_ne c)) fun b hb => by
      obtain ⟨k, hk, rfl⟩ := List.mem_map.mp hb
      rw [hweight, hweight, nfd_case hn hs hc (hkeep k hk)]
  simp only [normalize_eq, ho, hd, if_true, Bool.false_eq_true, if_false]
  rw [eq_comm, hiff, List.forall_mem_map]
  exact forall₂_congr fun k hk => cluster_meets_iff hn hs hc hm hk (hkeep k hk)

theorem case_meets_iff (ho : o.lowercase = true) (x : Text) :
    normalize u o (lowercase u x) = normalize u o x ↔
      lunateSigma ∉ x ∧ (o.foldDiacritics = false → ∀ k ∈ clusters u.isCapital mark x,
        u.nfc (lowercase u (u.nfkc k)) = lowercase u (u.nfkc k)) := by
  by_cases hx : lunateSigma ∈ x
  · exact ⟨fun h => absurd hx (lunate_not_mem hn hs hc h), fun h => absurd hx h.1⟩
  · rw [and_iff_right hx]
    cases hd : o.foldDiacritics with
    | true =>
      exact iff_of_true (case_meets_of_diacritics hn hs hc hm ho hd hx) (by simp)
    | false =>
      rw [case_meets_iff_clusters hn hs hc hm ho hd hx]
      simp only [forall_const]

end Meet

end Unfydqry
