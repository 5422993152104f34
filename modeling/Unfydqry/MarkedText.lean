import Unfydqry.Engine.TableLoop

/-! # Marking keeps the text

Whatever the normalizer, the two marking functions slice the text at character boundaries in
increasing order and wrap one piece for each match, so without the markers the text is back. -/

namespace Unfydqry.Highlight

/-- The pieces before and in each region, the latter wrapped, and the rest of the text. -/
def weave (before after : Text) (pieces : List (Text × Text)) (tail : Text) : Text :=
  (pieces.flatMap fun p => p.1 ++ before ++ p.2 ++ after) ++ tail

/-- The matches that are marked; an empty needle has none. -/
def markedMatches (needle norm : Text) : List ℕ :=
  if needle.isEmpty then [] else matchIndices needle norm

/-- `out` is the text `s` with the regions wrapped, one for each of `n` matches. -/
structure Marks (s before after : Text) (n : ℕ) (regions : List (ℕ × ℕ))
    (pieces : List (Text × Text)) (tail : Text) (out : Option Text) : Prop where
  inOrder : InOrder 0 regions
  boundary : ∀ r ∈ regions, Boundary s r.1 ∧ Boundary s r.2
  slices : List.Forall₂ (fun r p => slice s r.1 r.2 = some p.2) regions pieces
  count : pieces.length = n
  marked : out = some (weave before after pieces tail)
  plain : weave [] [] pieces tail = s

theorem weave_cons (before after gap marked : Text) (pieces : List (Text × Text)) (tail : Text) :
    weave before after ((gap, marked) :: pieces) tail =
      gap ++ before ++ marked ++ after ++ weave before after pieces tail := by
  rw [weave, List.flatMap_cons, List.append_assoc]
  rfl

/-- The loop over the regions takes the text apart; `p` is what has been written. -/
theorem markRanges_weave (s before after p : Text) (ranges : List (ℕ × ℕ)) (hp : p <+: s)
    (h : InOrder (byteLen p) ranges) (hranges : ∀ r ∈ ranges, Boundary s r.1 ∧ Boundary s r.2) :
    ∃ pieces tail,
      markRanges s before after (byteLen p) ranges = some (weave before after pieces tail) ∧
      p ++ weave [] [] pieces tail = s ∧
      List.Forall₂ (fun r q => slice s r.1 r.2 = some q.2) ranges pieces := by
  induction ranges generalizing p with
  | nil =>
    obtain ⟨t, ht⟩ := hp
    have hslice : slice s (byteLen p) (byteLen s) = some t := by
      have hwhole := slice_append p t []
      rwa [List.append_nil, ht] at hwhole
    exact ⟨[], t, hslice, ht, .nil⟩
  | cons r ranges ih =>
    obtain ⟨hstart, hstop, hrest⟩ := h
    rw [List.forall_mem_cons] at hranges
    obtain ⟨⟨a, ha, hra⟩, ⟨b, hb, hrb⟩⟩ := hranges.1
    obtain ⟨start, stop⟩ := r
    dsimp only at hstart hstop hrest hra hrb
    subst hra hrb
    obtain ⟨gap, rfl⟩ := prefix_of_byteLen_le hp ha hstart
    obtain ⟨marked, rfl⟩ := prefix_of_byteLen_le ha hb hstop
    obtain ⟨pieces, tail, hmark, hplain, hslices⟩ := ih _ hb hrest hranges.2
    have hgap : slice s (byteLen p) (byteLen (p ++ gap)) = some gap := by
      obtain ⟨t, rfl⟩ := ha
      exact slice_append p gap t
    have hmarked : slice s (byteLen (p ++ gap)) (byteLen (p ++ gap ++ marked)) = some marked := by
      obtain ⟨t, rfl⟩ := hb
      exact slice_append (p ++ gap) marked t
    refine ⟨(gap, marked) :: pieces, tail, ?_, ?_, .cons hmarked hslices⟩
    · rw [markRanges]
      simp only [hgap, hmarked, hmark, Option.bind_eq_bind, Option.bind_some, weave_cons]
    · rw [weave_cons, List.append_nil, List.append_nil, ← List.append_assoc, ← List.append_assoc]
      exact hplain

theorem marks_of_markRanges {s : Text} (before after : Text) {ranges : List (ℕ × ℕ)}
    (h : InOrder 0 ranges) (hranges : ∀ r ∈ ranges, Boundary s r.1 ∧ Boundary s r.2) :
    ∃ pieces tail, Marks s before after ranges.length ranges pieces tail
      (markRanges s before after 0 ranges) := by
  obtain ⟨pieces, tail, hmark, hplain, hslices⟩ :=
    markRanges_weave s before after [] ranges List.nil_prefix h hranges
  exact ⟨pieces, tail, h, hranges, hslices, hslices.length_eq.symm, hmark, hplain⟩

theorem marks_none (s before after : Text) : Marks s before after 0 [] [] s (some s) :=
  ⟨trivial, by simp, .nil, rfl, rfl, rfl⟩

theorem highlightRaw_marks (raw norm needle before after : Text) (normalize : Text → Text) :
    ∃ regions pieces tail, Marks raw before after (markedMatches needle norm).length regions pieces
      tail (highlightRaw raw norm needle before after normalize) := by
  by_cases hne : needle = []
  · subst hne
    exact ⟨[], [], raw, marks_none raw before after⟩
  · obtain ⟨pieces, tail, h⟩ := marks_of_markRanges before after
      (regions_inOrder raw norm needle normalize) (regions_boundary raw norm needle normalize)
    have hcount : (regions raw norm needle normalize).length =
        (markedMatches needle norm).length := by
      have hclamp : ∀ (f g : ℕ → ℕ) (prevEnd : ℕ) (ranges : List (ℕ × ℕ)),
          (clampRanges f g prevEnd ranges).length = ranges.length := by
        intro f g prevEnd ranges
        induction ranges generalizing prevEnd with
        | nil => rfl
        | cons r ranges ih => rw [clampRanges, List.length_cons, ih, List.length_cons]
      rw [regions, hclamp, matchRanges, List.length_map, markedMatches,
        List.isEmpty_eq_false_iff.mpr hne, if_neg (by simp)]
    rw [highlightRaw_eq hne, ← hcount]
    exact ⟨_, pieces, tail, h⟩

/-! ### Marking the stored form -/

theorem matchRanges_inOrder (needle s : Text) : InOrder 0 (matchRanges needle s) := by
  have hloop : ∀ (ranges : List (ℕ × ℕ)) (prevEnd : ℕ), (∀ r ∈ ranges, prevEnd ≤ r.1 ∧ r.1 ≤ r.2) →
      (ranges.Pairwise fun a b => a.2 ≤ b.1) → InOrder prevEnd ranges := by
    intro ranges
    induction ranges with
    | nil => exact fun _ _ _ => trivial
    | cons r ranges ih =>
      intro prevEnd hle hpair
      rw [List.forall_mem_cons] at hle
      rw [List.pairwise_cons] at hpair
      exact ⟨hle.1.1, hle.1.2, ih r.2 (fun r' hr' => ⟨hpair.1 r' hr', (hle.2 r' hr').2⟩) hpair.2⟩
  refine hloop _ 0 (fun r hr => ⟨Nat.zero_le _, ?_⟩) (matchRanges_apart needle s)
  obtain ⟨a, b, _, rfl⟩ := mem_matchRanges hr
  exact byteLen_mono (List.prefix_append _ _)

theorem matchRanges_slice {needle s : Text} {r : ℕ × ℕ} (hr : r ∈ matchRanges needle s) :
    (Boundary s r.1 ∧ Boundary s r.2) ∧ slice s r.1 r.2 = some needle := by
  obtain ⟨a, b, rfl, rfl⟩ := mem_matchRanges hr
  refine ⟨⟨⟨a, ?_, rfl⟩, ⟨a ++ needle, List.prefix_append _ _, rfl⟩⟩, slice_append a needle b⟩
  rw [List.append_assoc]
  exact List.prefix_append _ _

theorem pieces_eq {s needle : Text} {ranges : List (ℕ × ℕ)} {pieces : List (Text × Text)}
    (h : List.Forall₂ (fun r p => slice s r.1 r.2 = some p.2) ranges pieces)
    (hranges : ∀ r ∈ ranges, slice s r.1 r.2 = some needle) : ∀ p ∈ pieces, p.2 = needle := by
  induction h with
  | nil => simp
  | cons hslice _ ih =>
    rw [List.forall_mem_cons] at hranges ⊢
    rw [hranges.1, Option.some.injEq] at hslice
    exact ⟨hslice.symm, ih hranges.2⟩

theorem highlightOccurrences_marks (haystack needle before after : Text) :
    ∃ regions pieces tail,
      Marks haystack before after (markedMatches needle haystack).length regions
        pieces tail (highlightOccurrences haystack needle before after) ∧
      ∀ p ∈ pieces, p.2 = needle := by
  unfold highlightOccurrences markedMatches
  by_cases hne : needle.isEmpty = true
  · rw [if_pos hne, if_pos hne]
    exact ⟨[], [], haystack, marks_none haystack before after, by simp⟩
  · rw [if_neg hne, if_neg hne]
    by_cases hnone : (matchIndices needle haystack).isEmpty = true
    · have hnil := List.isEmpty_iff.mp hnone
      simp only [hnil, List.isEmpty_nil, if_true]
      exact ⟨[], [], haystack, marks_none haystack before after, by simp⟩
    · obtain ⟨pieces, tail, h⟩ := marks_of_markRanges before after
        (matchRanges_inOrder needle haystack) fun r hr => (matchRanges_slice hr).1
      have hcount : (matchRanges needle haystack).length = (matchIndices needle haystack).length :=
        List.length_map _
      have hneedle := pieces_eq h.slices fun r hr => (matchRanges_slice hr).2
      rw [hcount] at h
      dsimp only
      rw [if_neg hnone]
      exact ⟨_, pieces, tail, h, hneedle⟩

/-- Marking never fails, slices the text at character boundaries in increasing order, and only
adds markers: a pair around a region for each match. In the stored form the region is the
match itself. -/
theorem marking_keeps_text (raw norm needle before after : Text) (normalize : Text → Text) :
    (∃ regions pieces tail, Marks raw before after (markedMatches needle norm).length regions pieces
      tail (highlightRawIndexed raw norm needle before after normalize)) ∧
    ∃ regions pieces tail, Marks raw before after (markedMatches needle raw).length regions pieces
        tail (highlightOccurrences raw needle before after) ∧
      ∀ p ∈ pieces, p.2 = needle := by
  rw [highlightRawIndexed_eq]
  exact ⟨highlightRaw_marks raw norm needle before after normalize,
    highlightOccurrences_marks raw needle before after⟩

end Unfydqry.Highlight
