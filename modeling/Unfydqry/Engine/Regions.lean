import Unfydqry.Engine.Highlight

/-! # The regions `highlight` marks

Every offset of the table is the end of a raw prefix, so no slice fails whatever the
binary searches return, and the regions come one after the other. -/

namespace Unfydqry.Highlight

open PartitionPoint

/-! ### Bytes -/

theorem byteLen_nil : byteLen [] = 0 := rfl

theorem byteLen_cons (c : Char) (s : Text) : byteLen (c :: s) = c.utf8Size + byteLen s := rfl

theorem byteLen_append (a b : Text) : byteLen (a ++ b) = byteLen a + byteLen b := by
  simp only [byteLen, List.map_append, List.sum_append]

theorem byteLen_pos {s : Text} (h : s ≠ []) : 0 < byteLen s := by
  cases s with
  | nil => exact absurd rfl h
  | cons c s =>
    have hc := Char.utf8Size_pos c
    rw [byteLen_cons]
    omega

theorem splitAtByte_append (a b : Text) : splitAtByte (byteLen a) (a ++ b) = some (a, b) := by
  induction a with
  | nil => cases b <;> rfl
  | cons c a ih =>
    have hc := Char.utf8Size_pos c
    have hne : c.utf8Size + byteLen a ≠ 0 := by omega
    rw [byteLen_cons, List.cons_append, splitAtByte, if_neg hne, if_pos (Nat.le_add_right _ _),
      Nat.add_sub_cancel_left, ih]
    rfl

theorem slice_append (a t b : Text) :
    slice (a ++ t ++ b) (byteLen a) (byteLen (a ++ t)) = some t := by
  have hle : byteLen a ≤ byteLen (a ++ t) := by
    rw [byteLen_append]
    omega
  rw [slice, if_pos hle, splitAtByte_append, Option.bind_some, splitAtByte_append]
  rfl

theorem byteLen_mono {a b : Text} (h : a <+: b) : byteLen a ≤ byteLen b := by
  obtain ⟨t, rfl⟩ := h
  rw [byteLen_append]
  omega

theorem prefix_of_byteLen_le {s a b : Text} (ha : a <+: s) (hb : b <+: s)
    (h : byteLen a ≤ byteLen b) : a <+: b := by
  rcases List.prefix_or_prefix_of_prefix ha hb with hab | ⟨t, ht⟩
  · exact hab
  · have hlen := congrArg byteLen ht
    rw [byteLen_append] at hlen
    have hnil : t = [] := by
      by_contra hne
      have hpos := byteLen_pos hne
      omega
    rw [hnil, List.append_nil] at ht
    rw [ht]

theorem prefix_of_byteLen_lt {s a b : Text} (ha : a <+: s) (hb : b <+: s) :
    byteLen a < byteLen b ↔ ¬ b <+: a := by
  constructor
  · intro h hba
    have hle := byteLen_mono hba
    omega
  · intro h
    by_contra hlt
    exact h (prefix_of_byteLen_le hb ha (by omega))

/-- A byte offset between two characters. -/
def Boundary (s : Text) (n : ℕ) : Prop := ∃ p, p <+: s ∧ byteLen p = n

theorem boundary_zero (s : Text) : Boundary s 0 := ⟨[], List.nil_prefix, rfl⟩

theorem boundary_end (s : Text) : Boundary s (byteLen s) := ⟨s, List.prefix_refl s, rfl⟩

theorem boundary_max {s : Text} {m n : ℕ} (hm : Boundary s m) (hn : Boundary s n) :
    Boundary s (max m n) := by
  rcases Nat.le_total m n with h | h
  · rwa [Nat.max_eq_right h]
  · rwa [Nat.max_eq_left h]

theorem slice_of_boundary {s : Text} {m n : ℕ} (hm : Boundary s m) (hn : Boundary s n) (h : m ≤ n) :
    ∃ t, slice s m n = some t ∧ byteLen t = n - m := by
  obtain ⟨a, ha, rfl⟩ := hm
  obtain ⟨b, hb, rfl⟩ := hn
  obtain ⟨t, rfl⟩ := prefix_of_byteLen_le ha hb h
  obtain ⟨c, rfl⟩ := hb
  refine ⟨t, slice_append a t c, ?_⟩
  rw [byteLen_append]
  omega

theorem slice_ne_nil_iff {s : Text} {m n : ℕ} (hm : Boundary s m) (hn : Boundary s n) (h : m ≤ n) :
    (∃ t, slice s m n = some t ∧ t ≠ []) ↔ m < n := by
  obtain ⟨t, ht, hlen⟩ := slice_of_boundary hm hn h
  constructor
  · rintro ⟨t', ht', hne⟩
    rw [ht, Option.some.injEq] at ht'
    subst ht'
    have hpos := byteLen_pos hne
    omega
  · intro hlt
    refine ⟨t, ht, fun hnil => ?_⟩
    rw [hnil, byteLen_nil] at hlen
    omega

/-! ### Regions in order -/

/-- Each region starts where the one before ended or later, and the first one at `prevEnd` or
later. -/
def InOrder : ℕ → List (ℕ × ℕ) → Prop
  | _, [] => True
  | prevEnd, (start, stop) :: ranges => prevEnd ≤ start ∧ start ≤ stop ∧ InOrder stop ranges

theorem InOrder.start_le {prevEnd : ℕ} {ranges : List (ℕ × ℕ)} (h : InOrder prevEnd ranges) :
    ∀ r ∈ ranges, prevEnd ≤ r.1 ∧ r.1 ≤ r.2 := by
  induction ranges generalizing prevEnd with
  | nil => simp
  | cons r ranges ih =>
    obtain ⟨hstart, hstop, hrest⟩ := h
    intro r' hr'
    rcases List.mem_cons.mp hr' with rfl | hr'
    · exact ⟨hstart, hstop⟩
    · have hle := ih hrest r' hr'
      omega

theorem InOrder.pairwise {prevEnd : ℕ} {ranges : List (ℕ × ℕ)} (h : InOrder prevEnd ranges) :
    ranges.Pairwise fun a b => a.2 ≤ b.1 := by
  induction ranges generalizing prevEnd with
  | nil => exact List.Pairwise.nil
  | cons r ranges ih =>
    obtain ⟨_, _, hrest⟩ := h
    exact List.pairwise_cons.mpr ⟨fun r' hr' => (hrest.start_le r' hr').1, ih hrest⟩

theorem markRanges_some {s : Text} (before after : Text) {prevEnd : ℕ} {ranges : List (ℕ × ℕ)}
    (hprev : Boundary s prevEnd) (h : InOrder prevEnd ranges)
    (hranges : ∀ r ∈ ranges, Boundary s r.1 ∧ Boundary s r.2) :
    ∃ out, markRanges s before after prevEnd ranges = some out := by
  induction ranges generalizing prevEnd with
  | nil =>
    obtain ⟨p, hp, rfl⟩ := hprev
    obtain ⟨t, ht, _⟩ := slice_of_boundary ⟨p, hp, rfl⟩ (boundary_end s) (byteLen_mono hp)
    exact ⟨t, ht⟩
  | cons r ranges ih =>
    obtain ⟨hstart, hstop, hrest⟩ := h
    rw [List.forall_mem_cons] at hranges
    obtain ⟨gap, hgap, _⟩ := slice_of_boundary hprev hranges.1.1 hstart
    obtain ⟨marked, hmarked, _⟩ := slice_of_boundary hranges.1.1 hranges.1.2 hstop
    obtain ⟨rest, hrest⟩ := ih hranges.1.2 hrest hranges.2
    refine ⟨gap ++ before ++ marked ++ after ++ rest, ?_⟩
    simp only [markRanges, hgap, hmarked, hrest, Option.bind_eq_bind, Option.bind_some]

theorem clampRanges_inOrder (startFor endFor : ℕ → ℕ) (prevEnd : ℕ) (ranges : List (ℕ × ℕ)) :
    InOrder prevEnd (clampRanges startFor endFor prevEnd ranges) := by
  induction ranges generalizing prevEnd with
  | nil => trivial
  | cons r ranges ih => exact ⟨Nat.le_max_right _ _, Nat.le_max_right _ _, ih _⟩

theorem clampRanges_boundary {s : Text} {startFor endFor : ℕ → ℕ}
    (hs : ∀ n, Boundary s (startFor n))
    (he : ∀ n, Boundary s (endFor n)) {prevEnd : ℕ} (hprev : Boundary s prevEnd)
    (ranges : List (ℕ × ℕ)) :
    ∀ r ∈ clampRanges startFor endFor prevEnd ranges, Boundary s r.1 ∧ Boundary s r.2 := by
  induction ranges generalizing prevEnd with
  | nil => simp [clampRanges]
  | cons r ranges ih =>
    have hstart := boundary_max (hs r.1) hprev
    have hstop := boundary_max (he r.2) hstart
    exact List.forall_mem_cons.mpr ⟨⟨hstart, hstop⟩, ih hstop⟩

/-! ### The table holds ends of raw prefixes -/

theorem fillBounds_boundary {raw p cs : Text} (h : p ++ cs = raw) (n : ℕ) :
    ∀ b ∈ fillBounds (byteLen p) n cs, Boundary raw b.1 := by
  induction cs generalizing p with
  | nil => simp [fillBounds]
  | cons c cs ih =>
    have hnext : p ++ [c] ++ cs = raw := by rw [List.append_assoc]; exact h
    have hlen : byteLen p + c.utf8Size = byteLen (p ++ [c]) := by
      rw [byteLen_append]
      rfl
    rw [fillBounds, hlen]
    exact List.forall_mem_cons.mpr ⟨⟨p ++ [c], ⟨cs, hnext⟩, rfl⟩, ih hnext⟩

theorem boundsFrom_boundary (normalize : Text → Text) (m : ℕ) {raw p cs : Text}
    (h : p ++ cs = raw) :
    ∀ b ∈ boundsFrom normalize m p cs, Boundary raw b.1 := by
  induction cs generalizing p with
  | nil => simp [boundsFrom]
  | cons c cs ih =>
    have hnext : p ++ [c] ++ cs = raw := by rw [List.append_assoc]; exact h
    have hfirst : Boundary raw (byteLen (p ++ [c])) := ⟨p ++ [c], ⟨cs, hnext⟩, rfl⟩
    unfold boundsFrom
    dsimp only
    split
    · exact List.forall_mem_cons.mpr ⟨hfirst, fillBounds_boundary hnext _⟩
    · exact List.forall_mem_cons.mpr ⟨hfirst, ih hnext⟩

theorem bounds_boundary (normalize : Text → Text) (m : ℕ) (raw : Text) :
    ∀ b ∈ bounds normalize m raw, Boundary raw b.1 :=
  List.forall_mem_cons.mpr
    ⟨boundary_zero raw, boundsFrom_boundary normalize m (List.nil_append raw)⟩

theorem startFor_boundary {raw : Text} {table : List (ℕ × ℕ)} (h : ∀ b ∈ table, Boundary raw b.1)
    (n : ℕ) : Boundary raw (startFor table n) := by
  unfold startFor
  dsimp only
  split
  · exact boundary_zero raw
  · cases hb : table[partitionPoint (fun b => b.2 ≤ n) table - 1]? with
    | none => exact boundary_zero raw
    | some b => exact h b (List.mem_of_getElem? hb)

theorem endFor_boundary {raw : Text} {table : List (ℕ × ℕ)} (h : ∀ b ∈ table, Boundary raw b.1)
    (n : ℕ) : Boundary raw (endFor raw table n) := by
  unfold endFor
  dsimp only
  cases hb : table[partitionPoint (fun b => b.2 < n) table]? with
  | none => exact boundary_end raw
  | some b => exact h b (List.mem_of_getElem? hb)

/-! ### Occurrences -/

theorem matchFrom_offsets (needle : Text) (skip pos : ℕ) (s : Text) :
    ∀ n ∈ matchFrom needle skip pos s, ∃ a b, s = a ++ needle ++ b ∧ n = pos + byteLen a ∧
      skip ≤ a.length := by
  induction s generalizing skip pos with
  | nil => simp [matchFrom]
  | cons c s ih =>
    -- an occurrence found further on starts one character later
    have hlater : ∀ k n, n ∈ matchFrom needle k (pos + c.utf8Size) s →
        ∃ a b, c :: s = a ++ needle ++ b ∧ n = pos + byteLen a ∧ k + 1 ≤ a.length := by
      intro k n hn
      obtain ⟨a, b, rfl, rfl, hlen⟩ := ih k _ n hn
      refine ⟨c :: a, b, rfl, ?_, Nat.succ_le_succ hlen⟩
      rw [byteLen_cons]
      omega
    intro n hn
    cases skip with
    | succ skip => exact hlater skip n hn
    | zero =>
      rw [matchFrom] at hn
      split at hn
      · rename_i hprefix
        rcases List.mem_cons.mp hn with rfl | hn
        · obtain ⟨b, hb⟩ := List.isPrefixOf_iff_prefix.mp hprefix
          exact ⟨[], b, hb.symm, rfl, Nat.le_refl _⟩
        · obtain ⟨a, b, hs, hpos, hlen⟩ := hlater _ n hn
          exact ⟨a, b, hs, hpos, by omega⟩
      · obtain ⟨a, b, hs, hpos, hlen⟩ := hlater _ n hn
        exact ⟨a, b, hs, hpos, by omega⟩

theorem matchFrom_apart (needle : Text) (skip pos : ℕ) (s : Text) :
    (matchFrom needle skip pos s).Pairwise fun a b => a + byteLen needle ≤ b := by
  induction s generalizing skip pos with
  | nil => exact List.Pairwise.nil
  | cons c s ih =>
    cases skip with
    | succ skip => exact ih _ _
    | zero =>
      rw [matchFrom]
      split
      · rename_i hprefix
        refine List.pairwise_cons.mpr ⟨fun n hn => ?_, ih _ _⟩
        obtain ⟨a, b, rfl, rfl, hlen⟩ := matchFrom_offsets needle _ _ _ n hn
        -- the characters up to the next occurrence begin with the needle
        have hneedle := List.isPrefixOf_iff_prefix.mp hprefix
        have hlong : needle.length ≤ (c :: a).length := by
          rw [List.length_cons]
          omega
        have hinside : c :: a <+: c :: (a ++ needle ++ b) := by
          rw [List.append_assoc, ← List.cons_append]
          exact List.prefix_append _ _
        have hle := byteLen_mono (List.prefix_of_prefix_length_le hneedle hinside hlong)
        rw [byteLen_cons] at hle
        omega
      · exact ih _ _

theorem matchFrom_ne_nil {needle : Text} (pos : ℕ) {s : Text} (h : needle <:+: s)
    (hne : needle ≠ []) :
    matchFrom needle 0 pos s ≠ [] := by
  induction s generalizing pos with
  | nil => exact absurd (List.infix_nil.mp h) hne
  | cons c s ih =>
    rw [matchFrom]
    split
    · exact List.cons_ne_nil _ _
    · rename_i hprefix
      rcases List.infix_cons_iff.mp h with hp | hrest
      · exact absurd (List.isPrefixOf_iff_prefix.mpr hp) hprefix
      · exact ih _ hrest

theorem mem_matchRanges {needle norm : Text} {r : ℕ × ℕ}
    (h : r ∈ matchRanges needle norm) :
    ∃ a b, norm = a ++ needle ++ b ∧ r = (byteLen a, byteLen (a ++ needle)) := by
  obtain ⟨n, hn, rfl⟩ := List.mem_map.mp h
  obtain ⟨a, b, hs, rfl, _⟩ := matchFrom_offsets needle 0 0 norm n hn
  refine ⟨a, b, hs, ?_⟩
  rw [byteLen_append, Nat.zero_add]

theorem matchRanges_apart (needle norm : Text) :
    (matchRanges needle norm).Pairwise fun a b => a.2 ≤ b.1 := by
  rw [matchRanges, List.pairwise_map]
  exact matchFrom_apart needle 0 0 norm

theorem matchRanges_ne_nil_iff {needle norm : Text} (hne : needle ≠ []) :
    matchRanges needle norm ≠ [] ↔ needle <:+: norm := by
  constructor
  · intro h
    obtain ⟨r, hr⟩ := List.exists_mem_of_ne_nil _ h
    obtain ⟨a, b, rfl, _⟩ := mem_matchRanges hr
    exact List.infix_append a needle b
  · intro h hnil
    exact matchFrom_ne_nil 0 h hne (List.map_eq_nil_iff.mp hnil)

/-! ### What `highlight_raw` returns -/

/-- `start_for` over the table of a text and its matches. -/
def startOffset (raw norm needle : Text) (normalize : Text → Text) : ℕ → ℕ :=
  startFor (bounds normalize (maxEnd (matchRanges needle norm)) raw)

/-- `end_for` over the table of a text and its matches. -/
def endOffset (raw norm needle : Text) (normalize : Text → Text) : ℕ → ℕ :=
  endFor raw (bounds normalize (maxEnd (matchRanges needle norm)) raw)

/-- The regions `highlight_raw` marks. -/
def regions (raw norm needle : Text) (normalize : Text → Text) : List (ℕ × ℕ) :=
  clampRanges (startOffset raw norm needle normalize) (endOffset raw norm needle normalize) 0
    (matchRanges needle norm)

theorem regions_inOrder (raw norm needle : Text) (normalize : Text → Text) :
    InOrder 0 (regions raw norm needle normalize) :=
  clampRanges_inOrder _ _ 0 _

theorem regions_boundary (raw norm needle : Text) (normalize : Text → Text) :
    ∀ r ∈ regions raw norm needle normalize, Boundary raw r.1 ∧ Boundary raw r.2 :=
  have htable := bounds_boundary normalize (maxEnd (matchRanges needle norm)) raw
  clampRanges_boundary (startFor_boundary htable) (endFor_boundary htable) (boundary_zero raw) _

theorem slice_all (s : Text) : slice s 0 (byteLen s) = some s := by
  have h := slice_append [] s []
  rwa [List.nil_append, List.append_nil] at h

theorem highlightRaw_eq {needle : Text} (hne : needle ≠ []) (raw norm before after : Text)
    (normalize : Text → Text) :
    highlightRaw raw norm needle before after normalize =
      markRanges raw before after 0 (regions raw norm needle normalize) := by
  have hneedle : needle.isEmpty = false := List.isEmpty_eq_false_iff.mpr hne
  rw [highlightRaw, hneedle, if_neg (by simp)]
  by_cases hnone : (matchRanges needle norm).isEmpty = true
  · have hnil := List.isEmpty_iff.mp hnone
    simp only [regions, hnil, clampRanges, markRanges, slice_all, List.isEmpty_nil, if_true]
  · simp only [if_neg hnone, regions, startOffset, endOffset]

theorem highlightRaw_some (raw norm needle before after : Text) (normalize : Text → Text) :
    ∃ out, highlightRaw raw norm needle before after normalize = some out := by
  by_cases hne : needle = []
  · exact ⟨raw, by rw [hne]; rfl⟩
  · rw [highlightRaw_eq hne]
    exact markRanges_some before after (boundary_zero raw) (regions_inOrder _ _ _ _)
      (regions_boundary raw norm needle normalize)

end Unfydqry.Highlight
