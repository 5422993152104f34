import Unfydqry.Engine.PrefixTable
import Unfydqry.Normalize.Excerpt

/-! # Empty marked regions

Two matches that end inside the normalized form of one raw character are marked at the same
raw offset: the first one takes the whole character and the second one gets nothing. So do
two matches that the binary search cannot tell apart. -/

namespace Unfydqry.Highlight

/-- Every region encloses a character of the text, and the regions are disjoint and in
increasing order. -/
def Enclosing (raw : Text) (regions : List (ℕ × ℕ)) : Prop :=
  (∀ r ∈ regions, ∃ t, slice raw r.1 r.2 = some t ∧ t ≠ []) ∧
    regions.Pairwise fun a b => a.2 ≤ b.1

/-- Between the ends of two matches ends a raw prefix that the search for the later one reads
before the table is filled up. -/
def EndsApart (normalize : Text → Text) (raw : Text) (ranges : List (ℕ × ℕ)) : Prop :=
  ranges.Pairwise fun a b =>
    ∃ p, ReadsPrefix normalize raw (maxEnd ranges) b.2 p ∧
      (∀ q, q <+: p → byteLen (normalize q) < maxEnd ranges) ∧
      a.2 ≤ byteLen (normalize p) ∧ byteLen (normalize p) < b.2

/-- Between the ends of two matches some raw prefix ends. -/
def PrefixesApart (normalize : Text → Text) (raw : Text) (ranges : List (ℕ × ℕ)) : Prop :=
  ranges.Pairwise fun a b =>
    ∃ p, p <+: raw ∧ a.2 ≤ byteLen (normalize p) ∧ byteLen (normalize p) < b.2

theorem le_maxEnd {ranges : List (ℕ × ℕ)} {r : ℕ × ℕ} (h : r ∈ ranges) : r.2 ≤ maxEnd ranges := by
  have hloop : ∀ (ns : List ℕ) (k : ℕ), k ≤ ns.foldl max k ∧ ∀ n ∈ ns, n ≤ ns.foldl max k := by
    intro ns
    induction ns with
    | nil => simp
    | cons n ns ih =>
      intro k
      obtain ⟨hinit, hmem⟩ := ih (max k n)
      rw [List.foldl_cons, List.forall_mem_cons]
      exact ⟨by omega, by omega, hmem⟩
  exact (hloop _ 0).2 r.2 (List.mem_map_of_mem h)

/-- When starts lie before ends and ends do not decrease, the clamped regions are non-empty
just when the ends increase. -/
theorem clampRanges_lt_iff {startFor endFor : ℕ → ℕ} {ranges : List (ℕ × ℕ)}
    (hstart : ∀ r ∈ ranges, startFor r.1 < endFor r.2)
    (hmono : ranges.Pairwise fun a b => endFor a.2 ≤ endFor b.2) {prevEnd : ℕ}
    (hprev : ∀ r ∈ ranges, prevEnd ≤ endFor r.2) :
    (∀ x ∈ clampRanges startFor endFor prevEnd ranges, x.1 < x.2) ↔
      (∀ r ∈ ranges, prevEnd < endFor r.2) ∧
        ranges.Pairwise fun a b => endFor a.2 < endFor b.2 := by
  induction ranges generalizing prevEnd with
  | nil => simp [clampRanges]
  | cons r ranges ih =>
    rw [List.forall_mem_cons] at hstart hprev
    rw [List.pairwise_cons] at hmono
    have hstop : max (endFor r.2) (max (startFor r.1) prevEnd) = endFor r.2 := by
      have h1 := hstart.1
      have h2 := hprev.1
      omega
    have ih := ih hstart.2 hmono.2 hmono.1
    simp only [clampRanges, hstop, List.forall_mem_cons, List.pairwise_cons, ih]
    constructor
    · rintro ⟨hfirst, hrest, hpair⟩
      refine ⟨⟨by omega, fun r' hr' => ?_⟩, hrest, hpair⟩
      have hle := hrest r' hr'
      omega
    · rintro ⟨⟨hfirst, _⟩, hrest, hpair⟩
      have h1 := hstart.1
      exact ⟨by omega, hrest, hpair⟩

section Marked

variable {normalize : Text → Text} {raw needle : Text} (hne : needle ≠ []) {r : ℕ × ℕ}
  (hr : r ∈ matchRanges needle (normalize raw))

include hne hr

theorem match_lt : r.1 < r.2 ∧ r.2 ≤ byteLen (normalize raw) := by
  obtain ⟨a, b, hnorm, rfl⟩ := mem_matchRanges hr
  have hpos := byteLen_pos hne
  have hle : byteLen (a ++ needle) ≤ byteLen (normalize raw) := by
    rw [hnorm]
    exact byteLen_mono (List.prefix_append _ _)
  have hlen := byteLen_append a needle
  exact ⟨by omega, hle⟩

/-- The raw start of a match: the end of the prefix before the place found. -/
theorem startOffset_take (hnil : normalize [] = []) :
    0 < place normalize raw (maxEnd (matchRanges needle (normalize raw))) (r.1 + 1) ∧
      place normalize raw (maxEnd (matchRanges needle (normalize raw))) (r.1 + 1) - 1 ≤
        raw.length ∧
      startOffset raw (normalize raw) needle normalize r.1 = byteLen (raw.take
        (place normalize raw (maxEnd (matchRanges needle (normalize raw))) (r.1 + 1) - 1)) := by
  have hlt := (match_lt hne hr).1
  have hmax := le_maxEnd hr
  exact startFor_take hnil (by omega)

/-- The raw end of a match: the end of the prefix at the place found. -/
theorem endOffset_take (hnil : normalize [] = []) :
    place normalize raw (maxEnd (matchRanges needle (normalize raw))) r.2 ≤ raw.length ∧
      endOffset raw (normalize raw) needle normalize r.2 = byteLen (raw.take
        (place normalize raw (maxEnd (matchRanges needle (normalize raw))) r.2)) := by
  have hlt := match_lt hne hr
  have hmax := le_maxEnd hr
  exact endFor_take hnil (by omega) hmax hlt.2

/-- The start of a match is looked for with the weaker predicate. -/
theorem startOffset_lt_endOffset (hnil : normalize [] = []) :
    startOffset raw (normalize raw) needle normalize r.1 <
      endOffset raw (normalize raw) needle normalize r.2 := by
  obtain ⟨hpos, _, hstart⟩ := startOffset_take hne hr hnil
  obtain ⟨hplace, hstop⟩ := endOffset_take hne hr hnil
  have hlt := (match_lt hne hr).1
  have hmono := @place_mono normalize raw (maxEnd (matchRanges needle (normalize raw)))
    (r.1 + 1) r.2 hlt
  rw [hstart, hstop, byteLen_take_lt hplace]
  omega

theorem endOffset_lt_place {r' : ℕ × ℕ} (hr' : r' ∈ matchRanges needle (normalize raw))
    (hnil : normalize [] = []) :
    endOffset raw (normalize raw) needle normalize r.2 <
        endOffset raw (normalize raw) needle normalize r'.2 ↔
      place normalize raw (maxEnd (matchRanges needle (normalize raw))) r.2 <
        place normalize raw (maxEnd (matchRanges needle (normalize raw))) r'.2 := by
  obtain ⟨_, hstop⟩ := endOffset_take hne hr hnil
  obtain ⟨hplace', hstop'⟩ := endOffset_take hne hr' hnil
  rw [hstop, hstop', byteLen_take_lt hplace']

/-- One end lies before another just when the search for the later one reads a prefix
between the two. -/
theorem endOffset_lt_iff {r' : ℕ × ℕ} (hr' : r' ∈ matchRanges needle (normalize raw))
    (hnil : normalize [] = []) (h : r.2 ≤ r'.2) :
    endOffset raw (normalize raw) needle normalize r.2 <
        endOffset raw (normalize raw) needle normalize r'.2 ↔
      ∃ p, ReadsPrefix normalize raw (maxEnd (matchRanges needle (normalize raw))) r'.2 p ∧
        (∀ q, q <+: p → byteLen (normalize q) < maxEnd (matchRanges needle (normalize raw))) ∧
        r.2 ≤ byteLen (normalize p) ∧ byteLen (normalize p) < r'.2 :=
  (endOffset_lt_place hne hr hr' hnil).trans (place_lt_iff h)

/-- The raw start of a match, the last prefix that normalizes to no more than what precedes. -/
theorem startOffset_spec (hg : Grows normalize raw) :
    ∃ p, p <+: raw ∧ startOffset raw (normalize raw) needle normalize r.1 = byteLen p ∧
      byteLen (normalize p) ≤ r.1 ∧ ∀ q, q <+: raw → byteLen (normalize q) ≤ r.1 → q <+: p := by
  have hlt := (match_lt hne hr).1
  have hmax := le_maxEnd hr
  obtain ⟨hpos, hbound, hstart⟩ := startOffset_take hne hr hg.nil
  obtain ⟨hp, hlen, hlast⟩ := isLongest_place hg (by omega) hpos hbound
  exact ⟨_, hp, hstart, hlen, hlast⟩

/-- The raw end of a match, the first prefix that normalizes to no less than its end. -/
theorem endOffset_spec (hg : Grows normalize raw) :
    ∃ p, p <+: raw ∧ endOffset raw (normalize raw) needle normalize r.2 = byteLen p ∧
      r.2 ≤ byteLen (normalize p) ∧ ∀ q, q <+: raw → r.2 ≤ byteLen (normalize q) → p <+: q := by
  obtain ⟨hplace, hstop⟩ := endOffset_take hne hr hg.nil
  obtain ⟨hp, hlen, hfirst⟩ := isShortest_place hg (le_maxEnd hr) hplace
  exact ⟨_, hp, hstop, hlen, hfirst⟩

end Marked

section Regions

variable {normalize : Text → Text} {raw needle : Text} (hne : needle ≠ [])

include hne

theorem regions_lt_iff (hnil : normalize [] = []) :
    (∀ x ∈ regions raw (normalize raw) needle normalize, x.1 < x.2) ↔
      EndsApart normalize raw (matchRanges needle (normalize raw)) := by
  have hapart := matchRanges_apart needle (normalize raw)
  have hstart : ∀ r ∈ matchRanges needle (normalize raw),
      startOffset raw (normalize raw) needle normalize r.1 <
        endOffset raw (normalize raw) needle normalize r.2 :=
    fun r hr => startOffset_lt_endOffset hne hr hnil
  have hmono : (matchRanges needle (normalize raw)).Pairwise fun a b =>
      endOffset raw (normalize raw) needle normalize a.2 ≤
        endOffset raw (normalize raw) needle normalize b.2 := by
    refine hapart.imp_of_mem fun {a b} ha hb hab => ?_
    have hlt := (match_lt hne hb).1
    by_contra hback
    have hplace := (endOffset_lt_place hne hb ha hnil).mp (Nat.lt_of_not_le hback)
    have hle := @place_mono normalize raw (maxEnd (matchRanges needle (normalize raw))) a.2 b.2
      (by omega)
    omega
  rw [regions, clampRanges_lt_iff hstart hmono fun _ _ => Nat.zero_le _, EndsApart]
  have hpos : ∀ r ∈ matchRanges needle (normalize raw),
      0 < endOffset raw (normalize raw) needle normalize r.2 := by
    intro r hr
    have hlt := hstart r hr
    omega
  have hle : ∀ {a b : ℕ × ℕ}, b ∈ matchRanges needle (normalize raw) → a.2 ≤ b.1 → a.2 ≤ b.2 :=
    fun hb hab => hab.trans (match_lt hne hb).1.le
  constructor
  · rintro ⟨_, hpair⟩
    exact (hapart.and hpair).imp_of_mem fun {a b} ha hb h =>
      (endOffset_lt_iff hne ha hb hnil (hle hb h.1)).mp h.2
  · intro hpair
    exact ⟨hpos, (hapart.and hpair).imp_of_mem fun {a b} ha hb h =>
      (endOffset_lt_iff hne ha hb hnil (hle hb h.1)).mpr h.2⟩

/-- Where longer prefixes are no shorter once normalized, any prefix between the ends will do. -/
theorem endsApart_iff_prefixesApart (hg : Grows normalize raw) :
    EndsApart normalize raw (matchRanges needle (normalize raw)) ↔
      PrefixesApart normalize raw (matchRanges needle (normalize raw)) := by
  unfold EndsApart PrefixesApart
  constructor
  · intro h
    exact h.imp fun {a b} ⟨p, hread, _, hbetween⟩ => ⟨p, hread.prefix, hbetween⟩
  · intro h
    have hapart := matchRanges_apart needle (normalize raw)
    refine (hapart.and h).imp_of_mem fun {a b} ha hb hab => ?_
    obtain ⟨hab, p, hp, hlong, hshort⟩ := hab
    have hlt := (match_lt hne hb).1
    rw [← place_lt_iff (by omega)]
    obtain ⟨i, hi, rfl⟩ : ∃ i, i ≤ raw.length ∧ p = raw.take i :=
      ⟨p.length, hp.length_le, List.prefix_iff_eq_take.mp hp⟩
    have hbefore := (lt_place_of_grows hg (le_maxEnd hb) hi).mpr hshort
    have hbehind := mt (lt_place_of_grows hg (le_maxEnd ha) hi).mp (by omega)
    omega

end Regions

/-- `highlight_raw` never fails, and its regions enclose a character each just when no two
matches end at one place of the binary search. -/
theorem marked_regions_enclose_iff {u : Unicode} (hu : u.KeepsEmpty) (o : NormalizeOptions)
    (raw query : Text) (hquery : Unfydqry.normalize u o query ≠ []) (before after : Text) :
    (∃ out, highlightRaw raw (Unfydqry.normalize u o raw) (Unfydqry.normalize u o query) before
        after
        (Unfydqry.normalize u o) = some out ∧
      markRanges raw before after 0 (regions raw (Unfydqry.normalize u o raw)
        (Unfydqry.normalize u o query) (Unfydqry.normalize u o)) = some out) ∧
    (Enclosing raw (regions raw (Unfydqry.normalize u o raw) (Unfydqry.normalize u o query)
        (Unfydqry.normalize u o)) ↔
      EndsApart (Unfydqry.normalize u o) raw
        (matchRanges (Unfydqry.normalize u o query) (Unfydqry.normalize u o raw))) ∧
    (Grows (Unfydqry.normalize u o) raw →
      (EndsApart (Unfydqry.normalize u o) raw
          (matchRanges (Unfydqry.normalize u o query) (Unfydqry.normalize u o raw)) ↔
        PrefixesApart (Unfydqry.normalize u o) raw
          (matchRanges (Unfydqry.normalize u o query) (Unfydqry.normalize u o raw)))) := by
  refine ⟨?_, ?_, endsApart_iff_prefixesApart hquery⟩
  · obtain ⟨out, hout⟩ := highlightRaw_some raw (Unfydqry.normalize u o raw)
      (Unfydqry.normalize u o query) before after (Unfydqry.normalize u o)
    exact ⟨out, hout, by rw [← highlightRaw_eq hquery, hout]⟩
  · have hboundary := regions_boundary raw (Unfydqry.normalize u o raw)
      (Unfydqry.normalize u o query) (Unfydqry.normalize u o)
    have horder := regions_inOrder raw (Unfydqry.normalize u o raw)
      (Unfydqry.normalize u o query) (Unfydqry.normalize u o)
    rw [← regions_lt_iff hquery (normalize_nil hu o), Enclosing]
    constructor
    · rintro ⟨hfull, _⟩ x hx
      obtain ⟨hs, he⟩ := hboundary x hx
      exact (slice_ne_nil_iff hs he (horder.start_le x hx).2).mp (hfull x hx)
    · intro hlt
      refine ⟨fun x hx => ?_, horder.pairwise⟩
      obtain ⟨hs, he⟩ := hboundary x hx
      exact (slice_ne_nil_iff hs he (horder.start_le x hx).2).mpr (hlt x hx)

/-! ### Three full stops in one character -/

theorem grows_of_prefixes {normalize : Text → Text} {raw : Text} (hnil : normalize [] = [])
    (h : ∀ b ∈ prefixes raw, ∀ a ∈ prefixes b,
      byteLen (normalize a) ≤ byteLen (normalize b)) : Grows normalize raw :=
  ⟨hnil, fun a b hab hb => h b ((mem_prefixes raw b).mpr hb) a ((mem_prefixes b a).mpr hab)⟩

/-- The excerpt with three compatibility characters: the ellipsis, and half-width ka with its
voiced mark. -/
def compat : Unicode :=
  { Unicode.Excerpt.unicode with
    nfkc := fun s => Unicode.Excerpt.unicode.nfkc (s.flatMap fun c =>
      if c = '…' then ['.', '.', '.'] else if c = '\uFF76' then ['カ']
      else if c = '\uFF9E' then ['\u3099'] else [c]) }

def loose : Text → Text := Unfydqry.normalize compat NormalizeProfile.loose.options

theorem ellipsis_regions :
    (loose ['.'] = ['.'] ∧ loose ['…'] = ['.', '.', '.'] ∧ loose [] = [] ∧
      (∀ b ∈ prefixes ['…'], ∀ a ∈ prefixes b, byteLen (loose a) ≤ byteLen (loose b))) ∧
    regions ['…'] ['.', '.', '.'] ['.'] loose = [(0, 3), (3, 3), (3, 3)] ∧
    highlightRaw ['…'] ['.', '.', '.'] ['.'] ['['] [']'] loose =
      some ['[', '…', ']', '[', ']', '[', ']'] := by
  decide +kernel

theorem ellipsis_grows : Grows loose ['…'] :=
  grows_of_prefixes ellipsis_regions.1.2.2.1 ellipsis_regions.1.2.2.2

theorem marked_region_empty :
    ¬ ∀ (o : NormalizeOptions) (raw query : Text), Unfydqry.normalize compat o query ≠ [] →
      Enclosing raw (regions raw (Unfydqry.normalize compat o raw)
        (Unfydqry.normalize compat o query) (Unfydqry.normalize compat o)) := by
  intro h
  obtain ⟨⟨hquery, hraw, _⟩, hregions, _⟩ := ellipsis_regions
  have hfull := h NormalizeProfile.loose.options ['…'] ['.'] (by
    rw [show Unfydqry.normalize compat NormalizeProfile.loose.options ['.'] = ['.'] from hquery]
    simp)
  rw [show Unfydqry.normalize compat NormalizeProfile.loose.options ['.'] = ['.'] from hquery,
    show Unfydqry.normalize compat NormalizeProfile.loose.options ['…'] = ['.', '.', '.'] from hraw]
    at hfull
  change Enclosing ['…'] (regions ['…'] ['.', '.', '.'] ['.'] loose) at hfull
  rw [hregions] at hfull
  obtain ⟨t, ht, hne⟩ := hfull.1 (3, 3) (by simp)
  have hempty : slice ['…'] 3 3 = some [] := rfl
  rw [hempty, Option.some.injEq] at ht
  exact hne ht.symm

theorem compat_keepsEmpty : compat.KeepsEmpty := by
  constructor <;> decide +kernel

theorem marked_regions_enclose_ellipsis :
    (∃ out, highlightRaw ['…'] (loose ['…']) (loose ['.']) ['['] [']'] loose = some out ∧
      markRanges ['…'] ['['] [']'] 0 (regions ['…'] (loose ['…']) (loose ['.']) loose) =
        some out) ∧
    (Enclosing ['…'] (regions ['…'] (loose ['…']) (loose ['.']) loose) ↔
      EndsApart loose ['…'] (matchRanges (loose ['.']) (loose ['…']))) ∧
    (EndsApart loose ['…'] (matchRanges (loose ['.']) (loose ['…'])) ↔
      PrefixesApart loose ['…'] (matchRanges (loose ['.']) (loose ['…']))) := by
  have hquery : loose ['.'] ≠ [] := by
    rw [ellipsis_regions.1.1]
    simp
  obtain ⟨hout, henclose, hsorted⟩ := marked_regions_enclose_iff compat_keepsEmpty
    NormalizeProfile.loose.options ['…'] ['.'] hquery ['['] [']']
  exact ⟨hout, henclose, hsorted ellipsis_grows⟩

end Unfydqry.Highlight
