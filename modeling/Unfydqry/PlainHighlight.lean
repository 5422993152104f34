import Unfydqry.MarkedRegions
import Unfydqry.Engine.TableLoop

/-! # The table against plain scans

The plain algorithm takes the length of every prefix and scans the table from the left. The
table of `highlight_raw` has a stale length behind the last match and counts the empty prefix
as no bytes; no offset that is looked up can tell. -/

namespace Unfydqry.Highlight

open PartitionPoint

/-- Every raw boundary with the length of its prefix. -/
def plainTable (len : Text → ℕ) (raw : Text) : List (ℕ × ℕ) :=
  (prefixes raw).map fun p => (byteLen p, len p)

/-- The greatest boundary with a length of at most `n`; `missing` when there is none. -/
def lastAtMost (missing : ℕ) (table : List (ℕ × ℕ)) (n : ℕ) : ℕ :=
  ((table.filter fun b => b.2 ≤ n).getLast?.map Prod.fst).getD missing

/-- The least boundary with a length of at least `n`. -/
def firstAtLeast (raw : Text) (table : List (ℕ × ℕ)) (n : ℕ) : ℕ :=
  ((table.find? fun b => n ≤ b.2).map Prod.fst).getD (byteLen raw)

def plainHighlight (missing : ℕ) (len : Text → ℕ) (raw norm needle before after : Text) :
    Option Text :=
  if needle.isEmpty then some raw
  else
    let table := plainTable len raw
    markRanges raw before after 0
      (clampRanges (lastAtMost missing table) (firstAtLeast raw table) 0 (matchRanges needle norm))

/-- Longer prefixes have no smaller length. -/
def LensGrow (len : Text → ℕ) (raw : Text) : Prop :=
  ∀ a b, a <+: b → b <+: raw → len a ≤ len b

/-- The length of a prefix once normalized, as the table counts it. -/
def prefixLen (normalize : Text → Text) (p : Text) : ℕ :=
  if p.isEmpty then 0 else byteLen (normalize p)

/-! ### What a scan finds -/

section Scan

variable {len : Text → ℕ} {raw p : Text} (hp : p <+: raw) {n : ℕ}

include hp

theorem firstAtLeast_eq (hlen : n ≤ len p) (hmin : ∀ q, q <+: raw → n ≤ len q → p <+: q) :
    firstAtLeast raw (plainTable len raw) n = byteLen p := by
  obtain ⟨as, bs, hsplit⟩ := List.append_of_mem ((mem_prefixes raw p).mpr hp)
  have hsorted := prefixes_pairwise raw
  rw [hsplit, List.pairwise_append] at hsorted
  -- what comes before is a prefix of `p`, and `p` of it if it were long enough
  have hbefore : ∀ q ∈ as, n ≤ len q → q = p := by
    intro q hq hn
    have hqraw : q <+: raw := by
      rw [← mem_prefixes, hsplit]
      exact List.mem_append_left _ hq
    exact (hsorted.2.2 q hq p List.mem_cons_self).eq_of_length_le (hmin q hqraw hn).length_le
  have hfound : ((prefixes raw).find? fun q => n ≤ len q) = some p := by
    rw [hsplit, List.find?_append, List.find?_cons_of_pos (by simpa using hlen)]
    cases has : as.find? fun q => n ≤ len q with
    | none => rfl
    | some q =>
      have hn : n ≤ len q := by simpa using List.find?_some has
      rw [hbefore q (List.mem_of_find?_eq_some has) hn]
      rfl
  rw [firstAtLeast, plainTable, List.find?_map]
  simp only [Function.comp_def, hfound, Option.map_some, Option.getD_some]

theorem lastAtMost_eq (missing : ℕ) (hlen : len p ≤ n)
    (hmax : ∀ q, q <+: raw → len q ≤ n → q <+: p) :
    lastAtMost missing (plainTable len raw) n = byteLen p := by
  obtain ⟨as, bs, hsplit⟩ := List.append_of_mem ((mem_prefixes raw p).mpr hp)
  have hsorted := prefixes_pairwise raw
  rw [hsplit, List.pairwise_append, List.pairwise_cons] at hsorted
  -- what follows starts with `p`, and is a prefix of it if it were short enough
  have hafter : ∀ q ∈ bs, len q ≤ n → q = p := by
    intro q hq hn
    have hqraw : q <+: raw := by
      rw [← mem_prefixes, hsplit]
      exact List.mem_append_right _ (List.mem_cons_of_mem _ hq)
    exact ((hsorted.2.1.1 q hq).eq_of_length_le (hmax q hqraw hn).length_le).symm
  have hfound : ((prefixes raw).filter fun q => len q ≤ n).getLast? = some p := by
    rw [hsplit, List.filter_append, List.filter_cons_of_pos (by simpa using hlen),
      List.getLast?_append_cons]
    obtain ⟨q, hq⟩ : ∃ q, (p :: bs.filter fun q => len q ≤ n).getLast? = some q :=
      ⟨_, List.getLast?_eq_some_getLast (List.cons_ne_nil _ _)⟩
    rw [hq, Option.some.injEq]
    rcases List.mem_cons.mp (List.mem_of_getLast? hq) with rfl | hin
    · rfl
    · rw [List.mem_filter] at hin
      exact hafter q hin.1 (by simpa using hin.2)
  rw [lastAtMost, plainTable, List.filter_map]
  simp only [Function.comp_def, List.getLast?_map, hfound, Option.map_some, Option.getD_some]

end Scan

/-! ### The two algorithms -/

/-- The empty prefix is never normalized. -/
def seeded (normalize : Text → Text) (p : Text) : Text := if p.isEmpty then [] else normalize p

theorem byteLen_seeded (normalize : Text → Text) (p : Text) :
    byteLen (seeded normalize p) = prefixLen normalize p := by
  cases p <;> rfl

theorem boundsFrom_seeded (normalize : Text → Text) (m : ℕ) (p cs : Text) :
    boundsFrom (seeded normalize) m p cs = boundsFrom normalize m p cs := by
  induction cs generalizing p with
  | nil => rfl
  | cons c cs ih =>
    have hself : seeded normalize (p ++ [c]) = normalize (p ++ [c]) := by
      cases p <;> rfl
    rw [boundsFrom, boundsFrom, ih, hself]

theorem regions_seeded (raw norm needle : Text) (normalize : Text → Text) :
    regions raw norm needle (seeded normalize) = regions raw norm needle normalize := by
  simp only [regions, startOffset, endOffset, bounds, boundsFrom_seeded]

theorem clampRanges_congr {f f' g g' : ℕ → ℕ} {ranges : List (ℕ × ℕ)}
    (h : ∀ r ∈ ranges, f r.1 = f' r.1 ∧ g r.2 = g' r.2) (prevEnd : ℕ) :
    clampRanges f g prevEnd ranges = clampRanges f' g' prevEnd ranges := by
  induction ranges generalizing prevEnd with
  | nil => rfl
  | cons r ranges ih =>
    rw [List.forall_mem_cons] at h
    rw [clampRanges, clampRanges, h.1.1, h.1.2, ih h.2]

theorem regions_empty (norm needle : Text) (normalize : Text → Text) (missing : ℕ) :
    regions [] norm needle normalize =
      clampRanges (lastAtMost missing (plainTable (prefixLen normalize) []))
        (firstAtLeast [] (plainTable (prefixLen normalize) [])) 0 (matchRanges needle norm) := by
  refine clampRanges_congr (fun r _ => ⟨rfl, ?_⟩) 0
  have htable : ∀ m, bounds normalize m [] = [(0, 0)] := fun _ => rfl
  have hstop : endOffset [] norm needle normalize r.2 = 0 := by
    unfold endOffset endFor
    rw [htable]
    dsimp only
    cases hb : [(0, 0)][partitionPoint (fun b : ℕ × ℕ => b.2 < r.2) [(0, 0)]]? with
    | none => rfl
    | some b =>
      have hmem := List.mem_of_getElem? hb
      rw [List.mem_singleton] at hmem
      rw [hmem]
      rfl
  have hscan : firstAtLeast [] (plainTable (prefixLen normalize) []) r.2 = 0 := by
    unfold firstAtLeast
    cases hb : (plainTable (prefixLen normalize) []).find? fun b => r.2 ≤ b.2 with
    | none => rfl
    | some b =>
      have hmem : b ∈ [(0, 0)] := List.mem_of_find?_eq_some hb
      rw [List.mem_singleton] at hmem
      rw [hmem]
      rfl
  rw [hstop, hscan]

theorem regions_plain {raw needle : Text} {normalize : Text → Text} (hne : needle ≠ [])
    (h : LensGrow (prefixLen normalize) raw) (missing : ℕ) :
    regions raw (normalize raw) needle normalize =
      clampRanges (lastAtMost missing (plainTable (prefixLen normalize) raw))
        (firstAtLeast raw (plainTable (prefixLen normalize) raw)) 0
        (matchRanges needle (normalize raw)) := by
  by_cases hraw : raw = []
  · subst hraw
    exact regions_empty (normalize []) needle normalize missing
  · have hnorm : normalize raw = seeded normalize raw := by
      rw [seeded, List.isEmpty_eq_false_iff.mpr hraw]
      rfl
    have hg : Grows (seeded normalize) raw := by
      refine ⟨rfl, fun a b hab hb => ?_⟩
      rw [byteLen_seeded, byteLen_seeded]
      exact h a b hab hb
    rw [← regions_seeded, hnorm]
    refine clampRanges_congr (fun r hr => ⟨?_, ?_⟩) 0
    · obtain ⟨p, hp, heq, hlen, hmax⟩ := startOffset_spec hne hr hg
      simp only [byteLen_seeded] at hlen hmax
      rw [heq, lastAtMost_eq hp missing hlen hmax]
    · obtain ⟨p, hp, heq, hlen, hmin⟩ := endOffset_spec hne hr hg
      simp only [byteLen_seeded] at hlen hmin
      rw [heq, firstAtLeast_eq hp hlen hmin]

theorem highlightRaw_plain {raw : Text} {normalize : Text → Text}
    (h : LensGrow (prefixLen normalize) raw) (missing : ℕ) (needle before after : Text) :
    highlightRaw raw (normalize raw) needle before after normalize =
      plainHighlight missing (prefixLen normalize) raw (normalize raw) needle before after := by
  unfold plainHighlight
  by_cases hne : needle = []
  · rw [hne]
    rfl
  · rw [highlightRaw_eq hne, regions_plain hne h missing, List.isEmpty_eq_false_iff.mpr hne,
      if_neg (by simp)]

/-- Stopping at the last match, the stale lengths and the binary searches change nothing: the
result is that of the plain algorithm with the empty prefix counted as no bytes, which is its
length when it normalizes to nothing. -/
theorem highlightRaw_scans (raw needle before after : Text) (normalize : Text → Text)
    (missing : ℕ) (h : LensGrow (fun p => byteLen (normalize p)) raw) :
    highlightRawIndexed raw (normalize raw) needle before after normalize =
        plainHighlight missing (prefixLen normalize) raw (normalize raw) needle before after ∧
      (normalize [] = [] → highlightRawIndexed raw (normalize raw) needle before after normalize =
        plainHighlight missing (fun p => byteLen (normalize p)) raw (normalize raw) needle before
          after) := by
  have hseeded : LensGrow (prefixLen normalize) raw := by
    intro a b hab hb
    have hle := h a b hab hb
    cases a with
    | nil => exact Nat.zero_le _
    | cons c a =>
      cases b with
      | nil => exact absurd (List.prefix_nil.mp hab) (List.cons_ne_nil _ _)
      | cons d b => exact hle
  have hplain := highlightRaw_plain hseeded missing needle before after
  rw [highlightRawIndexed_eq]
  refine ⟨hplain, fun hnil => ?_⟩
  have hlen : prefixLen normalize = fun p => byteLen (normalize p) := by
    funext p
    cases p with
    | nil => rw [hnil]; rfl
    | cons c p => rfl
  rw [hplain, hlen]

theorem highlightRaw_scans_upper :
    highlightRawIndexed ['a', 'b'] (['a', 'b'].map Char.toUpper) ['B'] ['['] [']']
        (fun s => s.map Char.toUpper) = some ['a', '[', 'b', ']'] ∧
      plainHighlight 0 (fun p => byteLen (p.map Char.toUpper)) ['a', 'b'] ['A', 'B'] ['B'] ['[']
        [']'] = some ['a', '[', 'b', ']'] := by
  have h : LensGrow (fun p => byteLen (p.map Char.toUpper)) ['a', 'b'] :=
    (grows_of_prefixes rfl (by decide)).mono
  have hscan := (highlightRaw_scans ['a', 'b'] ['B'] ['['] [']'] (fun s => s.map Char.toUpper) 0
    h).2 rfl
  have hmarked : highlightRawIndexed ['a', 'b'] (['a', 'b'].map Char.toUpper) ['B'] ['['] [']']
      (fun s => s.map Char.toUpper) = some ['a', '[', 'b', ']'] := by decide
  exact ⟨hmarked, hscan ▸ hmarked⟩

/-- A normalizer that makes one letter of every text, the empty one included: the plain
algorithm ends the region before the first character, whatever it takes for the missing
start. -/
theorem highlightRaw_scans_not :
    ¬ ∃ missing, ∀ (raw needle before after : Text) (normalize : Text → Text),
      LensGrow (fun p => byteLen (normalize p)) raw →
      highlightRawIndexed raw (normalize raw) needle before after normalize =
        plainHighlight missing (fun p => byteLen (normalize p)) raw (normalize raw) needle before
          after := by
  rintro ⟨missing, h⟩
  have hplain := h ['x'] ['a'] ['['] [']'] (fun _ => ['a']) fun _ _ _ _ => le_refl _
  have hmarked : highlightRawIndexed ['x'] ['a'] ['a'] ['['] [']'] (fun _ => ['a']) =
      some ['[', 'x', ']'] := by decide
  rw [hmarked] at hplain
  match missing with
  | 0 => exact absurd hplain (by decide)
  | 1 => exact absurd hplain (by decide)
  | k + 2 =>
    have houtside : plainHighlight (k + 2) (fun _ => byteLen ['a']) ['x'] ['a'] ['a'] ['['] [']'] =
      none := rfl
    rw [houtside] at hplain
    cases hplain

end Unfydqry.Highlight
