import Unfydqry.MarkedRegions

/-! # The raw span of a match

A match is traced back to the raw text through the byte lengths of normalized prefixes
alone. That finds the text that produced it as long as the two prefixes at which the binary
searches end keep their normalized form when the rest of the text follows. -/

namespace Unfydqry.Highlight

/-- The span of a match accounts for it: the prefix up to its end produced the text up to the
end of the match, and the prefix before it produced nothing of the match. -/
def Accounts (normalize : Text → Text) (raw needle : Text) (r : ℕ × ℕ) : Prop :=
  ∃ left right pre upto,
    slice raw 0 (startOffset raw (normalize raw) needle normalize r.1) = some left ∧
    slice raw 0 (endOffset raw (normalize raw) needle normalize r.2) = some right ∧
    slice (normalize raw) 0 r.1 = some pre ∧ slice (normalize raw) 0 r.2 = some upto ∧
    upto <+: normalize right ∧ normalize left <+: pre

/-- The two texts have the same first `n` bytes. -/
def AgreeUpTo (n : ℕ) (a b : Text) : Prop := ∃ c, byteLen c = n ∧ c <+: a ∧ c <+: b

/-- What follows the two raw prefixes a match is traced to does not change what they
normalized to, for the end as far as the match reaches. -/
structure Settled (normalize : Text → Text) (raw needle : Text) (r : ℕ × ℕ) : Prop where
  stop : ∀ p, FirstLong normalize raw (maxEnd (matchRanges needle (normalize raw))) r.2 p →
    AgreeUpTo r.2 (normalize p) (normalize raw)
  start : ∀ p, LastShort normalize raw (maxEnd (matchRanges needle (normalize raw))) (r.1 + 1) p →
    normalize p <+: normalize raw

/-- No raw prefix changes its normalized form when more text follows. -/
def Additive (normalize : Text → Text) (raw : Text) : Prop :=
  ∀ a b, a <+: b → b <+: raw → normalize a <+: normalize b

theorem eq_of_prefixes {a b : Text} (hab : a <+: b) (hba : b <+: a) : a = b :=
  hab.eq_of_length_le hba.length_le

theorem slice_zero {s p : Text} (h : p <+: s) : slice s 0 (byteLen p) = some p := by
  obtain ⟨t, rfl⟩ := h
  exact slice_append [] p t

section Spans

variable {normalize : Text → Text} {raw needle : Text} (hnil : normalize [] = [])
  (hne : needle ≠ []) {r : ℕ × ℕ} (hr : r ∈ matchRanges needle (normalize raw))

include hnil hne hr

theorem accounts_iff : Accounts normalize raw needle r ↔ Settled normalize raw needle r := by
  obtain ⟨hpos, hbound, hstart⟩ := startOffset_take hne hr hnil
  obtain ⟨hplace, hstop⟩ := endOffset_take hne hr hnil
  have hlast := lastShort_place hpos hbound
  have hfirst := firstLong_place hplace
  have hleft : raw.take _ <+: raw := hlast.read.prefix
  have hright : raw.take _ <+: raw := hfirst.read.prefix
  generalize raw.take (place normalize raw (maxEnd (matchRanges needle (normalize raw)))
    (r.1 + 1) - 1) = left at *
  generalize raw.take (place normalize raw (maxEnd (matchRanges needle (normalize raw))) r.2) =
    right at *
  obtain ⟨a, b, hnorm, heq⟩ := mem_matchRanges hr
  have hpre : a <+: normalize raw := by
    rw [hnorm, List.append_assoc]
    exact List.prefix_append _ _
  have hupto : a ++ needle <+: normalize raw := by
    rw [hnorm]
    exact List.prefix_append _ _
  have h1 : r.1 = byteLen a := by rw [heq]
  have h2 : r.2 = byteLen (a ++ needle) := by rw [heq]
  have hsame : Accounts normalize raw needle r ↔
      a ++ needle <+: normalize right ∧ normalize left <+: a := by
    rw [Accounts, hstart, hstop, slice_zero hleft, slice_zero hright, h1, h2, slice_zero hpre,
      slice_zero hupto]
    simp
  rw [hsame]
  constructor
  · rintro ⟨hr, hl⟩
    constructor
    · intro p hp
      rw [hp.unique hfirst, h2]
      exact ⟨a ++ needle, rfl, hr, hupto⟩
    · intro p hp
      rw [hp.unique hlast]
      exact hl.trans hpre
  · intro hsettled
    obtain ⟨c, hlen, hc, hcnorm⟩ := hsettled.stop right hfirst
    have hcut : c = a ++ needle := by
      rw [h2] at hlen
      exact eq_of_prefixes (prefix_of_byteLen_le hcnorm hupto (by omega))
        (prefix_of_byteLen_le hupto hcnorm (by omega))
    have hl := hsettled.start left hlast
    have hshort := (short_iff.mp hlast.short).1
    exact ⟨hcut ▸ hc, prefix_of_byteLen_le hl hpre (by omega)⟩

omit hnil hne in
/-- Where nothing changes earlier text, every match is settled. -/
theorem settled_of_additive (h : Additive normalize raw) : Settled normalize raw needle r := by
  obtain ⟨a, b, hnorm, heq⟩ := mem_matchRanges hr
  have hmax := le_maxEnd hr
  constructor
  · intro p hp
    have hupto : a ++ needle <+: normalize raw := by
      rw [hnorm]
      exact List.prefix_append _ _
    have hkept := h p raw hp.read.prefix (List.prefix_refl raw)
    have hlen : r.2 ≤ byteLen (normalize p) := by
      by_contra hshort
      refine hp.long (short_iff.mpr ⟨Nat.lt_of_not_le hshort, fun q hq => ?_⟩)
      -- a prefix that fills up the table would be no longer than `p`
      have hle := byteLen_mono (h q p hq hp.read.prefix)
      omega
    rw [heq] at hlen ⊢
    exact ⟨a ++ needle, rfl, prefix_of_byteLen_le hupto hkept hlen, hupto⟩
  · intro p hp
    exact h p raw hp.read.prefix (List.prefix_refl raw)

/-- Where longer prefixes are no shorter once normalized, these are the shortest and the
longest prefix of all. -/
theorem traced_iff (hg : Grows normalize raw) (p : Text) :
    (FirstLong normalize raw (maxEnd (matchRanges needle (normalize raw))) r.2 p ↔
      IsShortest normalize raw r.2 p) ∧
    (LastShort normalize raw (maxEnd (matchRanges needle (normalize raw))) (r.1 + 1) p ↔
      IsLongest normalize raw r.1 p) := by
  have hmax := le_maxEnd hr
  have hlt := (match_lt hne hr).1
  obtain ⟨hpos, hbound, _⟩ := startOffset_take hne hr hnil
  exact ⟨firstLong_iff_isShortest hg hmax (endOffset_take hne hr hnil).1 p,
    lastShort_iff_isLongest hg (by omega) hpos hbound p⟩

end Spans

/-- A match is mapped to the raw text that produced it just when it is settled, as all
matches are where nothing changes earlier text. -/
theorem match_span_accounts_iff {u : Unicode} (hu : u.KeepsEmpty) (o : NormalizeOptions)
    (raw query : Text) (hquery : Unfydqry.normalize u o query ≠ []) :
    (∀ r ∈ matchRanges (Unfydqry.normalize u o query) (Unfydqry.normalize u o raw),
      (Accounts (Unfydqry.normalize u o) raw (Unfydqry.normalize u o query) r ↔
        Settled (Unfydqry.normalize u o) raw (Unfydqry.normalize u o query) r)) ∧
    (Grows (Unfydqry.normalize u o) raw →
      ∀ r ∈ matchRanges (Unfydqry.normalize u o query) (Unfydqry.normalize u o raw), ∀ p,
        (FirstLong (Unfydqry.normalize u o) raw (maxEnd (matchRanges
            (Unfydqry.normalize u o query) (Unfydqry.normalize u o raw))) r.2 p ↔
          IsShortest (Unfydqry.normalize u o) raw r.2 p) ∧
        (LastShort (Unfydqry.normalize u o) raw (maxEnd (matchRanges
            (Unfydqry.normalize u o query) (Unfydqry.normalize u o raw))) (r.1 + 1) p ↔
          IsLongest (Unfydqry.normalize u o) raw r.1 p)) ∧
    (Additive (Unfydqry.normalize u o) raw →
      ∀ r ∈ matchRanges (Unfydqry.normalize u o query) (Unfydqry.normalize u o raw),
        Accounts (Unfydqry.normalize u o) raw (Unfydqry.normalize u o query) r) := by
  have hnil := normalize_nil hu o
  exact ⟨fun _ hr => accounts_iff hnil hquery hr,
    fun hg _ hr p => traced_iff hnil hquery hr hg p,
    fun hadd _ hr => (accounts_iff hnil hquery hr).mpr (settled_of_additive hr hadd)⟩

/-! ### A voiced mark on its own -/

theorem dakuten_spans :
    (loose ['が'] = ['が'] ∧ loose ['\uFF76', '\uFF9E'] = ['が'] ∧ loose [] = [] ∧
      (∀ b ∈ prefixes ['\uFF76', '\uFF9E'], ∀ a ∈ prefixes b,
        byteLen (loose a) ≤ byteLen (loose b))) ∧
    matchRanges ['が'] ['が'] = [(0, 3)] ∧
    endOffset ['\uFF76', '\uFF9E'] ['が'] ['が'] loose 3 = 3 ∧
    loose ['\uFF76'] = ['か'] ∧
    highlightRaw ['\uFF76', '\uFF9E'] ['が'] ['が'] ['['] [']'] loose =
      some ['[', '\uFF76', ']', '\uFF9E'] := by
  decide +kernel

theorem match_span_not_accounted :
    ¬ ∀ (o : NormalizeOptions) (raw query : Text), Unfydqry.normalize compat o query ≠ [] →
      ∀ r ∈ matchRanges (Unfydqry.normalize compat o query) (Unfydqry.normalize compat o raw),
        Accounts (Unfydqry.normalize compat o) raw (Unfydqry.normalize compat o query) r := by
  intro h
  obtain ⟨⟨hquery, hraw, _⟩, hmatch, hend, hfirst, _⟩ := dakuten_spans
  have hspan := h NormalizeProfile.loose.options ['\uFF76', '\uFF9E'] ['が']
  change loose ['が'] ≠ [] → ∀ r ∈ matchRanges (loose ['が']) (loose ['\uFF76', '\uFF9E']),
    Accounts loose ['\uFF76', '\uFF9E'] (loose ['が']) r at hspan
  rw [hquery, hraw, hmatch] at hspan
  obtain ⟨left, right, pre, upto, _, hright, _, hupto, hcut, _⟩ :=
    hspan (by simp) (0, 3) (List.mem_singleton_self _)
  rw [hraw] at hright hupto
  have hone : slice ['\uFF76', '\uFF9E'] 0 3 = some ['\uFF76'] := by decide
  have hall : slice ['が'] 0 3 = some ['が'] := by decide
  dsimp only at hright hupto
  rw [hend, hone, Option.some.injEq] at hright
  rw [hall, Option.some.injEq] at hupto
  rw [← hright, ← hupto, hfirst] at hcut
  simp at hcut

theorem ellipsis_additive : Additive loose ['…'] := by
  have hprefixes : ∀ b ∈ prefixes ['…'], ∀ a ∈ prefixes b, loose a <+: loose b := by decide +kernel
  exact fun a b hab hb => hprefixes b ((mem_prefixes _ b).mpr hb) a ((mem_prefixes b a).mpr hab)

/-- The second full stop is traced to the one character. -/
theorem match_span_accounts_ellipsis :
    (1, 2) ∈ matchRanges (loose ['.']) (loose ['…']) ∧
      Accounts loose ['…'] (loose ['.']) (1, 2) ∧ Settled loose ['…'] (loose ['.']) (1, 2) := by
  obtain ⟨hone, hthree, _⟩ := ellipsis_regions.1
  have hquery : loose ['.'] ≠ [] := by
    rw [hone]
    simp
  have hmem : (1, 2) ∈ matchRanges (loose ['.']) (loose ['…']) := by
    rw [hone, hthree]
    decide
  have hspans := match_span_accounts_iff compat_keepsEmpty NormalizeProfile.loose.options
    ['…'] ['.'] hquery
  have haccounts := hspans.2.2 ellipsis_additive (1, 2) hmem
  exact ⟨hmem, haccounts, (hspans.1 (1, 2) hmem).mp haccounts⟩

end Unfydqry.Highlight
