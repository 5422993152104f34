import Unfydqry.Lib.PrefixRange
import Unfydqry.Search.RowOrder
import Unfydqry.IndexInvariant

/-! # Prefix and suffix search

`range_upper_bound` adds one to the last character that has a successor. U+D7FF has
none, since U+D800 is no character, but it is not the last one: the range of a query
that ends in U+D7FF also holds the texts that continue with a larger character. -/

namespace Unfydqry.Search

open LockedStore Prog

/-! ### Characters -/

/-- The last character before the surrogates. -/
def beforeGap : Char := '\uD7FF'

def lastChar : Char := Char.ofNat 0x10FFFF

theorem toNat_of_fromU32 {n : ℕ} {c : Char} (h : Steps.fromU32 n = some c) : c.toNat = n := by
  unfold Steps.fromU32 at h
  split at h
  · rename_i hn
    rw [Option.some.injEq] at h
    rw [← h, Char.ofNat, dif_pos hn]
    rfl
  · cases h

theorem char_lt_iff (c d : Char) : c < d ↔ c.toNat < d.toNat := Iff.rfl

theorem char_le_iff (c d : Char) : c ≤ d ↔ c.toNat ≤ d.toNat := Iff.rfl

theorem lt_nextChar_iff {c n : Char} (h : nextChar c = some n) (d : Char) : d < n ↔ d ≤ c := by
  have hn := toNat_of_fromU32 h
  rw [char_lt_iff, char_le_iff]
  omega

theorem nextChar_eq_none_iff (c : Char) : nextChar c = none ↔ c = beforeGap ∨ c = lastChar := by
  have hc : c.toNat.isValidChar := c.valid
  have hgap : beforeGap.toNat = 0xD7FF := rfl
  have hlast : lastChar.toNat = 0x10FFFF := rfl
  rw [← Char.toNat_inj, ← Char.toNat_inj, hgap, hlast, nextChar, Steps.fromU32]
  unfold Nat.isValidChar at hc ⊢
  split
  · rename_i hv
    simp only [reduceCtorEq, false_iff]
    omega
  · rename_i hv
    simp only [true_iff]
    omega

theorem rangeUpperBound_cons (c : Char) (s : Text) :
    rangeUpperBound (c :: s) =
      match rangeUpperBound s with
      | some u => some (c :: u)
      | none => (nextChar c).map fun n => [n] := by
  have hbump : ∀ r : Text, bumpLast (r ++ [c]) =
      match bumpLast r with
      | some u => some (c :: u)
      | none => (nextChar c).map fun n => [n] := by
    intro r
    induction r with
    | nil =>
      simp only [List.nil_append, bumpLast]
      cases nextChar c <;> rfl
    | cons d r ih =>
      simp only [List.cons_append, bumpLast, ih]
      cases nextChar d with
      | some n => simp
      | none => rfl
  rw [rangeUpperBound, List.reverse_cons, hbump]
  rfl

theorem rangeUpperBound_eq (q : Text) :
    rangeUpperBound q = PrefixRange.upperBound nextChar q := by
  induction q with
  | nil => rfl
  | cons c s ih =>
    cases h : PrefixRange.upperBound nextChar s <;>
      simp [rangeUpperBound_cons, PrefixRange.upperBound, ih, h]

/-- `v` is `q` up to some U+D7FF and continues with a larger character; in `q` only
characters without a successor follow. -/
def Overrun (q v : Text) : Prop :=
  ∃ a b d w, q = a ++ beforeGap :: b ∧ (∀ c ∈ b, c = beforeGap ∨ c = lastChar) ∧
    v = a ++ d :: w ∧ beforeGap < d

theorem overrun_iff (q v : Text) : PrefixRange.Overrun nextChar q v ↔ Overrun q v := by
  constructor
  · rintro ⟨a, g, b, d, w, hq, hcap, hv, hlt⟩
    rw [List.forall_mem_cons, nextChar_eq_none_iff] at hcap
    obtain ⟨hg | hg, hb⟩ := hcap
    · subst hg
      exact ⟨a, b, d, w, hq, fun c hc => (nextChar_eq_none_iff c).mp (hb c hc), hv, hlt⟩
    · -- nothing is larger than the last character
      have hd : d.toNat.isValidChar := d.valid
      have hmax : lastChar.toNat = 0x10FFFF := rfl
      rw [hg, char_lt_iff, hmax] at hlt
      unfold Nat.isValidChar at hd
      omega
  · rintro ⟨a, b, d, w, hq, hcap, hv, hlt⟩
    refine ⟨a, beforeGap, b, d, w, hq, ?_, hv, hlt⟩
    rw [List.forall_mem_cons, nextChar_eq_none_iff]
    exact ⟨.inl rfl, fun c hc => (nextChar_eq_none_iff c).mpr (hcap c hc)⟩

theorem inRange_iff (q v : Text) :
    inRange q (rangeUpperBound q) (some v) = true ↔ q <+: v ∨ Overrun q v := by
  rw [← overrun_iff, ← PrefixRange.inRange_iff fun c n h => lt_nextChar_iff h,
    PrefixRange.InRange, ← rangeUpperBound_eq]
  unfold inRange
  cases rangeUpperBound q with
  | none => simp
  | some u => simp

/-! ### The two strategies -/

instance (q v : Text) : Decidable (q <+: v ∨ Overrun q v) := decidable_of_iff _ (inRange_iff q v)

/-- Every row holds its reversed text. -/
def Reversed (db : Db) : Prop :=
  ∀ (id : Int64) en, db.entries[id]? = some en → en.normRev = some (reverseChars en.norm)

theorem prefix_or_overrun_imp_iff (q v : Text) :
    (q <+: v ∨ Overrun q v → q <+: v) ↔ ¬ Overrun q v := by
  constructor
  · intro h ho
    have hn : ¬ PrefixRange.Overrun nextChar q v :=
      PrefixRange.not_overrun_of_prefix (h (.inr ho))
    exact hn ((overrun_iff q v).mpr ho)
  · rintro h (hp | ho)
    · exact hp
    · exact absurd ho h

section Exact

variable {sq : Sqlite} (hf : sq.rowFault = none) {db : Db} {q : Text} (hq : q ≠ [])
  {limit : UInt32} (hlimit : db.entries.size ≤ limit.toNat)

theorem prefix_ids (q : Text) (db : Db) :
    (db.entries.toList.filter fun r => inRange q (rangeUpperBound q) (some r.2.norm)).map Prod.fst =
      idsWhere (fun v => q <+: v ∨ Overrun q v) db := by
  unfold idsWhere
  congr 1
  refine List.filter_congr fun r _ => ?_
  exact Bool.eq_iff_iff.mpr ((inRange_iff q r.2.norm).trans (decide_eq_true_iff).symm)

theorem suffix_ids (hs : Reversed db) (q : Text) :
    (db.entries.toList.filter fun r =>
        inRange (reverseChars q) (rangeUpperBound (reverseChars q)) r.2.normRev).map Prod.fst =
      idsWhere (fun v => reverseChars q <+: reverseChars v ∨
        Overrun (reverseChars q) (reverseChars v)) db := by
  unfold idsWhere
  congr 1
  refine List.filter_congr fun r hr => ?_
  rw [hs r.1 r.2 ((Table.mem_toList _ _ _).mp hr)]
  exact Bool.eq_iff_iff.mpr ((inRange_iff _ _).trans (decide_eq_true_iff).symm)

theorem eval_rangeCount (col : Entry → Option Text) (key : Text) (upper : Option Text) :
    ((rangeCount col key upper).run (quiet db none DEFAULT_FIELD_BITS false)).1 =
      .ok (db.entries.toList.filter fun r => inRange key upper (col r.2)).length := rfl

include hf hq hlimit

theorem prefix_exact_iff :
    Finds sq .prefixMatch q limit db (q <+: ·) ∧ Counts sq .prefixMatch q db (q <+: ·) ↔
      ∀ (id : Int64) en, db.entries[id]? = some en → ¬ Overrun q en.norm := by
  have hsub : ∀ v, q <+: v → q <+: v ∨ Overrun q v := fun v h => .inl h
  have hids : ((rangeRows (fun e => some e.norm) q (rangeUpperBound q) db.entries).map Hit.id).Perm
      (idsWhere (fun v => q <+: v ∨ Overrun q v) db) := by
    rw [← prefix_ids]
    exact rangeRows_perm _ _ _ _
  have hcount : (((buildStrategy sq .prefixMatch).matchCount q).run
      (quiet db none DEFAULT_FIELD_BITS false)).1 =
        .ok (idsWhere (fun v => q <+: v ∨ Overrun q v) db).length := by
    rw [← prefix_ids, List.length_map]
    exact eval_rangeCount (fun e => some e.norm) q (rangeUpperBound q)
  rw [finds_iff_of_rows db hsub hf hq hlimit rfl hids, counts_iff_of_rows db hsub hcount, and_self]
  simp only [prefix_or_overrun_imp_iff]

theorem suffix_exact_iff (hs : Reversed db) :
    Finds sq .suffixMatch q limit db (q <:+ ·) ∧ Counts sq .suffixMatch q db (q <:+ ·) ↔
      ∀ (id : Int64) en, db.entries[id]? = some en →
        ¬ Overrun (reverseChars q) (reverseChars en.norm) := by
  have hrev : ∀ v : Text, reverseChars q <+: reverseChars v ↔ q <:+ v := fun v =>
    List.reverse_prefix
  have hsub : ∀ v, q <:+ v → reverseChars q <+: reverseChars v ∨
      Overrun (reverseChars q) (reverseChars v) := fun v h => .inl ((hrev v).mpr h)
  have hids := rangeRows_perm Entry.normRev (reverseChars q) (rangeUpperBound (reverseChars q))
    db.entries
  rw [suffix_ids hs] at hids
  have hcount : (((buildStrategy sq .suffixMatch).matchCount q).run
      (quiet db none DEFAULT_FIELD_BITS false)).1 =
        .ok (idsWhere (fun v => reverseChars q <+: reverseChars v ∨
          Overrun (reverseChars q) (reverseChars v)) db).length := by
    rw [← suffix_ids hs, List.length_map]
    exact eval_rangeCount _ _ _
  rw [finds_iff_of_rows db hsub hf hq hlimit rfl hids, counts_iff_of_rows db hsub hcount, and_self]
  simp only [← hrev, prefix_or_overrun_imp_iff]

/-- Prefix and Suffix return and count exactly the ids they should just when no text
overruns the query, read forwards and backwards. -/
theorem prefix_suffix_exact_iff (hs : Reversed db) :
    (Finds sq .prefixMatch q limit db (q <+: ·) ∧ Counts sq .prefixMatch q db (q <+: ·) ↔
      ∀ (id : Int64) en, db.entries[id]? = some en → ¬ Overrun q en.norm) ∧
    (Finds sq .suffixMatch q limit db (q <:+ ·) ∧ Counts sq .suffixMatch q db (q <:+ ·) ↔
      ∀ (id : Int64) en, db.entries[id]? = some en →
        ¬ Overrun (reverseChars q) (reverseChars en.norm)) :=
  ⟨prefix_exact_iff hf hq hlimit, suffix_exact_iff hf hq hlimit hs⟩

end Exact

/-- An index with one text, which starts with the first character after the surrogates. -/
def gapIndex : Db := (Host.run .ascii {} [.reopen .new, .call (.index 1 ['\uE000', 'a'])]).file

theorem gapIndex_invariant :
    (∀ id : Int64, gapIndex.docs[id]? = gapIndex.entries[id]?.map Entry.norm) ∧
    Reversed gapIndex :=
  have hfresh : Host.Ok .ascii {} := Host.fresh_ok
  have hinv := (Host.run_ok [.reopen .new, .call (.index 1 ['\uE000', 'a'])] hfresh).invariant
  ⟨hinv.synced, hinv.reversed⟩

theorem gapIndex_hits :
    (((buildStrategy .plain .prefixMatch).search [beforeGap] u32Max).run
      (quiet gapIndex none DEFAULT_FIELD_BITS false)).1 = .ok [{ id := 1, score := 0 }] ∧
    idsWhere ([beforeGap] <+: ·) gapIndex = [] ∧ gapIndex.entries.size ≤ u32Max.toNat := by
  decide +kernel

theorem prefix_search_not_exact :
    ¬ ∀ (db : Db) (q : Text), (∀ id : Int64, db.docs[id]? = db.entries[id]?.map Entry.norm) →
      Reversed db → q ≠ [] → Finds .plain .prefixMatch q u32Max db (q <+: ·) := by
  intro h
  obtain ⟨hits, hrun, hperm⟩ :=
    h gapIndex [beforeGap] gapIndex_invariant.1 gapIndex_invariant.2 (by decide)
  obtain ⟨hfound, hnone, _⟩ := gapIndex_hits
  rw [hfound, Outcome.ok.injEq] at hrun
  subst hrun
  rw [hnone] at hperm
  exact absurd hperm.length_eq (by decide)

theorem prefix_suffix_exact_gap :
    (Finds .plain .prefixMatch ['a'] u32Max gapIndex (['a'] <+: ·) ∧
        Counts .plain .prefixMatch ['a'] gapIndex (['a'] <+: ·) ↔
      ∀ (id : Int64) en, gapIndex.entries[id]? = some en → ¬ Overrun ['a'] en.norm) ∧
    (Finds .plain .suffixMatch ['a'] u32Max gapIndex (['a'] <:+ ·) ∧
        Counts .plain .suffixMatch ['a'] gapIndex (['a'] <:+ ·) ↔
      ∀ (id : Int64) en, gapIndex.entries[id]? = some en →
        ¬ Overrun (reverseChars ['a']) (reverseChars en.norm)) :=
  prefix_suffix_exact_iff rfl (by decide) gapIndex_hits.2.2 gapIndex_invariant.2

end Unfydqry.Search
