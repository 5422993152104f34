import Mathlib.Tactic.Common
import Mathlib.Data.List.Basic

/-! # The binary search of `slice::partition_point`

On a list that the predicate splits in two the search finds the split. On any other list it
still splits the elements that it reads, and a weaker predicate never ends it earlier. -/

namespace PartitionPoint

variable {α : Type}

/-- The loop of `slice::binary_search_by` under `partition_point`, as it is since Rust 1.82:
`size` elements from `base` are left. -/
def partitionLoop (p : α → Bool) (xs : List α) : ℕ → ℕ → ℕ → ℕ
  | 0, base, _ => base
  | fuel + 1, base, size =>
    if size ≤ 1 then base
    else
      let half := size / 2
      let mid := base + half
      partitionLoop p xs fuel (if xs[mid]?.any p then mid else base) (size - half)

/-- `xs.partition_point(p)`. -/
def partitionPoint (p : α → Bool) (xs : List α) : ℕ :=
  if xs.isEmpty then 0
  else
    let base := partitionLoop p xs xs.length 0 xs.length
    if xs[base]?.any p then base + 1 else base

/-- The positions that the loop reads. -/
def loopReads (p : α → Bool) (xs : List α) : ℕ → ℕ → ℕ → List ℕ
  | 0, _, _ => []
  | fuel + 1, base, size =>
    if size ≤ 1 then []
    else
      let mid := base + size / 2
      mid :: loopReads p xs fuel (if xs[mid]?.any p then mid else base) (size - size / 2)

/-- The search reads the element: in its loop, or for the last comparison. -/
def Reads (p : α → Bool) (xs : List α) (i : ℕ) : Prop :=
  i ∈ loopReads p xs xs.length 0 xs.length ∨
    xs ≠ [] ∧ i = partitionLoop p xs xs.length 0 xs.length

instance (p : α → Bool) (xs : List α) : DecidablePred (Reads p xs) := fun _ =>
  decidable_of_iff (_ ∈ loopReads p xs xs.length 0 xs.length ∨
    ¬ xs.isEmpty = true ∧ _ = partitionLoop p xs xs.length 0 xs.length)
    (by rw [List.isEmpty_iff]; exact Iff.rfl)

/-! ### One search -/

section Search

variable {p : α → Bool} {xs : List α}

/-- What the loop ends with: a position that it has read and found true, unless it is the
first one, with everything read up to it true and everything read behind it false. -/
structure LoopEnds (p : α → Bool) (xs : List α) (base size b : ℕ) (reads : List ℕ) : Prop where
  lower : base ≤ b
  upper : b < base + size
  own : b = base ∨ b ∈ reads
  cut : ∀ i ∈ reads, base < i ∧ i < base + size ∧ (xs[i]?.any p = true ↔ i ≤ b)
  next : b + 1 = base + size ∨ b + 1 ∈ reads

variable (p xs) in
theorem partitionLoop_ends (fuel base size : ℕ) (hsize : 0 < size) (hfuel : size ≤ fuel + 1) :
    LoopEnds p xs base size (partitionLoop p xs fuel base size)
      (loopReads p xs fuel base size) := by
  induction fuel generalizing base size with
  | zero =>
    exact ⟨Nat.le_refl _, by simpa [partitionLoop] using hsize, .inl rfl, by simp [loopReads],
      .inl (by simp only [partitionLoop]; omega)⟩
  | succ fuel ih =>
    rw [partitionLoop, loopReads]
    by_cases hone : size ≤ 1
    · rw [if_pos hone, if_pos hone]
      exact ⟨Nat.le_refl _, by omega, .inl rfl, by simp, .inl (by omega)⟩
    · simp only [if_neg hone]
      by_cases hmid : xs[base + size / 2]?.any p = true
      · obtain ⟨hlow, hup, hown, hcut, hnext⟩ :=
          ih (base + size / 2) (size - size / 2) (by omega) (by omega)
        simp only [if_pos hmid]
        refine ⟨by omega, by omega, ?_, ?_, ?_⟩
        · rcases hown with heq | hin
          · exact .inr (by rw [heq]; exact List.mem_cons_self ..)
          · exact .inr (List.mem_cons_of_mem _ hin)
        · refine List.forall_mem_cons.mpr ⟨⟨by omega, by omega, iff_of_true hmid hlow⟩, ?_⟩
          intro i hi
          obtain ⟨h1, h2, h3⟩ := hcut i hi
          exact ⟨by omega, by omega, h3⟩
        · rcases hnext with heq | hin
          · exact .inl (by omega)
          · exact .inr (List.mem_cons_of_mem _ hin)
      · obtain ⟨hlow, hup, hown, hcut, hnext⟩ :=
          ih base (size - size / 2) (by omega) (by omega)
        simp only [if_neg hmid]
        -- the false element may be the last one of the rest, and is not where the rest ends
        have hbefore : partitionLoop p xs fuel base (size - size / 2) < base + size / 2 := by
          by_contra hge
          have heq : partitionLoop p xs fuel base (size - size / 2) = base + size / 2 := by omega
          rw [heq] at hown hcut
          rcases hown with hbase | hin
          · omega
          · exact hmid ((hcut _ hin).2.2.mpr (Nat.le_refl _))
        refine ⟨hlow, by omega, ?_, ?_, ?_⟩
        · exact hown.imp_right (List.mem_cons_of_mem _)
        · refine List.forall_mem_cons.mpr
            ⟨⟨by omega, by omega, iff_of_false hmid (Nat.not_le.mpr hbefore)⟩, ?_⟩
          intro i hi
          obtain ⟨h1, h2, h3⟩ := hcut i hi
          exact ⟨h1, by omega, h3⟩
        · by_cases hlast : partitionLoop p xs fuel base (size - size / 2) + 1 = base + size / 2
          · exact .inr (by rw [hlast]; exact List.mem_cons_self ..)
          · exact .inr (List.mem_cons_of_mem _ (hnext.resolve_left (by omega)))

/-- The search splits what it reads, and reads the elements on both sides of the split. -/
structure Cuts (p : α → Bool) (xs : List α) (reads : ℕ → Prop) (k : ℕ) : Prop where
  le : k ≤ xs.length
  split : ∀ i, reads i → (xs[i]?.any p = true ↔ i < k)
  before : 0 < k → reads (k - 1)
  after : k < xs.length → reads k

theorem partitionPoint_cuts (p : α → Bool) (xs : List α) :
    Cuts p xs (Reads p xs) (partitionPoint p xs) := by
  unfold partitionPoint
  by_cases hnil : xs = []
  · subst hnil
    exact ⟨Nat.le_refl _, fun i hi => iff_of_false (by simp) (by simp), fun h => absurd h (by simp),
      fun h => absurd h (by simp)⟩
  · have hpos : 0 < xs.length := List.length_pos_iff.mpr hnil
    obtain ⟨-, hup, hown, hcut, hnext⟩ :=
      partitionLoop_ends p xs xs.length 0 xs.length hpos (by omega)
    rw [if_neg (mt List.isEmpty_iff.mp hnil)]
    dsimp only
    unfold Reads
    generalize partitionLoop p xs xs.length 0 xs.length = b at *
    rw [Nat.zero_add] at hup hnext
    by_cases hb : xs[b]?.any p = true
    · rw [if_pos hb]
      refine ⟨hup, ?_, fun _ => .inr ⟨hnil, rfl⟩, fun h => ?_⟩
      · rintro i (hi | ⟨_, rfl⟩)
        · rw [(hcut i hi).2.2]
          exact Nat.lt_succ_iff.symm
        · exact iff_of_true hb (Nat.lt_succ_self _)
      · exact .inl (hnext.resolve_left (by omega))
    · rw [if_neg hb]
      have hzero : b = 0 := hown.resolve_right fun hin => hb ((hcut b hin).2.2.mpr (Nat.le_refl b))
      refine ⟨by omega, ?_, fun h => absurd h (by omega), fun _ => .inr ⟨hnil, rfl⟩⟩
      rintro i (hi | ⟨_, rfl⟩)
      · obtain ⟨h1, -, h2⟩ := hcut i hi
        rw [h2]
        omega
      · exact iff_of_false hb (Nat.lt_irrefl _)

/-- A predicate that fails for good is split as a whole. -/
theorem lt_partitionPoint_iff (h : xs.Pairwise fun a b => p b = true → p a = true) {i : ℕ} {x : α}
    (hx : xs[i]? = some x) : i < partitionPoint p xs ↔ p x = true := by
  obtain ⟨hle, hsplit, hbefore, hafter⟩ := partitionPoint_cuts p xs
  have hlater : ∀ {j k : ℕ} {y z : α}, j < k → xs[j]? = some y → xs[k]? = some z →
      p z = true → p y = true := by
    intro j k y z hjk hy hz
    obtain ⟨hj, rfl⟩ := List.getElem?_eq_some_iff.mp hy
    obtain ⟨hk, rfl⟩ := List.getElem?_eq_some_iff.mp hz
    exact List.pairwise_iff_getElem.mp h j k hj hk hjk
  have hi := (List.getElem?_eq_some_iff.mp hx).1
  constructor
  · intro hlt
    have hread := hbefore (by omega)
    have hlast := (hsplit _ hread).mpr (by omega)
    obtain ⟨y, hy⟩ : ∃ y, xs[partitionPoint p xs - 1]? = some y :=
      ⟨_, List.getElem?_eq_getElem (by omega)⟩
    rw [hy, Option.any_some] at hlast
    by_cases hsame : i = partitionPoint p xs - 1
    · rw [hsame, hy] at hx
      exact Option.some.inj hx ▸ hlast
    · exact hlater (by omega) hx hy hlast
  · intro hp
    by_contra hge
    have hread := hafter (by omega)
    have hfirst := mt (hsplit _ hread).mp (Nat.lt_irrefl _)
    obtain ⟨y, hy⟩ : ∃ y, xs[partitionPoint p xs]? = some y :=
      ⟨_, List.getElem?_eq_getElem (by omega)⟩
    rw [hy, Option.any_some] at hfirst
    by_cases hsame : i = partitionPoint p xs
    · rw [hsame, hy] at hx
      exact hfirst (Option.some.inj hx ▸ hp)
    · exact hfirst (hlater (by omega) hy hx hp)

theorem partitionLoop_map {β : Type} (f : β → α) (p : α → Bool) (ys : List β)
    (fuel base size : ℕ) :
    partitionLoop p (ys.map f) fuel base size = partitionLoop (p ∘ f) ys fuel base size := by
  induction fuel generalizing base size with
  | zero => rfl
  | succ fuel ih =>
    simp only [partitionLoop, ih, List.getElem?_map, Option.any_map]
    rfl

theorem partitionPoint_map {β : Type} (f : β → α) (p : α → Bool) (ys : List β) :
    partitionPoint p (ys.map f) = partitionPoint (p ∘ f) ys := by
  simp only [partitionPoint, partitionLoop_map, List.isEmpty_map, List.length_map,
    List.getElem?_map, Option.any_map]
  rfl

end Search

/-! ### Two searches of one list -/

section Compare

variable {p q : α → Bool} {xs : List α} (h : ∀ x, p x = true → q x = true)

include h

variable (xs) in
/-- Two searches go the same way up to an element that only the weaker predicate holds of. -/
theorem partitionLoop_compare (fuel base size : ℕ) (hsize : 0 < size) (hfuel : size ≤ fuel + 1) :
    (partitionLoop p xs fuel base size = partitionLoop q xs fuel base size ∧
      ∀ i ∈ loopReads q xs fuel base size, xs[i]?.any q = true → xs[i]?.any p = true) ∨
    (partitionLoop p xs fuel base size < partitionLoop q xs fuel base size ∧
      ∃ i ∈ loopReads q xs fuel base size, xs[i]?.any q = true ∧ ¬ xs[i]?.any p = true) := by
  induction fuel generalizing base size with
  | zero => exact .inl ⟨by simp only [partitionLoop], by simp [loopReads]⟩
  | succ fuel ih =>
    by_cases hone : size ≤ 1
    · rw [partitionLoop, partitionLoop, loopReads, if_pos hone, if_pos hone, if_pos hone]
      exact .inl ⟨rfl, by simp⟩
    · have hweaker : xs[base + size / 2]?.any p = true → xs[base + size / 2]?.any q = true := by
        cases xs[base + size / 2]? with
        | none => simp
        | some x => exact h x
      have hp := partitionLoop_ends p xs (fuel + 1) base size hsize hfuel
      have hq := partitionLoop_ends q xs (fuel + 1) base size hsize hfuel
      by_cases hsame : xs[base + size / 2]?.any q = true → xs[base + size / 2]?.any p = true
      · have hany : xs[base + size / 2]?.any p = xs[base + size / 2]?.any q :=
          Bool.eq_iff_iff.mpr ⟨hweaker, hsame⟩
        have hrest := ih (if xs[base + size / 2]?.any q = true then base + size / 2 else base)
          (size - size / 2) (by omega) (by omega)
        simp only [partitionLoop, loopReads, if_neg hone, hany, List.forall_mem_cons]
        rcases hrest with ⟨heq, hall⟩ | ⟨hlt, i, hi, hdiff⟩
        · exact .inl ⟨heq, id, hall⟩
        · exact .inr ⟨hlt, i, List.mem_cons_of_mem _ hi, hdiff⟩
      · rw [Classical.not_imp] at hsame
        have hpread : base + size / 2 ∈ loopReads p xs (fuel + 1) base size := by
          rw [loopReads, if_neg hone]
          exact List.mem_cons_self ..
        have hqread : base + size / 2 ∈ loopReads q xs (fuel + 1) base size := by
          rw [loopReads, if_neg hone]
          exact List.mem_cons_self ..
        have hbefore := mt (hp.cut _ hpread).2.2.mpr hsame.2
        have hbehind := (hq.cut _ hqread).2.2.mp hsame.1
        exact .inr ⟨by omega, _, hqread, hsame⟩

variable (xs) in
theorem partitionPoint_compare :
    (partitionPoint p xs = partitionPoint q xs ∧
      ¬ ∃ i, Reads q xs i ∧ xs[i]?.any q = true ∧ ¬ xs[i]?.any p = true) ∨
    (partitionPoint p xs < partitionPoint q xs ∧
      ∃ i, Reads q xs i ∧ xs[i]?.any q = true ∧ ¬ xs[i]?.any p = true) := by
  by_cases hnil : xs = []
  · subst hnil
    refine .inl ⟨rfl, ?_⟩
    rintro ⟨i, _, hi, _⟩
    exact absurd hi (by simp)
  · have hpos : 0 < xs.length := List.length_pos_iff.mpr hnil
    have hq := partitionLoop_ends q xs xs.length 0 xs.length hpos (by omega)
    have hsplit := partitionLoop_compare xs h xs.length 0 xs.length hpos (by omega)
    unfold partitionPoint Reads
    rw [if_neg (mt List.isEmpty_iff.mp hnil), if_neg (mt List.isEmpty_iff.mp hnil)]
    dsimp only
    rcases hsplit with ⟨heq, hall⟩ | ⟨hlt, i, hi, hdiff⟩
    · rw [heq]
      generalize partitionLoop q xs xs.length 0 xs.length = b at *
      by_cases hlast : xs[b]?.any q = true ∧ ¬ xs[b]?.any p = true
      · rw [if_neg hlast.2, if_pos hlast.1]
        exact .inr ⟨Nat.lt_succ_self b, b, .inr ⟨hnil, rfl⟩, hlast⟩
      · have hany : xs[b]?.any p = xs[b]?.any q := by
          rw [Bool.eq_iff_iff]
          refine ⟨?_, fun hb => not_not.mp fun hn => hlast ⟨hb, hn⟩⟩
          cases xs[b]? with
          | none => simp
          | some x => exact h x
        rw [hany]
        refine .inl ⟨rfl, ?_⟩
        rintro ⟨i, hi | ⟨_, rfl⟩, hdiff⟩
        · exact hdiff.2 (hall i hi hdiff.1)
        · exact hlast hdiff
    · -- the further end is not the first position, so it was found true
      have htrue : xs[partitionLoop q xs xs.length 0 xs.length]?.any q = true := by
        have hread := hq.own.resolve_left (by omega)
        exact (hq.cut _ hread).2.2.mpr (Nat.le_refl _)
      rw [if_pos htrue]
      refine .inr ⟨?_, i, .inl hi, hdiff⟩
      split <;> omega

theorem partitionPoint_mono : partitionPoint p xs ≤ partitionPoint q xs := by
  rcases partitionPoint_compare xs h with ⟨heq, _⟩ | ⟨hlt, _⟩ <;> omega

/-- The weaker predicate ends the search later just when the search reads an element that it
alone holds of. -/
theorem partitionPoint_lt_iff : partitionPoint p xs < partitionPoint q xs ↔
    ∃ i, Reads q xs i ∧ xs[i]?.any q = true ∧ ¬ xs[i]?.any p = true := by
  rcases partitionPoint_compare xs h with ⟨heq, hnone⟩ | ⟨hlt, hsome⟩
  · exact iff_of_false (by omega) hnone
  · exact iff_of_true hlt hsome

end Compare

end PartitionPoint
