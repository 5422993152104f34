import Mathlib.Algebra.BigOperators.Group.List.Lemmas
import Mathlib.Algebra.Order.BigOperators.Group.List
import Mathlib.Algebra.Order.Ring.Nat
import Mathlib.Data.List.Sort

/-! # Pages of a ranking built from a growing prefix of its rows

A ranking lists keys by their first score, ties by key. Page `k` is cut from the
ranking of the first rows only, more of them for a later page. The pages are a
permutation of the whole ranking just when every page already sees the rows of all
keys that rank before its end. -/

namespace RankedPages

section Cut

variable {γ : Type} (C : List γ) (keep : ℕ → γ → Bool) (size : ℕ)

/-- Page `k`, of the part of the ranking that its rows show. -/
def page (k : ℕ) : List γ := ((C.filter (keep (k + 1))).drop (k * size)).take size

/-- The first `k` pages' worth of keys are among those shown to page `k`. -/
def Shown (k : ℕ) : Prop := ∀ x ∈ C.take (k * size), keep k x = true

variable {C keep size}

theorem page_eq_nil {k : ℕ} (h : C.length ≤ k * size) : page C keep size k = [] := by
  have hlen : (C.filter (keep (k + 1))).length ≤ k * size :=
    (List.length_filter_le _ _).trans h
  rw [page, List.drop_eq_nil_of_le hlen, List.take_nil]

variable (hmany : ∀ k, min C.length (k * size) ≤ (C.filter (keep k)).length)

include hmany

theorem page_ne_nil (hsize : 0 < size) {k : ℕ} (h : k * size < C.length) :
    page C keep size k ≠ [] := by
  have hlen := hmany (k + 1)
  have hnext : k * size < (k + 1) * size := by
    rw [Nat.add_mul, Nat.one_mul]
    omega
  intro hnil
  have hzero := congrArg List.length hnil
  rw [page, List.length_take, List.length_drop, List.length_nil] at hzero
  omega

omit hmany in
/-- Shown keys come first among the shown ones, so the page is that of the ranking. -/
theorem page_of_shown {k : ℕ} (h : Shown C keep size (k + 1)) :
    page C keep size k = (C.drop (k * size)).take size := by
  have hsplit : C.filter (keep (k + 1)) = C.take ((k + 1) * size) ++
      (C.drop ((k + 1) * size)).filter (keep (k + 1)) := by
    conv_lhs => rw [← List.take_append_drop ((k + 1) * size) C, List.filter_append]
    rw [List.filter_eq_self.mpr h]
  have hmul : (k + 1) * size = k * size + size := by rw [Nat.add_mul, Nat.one_mul]
  by_cases hlong : (k + 1) * size ≤ C.length
  · have hlen : (C.take ((k + 1) * size)).length = k * size + size := by
      rw [List.length_take, Nat.min_eq_left hlong, hmul]
    rw [page, hsplit, List.drop_append_of_le_length (by omega),
      List.take_append_of_le_length (by rw [List.length_drop]; omega), List.drop_take,
      List.take_take, hmul, Nat.add_sub_cancel_left, Nat.min_self]
  · have hall : C.take ((k + 1) * size) = C := List.take_of_length_le (by omega)
    have hnone : C.drop ((k + 1) * size) = [] := List.drop_eq_nil_of_le (by omega)
    rw [page, hsplit, hall, hnone, List.filter_nil, List.append_nil]

/-- When a page lies within the ranking's own first pages, these are all shown to it. -/
theorem shown_of_page_subset (hnodup : C.Nodup) (hsize : 0 < size) {k : ℕ}
    (hsub : ∀ x ∈ page C keep size k, x ∈ C.take ((k + 1) * size)) :
    Shown C keep size (k + 1) := by
  have hmul : (k + 1) * size = k * size + size := by rw [Nat.add_mul, Nat.one_mul]
  by_cases hfull : (k + 1) * size ≤ (C.filter (keep (k + 1))).length
  · -- the last key of the page is at the end of the first pages, which leaves no room for a
    -- key that is not shown
    have hlast : k * size + (size - 1) < (C.filter (keep (k + 1))).length := by omega
    obtain ⟨x, hx⟩ : ∃ x, (C.filter (keep (k + 1)))[k * size + (size - 1)]? = some x :=
      ⟨_, List.getElem?_eq_getElem hlast⟩
    have hmem : x ∈ page C keep size k := by
      refine List.mem_of_getElem? (i := size - 1) ?_
      rw [page, List.getElem?_take_of_lt (by omega), List.getElem?_drop]
      exact hx
    have hin := hsub x hmem
    have hsplit : C.filter (keep (k + 1)) = (C.take ((k + 1) * size)).filter (keep (k + 1)) ++
        (C.drop ((k + 1) * size)).filter (keep (k + 1)) := by
      rw [← List.filter_append, List.take_append_drop]
    have hcount : (k + 1) * size ≤ ((C.take ((k + 1) * size)).filter (keep (k + 1))).length := by
      by_contra hshort
      rw [hsplit, List.getElem?_append_right (by omega)] at hx
      have hdrop := (List.mem_filter.mp (List.mem_of_getElem? hx)).1
      exact List.disjoint_take_drop hnodup (le_refl ((k + 1) * size)) hin hdrop
    intro x hx
    have hall : (C.take ((k + 1) * size)).filter (keep (k + 1)) = C.take ((k + 1) * size) := by
      apply List.filter_sublist.eq_of_length_le
      exact (List.length_take_le _ _).trans hcount
    exact List.filter_eq_self.mp hall x hx
  · -- fewer keys than the page could hold are shown: all are
    have hlen := hmany (k + 1)
    have hall : C.filter (keep (k + 1)) = C :=
      List.filter_sublist.eq_of_length_le (by omega)
    exact fun x hx => List.filter_eq_self.mp hall x (List.mem_of_mem_take hx)

/-- The first `n` pages are the first keys of the ranking just when all of these are shown
in time. -/
theorem pages_perm_iff (hnodup : C.Nodup) (hsize : 0 < size) (n : ℕ) :
    ((List.range n).flatMap (page C keep size)).Perm (C.take (n * size)) ↔
      ∀ k < n, Shown C keep size (k + 1) := by
  induction n with
  | zero => simp
  | succ n ih =>
    have hmul : (n + 1) * size = n * size + size := by rw [Nat.add_mul, Nat.one_mul]
    have htake : C.take ((n + 1) * size) = C.take (n * size) ++ (C.drop (n * size)).take size := by
      rw [hmul, List.take_add]
    have hpages : (List.range (n + 1)).flatMap (page C keep size) =
        (List.range n).flatMap (page C keep size) ++ page C keep size n := by
      rw [List.range_succ, List.flatMap_append, List.flatMap_singleton]
    rw [Nat.forall_lt_succ_right, ← ih]
    constructor
    · intro hperm
      have hshown : Shown C keep size (n + 1) := by
        refine shown_of_page_subset hmany hnodup hsize fun x hx => hperm.subset ?_
        rw [hpages]
        exact List.mem_append_right _ hx
      rw [hpages, page_of_shown hshown, htake] at hperm
      exact ⟨(List.perm_append_right_iff _).mp hperm, hshown⟩
    · rintro ⟨hperm, hshown⟩
      rw [hpages, page_of_shown hshown, htake]
      exact hperm.append_right _

theorem shown_of_length_le {k : ℕ} (h : C.length ≤ k * size) : Shown C keep size k := by
  have hlen := hmany k
  rw [Nat.min_eq_left h] at hlen
  have hall : C.filter (keep k) = C := List.filter_sublist.eq_of_length_le hlen
  exact fun x hx => List.filter_eq_self.mp hall x (List.mem_of_mem_take hx)

/-- The number of pages before the first empty one. -/
def count (C : List γ) (size : ℕ) : ℕ := (C.length + size - 1) / size

omit hmany in
theorem lt_count_iff (C : List γ) (hsize : 0 < size) (k : ℕ) :
    k < count C size ↔ k * size < C.length := by
  rw [count, Nat.lt_div_iff_mul_lt hsize]
  omega

/-- The pages up to the first empty one hold every key exactly once just when every page
is shown the keys before its end. -/
theorem all_pages_perm_iff (hnodup : C.Nodup) (hsize : 0 < size) :
    ((List.range (count C size)).flatMap (page C keep size)).Perm C ↔ ∀ k, Shown C keep size k := by
  have hend : ∀ k, count C size ≤ k → C.length ≤ k * size := by
    intro k hk
    have hlt := (lt_count_iff C hsize k).not.mp hk.not_gt
    omega
  have htake : C.take (count C size * size) = C := List.take_of_length_le (hend _ (le_refl _))
  have hiff := pages_perm_iff hmany hnodup hsize (count C size)
  rw [htake] at hiff
  rw [hiff]
  constructor
  · intro h k
    rcases Nat.eq_zero_or_pos k with hk | hk
    · intro x hx
      rw [hk, Nat.zero_mul, List.take_zero] at hx
      cases hx
    · by_cases hlast : k - 1 < count C size
      · have hshown := h (k - 1) hlast
        rwa [Nat.sub_add_cancel hk] at hshown
      · exact shown_of_length_le hmany (hend k (by omega))
  · exact fun h k _ => h (k + 1)

end Cut

/-! ### Rankings -/

section Rows

variable {κ σ : Type} [LinearOrder κ] [LinearOrder σ]

/-- Each key once, with its first score. -/
def firsts : List (κ × σ) → List (κ × σ)
  | [] => []
  | r :: rows => r :: (firsts rows).filter fun x => x.1 ≠ r.1

/-- By score, then by key. -/
def rankOrder (a b : κ × σ) : Prop := a.2 < b.2 ∨ a.2 = b.2 ∧ a.1 ≤ b.1

instance : DecidableRel (rankOrder : κ × σ → κ × σ → Prop) := fun a b =>
  inferInstanceAs (Decidable (a.2 < b.2 ∨ a.2 = b.2 ∧ a.1 ≤ b.1))

def ranking (rows : List (κ × σ)) : List (κ × σ) := (firsts rows).insertionSort rankOrder

/-- The key of `x` has a row. -/
def among (rows : List (κ × σ)) (x : κ × σ) : Bool := x.1 ∈ rows.map Prod.fst

omit [LinearOrder σ] in
theorem mem_firsts_keys (rows : List (κ × σ)) (k : κ) :
    k ∈ (firsts rows).map Prod.fst ↔ k ∈ rows.map Prod.fst := by
  induction rows with
  | nil => rfl
  | cons r rows ih =>
    by_cases hk : k = r.1
    · simp [firsts, hk]
    · rw [List.map_cons, List.mem_cons, ← ih, firsts, List.map_cons, List.mem_cons]
      simp only [hk, false_or, List.mem_map, List.mem_filter, decide_eq_true_eq]
      constructor
      · rintro ⟨x, ⟨hx, _⟩, rfl⟩
        exact ⟨x, hx, rfl⟩
      · rintro ⟨x, hx, rfl⟩
        exact ⟨x, ⟨hx, hk⟩, rfl⟩

omit [LinearOrder σ] in
theorem firsts_keys_nodup (rows : List (κ × σ)) : ((firsts rows).map Prod.fst).Nodup := by
  induction rows with
  | nil => exact List.nodup_nil
  | cons r rows ih =>
    rw [firsts, List.map_cons, List.nodup_cons]
    refine ⟨?_, ih.sublist (List.filter_sublist.map _)⟩
    intro h
    obtain ⟨x, hx, heq⟩ := List.mem_map.mp h
    have hne := (List.mem_filter.mp hx).2
    simp [heq] at hne

omit [LinearOrder σ] in
theorem firsts_append (xs ys : List (κ × σ)) :
    firsts (xs ++ ys) = firsts xs ++ (firsts ys).filter fun x => !among xs x := by
  induction xs with
  | nil => simp [firsts, among]
  | cons r xs ih =>
    rw [List.cons_append, firsts, ih, firsts, List.cons_append, List.filter_append,
      List.filter_filter]
    congr 2
    refine List.filter_congr fun x _ => ?_
    simp only [among, List.map_cons, List.mem_cons]
    by_cases hx : x.1 = r.1 <;> simp [hx]

omit [LinearOrder σ] in
theorem firsts_take (rows : List (κ × σ)) (m : ℕ) :
    firsts (rows.take m) = (firsts rows).filter (among (rows.take m)) := by
  have hin : ∀ x ∈ firsts (rows.take m), among (rows.take m) x = true := by
    intro x hx
    have hkey := (mem_firsts_keys (rows.take m) x.1).mp (List.mem_map_of_mem hx)
    exact decide_eq_true hkey
  conv_rhs => rw [← List.take_append_drop m rows, firsts_append]
  rw [List.take_append_drop, List.filter_append, List.filter_eq_self.mpr hin, List.filter_filter]
  simp

theorem rankOrder_antisymm {a b : κ × σ} (hab : rankOrder a b) (hba : rankOrder b a) : a = b := by
  rcases hab with h | ⟨h, hk⟩
  · rcases hba with h' | ⟨h', _⟩
    · exact absurd h' h.not_gt
    · exact absurd h' h.ne'
  · rcases hba with h' | ⟨_, hk'⟩
    · exact absurd h h'.ne'
    · exact Prod.ext (le_antisymm hk hk') h

instance : Std.Total (rankOrder : κ × σ → κ × σ → Prop) where
  total a b := by
    rcases lt_trichotomy a.2 b.2 with h | h | h
    · exact .inl (.inl h)
    · rcases le_total a.1 b.1 with hk | hk
      · exact .inl (.inr ⟨h, hk⟩)
      · exact .inr (.inr ⟨h.symm, hk⟩)
    · exact .inr (.inl h)

instance : IsTrans (κ × σ) rankOrder where
  trans a b c hab hbc := by
    rcases hab with h | ⟨h, hk⟩ <;> rcases hbc with h' | ⟨h', hk'⟩
    · exact .inl (h.trans h')
    · exact .inl (h' ▸ h)
    · exact .inl (h ▸ h')
    · exact .inr ⟨h.trans h', hk.trans hk'⟩

theorem ranking_perm (rows : List (κ × σ)) : (ranking rows).Perm (firsts rows) :=
  List.perm_insertionSort _ _

theorem ranking_nodup (rows : List (κ × σ)) : (ranking rows).Nodup :=
  (ranking_perm rows).nodup_iff.mpr (firsts_keys_nodup rows).of_map

theorem ranking_take (rows : List (κ × σ)) (m : ℕ) :
    ranking (rows.take m) = (ranking rows).filter (among (rows.take m)) := by
  refine List.Perm.eq_of_pairwise (fun a b _ _ => rankOrder_antisymm)
    (List.pairwise_insertionSort _ _)
    ((List.pairwise_insertionSort rankOrder _).sublist List.filter_sublist) ?_
  apply (ranking_perm _).trans
  rw [firsts_take]
  exact ((ranking_perm rows).filter _).symm

theorem ranking_keys_perm (rows : List (κ × σ)) :
    ((ranking rows).map Prod.fst).Perm (rows.map Prod.fst).dedup := by
  apply ((ranking_perm rows).map _).trans
  refine (List.perm_ext_iff_of_nodup (firsts_keys_nodup rows) (List.nodup_dedup _)).mpr fun k => ?_
  rw [mem_firsts_keys, List.mem_dedup]

theorem ranking_keys_nodup (rows : List (κ × σ)) : ((ranking rows).map Prod.fst).Nodup :=
  (ranking_keys_perm rows).nodup_iff.mpr (List.nodup_dedup _)

/-- Rows of which no key has more than `width` have at least a `width`-th as many keys. -/
theorem length_le_mul {rows : List (κ × σ)} {width : ℕ}
    (hwidth : ∀ k, (rows.map Prod.fst).count k ≤ width) :
    rows.length ≤ width * (ranking rows).length := by
  have hsum := List.sum_map_count_dedup_eq_length (rows.map Prod.fst)
  have hle := List.sum_le_card_nsmul
    ((rows.map Prod.fst).dedup.map fun k => (rows.map Prod.fst).count k) width (by
      intro n hn
      obtain ⟨k, _, rfl⟩ := List.mem_map.mp hn
      exact hwidth k)
  have hkeys := (ranking_keys_perm rows).length_eq
  rw [List.length_map] at hkeys
  rw [hsum, List.length_map, List.length_map, ← hkeys, Nat.nsmul_eq_mul, Nat.mul_comm] at hle
  exact hle

/-! ### Rows that come in the order of the ranking -/

omit [LinearOrder σ] in
theorem firsts_prefix (rows : List (κ × σ)) (m : ℕ) : firsts (rows.take m) <+: firsts rows := by
  conv_rhs => rw [← List.take_append_drop m rows, firsts_append]
  exact List.prefix_append _ _

omit [LinearOrder σ] in
theorem firsts_sublist (rows : List (κ × σ)) : (firsts rows).Sublist rows := by
  induction rows with
  | nil => exact List.Sublist.refl _
  | cons r rows ih => exact (List.filter_sublist.trans ih).cons_cons r

theorem ranking_of_sorted {rows : List (κ × σ)} (h : rows.Pairwise rankOrder) :
    ranking rows = firsts rows :=
  (h.sublist (firsts_sublist rows)).insertionSort_eq

theorem mem_ranking_iff {rows : List (κ × σ)} (h : rows.Pairwise fun a b => a.2 ≤ b.2)
    (x : κ × σ) : x ∈ ranking rows ↔ x ∈ rows ∧ ∀ y ∈ rows, y.1 = x.1 → x.2 ≤ y.2 := by
  rw [(ranking_perm rows).mem_iff]
  induction rows with
  | nil => simp [firsts]
  | cons r rows ih =>
    rw [List.pairwise_cons] at h
    have ih := ih h.2
    rw [firsts, List.mem_cons, List.mem_filter, ih, List.mem_cons, List.forall_mem_cons]
    constructor
    · rintro (rfl | ⟨⟨hx, hbest⟩, hne⟩)
      · exact ⟨.inl rfl, fun _ => le_refl _, fun y hy _ => h.1 y hy⟩
      · exact ⟨.inr hx, fun heq => absurd heq.symm (by simpa using hne), hbest⟩
    · rintro ⟨hx, hhead, hbest⟩
      by_cases hkey : x.1 = r.1
      · refine .inl (Prod.ext hkey ?_)
        rcases hx with rfl | hx
        · rfl
        · exact le_antisymm (hhead hkey.symm) (h.1 x hx)
      · refine .inr ⟨⟨hx.resolve_left fun heq => hkey (by rw [heq]), hbest⟩, ?_⟩
        simpa using hkey

/-- The rows a page reads show it as many keys as the pages before its end hold. -/
theorem keys_of_rows {rows : List (κ × σ)} {width : ℕ}
    (hwidth : ∀ k, (rows.map Prod.fst).count k ≤ width) (size k : ℕ) :
    min (ranking rows).length (k * size) ≤
      ((ranking rows).filter (among (rows.take (k * size * width)))).length := by
  rw [← ranking_take]
  by_cases hall : rows.length ≤ k * size * width
  · rw [List.take_of_length_le hall]
    exact min_le_left _ _
  · have htake : ∀ key, ((rows.take (k * size * width)).map Prod.fst).count key ≤ width := by
      intro key
      exact ((List.take_sublist _ rows).map Prod.fst).count_le key |>.trans (hwidth key)
    have hlen := length_le_mul htake
    rw [List.length_take, Nat.min_eq_left (by omega)] at hlen
    have hkeys : width * (k * size) ≤
        width * (ranking (rows.take (k * size * width))).length := by
      rw [Nat.mul_comm width (k * size)]
      exact hlen
    have hpos : 0 < width := by
      rcases Nat.eq_zero_or_pos width with h | h
      · have hrows := length_le_mul hwidth
        rw [h, Nat.zero_mul] at hrows
        omega
      · exact h
    exact (min_le_right _ _).trans (Nat.le_of_mul_le_mul_left hkeys hpos)

theorem ranking_take_of_sorted {rows : List (κ × σ)} (h : rows.Pairwise rankOrder) {width : ℕ}
    (hwidth : ∀ k, (rows.map Prod.fst).count k ≤ width) (n : ℕ) :
    (ranking (rows.take (n * width))).take n = (ranking rows).take n := by
  have hmany := keys_of_rows hwidth n 1
  rw [Nat.one_mul, ← ranking_take] at hmany
  have hprefix := firsts_prefix rows (n * width)
  rw [← ranking_of_sorted h, ← ranking_of_sorted (h.sublist (List.take_sublist _ _))] at hprefix
  obtain ⟨rest, hrest⟩ := hprefix
  rw [← hrest] at hmany ⊢
  rw [List.length_append] at hmany
  by_cases hshort : n ≤ (ranking (rows.take (n * width))).length
  · rw [List.take_append_of_le_length hshort]
  · -- the rows are all read
    have hnil : rest = [] := List.length_eq_zero_iff.mp (by omega)
    rw [hnil, List.append_nil]

theorem page_ranking (rows : List (κ × σ)) (size width k : ℕ) :
    page (ranking rows) (fun k => among (rows.take (k * size * width))) size k =
      ((ranking (rows.take ((k + 1) * size * width))).drop (k * size)).take size := by
  rw [page, ranking_take]

end Rows

theorem perm_iff_keys {κ σ : Type} {l c : List (κ × σ)} (hsub : l ⊆ c)
    (hc : (c.map Prod.fst).Nodup) :
    l.Perm c ↔ (l.map Prod.fst).Nodup ∧ ∀ k, k ∈ l.map Prod.fst ↔ k ∈ c.map Prod.fst := by
  constructor
  · intro hp
    have hkeys := hp.map Prod.fst
    exact ⟨hkeys.nodup_iff.mpr hc, fun k => hkeys.mem_iff⟩
  · rintro ⟨hl, hkeys⟩
    refine (List.perm_ext_iff_of_nodup hl.of_map hc.of_map).mpr fun x => ⟨fun hx => hsub hx, ?_⟩
    intro hx
    obtain ⟨y, hy, heq⟩ := List.mem_map.mp ((hkeys x.1).mpr (List.mem_map_of_mem hx))
    have hsame : y = x := List.inj_on_of_nodup_map hc (hsub hy) hx heq
    rw [← hsame]
    exact hy

end RankedPages
