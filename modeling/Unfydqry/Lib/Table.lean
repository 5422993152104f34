import Mathlib.Data.List.Nodup
import Mathlib.Tactic.Common
import Std.Data.ExtTreeMap.Lemmas

/-! # Keyed tables

A table is an ordered finite map. Beside the operations of the map there are the
deletion of all keys that satisfy a test and the insertion of a list of rows;
each commutes with a change of the stored values. -/

/-- Rows by key. -/
abbrev Table (κ ν : Type) [Ord κ] := Std.ExtTreeMap κ ν compare

set_option linter.unusedSectionVars false

namespace Table

variable {κ ν μ : Type} [Ord κ] [Std.TransOrd κ] [Std.LawfulEqOrd κ]

theorem ext_lookup {t t' : Table κ ν} (h : ∀ k : κ, t[k]? = t'[k]?) : t = t' :=
  Std.ExtTreeMap.ext_getElem? h

theorem lookup_empty (a : κ) : (∅ : Table κ ν)[a]? = none :=
  by simp

theorem lookup_map (f : κ → ν → μ) (t : Table κ ν) (a : κ) :
    (t.map f)[a]? = t[a]?.map (f a) :=
  Std.ExtTreeMap.getElem?_map

theorem mem_toList (t : Table κ ν) (k : κ) (v : ν) : (k, v) ∈ t.toList ↔ t[k]? = some v :=
  Std.ExtTreeMap.mem_toList_iff_getElem?_eq_some

theorem contains_iff (t : Table κ ν) (k : κ) : t.contains k = true ↔ ∃ v, t[k]? = some v := by
  rw [← Std.ExtTreeMap.mem_iff_contains, ← Std.ExtTreeMap.isSome_getElem?_iff_mem,
    Option.isSome_iff_exists]

theorem toList_nodup (t : Table κ ν) : (t.toList.map Prod.fst).Nodup := by
  have h := Std.ExtTreeMap.distinct_keys_toList (t := t)
  rw [List.Nodup, List.pairwise_map]
  exact h.imp fun hne heq => hne (by rw [heq]; simp)

theorem keys_nodup (t : Table κ ν) : t.keys.Nodup := by
  rw [← Std.ExtTreeMap.map_fst_toList_eq_keys]
  exact toList_nodup t

/-- Two tables with the same keys list them alike. -/
theorem keys_eq {t : Table κ ν} {t' : Table κ μ}
    (h : ∀ k : κ, t[k]?.isSome = t'[k]?.isSome) : t.keys = t'.keys := by
  have hunit : t.map (fun _ _ => ()) = t'.map fun _ _ => () := by
    refine ext_lookup fun k => ?_
    have hk := h k
    rw [lookup_map, lookup_map]
    cases ht : t[k]? <;> cases ht' : t'[k]? <;> rw [ht, ht'] at hk
    · rfl
    · cases hk
    · cases hk
    · rfl
  rw [← Std.ExtTreeMap.keys_map, hunit, Std.ExtTreeMap.keys_map]

theorem eq_empty_iff (t : Table κ ν) : t = ∅ ↔ ∀ k : κ, t[k]? = none := by
  constructor
  · rintro rfl k
    exact lookup_empty k
  · intro h
    exact ext_lookup fun k => by rw [h k, lookup_empty]

/-- Delete the rows whose key satisfies `p`. -/
def eraseWhere (p : κ → Bool) (t : Table κ ν) : Table κ ν :=
  (t.keys.filter p).foldl (fun t k => t.erase k) t

/-- Insert rows in order; a later row replaces an earlier one of the same key. -/
def insertRows (rows : List (κ × ν)) (t : Table κ ν) : Table κ ν :=
  rows.foldl (fun t r => t.insert r.1 r.2) t

variable [DecidableEq κ]

theorem lookup_insert (t : Table κ ν) (k a : κ) (v : ν) :
    (t.insert k v)[a]? = if a = k then some v else t[a]? := by
  simp only [Std.ExtTreeMap.getElem?_insert, Std.LawfulEqOrd.compare_eq_iff_eq, eq_comm (a := k)]

theorem lookup_erase (t : Table κ ν) (k a : κ) :
    (t.erase k)[a]? = if a = k then none else t[a]? := by
  simp only [Std.ExtTreeMap.getElem?_erase, Std.LawfulEqOrd.compare_eq_iff_eq, eq_comm (a := k)]

theorem insert_erase_self (t : Table κ ν) (k : κ) (v : ν) :
    (t.erase k).insert k v = t.insert k v := by
  refine ext_lookup fun a => ?_
  rw [lookup_insert, lookup_insert, lookup_erase]
  by_cases h : a = k <;> simp [h]

theorem contains_eq_false_iff (t : Table κ ν) (k : κ) :
    t.contains k = false ↔ t[k]? = none := by
  rw [Bool.eq_false_iff, ne_eq, contains_iff]
  constructor
  · intro h
    cases hk : t[k]? with
    | none => rfl
    | some v => exact absurd ⟨v, hk⟩ h
  · rintro h ⟨v, hv⟩
    rw [h] at hv
    cases hv

theorem lookup_eraseAll (ks : List κ) (t : Table κ ν) (a : κ) :
    (ks.foldl (fun t k => t.erase k) t)[a]? = if a ∈ ks then none else t[a]? := by
  induction ks generalizing t with
  | nil => simp
  | cons k ks ih =>
    rw [List.foldl_cons, ih, lookup_erase]
    by_cases hk : a = k <;> by_cases hm : a ∈ ks <;> simp [hk, hm]

theorem lookup_eraseWhere (t : Table κ ν) (p : κ → Bool) (a : κ) :
    (eraseWhere p t)[a]? = if p a then none else t[a]? := by
  rw [eraseWhere, lookup_eraseAll]
  by_cases hp : p a = true
  · by_cases hm : a ∈ t
    · simp [hp, hm]
    · simp [hm]
  · simp [hp]

theorem erase_eq_self_iff (t : Table κ ν) (k : κ) : t.erase k = t ↔ t[k]? = none := by
  constructor
  · intro h
    rw [← h, lookup_erase, if_pos rfl]
  · intro h
    refine ext_lookup fun a => ?_
    rw [lookup_erase]
    by_cases ha : a = k
    · rw [if_pos ha, ha, h]
    · rw [if_neg ha]

theorem insert_eq_self_iff (t : Table κ ν) (k : κ) (v : ν) :
    t.insert k v = t ↔ t[k]? = some v := by
  constructor
  · intro h
    rw [← h, lookup_insert, if_pos rfl]
  · intro h
    refine ext_lookup fun a => ?_
    rw [lookup_insert]
    by_cases ha : a = k
    · rw [if_pos ha, ha, h]
    · rw [if_neg ha]

theorem eraseWhere_eq_self_iff (t : Table κ ν) (p : κ → Bool) :
    eraseWhere p t = t ↔ ∀ k : κ, p k = true → t[k]? = none := by
  constructor
  · intro h k hk
    rw [← h, lookup_eraseWhere, if_pos hk]
  · intro h
    refine ext_lookup fun a => ?_
    rw [lookup_eraseWhere]
    by_cases ha : p a = true
    · rw [if_pos ha, h a ha]
    · rw [if_neg ha]

/-! ### Updates row by row -/

section Updates

variable {τ ρ : Type} (read : τ → κ → Option ν) {step : τ → κ × ρ → τ}
  {f : ρ → Option ν → Option ν}
  (hstep : ∀ t row a, read (step t row) a = if a = row.1 then f row.2 (read t a) else read t a)

include hstep

theorem read_foldl_of_not_mem (rows : List (κ × ρ)) (t : τ) {a : κ}
    (ha : a ∉ rows.map Prod.fst) : read (rows.foldl step t) a = read t a := by
  induction rows generalizing t with
  | nil => rfl
  | cons row rows ih =>
    rw [List.map_cons, List.mem_cons, not_or] at ha
    rw [List.foldl_cons, ih _ ha.2, hstep, if_neg ha.1]

theorem read_foldl_of_mem (rows : List (κ × ρ)) (t : τ) (hn : (rows.map Prod.fst).Nodup) {a : κ}
    {x : ρ} (ha : (a, x) ∈ rows) : read (rows.foldl step t) a = f x (read t a) := by
  induction rows generalizing t with
  | nil => cases ha
  | cons row rows ih =>
    rw [List.map_cons, List.nodup_cons] at hn
    rw [List.foldl_cons]
    rcases List.mem_cons.mp ha with rfl | hm
    · rw [read_foldl_of_not_mem read hstep rows _ hn.1, hstep, if_pos rfl]
    · have hne : a ≠ row.1 := fun heq => hn.1 (heq ▸ List.mem_map.mpr ⟨_, hm, rfl⟩)
      rw [ih _ hn.2 hm, hstep, if_neg hne]

end Updates

theorem insertRows_cons (t : Table κ ν) (r : κ × ν) (rows : List (κ × ν)) :
    insertRows (r :: rows) t = insertRows rows (t.insert r.1 r.2) := rfl

theorem lookup_insertRows_of_not_mem (rows : List (κ × ν)) (t : Table κ ν) {a : κ}
    (h : a ∉ rows.map Prod.fst) : (insertRows rows t)[a]? = t[a]? :=
  read_foldl_of_not_mem (fun t a => t[a]?) (f := fun v _ => some v)
    (fun t row a => lookup_insert t row.1 a row.2) rows t h

theorem lookup_insertRows_of_mem (rows : List (κ × ν)) (t : Table κ ν)
    (hn : (rows.map Prod.fst).Nodup) {a : κ} {v : ν} (h : (a, v) ∈ rows) :
    (insertRows rows t)[a]? = some v :=
  read_foldl_of_mem (fun t a => t[a]?) (f := fun v _ => some v)
    (fun t row a => lookup_insert t row.1 a row.2) rows t hn h

theorem lookup_update (t : Table κ ν) (k a : κ) {t' : Table κ ν} (f : ν → ν)
    (hsome : ∀ v, t[k]? = some v → t' = t.insert k (f v)) (hnone : t[k]? = none → t' = t) :
    t'[a]? = if a = k then t[a]?.map f else t[a]? := by
  cases hk : t[k]? with
  | none =>
    rw [hnone hk]
    split
    · rename_i ha
      rw [ha, hk]
      rfl
    · rfl
  | some v =>
    rw [hsome v hk, lookup_insert]
    split
    · rename_i ha
      rw [ha, hk]
      rfl
    · rfl

theorem insertRows_perm {rows rows' : List (κ × ν)} (h : rows.Perm rows')
    (hn : (rows.map Prod.fst).Nodup) (t : Table κ ν) : insertRows rows t = insertRows rows' t := by
  have hn' : (rows'.map Prod.fst).Nodup := (h.map Prod.fst).nodup_iff.mp hn
  refine ext_lookup fun a => ?_
  by_cases ha : a ∈ rows.map Prod.fst
  · obtain ⟨r, hr, rfl⟩ := List.mem_map.mp ha
    rw [lookup_insertRows_of_mem rows t hn (v := r.2) hr,
      lookup_insertRows_of_mem rows' t hn' (v := r.2) (h.mem_iff.mp hr)]
  · have ha' : a ∉ rows'.map Prod.fst := fun hm => ha ((h.map Prod.fst).mem_iff.mpr hm)
    rw [lookup_insertRows_of_not_mem _ _ ha, lookup_insertRows_of_not_mem _ _ ha']

theorem toList_insertRows_perm {rows : List (κ × ν)} (hn : (rows.map Prod.fst).Nodup) :
    (insertRows rows ∅).toList.Perm rows := by
  refine (List.perm_ext_iff_of_nodup (List.Nodup.of_map _ (toList_nodup _))
    (List.Nodup.of_map _ hn)).mpr fun ⟨k, v⟩ => ?_
  rw [mem_toList]
  constructor
  · intro h
    by_cases hk : k ∈ rows.map Prod.fst
    · obtain ⟨⟨k', v'⟩, hr, rfl⟩ := List.mem_map.mp hk
      rw [lookup_insertRows_of_mem rows ∅ hn hr, Option.some.injEq] at h
      rwa [← h]
    · rw [lookup_insertRows_of_not_mem rows ∅ hk, lookup_empty] at h
      cases h
  · exact lookup_insertRows_of_mem rows ∅ hn

/-! ### A change of the stored values -/

theorem map_insert (f : κ → ν → μ) (t : Table κ ν) (k : κ) (v : ν) :
    (t.insert k v).map f = (t.map f).insert k (f k v) := by
  refine ext_lookup fun a => ?_
  rw [lookup_map, lookup_insert, lookup_insert, lookup_map]
  by_cases h : a = k
  · subst h
    simp
  · simp [h]

theorem map_erase (f : κ → ν → μ) (t : Table κ ν) (k : κ) :
    (t.erase k).map f = (t.map f).erase k := by
  refine ext_lookup fun a => ?_
  rw [lookup_map, lookup_erase, lookup_erase, lookup_map]
  by_cases h : a = k <;> simp [h]

theorem map_eraseWhere (f : κ → ν → μ) (t : Table κ ν) (p : κ → Bool) :
    (eraseWhere p t).map f = eraseWhere p (t.map f) := by
  refine ext_lookup fun a => ?_
  rw [lookup_map, lookup_eraseWhere, lookup_eraseWhere, lookup_map]
  by_cases h : p a = true <;> simp [h]

theorem map_empty (f : κ → ν → μ) : (∅ : Table κ ν).map f = ∅ :=
  ext_lookup fun a => by rw [lookup_map, lookup_empty, lookup_empty, Option.map_none]

theorem map_eq_empty_iff (f : κ → ν → μ) (t : Table κ ν) : t.map f = ∅ ↔ t = ∅ := by
  simp only [eq_empty_iff, lookup_map, Option.map_eq_none_iff]

theorem map_insertRows (f : κ → ν → μ) (rows : List (κ × ν)) (t : Table κ ν) :
    (insertRows rows t).map f = insertRows (rows.map fun r => (r.1, f r.1 r.2)) (t.map f) := by
  induction rows generalizing t with
  | nil => rfl
  | cons r rows ih => rw [insertRows_cons, ih, map_insert, List.map_cons, insertRows_cons]

theorem filter_length_eq_iff {α : Type} (l : List α) {p q : α → Bool}
    (h : ∀ a ∈ l, p a = true → q a = true) :
    (l.filter q).length = (l.filter p).length ↔ ∀ a ∈ l, q a = true → p a = true := by
  have hsub : (l.filter p).Sublist (l.filter q) := by
    have hp : l.filter p = (l.filter q).filter p := by
      rw [List.filter_filter]
      refine List.filter_congr fun a ha => ?_
      cases hpa : p a with
      | true => rw [h a ha hpa]; rfl
      | false => rfl
    rw [hp]
    exact List.filter_sublist
  constructor
  · intro hlen a ha hq
    have heq := hsub.eq_of_length hlen.symm
    have hm : a ∈ l.filter p := by
      rw [heq]
      exact List.mem_filter.mpr ⟨ha, hq⟩
    exact (List.mem_filter.mp hm).2
  · intro hqp
    have heq : l.filter q = l.filter p :=
      List.filter_congr fun a ha => Bool.eq_iff_iff.mpr ⟨hqp a ha, h a ha⟩
    rw [heq]

end Table
