import Unfydqry.Lib.Table
import Mathlib.Data.List.Sort

/-! # Tables under renamed keys

A renaming that keeps the order of the keys keeps the order of the rows. -/

namespace Table

set_option linter.unusedSectionVars false

variable {κ ν : Type} [Ord κ] [Std.TransOrd κ] [Std.LawfulEqOrd κ]

/-- The keys of `t` compare as before once renamed. -/
def KeepsOrder (f : κ → κ) (t : Table κ ν) : Prop :=
  ∀ r ∈ t.toList, ∀ s ∈ t.toList, compare (f r.1) (f s.1) = compare r.1 s.1

/-- `t'` has the rows of `t` under renamed keys, in the same order. -/
def Renamed (f : κ → κ) (t t' : Table κ ν) : Prop :=
  t'.toList = t.toList.map fun r => (f r.1, r.2)

variable {f : κ → κ} {t t' : Table κ ν}

theorem renamed_of_perm (hf : KeepsOrder f t)
    (hp : t'.toList.Perm (t.toList.map fun r => (f r.1, r.2))) : Renamed f t t' := by
  have hanti : ∀ a b : κ × ν, a ∈ t'.toList → b ∈ t.toList.map (fun r => (f r.1, r.2)) →
      compare a.1 b.1 = .lt → compare b.1 a.1 = .lt → a = b := by
    intro a b _ _ hab hba
    rw [Std.OrientedOrd.eq_swap, hba] at hab
    cases hab
  refine List.Perm.eq_of_pairwise hanti Std.ExtTreeMap.ordered_keys_toList ?_ hp
  rw [List.pairwise_map]
  exact Std.ExtTreeMap.ordered_keys_toList.imp_of_mem fun {a b} ha hb hlt => by
    rw [hf a ha b hb]
    exact hlt

theorem Renamed.mem_iff (h : Renamed f t t') (k' : κ) (v : ν) :
    t'[k']? = some v ↔ ∃ k, f k = k' ∧ t[k]? = some v := by
  rw [← mem_toList, h, List.mem_map]
  constructor
  · rintro ⟨⟨k, v⟩, hm, heq⟩
    cases heq
    exact ⟨k, rfl, (mem_toList _ _ _).mp hm⟩
  · rintro ⟨k, rfl, hk⟩
    exact ⟨(k, v), (mem_toList _ _ _).mpr hk, rfl⟩

theorem Renamed.filter (h : Renamed f t t') (p : ν → Bool) :
    t'.toList.filter (fun r => p r.2) =
      (t.toList.filter fun r => p r.2).map fun r => (f r.1, r.2) := by
  rw [h, List.filter_map]
  rfl

end Table
