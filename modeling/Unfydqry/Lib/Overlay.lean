import Unfydqry.Lib.Table

/-! # Writes as overlays

An overlay says for each key whether a value is written there, and which: a removal writes
`none`. Operations on a table that only write compose as their overlays do, a later write
hides an earlier one, and operations that write no common key commute. -/

/-- The value written under a key, if one is. -/
abbrev Overlay (κ ν : Type) := κ → Option (Option ν)

namespace Overlay

variable {κ ν α : Type}

/-- The first overlay, then the second. -/
def after (u v : Overlay κ ν) : Overlay κ ν := fun k => (v k).or (u k)

/-- Overlays one after another. -/
def last (us : List (Overlay κ ν)) : Overlay κ ν := us.foldl after fun _ => none

def set [DecidableEq κ] (k : κ) (v : Option ν) : Overlay κ ν :=
  fun a => if a = k then some v else none

/-- Every key that satisfies the test is removed. -/
def clear (p : κ → Bool) : Overlay κ ν := fun a => if p a then some none else none

/-- No key is written by both. -/
def Disjoint (u v : Overlay κ ν) : Prop := ∀ k, u k = none ∨ v k = none

theorem after_assoc (u v w : Overlay κ ν) : (u.after v).after w = u.after (v.after w) := by
  funext k
  exact (Option.or_assoc).symm

theorem none_after (u : Overlay κ ν) : after (fun _ => none) u = u := by
  funext k
  exact Option.or_none

theorem foldl_after (us : List (Overlay κ ν)) (u : Overlay κ ν) :
    us.foldl after u = u.after (last us) := by
  induction us generalizing u with
  | nil =>
    funext k
    rfl
  | cons v us ih =>
    rw [last, List.foldl_cons, List.foldl_cons, ih, ih, none_after, after_assoc]

theorem last_cons (u : Overlay κ ν) (us : List (Overlay κ ν)) :
    last (u :: us) = u.after (last us) := by
  rw [last, List.foldl_cons, none_after, foldl_after]

/-- A key is written by the list when one of its overlays writes it. -/
theorem exists_of_last {us : List (Overlay κ ν)} {k : κ} (h : last us k ≠ none) :
    ∃ u ∈ us, u k ≠ none := by
  induction us with
  | nil => exact absurd rfl h
  | cons u us ih =>
    rw [last_cons] at h
    by_cases hk : last us k = none
    · refine ⟨u, List.mem_cons_self .., fun hu => h ?_⟩
      simp only [after, hk, hu, Option.or_none]
    · obtain ⟨v, hv, hvk⟩ := ih hk
      exact ⟨v, List.mem_cons_of_mem _ hv, hvk⟩

/-- What a table with the overlay holds under a key. -/
def read (u : Overlay κ ν) (k : κ) (old : Option ν) : Option ν := (u k).getD old

theorem read_after (u v : Overlay κ ν) (k : κ) (old : Option ν) :
    (u.after v).read k old = v.read k (u.read k old) := by
  simp only [read, after]
  cases v k <;> rfl

theorem read_read (u : Overlay κ ν) (k : κ) (old : Option ν) :
    u.read k (u.read k old) = u.read k old := by
  simp only [read]
  cases u k <;> rfl

theorem Disjoint.after_comm {u v : Overlay κ ν} (h : Disjoint u v) : u.after v = v.after u := by
  funext k
  simp only [after]
  obtain hu | hv := h k
  · rw [hu, Option.or_none, Option.none_or]
  · rw [hv, Option.or_none, Option.none_or]

end Overlay

namespace Table

variable {κ ν α : Type} [Ord κ] [Std.TransOrd κ] [Std.LawfulEqOrd κ]

/-- The operation writes the overlay, whatever the table holds. -/
def Writes (f : Table κ ν → Table κ ν) (u : Overlay κ ν) : Prop :=
  ∀ t k, (f t)[k]? = u.read k t[k]?

omit [Std.LawfulEqOrd κ] in
theorem writes_id : Writes (id : Table κ ν → Table κ ν) fun _ => none := fun _ _ => rfl

omit [Std.LawfulEqOrd κ] in
theorem Writes.comp {f g : Table κ ν → Table κ ν} {u v : Overlay κ ν} (hf : Writes f u)
    (hg : Writes g v) : Writes (fun t => g (f t)) (u.after v) := by
  intro t k
  rw [hg, hf, Overlay.read_after]

omit [Std.LawfulEqOrd κ] in
theorem writes_foldl {g : Table κ ν → α → Table κ ν} {u : α → Overlay κ ν}
    (hg : ∀ a, Writes (fun t => g t a) (u a)) (as : List α) :
    Writes (fun t => as.foldl g t) (Overlay.last (as.map u)) := by
  induction as with
  | nil => exact writes_id
  | cons a as ih =>
    rw [List.map_cons, Overlay.last_cons]
    exact (hg a).comp ih

/-- What is written does not depend on what was there. -/
theorem Writes.idem {f : Table κ ν → Table κ ν} {u : Overlay κ ν}
    (hf : Writes f u) (t : Table κ ν) : f (f t) = f t := by
  apply ext_lookup
  intro k
  rw [hf, hf, Overlay.read_read]

/-- Operations that write no common key commute. -/
theorem Writes.comm {f g : Table κ ν → Table κ ν} {u v : Overlay κ ν} (hf : Writes f u)
    (hg : Writes g v) (h : u.Disjoint v) (t : Table κ ν) : g (f t) = f (g t) := by
  apply ext_lookup
  intro k
  have hfg := hf.comp hg t k
  have hgf := hg.comp hf t k
  rw [h.after_comm] at hfg
  exact hfg.trans hgf.symm

variable [DecidableEq κ]

theorem writes_insert (k : κ) (v : ν) :
    Writes (fun t : Table κ ν => t.insert k v) (.set k (some v)) := by
  intro t a
  rw [lookup_insert, Overlay.read, Overlay.set]
  split <;> rfl

theorem writes_erase (k : κ) : Writes (fun t : Table κ ν => t.erase k) (.set k none) := by
  intro t a
  rw [lookup_erase, Overlay.read, Overlay.set]
  split <;> rfl

theorem writes_eraseWhere (p : κ → Bool) :
    Writes (eraseWhere p : Table κ ν → Table κ ν) (.clear p) := by
  intro t a
  rw [lookup_eraseWhere, Overlay.read, Overlay.clear]
  split <;> rfl

end Table
