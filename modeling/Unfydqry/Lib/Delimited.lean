import Mathlib.Data.List.Basic

/-! # Text between delimiters

A list holds an opening and a closing element, and what stands between them is inside. A loop
that reads the list may hold elements back and hand them over together. -/

namespace Delimited

variable {α β : Type} {opening closing : α}

/-- Each element in the code it has, with the same mark. -/
def spread (code : α → List β) (marked : List (α × Bool)) : List (β × Bool) :=
  marked.flatMap fun p => (code p.1).map (·, p.2)

theorem spread_spread {γ : Type} (code : α → List β) (code' : β → List γ)
    (marked : List (α × Bool)) :
    spread code' (spread code marked) = spread (fun a => (code a).flatMap code') marked := by
  have h : ∀ p : α × Bool, spread code' ((code p.1).map (·, p.2)) =
      ((code p.1).flatMap code').map (·, p.2) := by
    intro p
    rw [spread, List.flatMap_map, List.map_flatMap]
  rw [spread, spread, spread, List.flatMap_assoc]
  exact List.flatMap_congr fun p _ => h p

theorem spread_singleton (marked : List (α × Bool)) : spread (fun a => [a]) marked = marked :=
  List.flatMap_singleton' marked

section

variable [DecidableEq α]

/-- The elements that are no delimiter, each with whether the delimiter before it opens. -/
def inside (opening closing : α) : Bool → List α → List (α × Bool)
  | _, [] => []
  | within, a :: as =>
    if a = opening then inside opening closing true as
    else if a = closing then inside opening closing false as
    else (a, within) :: inside opening closing within as

/-- No delimiter is in the list. -/
def Free (opening closing : α) (as : List α) : Prop := ∀ a ∈ as, a ≠ opening ∧ a ≠ closing

theorem inside_free {as : List α} (h : Free opening closing as) (within : Bool) (bs : List α) :
    inside opening closing within (as ++ bs) =
      as.map (·, within) ++ inside opening closing within bs := by
  induction as with
  | nil => rfl
  | cons a as ih =>
    have ha := h a List.mem_cons_self
    have has : Free opening closing as := fun b hb => h b (List.mem_cons_of_mem a hb)
    rw [List.cons_append, inside, if_neg ha.1, if_neg ha.2, ih has]
    rfl

theorem inside_opening (within : Bool) (bs : List α) :
    inside opening closing within (opening :: bs) = inside opening closing true bs := by
  rw [inside, if_pos rfl]

theorem inside_closing (hne : opening ≠ closing) (within : Bool) (bs : List α) :
    inside opening closing within (closing :: bs) = inside opening closing false bs := by
  rw [inside, if_neg hne.symm, if_pos rfl]

/-- The delimiters are dropped, wherever they stand. -/
theorem inside_fst (within : Bool) (as : List α) :
    (inside opening closing within as).map Prod.fst =
      as.filter fun a => decide (a ≠ opening ∧ a ≠ closing) := by
  induction as generalizing within with
  | nil => rfl
  | cons a as ih =>
    rw [inside]
    by_cases ho : a = opening
    · rw [if_pos ho, ih, List.filter_cons_of_neg]
      simp [ho]
    · by_cases hc : a = closing
      · rw [if_neg ho, if_pos hc, ih, List.filter_cons_of_neg]
        simp [hc]
      · rw [if_neg ho, if_neg hc, List.map_cons, ih, List.filter_cons_of_pos]
        simp [ho, hc]

/-! ### Another encoding -/

/-- In the list `as` the code keeps the delimiters apart from everything else. -/
structure Keeps (code : α → List β) (opening closing : α) (opening' closing' : β)
    (as : List α) : Prop where
  apart : opening' ≠ closing'
  atOpening : code opening = [opening']
  atClosing : code closing = [closing']
  other : ∀ a ∈ as, a ≠ opening → a ≠ closing → Free opening' closing' (code a)

theorem inside_flatMap [DecidableEq β] {code : α → List β} {opening' closing' : β} {as : List α}
    (h : Keeps code opening closing opening' closing' as) (within : Bool) :
    inside opening' closing' within (as.flatMap code) =
      spread code (inside opening closing within as) := by
  obtain ⟨hne, hopen, hclose, hother⟩ := h
  induction as generalizing within with
  | nil => rfl
  | cons a as ih =>
    rw [List.forall_mem_cons] at hother
    rw [List.flatMap_cons, inside]
    by_cases ho : a = opening
    · rw [if_pos ho, ho, hopen, List.singleton_append, inside_opening, ih _ hother.2]
    · by_cases hc : a = closing
      · rw [if_neg ho, if_pos hc, hc, hclose, List.singleton_append, inside_closing hne,
          ih _ hother.2]
      · rw [if_neg ho, if_neg hc, inside_free (hother.1 ho hc), ih _ hother.2, spread, spread,
          List.flatMap_cons]

/-! ### A loop over the list -/

/-- A loop that shows, with what it still holds back, the code of all it has read: `within` is
whether it is inside. -/
structure Reads {σ : Type} (step : σ → α → σ) (code : α → List β) (opening closing : α)
    (within : σ → Bool) (shown : σ → List (β × Bool)) : Prop where
  opens : ∀ s, within (step s opening) = true ∧ shown (step s opening) = shown s
  closes : ∀ s, within (step s closing) = false ∧ shown (step s closing) = shown s
  other : ∀ s a, a ≠ opening → a ≠ closing →
    within (step s a) = within s ∧ shown (step s a) = shown s ++ (code a).map (·, within s)

theorem Reads.foldl {σ : Type} {step : σ → α → σ} {code : α → List β} {within : σ → Bool}
    {shown : σ → List (β × Bool)} (h : Reads step code opening closing within shown) (s : σ)
    (as : List α) :
    shown (as.foldl step s) = shown s ++ spread code (inside opening closing (within s) as) := by
  induction as generalizing s with
  | nil => exact (List.append_nil _).symm
  | cons a as ih =>
    rw [List.foldl_cons, ih, inside]
    by_cases ho : a = opening
    · subst ho
      rw [(h.opens s).1, (h.opens s).2, if_pos rfl]
    · by_cases hc : a = closing
      · subst hc
        rw [(h.closes s).1, (h.closes s).2, if_neg ho, if_pos rfl]
      · rw [(h.other s a ho hc).1, (h.other s a ho hc).2, if_neg ho, if_neg hc,
          List.append_assoc]
        rfl

end

end Delimited
