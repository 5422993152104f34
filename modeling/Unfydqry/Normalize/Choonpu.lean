import Unfydqry.Normalize.Steps

/-! # Prolonged sound marks (`fold_choonpu`)

A mark prolongs the kana before its run of marks. The loop carries one flag, set from the
last scalar it kept, and `ー` counts as kana there. -/

namespace Unfydqry

namespace Steps

/-- `ー`. -/
def isChoonpu (c : Char) : Bool := c.toNat == 0x30FC

/-- The nearest scalar before it that is no `ー` is there and is a kana. -/
def prolongs (before : Text) : Bool := (before.reverse.find? fun c => !isChoonpu c).any isKana

/-- The text without the marks that prolong a kana; `before` is what stands before it. -/
def dropProlonging (before : Text) : Text → Text
  | [] => []
  | c :: cs =>
    if isChoonpu c && prolongs before then dropProlonging (before ++ [c]) cs
    else c :: dropProlonging (before ++ [c]) cs

/-- A mark after a mark is in a run that prolongs a kana; `before` is what stands before
the text. -/
def RunsProlong (before : Text) : Text → Prop
  | [] => True
  | c :: cs =>
    (isChoonpu c = true → before.getLast?.any isChoonpu = true → prolongs before = true) ∧
      RunsProlong (before ++ [c]) cs

/-- `prev_is_kana` after `before`. -/
def prevIsKana (before : Text) : Bool := prolongs before || before.getLast?.any isChoonpu

theorem isKana_of_isChoonpu {c : Char} (h : isChoonpu c = true) : isKana c = true := by
  rw [isChoonpu, beq_iff_eq] at h
  simp only [isKana, within, h]
  decide

theorem isChoonpu_iff (c : Char) : isChoonpu c = true ↔ c = 'ー' := by
  rw [isChoonpu, beq_iff_eq, ← Char.toNat_inj]
  rfl

theorem prolongs_append (before : Text) (c : Char) :
    prolongs (before ++ [c]) = if isChoonpu c then prolongs before else isKana c := by
  rw [prolongs, List.reverse_append, List.reverse_singleton, List.singleton_append,
    List.find?_cons]
  cases isChoonpu c with
  | true => rfl
  | false => rfl

theorem getLast_append (before : Text) (c : Char) :
    (before ++ [c]).getLast?.any isChoonpu = isChoonpu c := by
  rw [List.getLast?_append, List.getLast?_singleton]
  rfl

/-- What the loop sets the flag to, whether it keeps the scalar or drops it. -/
theorem prevIsKana_append (before : Text) (c : Char) :
    prevIsKana (before ++ [c]) =
      if isChoonpu c && prevIsKana before then prevIsKana before else isKana c := by
  rw [prevIsKana, prolongs_append, getLast_append]
  cases hc : isChoonpu c with
  | true =>
    rw [Bool.or_true, Bool.true_and]
    cases hflag : prevIsKana before with
    | true => rfl
    | false => exact (isKana_of_isChoonpu hc).symm
  | false => exact Bool.or_false _

theorem foldChoonpuFrom_cons (before : Text) (c : Char) (cs : Text) :
    foldChoonpuFrom (prevIsKana before) (c :: cs) =
      if isChoonpu c && prevIsKana before then
        foldChoonpuFrom (prevIsKana (before ++ [c])) cs
      else c :: foldChoonpuFrom (prevIsKana (before ++ [c])) cs := by
  rw [prevIsKana_append]
  change (if isChoonpu c && prevIsKana before then _ else _) = _
  split
  · rfl
  · rfl

/-- Every mark that prolongs a kana is dropped, so what is left is part of what should be. -/
theorem foldChoonpuFrom_sublist (s before : Text) :
    (foldChoonpuFrom (prevIsKana before) s).Sublist (dropProlonging before s) := by
  induction s generalizing before with
  | nil => exact List.Sublist.refl _
  | cons c cs ih =>
    rw [foldChoonpuFrom_cons, dropProlonging, prevIsKana]
    cases hc : isChoonpu c with
    | false => exact (ih (before ++ [c])).cons_cons c
    | true =>
      rw [Bool.true_and, Bool.true_and]
      cases hp : prolongs before with
      | true => exact ih (before ++ [c])
      | false =>
        rw [Bool.false_or]
        split
        · exact (ih (before ++ [c])).cons c
        · exact (ih (before ++ [c])).cons_cons c

theorem foldChoonpuFrom_eq_iff (s before : Text) :
    foldChoonpuFrom (prevIsKana before) s = dropProlonging before s ↔ RunsProlong before s := by
  induction s generalizing before with
  | nil => exact iff_of_true rfl trivial
  | cons c cs ih =>
    rw [foldChoonpuFrom_cons, dropProlonging, RunsProlong, ← ih, prevIsKana]
    cases hc : isChoonpu c with
    | false => simp
    | true =>
      simp only [Bool.true_and, true_implies]
      cases hp : prolongs before with
      | true => simp
      | false =>
        cases hrun : before.getLast?.any isChoonpu with
        | false => simp
        | true =>
          -- the second mark of a run that prolongs nothing
          simp only [Bool.or_true, if_true, Bool.false_eq_true, if_false, imp_false, not_true,
            false_and, iff_false]
          intro heq
          have hle := (foldChoonpuFrom_sublist cs (before ++ [c])).length_le
          rw [heq, List.length_cons] at hle
          omega

theorem runsProlong_iff (s before : Text) :
    RunsProlong before s ↔ ∀ p q, s = p ++ 'ー' :: q →
      (before ++ p).getLast?.any isChoonpu = true → prolongs (before ++ p) = true := by
  induction s generalizing before with
  | nil =>
    refine iff_of_true trivial fun p q h => ?_
    cases p with
    | nil => cases h
    | cons a p => cases h
  | cons c cs ih =>
    rw [RunsProlong, ih]
    constructor
    · intro h p q hsplit
      cases p with
      | nil =>
        rw [List.nil_append, List.cons.injEq] at hsplit
        rw [List.append_nil]
        exact h.1 ((isChoonpu_iff c).mpr hsplit.1)
      | cons a p =>
        rw [List.cons_append, List.cons.injEq] at hsplit
        obtain ⟨rfl, hsplit⟩ := hsplit
        rw [List.append_cons]
        exact h.2 p q hsplit
    · intro h
      refine ⟨fun hc => ?_, fun p q hsplit => ?_⟩
      · have hfirst := h [] cs (by rw [(isChoonpu_iff c).mp hc, List.nil_append])
        rw [List.append_nil] at hfirst
        exact hfirst
      · have hlater := h (c :: p) q (by rw [hsplit, List.cons_append])
        rw [List.append_cons] at hlater
        exact hlater

/-- `fold_choonpu` drops exactly the marks that prolong a kana when no two marks stand side
by side in a run that prolongs nothing. -/
theorem foldChoonpu_drops_prolonging_iff (s : Text) :
    foldChoonpu s = dropProlonging [] s ↔
      ∀ p q, s = p ++ 'ー' :: 'ー' :: q → prolongs p = true := by
  refine (foldChoonpuFrom_eq_iff s []).trans ((runsProlong_iff s []).trans ?_)
  have hmark : isChoonpu 'ー' = true := rfl
  constructor
  · intro h p q hsplit
    have hsecond := h (p ++ ['ー']) q (by rw [hsplit, List.append_assoc]; rfl)
    rw [List.nil_append, getLast_append, prolongs_append, hmark] at hsecond
    exact hsecond rfl
  · intro h p q hsplit hlast
    rw [List.nil_append] at hlast ⊢
    obtain ⟨a, ha, hchoonpu⟩ := (Option.any_eq_true _ _).mp hlast
    obtain ⟨p', rfl⟩ := List.getLast?_eq_some_iff.mp ha
    have hrun := h p' q (by
      rw [hsplit, (isChoonpu_iff a).mp hchoonpu, List.append_assoc]
      rfl)
    rw [prolongs_append, hchoonpu]
    exact hrun

/-- Of two marks used as a dash one is dropped. -/
theorem foldChoonpu_drops_dash :
    ¬ ∀ s : Text, foldChoonpu s = dropProlonging [] s := by
  intro hall
  exact absurd (hall ['a', 'ー', 'ー']) (by decide)

end Steps

end Unfydqry
