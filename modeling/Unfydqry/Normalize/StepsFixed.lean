import Unfydqry.Normalize.Steps

/-! # Texts the steps leave alone -/

namespace Unfydqry.Steps

/-! ### Digit grouping -/

/-- No comma stands between two digits; `prev` is the scalar before the text. -/
def Ungrouped (prev : Option Char) : Text → Prop
  | [] => True
  | c :: cs =>
    ¬ (c = ',' ∧ prev.any isAsciiDigit = true ∧ cs.head?.any isAsciiDigit = true) ∧
      Ungrouped (some c) cs

theorem stripFrom_of_ungrouped {s : Text} {prev : Option Char} (h : Ungrouped prev s) :
    stripFrom prev s = s := by
  induction s generalizing prev with
  | nil => rfl
  | cons c cs ih =>
    have hkeep : ¬ (c == ',' && prev.any isAsciiDigit && cs.head?.any isAsciiDigit) = true := by
      intro hdrop
      rw [Bool.and_eq_true, Bool.and_eq_true, beq_iff_eq] at hdrop
      exact h.1 ⟨hdrop.1.1, hdrop.1.2, hdrop.2⟩
    rw [stripFrom, if_neg hkeep, ih h.2]

theorem isAsciiDigit_comma : isAsciiDigit ',' = false := by decide

theorem head_stripFrom {prev : Option Char} (h : prev.any isAsciiDigit = false) (s : Text) :
    (stripFrom prev s).head? = s.head? := by
  cases s with
  | nil => rfl
  | cons c cs =>
    rw [stripFrom, h, Bool.and_false, Bool.false_and, if_neg (by simp)]
    rfl

/-- The output has no grouped digits; `q` is the last scalar written. -/
theorem ungrouped_stripFrom (s : Text) {prev q : Option Char}
    (h : q = prev ∨ s.head?.any isAsciiDigit = true) : Ungrouped q (stripFrom prev s) := by
  induction s generalizing prev q with
  | nil => trivial
  | cons c cs ih =>
    rw [stripFrom]
    split
    · rename_i hdrop
      rw [Bool.and_eq_true] at hdrop
      exact ih (.inr hdrop.2)
    · rename_i hkeep
      refine ⟨?_, ih (.inl rfl)⟩
      rintro ⟨rfl, hq, hnext⟩
      have hcomma : (some ',').any isAsciiDigit = false := isAsciiDigit_comma
      rw [head_stripFrom hcomma] at hnext
      rcases h with rfl | hdigit
      · exact hkeep (by rw [hq, hnext]; rfl)
      · rw [List.head?_cons, Option.any_some, isAsciiDigit_comma] at hdigit
        cases hdigit

theorem mem_stripFrom {s : Text} {prev : Option Char} {c : Char} (h : c ∈ stripFrom prev s) :
    c ∈ s := by
  induction s generalizing prev with
  | nil => exact h
  | cons a cs ih =>
    rw [stripFrom] at h
    split at h
    · exact List.mem_cons_of_mem _ (ih h)
    · rcases List.mem_cons.mp h with rfl | h
      · exact List.mem_cons_self ..
      · exact List.mem_cons_of_mem _ (ih h)

/-! ### Whitespace -/

theorem isWhitespace_space : isWhitespace ' ' = true := by decide

theorem collapseFrom_collapseFrom (s : Text) (pending started : Bool) :
    collapseFrom false started (collapseFrom pending started s) =
      collapseFrom pending started s := by
  induction s generalizing pending started with
  | nil => rfl
  | cons c cs ih =>
    rw [collapseFrom]
    split
    · exact ih true started
    · rename_i hc
      have hrest := ih false true
      split
      · rename_i hboth
        rw [Bool.and_eq_true] at hboth
        rw [collapseFrom, if_pos isWhitespace_space, collapseFrom, if_neg hc,
          if_pos (by rw [hboth.2]; rfl), hrest]
      · rw [collapseFrom, if_neg hc, if_neg (by simp), hrest]

theorem mem_collapseFrom {s : Text} {pending started : Bool} {c : Char}
    (h : c ∈ collapseFrom pending started s) : c ∈ s ∨ c = ' ' := by
  induction s generalizing pending started with
  | nil => exact .inl h
  | cons a cs ih =>
    have hcons : c ∈ cs ∨ c = ' ' → c ∈ a :: cs ∨ c = ' ' :=
      fun h => h.imp (List.mem_cons_of_mem _) id
    rw [collapseFrom] at h
    split at h
    · exact hcons (ih h)
    · split at h
      · rcases List.mem_cons.mp h with rfl | h
        · exact .inr rfl
        · rcases List.mem_cons.mp h with rfl | h
          · exact .inl (List.mem_cons_self ..)
          · exact hcons (ih h)
      · rcases List.mem_cons.mp h with rfl | h
        · exact .inl (List.mem_cons_self ..)
        · exact hcons (ih h)

/-- A digit at the head of a collapsed text was at the head of the text. -/
theorem head_collapseFrom {s : Text} {started : Bool}
    (h : (collapseFrom false started s).head?.any isAsciiDigit = true) (hs : started = true) :
    s.head?.any isAsciiDigit = true := by
  subst hs
  have hpending : ∀ s, (collapseFrom true true s).head?.any isAsciiDigit = false := by
    intro s
    induction s with
    | nil => rfl
    | cons c cs ih =>
      rw [collapseFrom]
      split
      · exact ih
      · rfl
  cases s with
  | nil => exact h
  | cons c cs =>
    rw [collapseFrom] at h
    split at h
    · rw [hpending] at h
      cases h
    · exact h

/-- Collapsing whitespace groups no digits; `q` is the last scalar written. -/
theorem Ungrouped.collapseFrom {s : Text} {prev q : Option Char} {pending started : Bool}
    (h : Ungrouped prev s) (hprev : pending = false → q = prev)
    (hstart : started = false → q.any isAsciiDigit = false) :
    Ungrouped q (collapseFrom pending started s) := by
  induction s generalizing prev q pending started with
  | nil => trivial
  | cons c cs ih =>
    rw [Steps.collapseFrom]
    split
    · exact ih h.2 (fun hp => by cases hp) hstart
    · have hrest : ∀ q, q = some c → Ungrouped q (Steps.collapseFrom false true cs) :=
        fun q hq => ih h.2 (fun _ => hq) fun hs => by cases hs
      have hkeep : (pending = false ∨ started = false) →
          Ungrouped q (c :: Steps.collapseFrom false true cs) := by
        intro hcase
        refine ⟨?_, hrest _ rfl⟩
        rintro ⟨rfl, hq, hnext⟩
        cases hst : started with
        | false =>
          rw [hstart hst] at hq
          cases hq
        | true =>
          have hpend : pending = false := hcase.resolve_right (by rw [hst]; simp)
          rw [hprev hpend] at hq
          exact h.1 ⟨rfl, hq, head_collapseFrom hnext rfl⟩
      split
      · have hspace : isAsciiDigit ' ' = false := by decide
        refine ⟨fun hcomma => absurd hcomma.1 (by decide), ?_, hrest _ rfl⟩
        rintro ⟨_, hdigit, _⟩
        rw [Option.any_some, hspace] at hdigit
        cases hdigit
      · rename_i hboth
        apply hkeep
        cases pending with
        | false => exact .inl rfl
        | true =>
          right
          cases started with
          | false => rfl
          | true => exact absurd rfl hboth

end Unfydqry.Steps
