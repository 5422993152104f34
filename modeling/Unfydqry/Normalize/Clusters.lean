import Mathlib.Data.List.TakeWhile
import Unfydqry.Lib.Blocks
import Unfydqry.Normalize.NormalForms

/-! # Letters and the marks after them

NFKC composes a letter with the marks after it and with nothing else. A text and one with
other letters in their places therefore have forms that differ in those clusters only. -/

namespace Unfydqry

open Blocks (Differ)

/-- The letters of a kind, each with the marks after it. -/
def clusters (kind mark : Char → Bool) : Text → List Text
  | [] => []
  | c :: s =>
    if kind c then (c :: s.takeWhile mark) :: clusters kind mark s else clusters kind mark s

namespace Unicode

variable (u : Unicode)

def isCapital (c : Char) : Bool := u.toLowercase c != [c]

/-- Letters that have a case, and kana. -/
def Letter (c : Char) : Prop :=
  u.isCapital c = true ∨ (∃ b, u.isCapital b = true ∧ (u.toLowercase b).head? = some c) ∨
    isKatakana c = true ∨ isHiragana c = true

/-- Letters compose with nothing before them, and after them with marks only. A mark is a
scalar whose decomposition begins with a non-starter. -/
structure Segments (mark : Char → Bool) : Prop where
  before : ∀ c x y, u.Letter c → u.nfkc (x ++ c :: y) = u.nfkc x ++ u.nfkc (c :: y)
  after : ∀ c m a y, u.Letter c → (∀ b ∈ m, mark b = true) → mark a = false →
    u.nfkc (c :: (m ++ a :: y)) = u.nfkc (c :: m) ++ u.nfkc (a :: y)
  letter : ∀ c, u.Letter c → mark c = false

/-- The full compatibility decomposition of a scalar. -/
def compat (c : Char) : Text := u.nfd (u.nfkc [c])

end Unicode

/-- NFKC decomposes scalar by scalar before it composes, and loses none. -/
structure Decomposing (u : Unicode) (d : CharData) : Prop where
  nfd_nfkc : ∀ s, u.nfd (u.nfkc s) = CanonicalOrder.reorder d.ccc (s.flatMap u.compat)
  nfkc_ne : ∀ s, s ≠ [] → u.nfkc s ≠ []
  canon_ne : ∀ c, d.canon c ≠ []

section Clusters

variable {kind mark : Char → Bool} {q m r : Text}

theorem clusters_append (hq : ∀ c ∈ q, kind c = false) (t : Text) :
    clusters kind mark (q ++ t) = clusters kind mark t := by
  induction q with
  | nil => rfl
  | cons c q ih =>
    rw [List.forall_mem_cons] at hq
    rw [List.cons_append, clusters, hq.1, if_neg (by simp), ih hq.2]

theorem takeWhile_marks (hm : ∀ b ∈ m, mark b = true) (hr : ∀ a y, r = a :: y → mark a = false) :
    (m ++ r).takeWhile mark = m := by
  rw [List.takeWhile_append_of_pos hm]
  cases r with
  | nil => rw [List.takeWhile_nil, List.append_nil]
  | cons a y => rw [List.takeWhile_cons_of_neg (by simp [hr a y rfl]), List.append_nil]

theorem clusters_cons {c : Char} (hc : kind c = true) (hm : ∀ b ∈ m, mark b = true)
    (hkind : ∀ b ∈ m, kind b = false) (hr : ∀ a y, r = a :: y → mark a = false) :
    clusters kind mark (c :: (m ++ r)) = (c :: m) :: clusters kind mark r := by
  rw [clusters, if_pos hc, takeWhile_marks hm hr, clusters_append hkind]

theorem mem_clusters {s k : Text} (hk : k ∈ clusters kind mark s) :
    ∃ c m, k = c :: m ∧ kind c = true ∧ (∀ b ∈ m, mark b = true) ∧ ∀ a ∈ k, a ∈ s := by
  induction s with
  | nil => cases hk
  | cons c s ih =>
    have htail : k ∈ clusters kind mark s → ∃ a m, k = a :: m ∧ kind a = true ∧
        (∀ b ∈ m, mark b = true) ∧ ∀ b ∈ k, b ∈ c :: s := by
      intro hk
      obtain ⟨a, m, hkm, ha, hm, hsub⟩ := ih hk
      exact ⟨a, m, hkm, ha, hm, fun b hb => List.mem_cons_of_mem _ (hsub b hb)⟩
    rw [clusters] at hk
    split at hk
    · rename_i hc
      rcases List.mem_cons.mp hk with rfl | hk
      · exact ⟨c, _, rfl, hc, fun b hb => List.mem_takeWhile_imp hb,
          List.cons_subset_cons c (List.takeWhile_prefix mark).subset⟩
      · exact htail hk
    · exact htail hk

theorem clusters_infix {s k : Text} (hk : k ∈ clusters kind mark s) : k <:+: s := by
  induction s with
  | nil => cases hk
  | cons c s ih =>
    rw [clusters] at hk
    split at hk
    · rcases List.mem_cons.mp hk with rfl | hk
      · exact (List.cons_prefix_cons.mpr ⟨rfl, List.takeWhile_prefix mark⟩).isInfix
      · exact List.infix_cons (ih hk)
    · exact List.infix_cons (ih hk)

theorem cluster_cases (kind mark : Char → Bool) (s : Text) :
    (∀ c ∈ s, kind c = false) ∨ ∃ q c m r, s = q ++ c :: (m ++ r) ∧ (∀ a ∈ q, kind a = false) ∧
      kind c = true ∧ (∀ b ∈ m, mark b = true) ∧ ∀ a y, r = a :: y → mark a = false := by
  induction s with
  | nil => exact .inl fun c hc => by cases hc
  | cons c s ih =>
    cases hc : kind c with
    | true =>
      refine .inr ⟨[], c, s.takeWhile mark, s.dropWhile mark, ?_, by simp, hc,
        fun b hb => List.mem_takeWhile_imp hb, fun a y hay => ?_⟩
      · rw [List.takeWhile_append_dropWhile]
        rfl
      · have hhead := List.head?_dropWhile_not mark s
        rw [hay] at hhead
        exact hhead
    | false =>
      rcases ih with hnone | ⟨q, a, m, r, rfl, hq, ha, hm, hr⟩
      · exact .inl (List.forall_mem_cons.mpr ⟨hc, hnone⟩)
      · exact .inr ⟨c :: q, a, m, r, rfl, List.forall_mem_cons.mpr ⟨hc, hq⟩, ha, hm, hr⟩

end Clusters

/-! ### The forms of a variant -/

/-- `g` replaces letters of the kind by letters, with marks after them perhaps. -/
structure Varies (u : Unicode) (kind mark : Char → Bool) (g : Char → Text) : Prop where
  letter : ∀ c, kind c = true → u.Letter c
  image : ∀ c, kind c = true →
    ∃ a m, g c = a :: m ∧ u.Letter a ∧ ∀ b ∈ m, mark b = true
  other : ∀ c, kind c = false → g c = [c]

section Varies

variable {u : Unicode} {d : CharData} {kind mark : Char → Bool} {g : Char → Text}
  (hn : u.NormalForms d) (hs : u.Segments mark)

include hn hs

theorem nfkc_cluster {c : Char} {m r : Text} (hc : u.Letter c) (hm : ∀ b ∈ m, mark b = true)
    (hr : ∀ a y, r = a :: y → mark a = false) :
    u.nfkc (c :: (m ++ r)) = u.nfkc (c :: m) ++ u.nfkc r := by
  cases r with
  | nil => rw [nfkc_nil hn, List.append_nil, List.append_nil]
  | cons a y => exact hs.after c m a y hc hm (hr a y rfl)

theorem Varies.differ (hg : Varies u kind mark g) (s : Text) :
    Differ ((clusters kind mark s).map fun k => (u.nfkc k, u.nfkc (k.flatMap g)))
      (u.nfkc s) (u.nfkc (s.flatMap g)) := by
  have hsame : ∀ q : Text, (∀ c ∈ q, kind c = false) → q.flatMap g = q := by
    intro q hq
    rw [List.flatMap_congr fun c hc => hg.other c (hq c hc), List.flatMap_singleton']
  induction hlen : s.length using Nat.strong_induction_on generalizing s with
  | _ n ih =>
  rcases cluster_cases kind mark s with hnone | ⟨q, c, m, r, rfl, hq, hc, hm, hr⟩
  · have hclusters : clusters kind mark (s ++ []) = [] := clusters_append hnone []
    rw [List.append_nil] at hclusters
    rw [hclusters, hsame s hnone]
    exact .refl _
  · have hmarks : ∀ b ∈ m, kind b = false := by
      intro b hb
      rw [Bool.eq_false_iff]
      intro hkind
      have hmark := hs.letter b (hg.letter b hkind)
      rw [hm b hb] at hmark
      cases hmark
    obtain ⟨a, m', hgc, ha, hm'⟩ := hg.image c hc
    -- the variant of what follows the cluster does not begin with a mark either
    have hr' : ∀ x y, r.flatMap g = x :: y → mark x = false := by
      intro x y hxy
      cases r with
      | nil => cases hxy
      | cons x₀ r =>
        rw [List.flatMap_cons] at hxy
        cases hx : kind x₀ with
        | true =>
          obtain ⟨a, m, hga, ha, _⟩ := hg.image x₀ hx
          rw [hga, List.cons_append, List.cons.injEq] at hxy
          rw [← hxy.1]
          exact hs.letter a ha
        | false =>
          rw [hg.other x₀ hx, List.singleton_append, List.cons.injEq] at hxy
          rw [← hxy.1]
          exact hr x₀ r rfl
    have hmm : ∀ b ∈ m' ++ m, mark b = true := List.forall_mem_append.mpr ⟨hm', hm⟩
    have hform : u.nfkc (q ++ c :: (m ++ r)) = u.nfkc q ++ (u.nfkc (c :: m) ++ u.nfkc r) := by
      rw [hs.before c q _ (hg.letter c hc), nfkc_cluster hn hs (hg.letter c hc) hm hr]
    have hcluster : (c :: m).flatMap g = a :: (m' ++ m) := by
      rw [List.flatMap_cons, hgc, hsame m hmarks, List.cons_append]
    have hvariant : u.nfkc ((q ++ c :: (m ++ r)).flatMap g) =
        u.nfkc q ++ (u.nfkc ((c :: m).flatMap g) ++ u.nfkc (r.flatMap g)) := by
      have hsplit : (q ++ c :: (m ++ r)).flatMap g = q ++ a :: ((m' ++ m) ++ r.flatMap g) := by
        rw [List.flatMap_append, hsame q hq, List.flatMap_cons, List.flatMap_append,
          hsame m hmarks, hgc, List.cons_append, List.append_assoc]
      rw [hsplit, hs.before a q _ ha, nfkc_cluster hn hs ha hmm hr', hcluster]
    rw [clusters_append hq, clusters_cons hc hm hmarks hr, hform, hvariant, List.map_cons]
    refine .prepend (.block _ _ (ih r.length ?_ r rfl)) _
    rw [← hlen]
    simp only [List.length_append, List.length_cons]
    omega

end Varies

end Unfydqry
