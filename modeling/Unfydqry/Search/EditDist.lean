import Unfydqry.Search.Basic

/-! # Edit distances (`search/editdist.rs`)

A row of the table is a list; the loop over `j` walks along the second word, the
row above and the row above that. -/

namespace Unfydqry.Search

/-- The cells `curr[j..]`. The lists are the rest of `b`, `prev[j - 1..]`, and `left` is
`curr[j - 1]`. -/
def levenshteinRow (x : Char) : Text → List ℕ → ℕ → List ℕ
  | y :: ys, diag :: up :: prev, left =>
    let cost := if x ≠ y then 1 else 0
    let v := min (min (up + 1) (left + 1)) (diag + cost)
    v :: levenshteinRow x ys (up :: prev) v
  | _, _, _ => []

def rowMin (row : List ℕ) : ℕ := row.tail.foldl min (row.headD 0)

/-- The loop over `i`: the last row, unless the minimum of a row exceeds `max`. -/
def levenshteinRows (b : Text) (max : ℕ) : Text → ℕ → List ℕ → Option (List ℕ)
  | [], _, prev => some prev
  | x :: xs, i, prev =>
    let curr := i :: levenshteinRow x b prev i
    if rowMin curr > max then none else levenshteinRows b max xs (i + 1) curr

def absDiff (n m : ℕ) : ℕ := (n - m) + (m - n)

/-- The last cell of the last row, if it is within the threshold. -/
def lastWithin (max : ℕ) (row : List ℕ) : Option ℕ :=
  let d := row.getLastD 0
  if d > max then none else some d

def levenshtein (a b : Text) (max : ℕ) : Option ℕ :=
  if absDiff a.length b.length > max then none
  else if a.length = 0 then some b.length
  else if b.length = 0 then some a.length
  else (levenshteinRows b max a 1 (List.range (b.length + 1))).bind (lastWithin max)

/-- The cells `curr[j..]` of the optimal string alignment table. `px` is `a[i - 2]` and `py`
is `b[j - 2]`; `prev2` is `prev2[j - 2..]` from `j = 2` on. -/
def osaRow (px : Option Char) (x : Char) :
    Option Char → Text → List ℕ → List ℕ → ℕ → List ℕ
  | py, y :: ys, diag :: up :: prev1, prev2, left =>
    let cost := if x ≠ y then 1 else 0
    let v := min (min (up + 1) (left + 1)) (diag + cost)
    let v := if py = some x ∧ px = some y then min v (prev2.headD 0 + 1) else v
    v :: osaRow px x (some y) ys (up :: prev1) (if py.isSome then prev2.tail else prev2) v
  | _, _, _, _, _ => []

def osaRows (b : Text) (max : ℕ) :
    Option Char → Text → ℕ → List ℕ → List ℕ → Option (List ℕ)
  | _, [], _, _, prev1 => some prev1
  | px, x :: xs, i, prev2, prev1 =>
    let curr := i :: osaRow px x none b prev1 prev2 i
    if rowMin curr > max then none else osaRows b max (some x) xs (i + 1) prev1 curr

def osa (a b : Text) (max : ℕ) : Option ℕ :=
  if absDiff a.length b.length > max then none
  else if a.length = 0 then some b.length
  else if b.length = 0 then some a.length
  else
    (osaRows b max none a 1 (List.replicate (b.length + 1) 0) (List.range (b.length + 1))).bind
      (lastWithin max)

/-- Allowed edits: one for every four characters, at least one. -/
def maxDistance (qChars : ℕ) : ℕ := max (qChars / 4) 1

/-- The loop of `split_whitespace`; `word` is the word being read. -/
def splitWhitespaceFrom (word : Text) : Text → List Text
  | [] => if word.isEmpty then [] else [word]
  | c :: cs =>
    if Steps.isWhitespace c then
      if word.isEmpty then splitWhitespaceFrom [] cs else word :: splitWhitespaceFrom [] cs
    else splitWhitespaceFrom (word ++ [c]) cs

def splitWhitespace (s : Text) : List Text := splitWhitespaceFrom [] s

/-- A maximal run without whitespace: what stands before it ends with whitespace, what
stands after it starts with whitespace. -/
def IsWord (s w : Text) : Prop :=
  ∃ a b, s = a ++ w ++ b ∧ w ≠ [] ∧ (∀ c ∈ w, Steps.isWhitespace c = false) ∧
    (∀ c ∈ a.getLast?, Steps.isWhitespace c = true) ∧
      ∀ c ∈ b.head?, Steps.isWhitespace c = true

theorem isWord_self_iff {s w : Text} (hs : ∀ c ∈ s, Steps.isWhitespace c = false) :
    IsWord s w ↔ s ≠ [] ∧ w = s := by
  constructor
  · rintro ⟨a, b, rfl, hw, _, ha, hb⟩
    have hnil : a = [] := by
      rcases List.eq_nil_or_concat a with rfl | ⟨a, c, rfl⟩
      · rfl
      · have hc := ha c (by simp)
        rw [hs c (by simp)] at hc
        cases hc
    have hnil' : b = [] := by
      cases b with
      | nil => rfl
      | cons c b =>
        have hc := hb c (by simp)
        rw [hs c (by simp)] at hc
        cases hc
    rw [hnil, hnil', List.append_nil, List.nil_append]
    exact ⟨hw, rfl⟩
  · rintro ⟨hne, rfl⟩
    exact ⟨[], [], by simp, hne, hs, by simp, by simp⟩

/-- Whitespace ends a word and starts the rest of the text. -/
theorem isWord_gap_iff {word s w : Text} {c : Char} (hc : Steps.isWhitespace c = true)
    (hword : ∀ d ∈ word, Steps.isWhitespace d = false) :
    IsWord (word ++ c :: s) w ↔ IsWord word w ∨ IsWord s w := by
  constructor
  · rintro ⟨a, b, hsplit, hw, hchars, ha, hb⟩
    rw [List.append_assoc] at hsplit
    rcases List.append_eq_append_iff.mp hsplit with ⟨a', rfl, hrest⟩ | ⟨word', rfl, hrest⟩
    · -- the word starts at the gap or after it
      cases a' with
      | nil =>
        obtain ⟨d, w, rfl⟩ := List.exists_cons_of_ne_nil hw
        obtain ⟨rfl, _⟩ := List.cons_eq_cons.mp hrest
        rw [hchars c List.mem_cons_self] at hc
        cases hc
      | cons d a' =>
        obtain ⟨rfl, rfl⟩ := List.cons_eq_cons.mp hrest
        refine Or.inr ⟨a', b, (List.append_assoc ..).symm, hw, hchars, fun e he => ha e ?_, hb⟩
        rw [List.getLast?_append, List.getLast?_cons, Option.mem_def.mp he]
        rfl
    · -- the word starts before the gap, so it ends before it
      rcases List.append_eq_append_iff.mp hrest with ⟨x, rfl, rfl⟩ | ⟨w', rfl, hgap⟩
      · refine Or.inl ⟨a, x, (List.append_assoc ..).symm, hw, hchars, ha, fun e he => hb e ?_⟩
        rw [List.head?_append, Option.mem_def.mp he]
        rfl
      · cases w' with
        | nil => exact Or.inl ⟨a, [], by simp, hw, hchars, ha, by simp⟩
        | cons d w' =>
          obtain ⟨rfl, _⟩ := List.cons_eq_cons.mp hgap
          rw [hchars c (by simp)] at hc
          cases hc
  · rintro (h | ⟨a, b, rfl, hw, hchars, ha, hb⟩)
    · obtain ⟨hne, rfl⟩ := (isWord_self_iff hword).mp h
      refine ⟨[], c :: s, rfl, hne, hword, by simp, fun d hd => ?_⟩
      obtain rfl := Option.some.inj hd
      exact hc
    · refine ⟨word ++ c :: a, b, by simp, hw, hchars, fun d hd => ?_, hb⟩
      rw [List.getLast?_append, List.getLast?_cons] at hd
      cases hlast : a.getLast? with
      | none =>
        rw [hlast] at hd
        obtain rfl := Option.some.inj hd
        exact hc
      | some e =>
        rw [hlast] at hd
        obtain rfl := Option.some.inj hd
        exact ha e hlast

theorem mem_splitWhitespaceFrom_iff {word s w : Text}
    (hword : ∀ c ∈ word, Steps.isWhitespace c = false) :
    w ∈ splitWhitespaceFrom word s ↔ IsWord (word ++ s) w := by
  induction s generalizing word with
  | nil =>
    rw [List.append_nil, isWord_self_iff hword, splitWhitespaceFrom]
    cases word with
    | nil => simp
    | cons c word => simp
  | cons c s ih =>
    rw [splitWhitespaceFrom]
    split
    · rename_i hc
      rw [isWord_gap_iff hc hword, isWord_self_iff hword]
      have hrest : w ∈ splitWhitespaceFrom [] s ↔ IsWord s w := ih (by simp)
      cases word with
      | nil => simp [hrest]
      | cons d word => simp [hrest]
    · rename_i hc
      have hnext : ∀ d ∈ word ++ [c], Steps.isWhitespace d = false := by
        intro d hd
        rcases List.mem_append.mp hd with hd | hd
        · exact hword d hd
        · rw [List.mem_singleton.mp hd]
          exact Bool.eq_false_iff.mpr hc
      rw [ih hnext, List.append_assoc, List.singleton_append]

/-- The words are the maximal runs without whitespace. -/
theorem mem_splitWhitespace_iff {s w : Text} : w ∈ splitWhitespace s ↔ IsWord s w :=
  mem_splitWhitespaceFrom_iff (by simp)

theorem splitWhitespace_words {s w : Text} (hw : w ∈ splitWhitespace s) :
    w ≠ [] ∧ ∀ c ∈ w, Steps.isWhitespace c = false := by
  obtain ⟨_, _, _, hne, hchars, _⟩ := mem_splitWhitespace_iff.mp hw
  exact ⟨hne, hchars⟩

theorem infix_splitWhitespace {s w : Text} (hw : w ∈ splitWhitespace s) : w <:+: s := by
  obtain ⟨a, b, hsplit, _⟩ := mem_splitWhitespace_iff.mp hw
  exact ⟨a, b, hsplit.symm⟩

/-- The loop over the words of a document; it stops at an exact word. -/
def bestWord (dist : Text → Text → ℕ → Option ℕ) (q : Text) (threshold : ℕ) :
    Option ℕ → List Text → Option ℕ
  | best, [] => best
  | best, w :: ws =>
    match dist q w threshold with
    | none => bestWord dist q threshold best ws
    | some d =>
      let best := some (best.elim d fun b => min b d)
      if d = 0 then best else bestWord dist q threshold best ws

/-- The hit of one row of `word_fuzzy_search`. -/
def wordHit (dist : Text → Text → ℕ → Option ℕ) (q : Text) (r : Int64 × Entry) : Option Hit :=
  (bestWord dist q (maxDistance q.length) none (splitWhitespace r.2.norm)).map fun d =>
    { id := r.1, score := d }

open LockedStore in
def wordFuzzySearch (sq : Sqlite) (dist : Text → Text → ℕ → Option ℕ) (q : Text)
    (limit : UInt32) : EngineM (List Hit) :=
  Prog.stmt (Sql.tryQuery fun db =>
    (Stepped.collect (sq.step (sq.scanAll db.entries)).results).map fun rows =>
      rankAndTruncate (rows.filterMap (wordHit dist q)) limit)

end Unfydqry.Search
