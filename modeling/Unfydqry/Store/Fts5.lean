import Unfydqry.Store.Chars

/-! # Full-text expressions

The part of FTS5's query language the engine writes: phrases in double quotes,
joined by `OR`. The expression is read as a C string, so it ends at the first
U+0000; inside a phrase two double quotes stand for one. The trigram tokenizer
skips U+0000, in a phrase and in a document. -/

namespace Unfydqry

namespace Fts5

open Store

/-- `s.replace('"', "\"\"")`. -/
def doubleQuotes (s : Text) : Text := s.flatMap fun c => if c = '"' then ['"', '"'] else [c]

/-- `search::fts5_phrase`. -/
def fts5Phrase (q : Text) : Text := '"' :: doubleQuotes q ++ ['"']

/-- A phrase after its opening quote, and what follows its closing quote. -/
def readPhrase : Text → Option (Text × Text)
  | [] => none
  | c :: s =>
    if c = '"' then
      match s with
      | [] => some ([], [])
      | d :: s' =>
        if d = '"' then (readPhrase s').map fun r => ('"' :: r.1, r.2) else some ([], d :: s')
    else (readPhrase s).map fun r => (c :: r.1, r.2)

/-- Phrases joined by `OR`; the first argument bounds their number. -/
def readPhrases : ℕ → Text → Option (List Text)
  | 0, _ => none
  | _ + 1, [] => none
  | n + 1, c :: s =>
    if c = '"' then
      match readPhrase s with
      | none => none
      | some (p, []) => some [p]
      | some (p, rest) =>
        if rest.take 4 = " OR ".toList then (readPhrases n (rest.drop 4)).map (p :: ·) else none
    else none

def parse (expr : Text) : Option (List Text) :=
  readPhrases (cString expr).length (cString expr)

/-- The characters the trigrams of a text are made of. -/
def tokenChars (s : Text) : Text := (s.filter fun c => c ≠ '\x00').map decoded

/-- A trigram phrase is found in a text when it is a run of it, both case-folded. A
phrase without a trigram matches nothing. -/
def phraseMatches (fold : Char → Char) (phrase norm : Text) : Bool :=
  3 ≤ (tokenChars phrase).length &&
    decide ((tokenChars phrase).map fold <:+: (tokenChars norm).map fold)

def isMatch (fold : Char → Char) (phrases : List Text) (norm : Text) : Bool :=
  phrases.any fun p => phraseMatches fold p norm

theorem readPhrase_quotes (s : Text) :
    readPhrase ('"' :: '"' :: s) = (readPhrase s).map fun r => ('"' :: r.1, r.2) := by
  cases s <;> simp [readPhrase]

theorem readPhrase_char {c : Char} (hc : c ≠ '"') (s : Text) :
    readPhrase (c :: s) = (readPhrase s).map fun r => (c :: r.1, r.2) := by
  cases s <;> simp [readPhrase, hc]

theorem doubleQuotes_quote (q : Text) :
    doubleQuotes ('"' :: q) = '"' :: '"' :: doubleQuotes q := rfl

theorem doubleQuotes_char {c : Char} (hc : c ≠ '"') (q : Text) :
    doubleQuotes (c :: q) = c :: doubleQuotes q := by
  simp [doubleQuotes, hc]

theorem readPhrase_doubled (q s : Text) :
    readPhrase (doubleQuotes q ++ s) = (readPhrase s).map fun r => (q ++ r.1, r.2) := by
  induction q with
  | nil =>
    have hnil : doubleQuotes [] ++ s = s := rfl
    rw [hnil]
    cases readPhrase s <;> rfl
  | cons c q ih =>
    by_cases hc : c = '"'
    · subst hc
      rw [doubleQuotes_quote, List.cons_append, List.cons_append, readPhrase_quotes, ih,
        Option.map_map]
      rfl
    · rw [doubleQuotes_char hc, List.cons_append, readPhrase_char hc, ih, Option.map_map]
      rfl

/-- A phrase is read up to its closing quote when something else than a quote follows. -/
theorem readPhrase_append (q : Text) {rest : Text} (hrest : rest.head? ≠ some '"') :
    readPhrase (doubleQuotes q ++ '"' :: rest) = some (q, rest) := by
  have hclosed : readPhrase ('"' :: rest) = some ([], rest) := by
    cases rest with
    | nil => rfl
    | cons d rest =>
      have hd : d ≠ '"' := fun h => hrest (by rw [h]; rfl)
      simp [readPhrase, hd]
  rw [readPhrase_doubled, hclosed, Option.map_some, List.append_nil]

theorem readPhrase_doubleQuotes (q : Text) :
    readPhrase (doubleQuotes q ++ ['"']) = some (q, []) := readPhrase_append q (by simp)

theorem readPhrase_unclosed (q : Text) : readPhrase (doubleQuotes q) = none := by
  have h := readPhrase_doubled q []
  rwa [List.append_nil] at h

/-- The expression of a query that holds U+0000 ends inside its phrase. -/
theorem cString_fts5Phrase_nul {q : Text} (h : '\x00' ∈ q) :
    ∃ q', cString (fts5Phrase q) = '"' :: doubleQuotes q' := by
  have hloop : ∃ q', cString (doubleQuotes q ++ ['"']) = doubleQuotes q' := by
    induction q with
    | nil => cases h
    | cons c q ih =>
      by_cases hz : c = '\x00'
      · subst hz
        exact ⟨[], rfl⟩
      · obtain ⟨q', hq'⟩ := ih ((List.mem_cons.mp h).resolve_left fun heq => hz heq.symm)
        refine ⟨c :: q', ?_⟩
        by_cases hc : c = '"'
        · subst hc
          rw [doubleQuotes_quote, doubleQuotes_quote, List.cons_append, List.cons_append,
            cString_cons hz, cString_cons hz, hq']
        · rw [doubleQuotes_char hc, doubleQuotes_char hc, List.cons_append, cString_cons hz, hq']
  obtain ⟨q', hq'⟩ := hloop
  refine ⟨q', ?_⟩
  rw [← hq']
  rfl

theorem mem_doubleQuotes {c : Char} {q : Text} (h : c ∈ doubleQuotes q) : c ∈ q := by
  obtain ⟨d, hd, hc⟩ := List.mem_flatMap.mp h
  by_cases hq : d = '"'
  · simp only [hq, ite_true, List.mem_cons, List.not_mem_nil, or_false, or_self] at hc
    rwa [hc, ← hq]
  · simp only [hq, ite_false, List.mem_singleton] at hc
    rwa [hc]

theorem nul_mem_fts5Phrase (p : Text) : '\x00' ∈ fts5Phrase p ↔ '\x00' ∈ p := by
  constructor
  · intro h
    rw [fts5Phrase, List.cons_append, List.mem_cons, List.mem_append, List.mem_singleton] at h
    rcases h with h | h | h
    · cases h
    · exact mem_doubleQuotes h
    · cases h
  · intro h
    rw [fts5Phrase, List.cons_append, List.mem_cons, List.mem_append]
    refine .inr (.inl (List.mem_flatMap.mpr ⟨'\x00', h, ?_⟩))
    simp

/-- The one phrase of a query is the query itself, unless it holds U+0000. -/
theorem parse_fts5Phrase (q : Text) :
    parse (fts5Phrase q) = if '\x00' ∈ q then none else some [q] := by
  by_cases hz : '\x00' ∈ q
  · obtain ⟨q', hq'⟩ := cString_fts5Phrase_nul hz
    rw [if_pos hz, parse, hq']
    simp [readPhrases, readPhrase_unclosed]
  · have hfree : '\x00' ∉ fts5Phrase q := fun h => hz ((nul_mem_fts5Phrase q).mp h)
    rw [if_neg hz, parse, cString_eq_self hfree]
    simp [fts5Phrase, readPhrases, readPhrase_doubleQuotes]

/-! ### Phrases in texts -/

theorem tokenChars_append (s t : Text) : tokenChars (s ++ t) = tokenChars s ++ tokenChars t := by
  rw [tokenChars, List.filter_append, List.map_append]
  rfl

theorem infix_tokenChars {p s : Text} (h : p <:+: s) : tokenChars p <:+: tokenChars s := by
  obtain ⟨a, b, rfl⟩ := h
  rw [tokenChars_append, tokenChars_append]
  exact ⟨tokenChars a, tokenChars b, rfl⟩

theorem tokenChars_of_free {s : Text} (h : '\x00' ∉ s) : tokenChars s = s.map decoded := by
  rw [tokenChars, List.filter_eq_self.mpr]
  intro c hc
  exact decide_eq_true fun heq => h (heq ▸ hc)

/-- A text is found under every phrase that is a run of it and has a trigram. -/
theorem phraseMatches_of_infix (fold : Char → Char) {p s : Text} (hfree : '\x00' ∉ p)
    (hlen : 3 ≤ p.length) (h : p <:+: s) : phraseMatches fold p s = true := by
  rw [phraseMatches, Bool.and_eq_true, decide_eq_true_iff, decide_eq_true_iff]
  refine ⟨?_, (infix_tokenChars h).map fold⟩
  rwa [tokenChars_of_free hfree, List.length_map]

theorem isMatch_single (fold : Char → Char) {q : Text} (hfree : '\x00' ∉ q) (norm : Text) :
    isMatch fold [q] norm = true ↔
      3 ≤ q.length ∧ (tokenChars q).map fold <:+: (tokenChars norm).map fold := by
  simp [isMatch, phraseMatches, tokenChars_of_free hfree]

end Fts5

end Unfydqry
