import Unfydqry.Engine.Regions

/-! # `highlight_raw` index by index

The loops of the source with every index and slice they take; one out of range is a panic.
They compute the table and the regions of the recursive form, whatever the normalizer. -/

namespace Unfydqry.Highlight

open PartitionPoint

/-- `s.char_indices()`, from a byte offset on. -/
def charIndices (off : ℕ) : Text → List (ℕ × Char)
  | [] => []
  | c :: s => (off, c) :: charIndices (off + c.utf8Size) s

/-- `&xs[k..]`. -/
def tailFrom {α : Type} (xs : List α) (k : ℕ) : Option (List α) :=
  if k ≤ xs.length then some (xs.drop k) else none

/-- The loop over `raw_chars` that fills `bounds`; the last argument is what is left of it. -/
def boundsLoop (normalize : Text → Text) (maxNormOffset : ℕ) (raw : Text)
    (rawChars : List (ℕ × Char)) (table : List (ℕ × ℕ)) :
    List (ℕ × Char) → Option (List (ℕ × ℕ))
  | [] => some table
  | (idx, ch) :: rest => do
    let rawEnd := idx + ch.utf8Size
    let pfx ← slice raw 0 rawEnd
    let normLen := byteLen (normalize pfx)
    let table := table ++ [(rawEnd, normLen)]
    if normLen ≥ maxNormOffset then
      let remaining ← tailFrom rawChars (table.length - 1)
      some (table ++ remaining.map fun r => (r.1 + r.2.utf8Size, normLen))
    else boundsLoop normalize maxNormOffset raw rawChars table rest

/-- `start_for`. -/
def startIndexed (bounds : List (ℕ × ℕ)) (normOff : ℕ) : Option ℕ :=
  let idx := partitionPoint (fun b => b.2 ≤ normOff) bounds
  if idx = 0 then some 0 else bounds[idx - 1]?.map Prod.fst

/-- `end_for`. -/
def endIndexed (raw : Text) (bounds : List (ℕ × ℕ)) (normOff : ℕ) : Option ℕ :=
  let idx := partitionPoint (fun b => b.2 < normOff) bounds
  if idx ≥ bounds.length then some (byteLen raw) else bounds[idx]?.map Prod.fst

/-- The loop over the ranges that writes `out`. -/
def writeLoop (raw before after : Text) (bounds : List (ℕ × ℕ)) :
    ℕ → List (ℕ × ℕ) → Option Text
  | prevEnd, [] => slice raw prevEnd (byteLen raw)
  | prevEnd, (ns, ne) :: ranges => do
    let start ← startIndexed bounds ns
    let rs := max start prevEnd
    let stop ← endIndexed raw bounds ne
    let re := max stop rs
    let gap ← slice raw prevEnd rs
    let marked ← slice raw rs re
    let rest ← writeLoop raw before after bounds re ranges
    some (gap ++ before ++ marked ++ after ++ rest)

/-- `highlight_raw` with every index and slice it takes. -/
def highlightRawIndexed (raw norm needle before after : Text) (normalize : Text → Text) :
    Option Text :=
  if needle.isEmpty then some raw
  else
    let ranges := matchRanges needle norm
    if ranges.isEmpty then some raw
    else do
      let rawChars := charIndices 0 raw
      let bounds ← boundsLoop normalize (maxEnd ranges) raw rawChars [(0, 0)] rawChars
      writeLoop raw before after bounds 0 ranges

/-! ### The table -/

theorem charIndices_append (off : ℕ) (a b : Text) :
    charIndices off (a ++ b) = charIndices off a ++ charIndices (off + byteLen a) b := by
  induction a generalizing off with
  | nil => rfl
  | cons c a ih => rw [List.cons_append, charIndices, ih, byteLen_cons, ← Nat.add_assoc]; rfl

theorem length_charIndices (off : ℕ) (s : Text) : (charIndices off s).length = s.length := by
  induction s generalizing off with
  | nil => rfl
  | cons c s ih => rw [charIndices, List.length_cons, ih, List.length_cons]

theorem fillBounds_eq_map (off normLen : ℕ) (s : Text) :
    fillBounds off normLen s =
      (charIndices off s).map fun r => (r.1 + r.2.utf8Size, normLen) := by
  induction s generalizing off with
  | nil => rfl
  | cons c s ih => rw [fillBounds, charIndices, List.map_cons, ih]

/-- The table has an entry for every character read, so the rest of the characters is what
the fill loop takes. -/
theorem boundsLoop_eq (normalize : Text → Text) (m : ℕ) {raw p cs : Text} (h : p ++ cs = raw)
    {table : List (ℕ × ℕ)} (hlen : table.length = p.length + 1) :
    boundsLoop normalize m raw (charIndices 0 raw) table (charIndices (byteLen p) cs) =
      some (table ++ boundsFrom normalize m p cs) := by
  induction cs generalizing p table with
  | nil => rw [charIndices, boundsLoop, boundsFrom, List.append_nil]
  | cons c cs ih =>
    have hnext : p ++ [c] ++ cs = raw := by rw [List.append_assoc]; exact h
    have hend : byteLen p + c.utf8Size = byteLen (p ++ [c]) := by
      rw [byteLen_append]
      rfl
    have hslice : slice raw 0 (byteLen (p ++ [c])) = some (p ++ [c]) := by
      rw [← hnext]
      exact slice_append [] (p ++ [c]) cs
    have hpushed : ∀ b : ℕ × ℕ, (table ++ [b]).length = (p ++ [c]).length + 1 := by
      intro b
      rw [List.length_append, List.length_append, hlen]
      rfl
    have htail : tailFrom (charIndices 0 raw) (p ++ [c]).length =
        some (charIndices (byteLen (p ++ [c])) cs) := by
      have hsplit := charIndices_append 0 (p ++ [c]) cs
      rw [hnext, Nat.zero_add] at hsplit
      have hchars := length_charIndices 0 (p ++ [c])
      rw [tailFrom, hsplit, ← hchars, List.length_append, if_pos (Nat.le_add_right _ _),
        List.drop_left]
    rw [charIndices, boundsLoop, boundsFrom]
    simp only [hend, hslice, Option.bind_eq_bind, Option.bind_some, hpushed, Nat.add_sub_cancel,
      htail]
    split
    · rw [fillBounds_eq_map, List.append_assoc]
      rfl
    · rw [ih hnext (hpushed _), List.append_assoc]
      rfl

theorem boundsLoop_bounds (normalize : Text → Text) (m : ℕ) (raw : Text) :
    boundsLoop normalize m raw (charIndices 0 raw) [(0, 0)] (charIndices 0 raw) =
      some (bounds normalize m raw) :=
  boundsLoop_eq normalize m (List.nil_append raw) rfl

/-! ### The searches -/

theorem startIndexed_eq (table : List (ℕ × ℕ)) (n : ℕ) :
    startIndexed table n = some (startFor table n) := by
  have hle := (partitionPoint_cuts (fun b => decide (b.2 ≤ n)) table).le
  unfold startIndexed startFor
  dsimp only
  split
  · rfl
  · rename_i hpos
    have hlt : partitionPoint (fun b => decide (b.2 ≤ n)) table - 1 < table.length := by omega
    rw [List.getElem?_eq_getElem hlt]
    rfl

theorem endIndexed_eq (raw : Text) (table : List (ℕ × ℕ)) (n : ℕ) :
    endIndexed raw table n = some (endFor raw table n) := by
  unfold endIndexed endFor
  dsimp only
  split
  · rename_i hge
    rw [List.getElem?_eq_none hge]
    rfl
  · rename_i hlt
    rw [List.getElem?_eq_getElem (Nat.lt_of_not_le hlt)]
    rfl

theorem writeLoop_eq (raw before after : Text) (table : List (ℕ × ℕ)) (prevEnd : ℕ)
    (ranges : List (ℕ × ℕ)) :
    writeLoop raw before after table prevEnd ranges =
      markRanges raw before after prevEnd
        (clampRanges (startFor table) (endFor raw table) prevEnd ranges) := by
  induction ranges generalizing prevEnd with
  | nil => rfl
  | cons r ranges ih =>
    rw [writeLoop, clampRanges, markRanges]
    simp only [startIndexed_eq, endIndexed_eq, Option.bind_eq_bind, Option.bind_some, ih]

/-- No index is out of range, and the loops compute what the recursive form does. -/
theorem highlightRawIndexed_eq (raw norm needle before after : Text) (normalize : Text → Text) :
    highlightRawIndexed raw norm needle before after normalize =
      highlightRaw raw norm needle before after normalize := by
  unfold highlightRawIndexed highlightRaw
  simp only [boundsLoop_bounds, Option.bind_eq_bind, Option.bind_some, writeLoop_eq]

end Unfydqry.Highlight
