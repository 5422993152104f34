import Unfydqry.Engine.Types
import Unfydqry.Lib.PartitionPoint

/-! # Marked text: `highlight` (`engine.rs`)

Offsets are byte offsets into UTF-8. A slice that does not fall on character
boundaries, or that ends before it starts, is a panic. -/

namespace Unfydqry

namespace Highlight

open PartitionPoint

/-- `s.len()`. -/
def byteLen (s : Text) : ℕ := (s.map Char.utf8Size).sum

/-- Split at a byte offset, when it is a character boundary. -/
def splitAtByte : ℕ → Text → Option (Text × Text)
  | n, [] => if n = 0 then some ([], []) else none
  | n, c :: cs =>
    if n = 0 then some ([], c :: cs)
    else if c.utf8Size ≤ n then (splitAtByte (n - c.utf8Size) cs).map fun r => (c :: r.1, r.2)
    else none

/-- `&s[a..b]`. -/
def slice (s : Text) (a b : ℕ) : Option Text :=
  if a ≤ b then
    (splitAtByte b s).bind fun r => (splitAtByte a r.1).map fun r => r.2
  else none

/-- The loop of `match_indices` on a non-empty needle: the offsets of the occurrences from
the left, none overlapping the one before; `skip` characters belong to the last one. -/
def matchFrom (needle : Text) : ℕ → ℕ → Text → List ℕ
  | _, _, [] => []
  | skip + 1, pos, c :: cs => matchFrom needle skip (pos + c.utf8Size) cs
  | 0, pos, c :: cs =>
    if needle.isPrefixOf (c :: cs) then
      pos :: matchFrom needle (needle.length - 1) (pos + c.utf8Size) cs
    else matchFrom needle 0 (pos + c.utf8Size) cs

def matchIndices (needle s : Text) : List ℕ := matchFrom needle 0 0 s

/-- The loop of `highlight_occurrences` and of `highlight_raw` over the marked ranges. -/
def markRanges (s before after : Text) : ℕ → List (ℕ × ℕ) → Option Text
  | prevEnd, [] => slice s prevEnd (byteLen s)
  | prevEnd, (start, stop) :: ranges => do
    let gap ← slice s prevEnd start
    let marked ← slice s start stop
    let rest ← markRanges s before after stop ranges
    some (gap ++ before ++ marked ++ after ++ rest)

def highlightOccurrences (haystack needle before after : Text) : Option Text :=
  if needle.isEmpty then some haystack
  else
    let matched := matchIndices needle haystack
    if matched.isEmpty then some haystack
    else
      markRanges haystack before after 0
        (matched.map fun pos => (pos, pos + byteLen needle))

/-- The entries of `bounds` after the last match: no prefix is normalized any more. -/
def fillBounds (off normLen : ℕ) : Text → List (ℕ × ℕ)
  | [] => []
  | c :: cs => (off + c.utf8Size, normLen) :: fillBounds (off + c.utf8Size) normLen cs

/-- The loop over the characters of `raw`; `pfx` is what has been read. -/
def boundsFrom (normalize : Text → Text) (maxNormOffset : ℕ) (pfx : Text) :
    Text → List (ℕ × ℕ)
  | [] => []
  | c :: cs =>
    let pfx := pfx ++ [c]
    let normLen := byteLen (normalize pfx)
    (byteLen pfx, normLen) ::
      if normLen ≥ maxNormOffset then fillBounds (byteLen pfx) normLen cs
      else boundsFrom normalize maxNormOffset pfx cs

/-- The table of raw offsets and normalized lengths up to them. -/
def bounds (normalize : Text → Text) (maxNormOffset : ℕ) (raw : Text) : List (ℕ × ℕ) :=
  (0, 0) :: boundsFrom normalize maxNormOffset [] raw

/-- Largest raw boundary whose prefix normalizes to at most `normOff` bytes. -/
def startFor (bounds : List (ℕ × ℕ)) (normOff : ℕ) : ℕ :=
  let idx := partitionPoint (fun b => b.2 ≤ normOff) bounds
  if idx = 0 then 0 else (bounds[idx - 1]?.map Prod.fst).getD 0

/-- Smallest raw boundary whose prefix normalizes to at least `normOff` bytes. -/
def endFor (raw : Text) (bounds : List (ℕ × ℕ)) (normOff : ℕ) : ℕ :=
  let idx := partitionPoint (fun b => b.2 < normOff) bounds
  (bounds[idx]?.map Prod.fst).getD (byteLen raw)

/-- The ranges as they are marked: each starts no earlier than the one before ends. -/
def clampRanges (startFor endFor : ℕ → ℕ) : ℕ → List (ℕ × ℕ) → List (ℕ × ℕ)
  | _, [] => []
  | prevEnd, (ns, ne) :: ranges =>
    let rs := max (startFor ns) prevEnd
    let re := max (endFor ne) rs
    (rs, re) :: clampRanges startFor endFor re ranges

/-- The byte ranges of the occurrences. -/
def matchRanges (needle norm : Text) : List (ℕ × ℕ) :=
  (matchIndices needle norm).map fun pos => (pos, pos + byteLen needle)

/-- `ranges.iter().map(|&(_, e)| e).max().unwrap_or(0)`. -/
def maxEnd (ranges : List (ℕ × ℕ)) : ℕ := (ranges.map Prod.snd).foldl max 0

def highlightRaw (raw norm needle before after : Text) (normalize : Text → Text) :
    Option Text :=
  if needle.isEmpty then some raw
  else
    let ranges := matchRanges needle norm
    if ranges.isEmpty then some raw
    else
      let bounds := bounds normalize (maxEnd ranges) raw
      markRanges raw before after 0 (clampRanges (startFor bounds) (endFor raw bounds) 0 ranges)

end Highlight

namespace SearchEngine

open LockedStore

def highlight (env : Env) (e : SearchEngine) (query : Text) (id : Int64)
    (before after : Text) : EngineM (Option Text) :=
  let q := e.normalizer env query
  if q.isEmpty then pure none
  else do
    lockedConn
    let fetched ← Prog.stmt (Sql.selectNormRaw id)
    Prog.release
    match fetched with
    | none => pure none
    | some (norm, some raw) =>
      (some ·) <$> Prog.trap (Highlight.highlightRaw raw norm q before after (e.normalizer env))
    | some (norm, none) =>
      (some ·) <$> Prog.trap (Highlight.highlightOccurrences norm q before after)

end SearchEngine

end Unfydqry
