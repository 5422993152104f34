import Unfydqry.Flutter.Answers
import Unfydqry.FoundHighlighted
import Unfydqry.MarkedText
import Unfydqry.PackedIds
import Unfydqry.Sample.Marked
import Unfydqry.TopRecords

/-! # The rows of the samples

A sample searches for records and asks for a highlight of each matched field under the id it
packs itself. What it draws of such a field is the field's own text. -/

namespace Unfydqry.Sample

open LockedStore Prog SearchEngine Search Highlight Delimited
open Unfydqry.Flutter (dartRecordHit slotNumber_eq_iff)

/-! ### The emphasized regions -/

/-- The characters of a text from the byte offset `pos` on, each with whether it is in one of
the ranges. -/
def inRanges (ranges : List (ℕ × ℕ)) : ℕ → Text → List (Char × Bool)
  | _, [] => []
  | pos, c :: cs =>
    (c, ranges.any fun r => decide (r.1 ≤ pos) && decide (pos < r.2)) ::
      inRanges ranges (pos + c.utf8Size) cs

theorem inRanges_append (ranges : List (ℕ × ℕ)) (pos : ℕ) (a b : Text) :
    inRanges ranges pos (a ++ b) =
      inRanges ranges pos a ++ inRanges ranges (pos + byteLen a) b := by
  induction a generalizing pos with
  | nil => rfl
  | cons c a ih =>
    rw [List.cons_append, inRanges, inRanges, ih, byteLen_cons, Nat.add_assoc]
    rfl

theorem inRanges_eq {ranges : List (ℕ × ℕ)} {pos : ℕ} {s : Text} {covered : Bool}
    (h : ∀ n, pos ≤ n → n < pos + byteLen s →
      (ranges.any fun r => decide (r.1 ≤ n) && decide (n < r.2)) = covered) :
    inRanges ranges pos s = s.map (·, covered) := by
  induction s generalizing pos with
  | nil => rfl
  | cons c s ih =>
    have hc := Char.utf8Size_pos c
    rw [byteLen_cons] at h
    rw [inRanges, List.map_cons, h pos (Nat.le_refl _) (by omega),
      ih fun n hn hlt => h n (by omega) (by omega)]

theorem inRanges_skip {r : ℕ × ℕ} (ranges : List (ℕ × ℕ)) {pos : ℕ} (h : r.2 ≤ pos) (s : Text) :
    inRanges (r :: ranges) pos s = inRanges ranges pos s := by
  induction s generalizing pos with
  | nil => rfl
  | cons c s ih =>
    have hlt : ¬ pos < r.2 := by omega
    rw [inRanges, inRanges, ih (by omega), List.any_cons, decide_eq_false hlt, Bool.and_false,
      Bool.false_or]

/-- A region that comes first, with what is before it and after it. -/
theorem inRanges_region {pos start stop : ℕ} {ranges : List (ℕ × ℕ)} {gap marked : Text}
    (hstart : start = pos + byteLen gap) (hstop : stop = start + byteLen marked)
    (h : InOrder stop ranges) (t : Text) :
    inRanges ((start, stop) :: ranges) pos (gap ++ (marked ++ t)) =
      gap.map (·, false) ++ (marked.map (·, true) ++ inRanges ranges stop t) := by
  have hgap : inRanges ((start, stop) :: ranges) pos gap = gap.map (·, false) := by
    refine inRanges_eq fun n _ hn => ?_
    rw [List.any_eq_false]
    intro r hr
    have hle : start ≤ r.1 := by
      rcases List.mem_cons.mp hr with rfl | hr
      · exact Nat.le_refl _
      · have hge := (h.start_le r hr).1
        omega
    simp only [Bool.and_eq_true, decide_eq_true_eq]
    omega
  have hmarked : inRanges ((start, stop) :: ranges) start marked = marked.map (·, true) := by
    refine inRanges_eq fun n hle hn => ?_
    have hlt : n < stop := by omega
    rw [List.any_cons, decide_eq_true hle, decide_eq_true hlt, Bool.and_self, Bool.true_or]
  rw [inRanges_append, inRanges_append, hgap, ← hstart, hmarked, ← hstop,
    inRanges_skip ranges (Nat.le_refl stop)]

/-- In a text without sentinels the regions are what is emphasized; `p` is what has been
written. -/
theorem markRanges_emphasis {s p : Text} {ranges : List (ℕ × ℕ)} {out : Text} (hp : p <+: s)
    (h : InOrder (byteLen p) ranges) (hranges : ∀ r ∈ ranges, Boundary s r.1 ∧ Boundary s r.2)
    (hfree : Free OPEN CLOSE s)
    (hout : markRanges s [OPEN] [CLOSE] (byteLen p) ranges = some out) :
    ∃ t, p ++ t = s ∧ emphasis out = inRanges ranges (byteLen p) t := by
  induction ranges generalizing p out with
  | nil =>
    obtain ⟨t, rfl⟩ := hp
    have hslice : slice (p ++ t) (byteLen p) (byteLen (p ++ t)) = some t := by
      have hwhole := slice_append p t []
      rwa [List.append_nil] at hwhole
    rw [markRanges, hslice, Option.some.injEq] at hout
    subst hout
    have hplain : Free OPEN CLOSE t := fun c hc => hfree c (List.mem_append_right p hc)
    have hmarked := inside_free hplain false []
    rw [List.append_nil, inside, List.append_nil] at hmarked
    exact ⟨t, rfl, hmarked.trans (inRanges_eq fun _ _ _ => rfl).symm⟩
  | cons r ranges ih =>
    obtain ⟨hstart, hstop, hrest⟩ := h
    rw [List.forall_mem_cons] at hranges
    obtain ⟨⟨a, ha, hra⟩, ⟨b, hb, hrb⟩⟩ := hranges.1
    obtain ⟨start, stop⟩ := r
    dsimp only at hstart hstop hrest hra hrb
    subst hra hrb
    obtain ⟨gap, rfl⟩ := prefix_of_byteLen_le hp ha hstart
    obtain ⟨marked, rfl⟩ := prefix_of_byteLen_le ha hb hstop
    have hgap : slice s (byteLen p) (byteLen (p ++ gap)) = some gap := by
      obtain ⟨t, rfl⟩ := ha
      exact slice_append p gap t
    have hmarked : slice s (byteLen (p ++ gap)) (byteLen (p ++ gap ++ marked)) = some marked := by
      obtain ⟨t, rfl⟩ := hb
      exact slice_append (p ++ gap) marked t
    obtain ⟨rest, hmark⟩ := markRanges_some [OPEN] [CLOSE] ⟨_, hb, rfl⟩ hrest hranges.2
    obtain ⟨t, rfl, hdrawn⟩ := ih hb hrest hranges.2 hmark
    refine ⟨gap ++ (marked ++ t), by simp only [List.append_assoc], ?_⟩
    rw [markRanges] at hout
    simp only [hgap, hmarked, hmark, Option.bind_eq_bind, Option.bind_some,
      Option.some.injEq] at hout
    subst hout
    have hgapFree : Free OPEN CLOSE gap := fun c hc => hfree c (by simp [hc])
    have hmarkedFree : Free OPEN CLOSE marked := fun c hc => hfree c (by simp [hc])
    have hread : emphasis (gap ++ [OPEN] ++ marked ++ [CLOSE] ++ rest) =
        gap.map (·, false) ++ (marked.map (·, true) ++ emphasis rest) := by
      have hne : OPEN ≠ CLOSE := by decide
      simp only [emphasis, List.append_assoc, List.cons_append, List.nil_append]
      rw [inside_free hgapFree, inside_opening, inside_free hmarkedFree, inside_closing hne]
    rw [hread, hdrawn]
    exact (inRanges_region (byteLen_append p gap) (byteLen_append _ marked) hrest t).symm

/-! ### The text of a marked field -/

/-- Marking only adds sentinels. -/
theorem marks_filter {s out : Text} {n : ℕ} {regions : List (ℕ × ℕ)} {pieces : List (Text × Text)}
    {tail : Text} (h : Marks s [OPEN] [CLOSE] n regions pieces tail (some out)) :
    (emphasis out).map Prod.fst = s.filter fun c => decide (c ≠ OPEN ∧ c ≠ CLOSE) := by
  have hout : out = weave [OPEN] [CLOSE] pieces tail := Option.some.inj h.marked
  have hplain := h.plain
  have hkeep : ∀ before after : Text,
      before.filter (fun c => decide (c ≠ OPEN ∧ c ≠ CLOSE)) = [] →
      after.filter (fun c => decide (c ≠ OPEN ∧ c ≠ CLOSE)) = [] →
      (weave before after pieces tail).filter (fun c => decide (c ≠ OPEN ∧ c ≠ CLOSE)) =
        (pieces.flatMap fun p => p.1 ++ p.2).filter (fun c => decide (c ≠ OPEN ∧ c ≠ CLOSE)) ++
          tail.filter fun c => decide (c ≠ OPEN ∧ c ≠ CLOSE) := by
    intro before after hbefore hafter
    rw [weave, List.filter_append, List.filter_flatMap, List.filter_flatMap]
    simp only [List.filter_append, hbefore, hafter, List.append_nil]
  rw [emphasis, inside_fst, hout, ← hplain, hkeep _ _ (by decide) (by decide), hkeep _ _ rfl rfl]

theorem marks_open {s out : Text} {n : ℕ} {regions : List (ℕ × ℕ)} {pieces : List (Text × Text)}
    {tail : Text} (h : Marks s [OPEN] [CLOSE] n regions pieces tail (some out)) :
    OPEN ∈ out ↔ OPEN ∈ s ∨ regions ≠ [] := by
  have hout : out = weave [OPEN] [CLOSE] pieces tail := Option.some.inj h.marked
  have hlen := h.slices.length_eq
  have hpieces : regions ≠ [] ↔ pieces ≠ [] := by
    rw [← List.length_pos_iff, ← List.length_pos_iff, hlen]
  rw [hpieces, hout, ← h.plain]
  cases pieces with
  | nil => simp [weave]
  | cons p pieces =>
    obtain ⟨gap, marked⟩ := p
    simp [weave_cons]

/-! ### The highlights of a row -/

/-- The low bits of an id that hold the slot, in all three samples. -/
def FIELD_BITS : Int64 := 8

/-- `recordId << fieldBits | slot`. -/
def packed (recordId slot : Int64) : Int64 := (recordId <<< FIELD_BITS) ||| slot

/-- What a hit was decoded to is packed to the id it had. -/
theorem packed_decoded (x : Int64) :
    packed (shrOf DEFAULT_FIELD_BITS x)
      (Checked.ofU8 (Checked.asU8 (x &&& maskOf DEFAULT_FIELD_BITS))) = x := by
  have hshr : shrOf DEFAULT_FIELD_BITS x = Int64.ofBitVec (x.toBitVec.sshiftRight 8) := rfl
  have hv : (x &&& maskOf DEFAULT_FIELD_BITS).toInt = x.toInt % 256 :=
    slot_toInt validBits_default x
  have hslot : Checked.ofU8 (Checked.asU8 (x &&& maskOf DEFAULT_FIELD_BITS)) =
      x &&& maskOf DEFAULT_FIELD_BITS := by
    refine ofU8_asU8 ?_ ?_
    · rw [Int64.le_iff_toInt_le, hv]
      exact Int.emod_nonneg _ (by decide)
    · rw [Int64.lt_iff_toInt_lt, hv]
      exact Int.emod_lt_of_pos _ (by decide)
  have hmask : (maskOf DEFAULT_FIELD_BITS).toBitVec = 255#64 := by decide
  have hbits : (FIELD_BITS.toBitVec.smod 64) = 8#64 := by decide
  rw [hshr, packed, hslot, ← Int64.toBitVec_inj, Int64.toBitVec_or, Int64.toBitVec_and, hmask,
    Int64.toBitVec_shiftLeft, hbits]
  have hlow : ∀ i < 64, (255#64).getLsbD i = decide (i < 8) := by decide
  refine BitVec.eq_of_getLsbD_eq fun i hi => ?_
  rw [BitVec.getLsbD_or, BitVec.getLsbD_and, BitVec.getLsbD_shiftLeft', hlow i hi]
  by_cases h8 : i < 8
  · simp [h8]
  · have hback : 8 + (i - 8) = i := by omega
    have hge : ¬ 64 ≤ i - 8 := by omega
    simp [h8, BitVec.getLsbD_sshiftRight, hback, hi, hge]

/-- The body of the loop of `highlightsFor`: a slot whose call fails, or whose text shows no
match, gets no entry. -/
def highlightSlot (highlight : Int64 → Outcome SearchError (Option Text)) (recordId : Int64)
    (out : UInt8 → Option Text) (slot : UInt8) : UInt8 → Option Text :=
  match highlight (packed recordId (Checked.ofU8 slot)) with
  | .ok (some marked) =>
    if marked.contains OPEN then Function.update out slot (some marked) else out
  | _ => out

/-- `highlightsFor` of the Android sample and `highlights` of the iOS one. -/
def highlightsFor (highlight : Int64 → Outcome SearchError (Option Text)) (recordId : Int64)
    (matchedSlots : List UInt8) : UInt8 → Option Text :=
  matchedSlots.foldl (highlightSlot highlight recordId) fun _ => none

/-- `_highlightsFor` of the Flutter sample: a call that fails ends the loop. -/
def Flutter.highlightsFor (highlight : Int64 → Outcome SearchError (Option Text))
    (recordId : Int64) :
    List Int64 → (Int64 → Option Text) → Outcome SearchError (Int64 → Option Text)
  | [], out => .ok out
  | slot :: slots, out =>
    match highlight (packed recordId slot) with
    | .ok (some marked) =>
      Flutter.highlightsFor highlight recordId slots
        (if marked.contains OPEN then Function.update out slot (some marked) else out)
    | .ok none => Flutter.highlightsFor highlight recordId slots out
    | .err e => .err e
    | .panic => .panic

/-- The highlight a row keeps of an answer. -/
def kept : Outcome SearchError (Option Text) → Option Text
  | .ok (some marked) => if marked.contains OPEN then some marked else none
  | _ => none

theorem highlightSlot_apply (highlight : Int64 → Outcome SearchError (Option Text))
    (recordId : Int64) (out : UInt8 → Option Text) (s slot : UInt8) :
    highlightSlot highlight recordId out s slot =
      (if slot = s then kept (highlight (packed recordId (Checked.ofU8 slot))) else none).or
        (out slot) := by
  rw [highlightSlot]
  by_cases heq : slot = s
  · subst heq
    rw [if_pos rfl]
    cases highlight (packed recordId (Checked.ofU8 slot)) with
    | ok answer =>
      cases answer with
      | none => rfl
      | some marked => by_cases hopen : OPEN ∈ marked <;> simp [kept, hopen]
    | err e => rfl
    | panic => rfl
  · rw [if_neg heq, Option.none_or]
    cases highlight (packed recordId (Checked.ofU8 s)) with
    | ok answer =>
      cases answer with
      | none => rfl
      | some marked => by_cases hopen : OPEN ∈ marked <;> simp [hopen, heq]
    | err e => rfl
    | panic => rfl

theorem highlightsFor_apply (highlight : Int64 → Outcome SearchError (Option Text))
    (recordId : Int64) (slots : List UInt8) (slot : UInt8) :
    highlightsFor highlight recordId slots slot =
      if slot ∈ slots then kept (highlight (packed recordId (Checked.ofU8 slot))) else none := by
  have hloop : ∀ out : UInt8 → Option Text,
      slots.foldl (highlightSlot highlight recordId) out slot =
        (if slot ∈ slots then kept (highlight (packed recordId (Checked.ofU8 slot))) else none).or
          (out slot) := by
    induction slots with
    | nil => simp
    | cons s slots ih =>
      intro out
      rw [List.foldl_cons, ih, highlightSlot_apply]
      by_cases heq : slot = s
      · by_cases hmem : slot ∈ slots
        · rw [if_pos hmem, if_pos heq, if_pos (List.mem_cons_of_mem s hmem)]
          cases kept (highlight (packed recordId (Checked.ofU8 slot))) <;> rfl
        · rw [if_neg hmem, if_pos heq, if_pos (List.mem_cons.mpr (.inl heq)), Option.none_or]
      · rw [if_neg heq, Option.none_or]
        simp only [List.mem_cons, heq, false_or]
  rw [highlightsFor, hloop, Option.or_none]

theorem ofU8_injective {s t : UInt8} (h : Checked.ofU8 s = Checked.ofU8 t) : s = t := by
  have hv := congrArg Int64.toInt h
  rw [Checked.toInt_ofU8, Checked.toInt_ofU8] at hv
  exact UInt8.toNat_inj.mp (by omega)

/-- The Flutter sample keeps the same highlights, under the numbers of the slots. -/
theorem Flutter.highlightsFor_ok {highlight : Int64 → Outcome SearchError (Option Text)}
    {recordId : Int64} {slots : List UInt8}
    (h : ∀ slot ∈ slots, ∃ marked,
      highlight (packed recordId (Checked.ofU8 slot)) = .ok (some marked)) :
    ∃ out, Flutter.highlightsFor highlight recordId (slots.map Checked.ofU8) (fun _ => none) =
        .ok out ∧
      ∀ slot, out (Checked.ofU8 slot) = Sample.highlightsFor highlight recordId slots slot := by
  have hloop : ∀ (out : Int64 → Option Text) (out' : UInt8 → Option Text),
      (∀ slot, out (Checked.ofU8 slot) = out' slot) →
      ∃ all, Flutter.highlightsFor highlight recordId (slots.map Checked.ofU8) out = .ok all ∧
        ∀ slot, all (Checked.ofU8 slot) =
          slots.foldl (highlightSlot highlight recordId) out' slot := by
    induction slots with
    | nil => exact fun out out' hout => ⟨out, rfl, hout⟩
    | cons s slots ih =>
      intro out out' hout
      rw [List.forall_mem_cons] at h
      obtain ⟨marked, hmarked⟩ := h.1
      have hstep : highlightSlot highlight recordId out' s =
          if marked.contains OPEN then Function.update out' s (some marked) else out' := by
        rw [highlightSlot, hmarked]
      rw [List.map_cons, Flutter.highlightsFor, List.foldl_cons, hstep, hmarked]
      refine ih h.2 _ _ fun slot => ?_
      by_cases hopen : marked.contains OPEN = true
      · rw [if_pos hopen, if_pos hopen]
        by_cases heq : slot = s
        · rw [heq, Function.update_self, Function.update_self]
        · rw [Function.update_of_ne (fun hs => heq (ofU8_injective hs)),
            Function.update_of_ne heq, hout]
      · rw [if_neg hopen, if_neg hopen]
        exact hout slot
  exact hloop _ _ fun _ => rfl

/-! ### What is drawn of a matched field -/

section

variable {env : Env} {e : SearchEngine} {query : Text} {db : Db} {bits : UInt8}

theorem searchRecords_slots (hf : env.sqlite.rowFault = none) (hs : Synced db)
    (hb : ValidBits bits) {limit perRecord : UInt32} {hits : List RecordHit}
    (hsearch : ((searchRecords env e query limit perRecord).run
      (quiet db none bits false)).1 = .ok hits) {hit : RecordHit} (hhit : hit ∈ hits) {slot : UInt8}
    (hslot : slot ∈ hit.matchedSlots) :
    ∃ (id : Int64) (en : Entry), db.entries[id]? = some en ∧ Found env e query en ∧
      hit.recordId = shrOf bits id ∧ slot = Checked.asU8 (id &&& maskOf bits) := by
  obtain ⟨hreject, hfound⟩ := matchedRows_spec env e query hs
  rw [searchRecords_run hf hb] at hsearch
  by_cases h : Rejected env e query
  · obtain ⟨err, herr⟩ := hreject h
    rw [herr] at hsearch
    cases hsearch
  · obtain ⟨rows, hrows, hids⟩ := hfound h
    rw [hrows] at hsearch
    simp only [Except.map, outcome, Outcome.ok.injEq] at hsearch
    subst hsearch
    -- the slot comes from one of the rows that were read
    have hread : ((limited (saturatingMul limit (atLeastOne perRecord)) rows).map
        (decoded bits)).Pairwise fun a b => a.2.2 ≤ b.2.2 := by
      rw [List.pairwise_map]
      exact (matchedRows_ok hs hrows).1.sublist (List.take_sublist _ _)
    have hslots := collapse_slots hread (List.mem_of_mem_take hhit)
    obtain ⟨d, hd, rfl⟩ := List.mem_map.mp (hslots.mem_iff.mp hslot)
    obtain ⟨hd, hrecord⟩ := List.mem_filter.mp hd
    obtain ⟨row, hrow, rfl⟩ := List.mem_map.mp hd
    obtain ⟨en, hen, hmatch⟩ := (hids row.id).mp (List.mem_map_of_mem (List.mem_of_mem_take hrow))
    exact ⟨row.id, en, hen, hmatch, (of_decide_eq_true hrecord).symm, rfl⟩

end

/-- How the samples draw a field with the raw text `raw`: its own characters without the
sentinels, and of a text that has none the matched regions are emphasized. -/
structure FieldDrawn (c : Ios.Characters) (raw norm needle : Text) (normalize : Text → Text)
    (highlight : Option Text) : Prop where
  shown : ∀ marked, highlight = some marked → ∃ drawn, Draws c marked drawn ∧
    drawn.map Prod.fst = raw.filter (fun ch => decide (ch ≠ OPEN ∧ ch ≠ CLOSE)) ∧
    (Free OPEN CLOSE raw → drawn = inRanges (regions raw norm needle normalize) 0 raw)
  present : highlight.isSome ↔ OPEN ∈ raw ∨ needle <:+: norm

theorem fieldDrawn_kept (c : Ios.Characters) {raw norm needle out : Text}
    {normalize : Text → Text} (hne : needle ≠ [])
    (hout : markRanges raw [OPEN] [CLOSE] 0 (regions raw norm needle normalize) = some out) :
    FieldDrawn c raw norm needle normalize (kept (.ok (some out))) := by
  have horder := regions_inOrder raw norm needle normalize
  have hbound := regions_boundary raw norm needle normalize
  obtain ⟨pieces, tail, hmarks⟩ := marks_of_markRanges [OPEN] [CLOSE] horder hbound
  rw [hout] at hmarks
  constructor
  · intro marked hmarked
    have heq : out = marked := by
      rw [kept, Option.ite_none_right_eq_some] at hmarked
      exact Option.some.inj hmarked.2
    subst heq
    refine ⟨emphasis out, draws_emphasis c out, marks_filter hmarks, fun hfree => ?_⟩
    obtain ⟨t, rfl, hdrawn⟩ := markRanges_emphasis List.nil_prefix horder hbound hfree hout
    exact hdrawn
  · rw [← regions_ne_nil_iff hne raw norm normalize, ← marks_open hmarks, kept]
    by_cases hopen : OPEN ∈ out <;> simp [hopen]

/-- The answers of an engine to the highlights that a sample asks for. -/
def answers (env : Env) (file : Db) (o : OpenEngine) (query : Text) (id : Int64) :
    Outcome SearchError (Option Text) :=
  ((highlight env o.engine query id [OPEN] [CLOSE]).run (quiet file none o.fieldBits false)).1

/-- After every run, the samples draw each matched field of each record found as the text that
was indexed, with the engine's regions emphasized; on Android the Flutter sample does so for
slots below 128. -/
theorem samples_draw_matches (env : Env) (hf : env.sqlite.rowFault = none) (c : Ios.Characters)
    (actions : List Action) (o : OpenEngine) (ho : (Host.run env {} actions).opened = some o)
    (hbits : o.fieldBits = DEFAULT_FIELD_BITS) (query : Text) (limit perRecord : UInt32)
    (hits : List RecordHit) (hsearch : ((searchRecords env o.engine query limit perRecord).run
      (quiet (Host.run env {} actions).file none o.fieldBits false)).1 = .ok hits)
    (hit : RecordHit) (hhit : hit ∈ hits) :
    let highlight := answers env (Host.run env {} actions).file o query
    let highlights := highlightsFor highlight hit.recordId hit.matchedSlots
    (∀ p, p = .ios ∨ (∀ slot ∈ hit.matchedSlots, slot.toNat < 128) →
        ∃ out, Flutter.highlightsFor highlight hit.recordId (dartRecordHit p hit).matchedSlots
            (fun _ => none) = .ok out ∧
          ∀ slot, out (Checked.ofU8 slot) = highlights slot) ∧
      (∀ slot, slot ∉ hit.matchedSlots → highlights slot = none) ∧
      ∀ slot ∈ hit.matchedSlots, ∃ en raw,
        (Host.run env {} actions).file.entries[packed hit.recordId (Checked.ofU8 slot)]? = some en ∧
        en.raw = some raw ∧ en.norm = o.engine.normalizer env raw ∧
        Found env o.engine query en ∧
        FieldDrawn c raw en.norm (o.engine.normalizer env query) (o.engine.normalizer env)
          (highlights slot) := by
  intro highlight highlights
  have hinv := index_invariant env actions
  have hfield : ∀ slot ∈ hit.matchedSlots, ∃ en raw out,
      (Host.run env {} actions).file.entries[packed hit.recordId (Checked.ofU8 slot)]? = some en ∧
      en.raw = some raw ∧ en.norm = o.engine.normalizer env raw ∧ Found env o.engine query en ∧
      highlight (packed hit.recordId (Checked.ofU8 slot)) = .ok (some out) ∧
      markRanges raw [OPEN] [CLOSE] 0 (regions raw en.norm (o.engine.normalizer env query)
        (o.engine.normalizer env)) = some out := by
    intro slot hslot
    obtain ⟨id, en, hen, hmatch, hrecord, hid⟩ := searchRecords_slots hf hinv.synced
      (hinv.engine o ho).2.2 hsearch hhit hslot
    rw [hbits] at hrecord hid
    have hpacked : packed hit.recordId (Checked.ofU8 slot) = id := by
      rw [hrecord, hid, packed_decoded]
    obtain ⟨raw, hraw, hnorm⟩ := hinv.accepted o ho id en hen
    obtain ⟨out, hout, hmarks⟩ := highlight_marks hen hraw hmatch.1 [OPEN] [CLOSE]
    rw [hpacked]
    exact ⟨en, raw, out, hen, hraw, hnorm, hmatch, hout, hmarks⟩
  refine ⟨fun p hp => ?_, fun slot hslot => ?_, fun slot hslot => ?_⟩
  · have hnumbers : (dartRecordHit p hit).matchedSlots = hit.matchedSlots.map Checked.ofU8 := by
      refine List.map_congr_left fun slot hslot => ?_
      exact (slotNumber_eq_iff p slot).mpr (hp.imp_right fun h => h slot hslot)
    rw [hnumbers]
    refine Flutter.highlightsFor_ok fun slot hslot => ?_
    obtain ⟨_, _, out, _, _, _, _, hout, _⟩ := hfield slot hslot
    exact ⟨out, hout⟩
  · show highlightsFor highlight hit.recordId hit.matchedSlots slot = none
    rw [highlightsFor_apply, if_neg hslot]
  · obtain ⟨en, raw, out, hen, hraw, hnorm, hmatch, hout, hmarks⟩ := hfield slot hslot
    refine ⟨en, raw, hen, hraw, hnorm, hmatch, ?_⟩
    show FieldDrawn c raw en.norm _ _ (highlightsFor highlight hit.recordId hit.matchedSlots slot)
    rw [highlightsFor_apply, if_pos hslot, hout]
    exact fieldDrawn_kept c hmatch.1 hmarks

/-! ### A record with one matched field -/

def towerActions : List Action :=
  [.reopen (.withConfig { normalize := .loose, strategy := .substring, fieldBits := none }),
    .call (.indexRecord 1 [{ slot := 0, text := ['B', 'A', 'r'] }, { slot := 1, text := ['x'] }])]

def towerHost : Host := Host.run .ascii {} towerActions

def towerEngine : OpenEngine where
  engine := { options := NormalizeProfile.loose.options, strategy := .substring }
  fieldBits := DEFAULT_FIELD_BITS

theorem towerHost_answers :
    towerHost.opened = some towerEngine ∧
    ((searchRecords .ascii towerEngine.engine ['a'] 50 2).run
      (quiet towerHost.file none DEFAULT_FIELD_BITS false)).1 =
      .ok [{ recordId := 1, score := 0, matchedSlots := [0] }] ∧
    answers .ascii towerHost.file towerEngine ['a'] (packed 1 0) =
      .ok (some ['B', OPEN, 'A', CLOSE, 'r']) := by
  decide +kernel

/-- Every character is a cluster, as in a string of ASCII letters. -/
def singleCharacters : Ios.Characters where
  characters s := s.map fun c => [c]
  flatten s := by
    induction s with
    | nil => rfl
    | cons c s ih => rw [List.map_cons, List.flatten_cons, ih, List.singleton_append]
  control s g hg c hc _ _ _ := by
    obtain ⟨d, _, rfl⟩ := List.mem_map.mp hg
    rw [List.mem_singleton.mp hc]

theorem samples_draw_matches_tower :
    answers .ascii towerHost.file towerEngine ['a'] (packed 1 0) =
        .ok (some ['B', OPEN, 'A', CLOSE, 'r']) ∧
      ∃ en raw, towerHost.file.entries[packed 1 0]? = some en ∧ en.raw = some raw ∧
      FieldDrawn singleCharacters raw en.norm (towerEngine.engine.normalizer .ascii ['a'])
        (towerEngine.engine.normalizer .ascii)
        (highlightsFor (answers .ascii towerHost.file towerEngine ['a']) 1 [0] 0) := by
  have hf : Env.ascii.sqlite.rowFault = none := rfl
  obtain ⟨hopened, hsearch, hanswer⟩ := towerHost_answers
  obtain ⟨_, _, hall⟩ := samples_draw_matches .ascii hf singleCharacters towerActions towerEngine
    hopened rfl ['a'] 50 2 _ hsearch _ (List.mem_singleton_self _)
  obtain ⟨en, raw, hen, hraw, _, _, hdrawn⟩ := hall 0 (List.mem_singleton_self _)
  exact ⟨hanswer, en, raw, hen, hraw, hdrawn⟩

end Unfydqry.Sample
