import Unfydqry.DocumentPages
import Unfydqry.Engine.ReadEffect
import Unfydqry.Engine.Regions
import Unfydqry.PrefixSuffix

/-! # Highlighting what a search finds

`highlight` looks for the normalized query as one run of the stored text. Every strategy
but `AllTerms` finds it there; `AllTerms` finds its words, in any order and apart. -/

namespace Unfydqry

open LockedStore Prog SearchEngine Search Highlight

namespace Highlight

theorem regions_ne_nil_iff {needle : Text} (hne : needle ≠ []) (raw norm : Text)
    (normalize : Text → Text) :
    regions raw norm needle normalize ≠ [] ↔ needle <:+: norm := by
  rw [← matchRanges_ne_nil_iff hne, regions]
  cases matchRanges needle norm with
  | nil => simp [clampRanges]
  | cons r ranges => simp [clampRanges]

end Highlight

namespace SearchEngine

variable {env : Env} {e : SearchEngine} {query : Text} {db : Db} {bits : UInt8}

theorem search_found (hf : env.sqlite.rowFault = none) (hs : Synced db) {n : UInt32}
    {hits : List Hit}
    (hsearch : ((search env e query n).run (quiet db none bits false)).1 = .ok hits) {hit : Hit}
    (hhit : hit ∈ hits) : ∃ en, db.entries[hit.id]? = some en ∧ Found env e query en := by
  obtain ⟨hreject, hfound⟩ := matchedRows_spec env e query hs
  rw [search_run hf] at hsearch
  by_cases h : Rejected env e query
  · obtain ⟨err, herr⟩ := hreject h
    rw [herr] at hsearch
    cases hsearch
  · obtain ⟨rows, hrows, hids⟩ := hfound h
    rw [hrows] at hsearch
    simp only [Except.map, outcome, Outcome.ok.injEq] at hsearch
    subst hsearch
    exact (hids hit.id).mp (List.mem_map_of_mem (List.mem_of_mem_take hhit))

theorem highlight_marks {id : Int64} {en : Entry} {raw : Text} (hen : db.entries[id]? = some en)
    (hraw : en.raw = some raw) (hq : e.normalizer env query ≠ []) (before after : Text) :
    ∃ out, ((highlight env e query id before after).run (quiet db none bits false)).1 =
        .ok (some out) ∧
      markRanges raw before after 0
        (regions raw en.norm (e.normalizer env query) (e.normalizer env)) = some out := by
  obtain ⟨out, hout⟩ := highlightRaw_some raw en.norm (e.normalizer env query) before after
    (e.normalizer env)
  have hne : ¬ (e.normalizer env query).isEmpty = true := mt List.isEmpty_iff.mp hq
  refine ⟨out, ?_, by rw [← highlightRaw_eq hq, hout]⟩
  rw [highlight_run, if_neg hne, hen]
  simp only [marked, hraw, hout]

/-- The strategies whose matches hold the query in one run: the containments when they are
literal, the range scans when the text does not overrun the query. -/
def OneRun (sq : Sqlite) (q v : Text) : SearchStrategy → Prop
  | .trigramBm25 | .substring => FoundIn sq q v → q <:+: v
  | .prefixMatch => ¬ Overrun q v
  | .suffixMatch => ¬ Overrun (reverseChars q) (reverseChars v)
  | _ => False

theorem infix_of_oneRun {sq : Sqlite} {q : Text} {en : Entry} {st : SearchStrategy}
    (hrev : en.normRev = some (reverseChars en.norm)) (hmatch : Matches sq q en st)
    (hrun : OneRun sq q en.norm st) : q <:+: en.norm := by
  cases st with
  | trigramBm25 => exact hrun hmatch
  | substring => exact hrun hmatch
  | prefixMatch => exact (((inRange_iff q en.norm).mp hmatch).resolve_right hrun).isInfix
  | suffixMatch =>
    rw [Matches, hrev] at hmatch
    have hstart := ((inRange_iff _ _).mp hmatch).resolve_right hrun
    exact (List.reverse_prefix.mp hstart).isInfix
  | allTerms | fuzzyTrigram | levenshtein | damerauLevenshtein => exact hrun.elim

/-- A document that a search returned is highlighted, with a marked region just when its
normalized text holds the whole normalized query in one run. -/
theorem found_highlighted_iff (env : Env) (hf : env.sqlite.rowFault = none) (actions : List Action)
    (o : OpenEngine) (ho : (Host.run env {} actions).opened = some o) (query : Text) (n : UInt32)
    (hits : List Hit) (hsearch : ((search env o.engine query n).run
      (quiet (Host.run env {} actions).file none o.fieldBits false)).1 = .ok hits)
    (hit : Hit) (hhit : hit ∈ hits) (before after : Text) :
    ∃ en raw out, (Host.run env {} actions).file.entries[hit.id]? = some en ∧ en.raw = some raw ∧
      ((highlight env o.engine query hit.id before after).run
        (quiet (Host.run env {} actions).file none o.fieldBits false)).1 = .ok (some out) ∧
      markRanges raw before after 0 (regions raw en.norm (o.engine.normalizer env query)
        (o.engine.normalizer env)) = some out ∧
      (regions raw en.norm (o.engine.normalizer env query) (o.engine.normalizer env) ≠ [] ↔
        o.engine.normalizer env query <:+: en.norm) ∧
      (OneRun env.sqlite (o.engine.normalizer env query) en.norm o.engine.strategy →
        o.engine.normalizer env query <:+: en.norm) := by
  have hinv := index_invariant env actions
  obtain ⟨en, hen, hq, hmatch⟩ := search_found hf hinv.synced hsearch hhit
  obtain ⟨raw, hraw, hnorm⟩ := hinv.accepted o ho hit.id en hen
  obtain ⟨out, hout, hmarks⟩ := highlight_marks hen hraw hq before after
  exact ⟨en, raw, out, hen, hraw, hout, hmarks, regions_ne_nil_iff hq raw en.norm _,
    infix_of_oneRun (hinv.reversed hit.id en hen) hmatch⟩

/-! ### Two words the other way round -/

def reorderedActions : List Action :=
  [.reopen (.withConfig { normalize := .loose, strategy := .allTerms, fieldBits := none }),
    .call (.index 1 ['b', ' ', 'a'])]

def reorderedHost : Host := Host.run .ascii {} reorderedActions

def reorderedEngine : SearchEngine :=
  { options := NormalizeProfile.loose.options, strategy := .allTerms }

theorem reorderedHost_answers :
    reorderedHost.opened = some { engine := reorderedEngine, fieldBits := DEFAULT_FIELD_BITS } ∧
    reorderedEngine.options.lowercase = true ∧
    ((search .ascii reorderedEngine ['a', ' ', 'b'] 1).run
      (quiet reorderedHost.file none DEFAULT_FIELD_BITS false)).1 =
      .ok [{ id := 1, score := 0 }] ∧
    ((highlight .ascii reorderedEngine ['a', ' ', 'b'] 1 ['['] [']']).run
      (quiet reorderedHost.file none DEFAULT_FIELD_BITS false)).1 = .ok (some ['b', ' ', 'a']) ∧
    reorderedHost.file.entries[(1 : Int64)]?.map (fun en =>
      regions ((en.raw).getD []) en.norm (reorderedEngine.normalizer .ascii ['a', ' ', 'b'])
        (reorderedEngine.normalizer .ascii)) = some [] := by
  decide +kernel

theorem found_not_highlighted :
    ¬ ∀ (actions : List Action) (o : OpenEngine) (query : Text) (n : UInt32) (hits : List Hit)
      (hit : Hit) (en : Entry) (raw : Text), (Host.run .ascii {} actions).opened = some o →
      o.engine.options.lowercase = true →
      o.engine.strategy ∈ [.trigramBm25, .substring, .prefixMatch, .suffixMatch, .allTerms] →
      ((search .ascii o.engine query n).run
        (quiet (Host.run .ascii {} actions).file none o.fieldBits false)).1 = .ok hits →
      hit ∈ hits → (Host.run .ascii {} actions).file.entries[hit.id]? = some en →
      en.raw = some raw →
      regions raw en.norm (o.engine.normalizer .ascii query) (o.engine.normalizer .ascii) ≠ [] := by
  intro h
  obtain ⟨hopened, hlower, hfound, _, hnone⟩ := reorderedHost_answers
  obtain ⟨en, hen, hregions⟩ := Option.map_eq_some_iff.mp hnone
  have hinv := index_invariant .ascii reorderedActions
  obtain ⟨raw, hraw, _⟩ := hinv.accepted _ hopened 1 en hen
  rw [hraw, Option.getD_some] at hregions
  exact h reorderedActions _ ['a', ' ', 'b'] 1 _ { id := 1, score := 0 } en raw hopened hlower
    (by simp [reorderedEngine]) hfound (List.mem_singleton_self _) hen hraw hregions

theorem found_highlighted_reordered :
    ∃ en raw out, reorderedHost.file.entries[(1 : Int64)]? = some en ∧ en.raw = some raw ∧
      ((highlight .ascii reorderedEngine ['a', ' ', 'b'] 1 ['['] [']']).run
        (quiet reorderedHost.file none DEFAULT_FIELD_BITS false)).1 = .ok (some out) ∧
      markRanges raw ['['] [']'] 0 (regions raw en.norm
        (reorderedEngine.normalizer .ascii ['a', ' ', 'b']) (reorderedEngine.normalizer .ascii)) =
          some out ∧
      (regions raw en.norm (reorderedEngine.normalizer .ascii ['a', ' ', 'b'])
          (reorderedEngine.normalizer .ascii) ≠ [] ↔
        reorderedEngine.normalizer .ascii ['a', ' ', 'b'] <:+: en.norm) := by
  have hf : Env.ascii.sqlite.rowFault = none := rfl
  obtain ⟨hopened, _, hfound, _⟩ := reorderedHost_answers
  obtain ⟨en, raw, out, hen, hraw, hout, hmarks, hiff, _⟩ := found_highlighted_iff .ascii hf
    reorderedActions _ hopened ['a', ' ', 'b'] 1 _ hfound { id := 1, score := 0 }
    (List.mem_singleton_self _) ['['] [']']
  exact ⟨en, raw, out, hen, hraw, hout, hmarks, hiff⟩

end SearchEngine

end Unfydqry
