import Unfydqry.Engine.RecordEffect

/-! # What the reading calls answer when no statement fails -/

namespace Unfydqry.SearchEngine

open LockedStore Prog

/-- The answer of `highlight` from the entry it finds, for a query that is not empty. -/
def marked (env : Env) (e : SearchEngine) (q before after : Text) :
    Option Entry → Outcome SearchError (Option Text)
  | none => .ok none
  | some en =>
    let text :=
      match en.raw with
      | some raw => Highlight.highlightRaw raw en.norm q before after (e.normalizer env)
      | none => Highlight.highlightOccurrences en.norm q before after
    match text with
    | some text => .ok (some text)
    | none => .panic

variable (env : Env) (e : SearchEngine) (db : Db) {bits : UInt8}

theorem eval_highlight (bits : UInt8) (query : Text) (id : Int64) (before after : Text) :
    ∃ held, (highlight env e query id before after).eval (quiet db none bits false) =
      (if (e.normalizer env query).isEmpty then .ok none
        else marked env e (e.normalizer env query) before after db.entries[id]?,
        quiet db none bits held) := by
  unfold highlight
  by_cases hq : (e.normalizer env query).isEmpty = true
  · exact ⟨false, by simp only [hq, if_true, eval_pure]⟩
  · refine ⟨false, ?_⟩
    simp only [if_neg hq, lockedConn, Sql.selectNormRaw, eval_bind, eval_acquire_quiet, andThen_ok,
      Sql.eval_query, eval_release_quiet, Option.getD_none]
    cases db.entries[id]? with
    | none => rfl
    | some en =>
      obtain ⟨norm, normRev, raw⟩ := en
      cases raw with
      | none =>
        simp only [Option.map_some, map_eq_bind, eval_bind, marked]
        cases Highlight.highlightOccurrences norm (e.normalizer env query) before after <;> rfl
      | some raw =>
        simp only [Option.map_some, map_eq_bind, eval_bind, marked]
        cases Highlight.highlightRaw raw norm (e.normalizer env query) before after
          (e.normalizer env) <;> rfl

theorem highlight_run (bits : UInt8) (query : Text) (id : Int64) (before after : Text) :
    ((highlight env e query id before after).run (quiet db none bits false)).1 =
      if (e.normalizer env query).isEmpty then .ok none
      else marked env e (e.normalizer env query) before after db.entries[id]? := by
  obtain ⟨held, h⟩ := eval_highlight env e db bits query id before after
  rw [Prog.run, h]

theorem highlightRecord_run (hb : ValidBits bits) (query : Text) {r : Int64} {slot : UInt8}
    (hr : RecordOk bits r) (hs : (slot.toNat : ℤ) < 2 ^ bits.toNat) (before after : Text) :
    ((highlightRecord env e query r slot before after).run (quiet db none bits false)).1 =
      if (e.normalizer env query).isEmpty then .ok none
      else marked env e (e.normalizer env query) before after db.entries[packId bits r slot]? := by
  obtain ⟨held, h⟩ := eval_highlight env e db bits query (packId bits r slot) before after
  have hcap : ¬ Checked.ofU8 slot ≥ shlOf bits 1 := by
    rw [ofU8_lt_cap hb, not_not]
    exact hs
  rw [packId] at h ⊢
  simp only [highlightRecord, Prog.run, eval_bind, eval_checkRecordId_quiet _ _ _ hb, if_pos hr,
    andThen_ok, shl_some hb, eval_trap_some, if_neg hcap, h]

theorem containsRecord_run (hb : ValidBits bits) {r : Int64} (hr : RecordOk bits r) :
    ((containsRecord r).run (quiet db none bits false)).1 =
      .ok (db.entries.keys.any (Sql.between (shlOf bits r) (hiOf bits r))) := by
  simp only [containsRecord, Prog.run, eval_bind, eval_checkRecordId_quiet _ _ _ hb, if_pos hr,
    andThen_ok, eval_recordIdRange_quiet _ _ _ hb, lockedConn, eval_acquire_quiet,
    Sql.existsEntryBetween, Sql.eval_query]

end Unfydqry.SearchEngine
