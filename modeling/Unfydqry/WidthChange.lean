import Unfydqry.Engine.ReadEffect
import Unfydqry.RecordPages
import Unfydqry.Repack
import Unfydqry.Search.Renumbered

/-! # A change of `field_bits` seen through the record calls

Re-packing renumbers the ids in order, and a re-packed id decodes to the record and slot
it had. So the record calls answer as before. -/

namespace Unfydqry

open LockedStore Prog SearchEngine Search

namespace SearchEngine

variable {old new : UInt8} (ho : ValidBits old) (hn : ValidBits new)

include ho hn

/-- Re-packing keeps the order of the ids it can re-pack. -/
theorem repacked_lt_iff {a b : Int64} (ha : Repackable old new a) (hb : Repackable old new b) :
    repacked old new a < repacked old new b ↔ a < b := by
  have hsa := ha.2.1
  have hsb := hb.2.1
  rw [Int64.lt_iff_toInt_lt, slot_toInt ho, shlOne_toInt hn] at hsa hsb
  have ha0 := Int.emod_nonneg a.toInt (pow_pos old).ne'
  have hb0 := Int.emod_nonneg b.toInt (pow_pos old).ne'
  have hamod := Int.emod_lt_of_pos a.toInt (pow_pos old)
  have hbmod := Int.emod_lt_of_pos b.toInt (pow_pos old)
  have hadiv := Int.mul_ediv_add_emod a.toInt (2 ^ old.toNat)
  have hbdiv := Int.mul_ediv_add_emod b.toInt (2 ^ old.toNat)
  rw [Int64.lt_iff_toInt_lt, Int64.lt_iff_toInt_lt, repacked_toInt ho hn ha,
    repacked_toInt ho hn hb]
  -- both orders compare records first, then slots
  have hlex : ∀ {p ra rb sa sb : ℤ}, 0 ≤ sa → sa < p → 0 ≤ sb → sb < p →
      (ra * p + sa < rb * p + sb ↔ ra < rb ∨ ra = rb ∧ sa < sb) := by
    intro p ra rb sa sb h0 h1 h2 h3
    constructor
    · intro h
      rcases lt_trichotomy ra rb with hlt | heq | hgt
      · exact .inl hlt
      · subst heq
        exact .inr ⟨rfl, by linarith⟩
      · nlinarith
    · rintro (h | ⟨rfl, h⟩)
      · nlinarith
      · linarith
  rw [hlex ha0 hsa hb0 hsb, ← hlex ha0 hamod hb0 hbmod]
  constructor
  · intro h
    linarith
  · intro h
    linarith

theorem compare_repacked {a b : Int64} (ha : Repackable old new a) (hb : Repackable old new b) :
    compare (repacked old new a) (repacked old new b) = compare a b := by
  have heq : repacked old new a = repacked old new b ↔ a = b :=
    ⟨repacked_injective ho hn ha hb, fun h => by rw [h]⟩
  change compareOfLessAndEq _ _ = compareOfLessAndEq _ _
  simp only [compareOfLessAndEq, repacked_lt_iff ho hn ha hb, heq]

theorem shrOf_repacked {id : Int64} (h : Repackable old new id) :
    shrOf new (repacked old new id) = shrOf old id := by
  rw [← Int64.toInt_inj, shrOf_toInt hn, shrOf_toInt ho, (repacked_decode ho hn h).1]

theorem slot_repacked {id : Int64} (h : Repackable old new id) :
    repacked old new id &&& maskOf new = id &&& maskOf old := by
  rw [← Int64.toInt_inj, slot_toInt hn, slot_toInt ho, (repacked_decode ho hn h).2]

theorem decoded_renumbered {h : Hit} (hok : Repackable old new h.id) :
    decoded new (h.renumbered (repacked old new)) = decoded old h := by
  simp only [decoded, Hit.renumbered, shrOf_repacked ho hn hok, slot_repacked ho hn hok]

section File

variable {env : Env} {db : Db} (hs : Synced db)
  (hok : ∀ (id : Int64) en, db.entries[id]? = some en → Repackable old new id)
  (hrev : ∀ (id : Int64) en, db.entries[id]? = some en →
    en.normRev = some (reverseChars en.norm))

include hs hok hrev

theorem renumbered_repacked : db.Renumbered (repacked old new) (db.repacked env old new) := by
  have hrow : ∀ row ∈ db.rows env, Repackable old new row.1 := by
    rintro ⟨id, norm, raw⟩ hmem
    obtain ⟨en, hen, _⟩ := (mem_rows env db id norm raw).mp hmem
    exact hok id en hen
  have hfit : ∀ r ∈ db.entries.toList, Repackable old new r.1 := fun r hr =>
    hok r.1 r.2 ((Table.mem_toList _ _ _).mp hr)
  have horder : Table.KeepsOrder (repacked old new) db.entries := fun r hr s hs =>
    compare_repacked ho hn (hfit r hr) (hfit s hs)
  have hentries : Table.Renamed (repacked old new) db.entries
      (db.repacked env old new).entries := by
    refine Table.renamed_of_perm horder ?_
    have hnodup : (((db.repackedRows env old new).map Db.rowEntry).map Prod.fst).Nodup := by
      have h := repackedRows_nodup env db ho hn hrow
      rwa [List.map_map]
    refine (Table.toList_insertRows_perm hnodup).trans ?_
    have hscan := env.sqlite.scan_perm "SELECT id, norm, raw FROM entries" [] db.entries
    have hmap : ((db.repackedRows env old new).map Db.rowEntry).Perm
        (db.entries.toList.map fun r => Db.rowEntry (repacked old new r.1, r.2.norm, r.2.raw)) := by
      rw [Db.repackedRows, Db.rows, List.map_map, List.map_map]
      exact hscan.map _
    refine hmap.trans (List.Perm.of_eq (List.map_congr_left fun r hr => ?_))
    rw [Db.rowEntry, ← hrev r.1 r.2 ((Table.mem_toList _ _ _).mp hr)]
  refine ⟨hentries, ?_, horder, ?_⟩
  · rw [Table.Renamed, docs_toList (repacked_synced env db old new), hentries, docs_toList hs,
      List.map_map, List.map_map]
    rfl
  · intro r hr s hs'
    rw [docs_toList hs] at hr hs'
    obtain ⟨x, hx, rfl⟩ := List.mem_map.mp hr
    obtain ⟨y, hy, rfl⟩ := List.mem_map.mp hs'
    exact horder x hx y hy

omit ho hn hrev in
theorem matched_repackable {e : SearchEngine} {query : Text} {rows : List Hit}
    (hrows : matchedRows env e query db = .ok rows) : ∀ h ∈ rows, Repackable old new h.id := by
  intro h hh
  have hstored := (matchedRows_ok hs hrows).2
  obtain ⟨r, hr, heq⟩ := List.mem_map.mp (hstored.subset (List.mem_map_of_mem hh))
  rw [← heq]
  exact hok r.1 r.2 ((Table.mem_toList _ _ _).mp hr)

variable (hsq : env.sqlite.OrderOnly)

include hsq

theorem matchedRows_repacked (e : SearchEngine) (query : Text) :
    matchedRows env e query (db.repacked env old new) =
      (matchedRows env e query db).map (List.map (Hit.renumbered (repacked old new))) := by
  unfold matchedRows
  split
  · rfl
  · exact strategyRows_renumbered (renumbered_repacked ho hn hs hok hrev) hsq hs _ _

theorem searchRecords_repacked (hf : env.sqlite.rowFault = none) (e : SearchEngine) (query : Text)
    (limit perRecord : UInt32) :
    ((searchRecords env e query limit perRecord).run
        (quiet (db.repacked env old new) none new false)).1 =
      ((searchRecords env e query limit perRecord).run (quiet db none old false)).1 := by
  obtain ⟨_, hafter⟩ := eval_searchRecords hf hn e query (db.repacked env old new) limit perRecord
  obtain ⟨_, hbefore⟩ := eval_searchRecords hf ho e query db limit perRecord
  rw [Prog.run, Prog.run, hafter, hbefore]
  dsimp only
  rw [matchedRows_repacked ho hn hs hok hrev hsq]
  cases hrows : matchedRows env e query db with
  | error err => rfl
  | ok rows =>
    have hfit := matched_repackable hs hok hrows
    simp only [Except.map, recordsOf, limited]
    rw [← List.map_take, List.map_map]
    congr 4
    refine List.map_congr_left fun h hh => ?_
    exact decoded_renumbered ho hn (hfit h (List.mem_of_mem_take hh))

theorem matchCountRecords_repacked (hf : env.sqlite.rowFault = none) (e : SearchEngine)
    (query : Text) (perRecord : UInt32) :
    ((matchCountRecords env e query perRecord).run
        (quiet (db.repacked env old new) none new false)).1 =
      ((matchCountRecords env e query perRecord).run (quiet db none old false)).1 := by
  rw [matchCountRecords_answer hf hn, matchCountRecords_answer hf ho,
    matchedRows_repacked ho hn hs hok hrev hsq]
  cases hrows : matchedRows env e query db with
  | error err => rfl
  | ok rows =>
    have hfit := matched_repackable hs hok hrows
    simp only [Except.map, limited]
    rw [← List.map_take, List.map_map]
    congr 4
    refine List.map_congr_left fun h hh => ?_
    exact shrOf_repacked ho hn (hfit h (List.mem_of_mem_take hh))

omit hsq

theorem lookup_repacked {r : Int64} {slot : UInt8} (hr : RecordOk old r) (hr' : RecordOk new r)
    (hslot : (slot.toNat : ℤ) < 2 ^ old.toNat) (hslot' : (slot.toNat : ℤ) < 2 ^ new.toNat) :
    (db.repacked env old new).entries[packId new r slot]? = db.entries[packId old r slot]? := by
  have hren : Table.Renamed (repacked old new) db.entries (db.repacked env old new).entries :=
    (renumbered_repacked ho hn hs hok hrev).entries
  refine Option.ext fun en => ?_
  rw [hren.mem_iff]
  obtain ⟨holdDiv, holdMod⟩ := packId_decode ho hr.1 hr.2 hslot
  obtain ⟨hnewDiv, hnewMod⟩ := packId_decode hn hr'.1 hr'.2 hslot'
  have hvalue : ∀ id : Int64, Repackable old new id →
      (repacked old new id = packId new r slot ↔ id = packId old r slot) := by
    intro id hid
    obtain ⟨hdiv, hmod⟩ := repacked_decode ho hn hid
    constructor
    · intro heq
      rw [heq] at hdiv hmod
      rw [← Int64.toInt_inj, ← Int.ediv_mul_add_emod id.toInt (2 ^ old.toNat), ← hdiv, ← hmod,
        hnewDiv, hnewMod, packId_toInt ho hr.1 hr.2 hslot]
    · rintro rfl
      rw [← Int64.toInt_inj, repacked_toInt ho hn hid, holdDiv, holdMod,
        packId_toInt hn hr'.1 hr'.2 hslot']
  constructor
  · rintro ⟨id, heq, hen⟩
    rwa [(hvalue id (hok id en hen)).mp heq] at hen
  · intro hen
    exact ⟨_, (hvalue _ (hok _ en hen)).mpr rfl, hen⟩

theorem anyBetween_repacked {r : Int64} (hr : RecordOk old r) (hr' : RecordOk new r) :
    (db.repacked env old new).entries.keys.any (Sql.between (shlOf new r) (hiOf new r)) =
      db.entries.keys.any (Sql.between (shlOf old r) (hiOf old r)) := by
  have hren : Table.Renamed (repacked old new) db.entries (db.repacked env old new).entries :=
    (renumbered_repacked ho hn hs hok hrev).entries
  have hkeys : ∀ t : Entries, t.keys = t.toList.map Prod.fst := fun t => by
    rw [Std.ExtTreeMap.map_fst_toList_eq_keys]
  rw [hkeys, hkeys, hren, List.map_map, List.any_map, List.any_map]
  rw [Bool.eq_iff_iff, List.any_eq_true, List.any_eq_true]
  refine exists_congr fun x => and_congr_right fun hx => ?_
  have hfit : Repackable old new x.1 := hok x.1 x.2 ((Table.mem_toList _ _ _).mp hx)
  simp only [Function.comp_apply, between_iff ho hr.1 hr.2, between_iff hn hr'.1 hr'.2,
    (repacked_decode ho hn hfit).1]

end File

end SearchEngine

/-- The reading record calls whose record and slot both widths have room for. -/
def Call.RecordRead (old new : UInt8) : Call → Prop
  | .containsRecord r => RecordOk old r ∧ RecordOk new r
  | .highlightRecord _ r slot _ _ =>
    (RecordOk old r ∧ RecordOk new r) ∧
      (slot.toNat : ℤ) < 2 ^ old.toNat ∧ (slot.toNat : ℤ) < 2 ^ new.toNat
  | .matchCountRecords .. | .searchRecords .. | .searchRecordsPage .. => True
  | _ => False

section Answers

variable {env : Env} {old new : UInt8} {db : Db} (ho : ValidBits old) (hn : ValidBits new)
  (hs : Synced db) (hok : ∀ (id : Int64) en, db.entries[id]? = some en → Repackable old new id)
  (hrev : ∀ (id : Int64) en, db.entries[id]? = some en →
    en.normRev = some (reverseChars en.norm))
  (hsq : env.sqlite.OrderOnly) (hf : env.sqlite.rowFault = none)

include ho hn hs hok hrev hsq hf

theorem recordRead_repacked (e : SearchEngine) {c : Call} (hc : c.RecordRead old new) :
    ((c.prog env e).run (quiet (db.repacked env old new) none new false)).1 =
      ((c.prog env e).run (quiet db none old false)).1 := by
  cases c with
  | containsRecord r =>
    refine run_bind_pure_congr Reply.flag ?_
    rw [containsRecord_run _ hn hc.2, containsRecord_run _ ho hc.1,
      anyBetween_repacked ho hn hs hok hrev hc.1 hc.2]
  | highlightRecord q r slot before after =>
    refine run_bind_pure_congr Reply.text ?_
    rw [highlightRecord_run _ _ _ hn _ hc.1.2 hc.2.2, highlightRecord_run _ _ _ ho _ hc.1.1 hc.2.1,
      lookup_repacked ho hn hs hok hrev hc.1.1 hc.1.2 hc.2.1 hc.2.2]
  | matchCountRecords q perRecord =>
    exact run_bind_pure_congr Reply.count
      (matchCountRecords_repacked ho hn hs hok hrev hsq hf e q perRecord)
  | searchRecords q limit perRecord =>
    exact run_bind_pure_congr Reply.records
      (searchRecords_repacked ho hn hs hok hrev hsq hf e q limit perRecord)
  | searchRecordsPage q perPage page perRecord =>
    refine run_bind_pure_congr Reply.records ?_
    unfold searchRecordsPage
    cases checkedMul page perPage with
    | none => rfl
    | some offset =>
      cases htotal : checkedAdd offset perPage with
      | none =>
        simp only [htotal]
        rfl
      | some total =>
        simp only [htotal]
        exact run_bind_pure_congr _
          (searchRecords_repacked ho hn hs hok hrev hsq hf e q total perRecord)
  | _ => exact hc.elim

end Answers

/-- A successful change of width does not show in the reading record calls. -/
theorem width_change_invisible (env : Env) (hsq : env.sqlite.OrderOnly)
    (hf : env.sqlite.rowFault = none) (actions : List Action) (o : OpenEngine)
    (hopened : (Host.run env {} actions).opened = some o) (new : UInt8) (count : ℕ)
    (w : EngineWorld)
    (hchange : (changeFieldBits env new).run (Host.world (Host.run env {} actions).file o) =
      (.ok count, w))
    (c : Call) (hc : c.RecordRead o.fieldBits new) :
    ((c.prog env o.engine).run w).1 =
      ((c.prog env o.engine).run (Host.world (Host.run env {} actions).file o)).1 := by
  obtain ⟨db, hdb⟩ : ∃ db, db = (Host.run env {} actions).file := ⟨_, rfl⟩
  have hinv := index_invariant env actions
  have hs : Synced db := by
    rw [hdb]
    exact hinv.synced
  have hrev : ∀ (id : Int64) en, db.entries[id]? = some en →
      en.normRev = some (reverseChars en.norm) := by
    rw [hdb]
    exact hinv.reversed
  have hb : ValidBits o.fieldBits := (hinv.engine o hopened).2.2
  rw [← hdb] at hchange ⊢
  cases hp : o.poisoned with
  | true =>
    -- a poisoned mutex rejects the change
    have hlock := (Prod.mk.inj hchange).1
    cases hcheck : checkFieldBits new with
    | error err =>
      simp only [changeFieldBits, hcheck, orThrow, eval_bind, eval_throw, andThen_err] at hlock
      cases hlock
    | ok u =>
      simp only [changeFieldBits, hcheck, orThrow, eval_bind, eval_pure, andThen_ok, lockedConn,
        Prog.acquire, Prog.eval, Host.world, hp, if_true, andThen_err] at hlock
      cases hlock
  | false =>
    rw [Host.world_quiet hp] at hchange ⊢
    obtain ⟨hn, hfit⟩ := (changeFieldBits_ok_iff env db hb hchange).mp ⟨count, rfl⟩
    by_cases hne : new = o.fieldBits
    · subst hne
      rw [changeFieldBits_same env db hn] at hchange
      rw [← (Prod.mk.inj hchange).2]
    · have hok : ∀ (id : Int64) en, db.entries[id]? = some en → Repackable o.fieldBits new id :=
        fun id en hen => (repackable_iff hb hn id).mpr (hfit.resolve_left hne id en hen)
      have hrows := (rows_repackable_iff env db hb hn).mpr (hfit.resolve_left hne)
      rw [changeFieldBits_run env db hb hn hne hrows] at hchange
      rw [← (Prod.mk.inj hchange).2]
      exact recordRead_repacked hb hn hs hok hrev hsq hf o.engine hc

/-- The ids of `swappedHost` are slot 0 of records 1 and 2. -/
theorem swappedHost_fits (id : Int64) (en : Entry)
    (hen : swappedHost.file.entries[id]? = some en) : FitsWidth DEFAULT_FIELD_BITS 4 id.toInt := by
  have hmem : id ∈ swappedHost.file.entries.toList.map Prod.fst :=
    List.mem_map.mpr ⟨(id, en), (Table.mem_toList _ _ _).mpr hen, rfl⟩
  rw [swappedHost_pages.1.2.2.2.2, List.mem_cons, List.mem_singleton] at hmem
  rcases hmem with rfl | rfl
  · exact ⟨by decide, by decide, by decide⟩
  · exact ⟨by decide, by decide, by decide⟩

theorem swappedHost_change : ∃ count w, (changeFieldBits .ascii 4).run
    (Host.world swappedHost.file
      { engine := swappedEngine, fieldBits := DEFAULT_FIELD_BITS }) = (.ok count, w) := by
  obtain ⟨⟨o, w⟩, hrun⟩ : ∃ r, (changeFieldBits .ascii 4).run
    (quiet swappedHost.file none DEFAULT_FIELD_BITS false) = r := ⟨_, rfl⟩
  obtain ⟨count, rfl⟩ := (changeFieldBits_ok_iff .ascii swappedHost.file validBits_default hrun).mpr
    ⟨⟨by decide, by decide⟩, .inr swappedHost_fits⟩
  exact ⟨count, w, hrun⟩

/-- Narrower slots, the same records. -/
theorem width_change_invisible_swapped :
    ∃ count w, (changeFieldBits .ascii 4).run (Host.world swappedHost.file
        { engine := swappedEngine, fieldBits := DEFAULT_FIELD_BITS }) = (.ok count, w) ∧
      (((Call.searchRecords ['a'] 2 1).prog .ascii swappedEngine).run w).1 =
        (((Call.searchRecords ['a'] 2 1).prog .ascii swappedEngine).run
          (Host.world swappedHost.file
            { engine := swappedEngine, fieldBits := DEFAULT_FIELD_BITS })).1 := by
  obtain ⟨count, w, hrun⟩ := swappedHost_change
  exact ⟨count, w, hrun, width_change_invisible .ascii Sqlite.plain_orderOnly rfl swappedActions _
    swappedHost_pages.1.1 4 count w hrun (.searchRecords ['a'] 2 1) trivial⟩

end Unfydqry
