import Unfydqry.IndexInvariant
import Unfydqry.Search.Rows

/-! # One record and nothing else

The range of a record is the ids whose quotient by `2 ^ bits` is the record id. `index_record`
replaces the rows in that range by the fields that are not empty once normalized, and
`remove_record` empties it; no row outside is touched. -/

namespace Unfydqry.SearchEngine

open LockedStore Prog Search

/-- The id decodes to the record. -/
def InRecord (bits : UInt8) (r id : Int64) : Prop := id.toInt / 2 ^ bits.toNat = r.toInt

/-- The row of an id is the same in both tables. -/
def SameRow (db db' : Db) (id : Int64) : Prop :=
  db'.docs[id]? = db.docs[id]? ∧ db'.entries[id]? = db.entries[id]?

/-- Only rows of the record have changed. -/
structure RecordFrame (bits : UInt8) (r : Int64) (db db' : Db) : Prop where
  outside : ∀ id, ¬ InRecord bits r id → SameRow db db' id
  others : ∀ r' s, RecordOk bits r' → (s.toNat : ℤ) < 2 ^ bits.toNat → r' ≠ r →
    SameRow db db' (packId bits r' s)
  negative : ∀ id : Int64, id < 0 → SameRow db db' id
  kept : Host.Keeps db db'
  synced : Synced db'

/-- The rows of the record are its fields that are not empty once normalized. -/
structure HoldsFields (env : Env) (e : SearchEngine) (bits : UInt8) (r : Int64)
    (fields : List FieldValue) (db : Db) : Prop where
  packed : ∀ f ∈ fields, InRecord bits r (packId bits r f.slot)
  stored : ∀ id, InRecord bits r id → ∀ en, db.entries[id]? = some en ↔
    ∃ f ∈ fields, e.normalizer env f.text ≠ [] ∧ id = packId bits r f.slot ∧
      en = e.entryOf env f.text

variable {env : Env} {e : SearchEngine} {bits : UInt8} {r : Int64}

/-! ### Stored fields -/

theorem putField_row (env : Env) (e : SearchEngine) (bits : UInt8) (r : Int64) (db : Db)
    (f : FieldValue) (id : Int64) :
    (e.normalizer env f.text ≠ [] → id = packId bits r f.slot →
      (db.putField env e bits r f).docs[id]? = some (e.normalizer env f.text) ∧
      (db.putField env e bits r f).entries[id]? = some (e.entryOf env f.text)) ∧
    (¬ (e.normalizer env f.text ≠ [] ∧ id = packId bits r f.slot) →
      SameRow db (db.putField env e bits r f) id) := by
  unfold Db.putField SameRow
  by_cases hempty : (e.normalizer env f.text).isEmpty = true
  · rw [if_pos hempty]
    exact ⟨fun h => absurd (List.isEmpty_iff.mp hempty) h, fun _ => ⟨rfl, rfl⟩⟩
  · have hne : e.normalizer env f.text ≠ [] := fun h => hempty (List.isEmpty_iff.mpr h)
    rw [if_neg hempty]
    simp only [Db.put, Table.lookup_insert]
    refine ⟨fun _ hid => ?_, fun hout => ?_⟩
    · rw [if_pos hid, if_pos hid]
      exact ⟨rfl, rfl⟩
    · have hid : id ≠ packId bits r f.slot := fun h => hout ⟨hne, h⟩
      rw [if_neg hid, if_neg hid]
      exact ⟨rfl, rfl⟩

/-- The loop over the fields writes a row for each that is not empty, and no other; distinct
slots are distinct ids, so no field overwrites another. -/
theorem putFields_row (env : Env) (e : SearchEngine) (hb : ValidBits bits) (hr : RecordOk bits r)
    {fields : List FieldValue} (hs : SlotsOk bits fields) (db : Db) (id : Int64) :
    (∀ f ∈ fields, e.normalizer env f.text ≠ [] → id = packId bits r f.slot →
      (fields.foldl (Db.putField env e bits r) db).docs[id]? = some (e.normalizer env f.text) ∧
      (fields.foldl (Db.putField env e bits r) db).entries[id]? = some (e.entryOf env f.text)) ∧
    ((∀ f ∈ fields, ¬ (e.normalizer env f.text ≠ [] ∧ id = packId bits r f.slot)) →
      SameRow db (fields.foldl (Db.putField env e bits r) db) id) := by
  induction fields generalizing db with
  | nil => exact ⟨by simp, fun _ => ⟨rfl, rfl⟩⟩
  | cons f fields ih =>
    obtain ⟨hfit, hnodup⟩ := hs
    rw [List.forall_mem_cons] at hfit
    rw [List.map_cons, List.nodup_cons] at hnodup
    obtain ⟨hwrites, hkeeps⟩ := ih ⟨hfit.2, hnodup.2⟩ (db.putField env e bits r f)
    obtain ⟨hfirst, hskip⟩ := putField_row env e bits r db f id
    rw [List.foldl_cons]
    constructor
    · intro g hg hne hid
      rcases List.mem_cons.mp hg with rfl | hg
      · -- the slots that follow are others
        have hlater : ∀ f ∈ fields,
            ¬ (e.normalizer env f.text ≠ [] ∧ id = packId bits r f.slot) := by
          rintro f hf ⟨_, hid'⟩
          have hslot := packId_injective hb hr.1 hr.2 (hfit.2 f hf) hfit.1 (hid'.symm.trans hid)
          exact hnodup.1 (List.mem_map.mpr ⟨f, hf, hslot⟩)
        obtain ⟨hdocs, hentries⟩ := hkeeps hlater
        rw [hdocs, hentries]
        exact hfirst hne hid
      · exact hwrites g hg hne hid
    · intro hnone
      rw [List.forall_mem_cons] at hnone
      obtain ⟨hdocs, hentries⟩ := hkeeps hnone.2
      obtain ⟨hdocs', hentries'⟩ := hskip hnone.1
      exact ⟨hdocs.trans hdocs', hentries.trans hentries'⟩

/-! ### The range -/

variable (hb : ValidBits bits) (hr : RecordOk bits r)

include hb hr

theorem clearRange_row (db : Db) (id : Int64) :
    (InRecord bits r id →
      (db.clearRange (shlOf bits r) (hiOf bits r)).docs[id]? = none ∧
      (db.clearRange (shlOf bits r) (hiOf bits r)).entries[id]? = none) ∧
    (¬ InRecord bits r id → SameRow db (db.clearRange (shlOf bits r) (hiOf bits r)) id) := by
  have hbetween := between_iff hb hr.1 hr.2 id
  simp only [SameRow, Db.clearRange, Table.lookup_eraseWhere]
  constructor
  · intro hin
    rw [if_pos (hbetween.mpr hin), if_pos (hbetween.mpr hin)]
    exact ⟨rfl, rfl⟩
  · intro hout
    have hno : ¬ Sql.between (shlOf bits r) (hiOf bits r) id = true := fun h => hout (hbetween.mp h)
    rw [if_neg hno, if_neg hno]
    exact ⟨rfl, rfl⟩

theorem packId_inRecord {s : UInt8} (hs : (s.toNat : ℤ) < 2 ^ bits.toNat) :
    InRecord bits r (packId bits r s) := (packId_decode hb hr.1 hr.2 hs).1

/-- Another record and a negative id are outside. -/
theorem recordFrame {db db' : Db} (hsynced : Synced db)
    (houtside : ∀ id, ¬ InRecord bits r id → SameRow db db' id) (hkept : Host.Keeps db db')
    (hinside : ∀ id, InRecord bits r id → db'.docs[id]? = db'.entries[id]?.map Entry.norm) :
    RecordFrame bits r db db' where
  outside := houtside
  others r' s hr' hs hne := by
    refine houtside _ fun hin => hne ?_
    have hdecode := (packId_decode hb hr'.1 hr'.2 hs).1
    exact Int64.toInt_inj.mp (hdecode.symm.trans hin)
  negative id hid := by
    refine houtside id fun hin => ?_
    have hneg : id.toInt < 0 := Int64.lt_iff_toInt_lt.mp hid
    have hquot := Int.ediv_neg_of_neg_of_pos hneg (pow_pos bits)
    have hpos : 0 ≤ r.toInt := Int64.le_iff_toInt_le.mp hr.1
    unfold InRecord at hin
    omega
  kept := hkept
  synced id := by
    by_cases hin : InRecord bits r id
    · exact hinside id hin
    · obtain ⟨hdocs, hentries⟩ := houtside id hin
      rw [hdocs, hentries, hsynced]

theorem putRecord_frame {db : Db} (hsynced : Synced db) {fields : List FieldValue}
    (hs : SlotsOk bits fields) :
    RecordFrame bits r db (db.putRecord env e bits r fields) ∧
      HoldsFields env e bits r fields (db.putRecord env e bits r fields) := by
  have hrow := fun id => putFields_row env e hb hr hs
    (db.clearRange (shlOf bits r) (hiOf bits r)) id
  have hclear := clearRange_row hb hr db
  have hpacked : ∀ f ∈ fields, InRecord bits r (packId bits r f.slot) :=
    fun f hf => packId_inRecord hb hr (hs.1 f hf)
  -- a row of the range is a stored field or was cleared
  have hcase : ∀ id, InRecord bits r id →
      (∃ f ∈ fields, e.normalizer env f.text ≠ [] ∧ id = packId bits r f.slot) ∨
        ((db.putRecord env e bits r fields).docs[id]? = none ∧
          (db.putRecord env e bits r fields).entries[id]? = none) := by
    intro id hin
    by_cases h : ∃ f ∈ fields, e.normalizer env f.text ≠ [] ∧ id = packId bits r f.slot
    · exact .inl h
    · obtain ⟨hdocs, hentries⟩ := (hrow id).2 fun f hf hwrites => h ⟨f, hf, hwrites⟩
      obtain ⟨hdocs', hentries'⟩ := (hclear id).1 hin
      exact .inr ⟨hdocs.trans hdocs', hentries.trans hentries'⟩
  refine ⟨recordFrame hb hr hsynced (fun id hout => ?_) (Host.keeps_putRecord db ⟨r, fields⟩)
    fun id hin => ?_,
    hpacked, fun id hin en => ?_⟩
  · obtain ⟨hdocs, hentries⟩ := (hrow id).2 fun f hf hwrites => hout (hwrites.2 ▸ hpacked f hf)
    obtain ⟨hdocs', hentries'⟩ := (hclear id).2 hout
    exact ⟨hdocs.trans hdocs', hentries.trans hentries'⟩
  · rcases hcase id hin with ⟨f, hf, hne, hid⟩ | ⟨hdocs, hentries⟩
    · obtain ⟨hdocs, hentries⟩ := (hrow id).1 f hf hne hid
      rw [Db.putRecord, hdocs, hentries]
      rfl
    · rw [hdocs, hentries]
      rfl
  · constructor
    · intro hen
      rcases hcase id hin with ⟨f, hf, hne, hid⟩ | ⟨_, hentries⟩
      · have hstored := ((hrow id).1 f hf hne hid).2
        rw [Db.putRecord, hstored, Option.some.injEq] at hen
        exact ⟨f, hf, hne, hid, hen.symm⟩
      · rw [hentries] at hen
        cases hen
    · rintro ⟨f, hf, hne, hid, rfl⟩
      exact ((hrow id).1 f hf hne hid).2

theorem clearRange_frame {db : Db} (hsynced : Synced db) :
    RecordFrame bits r db (db.clearRange (shlOf bits r) (hiOf bits r)) ∧
      ∀ id, InRecord bits r id →
        (db.clearRange (shlOf bits r) (hiOf bits r)).entries[id]? = none := by
  have hclear := clearRange_row hb hr db
  refine ⟨recordFrame hb hr hsynced (fun id => (hclear id).2) ⟨rfl, rfl⟩ fun id hin => ?_,
    fun id hin => ((hclear id).1 hin).2⟩
  obtain ⟨hdocs, hentries⟩ := (hclear id).1 hin
  rw [hdocs, hentries]
  rfl

omit hr

/-- `index_record` and `remove_record` accept exactly the records and slots that fit, leave the
file alone otherwise, and touch the record's own range only. -/
theorem record_frame (env : Env) (e : SearchEngine) {db : Db} (hsynced : Synced db) (r : Int64)
    (fields : List FieldValue) :
    ((RecordOk bits r ∧ SlotsOk bits fields → ∃ db',
        (indexRecord env e r fields).run (quiet db none bits false) =
          (.ok (), quiet db' none bits false) ∧
        RecordFrame bits r db db' ∧ HoldsFields env e bits r fields db') ∧
      (¬ (RecordOk bits r ∧ SlotsOk bits fields) → ∃ err,
        (indexRecord env e r fields).run (quiet db none bits false) =
          (.err err, quiet db none bits false))) ∧
    (RecordOk bits r → ∃ db',
        (removeRecord r).run (quiet db none bits false) = (.ok (), quiet db' none bits false) ∧
        RecordFrame bits r db db' ∧ ∀ id, InRecord bits r id → db'.entries[id]? = none) ∧
      (¬ RecordOk bits r → ∃ err,
        (removeRecord r).run (quiet db none bits false) = (.err err, quiet db none bits false)) :=
  ⟨⟨fun h => ⟨_, indexRecord_run env e db hb h.1 h.2, putRecord_frame hb h.1 hsynced h.2⟩,
      indexRecord_rejected env e db hb⟩,
    fun h => ⟨_, removeRecord_run db hb h, clearRange_frame hb h hsynced⟩,
      removeRecord_rejected db hb⟩

omit hb

/-! ### A record between others -/

/-- A document with a negative id, two fields of one record and one of the next. -/
def crowdedActions : List Action :=
  [.reopen (.withOptions { normalize := {}, strategy := .substring, fieldBits := none }),
    .call (.index (-5) ['x']),
    .call (.indexRecord 1 [⟨0, ['a']⟩, ⟨2, ['b']⟩]),
    .call (.indexRecord 2 [⟨0, ['c']⟩])]

def crowdedFile : Db := (Host.run .ascii {} crowdedActions).file

theorem crowdedFile_synced : Synced crowdedFile :=
  have hfresh : Host.Ok .ascii {} := Host.fresh_ok
  (Host.run_ok crowdedActions hfresh).invariant.synced

theorem crowdedFile_ids : crowdedFile.entries.toList.map Prod.fst = [-5, 256, 258, 512] := by
  decide +kernel

/-- One field of the first record is replaced, its other one goes, an empty one is not stored, and
the document and the next record stay. Then the record is removed, and they stay again. -/
theorem record_frame_crowded :
    crowdedFile.entries.toList.map Prod.fst = [-5, 256, 258, 512] ∧
    (∃ db', (indexRecord .ascii ⟨{}, .substring⟩ 1 [⟨0, ['d']⟩, ⟨3, []⟩]).run
        (quiet crowdedFile none DEFAULT_FIELD_BITS false) =
          (.ok (), quiet db' none DEFAULT_FIELD_BITS false) ∧
      db'.entries[(256 : Int64)]?.map Entry.norm = some ['d'] ∧
      db'.entries[(258 : Int64)]? = none ∧ db'.entries[(259 : Int64)]? = none ∧
      SameRow crowdedFile db' 512 ∧ SameRow crowdedFile db' (-5)) ∧
    ∃ db', (removeRecord 1).run (quiet crowdedFile none DEFAULT_FIELD_BITS false) =
        (.ok (), quiet db' none DEFAULT_FIELD_BITS false) ∧
      db'.entries[(256 : Int64)]? = none ∧ db'.entries[(258 : Int64)]? = none ∧
      SameRow crowdedFile db' 512 ∧ SameRow crowdedFile db' (-5) := by
  have hframe := record_frame validBits_default .ascii ⟨{}, .substring⟩ crowdedFile_synced 1
    [⟨0, ['d']⟩, ⟨3, []⟩]
  obtain ⟨hfirst, hthird, hfourth⟩ : InRecord DEFAULT_FIELD_BITS 1 256 ∧
      InRecord DEFAULT_FIELD_BITS 1 258 ∧ InRecord DEFAULT_FIELD_BITS 1 259 := by
    unfold InRecord
    decide
  refine ⟨crowdedFile_ids, ?_, ?_⟩
  · obtain ⟨db', hrun, hkeeps, hholds⟩ := hframe.1.1 (by decide)
    have hnone : ∀ id, InRecord DEFAULT_FIELD_BITS 1 id → id ≠ 256 → db'.entries[id]? = none := by
      intro id hid hne
      refine Option.eq_none_iff_forall_ne_some.mpr fun en hen => ?_
      obtain ⟨f, hf, hfull, hslot, _⟩ := (hholds.stored id hid en).mp hen
      simp only [List.mem_cons, List.not_mem_nil, or_false] at hf
      rcases hf with rfl | rfl
      · exact hne hslot
      · exact hfull rfl
    have hstored := (hholds.stored 256 hfirst
      (SearchEngine.entryOf .ascii ⟨{}, .substring⟩ ['d'])).mpr
        ⟨⟨0, ['d']⟩, List.mem_cons_self .., by decide, rfl, rfl⟩
    refine ⟨db', hrun, ?_, hnone 258 hthird (by decide), hnone 259 hfourth (by decide),
      hkeeps.others 2 0 (by decide) (by decide) (by decide), hkeeps.negative (-5) (by decide)⟩
    rw [hstored]
    rfl
  · obtain ⟨db', hrun, hkeeps, hempty⟩ := hframe.2.1 (by decide)
    exact ⟨db', hrun, hempty 256 hfirst, hempty 258 hthird,
      hkeeps.others 2 0 (by decide) (by decide) (by decide), hkeeps.negative (-5) (by decide)⟩

end Unfydqry.SearchEngine
