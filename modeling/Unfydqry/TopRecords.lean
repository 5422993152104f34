import Unfydqry.DocumentPages

/-! # The best records, and the slots they are listed with

The strategies that rank in Rust yield their hits by score and then by packed id, which is
by score, record and slot. `search_records` reads a prefix of these: long enough to hold the
best field of each of the best records, not always their other fields. -/

namespace Unfydqry

open LockedStore Prog SearchEngine Search RankedPages

namespace SearchEngine

variable {env : Env} {e : SearchEngine} {query : Text} {db : Db} {bits : UInt8}

/-- No record has more than `perRecord` stored fields. -/
def FieldsWithin (bits : UInt8) (db : Db) (perRecord : UInt32) : Prop :=
  ∀ r, (db.entries.toList.filter fun x => shrOf bits x.1 = r).length ≤ perRecord.toNat

/-- The records of the rows, each once with its smallest score, by score and then by record. -/
structure RecordRanking (bits : UInt8) (rows : List Hit) (ranked : List (ℤ × ℚ)) : Prop where
  once : (ranked.map Prod.fst).Nodup
  best : ∀ r s, (r, s) ∈ ranked ↔ (∃ h ∈ rows, (shrOf bits h.id).toInt = r ∧ h.score = s) ∧
    ∀ h ∈ rows, (shrOf bits h.id).toInt = r → s ≤ h.score
  sorted : ranked.Pairwise rankOrder

theorem recordRanking (bits : UInt8) {rows : List Hit} (hsorted : BestFirst rows) :
    RecordRanking bits rows (ranking (fieldRows bits rows)) where
  once := ranking_keys_nodup _
  best r s := by
    have hfields : (fieldRows bits rows).Pairwise fun a b => a.2 ≤ b.2 := by
      rw [fieldRows, List.pairwise_map]
      exact hsorted
    rw [mem_ranking_iff hfields, fieldRows]
    simp only [List.mem_map, Prod.mk.injEq, forall_exists_index, and_imp,
      forall_apply_eq_imp_iff₂]
  sorted := List.pairwise_insertionSort _ _

theorem shrOf_le (hb : ValidBits bits) {a b : Int64} (h : a ≤ b) :
    (shrOf bits a).toInt ≤ (shrOf bits b).toInt := by
  rw [shrOf_toInt hb, shrOf_toInt hb]
  exact Int.ediv_le_ediv (pow_pos bits) (Int64.le_iff_toInt_le.mp h)

/-- Fields that come by score and id come by score and record. -/
theorem fieldRows_sorted (hb : ValidBits bits) {rows : List Hit} (h : rows.Pairwise hitOrder) :
    (fieldRows bits rows).Pairwise rankOrder := by
  rw [fieldRows, List.pairwise_map]
  refine h.imp fun {a b} hab => ?_
  rcases hab with hlt | ⟨heq, hid⟩
  · exact .inl hlt
  · exact .inr ⟨heq, shrOf_le hb hid⟩

/-- The rows a search reads: the product saturates only when it exceeds all rows. -/
theorem limited_rawLimit {rows : List Hit} (hlen : rows.length ≤ 2 ^ 32 - 1) (a b : UInt32) :
    limited (saturatingMul a b) rows = rows.take (a.toNat * b.toNat) := by
  by_cases hfit : a.toNat * b.toNat < 2 ^ 32
  · rw [limited, saturatingMul_toNat hfit]
  · have hmax : (UInt32.ofNat (2 ^ 32 - 1)).toNat = 2 ^ 32 - 1 := by decide
    rw [limited, saturatingMul, checkedMul, if_neg hfit, Option.getD_none, hmax,
      List.take_of_length_le hlen, List.take_of_length_le (by omega)]

theorem recordsOf_keys {rows : List Hit} (hsorted : BestFirst rows)
    (hlen : rows.length ≤ 2 ^ 32 - 1) (limit perRecord : UInt32) :
    (recordsOf bits limit (saturatingMul limit perRecord) rows).map hitKey =
      (ranking ((fieldRows bits rows).take (limit.toNat * perRecord.toNat))).take limit.toNat := by
  have hread : ((rows.take (limit.toNat * perRecord.toNat)).map (decoded bits)).Pairwise
      fun a b => a.2.2 ≤ b.2.2 := by
    rw [List.pairwise_map]
    exact hsorted.sublist (List.take_sublist _ _)
  rw [recordsOf, limited, limited_rawLimit hlen, List.map_take, collapse_ranking _ hread, fieldRows,
    ← List.map_take, List.map_map]
  rfl

theorem searchRecords_run (hf : env.sqlite.rowFault = none) (hb : ValidBits bits)
    (limit perRecord : UInt32) :
    ((searchRecords env e query limit perRecord).run (quiet db none bits false)).1 =
      outcome ((matchedRows env e query db).map
        (recordsOf bits limit (saturatingMul limit (atLeastOne perRecord)))) := by
  obtain ⟨held, h⟩ := eval_searchRecords hf hb e query db limit perRecord
  rw [Prog.run, h]

theorem matchedRows_length (hs : Synced db) (hsize : db.entries.size ≤ 2 ^ 32 - 1) {rows : List Hit}
    (hrows : matchedRows env e query db = .ok rows) : rows.length ≤ 2 ^ 32 - 1 := by
  have hle := (matchedRows_ok hs hrows).2.length_le
  rw [List.length_map, List.length_map, Std.ExtTreeMap.length_toList] at hle
  omega

/-- The answer of a record search, as keys with scores, when the rows come by score and id. -/
theorem searchRecords_keys (hf : env.sqlite.rowFault = none) (hs : Synced db) (hb : ValidBits bits)
    (hsize : db.entries.size ≤ 2 ^ 32 - 1) (hst : RanksHits e.strategy) {rows : List Hit}
    (hrows : matchedRows env e query db = .ok rows) {perRecord : UInt32}
    (hfields : FieldsWithin bits db perRecord) (limit : UInt32) :
    ∃ hits, ((searchRecords env e query limit perRecord).run (quiet db none bits false)).1 =
      .ok hits ∧ hits = recordsOf bits limit (saturatingMul limit (atLeastOne perRecord)) rows ∧
      hits.map hitKey = (ranking (fieldRows bits rows)).take limit.toNat := by
  refine ⟨_, ?_, rfl, ?_⟩
  · rw [searchRecords_run hf hb, hrows]
    rfl
  · have hmany := fieldRows_count bits (matchedRows_ok hs hrows).2
      fun r => (hfields r).trans (le_atLeastOne perRecord)
    rw [recordsOf_keys (matchedRows_ok hs hrows).1 (matchedRows_length hs hsize hrows),
      ranking_take_of_sorted (fieldRows_sorted hb (matchedRows_sorted hst hrows)) hmany]

/-- A record search answers with the best records of all matches. -/
theorem search_records_top (hf : env.sqlite.rowFault = none) (hs : Synced db) (hb : ValidBits bits)
    (hsize : db.entries.size ≤ 2 ^ 32 - 1) (hst : RanksHits e.strategy) (query : Text) :
    (¬ Rejected env e query → ∃ rows ranked, PagesPartition env e query db bits rows ∧
      RecordRanking bits rows ranked ∧
      ∀ limit perRecord : UInt32, FieldsWithin bits db perRecord →
        ∃ hits, ((searchRecords env e query limit perRecord).run (quiet db none bits false)).1 =
          .ok hits ∧ hits.map hitKey = ranked.take limit.toNat) ∧
    (Rejected env e query → ∃ err, ∀ limit perRecord : UInt32,
      ((searchRecords env e query limit perRecord).run (quiet db none bits false)).1 =
        .err err) := by
  obtain ⟨hreject, hfound⟩ := matchedRows_spec env e query hs
  constructor
  · intro h
    obtain ⟨rows, hrows, _⟩ := hfound h
    refine ⟨rows, _, pagesPartition_of_rows hf hs bits hsize hrows
      (not_countFails_of_ranksHits db hst _),
      recordRanking bits (matchedRows_ok hs hrows).1, fun limit perRecord hfields => ?_⟩
    obtain ⟨hits, hrun, _, hkeys⟩ := searchRecords_keys hf hs hb hsize hst hrows hfields limit
    exact ⟨hits, hrun, hkeys⟩
  · intro h
    obtain ⟨err, hrows⟩ := hreject h
    refine ⟨err, fun limit perRecord => ?_⟩
    rw [searchRecords_run hf hb, hrows]
    rfl

/-! ### The slots of a record -/

/-- The fields collected for a record. -/
def groupSlots (r : Int64) (gs : List RecordGroup) : List (UInt8 × ℚ) :=
  (gs.filter fun g => g.recordId = r).flatMap RecordGroup.slots

theorem groupSlots_cons (r : Int64) (g : RecordGroup) (gs : List RecordGroup) :
    groupSlots r (g :: gs) = (if g.recordId = r then g.slots else []) ++ groupSlots r gs := by
  by_cases h : g.recordId = r <;> simp [groupSlots, h]

theorem groupSlots_addHit (r r' : Int64) (slot : UInt8) (score : ℚ) (gs : List RecordGroup) :
    (groupSlots r (addHit r' slot score gs)).Perm
      (groupSlots r gs ++ if r' = r then [(slot, score)] else []) := by
  induction gs with
  | nil =>
    rw [addHit, groupSlots_cons]
    exact List.Perm.of_eq (List.append_nil _)
  | cons g gs ih =>
    unfold addHit
    split
    · rename_i hg
      rw [groupSlots_cons, groupSlots_cons]
      by_cases hr : r' = r
      · -- the new field goes to the end of the first group, before those of later groups
        simp only [hg, hr, if_true, List.append_assoc]
        exact List.perm_append_comm.append_left _
      · simp only [hg, hr, if_false, List.append_nil]
        exact List.Perm.refl _
    · rw [groupSlots_cons, groupSlots_cons, List.append_assoc]
      exact ih.append_left _

theorem groupSlots_foldl (r : Int64) (ds : List (Int64 × UInt8 × ℚ)) (gs : List RecordGroup) :
    (groupSlots r (ds.foldl (fun gs d => addHit d.1 d.2.1 d.2.2 gs) gs)).Perm
      (groupSlots r gs ++ (ds.filter fun d => d.1 = r).map Prod.snd) := by
  induction ds generalizing gs with
  | nil => exact List.Perm.of_eq (List.append_nil _).symm
  | cons d ds ih =>
    rw [List.foldl_cons]
    refine (ih _).trans (((groupSlots_addHit r d.1 d.2.1 d.2.2 gs).append_right _).trans ?_)
    by_cases hd : d.1 = r
    · simp [hd]
    · simp [hd]

theorem groupSlots_of_mem {gs : List RecordGroup} (hnodup : (gs.map RecordGroup.recordId).Nodup)
    {g : RecordGroup} (hg : g ∈ gs) : groupSlots g.recordId gs = g.slots := by
  induction gs with
  | nil => cases hg
  | cons g' gs ih =>
    rw [List.map_cons, List.nodup_cons] at hnodup
    rw [groupSlots_cons]
    rcases List.mem_cons.mp hg with rfl | hg
    · have hnone : groupSlots g.recordId gs = [] := by
        rw [groupSlots, List.filter_eq_nil_iff.mpr, List.flatMap_nil]
        intro g' hg' heq
        exact hnodup.1 (List.mem_map.mpr ⟨g', hg', by simpa using heq⟩)
      rw [if_pos rfl, hnone, List.append_nil]
    · have hne : g'.recordId ≠ g.recordId := fun heq =>
        hnodup.1 (heq ▸ List.mem_map_of_mem hg)
      rw [if_neg hne, List.nil_append, ih hnodup.2 hg]

theorem collapse_slots {ds : List (Int64 × UInt8 × ℚ)}
    (hsorted : ds.Pairwise fun a b => a.2.2 ≤ b.2.2) {hit : RecordHit} (hhit : hit ∈ collapse ds) :
    hit.matchedSlots.Perm ((ds.filter fun d => d.1 = hit.recordId).map fun d => d.2.1) := by
  rw [collapse, List.mem_insertionSort, List.mem_map] at hhit
  obtain ⟨g, hg, rfl⟩ := hhit
  have hkeys := foldl_addHit ds [] hsorted (fun g hg => by cases hg)
  have hnodup : ((ds.foldl (fun gs d => addHit d.1 d.2.1 d.2.2 gs) []).map
      RecordGroup.recordId).Nodup := by
    have hids := congrArg (List.map Prod.fst) hkeys
    rw [List.map_map, List.map_nil, List.nil_append] at hids
    have hfirsts : (((firsts (ds.map fun d => (d.1.toInt, d.2.2))).filter
        fun x => !among [] x).map Prod.fst).Nodup :=
      (firsts_keys_nodup _).sublist (List.filter_sublist.map _)
    rw [← hids] at hfirsts
    exact List.Nodup.of_map Int64.toInt (by rw [List.map_map]; exact hfirsts)
  have hslots := groupSlots_foldl g.recordId ds []
  rw [groupSlots_of_mem hnodup hg] at hslots
  have hperm := ((List.perm_insertionSort slotOrder g.slots).trans hslots).map Prod.fst
  rw [List.map_append, List.map_map] at hperm
  exact hperm

/-- The slots of the record's matching fields. -/
def slotsOf (bits : UInt8) (rows : List Hit) (r : Int64) : List UInt8 :=
  (rows.filter fun h => shrOf bits h.id = r).map fun h => Checked.asU8 (h.id &&& maskOf bits)

/-- A record found among the first `m` rows is listed with all its slots just when these are
all its rows. -/
theorem slots_perm_iff {rows : List Hit} (hsorted : BestFirst rows) (hnodup : rows.Nodup) {m : ℕ}
    {hit : RecordHit} (hhit : hit ∈ collapse ((rows.take m).map (decoded bits))) :
    hit.matchedSlots.Perm (slotsOf bits rows hit.recordId) ↔
      ∀ h ∈ rows, shrOf bits h.id = hit.recordId → h ∈ rows.take m := by
  have hread : ((rows.take m).map (decoded bits)).Pairwise fun a b => a.2.2 ≤ b.2.2 := by
    rw [List.pairwise_map]
    exact hsorted.sublist (List.take_sublist _ _)
  have hslots : hit.matchedSlots.Perm (slotsOf bits (rows.take m) hit.recordId) := by
    have hperm := collapse_slots hread hhit
    rw [List.filter_map, List.map_map] at hperm
    exact hperm
  have hsplit : slotsOf bits rows hit.recordId =
      slotsOf bits (rows.take m) hit.recordId ++ slotsOf bits (rows.drop m) hit.recordId := by
    rw [slotsOf, slotsOf, slotsOf, ← List.map_append, ← List.filter_append, List.take_append_drop]
  constructor
  · intro hall h hh hr
    have hlen := (hslots.symm.trans hall).length_eq
    rw [hsplit, List.length_append] at hlen
    have hnone : slotsOf bits (rows.drop m) hit.recordId = [] :=
      List.length_eq_zero_iff.mp (by omega)
    rw [slotsOf, List.map_eq_nil_iff, List.filter_eq_nil_iff] at hnone
    rw [← List.take_append_drop m rows, List.mem_append] at hh
    exact hh.resolve_right fun hdrop => hnone h hdrop (decide_eq_true hr)
  · intro hall
    have hnone : slotsOf bits (rows.drop m) hit.recordId = [] := by
      rw [slotsOf, List.map_eq_nil_iff, List.filter_eq_nil_iff]
      intro h hdrop hr
      have htake := hall h (List.mem_of_mem_drop hdrop) (of_decide_eq_true hr)
      exact List.disjoint_take_drop hnodup (le_refl m) htake hdrop
    rw [hsplit, hnone, List.append_nil]
    exact hslots

/-- Every record hit of the answer lists the slots of all matching fields of its record. -/
def SlotsComplete (bits : UInt8) (rows : List Hit) (answer : Outcome SearchError (List RecordHit)) :
    Prop :=
  ∀ hits, answer = .ok hits → ∀ hit ∈ hits, hit.matchedSlots.Perm (slotsOf bits rows hit.recordId)

/-- Every matching field of each of these records is among the first `m`. -/
def FieldsRead (bits : UInt8) (rows : List Hit) (m : ℕ) (records : List (ℤ × ℚ)) : Prop :=
  ∀ r ∈ records.map Prod.fst, ∀ h ∈ rows, (shrOf bits h.id).toInt = r → h ∈ rows.take m

theorem slotsComplete_iff {rows : List Hit} (hsorted : BestFirst rows) (hnodup : rows.Nodup) {m : ℕ}
    {hits : List RecordHit}
    (hhits : ∀ hit ∈ hits, hit ∈ collapse ((rows.take m).map (decoded bits))) :
    SlotsComplete bits rows (.ok hits) ↔ FieldsRead bits rows m (hits.map hitKey) := by
  have hmem : ∀ r, r ∈ (hits.map hitKey).map Prod.fst ↔ ∃ hit ∈ hits, hit.recordId.toInt = r := by
    intro r
    rw [List.map_map, List.mem_map]
    rfl
  constructor
  · intro hall r hr h hh heq
    obtain ⟨hit, hhit, rfl⟩ := (hmem r).mp hr
    have hslots := (slots_perm_iff hsorted hnodup (hhits hit hhit)).mp (hall hits rfl hit hhit)
    exact hslots h hh (Int64.toInt_inj.mp heq)
  · intro hread hits' heq hit hhit
    rw [Outcome.ok.injEq] at heq
    subst heq
    refine (slots_perm_iff hsorted hnodup (hhits hit hhit)).mpr fun h hh hr => ?_
    exact hread _ ((hmem _).mpr ⟨hit, hhit, rfl⟩) h hh (by rw [hr])

theorem hits_nodup {rows : List Hit} (h : (rows.map Hit.id).Nodup) : rows.Nodup := h.of_map

/-- The page of a record search is cut from a search for the records up to its end. -/
theorem searchRecordsPage_answer (hf : env.sqlite.rowFault = none) (e : SearchEngine)
    (query : Text) (db : Db) (hb : ValidBits bits)
    {perPage page : UInt32} (hfit : (page.toNat + 1) * perPage.toNat ≤ 2 ^ 32 - 1)
    (perRecord : UInt32) :
    ∃ total : UInt32, total.toNat = (page.toNat + 1) * perPage.toNat ∧
      ((searchRecordsPage env e query perPage page perRecord).run (quiet db none bits false)).1 =
        outcome ((matchedRows env e query db).map fun rows =>
          ((recordsOf bits total (saturatingMul total (atLeastOne perRecord)) rows).drop
            (page.toNat * perPage.toNat)).take perPage.toNat) := by
  have hsplit : (page.toNat + 1) * perPage.toNat = page.toNat * perPage.toNat + perPage.toNat := by
    rw [Nat.add_mul, Nat.one_mul]
  obtain ⟨offset, hoffset, hoffsetv⟩ := checkedMul_some (a := page) (b := perPage) (by omega)
  obtain ⟨total, htotal, htotalv⟩ := checkedAdd_some (a := offset) (b := perPage)
    (by rw [hoffsetv]; omega)
  refine ⟨total, by rw [htotalv, hoffsetv, hsplit], ?_⟩
  obtain ⟨held, hall⟩ := eval_searchRecords hf hb e query db total perRecord
  simp only [searchRecordsPage, hoffset, htotal, Prog.run, eval_bind, hall]
  cases matchedRows env e query db with
  | error err => rfl
  | ok rows =>
    simp only [Except.map, outcome, andThen_ok, eval_pure, limited, hoffsetv]

/-- The listed slots are complete just when the hits that were read hold every matching field
of the listed records. -/
theorem matched_slots_complete_iff (hf : env.sqlite.rowFault = none) (hs : Synced db)
    (hb : ValidBits bits) (hsize : db.entries.size ≤ 2 ^ 32 - 1) (hst : RanksHits e.strategy)
    (query : Text) :
    (¬ Rejected env e query → ∃ rows ranked, PagesPartition env e query db bits rows ∧
      RecordRanking bits rows ranked ∧ ∀ perRecord : UInt32, FieldsWithin bits db perRecord →
        (∀ limit : UInt32,
          SlotsComplete bits rows ((searchRecords env e query limit perRecord).run
            (quiet db none bits false)).1 ↔
          FieldsRead bits rows (limit.toNat * (atLeastOne perRecord).toNat)
            (ranked.take limit.toNat)) ∧
        ∀ perPage page : UInt32, (page.toNat + 1) * perPage.toNat ≤ 2 ^ 32 - 1 →
          (SlotsComplete bits rows ((searchRecordsPage env e query perPage page perRecord).run
            (quiet db none bits false)).1 ↔
          FieldsRead bits rows ((page.toNat + 1) * perPage.toNat * (atLeastOne perRecord).toNat)
            ((ranked.drop (page.toNat * perPage.toNat)).take perPage.toNat))) ∧
    (Rejected env e query → ∃ err, ∀ limit perRecord : UInt32,
      ((searchRecords env e query limit perRecord).run (quiet db none bits false)).1 =
        .err err) := by
  obtain ⟨hreject, hfound⟩ := matchedRows_spec env e query hs
  constructor
  · intro h
    obtain ⟨rows, hrows, _⟩ := hfound h
    have hsorted := (matchedRows_ok hs hrows).1
    have hnodup := hits_nodup (stored_nodup (matchedRows_ok hs hrows).2)
    have hlen := matchedRows_length hs hsize hrows
    -- the hits of a search come from the rows that it read
    have hread : ∀ (limit perRecord : UInt32) hit,
        hit ∈ recordsOf bits limit (saturatingMul limit perRecord) rows →
        hit ∈ collapse ((rows.take (limit.toNat * perRecord.toNat)).map (decoded bits)) := by
      intro limit perRecord hit hhit
      rw [recordsOf, limited_rawLimit hlen] at hhit
      exact List.mem_of_mem_take hhit
    refine ⟨rows, _, pagesPartition_of_rows hf hs bits hsize hrows
      (not_countFails_of_ranksHits db hst _), recordRanking bits hsorted,
      fun perRecord hfields => ⟨fun limit => ?_, fun perPage page hfit => ?_⟩⟩
    · obtain ⟨hits, hrun, hdef, hkeys⟩ := searchRecords_keys hf hs hb hsize hst hrows hfields limit
      rw [hrun, slotsComplete_iff hsorted hnodup (hdef ▸ hread limit (atLeastOne perRecord)), hkeys]
    · obtain ⟨total, htotal, hpage⟩ := searchRecordsPage_answer hf e query db hb hfit perRecord
      obtain ⟨hits, hrun, hdef, hkeys⟩ := searchRecords_keys hf hs hb hsize hst hrows hfields total
      have hsplit : (page.toNat + 1) * perPage.toNat =
          page.toNat * perPage.toNat + perPage.toNat := by
        rw [Nat.add_mul, Nat.one_mul]
      rw [hpage, hrows, Except.map, outcome, ← hdef, ← htotal,
        slotsComplete_iff hsorted hnodup fun hit hhit => hread total (atLeastOne perRecord) hit
          (hdef ▸ List.mem_of_mem_drop (List.mem_of_mem_take hhit)),
        List.map_take, List.map_drop, hkeys, htotal, hsplit, List.drop_take, List.take_take,
        Nat.add_sub_cancel_left, Nat.min_self]
  · intro h
    obtain ⟨err, hrows⟩ := hreject h
    refine ⟨err, fun limit perRecord => ?_⟩
    rw [searchRecords_run hf hb, hrows]
    rfl

/-! ### A record whose second field comes too late -/

/-- The actions of a host that uses the record layer only. -/
def RecordLayer : Action → Prop
  | .call (.index ..) | .call (.remove _) | .call (.indexBatch _) | .call (.removeBatch _) => False
  | _ => True

def scatteredActions : List Action :=
  [.reopen (.withConfig { normalize := .loose, strategy := .levenshtein, fieldBits := none }),
    .call (.indexRecord 1 [{ slot := 0, text := ['a'] }, { slot := 1, text := ['b'] }]),
    .call (.indexRecord 2 [{ slot := 0, text := ['a'] }])]

def scatteredHost : Host := Host.run .ascii {} scatteredActions

def scatteredEngine : SearchEngine :=
  { options := NormalizeProfile.loose.options, strategy := .levenshtein }

/-- Slot 1 of record 1 comes after slot 0 of record 2, and two hits are read for one record. -/
theorem scatteredHost_records :
    (scatteredHost.opened = some { engine := scatteredEngine, fieldBits := DEFAULT_FIELD_BITS } ∧
      scatteredHost.file.entries.toList.map (fun x => shrOf DEFAULT_FIELD_BITS x.1) = [1, 1, 2] ∧
      scatteredHost.file.entries.size = 3) ∧
    scatteredEngine.normalizer .ascii ['a'] = ['a'] ∧
    strategyRows .plain ['a'] scatteredHost.file .levenshtein =
      .ok [{ id := 256, score := 0 }, { id := 512, score := 0 }, { id := 257, score := 1 }] ∧
    ((searchRecords .ascii scatteredEngine ['a'] 1 2).run
      (quiet scatteredHost.file none DEFAULT_FIELD_BITS false)).1 =
      .ok [{ recordId := 1, score := 0, matchedSlots := [0] }] := by
  decide +kernel

theorem scatteredHost_matched : matchedRows .ascii scatteredEngine ['a'] scatteredHost.file =
    .ok [{ id := 256, score := 0 }, { id := 512, score := 0 }, { id := 257, score := 1 }] := by
  obtain ⟨_, hnorm, hrows, _⟩ := scatteredHost_records
  rw [matchedRows, hnorm]
  exact hrows

theorem scatteredHost_synced : Synced scatteredHost.file :=
  have hfresh : Host.Ok .ascii {} := Host.fresh_ok
  (Host.run_ok scatteredActions hfresh).invariant.synced

theorem scatteredHost_fields : FieldsWithin DEFAULT_FIELD_BITS scatteredHost.file 2 := by
  intro r
  have hle : [(1 : Int64), 1, 2].count r ≤ 2 := by
    by_cases hr : r ∈ [(1 : Int64), 2]
    · simp only [List.mem_cons, List.not_mem_nil, or_false] at hr
      rcases hr with rfl | rfl <;> decide
    · have hnone : [(1 : Int64), 1, 2].count r = 0 := by
        rw [List.count_eq_zero]
        simpa using hr
      omega
  rw [← scatteredHost_records.1.2.1, List.count_eq_countP, List.countP_map,
    List.countP_eq_length_filter] at hle
  exact hle

theorem matched_slots_not_complete :
    ¬ ∀ (actions : List Action) (o : OpenEngine) (query : Text) (limit perRecord : UInt32)
      (rows : List Hit), (∀ a ∈ actions, RecordLayer a) →
      (Host.run .ascii {} actions).opened = some o → RanksHits o.engine.strategy →
      FieldsWithin o.fieldBits (Host.run .ascii {} actions).file perRecord →
      PagesPartition .ascii o.engine query (Host.run .ascii {} actions).file o.fieldBits rows →
      SlotsComplete o.fieldBits rows ((searchRecords .ascii o.engine query limit perRecord).run
        (quiet (Host.run .ascii {} actions).file none o.fieldBits false)).1 := by
  intro h
  obtain ⟨⟨hopened, _, hsize⟩, _, _, hanswer⟩ := scatteredHost_records
  have hf : Env.ascii.sqlite.rowFault = none := rfl
  have hranks : RanksHits scatteredEngine.strategy := trivial
  have hpart := pagesPartition_of_rows hf scatteredHost_synced DEFAULT_FIELD_BITS
    (by rw [hsize]; decide) scatteredHost_matched (not_countFails_of_ranksHits _ hranks _)
  have hlayer : ∀ a ∈ scatteredActions, RecordLayer a := by
    intro a ha
    simp only [scatteredActions, List.mem_cons, List.not_mem_nil, or_false] at ha
    rcases ha with rfl | rfl | rfl <;> trivial
  have hslots := h scatteredActions _ ['a'] 1 2 _ hlayer hopened trivial scatteredHost_fields
    hpart _
    hanswer _ (List.mem_singleton_self _)
  exact absurd hslots.length_eq (by decide)

theorem search_records_top_scattered :
    ∃ rows ranked,
      PagesPartition .ascii scatteredEngine ['a'] scatteredHost.file DEFAULT_FIELD_BITS rows ∧
      RecordRanking DEFAULT_FIELD_BITS rows ranked ∧
      ∃ hits, ((searchRecords .ascii scatteredEngine ['a'] 1 2).run
        (quiet scatteredHost.file none DEFAULT_FIELD_BITS false)).1 = .ok hits ∧
        hits.map hitKey = ranked.take 1 := by
  have hf : Env.ascii.sqlite.rowFault = none := rfl
  have htop := search_records_top (e := scatteredEngine) hf scatteredHost_synced
    validBits_default (by rw [scatteredHost_records.1.2.2]; decide) trivial ['a']
  obtain ⟨rows, ranked, hpart, hranked, hall⟩ := htop.1 id
  exact ⟨rows, ranked, hpart, hranked, hall 1 2 scatteredHost_fields⟩

/-- Four hits are enough for both records. -/
theorem matched_slots_complete_scattered :
    ∃ rows ranked,
      PagesPartition .ascii scatteredEngine ['a'] scatteredHost.file DEFAULT_FIELD_BITS rows ∧
      RecordRanking DEFAULT_FIELD_BITS rows ranked ∧
      (SlotsComplete DEFAULT_FIELD_BITS rows ((searchRecords .ascii scatteredEngine ['a'] 2 2).run
        (quiet scatteredHost.file none DEFAULT_FIELD_BITS false)).1 ↔
        FieldsRead DEFAULT_FIELD_BITS rows 4 (ranked.take 2)) := by
  have hf : Env.ascii.sqlite.rowFault = none := rfl
  have hiff := matched_slots_complete_iff (e := scatteredEngine) hf scatteredHost_synced
    validBits_default (by rw [scatteredHost_records.1.2.2]; decide) trivial ['a']
  obtain ⟨rows, ranked, hpart, hranked, hall⟩ := hiff.1 id
  exact ⟨rows, ranked, hpart, hranked, (hall 2 scatteredHost_fields).1 2⟩

end SearchEngine

end Unfydqry
