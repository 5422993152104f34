import Unfydqry.HalfWritten

/-! # Undisturbed calls

What a call or an open of one handle does to a file where the other handle has left some
rows of `docs` half written, and what the single statements of a call do. -/

namespace Unfydqry

open LockedStore Prog SearchEngine

/-- The rows of an access. -/
def Access.Covers : Access → Int64 → Prop
  | .none, _ => False
  | .rows l, id => ∃ r ∈ l, Sql.between r.1 r.2 id = true
  | .all, _ => True

theorem Access.Apart.covers {a b : Access} (h : a.Apart b) {id : Int64} (ha : a.Covers id) :
    ¬ b.Covers id := by
  cases a with
  | none => exact ha.elim
  | all =>
    cases b with
    | none => exact fun hb => hb
    | rows l => exact h.elim
    | all => exact h.elim
  | rows l =>
    cases b with
    | none => exact fun hb => hb
    | all => exact h.elim
    | rows l' =>
      obtain ⟨r, hr, hin⟩ := ha
      rintro ⟨r', hr', hin'⟩
      simp only [Sql.between, Bool.and_eq_true, decide_eq_true_eq, Int64.le_iff_toInt_le]
        at hin hin'
      have hlt := h r hr r' hr'
      simp only [Int64.lt_iff_toInt_lt] at hlt
      omega

theorem Access.Apart.symm {a b : Access} (h : a.Apart b) : b.Apart a := by
  cases a with
  | none => cases b <;> trivial
  | all =>
    cases b with
    | none => trivial
    | rows l => exact h.elim
    | all => exact h.elim
  | rows l =>
    cases b with
    | none => trivial
    | all => exact h.elim
    | rows l' => exact fun r hr r' hr' => (h r' hr' r hr).symm

/-- The handle is up to date with what the call relies on: the normalizer, the width. -/
def Call.Current (o : OpenEngine) (file : Db) : Call → Prop
  | .index .. | .indexBatch .. =>
    file.metaTable.normalizeProfile = some o.engine.options.fingerprint
  | .indexRecord .. | .indexRecordsBatch .. =>
    file.metaTable.normalizeProfile = some o.engine.options.fingerprint ∧
      file.metaTable.fieldBits = some (bitsText o.fieldBits)
  | .removeRecord .. | .changeFieldBits .. =>
    file.metaTable.fieldBits = some (bitsText o.fieldBits)
  | _ => True

/-! ### A call that nothing falls into -/

/-- A file that a constructor has stamped. -/
structure Holds (env : Env) (o : NormalizeOptions) (texts : Catalog)
    (torn : Int64 → Option Text → Prop) (db : Db) : Prop where
  columns : db.columns = some { normRev := true, raw := true }
  bits : ∃ n, ValidBits n ∧ db.metaTable.fieldBits = some (bitsText n)
  profile : db.metaTable.normalizeProfile = some o.fingerprint
  rows : RendersBut env o texts torn db

section Call

variable {env : Env} {o : NormalizeOptions} {texts texts' : Catalog}
  {torn torn' : Int64 → Option Text → Prop} {db db' : Db} {oe : OpenEngine} {c : Call}

theorem Holds.keep (h : Holds env o texts torn db) (hk : Host.Keeps db db')
    (hr : RendersBut env o texts' torn' db') : Holds env o texts' torn' db' where
  columns := hk.columns.trans h.columns
  bits := by
    rw [hk.metaTable]
    exact h.bits
  profile := by rw [hk.metaTable, h.profile]
  rows := hr

theorem Holds.options_eq (h : Holds env o texts torn db) {o' : NormalizeOptions}
    (hcur : db.metaTable.normalizeProfile = some o'.fingerprint) : o = o' := by
  rw [h.profile, Option.some.injEq] at hcur
  exact NormalizeOptions.fingerprint_injective hcur

theorem width_eq {n : UInt8} (h : db.metaTable.fieldBits = some (bitsText n)) : db.width = n := by
  rw [Db.width, h, Option.bind_some, Host.parseU8_bitsText, Option.getD_some]

theorem call_run_ok {α : Type} {p : EngineM α} {g : α → Reply} {a : α} {w v : EngineWorld}
    (hp : c.prog env oe.engine = p >>= fun a => pure (g a)) (h : p.run w = (.ok a, v)) :
    ((Job.call oe c).prog env).run w = (.ok none, v) := by
  rw [Job.prog, hp]
  exact run_bind_pure_ok _ (run_bind_pure_ok g h)

theorem call_run_err {α : Type} {p : EngineM α} {g : α → Reply} {err : SearchError}
    {w v : EngineWorld} (hp : c.prog env oe.engine = p >>= fun a => pure (g a))
    (h : p.run w = (.err err, v)) : ((Job.call oe c).prog env).run w = (.err err, v) := by
  rw [Job.prog, hp]
  exact run_bind_pure_err _ (run_bind_pure_err g h)

/-- The job ends in a file that holds the texts it should keep. -/
def Leaves (env : Env) (job : Job) (texts : Catalog) (torn : Int64 → Option Text → Prop) (db : Db)
    (w : EngineWorld) : Prop :=
  ∃ out db' bits' o', (job.prog env).run w = (out, quiet db' none bits' false) ∧
    Holds env o' (job.kept env db.width texts out) torn db' ∧ ValidBits bits'

theorem Holds.call (h : Holds env o texts torn db) (hb : ValidBits oe.fieldBits)
    (hc : c.Mutating) (hcur : c.Current oe db)
    (hrows : ∀ id v, torn id v → ¬ (c.access oe.fieldBits).Covers id) :
    Leaves env (.call oe c) texts torn db (quiet db none oe.fieldBits false) := by
  have hbetween : ∀ a : Int64, Sql.between a a a = true := by simp [Sql.between]
  cases c with
  | index id text =>
    obtain rfl := h.options_eq hcur
    have hid : ∀ v, ¬ torn id v := fun v hv =>
      hrows id v hv ⟨(id, id), List.mem_singleton_self _, hbetween id⟩
    exact ⟨_, _, _, _, call_run_ok rfl (index_run env _ db _ id text),
      h.keep (Host.keeps_put db _ _) (h.rows.put hid text), hb⟩
  | remove id =>
    have hid : ∀ v, ¬ torn id v := fun v hv =>
      hrows id v hv ⟨(id, id), List.mem_singleton_self _, hbetween id⟩
    exact ⟨_, _, _, _, call_run_ok rfl (remove_run db _ id),
      h.keep (Host.keeps_drop db _) (h.rows.drop hid), hb⟩
  | indexBatch items =>
    obtain rfl := h.options_eq hcur
    have hids : ∀ item ∈ items, ∀ v, ¬ torn item.id v := fun item hitem v hv =>
      hrows _ v hv ⟨_, List.mem_map_of_mem hitem, hbetween item.id⟩
    exact ⟨_, _, _, _, call_run_ok rfl (indexBatch_run env _ db _ items),
      h.keep (Host.keeps_putItems items db) (h.rows.putItems hids), hb⟩
  | removeBatch ids =>
    have hids : ∀ id ∈ ids, ∀ v, ¬ torn id v := fun id hid v hv =>
      hrows _ v hv ⟨_, List.mem_map_of_mem hid, hbetween id⟩
    exact ⟨_, _, _, _, call_run_ok rfl (removeBatch_run db _ ids),
      h.keep (Host.Keeps.foldl Host.keeps_drop ids db) (h.rows.dropIds hids), hb⟩
  | removeAll =>
    have hnone : ∀ id v, ¬ torn id v := fun id v hv => hrows id v hv trivial
    exact ⟨_, _, _, _, call_run_ok rfl (removeAll_run db _), h.keep ⟨rfl, rfl⟩
      (.of_renders Renders.clear hnone), hb⟩
  | indexRecord r fields =>
    obtain rfl := h.options_eq hcur.1
    have hids : ∀ id v, torn id v →
        ¬ Sql.between (shlOf oe.fieldBits r) (hiOf oe.fieldBits r) id = true := fun id v hv hin =>
      hrows id v hv ⟨_, List.mem_singleton_self _, hin⟩
    by_cases hok : RecordOk oe.fieldBits r ∧ SlotsOk oe.fieldBits fields
    · refine ⟨_, _, _, oe.engine.options, call_run_ok rfl
        (indexRecord_run env _ db hb hok.1 hok.2), ?_, hb⟩
      rw [Job.kept, Job.keeps, Call.keeps, width_eq hcur.2]
      exact h.keep (Host.keeps_putRecord db ⟨r, fields⟩) (h.rows.putRecord hb hok.1 hok.2 hids)
    · obtain ⟨err, he⟩ := indexRecord_rejected env oe.engine db hb hok
      exact ⟨_, _, _, _, call_run_err rfl he, h, hb⟩
  | indexRecordsBatch records =>
    obtain rfl := h.options_eq hcur.1
    have hids : ∀ r ∈ records, ∀ id v, torn id v →
        ¬ Sql.between (shlOf oe.fieldBits r.recordId) (hiOf oe.fieldBits r.recordId) id = true :=
      fun r hr id v hv hin => hrows id v hv ⟨_, List.mem_map_of_mem hr, hin⟩
    by_cases hok : RecordsOk oe.fieldBits records
    · refine ⟨_, _, _, oe.engine.options, call_run_ok rfl
        (indexRecordsBatch_run env _ db hb hok), ?_, hb⟩
      rw [Job.kept, Job.keeps, Call.keeps, width_eq hcur.2]
      exact h.keep (Host.Keeps.foldl Host.keeps_putRecord records db)
        (h.rows.putRecords hb hok hids)
    · obtain ⟨err, he⟩ := indexRecordsBatch_rejected env oe.engine db hb hok
      exact ⟨_, _, _, _, call_run_err rfl he, h, hb⟩
  | removeRecord r =>
    have hids : ∀ id v, torn id v →
        ¬ Sql.between (shlOf oe.fieldBits r) (hiOf oe.fieldBits r) id = true := fun id v hv hin =>
      hrows id v hv ⟨_, List.mem_singleton_self _, hin⟩
    by_cases hok : RecordOk oe.fieldBits r
    · refine ⟨_, _, _, o, call_run_ok rfl (removeRecord_run db hb hok), ?_, hb⟩
      rw [Job.kept, Job.keeps, Call.keeps, width_eq hcur]
      exact h.keep ⟨rfl, rfl⟩ (h.rows.clearRange hids)
    · obtain ⟨err, he⟩ := removeRecord_rejected db hb hok
      exact ⟨_, _, _, _, call_run_err rfl he, h, hb⟩
  | reindex =>
    have hnone : ∀ id v, ¬ torn id v := fun id v hv => hrows id v hv trivial
    have hk : Host.Keeps db ((db.raws env).foldl (Db.renew env oe.engine) db) :=
      Host.Keeps.foldl Host.keeps_renew _ db
    refine ⟨_, _, _, _, call_run_ok rfl (reindex_run env _ db _), ⟨hk.columns.trans h.columns, ?_,
      rfl, .of_renders (h.rows.renders hnone).reindexed hnone⟩, hb⟩
    obtain ⟨n, hn, hbits⟩ := h.bits
    refine ⟨n, hn, ?_⟩
    change (List.foldl (Db.renew env oe.engine) db (db.raws env)).metaTable.fieldBits = _
    rw [hk.metaTable, hbits]
  | changeFieldBits new =>
    have hnone : ∀ id v, ¬ torn id v := fun id v hv => hrows id v hv trivial
    have hw := width_eq hcur
    by_cases hn : ValidBits new
    · by_cases hne : new = oe.fieldBits
      · subst hne
        refine ⟨_, _, _, o, call_run_ok rfl (changeFieldBits_same env db hn), ?_, hb⟩
        rw [Job.kept, Job.keeps, Call.keeps, hw, if_pos rfl]
        exact h
      · by_cases hok : ∀ row ∈ db.rows env, Repackable oe.fieldBits new row.1
        · refine ⟨_, _, _, o, call_run_ok rfl (changeFieldBits_run env db hb hn hne hok),
            ⟨h.columns, ⟨new, hn, rfl⟩, h.profile, ?_⟩, hn⟩
          rw [Job.kept, Job.keeps, Call.keeps, hw, if_neg hne]
          exact .of_renders ((h.rows.renders hnone).repacked hb hn hok) hnone
        · obtain ⟨err, he⟩ := changeFieldBits_rejected env db hb hn hne hok
          exact ⟨_, _, _, _, call_run_err rfl he, h, hb⟩
    · obtain ⟨err, he⟩ := @changeFieldBits_invalid env db oe.fieldBits new hn
      exact ⟨_, _, _, _, call_run_err rfl he, h, hb⟩
  | _ => exact hc.elim

end Call

/-! ### An open that nothing falls into -/

/-- A file that no constructor has stamped yet: it has no rows. -/
structure Blank (db : Db) : Prop where
  schema : db.columns = some { normRev := true, raw := true } ∨ db.columns = none
  docs : db.docs = ∅
  entries : db.entries = ∅
  profile : db.metaTable.normalizeProfile = none
  bits : db.metaTable.fieldBits = none

def InOrder (env : Env) (texts : Catalog) (torn : Int64 → Option Text → Prop) (db : Db) : Prop :=
  (∃ o, Holds env o texts torn db) ∨ Blank db ∧ texts = ∅ ∧ ∀ id v, ¬ torn id v

section Open

variable {env : Env} {texts : Catalog} {torn : Int64 → Option Text → Prop} {db db' : Db}

theorem InOrder.fileOk (h : InOrder env texts torn db) (hnone : ∀ id v, ¬ torn id v) :
    Host.FileOk env db ∧ ∃ o, Renders env o texts db ∧
      (db.entries ≠ ∅ → db.metaTable.normalizeProfile = some o.fingerprint) := by
  rcases h with ⟨o, h⟩ | ⟨h, rfl, _⟩
  · have hr := h.rows.renders hnone
    obtain ⟨n, hn, hbits⟩ := h.bits
    refine ⟨⟨.inl h.columns, ⟨o, texts, hr, fun _ => h.profile⟩, fun value hv => ?_⟩,
      o, hr, fun _ => h.profile⟩
    rw [hbits, Option.some.injEq] at hv
    exact ⟨n, hn, hv.symm⟩
  · have hr : Renders env {} ∅ db := Renders.empty h.docs h.entries
    refine ⟨⟨?_, ⟨{}, ∅, hr, fun hne => absurd h.entries hne⟩, fun value hv => ?_⟩,
      {}, hr, fun hne => absurd h.entries hne⟩
    · exact h.schema.imp id fun hc => ⟨hc, h.entries⟩
    · rw [h.bits] at hv
      cases hv

theorem InOrder.opened (h : InOrder env texts torn db) (hfile : Host.FileOk env db) :
    InOrder env texts torn (db.opened env) := by
  obtain ⟨hdocs, hentries, hcol, hprofile, hbits⟩ := hfile.opened_same
  rcases h with ⟨o, h⟩ | ⟨h, htexts, hnone⟩
  · refine .inl ⟨o, hcol, by rw [hbits]; exact h.bits, by rw [hprofile, h.profile], ?_⟩
    exact ⟨fun id => by rw [hentries, h.rows.entries],
      fun id v hv => by rw [hdocs, h.rows.half id v hv],
      fun id hv => by rw [hdocs, h.rows.whole id hv]⟩
  · exact .inr ⟨⟨.inl hcol, by rw [hdocs, h.docs], by rw [hentries, h.entries],
      by rw [hprofile, h.profile], by rw [hbits, h.bits]⟩, htexts, hnone⟩

theorem InOrder.opening (h : InOrder env texts torn db) (hnone : ∀ id v, ¬ torn id v)
    (c : Constructor) :
    ∃ out db' bits', ((Job.opening c).prog env).run (quiet db none 0 false) =
        (out, quiet db' none bits' false) ∧ InOrder env texts torn db' ∧
      (∀ engine, out = .ok (some engine) →
        ValidBits bits' ∧ db'.metaTable.normalizeProfile ≠ none) ∧
      (db.metaTable.normalizeProfile ≠ none → db'.metaTable.normalizeProfile ≠ none) := by
  obtain ⟨hfile, o, hr, hstamp⟩ := h.fileOk hnone
  obtain ⟨hdocs, hentries, hcol, hprofile, _⟩ := hfile.opened_same
  obtain ⟨options, strategy, fieldBits, rebuild, hprog⟩ := Host.constructor_eq env c
  rw [Job.prog, hprog, map_eq_bind]
  cases heff : effectiveBits fieldBits (db.opened env).storedFieldBits with
  | error err =>
    exact ⟨_, _, _, run_bind_pure_err some
      (openEngine_bits_rejected env db 0 options strategy fieldBits rebuild heff), h.opened hfile,
      by simp, fun hp => by rwa [hprofile]⟩
  | ok n =>
    by_cases hp : rebuild = true ∨
        ((db.opened env).storedProfile.any fun s => s ≠ options.fingerprint) = false
    · -- accepted: the file is stamped, and its rows are those of the new options
      obtain ⟨hopened, _⟩ := hfile.opened
      have hn := hopened.effective heff
      have hengine := hopened.adopted hcol { options := options, strategy := strategy } hn
      have hrows := (hr.of_eq hdocs hentries).adopted
        (e := { options := options, strategy := strategy })
        (by rw [hentries, hprofile]; exact hstamp) n
      have hstamped : ((db.opened env).adopted env { options := options, strategy := strategy }
          n).metaTable.normalizeProfile ≠ none := by
        rw [hengine.profile]
        simp
      exact ⟨_, _, _, run_bind_pure_ok some
        (openEngine_run env db 0 options strategy fieldBits rebuild heff hp),
        .inl ⟨options, hengine.schema, ⟨n, hn, hengine.stamp⟩, hengine.profile,
          .of_renders hrows hnone⟩, fun _ _ => ⟨hn, hstamped⟩, fun _ => hstamped⟩
    · rw [not_or, Bool.not_eq_true, Bool.not_eq_false] at hp
      obtain ⟨rfl, hother⟩ := hp
      obtain ⟨stored, hs, hne⟩ := (Option.any_eq_true _ _).mp hother
      exact ⟨_, _, _, run_bind_pure_err some
        (openEngine_profile_rejected env db 0 options strategy fieldBits heff hs
          (of_decide_eq_true hne)), h.opened hfile, by simp, fun hp => by rwa [hprofile]⟩

end Open

/-! ### The turns of a call -/

section Turns

variable (env : Env) (o : OpenEngine)

/-- What is left of `index` after two statements. -/
def storeEntry (id : Int64) (text : Text) : EngineM (Option SearchEngine) :=
  .exec (Sql.replaceEntry id (o.engine.entryOf env text)) fun _ => .unlock (.done (.ok none))

/-- What is left of `index` after one. -/
def listDoc (id : Int64) (text : Text) : EngineM (Option SearchEngine) :=
  .exec (Sql.insertDoc id (o.engine.normalizer env text)) fun _ => storeEntry env o id text

def dropEntry (id : Int64) : EngineM (Option SearchEngine) :=
  .exec (Sql.deleteEntry id) fun _ => .unlock (.done (.ok none))

def dropEntries (lo hi : Int64) : EngineM (Option SearchEngine) :=
  .exec (Sql.deleteEntriesBetween lo hi) fun _ => .unlock (.done (.ok none))

variable (db : Db) (bits : UInt8)

theorem index_turn (id : Int64) (text : Text) :
    ((Job.call o (.index id text)).prog env).turn (quiet db none bits false) =
      (listDoc env o id text, quiet { db with docs := db.docs.erase id } none bits true) := by
  have hprog : (Job.call o (.index id text)).prog env =
      .lock (.db "connection mutex poisoned") (.exec (Sql.deleteDoc id) fun _ =>
        listDoc env o id text) := by
    rfl
  rw [hprog, turn_lock_quiet _ bits _ rfl, listDoc, rest_exec_quiet]

theorem listDoc_turn {id : Int64} (text : Text) (h : db.docs[id]? = none) :
    (listDoc env o id text).turn (quiet db none bits true) =
      (storeEntry env o id text,
        quiet { db with docs := db.docs.insert id (o.engine.normalizer env text) } none bits
          true) := by
  have hs : Sql.insertDoc id (o.engine.normalizer env text) db =
      .ok ((), { db with docs := db.docs.insert id (o.engine.normalizer env text) }) := by
    rw [Sql.insertDoc, (Table.contains_eq_false_iff _ _).mpr h]
    rfl
  rw [listDoc, turn_exec_quiet _ _ _ hs]
  rfl

theorem storeEntry_turn (id : Int64) (text : Text) :
    (storeEntry env o id text).turn (quiet db none bits true) =
      (.done (.ok none),
        quiet { db with entries := db.entries.insert id (o.engine.entryOf env text) } none bits
          false) := rfl

theorem remove_turn (id : Int64) :
    ((Job.call o (.remove id)).prog env).turn (quiet db none bits false) =
      (dropEntry id, quiet { db with docs := db.docs.erase id } none bits true) := rfl

theorem dropEntry_turn (id : Int64) :
    (dropEntry id).turn (quiet db none bits true) =
      (.done (.ok none), quiet { db with entries := db.entries.erase id } none bits false) := rfl

theorem dropEntries_turn (lo hi : Int64) :
    (dropEntries lo hi).turn (quiet db none bits true) =
      (.done (.ok none),
        quiet { db with entries := Table.eraseWhere (Sql.between lo hi) db.entries } none bits
          false) := rfl

variable {bits}

theorem removeRecord_turn (hb : ValidBits bits) {r : Int64} (hr : RecordOk bits r) :
    ((Job.call o (.removeRecord r)).prog env).turn (quiet db none bits false) =
      (dropEntries (shlOf bits r) (hiOf bits r),
        quiet { db with
          docs := Table.eraseWhere (Sql.between (shlOf bits r) (hiOf bits r)) db.docs } none bits
          true) := by
  have hcheck : (checkRecordId r).eval (quiet db none bits false) =
      (.ok bits, quiet db none bits false) := by
    rw [eval_checkRecordId_quiet db none false hb, if_pos hr]
  have hrest : (removeRecord r).rest (quiet db none bits false) =
      (.exec (Sql.deleteDocsBetween (shlOf bits r) (hiOf bits r)) fun _ =>
        .exec (Sql.deleteEntriesBetween (shlOf bits r) (hiOf bits r)) fun _ =>
          .unlock (.done (.ok ())), quiet db none bits true) := by
    rw [removeRecord, rest_bind_loads (uses_checkRecordId trivial r) _ hcheck,
      rest_bind_loads (uses_recordIdRange trivial r) _
        (eval_recordIdRange_quiet db none false hb r)]
    rfl
  have hprog : ((Job.call o (.removeRecord r)).prog env).rest (quiet db none bits false) =
      (.exec (Sql.deleteDocsBetween (shlOf bits r) (hiOf bits r)) fun _ =>
        dropEntries (shlOf bits r) (hiOf bits r), quiet db none bits true) := by
    have hunit : (removeRecord r >>= fun _ => pure Reply.unit).rest (quiet db none bits false) =
        (.exec (Sql.deleteDocsBetween (shlOf bits r) (hiOf bits r)) fun _ =>
          .exec (Sql.deleteEntriesBetween (shlOf bits r) (hiOf bits r)) fun _ =>
            .unlock (.done (.ok .unit)), quiet db none bits true) := by
      rw [rest_bind, hrest]
      rfl
    rw [Job.prog, Call.prog, rest_bind, hunit]
    rfl
  rw [turn, hprog]
  rfl

theorem removeRecord_turn_rejected (hb : ValidBits bits) {r : Int64} (hr : ¬ RecordOk bits r) :
    ∃ err, ((Job.call o (.removeRecord r)).prog env).turn (quiet db none bits false) =
      (.done (.err err), quiet db none bits false) := by
  refine ⟨.db s!"record_id {r} out of range for field_bits {bits}", ?_⟩
  have hcheck := eval_checkRecordId_quiet db none false hb r
  rw [if_neg hr] at hcheck
  have hrest : (removeRecord r).rest (quiet db none bits false) = (.done (.err (.db
      s!"record_id {r} out of range for field_bits {bits}")), quiet db none bits false) := by
    rw [removeRecord, rest_bind, rest_loads (uses_checkRecordId trivial r), hcheck]
    rfl
  have hunit : (removeRecord r >>= fun _ => pure Reply.unit).rest (quiet db none bits false) =
      (.done (.err (.db s!"record_id {r} out of range for field_bits {bits}")),
        quiet db none bits false) := by
    rw [rest_bind, hrest]
    rfl
  have hprog : ((Job.call o (.removeRecord r)).prog env).rest (quiet db none bits false) =
      (.done (.err (.db s!"record_id {r} out of range for field_bits {bits}")),
        quiet db none bits false) := by
    rw [Job.prog, Call.prog, rest_bind, hunit]
    rfl
  rw [turn, hprog]
  rfl

end Turns

/-! ### Calls on a poisoned mutex -/

theorem locks_indexRecord (env : Env) (e : SearchEngine) (r : Int64) (fields : List FieldValue) :
    (indexRecord env e r fields).Locks := by
  refine locks_bind (uses_checkRecordId trivial r) fun bits => locks_bind (uses_trap _ _)
    fun cap => locks_bind (uses_orThrow _) fun _ => locks_bind (uses_recordIdRange trivial r)
      fun range => ?_
  trivial

theorem locks_indexRecordsBatch (env : Env) (e : SearchEngine) {records : List RecordIndexItem}
    (hne : records.isEmpty = false) : (indexRecordsBatch env e records).Locks := by
  unfold indexRecordsBatch
  rw [hne]
  refine locks_bind (uses_read trivial) fun bits => locks_bind
    (uses_bind (uses_read trivial) fun _ => uses_trap _ _) fun max =>
      locks_bind (uses_trap _ _) fun cap => locks_bind (uses_orThrow _) fun _ => ?_
  trivial

theorem locks_removeRecord (r : Int64) : (removeRecord r).Locks := by
  refine locks_bind (uses_checkRecordId trivial r) fun bits =>
    locks_bind (uses_recordIdRange trivial r) fun range => ?_
  trivial

theorem locks_changeFieldBits (env : Env) (new : UInt8) : (changeFieldBits env new).Locks := by
  refine locks_bind (uses_orThrow _) fun _ => ?_
  trivial

theorem poisoned_turn (env : Env) (o : OpenEngine) {c : Call} (hc : c.Mutating) (w : EngineWorld)
    (hw : w.poisoned = true) (width : UInt8) (texts : Catalog) :
    ∃ out, ((Job.call o c).prog env).turn w = (.done out, w) ∧
      (Job.call o c).kept env width texts out = texts := by
  have hlocks : (c.prog env o.engine).Locks → ∃ out,
      ((Job.call o c).prog env).turn w = (.done out, w) ∧
        (Job.call o c).kept env width texts out = texts := by
    intro h
    obtain ⟨out, hout, hturn⟩ := turn_poisoned (locks_bind_pure h fun _ => none) w hw
    refine ⟨out, hturn, ?_⟩
    cases out with
    | ok a => exact absurd rfl (hout a)
    | err e => rfl
    | panic => rfl
  cases c with
  | index id text => exact hlocks trivial
  | remove id => exact hlocks trivial
  | indexBatch items =>
    cases items with
    | nil => exact ⟨_, rfl, rfl⟩
    | cons item items => exact hlocks trivial
  | removeBatch ids =>
    cases ids with
    | nil => exact ⟨_, rfl, rfl⟩
    | cons id ids => exact hlocks trivial
  | removeAll => exact hlocks trivial
  | indexRecord r fields => exact hlocks (locks_bind_pure (locks_indexRecord env _ r fields) _)
  | indexRecordsBatch records =>
    cases records with
    | nil => exact ⟨_, rfl, rfl⟩
    | cons r records => exact hlocks (locks_bind_pure (locks_indexRecordsBatch env _ rfl) _)
  | removeRecord r => exact hlocks (locks_bind_pure (locks_removeRecord r) _)
  | reindex => exact hlocks trivial
  | changeFieldBits new => exact hlocks (locks_bind_pure (locks_changeFieldBits env new) _)
  | _ => exact hc.elim

end Unfydqry
