import Unfydqry.Catalog
import Unfydqry.Engine.Shape

/-! # The invariant of an index over whole runs

A host opens, uses, closes and reopens one file, with any options. The file always
renders a catalog under the option set it is stamped with, and an open engine runs
under that option set and the stamped width. -/

namespace Unfydqry

open LockedStore Prog SearchEngine

namespace Host

/-- A file no engine is open on. -/
structure FileOk (env : Env) (db : Db) : Prop where
  schema : db.columns = some { normRev := true, raw := true } ∨
    db.columns = none ∧ db.entries = ∅
  rendered : ∃ o texts, Renders env o texts db ∧
    (db.entries ≠ ∅ → db.metaTable.normalizeProfile = some o.fingerprint)
  bits : ∀ value, db.metaTable.fieldBits = some value → ∃ n, ValidBits n ∧ value = bitsText n

/-- A file with an engine open on it. -/
structure EngineOk (env : Env) (db : Db) (e : SearchEngine) (bits : UInt8) : Prop where
  schema : db.columns = some { normRev := true, raw := true }
  rendered : ∃ texts, Renders env e.options texts db
  profile : db.metaTable.normalizeProfile = some e.options.fingerprint
  stamp : db.metaTable.fieldBits = some (bitsText bits)
  valid : ValidBits bits

def Ok (env : Env) (h : Host) : Prop :=
  match h.opened with
  | none => FileOk env h.file
  | some o => EngineOk env h.file o.engine o.fieldBits

variable {env : Env} {db : Db} {e : SearchEngine} {bits : UInt8}

theorem EngineOk.fileOk (h : EngineOk env db e bits) : FileOk env db where
  schema := .inl h.schema
  rendered := by
    obtain ⟨texts, ht⟩ := h.rendered
    exact ⟨e.options, texts, ht, fun _ => h.profile⟩
  bits value hv := by
    rw [h.stamp, Option.some.injEq] at hv
    exact ⟨bits, h.valid, hv.symm⟩

theorem Ok.fileOk {h : Host} (hok : h.Ok env) : FileOk env h.file := by
  unfold Ok at hok
  split at hok
  · exact hok
  · exact hok.fileOk

theorem fresh_ok : Ok env {} where
  schema := .inr ⟨rfl, rfl⟩
  rendered := ⟨{}, ∅, Renders.empty rfl rfl, fun h => absurd rfl h⟩
  bits value hv := by cases hv

/-! ### A call -/

/-- An effect on the tables leaves the schema and `meta` alone. -/
structure Keeps (db db' : Db) : Prop where
  columns : db'.columns = db.columns
  metaTable : db'.metaTable = db.metaTable

theorem Keeps.refl (db : Db) : Keeps db db := ⟨rfl, rfl⟩

theorem Keeps.foldl {α : Type} {g : Db → α → Db} (hg : ∀ db a, Keeps db (g db a)) (as : List α)
    (db : Db) : Keeps db (as.foldl g db) := by
  induction as generalizing db with
  | nil => exact .refl db
  | cons a as ih =>
    obtain ⟨hc, hm⟩ := ih (g db a)
    exact ⟨hc.trans (hg db a).columns, hm.trans (hg db a).metaTable⟩

theorem keeps_put (db : Db) (id : Int64) (text : Text) : Keeps db (db.put env e id text) :=
  ⟨rfl, rfl⟩

theorem keeps_drop (db : Db) (id : Int64) : Keeps db (db.drop id) := ⟨rfl, rfl⟩

theorem keeps_putItems (items : List IndexItem) (db : Db) : Keeps db (db.putItems env e items) := by
  unfold Db.putItems
  exact Keeps.foldl (fun db item => keeps_put db item.id item.text) items db

theorem keeps_renew (db : Db) (row : Int64 × Text) : Keeps db (db.renew env e row) := ⟨rfl, rfl⟩

theorem keeps_putField (r : Int64) (db : Db) (f : FieldValue) :
    Keeps db (db.putField env e bits r f) := by
  unfold Db.putField
  split
  · exact .refl db
  · exact keeps_put db _ _

theorem keeps_putRecord (db : Db) (r : RecordIndexItem) :
    Keeps db (db.putRecord env e bits r.recordId r.fields) := by
  have hstep : ∀ db f, Keeps db (Db.putField env e bits r.recordId db f) :=
    keeps_putField r.recordId
  obtain ⟨hc, hm⟩ := Keeps.foldl hstep r.fields
    (db.clearRange (shlOf bits r.recordId) (hiOf bits r.recordId))
  exact ⟨hc, hm⟩

theorem EngineOk.tables {db' : Db} (h : EngineOk env db e bits) {texts : Catalog}
    (hr : Renders env e.options texts db') (hk : Keeps db db') : EngineOk env db' e bits where
  schema := hk.columns.trans h.schema
  rendered := ⟨texts, hr⟩
  profile := by rw [hk.metaTable, h.profile]
  stamp := by rw [hk.metaTable, h.stamp]
  valid := h.valid

theorem EngineOk.reindexed (h : EngineOk env db e bits) :
    EngineOk env (db.reindexed env e) e bits := by
  obtain ⟨texts, ht⟩ := h.rendered
  have hk : Keeps db ((db.raws env).foldl (Db.renew env e) db) :=
    Keeps.foldl keeps_renew _ db
  refine ⟨hk.columns.trans h.schema, ⟨texts, ht.reindexed⟩, rfl, ?_, h.valid⟩
  change (List.foldl (Db.renew env e) db (db.raws env)).metaTable.fieldBits = _
  rw [hk.metaTable, h.stamp]

theorem EngineOk.repacked (h : EngineOk env db e bits) {new : UInt8} (hn : ValidBits new)
    (hok : ∀ row ∈ db.rows env, Repackable bits new row.1) :
    EngineOk env (db.repacked env bits new) e new := by
  obtain ⟨texts, ht⟩ := h.rendered
  exact ⟨h.schema, ⟨_, ht.repacked h.valid hn hok⟩, h.profile, rfl, hn⟩

theorem EngineOk.of_run {α : Type} {p : EngineM α} {o : Outcome SearchError α} {w : EngineWorld}
    {db' : Db} {bits' : UInt8} (hrun : p.run w = (o, quiet db' none bits' false))
    (h : EngineOk env db' e bits') : EngineOk env (p.run w).2.db e (p.run w).2.cell := by
  rw [hrun]
  exact h

theorem EngineOk.changeFieldBits (h : EngineOk env db e bits) (new : UInt8) :
    EngineOk env ((changeFieldBits env new).run (quiet db none bits false)).2.db e
      ((changeFieldBits env new).run (quiet db none bits false)).2.cell := by
  have hb := h.valid
  by_cases hn : ValidBits new
  · by_cases hne : new = bits
    · subst hne
      exact .of_run (changeFieldBits_same env db hn) h
    · by_cases hok : ∀ row ∈ db.rows env, Repackable bits new row.1
      · exact .of_run (changeFieldBits_run env db hb hn hne hok) (h.repacked hn hok)
      · obtain ⟨err, he⟩ := changeFieldBits_rejected env db hb hn hne hok
        exact .of_run he h
  · obtain ⟨err, he⟩ := @changeFieldBits_invalid env db bits new hn
    exact .of_run he h

theorem EngineOk.call (h : EngineOk env db e bits) (c : Call) :
    EngineOk env ((c.prog env e).run (quiet db none bits false)).2.db e
      ((c.prog env e).run (quiet db none bits false)).2.cell := by
  obtain ⟨texts, ht⟩ := h.rendered
  have hb := h.valid
  by_cases hc : c.Mutating
  · cases c with
    | index id text =>
      rw [Call.prog, run_bind_pure_world]
      exact .of_run (index_run env e db bits id text) (h.tables (ht.put id text) (keeps_put db _ _))
    | remove id =>
      rw [Call.prog, run_bind_pure_world]
      exact .of_run (remove_run db bits id) (h.tables (ht.drop id) (keeps_drop db _))
    | indexBatch items =>
      rw [Call.prog, map_eq_bind, run_bind_pure_world]
      exact .of_run (indexBatch_run env e db bits items) (h.tables (ht.putItems items)
        (keeps_putItems items db))
    | removeBatch ids =>
      rw [Call.prog, map_eq_bind, run_bind_pure_world]
      exact .of_run (removeBatch_run db bits ids) (h.tables (ht.dropIds ids)
        (Keeps.foldl keeps_drop ids db))
    | removeAll =>
      rw [Call.prog, map_eq_bind, run_bind_pure_world]
      exact .of_run (removeAll_run db bits) (h.tables Renders.clear ⟨rfl, rfl⟩)
    | indexRecord r fields =>
      rw [Call.prog, run_bind_pure_world]
      by_cases hok : RecordOk bits r ∧ SlotsOk bits fields
      · exact .of_run (indexRecord_run env e db hb hok.1 hok.2)
          (h.tables (ht.putRecord bits r fields) (keeps_putRecord db ⟨r, fields⟩))
      · obtain ⟨err, he⟩ := indexRecord_rejected env e db hb hok
        exact .of_run he h
    | indexRecordsBatch records =>
      rw [Call.prog, map_eq_bind, run_bind_pure_world]
      by_cases hok : RecordsOk bits records
      · exact .of_run (indexRecordsBatch_run env e db hb hok)
          (h.tables (ht.putRecords bits records) (Keeps.foldl keeps_putRecord records db))
      · obtain ⟨err, he⟩ := indexRecordsBatch_rejected env e db hb hok
        exact .of_run he h
    | removeRecord r =>
      rw [Call.prog, run_bind_pure_world]
      by_cases hok : RecordOk bits r
      · exact .of_run (removeRecord_run db hb hok) (h.tables (ht.clearRange _ _) ⟨rfl, rfl⟩)
      · obtain ⟨err, he⟩ := removeRecord_rejected db hb hok
        exact .of_run he h
    | reindex =>
      rw [Call.prog, map_eq_bind, run_bind_pure_world]
      exact .of_run (reindex_run env e db bits) h.reindexed
    | changeFieldBits new =>
      rw [Call.prog, map_eq_bind, run_bind_pure_world]
      exact h.changeFieldBits new
    | _ => exact hc.elim
  · obtain ⟨hdb, hcell⟩ := reads_run (reads_call env e hc) (quiet db none bits false) rfl
    rw [hdb, hcell]
    exact h

/-! ### An open -/

/-- With both columns there, the schema statements end after the first. -/
theorem opened_of_created (hc : db.created.columns = some { normRev := true, raw := true }) :
    db.opened env = db.created := by
  have hraw : db.created.withRaw = db.created := by
    rw [Db.withRaw, if_pos (by rw [hc]; rfl)]
  have hrev : db.created.withNormRev env = db.created := by
    rw [Db.withNormRev, if_pos (by rw [hc]; rfl)]
  rw [Db.opened, hraw, hrev]

theorem opened_of_full (h : db.columns = some { normRev := true, raw := true }) :
    (db.opened env).docs = db.docs ∧ (db.opened env).entries = db.entries ∧
      (db.opened env).columns = db.columns ∧
      (db.opened env).metaTable.normalizeProfile = db.metaTable.normalizeProfile ∧
      (db.opened env).metaTable.fieldBits = db.metaTable.fieldBits := by
  have hc : db.created.columns = some { normRev := true, raw := true } := by
    simp only [Db.created, h]
    split
    · exact h
    · rfl
  rw [opened_of_created hc]
  simp only [Db.created, h]
  split <;> simp [h]

theorem opened_of_none (h : db.columns = none) (he : db.entries = ∅) :
    (db.opened env).docs = db.docs ∧ (db.opened env).entries = db.entries ∧
      (db.opened env).columns = some { normRev := true, raw := true } ∧
      (db.opened env).metaTable.normalizeProfile = db.metaTable.normalizeProfile ∧
      (db.opened env).metaTable.fieldBits = db.metaTable.fieldBits := by
  have hc : db.created.columns = some { normRev := true, raw := true } := by
    simp only [Db.created, h]
    split <;> rfl
  rw [opened_of_created hc]
  simp only [Db.created, h]
  split <;> simp [he]

theorem FileOk.opened_same (h : FileOk env db) :
    (db.opened env).docs = db.docs ∧ (db.opened env).entries = db.entries ∧
      (db.opened env).columns = some { normRev := true, raw := true } ∧
      (db.opened env).metaTable.normalizeProfile = db.metaTable.normalizeProfile ∧
      (db.opened env).metaTable.fieldBits = db.metaTable.fieldBits := by
  rcases h.schema with hfull | ⟨hnone, hempty⟩
  · have hsame := @opened_of_full env db hfull
    rwa [hfull] at hsame
  · exact opened_of_none hnone hempty

theorem FileOk.opened (h : FileOk env db) :
    FileOk env (db.opened env) ∧
      (db.opened env).columns = some { normRev := true, raw := true } := by
  obtain ⟨hd, he, hc, hp, hb⟩ := h.opened_same
  refine ⟨⟨.inl hc, ?_, ?_⟩, hc⟩
  · obtain ⟨o, texts, hr, hstamp⟩ := h.rendered
    refine ⟨o, texts, hr.of_eq hd he, ?_⟩
    rw [he, hp]
    exact hstamp
  · rw [hb]
    exact h.bits

theorem parseU8_bitsText (n : UInt8) : parseU8 (bitsText n) = some n := by
  have h : ∀ k : Fin 256, parseU8 (bitsText (UInt8.ofNat k)) = some (UInt8.ofNat k) := by
    decide +kernel
  have hn := h ⟨n.toNat, n.toNat_lt⟩
  simpa using hn

theorem FileOk.effective (h : FileOk env db) {fieldBits : Option UInt8} {n : UInt8}
    (he : effectiveBits fieldBits db.storedFieldBits = .ok n) : ValidBits n := by
  cases fieldBits with
  | some k => exact validBits_of_requested he
  | none =>
    have hn := Except.ok.inj he
    rw [← hn]
    unfold Db.storedFieldBits
    split
    · exact validBits_default
    · cases hv : db.metaTable.fieldBits with
      | none => exact validBits_default
      | some value =>
        obtain ⟨m, hm, rfl⟩ := h.bits value hv
        simpa only [Option.bind_some, parseU8_bitsText, Option.getD_some] using hm

theorem FileOk.adopted (h : FileOk env db)
    (hc : db.columns = some { normRev := true, raw := true }) (e : SearchEngine) {n : UInt8}
    (hn : ValidBits n) : EngineOk env (db.adopted env e n) e n := by
  obtain ⟨o, texts, hr, hstamp⟩ := h.rendered
  have hrendered : Renders env e.options texts (db.adopted env e n) := hr.adopted hstamp n
  unfold Db.adopted at hrendered ⊢
  split
  · rename_i hold
    rw [if_pos hold] at hrendered
    have hk : Keeps (db.stampedBits n)
        (((db.stampedBits n).raws env).foldl (Db.renew env e) (db.stampedBits n)) :=
      Keeps.foldl keeps_renew _ _
    refine ⟨hk.columns.trans hc, ⟨texts, hrendered⟩, rfl, ?_, hn⟩
    change (List.foldl (Db.renew env e) (db.stampedBits n) _).metaTable.fieldBits = _
    rw [hk.metaTable]
    rfl
  · rename_i hold
    rw [if_neg hold] at hrendered
    exact ⟨hc, ⟨texts, hrendered⟩, rfl, rfl, hn⟩

theorem constructor_eq (env : Env) (c : Constructor) :
    ∃ options strategy fieldBits rebuild,
      c.prog env = openEngine env options strategy fieldBits rebuild := by
  cases c <;> exact ⟨_, _, _, _, rfl⟩

theorem FileOk.reopen (h : FileOk env db) (c : Constructor) :
    Ok env (step env { file := db } (.reopen c)) := by
  obtain ⟨hopened, hcol⟩ := h.opened
  obtain ⟨options, strategy, fieldBits, rebuild, hprog⟩ := constructor_eq env c
  have hworld : openWorld db = quiet db none 0 false := rfl
  have hrej : ∀ err, (c.prog env).run (openWorld db) =
      (.err err, quiet (db.opened env) none 0 false) →
      Ok env (step env { file := db } (.reopen c)) := by
    intro err hrun
    simp only [step, hrun, Ok]
    exact hopened
  rw [hprog, hworld] at hrej
  cases he : effectiveBits fieldBits (db.opened env).storedFieldBits with
  | error err =>
    exact hrej err (openEngine_bits_rejected env db 0 options strategy fieldBits rebuild he)
  | ok n =>
    have hn := hopened.effective he
    have hacc : (rebuild = true ∨
        ((db.opened env).storedProfile.any fun s => s ≠ options.fingerprint) = false) →
        Ok env (step env { file := db } (.reopen c)) := by
      intro hp
      have hrun := openEngine_run env db 0 options strategy fieldBits rebuild he hp
      simp only [step, hprog, hworld, hrun, Ok]
      exact hopened.adopted hcol { options := options, strategy := strategy } hn
    cases rebuild with
    | true => exact hacc (.inl rfl)
    | false =>
      cases hm : (db.opened env).storedProfile.any fun s => s ≠ options.fingerprint with
      | false => exact hacc (.inr hm)
      | true =>
        cases hs : (db.opened env).storedProfile with
        | none =>
          rw [hs] at hm
          cases hm
        | some stored =>
          rw [hs, Option.any_some] at hm
          exact hrej _ (openEngine_profile_rejected env db 0 options strategy fieldBits he hs
            (of_decide_eq_true hm))

theorem Ok.step {h : Host} (hok : h.Ok env) (a : Action) : (h.step env a).Ok env := by
  cases a with
  | close => exact hok.fileOk
  | reopen c => exact hok.fileOk.reopen c
  | call c =>
    cases ho : h.opened with
    | none =>
      simp only [Host.step, ho]
      exact hok
    | some o =>
      have hengine : EngineOk env h.file o.engine o.fieldBits := by
        unfold Ok at hok
        rwa [ho] at hok
      simp only [Host.step, ho, Ok]
      cases hp : o.poisoned with
      | true =>
        -- the mutex is poisoned: the call returns an error and changes nothing
        have heval := pre_eval_poisoned (call_pre env o.engine c) (world h.file o) hp
        have hrun : ((c.prog env o.engine).run (world h.file o)).2 = world h.file o := by
          rw [Prog.run, heval]
          exact World.leave_idle _ ⟨rfl, rfl⟩
        rw [hrun]
        exact hengine
      | false =>
        rw [world_quiet hp]
        exact hengine.call c

theorem run_ok (actions : List Action) {h : Host} (hok : h.Ok env) :
    (h.run env actions).Ok env := by
  induction actions generalizing h with
  | nil => exact hok
  | cons a actions ih => exact ih (hok.step a)

end Host

/-- What holds of a host's file and engine between any two calls. -/
structure IndexInvariant (env : Env) (h : Host) : Prop where
  /-- The two tables hold the same ids with the same normalized text. -/
  synced : ∀ id : Int64, h.file.docs[id]? = h.file.entries[id]?.map Entry.norm
  reversed : ∀ (id : Int64) en, h.file.entries[id]? = some en →
    en.normRev = some (Search.reverseChars en.norm)
  /-- The stamp names one option set, and every text is normalized under it. -/
  profile : h.file.entries ≠ ∅ → ∃ o : NormalizeOptions,
    (∀ o', h.file.metaTable.normalizeProfile = some o'.fingerprint ↔ o' = o) ∧
    ∀ (id : Int64) en, h.file.entries[id]? = some en →
      ∃ raw, en.raw = some raw ∧ en.norm = normalize env.unicode o raw
  /-- An open engine runs under the stamped options and width. -/
  engine : ∀ o, h.opened = some o →
    h.file.metaTable.normalizeProfile = some o.engine.options.fingerprint ∧
    h.file.metaTable.fieldBits = some (bitsText o.fieldBits) ∧
    1 ≤ o.fieldBits.toNat ∧ o.fieldBits.toNat ≤ 62
  /-- An open engine only ever matches against texts its own normalizer made. -/
  accepted : ∀ o, h.opened = some o → ∀ (id : Int64) en, h.file.entries[id]? = some en →
    ∃ raw, en.raw = some raw ∧ en.norm = o.engine.normalizer env raw

namespace Host

theorem Ok.invariant {env : Env} {h : Host} (hok : h.Ok env) : IndexInvariant env h := by
  obtain ⟨o, texts, hr, hstamp⟩ := hok.fileOk.rendered
  have hentry : ∀ (id : Int64) en, h.file.entries[id]? = some en →
      ∃ text, en = renderEntry env o text := by
    intro id en hen
    rw [hr.entries_lookup, Option.map_eq_some_iff] at hen
    obtain ⟨text, _, rfl⟩ := hen
    exact ⟨text, rfl⟩
  constructor
  · intro id
    rw [hr.docs_lookup, hr.entries_lookup, Option.map_map]
    rfl
  · intro id en hen
    obtain ⟨text, rfl⟩ := hentry id en hen
    rfl
  · intro hne
    refine ⟨o, fun o' => ?_, fun id en hen => ?_⟩
    · rw [hstamp hne, Option.some.injEq]
      exact ⟨fun heq => (NormalizeOptions.fingerprint_injective heq).symm, fun heq => by rw [heq]⟩
    · obtain ⟨text, rfl⟩ := hentry id en hen
      exact ⟨text, rfl, rfl⟩
  · intro op hop
    unfold Ok at hok
    rw [hop] at hok
    exact ⟨hok.profile, hok.stamp, hok.valid⟩
  · intro op hop id en hen
    unfold Ok at hok
    rw [hop] at hok
    obtain ⟨texts', hr'⟩ := hok.rendered
    rw [hr'.entries_lookup, Option.map_eq_some_iff] at hen
    obtain ⟨text, _, rfl⟩ := hen
    exact ⟨text, rfl, rfl⟩

end Host

/-- Every run from a fresh file keeps the invariant, after every step. -/
theorem index_invariant (env : Env) (actions : List Action) :
    IndexInvariant env (Host.run env {} actions) :=
  (Host.run_ok actions Host.fresh_ok).invariant

end Unfydqry
