import Unfydqry.Engine.RewriteEffect

/-! # What an open does when no statement fails -/

namespace Unfydqry

open LockedStore Prog

namespace Db

variable (env : Env)

/-- `CREATE TABLE IF NOT EXISTS entries` and the stamp of the schema version. -/
def created (db : Db) : Db :=
  let db :=
    match db.columns with
    | some _ => db
    | none => { db with columns := some { normRev := true, raw := true }, entries := ∅ }
  match db.metaTable.indexVersion with
  | some _ => db
  | none => { db with metaTable := { db.metaTable with indexVersion := some ['1'] } }

def withRaw (db : Db) : Db :=
  if db.columns.any Columns.raw then db
  else
    { db with
      columns := db.columns.map fun c => { c with raw := true }
      entries := db.entries.map fun _ en => { en with raw := none } }

/-- `ALTER TABLE entries ADD COLUMN norm_rev TEXT` -/
def altered (db : Db) : Db :=
  { db with
    columns := db.columns.map fun c => { c with normRev := true }
    entries := db.entries.map fun _ en => { en with normRev := none } }

/-- One update of the backfill. -/
def reverseRow (db : Db) (row : Int64 × Text) : Db :=
  match db.entries[row.1]? with
  | some en =>
    { db with
      entries := db.entries.insert row.1 { en with normRev := some (Search.reverseChars row.2) } }
  | none => db

/-- The rows the backfill reads. -/
def norms (db : Db) : List (Int64 × Text) :=
  (env.sqlite.scan "SELECT id, norm FROM entries" [] db.entries).map fun r => (r.1, r.2.norm)

def backfilled (db : Db) : Db := (db.norms env).foldl reverseRow db

def withNormRev (db : Db) : Db :=
  if db.columns.any Columns.normRev then db else db.altered.backfilled env

/-- The file after `open_schema`. -/
def opened (db : Db) : Db := db.created.withRaw.withNormRev env

/-- `stored_profile`. -/
def storedProfile (db : Db) : Option Text :=
  if db.entries.size = 0 then none
  else some (db.metaTable.normalizeProfile.getD "loose".toList)

/-- `stored_field_bits`. -/
def storedFieldBits (db : Db) : Option UInt8 :=
  if db.entries.size = 0 then none
  else some ((db.metaTable.fieldBits.bind SearchEngine.parseU8).getD DEFAULT_FIELD_BITS)

/-- The file after an accepted open under `e`. -/
def adopted (e : SearchEngine) (bits : UInt8) (db : Db) : Db :=
  if db.storedProfile.any fun s => s ≠ e.options.fingerprint then
    (db.stampedBits bits).reindexed env e
  else (db.stampedBits bits).stamped e.options.fingerprint

end Db

namespace SearchEngine

variable (env : Env) (db : Db) (bits : UInt8) (held : Bool)

theorem eval_backfillNormRev :
    (backfillNormRev env).eval (quiet db none bits held) =
      (.ok (), quiet (db.backfilled env) none bits held) := by
  have hrow : ∀ (r : Int64 × Text) (db' : Db),
      (Prog.stmt (Sql.updateNormRev r.1 (Search.reverseChars r.2)) : EngineM Unit).eval
          (quiet db' (some db) bits held) =
        (.ok (), quiet (db'.reverseRow r) (some db) bits held) := by
    intro r db'
    rw [Sql.updateNormRev, Sql.eval_effect]
    unfold Db.reverseRow
    cases db'.entries[r.1]? <;> rfl
  have hloop := eval_each_quiet db (some db) bits held hrow (db.norms env)
  simp only [backfillNormRev, eval_bind, eval_startTx_quiet, andThen_ok, Sql.eval_query]
  rw [show ((env.sqlite.scan "SELECT id, norm FROM entries" [] db.entries).map
    fun r => (r.1, r.2.norm)) = db.norms env from rfl, hloop]
  rfl

theorem eval_migrateRaw :
    migrateRaw.eval (quiet db none bits held) = (.ok (), quiet db.withRaw none bits held) := by
  simp only [migrateRaw, Sql.tableInfo, eval_bind, Sql.eval_query, andThen_ok, Db.withRaw]
  split
  · rfl
  · rfl

theorem eval_migrateNormRev :
    (migrateNormRev env).eval (quiet db none bits held) =
      (.ok (), quiet (db.withNormRev env) none bits held) := by
  simp only [migrateNormRev, Sql.tableInfo, eval_bind, Sql.eval_query, andThen_ok, Db.withNormRev]
  split
  · rfl
  · simp only [eval_bind, Sql.addNormRev, Sql.eval_effect, andThen_ok]
    exact eval_backfillNormRev env db.altered bits held

theorem eval_openSchema :
    (openSchema env).eval (quiet db none bits held) =
      (.ok (), quiet (db.opened env) none bits held) := by
  simp only [openSchema, Sql.keepRows, Sql.createEntries, Sql.insertIndexVersion, eval_bind,
    Sql.eval_effect, andThen_ok, id_eq, eval_migrateRaw, eval_migrateNormRev]
  rfl

theorem eval_storedProfile :
    storedProfile.eval (quiet db none bits held) =
      (.ok db.storedProfile, quiet db none bits held) := by
  simp only [storedProfile, Sql.countEntries, Sql.selectProfile, eval_bind, Sql.eval_query,
    andThen_ok, Db.storedProfile]
  split
  · rfl
  · simp only [eval_bind, Sql.eval_query, andThen_ok, eval_pure]

theorem eval_storedFieldBits :
    storedFieldBits.eval (quiet db none bits held) =
      (.ok db.storedFieldBits, quiet db none bits held) := by
  simp only [storedFieldBits, Sql.countEntries, Sql.selectFieldBits, eval_bind, Sql.eval_query,
    andThen_ok, Db.storedFieldBits]
  split
  · rfl
  · simp only [eval_bind, Sql.eval_query, andThen_ok, eval_pure]

variable (options : NormalizeOptions) (strategy : SearchStrategy) (fieldBits : Option UInt8)
  (rebuild : Bool)

/-- A width that is asked for has been checked. -/
theorem validBits_of_requested {k n : UInt8} {stored : Option UInt8}
    (he : effectiveBits (some k) stored = .ok n) : ValidBits n := by
  cases hc : checkFieldBits k with
  | error err =>
    simp only [effectiveBits, hc, Bind.bind, Except.bind] at he
    cases he
  | ok u =>
    have hk : k = n := by
      simp only [effectiveBits, hc, Bind.bind, Except.bind] at he
      split at he
      · split at he
        · cases he
        · exact Except.ok.inj he
      · exact Except.ok.inj he
    exact hk ▸ validBits_of_check hc

theorem openEngine_bits_rejected {err : SearchError}
    (h : effectiveBits fieldBits (db.opened env).storedFieldBits = .error err) :
    (openEngine env options strategy fieldBits rebuild).run (quiet db none bits false) =
      (.err err, quiet (db.opened env) none bits false) := by
  apply run_of_eval (v := quiet (db.opened env) none bits false)
  simp only [openEngine, eval_bind, eval_openSchema, andThen_ok, eval_storedFieldBits, h, orThrow,
    eval_throw, andThen_err]

theorem openEngine_profile_rejected {n : UInt8} {stored : Text}
    (h : effectiveBits fieldBits (db.opened env).storedFieldBits = .ok n)
    (hs : (db.opened env).storedProfile = some stored) (hne : stored ≠ options.fingerprint) :
    (openEngine env options strategy fieldBits false).run (quiet db none bits false) =
      (.err (.configMismatch stored options.fingerprint),
        quiet (db.opened env) none bits false) := by
  apply run_of_eval (v := quiet (db.opened env) none bits false)
  simp only [openEngine, eval_bind, eval_openSchema, andThen_ok, eval_storedFieldBits, h, orThrow,
    eval_pure, eval_storedProfile, hs, Option.any_some, decide_eq_true hne, Bool.not_false,
    Bool.and_self, if_true, eval_throw]

/-- An accepted open adopts the file: it stamps the width and the fingerprint, and
renews the rows when they were made under another one. -/
theorem openEngine_run {n : UInt8}
    (h : effectiveBits fieldBits (db.opened env).storedFieldBits = .ok n)
    (hp : rebuild = true ∨
      ((db.opened env).storedProfile.any fun s => s ≠ options.fingerprint) = false) :
    (openEngine env options strategy fieldBits rebuild).run (quiet db none bits false) =
      (.ok { options := options, strategy := strategy },
        quiet ((db.opened env).adopted env { options := options, strategy := strategy } n)
          none n false) := by
  refine run_of_eval (v := quiet ((db.opened env).adopted env
    { options := options, strategy := strategy } n) none n false) ?_
  have hgo : (((db.opened env).storedProfile.any fun s => s ≠ options.fingerprint) &&
      !rebuild) = false := by
    rcases hp with rfl | hp
    · simp
    · rw [hp, Bool.false_and]
  simp only [openEngine, eval_bind, eval_openSchema, andThen_ok, eval_storedFieldBits, h, orThrow,
    eval_pure, eval_storedProfile, hgo, Bool.false_eq_true, if_false, assemble, eval_write_quiet,
    lockedConn, eval_acquire_quiet, stampFieldBits, Sql.replaceFieldBits, Sql.eval_effect,
    eval_release_quiet, Option.getD_none, Db.adopted]
  cases hm : (db.opened env).storedProfile.any fun s => s ≠ options.fingerprint with
  | true =>
    simp only [if_true, eval_bind, eval_reindex, andThen_ok, eval_release_quiet, Option.getD_none,
      eval_pure]
    rfl
  | false =>
    simp only [Bool.false_eq_true, if_false, eval_bind, eval_acquire_quiet, andThen_ok,
      stampProfile, Sql.replaceProfile, Sql.eval_effect, eval_release_quiet, Option.getD_none,
      eval_pure]
    rfl

theorem openEngine_ok {engine : SearchEngine} {w : EngineWorld}
    (h : (openEngine env options strategy fieldBits rebuild).run (quiet db none bits false) =
      (.ok engine, w)) :
    ∃ n, effectiveBits fieldBits (db.opened env).storedFieldBits = .ok n ∧
      w = quiet ((db.opened env).adopted env { options := options, strategy := strategy } n)
        none n false := by
  cases heff : effectiveBits fieldBits (db.opened env).storedFieldBits with
  | error err =>
    rw [openEngine_bits_rejected env db bits options strategy fieldBits rebuild heff] at h
    cases h
  | ok n =>
    have hacc : (rebuild = true ∨
        ((db.opened env).storedProfile.any fun s => s ≠ options.fingerprint) = false) →
        w = quiet ((db.opened env).adopted env { options := options, strategy := strategy } n)
          none n false := by
      intro hp
      rw [openEngine_run env db bits options strategy fieldBits rebuild heff hp] at h
      cases h
      rfl
    cases rebuild with
    | true => exact ⟨n, rfl, hacc (.inl rfl)⟩
    | false =>
      cases hs : (db.opened env).storedProfile with
      | none => exact ⟨n, rfl, hacc (.inr (by rw [hs, Option.any_none]))⟩
      | some stored =>
        by_cases hne : stored = options.fingerprint
        · exact ⟨n, rfl, hacc (.inr (by rw [hs, Option.any_some, hne]; simp))⟩
        · rw [openEngine_profile_rejected env db bits options strategy fieldBits heff hs hne] at h
          cases h

end SearchEngine

end Unfydqry
