import Unfydqry.Engine.Records

/-! # Opening an index (`engine.rs`)

The schema and its migrations, the policy on a changed `field_bits` or
fingerprint, and the five constructors. Outside the backfill's transaction every
statement commits on its own. -/

namespace Unfydqry.SearchEngine

open LockedStore

variable (env : Env)

/-- `backfill_norm_rev`: `SELECT id, norm FROM entries`, then one update for each row. -/
def backfillNormRev : EngineM Unit := do
  Prog.startTx
  let rows ← Prog.stmt (Sql.query fun db =>
    (env.sqlite.scan "SELECT id, norm FROM entries" [] db.entries).map fun r => (r.1, r.2.norm))
  Prog.each (fun r => Prog.stmt (Sql.updateNormRev r.1 (Search.reverseChars r.2))) rows
  Prog.commitTx

/-- The column `raw`, added where it is missing. -/
def migrateRaw : EngineM Unit := do
  let info ← Prog.stmt Sql.tableInfo
  if info.any Columns.raw then pure () else Prog.stmt Sql.addRaw

/-- The column `norm_rev`, added where it is missing and then filled. -/
def migrateNormRev : EngineM Unit := do
  let info ← Prog.stmt Sql.tableInfo
  if info.any Columns.normRev then pure ()
  else do
    Prog.stmt Sql.addNormRev
    backfillNormRev env

def openSchema : EngineM Unit := do
  Prog.stmt Sql.keepRows        -- `Connection::open`
  Prog.stmt Sql.keepRows        -- `journal_mode`
  Prog.stmt Sql.keepRows        -- `docs`
  Prog.stmt Sql.createEntries
  Prog.stmt Sql.keepRows        -- `idx_entries_norm`
  Prog.stmt Sql.keepRows        -- `meta`
  Prog.stmt Sql.insertIndexVersion
  migrateRaw
  migrateNormRev env
  Prog.stmt Sql.keepRows        -- `idx_entries_norm_rev`

def storedProfile : EngineM (Option Text) := do
  let indexed ← Prog.stmt Sql.countEntries
  if indexed = 0 then pure none
  else do
    let stored ← Prog.stmt Sql.selectProfile
    pure (some (stored.getD "loose".toList))

def stampProfile (key : Text) : EngineM Unit := Prog.stmt (Sql.replaceProfile key)

/-- The digits of a decimal number, read into `acc`. -/
def readDigits (acc : ℕ) : Text → Option ℕ
  | [] => some acc
  | c :: cs => if Steps.isAsciiDigit c then readDigits (10 * acc + (c.toNat - 0x30)) cs else none

/-- `str::parse::<u8>`: an optional `+`, at least one digit, no value above 255. -/
def parseU8 (s : Text) : Option UInt8 :=
  let digits := if s.head? = some '+' then s.tail else s
  if digits.isEmpty then none
  else (readDigits 0 digits).bind fun n => if n < 256 then some (UInt8.ofNat n) else none

def storedFieldBits : EngineM (Option UInt8) := do
  let indexed ← Prog.stmt Sql.countEntries
  if indexed = 0 then pure none
  else do
    let stored ← Prog.stmt Sql.selectFieldBits
    pure (some ((stored.bind parseU8).getD DEFAULT_FIELD_BITS))

/-- The width an open uses, given the stored one. -/
def effectiveBits (fieldBits storedBits : Option UInt8) : Except SearchError UInt8 :=
  match fieldBits with
  | some n => do
    checkFieldBits n
    match storedBits with
    | some s => if s ≠ n then .error (.fieldBitsMismatch s n) else .ok n
    | none => .ok n
  | none => .ok (storedBits.getD DEFAULT_FIELD_BITS)

/-- The engine's atomic is created with the effective width. -/
def assemble (options : NormalizeOptions) (strategy : SearchStrategy) (bits : UInt8) :
    EngineM SearchEngine := do
  Prog.write bits
  pure { options := options, strategy := strategy }

/-- `SearchEngine::open`, behind all constructors. -/
def openEngine (options : NormalizeOptions) (strategy : SearchStrategy)
    (fieldBits : Option UInt8) (rebuild : Bool) : EngineM SearchEngine := do
  openSchema env
  let storedBits ← storedFieldBits
  let bits ← orThrow (effectiveBits fieldBits storedBits)
  let requested := options.fingerprint
  let stored ← storedProfile
  let mismatch := stored.any fun s => s ≠ requested
  if mismatch && !rebuild then
    match stored with
    | none => Prog.throw (.db "internal: profile mismatch without a stored profile")
    | some stored => Prog.throw (.configMismatch stored requested)
  else do
    let engine ← assemble options strategy bits
    lockedConn
    stampFieldBits bits
    Prog.release
    if mismatch then do
      let _ ← reindex env engine
      Prog.release
    else do
      lockedConn
      stampProfile requested
      Prog.release
    pure engine

def withConfig (config : EngineConfig) : EngineM SearchEngine :=
  openEngine env config.normalize.options config.strategy config.fieldBits false

def withConfigRebuilding (config : EngineConfig) : EngineM SearchEngine :=
  openEngine env config.normalize.options config.strategy config.fieldBits true

def withOptions (config : EngineOptionsConfig) : EngineM SearchEngine :=
  openEngine env config.normalize config.strategy config.fieldBits false

def withOptionsRebuilding (config : EngineOptionsConfig) : EngineM SearchEngine :=
  openEngine env config.normalize config.strategy config.fieldBits true

/-- `SearchEngine::new`. -/
def new : EngineM SearchEngine := withConfig env .default

/-- `reindex_status_for`. -/
def reindexStatusFor (requested : Text) : EngineM ReindexStatus := do
  openSchema env
  let stored ← storedProfile
  match stored with
  | none => pure .empty
  | some stored => if stored = requested then pure .upToDate else pure .configChanged

def reindexStatus (config : EngineConfig) : EngineM ReindexStatus :=
  reindexStatusFor env config.normalize.options.fingerprint

def reindexStatusWithOptions (options : NormalizeOptions) : EngineM ReindexStatus :=
  reindexStatusFor env options.fingerprint

end Unfydqry.SearchEngine
