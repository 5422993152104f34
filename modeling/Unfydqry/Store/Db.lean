import Unfydqry.Config
import Unfydqry.Lib.Prog
import Unfydqry.Lib.Table

/-! # The index file and the statements the engine runs on it

The three tables of `open_schema` and, for every SQL statement of `engine.rs`,
its effect. The full-text table `docs` is a table of texts by rowid. -/

namespace Unfydqry

open LockedStore

inductive SearchError where
  | db (message : String)
  | configMismatch (stored requested : Text)
  | fieldBitsMismatch (stored requested : UInt8)
  deriving Repr, DecidableEq

/-- A row of `entries` under its id. -/
structure Entry where
  norm : Text
  normRev : Option Text
  raw : Option Text
  deriving Repr, DecidableEq

/-- Which of the columns added by a migration `entries` has. -/
structure Columns where
  normRev : Bool
  raw : Bool
  deriving Repr, DecidableEq

/-- The rows of `meta`, by key. -/
structure MetaTable where
  indexVersion : Option Text := none
  normalizeProfile : Option Text := none
  fieldBits : Option Text := none
  deriving Repr, DecidableEq

abbrev Docs := Table Int64 Text
abbrev Entries := Table Int64 Entry

structure Db where
  /-- `none` when the table `entries` does not exist. -/
  columns : Option Columns := none
  docs : Docs := ∅
  entries : Entries := ∅
  metaTable : MetaTable := {}

/-- A file no engine has opened. -/
def Db.fresh : Db := {}

/-- A call of the engine: its store is the file, its cell `field_bits`. -/
abbrev EngineM (α : Type) := Prog Db UInt8 SearchError α

abbrev EngineWorld := World Db UInt8 SearchError

abbrev Sql (α : Type) := Stmt Db SearchError α

namespace Sql

/-- A statement that always succeeds and returns nothing. -/
def effect (f : Db → Db) : Sql Unit := fun db => .ok ((), f db)

/-- A statement that only reads. -/
def query {α : Type} (f : Db → α) : Sql α := fun db => .ok (f db, db)

/-- A query that may be rejected. -/
def tryQuery {α : Type} (f : Db → Except SearchError α) : Sql α := fun db =>
  (f db).map fun a => (a, db)

/-! ### Writes -/

/-- `DELETE FROM docs WHERE rowid=?1` -/
def deleteDoc (id : Int64) : Sql Unit := effect fun db => { db with docs := db.docs.erase id }

/-- `INSERT INTO docs(rowid, norm) VALUES (?1, ?2)` -/
def insertDoc (id : Int64) (norm : Text) : Sql Unit := fun db =>
  if db.docs.contains id then .error (.db "constraint failed")
  else .ok ((), { db with docs := db.docs.insert id norm })

/-- `INSERT OR REPLACE INTO entries(id, norm, norm_rev, raw) VALUES (?1, ?2, ?3, ?4)` -/
def replaceEntry (id : Int64) (e : Entry) : Sql Unit :=
  effect fun db => { db with entries := db.entries.insert id e }

/-- `INSERT INTO entries(id, norm, norm_rev, raw) VALUES (?1, ?2, ?3, ?4)` -/
def insertEntry (id : Int64) (e : Entry) : Sql Unit := fun db =>
  if db.entries.contains id then .error (.db "UNIQUE constraint failed: entries.id")
  else .ok ((), { db with entries := db.entries.insert id e })

/-- `UPDATE entries SET norm=?2, norm_rev=?3 WHERE id=?1` -/
def updateNorms (id : Int64) (norm normRev : Text) : Sql Unit := effect fun db =>
  match db.entries[id]? with
  | some e =>
    { db with entries := db.entries.insert id { e with norm := norm, normRev := some normRev } }
  | none => db

/-- `UPDATE entries SET norm_rev=?2 WHERE id=?1` -/
def updateNormRev (id : Int64) (normRev : Text) : Sql Unit := effect fun db =>
  match db.entries[id]? with
  | some e => { db with entries := db.entries.insert id { e with normRev := some normRev } }
  | none => db

/-- `DELETE FROM entries WHERE id=?1` -/
def deleteEntry (id : Int64) : Sql Unit :=
  effect fun db => { db with entries := db.entries.erase id }

/-- `BETWEEN ?1 AND ?2` -/
def between (lo hi id : Int64) : Bool := lo ≤ id && id ≤ hi

/-- `DELETE FROM docs WHERE rowid BETWEEN ?1 AND ?2` -/
def deleteDocsBetween (lo hi : Int64) : Sql Unit :=
  effect fun db => { db with docs := Table.eraseWhere (between lo hi) db.docs }

/-- `DELETE FROM entries WHERE id BETWEEN ?1 AND ?2` -/
def deleteEntriesBetween (lo hi : Int64) : Sql Unit :=
  effect fun db => { db with entries := Table.eraseWhere (between lo hi) db.entries }

/-- `DELETE FROM docs` -/
def deleteDocs : Sql Unit := effect fun db => { db with docs := ∅ }

/-- `DELETE FROM entries` -/
def deleteEntries : Sql Unit := effect fun db => { db with entries := ∅ }

/-- `INSERT OR REPLACE INTO meta(key, value) VALUES ('normalize_profile', ?1)` -/
def replaceProfile (key : Text) : Sql Unit :=
  effect fun db => { db with metaTable := { db.metaTable with normalizeProfile := some key } }

/-- `INSERT OR REPLACE INTO meta(key, value) VALUES ('field_bits', ?1)` -/
def replaceFieldBits (value : Text) : Sql Unit :=
  effect fun db => { db with metaTable := { db.metaTable with fieldBits := some value } }

/-! ### Schema -/

/-- `INSERT OR IGNORE INTO meta(key, value) VALUES ('index_version', '1')` -/
def insertIndexVersion : Sql Unit := effect fun db =>
  match db.metaTable.indexVersion with
  | some _ => db
  | none => { db with metaTable := { db.metaTable with indexVersion := some ['1'] } }

/-- `CREATE TABLE IF NOT EXISTS entries(...)` -/
def createEntries : Sql Unit := effect fun db =>
  match db.columns with
  | some _ => db
  | none => { db with columns := some { normRev := true, raw := true }, entries := ∅ }

/-- A statement that leaves the rows of the three tables alone: opening the file, the
journal mode, the creation of `docs`, of `meta` and of the indexes if they do not exist. -/
def keepRows : Sql Unit := effect id

/-- `PRAGMA table_info(entries)`: the columns, if the table exists. -/
def tableInfo : Sql (Option Columns) := query Db.columns

/-- `ALTER TABLE entries ADD COLUMN raw TEXT` -/
def addRaw : Sql Unit := effect fun db =>
  { db with
    columns := db.columns.map fun c => { c with raw := true }
    entries := db.entries.map fun _ e => { e with raw := none } }

/-- `ALTER TABLE entries ADD COLUMN norm_rev TEXT` -/
def addNormRev : Sql Unit := effect fun db =>
  { db with
    columns := db.columns.map fun c => { c with normRev := true }
    entries := db.entries.map fun _ e => { e with normRev := none } }

/-! ### Reads -/

/-- `SELECT COUNT(*) FROM entries` -/
def countEntries : Sql ℕ := query fun db => db.entries.size

/-- `SELECT value FROM meta WHERE key = 'normalize_profile'` -/
def selectProfile : Sql (Option Text) := query fun db => db.metaTable.normalizeProfile

/-- `SELECT value FROM meta WHERE key = 'field_bits'` -/
def selectFieldBits : Sql (Option Text) := query fun db => db.metaTable.fieldBits

/-- `SELECT EXISTS(SELECT 1 FROM entries WHERE id = ?1)` -/
def existsEntry (id : Int64) : Sql Bool := query fun db => db.entries.contains id

/-- `SELECT EXISTS(SELECT 1 FROM entries WHERE id BETWEEN ?1 AND ?2)` -/
def existsEntryBetween (lo hi : Int64) : Sql Bool :=
  query fun db => db.entries.keys.any (between lo hi)

/-- `SELECT norm, raw FROM entries WHERE id = ?1` -/
def selectNormRaw (id : Int64) : Sql (Option (Text × Option Text)) :=
  query fun db => db.entries[id]?.map fun e => (e.norm, e.raw)

end Sql

end Unfydqry
