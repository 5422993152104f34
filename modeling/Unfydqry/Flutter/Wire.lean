import Unfydqry.Engine.Call

/-! # The method channel of the Flutter plugin

What the Dart class sends over `unfydqry/search`, and how the two sides of the plugin read
it. A Kotlin cast of a value of another type throws, which the plugin reports as
`PLUGIN_ERROR`; a Swift cast of one yields nothing, and an unsigned conversion out of range
traps. -/

namespace Unfydqry.Flutter

/-- The two sides of the plugin: `UnfydqryPlugin.kt` and `UnfydqryPlugin.swift`. -/
inductive Platform where
  | android
  | ios
  deriving Repr, DecidableEq

/-- The keys of the maps on the wire. -/
inductive Key where
  | handle | dbPath | options | strategy | input | id | text | items | ids | query | limit
  | recordId | fields | slot | records | fieldsPerRecord | before | after | newFieldBits
  | lowercase | kanaFold | foldDiacritics | foldChoonpu | expandIterationMarks
  | normalizeHyphens | stripDigitGrouping | collapseWhitespace
  deriving Repr, DecidableEq

/-- The key as the messages of `BAD_ARGS` name it. -/
def Key.name : Key → String
  | .handle => "handle"
  | .dbPath => "dbPath"
  | .options => "options"
  | .strategy => "strategy"
  | .input => "input"
  | .id => "id"
  | .text => "text"
  | .items => "items"
  | .ids => "ids"
  | .query => "query"
  | .limit => "limit"
  | .recordId => "recordId"
  | .fields => "fields"
  | .slot => "slot"
  | .records => "records"
  | .fieldsPerRecord => "fieldsPerRecord"
  | .before => "before"
  | .after => "after"
  | .newFieldBits => "newFieldBits"
  | .lowercase => "lowercase"
  | .kanaFold => "kanaFold"
  | .foldDiacritics => "foldDiacritics"
  | .foldChoonpu => "foldChoonpu"
  | .expandIterationMarks => "expandIterationMarks"
  | .normalizeHyphens => "normalizeHyphens"
  | .stripDigitGrouping => "stripDigitGrouping"
  | .collapseWhitespace => "collapseWhitespace"

/-- An argument on the wire; a Dart `int` has 64 bits. -/
inductive Wire where
  | null
  | bool (b : Bool)
  | int (i : Int64)
  | str (s : Text)
  | list (xs : List Wire)
  | map (kvs : List (Key × Wire))

abbrev Args := List (Key × Wire)

inductive Method where
  | open | openWithOptions | openWithOptionsRebuilding | normalizeWithOptions
  | reindexStatusWithOptions | index | indexBatch | remove | removeBatch | search
  | indexRecord | indexRecordsBatch | removeRecord | searchRecords | highlight
  | changeFieldBits | dispose
  /-- A method the plugin does not know. -/
  | other
  deriving Repr, DecidableEq

structure Message where
  method : Method
  args : Args

/-- Why a call does not succeed. -/
inductive Fault where
  | badArgs (message : String)
  | noEngine (handle : Int64)
  /-- `SEARCH_ERROR` -/
  | search (e : SearchError)
  /-- `PLUGIN_ERROR`: an exception that is not one of the engine's. -/
  | plugin
  /-- The process traps. -/
  | crash
  deriving Repr, DecidableEq

abbrev Read := Except Fault

/-! ### Reading arguments -/

/-- A missing argument and `null` are the same. -/
def Args.get (args : Args) (k : Key) : Option Wire :=
  match args.lookup k with
  | some .null => none
  | found => found

def required {α : Type} (k : Key) (type : String) : Read α :=
  .error (.badArgs (k.name ++ ":" ++ type ++ " required"))

/-- A value of another type than the one that is asked for. -/
def mismatched {α : Type} (p : Platform) (k : Key) (type : String) : Read α :=
  match p with
  | .android => .error .plugin
  | .ios => required k type

def stringArg (p : Platform) (args : Args) (k : Key) : Read Text :=
  match Args.get args k with
  | some (.str s) => .ok s
  | none => required k "String"
  | some _ => mismatched p k "String"

/-- `Int` has 32 bits in Kotlin, where the codec delivers a longer integer as a `Long`. -/
def fits32 (i : Int64) : Prop := -2 ^ 31 ≤ i.toInt ∧ i.toInt < 2 ^ 31

instance (i : Int64) : Decidable (fits32 i) := inferInstanceAs (Decidable (_ ∧ _))

def boolInt (b : Bool) : Int64 := if b then 1 else 0

def intArg (p : Platform) (args : Args) (k : Key) : Read Int64 :=
  match Args.get args k, p with
  | some (.int i), .android => if fits32 i then .ok i else .error .plugin
  | some (.int i), .ios => .ok i
  | some (.bool b), .ios => .ok (boolInt b)
  | none, _ => required k "Int"
  | some _, _ => mismatched p k "Int"

/-- `as? Number` and `as? NSNumber`; a Swift `Bool` is an `NSNumber`. -/
def number : Platform → Wire → Option Int64
  | _, .int i => some i
  | .ios, .bool b => some (boolInt b)
  | _, _ => none

/-- `longArg` and `int64`. -/
def longArg (p : Platform) (args : Args) (k : Key) : Read Int64 :=
  match (Args.get args k).bind (number p) with
  | some i => .ok i
  | none => required k "Int"

def listArg (p : Platform) (args : Args) (k : Key) : Read (List Wire) :=
  match Args.get args k with
  | some (.list xs) => .ok xs
  | none => required k "List"
  | some _ => mismatched p k "List"

def asMap : Wire → Option Args
  | .map kvs => some kvs
  | _ => none

/-- A list of maps: Swift casts its elements with it, Kotlin one by one as they are used. -/
def mapsArg (p : Platform) (args : Args) (k : Key) : Read (List Wire) := do
  let xs ← listArg p args k
  match p with
  | .android => pure xs
  | .ios => if xs.all fun x => (asMap x).isSome then pure xs else required k "List"

/-- `mapNotNull` and `compactMap` over a list of maps: an element that does not convert is
left out. -/
def collect {α : Type} (f : Args → Read (Option α)) : List Wire → Read (List α)
  | [] => .ok []
  | x :: xs => do
    let kvs ← match asMap x with
      | some kvs => pure kvs
      | none => throw .plugin
    let a ← f kvs
    let as ← collect f xs
    pure (match a with
      | some a => a :: as
      | none => as)

def stringField (kvs : Args) (k : Key) : Option Text :=
  match Args.get kvs k with
  | some (.str s) => some s
  | _ => none

def numberField (p : Platform) (kvs : Args) (k : Key) : Option Int64 :=
  (Args.get kvs k).bind (number p)

/-! ### Conversions to the engine's types -/

/-- `toUByte` and `uint8Value` keep the low byte. -/
def toUByte (i : Int64) : UInt8 := i.toUInt64.toUInt8

/-- `toUInt` keeps the low 32 bits, `UInt32(_:)` traps where they are not the number. -/
def toUInt (p : Platform) (i : Int64) : Read UInt32 :=
  match p with
  | .android => .ok i.toUInt64.toUInt32
  | .ios => if 0 ≤ i.toInt ∧ i.toInt < 2 ^ 32 then .ok i.toUInt64.toUInt32 else .error .crash

def indexItem (p : Platform) (kvs : Args) : Read (Option IndexItem) :=
  .ok do
    let id ← numberField p kvs .id
    let text ← stringField kvs .text
    pure { id := id, text := text }

def fieldValue (p : Platform) (kvs : Args) : Read (Option FieldValue) :=
  .ok do
    let slot ← numberField p kvs .slot
    let text ← stringField kvs .text
    pure { slot := toUByte slot, text := text }

/-- The fields of a record in a batch; in Kotlin an element that is no map throws, in Swift
the record is left out. -/
def recordFields (p : Platform) (kvs : Args) : Read (Option (List FieldValue)) :=
  match Args.get kvs .fields with
  | some (.list xs) =>
    if p = .ios ∧ ¬ (xs.all fun x => (asMap x).isSome) then .ok none
    else some <$> collect (fieldValue p) xs
  | _ => .ok none

def recordIndexItem (p : Platform) (kvs : Args) : Read (Option RecordIndexItem) :=
  match numberField p kvs .recordId with
  | none => .ok none
  | some recordId => do
    let fields ← recordFields p kvs
    pure (fields.map fun fields => { recordId := recordId, fields := fields })

/-- `removeBatch` leaves out what is not a number. -/
def idList (p : Platform) (xs : List Wire) : List Int64 := xs.filterMap (number p)

/-- A flag that is missing or of another type is off; in Swift a number is a flag. -/
def flag (p : Platform) (kvs : Args) (k : Key) : Bool :=
  match Args.get kvs k, p with
  | some (.bool b), _ => b
  | some (.int i), .ios => i != 0
  | _, _ => false

def normalizeOptions (p : Platform) (args : Args) : Read NormalizeOptions :=
  match Args.get args .options with
  | some (.map kvs) =>
    .ok
      { lowercase := flag p kvs .lowercase
        kanaFold := flag p kvs .kanaFold
        foldDiacritics := flag p kvs .foldDiacritics
        foldChoonpu := flag p kvs .foldChoonpu
        expandIterationMarks := flag p kvs .expandIterationMarks
        normalizeHyphens := flag p kvs .normalizeHyphens
        stripDigitGrouping := flag p kvs .stripDigitGrouping
        collapseWhitespace := flag p kvs .collapseWhitespace }
  | none => required .options "Map"
  | some _ => mismatched p .options "Map"

/-- The wire name of a strategy: the Kotlin enum name and Dart's `wireName`. -/
def strategyName : SearchStrategy → String
  | .trigramBm25 => "TRIGRAM_BM25"
  | .substring => "SUBSTRING"
  | .prefixMatch => "PREFIX"
  | .suffixMatch => "SUFFIX"
  | .allTerms => "ALL_TERMS"
  | .fuzzyTrigram => "FUZZY_TRIGRAM"
  | .levenshtein => "LEVENSHTEIN"
  | .damerauLevenshtein => "DAMERAU_LEVENSHTEIN"

def strategies : List SearchStrategy :=
  [.trigramBm25, .substring, .prefixMatch, .suffixMatch, .allTerms, .fuzzyTrigram, .levenshtein,
    .damerauLevenshtein]

/-- `SearchStrategy.valueOf` and `searchStrategy`. -/
def strategyOf (name : Text) : Option SearchStrategy :=
  strategies.find? fun s => (strategyName s).toList = name

/-- Neither side of the plugin passes a width. -/
def engineConfig (p : Platform) (args : Args) : Read EngineOptionsConfig := do
  let options ← normalizeOptions p args
  let name ← stringArg p args .strategy
  match strategyOf name with
  | some strategy => pure { normalize := options, strategy := strategy, fieldBits := none }
  | none =>
    throw (.badArgs ("strategy: unknown value '" ++ String.ofList name ++ "'"))

end Unfydqry.Flutter
