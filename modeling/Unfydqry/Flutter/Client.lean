import Unfydqry.Flutter.Plugin

/-! # The Dart class (`search_engine.dart`) and the channel

An object of the Dart class holds the handle of its engine, or -1 once disposed. Its methods
send a message and return a future. Messages are delivered in the order they were sent, and
the responses in the order of the messages; between a message and its response the program
may call other methods, and dispose the object. -/

namespace Unfydqry.Flutter

/-- A Dart `FieldValue`; its slot is an `int`. -/
structure DartField where
  slot : Int64
  text : Text

structure DartRecord where
  recordId : Int64
  fields : List DartField

/-- The methods of an open engine. -/
inductive ApiCall where
  | index (id : Int64) (text : Text)
  | indexBatch (items : List IndexItem)
  | remove (id : Int64)
  | removeBatch (ids : List Int64)
  | search (query : Text) (limit : Int64)
  | indexRecord (recordId : Int64) (fields : List DartField)
  | indexRecordsBatch (records : List DartRecord)
  | removeRecord (recordId : Int64)
  | searchRecords (query : Text) (limit fieldsPerRecord : Int64)
  | highlight (id : Int64) (query before after : Text)
  | changeFieldBits (newFieldBits : Int64)

/-- The three static constructors. -/
inductive ApiOpen where
  | open
  | openWithOptions (options : NormalizeOptions) (strategy : SearchStrategy)
  | openWithOptionsRebuilding (options : NormalizeOptions) (strategy : SearchStrategy)

/-- The static functions that open nothing. -/
inductive ApiQuestion where
  | normalize (input : Text) (options : NormalizeOptions)
  | reindexStatus (dbPath : Text) (options : NormalizeOptions)

/-! ### Messages -/

/-- `NormalizeOptions.toMap` -/
def optionsMap (o : NormalizeOptions) : Wire :=
  .map
    [(.lowercase, .bool o.lowercase), (.kanaFold, .bool o.kanaFold),
      (.foldDiacritics, .bool o.foldDiacritics), (.foldChoonpu, .bool o.foldChoonpu),
      (.expandIterationMarks, .bool o.expandIterationMarks),
      (.normalizeHyphens, .bool o.normalizeHyphens),
      (.stripDigitGrouping, .bool o.stripDigitGrouping),
      (.collapseWhitespace, .bool o.collapseWhitespace)]

/-- `IndexItem.toMap` -/
def itemMap (item : IndexItem) : Wire := .map [(.id, .int item.id), (.text, .str item.text)]

/-- `FieldValue.toMap` -/
def fieldMap (f : DartField) : Wire := .map [(.slot, .int f.slot), (.text, .str f.text)]

/-- `RecordIndexItem.toMap` -/
def recordMap (r : DartRecord) : Wire :=
  .map [(.recordId, .int r.recordId), (.fields, .list (r.fields.map fieldMap))]

def ApiCall.method : ApiCall → Method
  | .index _ _ => .index
  | .indexBatch _ => .indexBatch
  | .remove _ => .remove
  | .removeBatch _ => .removeBatch
  | .search _ _ => .search
  | .indexRecord _ _ => .indexRecord
  | .indexRecordsBatch _ => .indexRecordsBatch
  | .removeRecord _ => .removeRecord
  | .searchRecords _ _ _ => .searchRecords
  | .highlight _ _ _ _ => .highlight
  | .changeFieldBits _ => .changeFieldBits

def ApiCall.args : ApiCall → Args
  | .index id text => [(.id, .int id), (.text, .str text)]
  | .indexBatch items => [(.items, .list (items.map itemMap))]
  | .remove id => [(.id, .int id)]
  | .removeBatch ids => [(.ids, .list (ids.map Wire.int))]
  | .search query limit => [(.query, .str query), (.limit, .int limit)]
  | .indexRecord recordId fields =>
    [(.recordId, .int recordId), (.fields, .list (fields.map fieldMap))]
  | .indexRecordsBatch records => [(.records, .list (records.map recordMap))]
  | .removeRecord recordId => [(.recordId, .int recordId)]
  | .searchRecords query limit fieldsPerRecord =>
    [(.query, .str query), (.limit, .int limit), (.fieldsPerRecord, .int fieldsPerRecord)]
  | .highlight id query before after =>
    [(.id, .int id), (.query, .str query), (.before, .str before), (.after, .str after)]
  | .changeFieldBits newFieldBits => [(.newFieldBits, .int newFieldBits)]

/-- A message in flight, by what the Dart side does with its response. -/
inductive Sent where
  /-- The response makes an object. -/
  | open (dbPath : Text) (o : ApiOpen)
  | ask (q : ApiQuestion)
  | call (handle : Int64) (c : ApiCall)
  | dispose (handle : Int64)

def Sent.message : Sent → Message
  | .open dbPath .open => { method := .open, args := [(.dbPath, .str dbPath)] }
  | .open dbPath (.openWithOptions o s) =>
    { method := .openWithOptions
      args := [(.dbPath, .str dbPath), (.options, optionsMap o),
        (.strategy, .str (strategyName s).toList)] }
  | .open dbPath (.openWithOptionsRebuilding o s) =>
    { method := .openWithOptionsRebuilding
      args := [(.dbPath, .str dbPath), (.options, optionsMap o),
        (.strategy, .str (strategyName s).toList)] }
  | .ask (.normalize input o) =>
    { method := .normalizeWithOptions, args := [(.input, .str input), (.options, optionsMap o)] }
  | .ask (.reindexStatus dbPath o) =>
    { method := .reindexStatusWithOptions
      args := [(.dbPath, .str dbPath), (.options, optionsMap o)] }
  | .call handle c => { method := c.method, args := (.handle, .int handle) :: c.args }
  | .dispose handle => { method := .dispose, args := [(.handle, .int handle)] }

/-! ### The channel -/

/-- The Dart program, the channel and the plugin. -/
structure Channel where
  /-- The `_handle` of every object made so far. -/
  objects : List Int64 := []
  requests : List Sent := []
  responses : List (Sent × Response) := []
  plugin : Plugin := {}
  /-- Every message served, with its response. -/
  log : List (Sent × Response) := []
  /-- The process has trapped; nothing follows. -/
  crashed : Bool := false

/-- The handle that a response gives to a new object. -/
def delivers : Sent × Response → Option Int64
  | (.open _ _, .success (.handle h)) => some h
  | _ => none

/-- `_disposed` -/
def disposed (handle : Int64) : Bool := handle.toInt < 0

inductive Event where
  | open (dbPath : Text) (o : ApiOpen)
  | ask (q : ApiQuestion)
  /-- A method of an object; a disposed one throws `StateError` and sends nothing. -/
  | call (object : ℕ) (c : ApiCall)
  | dispose (object : ℕ)
  /-- The plugin handles the next message. -/
  | serve
  /-- The next response completes its future. -/
  | receive

namespace Channel

def send (s : Channel) (m : Sent) : Channel := { s with requests := s.requests ++ [m] }

/-- The message at the head of the queue has its response. -/
def answered (s : Channel) (m : Sent) (rest : List Sent) (r : Plugin × Response) : Channel :=
  { s with
    requests := rest, plugin := r.1
    responses := s.responses ++ [(m, r.2)], log := s.log ++ [(m, r.2)]
    crashed := decide (r.2 = .error .crash) }

/-- One event of a running process. -/
def live (p : Platform) (env : Env) (s : Channel) : Event → Channel
  | .open dbPath o => s.send (.open dbPath o)
  | .ask q => s.send (.ask q)
  | .call object c =>
    match s.objects[object]? with
    | none => s
    | some handle => if disposed handle then s else s.send (.call handle c)
  | .dispose object =>
    match s.objects[object]? with
    | none => s
    | some handle =>
      if disposed handle then s
      else { s with objects := s.objects.set object (-1) }.send (.dispose handle)
  | .serve =>
    match s.requests with
    | [] => s
    | m :: rest => s.answered m rest (s.plugin.onMethodCall p env m.message)
  | .receive =>
    match s.responses with
    | [] => s
    | q :: rest => { s with responses := rest, objects := s.objects ++ (delivers q).toList }

def step (p : Platform) (env : Env) (s : Channel) (e : Event) : Channel :=
  if s.crashed then s else s.live p env e

def run (p : Platform) (env : Env) (s : Channel) (events : List Event) : Channel :=
  events.foldl (step p env) s

end Channel

end Unfydqry.Flutter
