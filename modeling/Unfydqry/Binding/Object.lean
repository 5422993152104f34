import Unfydqry.Binding.Converters

/-! # The object of the Kotlin binding (`SearchEngine` in `unfydqry.kt`)

An object owns one reference to the engine in Rust. Threads call its methods and `destroy` it
in any order. A counter holds the number of calls in flight, and one more until `destroy`;
whoever brings it to zero has the reference freed. A step of a thread is one access to an
atomic, or one call into Rust. -/

namespace Unfydqry.Binding

open Codec (Bytes)

/-- An argument of a method that is lowered into a buffer; numbers are passed as they are. -/
inductive Argument where
  | string (value : KotlinString)
  | ids (value : List Int64)
  | items (value : List (IndexItem KotlinString))
  | fields (value : List (FieldValue KotlinString))
  | records (value : List (RecordIndexItem KotlinString))
  deriving DecidableEq

/-- `lower`, which fails for a string without a UTF-8 form and for a buffer larger than an `Int`
counts; how malformed bytes are read plays no part in it. -/
def Argument.lower : Argument → Option Bytes
  | .string value => Kotlin.FfiConverter.lowerString value
  | .ids value => Kotlin.FfiConverter.sequenceLong.lower value
  | .items value => (Kotlin.FfiConverter.sequenceTypeIndexItem fun _ => []).lower value
  | .fields value => (Kotlin.FfiConverter.sequenceTypeFieldValue fun _ => []).lower value
  | .records value => (Kotlin.FfiConverter.sequenceTypeRecordIndexItem fun _ => []).lower value

inductive Op where
  /-- A method, with its arguments. -/
  | call (args : List Argument)
  /-- `destroy`, also through `close`. -/
  | destroy
  deriving DecidableEq

/-- How a call ended. -/
inductive Answer where
  | returned
  /-- `IllegalStateException`: the object has already been destroyed. -/
  | destroyed
  /-- `IllegalStateException`: the call counter would overflow. -/
  | overflow
  /-- An argument could not be lowered. -/
  | unlowered
  deriving DecidableEq

/-- Where a thread is. -/
inductive Point where
  | idle
  /-- `destroy` has set the flag and decrements next. -/
  | flagged
  /-- `callWithHandle` reads the counter next. -/
  | called (args : List Argument)
  /-- It has read `c` and tries to increment. -/
  | read (args : List Argument) (c : ℤ)
  /-- The call is counted; `uniffiCloneHandle` is next. -/
  | counted (args : List Argument)
  /-- The handle is cloned; the arguments are lowered next. -/
  | cloned (args : List Argument)
  /-- The method runs in Rust and owns the clone. -/
  | inside
  /-- In the `finally` block. -/
  | leaving
  /-- The counter has reached zero; `clean` is next. -/
  | cleaning
  deriving DecidableEq

structure Caller where
  todo : List Op
  point : Point := .idle
  answers : List Answer := []

/-- A call has its answer. -/
def Caller.ends (t : Caller) (a : Answer) (p : Point) : Caller :=
  { t with point := p, answers := a :: t.answers }

/-- The engine in Rust, behind an `Arc`. -/
structure Rust where
  strong : ℕ := 1
  /-- A reference was used that does not exist. -/
  fault : Bool := false

def Rust.clone (r : Rust) : Rust :=
  if r.strong = 0 then { r with fault := true } else { r with strong := r.strong + 1 }

/-- Drop one reference; the engine goes with the last one. -/
def Rust.drop (r : Rust) : Rust :=
  if r.strong = 0 then { r with fault := true } else { r with strong := r.strong - 1 }

/-- The object and the threads that share it. -/
structure Object (ι : Type) where
  callers : ι → Caller
  wasDestroyed : Bool := false
  callCounter : ℤ := 1
  /-- The cleaner has run the object's action. -/
  cleaned : Bool := false
  rust : Rust := {}

/-- `Long.MAX_VALUE` -/
def maxLong : ℤ := 2 ^ 63 - 1

def Caller.Finished (t : Caller) : Prop := t.todo = [] ∧ t.point = .idle

namespace Object

variable {ι : Type} [DecidableEq ι]

/-- `Cleanable.clean`, which runs its action at most once. -/
def clean (s : Object ι) : Object ι :=
  if s.cleaned then s else { s with cleaned := true, rust := s.rust.drop }

def goes (s : Object ι) (i : ι) (t : Caller) : Object ι :=
  { s with callers := Function.update s.callers i t }

/-- `decrementAndGet() == 0L` -/
def decrement (s : Object ι) (i : ι) (t : Caller) : Object ι :=
  { s.goes i { t with point := if s.callCounter - 1 = 0 then .cleaning else .idle } with
    callCounter := s.callCounter - 1 }

/-- The next step of a thread. -/
def step (s : Object ι) (i : ι) : Option (Object ι) :=
  let t := s.callers i
  match t.point with
  | .idle =>
    match t.todo with
    | [] => none
    | .destroy :: rest =>
      -- `wasDestroyed.compareAndSet(false, true)`
      if s.wasDestroyed then some (s.goes i { t with todo := rest })
      else some { s.goes i { t with todo := rest, point := .flagged } with wasDestroyed := true }
    | .call args :: rest => some (s.goes i { t with todo := rest, point := .called args })
  | .flagged => some (s.decrement i t)
  | .called args =>
    if s.callCounter = 0 then
      some (s.goes i (t.ends .destroyed .idle))
    else if s.callCounter = maxLong then
      some (s.goes i (t.ends .overflow .idle))
    else some (s.goes i { t with point := .read args s.callCounter })
  | .read args c =>
    -- `callCounter.compareAndSet(c, c + 1L)`, and from the start if it fails
    if s.callCounter = c then
      some { s.goes i { t with point := .counted args } with callCounter := c + 1 }
    else some (s.goes i { t with point := .called args })
  | .counted args =>
    some { s.goes i { t with point := .cloned args } with rust := s.rust.clone }
  | .cloned args =>
    -- where an argument cannot be lowered, the clone is never handed over
    if args.all fun a => a.lower.isSome then some (s.goes i { t with point := .inside })
    else some (s.goes i (t.ends .unlowered .leaving))
  | .inside =>
    some { s.goes i (t.ends .returned .leaving) with rust := s.rust.drop }
  | .leaving => some (s.decrement i t)
  | .cleaning => some (s.clean.goes i { t with point := .idle })

/-- A new object and what its threads will do. -/
def start (todo : ι → List Op) : Object ι := { callers := fun i => { todo := todo i } }

/-- A run; an object no thread reaches any more may be collected. -/
inductive Run : Object ι → Object ι → Prop where
  | refl (s : Object ι) : Run s s
  | step {s t u : Object ι} (i : ι) (hr : Run s t) (h : t.step i = some u) : Run s u
  | collect {s t : Object ι} (hr : Run s t) (hf : ∀ i, (t.callers i).Finished) : Run s t.clean

end Object

end Unfydqry.Binding
