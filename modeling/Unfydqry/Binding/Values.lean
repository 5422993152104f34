import Unfydqry.Engine.Types

/-! # The values that cross the binding

The records and the error of the two bindings, over the strings `S` of a side. A `Double`
is its bits. Every type comes with its fields in the order they are written. -/

namespace Unfydqry.Binding

variable {S T : Type}

structure FieldValue (S : Type) where
  slot : UInt8
  text : S
  deriving DecidableEq

structure Hit where
  id : Int64
  score : UInt64
  deriving DecidableEq

structure IndexItem (S : Type) where
  id : Int64
  text : S
  deriving DecidableEq

structure RecordHit where
  recordId : Int64
  score : UInt64
  matchedSlots : List UInt8
  deriving DecidableEq

structure RecordIndexItem (S : Type) where
  recordId : Int64
  fields : List (FieldValue S)
  deriving DecidableEq

/-- `SearchException` in Kotlin. -/
inductive SearchError (S : Type) where
  | db (v1 : S)
  | configMismatch (stored requested : S)
  | fieldBitsMismatch (stored requested : UInt8)
  deriving DecidableEq

/-! ### The same value over other strings -/

def FieldValue.rename (g : S → T) (v : FieldValue S) : FieldValue T := ⟨v.slot, g v.text⟩

def IndexItem.rename (g : S → T) (v : IndexItem S) : IndexItem T := ⟨v.id, g v.text⟩

def RecordIndexItem.rename (g : S → T) (v : RecordIndexItem S) : RecordIndexItem T :=
  ⟨v.recordId, v.fields.map (FieldValue.rename g)⟩

def SearchError.rename (g : S → T) : SearchError S → SearchError T
  | .db v1 => .db (g v1)
  | .configMismatch stored requested => .configMismatch (g stored) (g requested)
  | .fieldBitsMismatch stored requested => .fieldBitsMismatch stored requested

/-! ### Fields -/

def FieldValue.ofFields : UInt8 × S ≃ FieldValue S where
  toFun p := ⟨p.1, p.2⟩
  invFun v := (v.slot, v.text)
  left_inv _ := rfl
  right_inv _ := rfl

def Hit.ofFields : Int64 × UInt64 ≃ Hit where
  toFun p := ⟨p.1, p.2⟩
  invFun v := (v.id, v.score)
  left_inv _ := rfl
  right_inv _ := rfl

def IndexItem.ofFields : Int64 × S ≃ IndexItem S where
  toFun p := ⟨p.1, p.2⟩
  invFun v := (v.id, v.text)
  left_inv _ := rfl
  right_inv _ := rfl

def RecordHit.ofFields : Int64 × UInt64 × List UInt8 ≃ RecordHit where
  toFun p := ⟨p.1, p.2.1, p.2.2⟩
  invFun v := (v.recordId, v.score, v.matchedSlots)
  left_inv _ := rfl
  right_inv _ := rfl

def RecordIndexItem.ofFields : Int64 × List (FieldValue S) ≃ RecordIndexItem S where
  toFun p := ⟨p.1, p.2⟩
  invFun v := (v.recordId, v.fields)
  left_inv _ := rfl
  right_inv _ := rfl

def EngineConfig.ofFields : NormalizeProfile × SearchStrategy × Option UInt8 ≃ EngineConfig where
  toFun p := ⟨p.1, p.2.1, p.2.2⟩
  invFun v := (v.normalize, v.strategy, v.fieldBits)
  left_inv _ := rfl
  right_inv _ := rfl

def EngineOptionsConfig.ofFields :
    NormalizeOptions × SearchStrategy × Option UInt8 ≃ EngineOptionsConfig where
  toFun p := ⟨p.1, p.2.1, p.2.2⟩
  invFun v := (v.normalize, v.strategy, v.fieldBits)
  left_inv _ := rfl
  right_inv _ := rfl

def NormalizeOptions.ofFields :
    Bool × Bool × Bool × Bool × Bool × Bool × Bool × Bool ≃ NormalizeOptions where
  toFun p := ⟨p.1, p.2.1, p.2.2.1, p.2.2.2.1, p.2.2.2.2.1, p.2.2.2.2.2.1, p.2.2.2.2.2.2.1,
    p.2.2.2.2.2.2.2⟩
  invFun v := (v.lowercase, v.kanaFold, v.foldDiacritics, v.foldChoonpu,
    v.expandIterationMarks, v.normalizeHyphens, v.stripDigitGrouping, v.collapseWhitespace)
  left_inv _ := rfl
  right_inv _ := rfl

end Unfydqry.Binding
