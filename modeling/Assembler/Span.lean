import Assembler.Field

/-!
# Watched distances

A span records that the length of a chunk, or the number of its copies, depends on a distance inside
its section. The relaxation reads the distance, and when the span fires it lets the chunk grow.
-/

namespace Assembler

/-- When a span fires. -/
inductive Policy where
  /-- When the distance leaves a window. -/
  | outsideWindow
  /-- When the distance differs from the one seen last. -/
  | anyChange
deriving DecidableEq

namespace Policy

/-- The names of the policies, by code. -/
def names : List String := ["outside-window", "any-change"]

/-- The name of a policy. -/
def text : Policy → String
  | .outsideWindow => "outside-window"
  | .anyChange => "any-change"

end Policy

/-- What becomes of a span. -/
inductive SpanState where
  | active
  /-- The chunk no longer depends on the distance. -/
  | retired
  /-- The chunk could not be laid out. -/
  | failed
deriving DecidableEq

namespace SpanState

/-- The names of the states, by code. -/
def names : List String := ["active", "retired", "failed"]

/-- The name of a state. -/
def text : SpanState → String
  | .active => "active"
  | .retired => "retired"
  | .failed => "failed"

end SpanState

/-- What a chunk does with the distance that it depends on. -/
inductive Purpose where
  /-- It is the number of copies. -/
  | copies
  /-- It is the integer written in groups of seven bits. -/
  | leb128 (signed : Bool)
  /-- It decides between a branch's short form and the near one, whose length is given. -/
  | branch (nearLength : UInt64)
deriving DecidableEq

namespace Purpose

/-- The number of a span in its chunk: zero for the number of copies, one for what the body
watches. -/
def id : Purpose → Nat
  | .copies => 0
  | .leb128 _ | .branch _ => 1

/-- When a span of this purpose fires. -/
def policy : Purpose → Policy
  | .copies | .leb128 _ => .anyChange
  | .branch _ => .outsideWindow

end Purpose

/-- A distance that a chunk depends on. -/
structure Span where
  /-- The chunk's place in its section. -/
  index : Nat
  purpose : Purpose
  /-- The distance. -/
  field : Field
  /-- The window's ends. -/
  low : Int64 := 0
  high : Int64 := 0
  /-- The distance seen at the last expansion. -/
  seen : Int64 := 0
  state : SpanState := .active
deriving DecidableEq

/-- Whether a distance makes the span fire. -/
def Span.fires (span : Span) (distance : Int64) : Bool :=
  match span.purpose.policy with
  | .outsideWindow => distance < span.low || span.high < distance
  | .anyChange => distance ≠ span.seen

end Assembler
