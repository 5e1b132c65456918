import JackToVm.Pass.Event

/-!
Log records and their levels. A log keeps the records of one level and of all more severe ones.
-/

namespace JackToVm

/-- How severe a record is. -/
inductive Level where
  | error | warn | info | debug | trace
deriving DecidableEq, Repr, Inhabited

namespace Level

def text : Level → String
  | error => "ERROR"
  | warn => "WARN"
  | info => "INFO"
  | debug => "DEBUG"
  | trace => "TRACE"

/-- The rank of a level; the most severe one comes first. -/
def rank : Level → Nat
  | error => 0
  | warn => 1
  | info => 2
  | debug => 3
  | trace => 4

/-- Tells whether a log of one level keeps the records of another. -/
def keeps (limit level : Level) : Bool :=
  level.rank ≤ limit.rank

end Level

/-- A line of a log. -/
structure Record where
  level : Level
  message : String
deriving DecidableEq, Repr, Inhabited

namespace Event

/-- The record of an event. Label numbers are drawn silently. -/
def record? : Event → Option Record
  | enteredClass name => some { level := .debug, message := s!"compiling class {name}" }
  | enteredRoutine kind className name =>
    some { level := .debug, message := s!"compiling {kind.text} {className}.{name}" }
  | drew _ => none
  | wrote i => some { level := .trace, message := i.text }

end Event

end JackToVm
