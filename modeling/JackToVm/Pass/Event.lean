import JackToVm.Vm.Instruction
import JackToVm.Vm.Label

/-!
What happens while a class is compiled, as a list of events in their order: the class and its
subroutines are entered, label numbers are drawn and instructions are written. The output, the label
counter and the log are all read off this list.
-/

namespace JackToVm

/-- The sort of a subroutine. -/
inductive RoutineKind where
  | constructor_ | function | method
deriving DecidableEq, Repr, Inhabited

namespace RoutineKind

def text : RoutineKind → String
  | constructor_ => "constructor"
  | function => "function"
  | method => "method"

end RoutineKind

/-- Something that happens while a class is compiled. -/
inductive Event where
  | enteredClass (name : String)
  | enteredRoutine (kind : RoutineKind) (className name : String)
  | drew (number : Nat)
  | wrote (instruction : Vm.Instruction)
deriving DecidableEq, Repr, Inhabited

namespace Event

def instruction? : Event → Option Vm.Instruction
  | wrote i => some i
  | _ => none

def isDraw : Event → Bool
  | drew _ => true
  | _ => false

end Event

end JackToVm
