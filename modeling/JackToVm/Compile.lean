import JackToVm.Pass.Run
import JackToVm.Vm.Sink

/-!
Compiling a class. `compile` runs the pass over a source; `Compilation.deliver` sends what it wrote to a
sink, which may be too small, and says where the label counter stands then and what was heard of the pass.
-/

namespace JackToVm

/-- Compiles a class. The label numbers start at `start`. -/
def compile (source : String) (start : Nat) : Compilation :=
  Goal.run (.atEnd source) #[] (Item.ofSource source) Goal.ofClass { labels := { next := start } }

namespace Compilation

def code (c : Compilation) : List Vm.Instruction :=
  c.trace.filterMap Event.instruction?

def text (c : Compilation) : String :=
  String.join (c.code.map Vm.Instruction.line)

def draws (c : Compilation) : Nat :=
  c.trace.countP Event.isDraw

end Compilation

/-- What reaches the outside of a compilation. -/
structure Delivery where
  sink : Vm.Sink
  /-- The label numbers handed out. -/
  labels : Vm.Labels
  /-- The events that were heard of, a refused write included. -/
  heard : Array Event := #[]
  /-- Whether the sink has refused a write. -/
  refused : Bool := false

namespace Delivery

/-- Lets an event happen, unless the sink has refused a write before. -/
def step : Delivery → Event → Delivery
  | { sink, labels, heard, refused }, event =>
    if refused then { sink, labels, heard, refused }
    else
      let heard := heard.push event
      match event with
      | .wrote i =>
        let line := i.line
        if sink.hasRoom line.utf8ByteSize then { sink := sink.write line, labels, heard, refused := false }
        else { sink := sink.write line, labels, heard, refused := true }
      | .drew _ => { sink, labels := labels.draw.2, heard, refused }
      | _ => { sink, labels, heard, refused }

end Delivery

namespace Compilation

/-- What reaches the outside when each line goes to a sink as soon as it is written, and the pass ends with the first
line that the sink refuses. -/
def deliver (c : Compilation) (limit? : Option Nat) (labels : Vm.Labels) : Delivery :=
  c.trace.foldl Delivery.step { sink := { limit? }, labels }

/-- Whether the class compiled and its code was written. -/
def resultAfter (c : Compilation) (d : Delivery) : Except CompileError Unit :=
  if d.refused then .error .sinkFull else c.result

end Compilation

/-- Compiles a class to VM text, with label numbers from 0 on. -/
def compileText (source : String) : Except CompileError String :=
  let c := compile source 0
  c.result.map fun _ => c.text

end JackToVm
