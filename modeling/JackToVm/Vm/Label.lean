/-!
Label numbers. One counter serves all classes of a run, so that no label is used twice. A counter of 64 bits
has a number for every label of a run: it is only ever made with 0 in it and moves by one for each number
that is drawn, so that it would start again at 0 after 2 ^ 64 draws. No run comes to that many, and the
numbers have no bound here.
-/

namespace JackToVm.Vm

/-- How many label numbers have been handed out; the next number is the same. -/
structure Labels where
  next : Nat := 0
deriving DecidableEq, Repr, Inhabited

namespace Labels

def draw (l : Labels) : Nat × Labels :=
  (l.next, { next := l.next + 1 })

def name (number : Nat) : String :=
  s!"LABEL{number}"

def ifName (number : Nat) : String :=
  "IF" ++ name number

def whileName (number : Nat) : String :=
  "WHILE" ++ name number

end Labels

end JackToVm.Vm
