import JackToVm.Pass.Goal

/-!
Running the pass. `settle` works the agenda off on one token until the token is used up, and `run` does so
for all items of a source. A class compiles when the items and the agenda come to their end together. Both
hand the events on in an array; `settle_eq_append` and `run_eq_append` say that the events of the past
change nothing.
-/

namespace JackToVm

/-- What compiling a class comes to: the events, and whether the class compiled. -/
structure Compilation where
  trace : List Event
  result : Except CompileError Unit
deriving Repr, Inhabited

namespace Goal

/-- Works an agenda off on a token until the token is used up. Behind the class no token is wanted. -/
def settle (t : Token) (trace : Array Event) :
    List Goal → State → Except CompileError (List Goal × State) × Array Event
  | [], _ => (.error (.unexpected .endOfSource t), trace)
  | goal :: agenda, s =>
    match goal.step t s with
    | .fail e => (.error e, trace)
    | .done events s => settle t (trace ++ events) agenda s
    | .take events goals s => (.ok (goals ++ agenda, s), trace ++ events)

/-- Works an agenda off on the items of a source that ends at `finish`. -/
def run (finish : Span) (trace : Array Event) : List Item → List Goal → State → Compilation
  | [], [], _ => { trace := trace.toList, result := .ok () }
  | [], _ :: _, _ => { trace := trace.toList, result := .error (.endOfInput finish) }
  | .error e :: _, _, _ => { trace := trace.toList, result := .error (.lexical e) }
  | .ok t :: items, agenda, s =>
    match settle t trace agenda s with
    | (.error e, trace) => { trace := trace.toList, result := .error e }
    | (.ok (agenda, s), trace) => run finish trace items agenda s

/-! ### Events of the past -/

theorem settle_eq_append (t : Token) (trace : Array Event) (agenda : List Goal) (s : State) :
    settle t trace agenda s = ((settle t #[] agenda s).1, trace ++ (settle t #[] agenda s).2) := by
  induction agenda generalizing trace s with
  | nil => simp [settle]
  | cons goal agenda ih =>
    simp only [settle]
    split
    · simp
    · rename_i events s' _
      rw [ih, ih (#[] ++ events)]
      simp [← Array.toList_inj]
    · simp [← Array.toList_inj]

theorem run_eq_append (finish : Span) (trace : Array Event) (items : List Item) (agenda : List Goal)
    (s : State) :
    run finish trace items agenda s =
      { trace := trace.toList ++ (run finish #[] items agenda s).trace
        result := (run finish #[] items agenda s).result } := by
  induction items generalizing trace agenda s with
  | nil => cases agenda <;> simp [run]
  | cons item items ih =>
    cases item with
    | error e => simp [run]
    | ok t =>
      simp only [run]
      rw [settle_eq_append]
      cases h : settle t #[] agenda s with
      | mk outcome events =>
        cases outcome with
        | error e => simp
        | ok next =>
          simp only
          rw [ih, ih events]
          simp

end Goal

end JackToVm
