/-!
Scopes of variables. A scope numbers its variables from 0 for each kind of storage. A name that is
declared again gets a new number and hides the older variable, whose number stays used. The counters have
16 bits, and no check: behind number 65535 of a kind comes number 0 again.
-/

namespace JackToVm

/-- Where a variable is stored. -/
inductive Kind where
  /-- One for the class. -/
  | static
  /-- One for each object. -/
  | field
  | argument
  | local_
deriving DecidableEq, Repr, Inhabited

namespace Kind

def text : Kind → String
  | static => "static"
  | field => "field"
  | argument => "argument"
  | local_ => "local"

def ofText? : String → Option Kind
  | "static" => some static
  | "field" => some field
  | "argument" => some argument
  | "local" => some local_
  | _ => none

@[simp] theorem ofText?_text (k : Kind) : ofText? k.text = some k := by
  cases k <;> rfl

end Kind

/-- A declared variable. Its type is a primitive one or the name of a class, which nothing checks. -/
structure Variable where
  name : String
  type : String
  kind : Kind
  index : Nat
deriving DecidableEq, Repr, Inhabited

/-- The variables declared so far, the latest first, and a counter of 16 bits for each kind. -/
structure Scope where
  declared : List Variable := []
  statics : Nat := 0
  fields : Nat := 0
  arguments : Nat := 0
  locals : Nat := 0
deriving DecidableEq, Repr, Inhabited

namespace Scope

/-- The counter of a kind: the number of its variables modulo 65536, hidden ones included. -/
def count (s : Scope) : Kind → Nat
  | .static => s.statics
  | .field => s.fields
  | .argument => s.arguments
  | .local_ => s.locals

/-- Adds a variable and sets the counter of its kind. -/
def record (s : Scope) (v : Variable) (count : Nat) : Scope :=
  let declared := v :: s.declared
  match v.kind with
  | .static => { s with declared, statics := count }
  | .field => { s with declared, fields := count }
  | .argument => { s with declared, arguments := count }
  | .local_ => { s with declared, locals := count }

/-- Declares a variable under the next number of its kind. -/
def define (s : Scope) (name type : String) (kind : Kind) : Scope :=
  s.record { name, type, kind, index := s.count kind } ((s.count kind + 1) % 65536)

def get? (s : Scope) (name : String) : Option Variable :=
  s.declared.find? (·.name = name)

def kindOf? (s : Scope) (name : String) : Option Kind :=
  (s.get? name).map (·.kind)

def typeOf? (s : Scope) (name : String) : Option String :=
  (s.get? name).map (·.type)

def indexOf? (s : Scope) (name : String) : Option Nat :=
  (s.get? name).map (·.index)

def size (s : Scope) : Nat :=
  (s.declared.map (·.name)).eraseDups.length

def isEmpty (s : Scope) : Bool :=
  s.declared.isEmpty

/-- Forgets all variables, and numbers from 0 again. -/
def reset (s : Scope) : Scope :=
  { s with declared := [], statics := 0, fields := 0, arguments := 0, locals := 0 }

/-! ### What a declaration changes -/

@[simp] theorem declared_record (s : Scope) (v : Variable) (count : Nat) :
    (s.record v count).declared = v :: s.declared := by
  rw [record]
  split <;> rfl

@[simp] theorem count_record (s : Scope) (v : Variable) (count : Nat) (kind : Kind) :
    (s.record v count).count kind = if kind = v.kind then count else s.count kind := by
  rw [record]
  split <;> rename_i h <;> rw [h] <;> cases kind <;> rfl

theorem get?_record (s : Scope) (v : Variable) (count : Nat) (name : String) :
    (s.record v count).get? name = if v.name = name then some v else s.get? name := by
  by_cases h : v.name = name <;> simp [get?, h]

@[simp] theorem get?_empty (name : String) : ({} : Scope).get? name = none := rfl

@[simp] theorem count_empty (kind : Kind) : ({} : Scope).count kind = 0 := by
  cases kind <;> rfl

end Scope

end JackToVm
