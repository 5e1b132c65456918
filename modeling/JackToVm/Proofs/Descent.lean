import JackToVm.Pass.Run
import JackToVm.Token.Cursor
import JackToVm.Vm.Sink

/-!
The pass as a recursive descent. There is a routine for each production of the grammar. It looks at the current token of
a cursor, moves on and calls other routines, and code is written to a sink on the way. A write that the sink refuses is
an error, which ends the descent as any other error does. A turn of a loop is a call as well: the routine of a loop
calls itself for the next turn. How deep the calls may nest is bounded from outside, and a descent that comes to the
bound has no result. What the descent does is noted: the moves of the cursor are counted, and each call is kept with the
calls around it.
-/

namespace JackToVm

/-- The routines of a descent, the turns of loops among them. -/
inductive Production where
  | class_
  | members
  | classVariables
  | localVariables
  | declaration
  | variableNames
  | type
  | routine
  | parameterList
  | parameters
  | body
  | locals
  | statements
  | block
  | letStatement
  | ifStatement
  | whileStatement
  | doStatement
  | returnStatement
  | condition
  | expression
  | operations
  | term
  | string
  | nameTerm
  | expressionList
  | expressions
deriving DecidableEq, Repr

/-- A call of a routine, and how often the cursor had been told to move on before it. -/
structure Call where
  production : Production
  advances : Nat
deriving DecidableEq, Repr

/-- What a descent works on, and what it has done so far. -/
structure Engine where
  cursor : Cursor
  state : State
  sink : Vm.Sink := {}
  trace : Array Event := #[]
  /-- How often the cursor was told to move on. -/
  advances : Nat := 0
  /-- The calls that were made, each with those around it, from the inside out. -/
  calls : List (List Call) := []

/-- An engine in front of a source. Its sink takes so many bytes at most. -/
def Engine.ofSource (source : String) (start : Nat) (limit? : Option Nat := none) : Engine :=
  { cursor := .ofSource source, state := { labels := { next := start } }, sink := { limit? } }

/-- A part of a descent, inside of some calls. It has no result when the calls nest too deep. -/
def Descent (α : Type) : Type :=
  List Call → Engine → Option (Except CompileError α × Engine)

namespace Descent
variable {α β : Type}

instance : Monad Descent where
  pure a := fun _ e => some (.ok a, e)
  bind x f := fun path e =>
    match x path e with
    | some (.ok a, e) => f a path e
    | some (.error err, e) => some (.error err, e)
    | none => none

/-- The calls nest too deep. -/
def exhausted : Descent α :=
  fun _ _ => none

def fail (err : CompileError) : Descent α :=
  fun _ e => some (.error err, e)

/-- Makes a call. -/
def call (production : Production) (x : Descent α) : Descent α :=
  fun path e =>
    let path := { production, advances := e.advances } :: path
    x path { e with calls := path :: e.calls }

/-! ### Tokens -/

def look (view : Showing → α) : Descent α :=
  fun _ e => some (.ok (view e.cursor.toShowing), e)

def ask (view : Showing → Except TokenError α) : Descent α :=
  fun _ e => some ((view e.cursor.toShowing).mapError .ofTokenError, e)

def isAt (lexeme : Lexeme) : Descent Bool :=
  look (·.isAt lexeme)

def hasMore : Descent Bool :=
  fun _ e =>
    let (more, cursor) := e.cursor.hasMore
    some (.ok more, { e with cursor })

def advance : Descent Unit :=
  fun _ e =>
    let (moved, cursor) := e.cursor.advance
    some (moved.mapError .ofTokenError, { e with cursor, advances := e.advances + 1 })

def unexpected (expected : Expected) : Descent α := do
  fail (.ofTokenError (← look (·.mismatch expected)))

def consume (wanted : Lexeme) (expected : Expected) : Descent Unit := do
  if ← isAt wanted then advance else unexpected expected

def consumeSymbol (x : Symbol) : Descent Unit :=
  consume (.symbol x) (.symbol x)

def consumeKeyword (word : Keyword) : Descent Unit :=
  consume (.keyword word) (.keyword word)

def consumeIdentifier : Descent String := do
  let name ← ask Showing.identifier
  advance
  return name

/-- No item may follow. -/
def endOfSource : Descent Unit := do
  if ← hasMore then
    advance
    unexpected .endOfSource

/-! ### Variables, labels and code -/

def know (view : State → α) : Descent α :=
  fun _ e => some (.ok (view e.state), e)

def change (f : State → State) : Descent Unit :=
  fun _ e => some (.ok (), { e with state := f e.state })

def tell (event : Event) : Descent Unit :=
  fun _ e => some (.ok (), { e with trace := e.trace.push event })

/-- Writes a line. Without room for all of it in the sink, this is an error. -/
def write (i : Vm.Instruction) : Descent Unit :=
  fun _ e =>
    let result := if e.sink.hasRoom i.line.utf8ByteSize then .ok () else .error .sinkFull
    some (result, { e with sink := e.sink.write i.line, trace := e.trace.push (.wrote i) })

def writeAll : List Vm.Instruction → Descent Unit
  | [] => return
  | i :: is => do
    write i
    writeAll is

def drawLabel : Descent Nat := do
  let number ← know (·.labels.draw.1)
  change fun s => { s with labels := s.labels.draw.2 }
  tell (.drew number)
  return number

/-- The variable of a name that was used at a place. -/
def resolve (name : String) (span : Span) : Descent Variable := do
  match ← know (·.lookup? name) with
  | some v => return v
  | none => fail (.undefined name span)

/-! ### Declarations -/

/-- The name of the type that a lexeme stands for. -/
def typeName? : Lexeme → Option String
  | .keyword .int => some "int"
  | .keyword .char => some "char"
  | .keyword .boolean => some "boolean"
  | .identifier name => some name
  | _ => none

def type : Nat → Descent String
  | 0 => exhausted
  | _ + 1 => call .type do
    match typeName? (← ask Showing.current).lexeme with
    | some name =>
      advance
      return name
    | none => unexpected (.construct "type")

/-- The names of a declaration. -/
def variableNames (kind : Kind) (type : String) : Nat → Descent Unit
  | 0 => exhausted
  | n + 1 => call .variableNames do
    let name ← consumeIdentifier
    change (·.declare name type kind)
    if ← isAt (.symbol .comma) then
      advance
      variableNames kind type n

def declaration (kind : Kind) : Nat → Descent Unit
  | 0 => exhausted
  | n + 1 => call .declaration do
    let type ← type n
    variableNames kind type n
    consumeSymbol .semicolon

def classVariables (kind : Kind) : Nat → Descent Unit
  | 0 => exhausted
  | n + 1 => call .classVariables do
    advance
    declaration kind n

def localVariables : Nat → Descent Unit
  | 0 => exhausted
  | n + 1 => call .localVariables do
    consumeKeyword .var
    declaration .local_ n

def parameters : Nat → Descent Unit
  | 0 => exhausted
  | n + 1 => call .parameters do
    let type ← type n
    let name ← consumeIdentifier
    change (·.declare name type .argument)
    if ← isAt (.symbol .comma) then
      advance
      parameters n

def parameterList : Nat → Descent Unit
  | 0 => exhausted
  | n + 1 => call .parameterList do
    if ← isAt (.symbol .rightParen) then return
    parameters n

def locals : Nat → Descent Unit
  | 0 => exhausted
  | n + 1 => call .locals do
    if ← isAt (.keyword .var) then
      localVariables n
      locals n

/-! ### Expressions -/

/-- The element of an array. Its address is left on the stack. -/
def element (array : Variable) (index : Descent Unit) : Descent Unit := do
  advance
  write (.pushVariable array)
  index
  consumeSymbol .rightBracket
  write (.compute .add)

/-- A call behind a dot. A variable in front of the dot is the receiver and gives the class; any other name is the class
itself. -/
def memberCall (owner : String) (arguments : Descent UInt16) : Descent Unit := do
  advance
  let member ← consumeIdentifier
  match ← know (·.lookup? owner) with
  | some v =>
    write (.pushVariable v)
    let count ← arguments
    write (.call s!"{v.type}.{member}" (count + 1).toNat)
  | none =>
    let count ← arguments
    write (.call s!"{owner}.{member}" count.toNat)

/-- A call of a method of the current object. -/
def methodCall (name : String) (arguments : Descent UInt16) : Descent Unit := do
  let className ← know (·.className)
  write (.push .pointer 0)
  let count ← arguments
  write (.call s!"{className}.{name}" (count + 1).toNat)

def string (text : String) : Nat → Descent Unit
  | 0 => exhausted
  | _ + 1 => call .string (writeAll (Vm.Instruction.ofString text))

mutual

def expression : Nat → Descent Unit
  | 0 => exhausted
  | n + 1 => call .expression do
    term n
    operations n

/-- Operators and their right operands, from the left to the right. -/
def operations : Nat → Descent Unit
  | 0 => exhausted
  | n + 1 => call .operations do
    match (← ask Showing.symbol).binaryOp? with
    | some op =>
      advance
      term n
      write (.ofBinaryOp op)
      operations n
    | none => return

def term : Nat → Descent Unit
  | 0 => exhausted
  | n + 1 => call .term do
    match (← ask Showing.current).lexeme with
    | .integer value =>
      write (.pushConstant value)
      advance
    | .string text =>
      string text n
      advance
    | .keyword .true_ =>
      write (.pushConstant 1)
      write (.compute .neg)
      advance
    | .keyword .false_ | .keyword .null =>
      write (.pushConstant 0)
      advance
    | .keyword .this =>
      write (.push .pointer 0)
      advance
    | .keyword _ => unexpected (.construct "expression term")
    | .identifier _ => nameTerm n
    | .symbol .leftParen =>
      advance
      expression n
      consumeSymbol .rightParen
    | .symbol x =>
      match x.unaryOp? with
      | some op =>
        advance
        term n
        write (.ofUnaryOp op)
      | none => unexpected (.construct "expression term")

/-- A variable, an array element or a call, which the token behind the name decides. -/
def nameTerm : Nat → Descent Unit
  | 0 => exhausted
  | n + 1 => call .nameTerm do
    let span ← look Showing.span
    let name ← consumeIdentifier
    if ← isAt (.symbol .dot) then
      memberCall name (expressionList n)
    else if ← isAt (.symbol .leftBracket) then
      let array ← resolve name span
      element array (expression n)
      write (.pop .pointer 1)
      write (.push .that 0)
    else if ← isAt (.symbol .leftParen) then
      methodCall name (expressionList n)
    else
      write (.pushVariable (← resolve name span))

/-- Expressions in parentheses. Gives their number, counted in 16 bits. -/
def expressionList : Nat → Descent UInt16
  | 0 => exhausted
  | n + 1 => call .expressionList do
    consumeSymbol .leftParen
    let count ← if ← isAt (.symbol .rightParen) then pure 0 else expressions 0 n
    consumeSymbol .rightParen
    return count

def expressions (count : UInt16) : Nat → Descent UInt16
  | 0 => exhausted
  | n + 1 => call .expressions do
    expression n
    if ← isAt (.symbol .comma) then
      advance
      expressions (count + 1) n
    else
      return count + 1

end

/-! ### Statements -/

def condition : Nat → Descent Unit
  | 0 => exhausted
  | n + 1 => call .condition do
    consumeSymbol .leftParen
    expression n
    consumeSymbol .rightParen
    write (.compute .not)

def letStatement : Nat → Descent Unit
  | 0 => exhausted
  | n + 1 => call .letStatement do
    consumeKeyword .let_
    let span ← look Showing.span
    let name ← consumeIdentifier
    let target ← resolve name span
    if ← isAt (.symbol .leftBracket) then
      element target (expression n)
      consumeSymbol .eq
      expression n
      write (.pop .temp 0)
      write (.pop .pointer 1)
      write (.push .temp 0)
      write (.pop .that 0)
    else
      consumeSymbol .eq
      expression n
      write (.popVariable target)
    consumeSymbol .semicolon

def doStatement : Nat → Descent Unit
  | 0 => exhausted
  | n + 1 => call .doStatement do
    consumeKeyword .do_
    term n
    consumeSymbol .semicolon
    write (.pop .temp 0)

def returnStatement : Nat → Descent Unit
  | 0 => exhausted
  | n + 1 => call .returnStatement do
    consumeKeyword .return_
    if ← isAt (.symbol .semicolon) then
      write (.pushConstant 0)
    else
      expression n
    write .return_
    consumeSymbol .semicolon

mutual

/-- Statements up to a closing brace, which stays the current token. Tells whether the last one is a return. -/
def statements (returned : Bool) : Nat → Descent Bool
  | 0 => exhausted
  | n + 1 => call .statements do
    if ← isAt (.symbol .rightBrace) then return returned
    let word? ← look (·.keyword.toOption)
    match word? with
    | some .let_ => letStatement n
    | some .if_ => ifStatement n
    | some .while_ => whileStatement n
    | some .do_ => doStatement n
    | some .return_ => returnStatement n
    | _ => unexpected (.construct "statement")
    statements (word? = some .return_) n

def block : Nat → Descent Unit
  | 0 => exhausted
  | n + 1 => call .block do
    consumeSymbol .leftBrace
    let _ ← statements false n
    consumeSymbol .rightBrace

def ifStatement : Nat → Descent Unit
  | 0 => exhausted
  | n + 1 => call .ifStatement do
    let alternative := Vm.Labels.ifName (← drawLabel)
    let done := Vm.Labels.ifName (← drawLabel)
    consumeKeyword .if_
    condition n
    write (.ifGoto alternative)
    block n
    write (.goto done)
    write (.label alternative)
    if ← isAt (.keyword .else_) then
      advance
      block n
    write (.label done)

def whileStatement : Nat → Descent Unit
  | 0 => exhausted
  | n + 1 => call .whileStatement do
    let top := Vm.Labels.whileName (← drawLabel)
    let done := Vm.Labels.whileName (← drawLabel)
    write (.label top)
    consumeKeyword .while_
    condition n
    write (.ifGoto done)
    block n
    write (.goto top)
    write (.label done)

end

/-! ### Classes -/

/-- The body of a subroutine. A void body that does not end with a return gets one. -/
def body (kind : RoutineKind) (name : String) (void : Bool) : Nat → Descent Unit
  | 0 => exhausted
  | n + 1 => call .body do
    consumeSymbol .leftBrace
    locals n
    writeAll (← know (·.prologue kind name))
    let returned ← statements false n
    if void && !returned then
      write (.pushConstant 0)
      write .return_
    consumeSymbol .rightBrace

/-- A subroutine from its name on. -/
def namedRoutine (kind : RoutineKind) (void : Bool) (n : Nat) : Descent Unit := do
  let name ← consumeIdentifier
  tell (.enteredRoutine kind (← know (·.className)) name)
  change (·.declareReceiver kind)
  consumeSymbol .leftParen
  parameterList n
  consumeSymbol .rightParen
  body kind name void n

def routine (kind : RoutineKind) : Nat → Descent Unit
  | 0 => exhausted
  | n + 1 => call .routine do
    change fun s => { s with routineScope := {} }
    advance
    if ← isAt (.keyword .void) then
      advance
      namedRoutine kind true n
    else
      let _ ← type n
      namedRoutine kind false n

/-- Declarations up to the closing brace of the class, which stays the current token. -/
def members : Nat → Descent Unit
  | 0 => exhausted
  | n + 1 => call .members do
    if ← isAt (.symbol .rightBrace) then return
    match ← ask Showing.keyword with
    | .static => classVariables .static n
    | .field => classVariables .field n
    | .constructor_ => routine .constructor_ n
    | .function => routine .function n
    | .method => routine .method n
    | _ => unexpected (.construct "class variable or subroutine declaration")
    members n

def class_ : Nat → Descent Unit
  | 0 => exhausted
  | n + 1 => call .class_ do
    advance
    consumeKeyword .class_
    let name ← consumeIdentifier
    change ({ · with className := name })
    tell (.enteredClass name)
    consumeSymbol .leftBrace
    members n
    endOfSource

end Descent
end JackToVm
