import JackToVm.Pass.Error
import JackToVm.Pass.Event

/-!
The single pass over the tokens of a class. The pass keeps an agenda: the goals that are still to be met,
first the next one. A goal looks at one token. It fails, or it is done without the token, or it takes the
token and puts new goals in its place. Code is written as soon as it is known, so what a goal leaves to be
written later stands on the agenda too.
-/

namespace JackToVm

/-- What the pass knows about the class: its name, its variables and those of the current subroutine, and
the label numbers drawn. -/
structure State where
  className : String := ""
  classScope : Scope := {}
  routineScope : Scope := {}
  labels : Vm.Labels := {}
deriving DecidableEq, Repr, Inhabited

namespace State

/-- The variable of a name. Those of the subroutine hide those of the class. -/
def lookup? (s : State) (name : String) : Option Variable :=
  s.routineScope.get? name <|> s.classScope.get? name

/-- Declares a variable in the scope of its kind. -/
def declare (s : State) (name type : String) : Kind → State
  | .static => { s with classScope := s.classScope.define name type .static }
  | .field => { s with classScope := s.classScope.define name type .field }
  | .argument => { s with routineScope := s.routineScope.define name type .argument }
  | .local_ => { s with routineScope := s.routineScope.define name type .local_ }

/-- Declares the receiver of a subroutine: a method gets it as its first argument, and a constructor
keeps a local slot for it. -/
def declareReceiver (s : State) : RoutineKind → State
  | .method => s.declare "this" s.className .argument
  | .constructor_ => s.declare "this" s.className .local_
  | .function => s

/-- The code at the start of a subroutine: its header with the number of its locals, then what makes
`pointer 0` the receiver. -/
def prologue (s : State) (kind : RoutineKind) (name : String) : List Vm.Instruction :=
  .function s!"{s.className}.{name}" (s.routineScope.count .local_) ::
    match kind with
    | .constructor_ =>
      [.pushConstant (s.classScope.count .field), .call "Memory.alloc" 1, .pop .pointer 0]
    | .method => [.push .argument 0, .pop .pointer 0]
    | .function => []

end State

/-- Something the pass has still to recognise or to write. -/
inductive Goal where
  | keyword (word : Keyword)
  | symbol (symbol : Symbol)
  | emit (event : Event)
  /-- The name of the class. -/
  | className
  /-- The declarations of the class and its closing brace. -/
  | members
  /-- The type of a variable declaration, its names and its semicolon. -/
  | variableType (kind : Kind)
  | variableName (kind : Kind) (type : String)
  | moreVariables (kind : Kind) (type : String)
  /-- The type of the value that a subroutine returns. -/
  | returnType (kind : RoutineKind)
  | routineName (kind : RoutineKind) (void : Bool)
  /-- The parameters of a subroutine and the closing parenthesis. -/
  | parameters
  | parameter
  | parameterName (type : String)
  | moreParameters
  /-- The local variables of a subroutine, then its header. -/
  | locals (kind : RoutineKind) (name : String)
  /-- Statements and the closing brace. A void body that does not end with a return gets one. -/
  | statements (void returned : Bool)
  | letTarget
  | letRest (name : String) (span : Span)
  /-- The optional branch of an `if` statement, then the label behind the statement. -/
  | otherwise (done : String)
  | returnValue
  | term
  /-- The operators and terms that may follow a term. -/
  | operators
  /-- What makes a name a variable, an array element or a call. -/
  | afterName (name : String) (span : Span)
  /-- The name of a subroutine behind the dot. -/
  | callee (owner : String)
  /-- The arguments of a call in parentheses, behind so many that are there already. They are counted in 16 bits. -/
  | openArguments (callee : String) (count : UInt16)
  | arguments (callee : String) (count : UInt16)
  | moreArguments (callee : String) (count : UInt16)
deriving DecidableEq, Repr, Inhabited

/-- What a goal does with a token. -/
inductive Step where
  | fail (error : CompileError)
  /-- The goal is met; the token is for the next one. -/
  | done (events : List Event) (state : State)
  /-- The token is used up, and new goals come first on the agenda. -/
  | take (events : List Event) (goals : List Goal) (state : State)
deriving DecidableEq, Repr, Inhabited

namespace Goal

def write (i : Vm.Instruction) : Goal :=
  emit (.wrote i)

def expression : List Goal :=
  [term, operators]

def block : List Goal :=
  [symbol .leftBrace, statements false false]

/-- A condition in parentheses, whose negation is left on the stack. -/
def condition : List Goal :=
  symbol .leftParen :: expression ++ [symbol .rightParen, write (.compute .not)]

/-- An index in brackets behind a variable; its address is left on the stack. -/
def element (array : Variable) : List Goal :=
  write (.pushVariable array) :: expression ++ [symbol .rightBracket, write (.compute .add)]

/-! ### Wanted tokens -/

def wantName (t : Token) (k : String → Step) : Step :=
  match t.identifier? with
  | some name => k name
  | none => .fail (.unexpected (.lexemeClass .identifier) t)

def wantType (t : Token) (k : String → Step) : Step :=
  match t.lexeme with
  | .keyword .int => k "int"
  | .keyword .char => k "char"
  | .keyword .boolean => k "boolean"
  | .identifier name => k name
  | _ => .fail (.unexpected (.construct "type") t)

/-- Looks a variable up that was named at a place. -/
def wantVariable (s : State) (name : String) (span : Span) (k : Variable → Step) : Step :=
  match s.lookup? name with
  | some v => k v
  | none => .fail (.undefined name span)

/-! ### Goals with a choice -/

def memberStep (t : Token) (s : State) : Step :=
  let routine kind := Step.take [] [returnType kind, members] { s with routineScope := {} }
  match t.lexeme with
  | .symbol .rightBrace => .take [] [] s
  | .keyword .static => .take [] [variableType .static, members] s
  | .keyword .field => .take [] [variableType .field, members] s
  | .keyword .constructor_ => routine .constructor_
  | .keyword .function => routine .function
  | .keyword .method => routine .method
  | .keyword _ => .fail (.unexpected (.construct "class variable or subroutine declaration") t)
  | _ => .fail (.unexpected (.lexemeClass .keyword) t)

/-- The step of `statements`. A branch and a loop draw two label numbers before anything else. -/
def statementStep (void returned : Bool) (t : Token) (s : State) : Step :=
  let first := s.labels.next
  let second := first + 1
  let drawn := { s with labels := s.labels.draw.2.draw.2 }
  match t.lexeme with
  | .symbol .rightBrace =>
    if void && !returned then .take [.wrote (.pushConstant 0), .wrote .return_] [] s
    else .take [] [] s
  | .keyword .let_ => .take [] [letTarget, statements void false] s
  | .keyword .if_ =>
    let alternative := Vm.Labels.ifName first
    let done := Vm.Labels.ifName second
    .take [.drew first, .drew second]
      (condition ++ [write (.ifGoto alternative)] ++ block ++
        [write (.goto done), write (.label alternative), otherwise done, statements void false])
      drawn
  | .keyword .while_ =>
    let top := Vm.Labels.whileName first
    let done := Vm.Labels.whileName second
    .take [.drew first, .drew second, .wrote (.label top)]
      (condition ++ [write (.ifGoto done)] ++ block ++
        [write (.goto top), write (.label done), statements void false])
      drawn
  | .keyword .do_ =>
    .take [] [term, symbol .semicolon, write (.pop .temp 0), statements void false] s
  | .keyword .return_ => .take [] [returnValue, statements void true] s
  | _ => .fail (.unexpected (.construct "statement") t)

/-- The step of `letRest`: the variable or the array element that is assigned. The value of an element is
parked while its address is put in place, because computing the value may have moved `pointer 1`. -/
def letStep (name : String) (span : Span) (t : Token) (s : State) : Step :=
  wantVariable s name span fun v =>
    match t.lexeme with
    | .symbol .leftBracket =>
      .take []
        (element v ++ [symbol .eq] ++ expression ++
          [write (.pop .temp 0), write (.pop .pointer 1), write (.push .temp 0), write (.pop .that 0),
           symbol .semicolon])
        s
    | .symbol .eq => .take [] (expression ++ [write (.popVariable v), symbol .semicolon]) s
    | _ => .fail (.unexpected (.symbol .eq) t)

/-- The step of `term`, with the goals that follow the term. -/
def termStep (next : List Goal) (t : Token) (s : State) : Step :=
  match t.lexeme with
  | .integer value => .take [.wrote (.pushConstant value)] next s
  | .string text => .take ((Vm.Instruction.ofString text).map .wrote) next s
  | .keyword .true_ => .take [.wrote (.pushConstant 1), .wrote (.compute .neg)] next s
  | .keyword .false_ => .take [.wrote (.pushConstant 0)] next s
  | .keyword .null => .take [.wrote (.pushConstant 0)] next s
  | .keyword .this => .take [.wrote (.push .pointer 0)] next s
  | .identifier name => .take [] (afterName name t.span :: next) s
  | .symbol .leftParen => .take [] (expression ++ symbol .rightParen :: next) s
  | .symbol x =>
    match x.unaryOp? with
    | some op => .take [] (term :: write (.ofUnaryOp op) :: next) s
    | none => .fail (.unexpected (.construct "expression term") t)
  | .keyword _ => .fail (.unexpected (.construct "expression term") t)

/-- The step of `afterName`. A name in front of a parenthesis is a method of the current object. -/
def nameStep (name : String) (span : Span) (t : Token) (s : State) : Step :=
  match t.lexeme with
  | .symbol .dot => .take [] [callee name] s
  | .symbol .leftBracket =>
    wantVariable s name span fun v =>
      .take [] (element v ++ [write (.pop .pointer 1), write (.push .that 0)]) s
  | .symbol .leftParen =>
    .take [.wrote (.push .pointer 0)] [arguments s!"{s.className}.{name}" 1] s
  | _ => wantVariable s name span fun v => .done [.wrote (.pushVariable v)] s

/-- The step of `callee`. A variable in front of the dot is the receiver and gives the class; any other
name is the class itself. -/
def calleeStep (owner : String) (t : Token) (s : State) : Step :=
  wantName t fun name =>
    match s.lookup? owner with
    | some v => .take [] [write (.pushVariable v), openArguments s!"{v.type}.{name}" 1] s
    | none => .take [] [openArguments s!"{owner}.{name}" 0] s

/-! ### One token -/

def step (t : Token) (s : State) : Goal → Step
  | keyword word =>
    if t.lexeme = .keyword word then .take [] [] s else .fail (.unexpected (.keyword word) t)
  | symbol x => if t.lexeme = .symbol x then .take [] [] s else .fail (.unexpected (.symbol x) t)
  | emit event => .done [event] s
  | className =>
    wantName t fun name =>
      .take [] [emit (.enteredClass name), symbol .leftBrace, members] { s with className := name }
  | members => memberStep t s
  | variableType kind => wantType t fun type => .take [] [variableName kind type] s
  | variableName kind type =>
    wantName t fun name => .take [] [moreVariables kind type] (s.declare name type kind)
  | moreVariables kind type =>
    match t.lexeme with
    | .symbol .comma => .take [] [variableName kind type] s
    | .symbol .semicolon => .take [] [] s
    | _ => .fail (.unexpected (.symbol .semicolon) t)
  | returnType kind =>
    if t.lexeme = .keyword .void then .take [] [routineName kind true] s
    else wantType t fun _ => .take [] [routineName kind false] s
  | routineName kind void =>
    wantName t fun name =>
      .take []
        [emit (.enteredRoutine kind s.className name), symbol .leftParen, parameters,
         symbol .leftBrace, locals kind name, statements void false]
        (s.declareReceiver kind)
  | parameters =>
    if t.lexeme = .symbol .rightParen then .take [] [] s
    else wantType t fun type => .take [] [parameterName type] s
  | parameter => wantType t fun type => .take [] [parameterName type] s
  | parameterName type =>
    wantName t fun name => .take [] [moreParameters] (s.declare name type .argument)
  | moreParameters =>
    match t.lexeme with
    | .symbol .comma => .take [] [parameter] s
    | .symbol .rightParen => .take [] [] s
    | _ => .fail (.unexpected (.symbol .rightParen) t)
  | locals kind name =>
    if t.lexeme = .keyword .var then .take [] [variableType .local_, locals kind name] s
    else .done ((s.prologue kind name).map .wrote) s
  | statements void returned => statementStep void returned t s
  | letTarget => wantName t fun name => .take [] [letRest name t.span] s
  | letRest name span => letStep name span t s
  | otherwise done =>
    if t.lexeme = .keyword .else_ then .take [] (block ++ [write (.label done)]) s
    else .done [.wrote (.label done)] s
  | returnValue =>
    if t.lexeme = .symbol .semicolon then .take [.wrote (.pushConstant 0), .wrote .return_] [] s
    else termStep [operators, write .return_, symbol .semicolon] t s
  | term => termStep [] t s
  | operators =>
    match t.symbol? with
    | some x =>
      match x.binaryOp? with
      | some op => .take [] [term, write (.ofBinaryOp op), operators] s
      | none => .done [] s
    | none => .fail (.unexpected (.lexemeClass .symbol) t)
  | afterName name span => nameStep name span t s
  | callee owner => calleeStep owner t s
  | openArguments f count =>
    if t.lexeme = .symbol .leftParen then .take [] [arguments f count] s
    else .fail (.unexpected (.symbol .leftParen) t)
  | arguments f count =>
    if t.lexeme = .symbol .rightParen then .take [] [write (.call f count.toNat)] s
    else termStep [operators, moreArguments f (count + 1)] t s
  | moreArguments f count =>
    match t.lexeme with
    | .symbol .comma => .take [] [term, operators, moreArguments f (count + 1)] s
    | .symbol .rightParen => .take [] [write (.call f count.toNat)] s
    | _ => .fail (.unexpected (.symbol .rightParen) t)

def ofClass : List Goal :=
  [keyword .class_, className]

end Goal

end JackToVm
