import JackToVm.Pass.Event

/-!
Syntax trees of classes, and the text that they stand for. The text of a tree is a `Phrase`: its lexemes,
and the names among them that are used as variables. `x` in `x.f()` or in `x()` is not such a use.
-/

namespace JackToVm

/-! ### Phrases -/

/-- A use of a name as a variable, with the lexemes of its phrase that stand behind the name. -/
structure Use where
  name : String
  rest : List Lexeme
deriving DecidableEq, Repr

/-- Lexemes, and the uses of variables among them. -/
structure Phrase where
  lexemes : List Lexeme := []
  uses : List Use := []
deriving DecidableEq, Repr

namespace Use

/-- The use in a phrase that goes on with more lexemes. -/
def before (u : Use) (more : List Lexeme) : Use :=
  { u with rest := u.rest ++ more }

@[simp] theorem name_before (u : Use) (more : List Lexeme) : (u.before more).name = u.name := rfl

@[simp] theorem rest_before (u : Use) (more : List Lexeme) : (u.before more).rest = u.rest ++ more := rfl

@[simp] theorem before_nil (u : Use) : u.before [] = u := by simp [before]

@[simp] theorem before_before (u : Use) (a b : List Lexeme) : (u.before a).before b = u.before (a ++ b) := by
  simp [before]

end Use

namespace Phrase

instance : Append Phrase where
  append p q := { lexemes := p.lexemes ++ q.lexemes, uses := p.uses.map (·.before q.lexemes) ++ q.uses }

def token (l : Lexeme) : Phrase := { lexemes := [l] }

def keyword (word : Keyword) : Phrase := token (.keyword word)

def symbol (x : Symbol) : Phrase := token (.symbol x)

def name (x : String) : Phrase := token (.identifier x)

/-- The phrase that makes the name in front of it a variable. -/
def use (x : String) : Phrase := { uses := [{ name := x, rest := [] }] }

/-- The phrases of a list, one behind the other. -/
def join {α : Type} (f : α → Phrase) : List α → Phrase
  | [] => {}
  | a :: as => f a ++ join f as

@[ext] theorem ext {p q : Phrase} (hl : p.lexemes = q.lexemes) (hu : p.uses = q.uses) : p = q := by
  obtain ⟨_, _⟩ := p
  obtain ⟨_, _⟩ := q
  cases hl
  cases hu
  rfl

@[simp] theorem lexemes_append (p q : Phrase) : (p ++ q).lexemes = p.lexemes ++ q.lexemes := rfl

@[simp] theorem uses_append (p q : Phrase) :
    (p ++ q).uses = p.uses.map (·.before q.lexemes) ++ q.uses := rfl

@[simp] theorem lexemes_token (l : Lexeme) : (token l).lexemes = [l] := rfl

@[simp] theorem uses_token (l : Lexeme) : (token l).uses = [] := rfl

@[simp] theorem lexemes_keyword (word : Keyword) : (keyword word).lexemes = [.keyword word] := rfl

@[simp] theorem uses_keyword (word : Keyword) : (keyword word).uses = [] := rfl

@[simp] theorem lexemes_symbol (x : Symbol) : (symbol x).lexemes = [.symbol x] := rfl

@[simp] theorem uses_symbol (x : Symbol) : (symbol x).uses = [] := rfl

@[simp] theorem lexemes_name (x : String) : (name x).lexemes = [.identifier x] := rfl

@[simp] theorem uses_name (x : String) : (name x).uses = [] := rfl

@[simp] theorem lexemes_use (x : String) : (use x).lexemes = [] := rfl

@[simp] theorem uses_use (x : String) : (use x).uses = [{ name := x, rest := [] }] := rfl

@[simp] theorem nil_append (p : Phrase) : ({} : Phrase) ++ p = p := by
  ext1 <;> simp

@[simp] theorem append_nil (p : Phrase) : p ++ ({} : Phrase) = p := by
  ext1 <;> simp

@[simp] theorem append_assoc (p q r : Phrase) : p ++ q ++ r = p ++ (q ++ r) := by
  ext1 <;> simp [Function.comp_def]

theorem token_append_inj {l l' : Lexeme} {p q : Phrase} (h : token l ++ p = token l' ++ q) :
    l = l' ∧ p = q := by
  have hl := congrArg lexemes h
  have hu := congrArg uses h
  simp only [lexemes_append, lexemes_token, List.cons_append, List.nil_append, List.cons.injEq] at hl
  exact ⟨hl.1, ext hl.2 (by simpa using hu)⟩

@[simp] theorem join_nil {α : Type} (f : α → Phrase) : join f [] = {} := rfl

@[simp] theorem join_cons {α : Type} (f : α → Phrase) (a : α) (as : List α) :
    join f (a :: as) = f a ++ join f as := rfl

@[simp] theorem join_append {α : Type} (f : α → Phrase) (as bs : List α) :
    join f (as ++ bs) = join f as ++ join f bs := by
  induction as with
  | nil => simp
  | cons a as ih => simp [ih]

theorem uses_join {α : Type} {f : α → Phrase} (h : ∀ a, (f a).uses = []) (as : List α) :
    (join f as).uses = [] := by
  induction as with
  | nil => rfl
  | cons a as ih => simp [h, ih]

end Phrase

/-! ### Operators and their symbols -/

def BinaryOp.symbol : BinaryOp → Symbol
  | .add => .plus
  | .sub => .minus
  | .mul => .star
  | .div => .slash
  | .and => .amp
  | .or => .pipe
  | .lt => .less
  | .gt => .greater
  | .eq => .eq

/-- The symbol of an operator in front of its operand. -/
def UnaryOp.symbol : UnaryOp → Symbol
  | .neg => .minus
  | .not => .tilde

theorem binaryOp?_eq_some_iff {x : Symbol} {op : BinaryOp} : x.binaryOp? = some op ↔ x = op.symbol := by
  cases x <;> cases op <;> decide

theorem unaryOp?_eq_some_iff {x : Symbol} {op : UnaryOp} : x.unaryOp? = some op ↔ x = op.symbol := by
  cases x <;> cases op <;> decide

@[simp] theorem binaryOp?_symbol (op : BinaryOp) : op.symbol.binaryOp? = some op :=
  binaryOp?_eq_some_iff.mpr rfl

@[simp] theorem unaryOp?_symbol (op : UnaryOp) : op.symbol.unaryOp? = some op :=
  unaryOp?_eq_some_iff.mpr rfl

theorem BinaryOp.symbol_inj {a b : BinaryOp} (h : a.symbol = b.symbol) : a = b := by
  have := binaryOp?_symbol a
  rw [h, binaryOp?_symbol] at this
  exact (Option.some.inj this).symm

theorem UnaryOp.symbol_inj {a b : UnaryOp} (h : a.symbol = b.symbol) : a = b := by
  have := unaryOp?_symbol a
  rw [h, unaryOp?_symbol] at this
  exact (Option.some.inj this).symm

namespace Syntax

/-! ### Expressions -/

/-- A type as it is written. -/
inductive TypeName where
  | int | char | boolean
  | named (name : String)
deriving DecidableEq, Repr, Inhabited

namespace TypeName

def lexeme : TypeName → Lexeme
  | int => .keyword .int
  | char => .keyword .char
  | boolean => .keyword .boolean
  | named name => .identifier name

def text : TypeName → String
  | int => "int"
  | char => "char"
  | boolean => "boolean"
  | named name => name

theorem lexeme_inj {a b : TypeName} (h : a.lexeme = b.lexeme) : a = b := by
  cases a <;> cases b <;> simp_all [lexeme]

end TypeName

/-- A reserved word that is a value. -/
inductive Constant where
  | true_ | false_ | null | this
deriving DecidableEq, Repr, Inhabited

namespace Constant

def word : Constant → Keyword
  | true_ => .true_
  | false_ => .false_
  | null => .null
  | this => .this

theorem word_inj {a b : Constant} (h : a.word = b.word) : a = b := by
  cases a <;> cases b <;> simp_all [word]

end Constant

mutual

inductive Term where
  | integer (value : Nat)
  | string (text : String)
  | constant (value : Constant)
  | read (name : String)
  | element (array : String) (index : Expression)
  /-- A call of a method of the current object. -/
  | call (name : String) (arguments : Arguments)
  /-- A call with a class or a receiver in front of the dot. -/
  | callOn (owner name : String) (arguments : Arguments)
  | group (inside : Expression)
  | unary (op : UnaryOp) (operand : Term)
deriving DecidableEq, Repr

inductive Expression where
  | of (first : Term) (rest : Operations)
deriving DecidableEq, Repr

/-- The operators and terms that follow a term. -/
inductive Operations where
  | none
  | more (op : BinaryOp) (operand : Term) (rest : Operations)
deriving DecidableEq, Repr

inductive Arguments where
  | none
  | more (first : Expression) (rest : Arguments)
deriving DecidableEq, Repr

end

mutual

def Term.phrase : Term → Phrase
  | .integer value => .token (.integer value)
  | .string text => .token (.string text)
  | .constant value => .keyword value.word
  | .read x => .name x ++ .use x
  | .element x index =>
    .name x ++ .use x ++ .symbol .leftBracket ++ index.phrase ++ .symbol .rightBracket
  | .call f arguments => .name f ++ .symbol .leftParen ++ arguments.phrase ++ .symbol .rightParen
  | .callOn owner f arguments =>
    .name owner ++ .symbol .dot ++ .name f ++ .symbol .leftParen ++ arguments.phrase ++
      .symbol .rightParen
  | .group inside => .symbol .leftParen ++ inside.phrase ++ .symbol .rightParen
  | .unary op operand => .symbol op.symbol ++ operand.phrase

def Expression.phrase : Expression → Phrase
  | .of first rest => first.phrase ++ rest.phrase

def Operations.phrase : Operations → Phrase
  | .none => {}
  | .more op operand rest => .symbol op.symbol ++ operand.phrase ++ rest.phrase

def Arguments.phrase : Arguments → Phrase
  | .none => {}
  | .more first rest => first.phrase ++ rest.tailPhrase

/-- The arguments behind the first, each with its comma. -/
def Arguments.tailPhrase : Arguments → Phrase
  | .none => {}
  | .more first rest => .symbol .comma ++ first.phrase ++ rest.tailPhrase

end

def Arguments.count : Arguments → Nat
  | .none => 0
  | .more _ rest => rest.count + 1

/-! ### Statements -/

mutual

inductive Statement where
  | assign (name : String) (value : Expression)
  | assignElement (array : String) (index value : Expression)
  | if_ (condition : Expression) (body : Block)
  | ifElse (condition : Expression) (body alternative : Block)
  | while_ (condition : Expression) (body : Block)
  | do_ (term : Term)
  | return_
  | returnValue (value : Expression)
deriving DecidableEq, Repr

inductive Block where
  | nil
  | cons (first : Statement) (rest : Block)
deriving DecidableEq, Repr

end

def Expression.conditionPhrase (condition : Expression) : Phrase :=
  .symbol .leftParen ++ condition.phrase ++ .symbol .rightParen

mutual

def Statement.phrase : Statement → Phrase
  | .assign x value =>
    .keyword .let_ ++ .name x ++ .use x ++ .symbol .eq ++ value.phrase ++ .symbol .semicolon
  | .assignElement x index value =>
    .keyword .let_ ++ .name x ++ .use x ++ .symbol .leftBracket ++ index.phrase ++
      .symbol .rightBracket ++ .symbol .eq ++ value.phrase ++ .symbol .semicolon
  | .if_ condition body =>
    .keyword .if_ ++ condition.conditionPhrase ++ .symbol .leftBrace ++ body.phrase ++
      .symbol .rightBrace
  | .ifElse condition body alternative =>
    .keyword .if_ ++ condition.conditionPhrase ++ .symbol .leftBrace ++ body.phrase ++
      .symbol .rightBrace ++ .keyword .else_ ++ .symbol .leftBrace ++ alternative.phrase ++
      .symbol .rightBrace
  | .while_ condition body =>
    .keyword .while_ ++ condition.conditionPhrase ++ .symbol .leftBrace ++ body.phrase ++
      .symbol .rightBrace
  | .do_ term => .keyword .do_ ++ term.phrase ++ .symbol .semicolon
  | .return_ => .keyword .return_ ++ .symbol .semicolon
  | .returnValue value => .keyword .return_ ++ value.phrase ++ .symbol .semicolon

def Block.phrase : Block → Phrase
  | .nil => {}
  | .cons first rest => first.phrase ++ rest.phrase

end

/-! ### Declarations -/

/-- The variables of one declaration. -/
structure Declaration where
  type : TypeName
  first : String
  more : List String
deriving DecidableEq, Repr

/-- Names, each behind a comma, and the semicolon. -/
def moreNames (names : List String) : Phrase :=
  Phrase.join (fun x => .symbol .comma ++ .name x) names ++ .symbol .semicolon

def Declaration.phrase (d : Declaration) : Phrase :=
  .token d.type.lexeme ++ .name d.first ++ moreNames d.more

structure Parameter where
  type : TypeName
  name : String
deriving DecidableEq, Repr

namespace Parameter

def phrase (p : Parameter) : Phrase :=
  .token p.type.lexeme ++ .name p.name

/-- Parameters, each behind a comma, and the closing parenthesis. -/
def tailPhrase (ps : List Parameter) : Phrase :=
  Phrase.join (fun p => .symbol .comma ++ p.phrase) ps ++ .symbol .rightParen

/-- Parameters and the closing parenthesis. -/
def listPhrase : List Parameter → Phrase
  | [] => .symbol .rightParen
  | p :: ps => p.phrase ++ tailPhrase ps

end Parameter

/-- A subroutine. It returns nothing when `result?` is not there. -/
structure Routine where
  kind : RoutineKind
  result? : Option TypeName
  name : String
  parameters : List Parameter
  locals : List Declaration
  body : Block
deriving DecidableEq, Repr

namespace Routine

/-- The reserved word in front of a subroutine. -/
def kindWord : RoutineKind → Keyword
  | .constructor_ => .constructor_
  | .function => .function
  | .method => .method

/-- The lexeme for what a subroutine returns. -/
def resultLexeme : Option TypeName → Lexeme
  | none => .keyword .void
  | some type => type.lexeme

def localsPhrase (locals : List Declaration) : Phrase :=
  Phrase.join (fun d => .keyword .var ++ d.phrase) locals

/-- All of a subroutine in front of its statements. -/
def headPhrase (r : Routine) : Phrase :=
  .keyword (kindWord r.kind) ++ .token (resultLexeme r.result?) ++ .name r.name ++ .symbol .leftParen ++
    Parameter.listPhrase r.parameters ++ .symbol .leftBrace ++ localsPhrase r.locals

def phrase (r : Routine) : Phrase :=
  r.headPhrase ++ r.body.phrase ++ .symbol .rightBrace

end Routine

/-! Declarations use no variables. -/

@[simp] theorem uses_moreNames (names : List String) : (moreNames names).uses = [] := by
  simp [moreNames, Phrase.uses_join]

@[simp] theorem Declaration.uses_phrase (d : Declaration) : d.phrase.uses = [] := by
  simp [phrase]

@[simp] theorem Parameter.uses_phrase (p : Parameter) : p.phrase.uses = [] := by
  simp [phrase]

@[simp] theorem Parameter.uses_tailPhrase (ps : List Parameter) : (tailPhrase ps).uses = [] := by
  simp [tailPhrase, Phrase.uses_join]

@[simp] theorem Parameter.uses_listPhrase (ps : List Parameter) : (listPhrase ps).uses = [] := by
  cases ps <;> simp [listPhrase]

@[simp] theorem Routine.uses_localsPhrase (ds : List Declaration) : (localsPhrase ds).uses = [] := by
  simp [localsPhrase, Phrase.uses_join]

@[simp] theorem Routine.uses_headPhrase (r : Routine) : r.headPhrase.uses = [] := by
  simp [headPhrase]

/-- A declaration of a class. -/
inductive Member where
  | statics (declaration : Declaration)
  | fields (declaration : Declaration)
  | routine (routine : Routine)
deriving DecidableEq, Repr

def Member.phrase : Member → Phrase
  | .statics d => .keyword .static ++ d.phrase
  | .fields d => .keyword .field ++ d.phrase
  | .routine r => r.phrase

structure Class where
  name : String
  members : List Member
deriving DecidableEq, Repr

namespace Class

/-- The lexemes in front of the declarations of a class. -/
def headPhrase (name : String) : Phrase :=
  .keyword .class_ ++ .name name ++ .symbol .leftBrace

def phrase (c : Class) : Phrase :=
  headPhrase c.name ++ Phrase.join Member.phrase c.members ++ .symbol .rightBrace

/-- The lexemes that a class is written with. -/
def lexemes (c : Class) : List Lexeme := c.phrase.lexemes

end Class

end Syntax

end JackToVm
