import JackToVm.Proofs.Delivery
import JackToVm.Proofs.Termination

/-!
A descent into a sink that may be too small, beside the same descent into a sink without a limit. The two go together up
to the first line that the small sink refuses, and there the one ends, whatever the other one still does
(`Descent.Cuts`). Each routine is built from parts that do so, and the parts are put together so that an error ends the
whole. So the descent comes to what the compilation delivers to the sink (`Descent.compileTo?_eq`).
-/

namespace JackToVm

namespace Engine

/-- All that an engine has done would have gone into another sink as well, and has filled it so. -/
structure Beside (d : Delivery) (e : Engine) (sink : Vm.Sink) : Prop where
  unlimited : e.sink.limit? = none
  taken : e.trace.toList.foldl Delivery.step d = { sink, labels := e.state.labels, heard := e.trace }

/-- The sink of the other engine has refused a line of what the first one has done, and the other engine has stopped
there. -/
def Refused (d : Delivery) (e other : Engine) : Prop :=
  e.trace.toList.foldl Delivery.step d =
    { sink := other.sink, labels := other.state.labels, heard := other.trace, refused := true }

theorem Beside.foldl_push {d : Delivery} {e : Engine} {sink : Vm.Sink} (h : e.Beside d sink) (event : Event) :
    (e.trace.push event).toList.foldl Delivery.step d =
      Delivery.step { sink, labels := e.state.labels, heard := e.trace } event := by
  rw [Array.toList_push, List.foldl_append, h.taken, List.foldl_cons, List.foldl_nil]

/-- What is done behind a line that was refused does not reach the sink. -/
theorem Refused.of_prefix {d : Delivery} {e e' other : Engine} (h : e.Refused d other)
    (hp : e.trace.toList <+: e'.trace.toList) : e'.Refused d other := by
  obtain ⟨more, hmore⟩ := hp
  rw [Refused, ← hmore, List.foldl_append, h]
  exact Delivery.foldl_step_of_refused rfl more

end Engine

namespace Descent
variable {α β : Type} {d : Delivery}

/-! ### Two runs of one part -/

/-- A part of a descent only adds to what was done. With another sink it ends alike, or it ends with a line that the
sink refuses. -/
structure Cuts (d : Delivery) (x : Descent α) : Prop where
  grows : ∀ {path e outcome e₁}, x path e = some (outcome, e₁) → e.trace.toList <+: e₁.trace.toList
  cut : ∀ {path e sink outcome e₁}, e.Beside d sink → x path e = some (outcome, e₁) →
    (∃ sink₁, x path { e with sink } = some (outcome, { e₁ with sink := sink₁ }) ∧ e₁.Beside d sink₁) ∨
      ∃ other, x path { e with sink } = some (.error .sinkFull, other) ∧ e₁.Refused d other

theorem bind_cases {x : Descent α} {f : α → Descent β} {path : List Call} {e e₂ : Engine}
    {outcome : Except CompileError β} (h : (x >>= f) path e = some (outcome, e₂)) :
    (∃ err, x path e = some (.error err, e₂) ∧ outcome = .error err) ∨
      ∃ a e₁, x path e = some (.ok a, e₁) ∧ f a path e₁ = some (outcome, e₂) := by
  simp only [bind] at h
  split at h
  · exact Or.inr ⟨_, _, ‹_›, h⟩
  · cases h
    exact Or.inl ⟨_, ‹_›, rfl⟩
  · cases h

theorem bind_of_ok {x : Descent α} {f : α → Descent β} {path : List Call} {e e₁ : Engine} {a : α}
    (h : x path e = some (.ok a, e₁)) : (x >>= f) path e = f a path e₁ := by
  simp only [bind, h]

theorem bind_of_error {x : Descent α} {f : α → Descent β} {path : List Call} {e e₁ : Engine} {err : CompileError}
    (h : x path e = some (.error err, e₁)) : (x >>= f) path e = some (.error err, e₁) := by
  simp only [bind, h]

theorem cuts_bind {x : Descent α} {f : α → Descent β} (hx : Cuts d x) (hf : ∀ a, Cuts d (f a)) : Cuts d (x >>= f) where
  grows hrun := by
    rcases bind_cases hrun with ⟨err, hfirst, -⟩ | ⟨a, e₁, hfirst, hrest⟩
    · exact hx.grows hfirst
    · exact (hx.grows hfirst).trans ((hf a).grows hrest)
  cut h hrun := by
    rcases bind_cases hrun with ⟨err, hfirst, rfl⟩ | ⟨a, e₁, hfirst, hrest⟩
    · rcases hx.cut h hfirst with ⟨sink₁, hother, h₁⟩ | ⟨other, hother, h₁⟩
      · exact Or.inl ⟨sink₁, bind_of_error hother, h₁⟩
      · exact Or.inr ⟨other, bind_of_error hother, h₁⟩
    · rcases hx.cut h hfirst with ⟨sink₁, hother, h₁⟩ | ⟨other, hother, h₁⟩
      · rw [bind_of_ok hother]
        exact (hf a).cut h₁ hrest
      · -- The refused line ends both parts, and what the second part does on the other side does not matter.
        exact Or.inr ⟨other, bind_of_error hother, h₁.of_prefix ((hf a).grows hrest)⟩

/-- A part that neither writes nor draws a label does the same whatever the sink. -/
theorem cuts_of_silent {x : Descent α} {f : Engine → Except CompileError α × Engine}
    (hx : ∀ path e, x path e = some (f e)) (htrace : ∀ e, (f e).2.trace = e.trace)
    (hlabels : ∀ e, (f e).2.state.labels = e.state.labels) (hsink : ∀ e, (f e).2.sink = e.sink)
    (hsame : ∀ e sink, f { e with sink } = ((f e).1, { (f e).2 with sink })) : Cuts d x where
  grows {path e outcome e₁} hrun := by
    rw [hx, Option.some.injEq] at hrun
    obtain rfl := congrArg Prod.snd hrun
    simp [htrace]
  cut {path e sink outcome e₁} h hrun := by
    rw [hx, Option.some.injEq] at hrun
    obtain rfl := congrArg Prod.fst hrun
    obtain rfl := congrArg Prod.snd hrun
    refine Or.inl ⟨sink, by rw [hx, hsame], ?_, ?_⟩
    · rw [hsink, h.unlimited]
    · rw [htrace, hlabels, h.taken]

theorem cuts_pure (a : α) : Cuts d (pure a) :=
  cuts_of_silent (fun _ _ => rfl) (fun _ => rfl) (fun _ => rfl) (fun _ => rfl) fun _ _ => rfl

theorem cuts_exhausted : Cuts d (exhausted : Descent α) where
  grows hrun := by cases hrun
  cut _ hrun := by cases hrun

theorem cuts_fail (err : CompileError) : Cuts d (fail err : Descent α) :=
  cuts_of_silent (fun _ _ => rfl) (fun _ => rfl) (fun _ => rfl) (fun _ => rfl) fun _ _ => rfl

theorem cuts_call {x : Descent α} (p : Production) (hx : Cuts d x) : Cuts d (call p x) where
  grows {path e outcome e₁} hrun :=
    @hx.grows ({ production := p, advances := e.advances } :: path)
      { e with calls := ({ production := p, advances := e.advances } :: path) :: e.calls } outcome e₁ hrun
  cut {path e sink outcome e₁} h hrun :=
    @hx.cut ({ production := p, advances := e.advances } :: path)
      { e with calls := ({ production := p, advances := e.advances } :: path) :: e.calls } sink outcome e₁
      ⟨h.unlimited, h.taken⟩ hrun

theorem cuts_look (view : Showing → α) : Cuts d (look view) :=
  cuts_of_silent (fun _ _ => rfl) (fun _ => rfl) (fun _ => rfl) (fun _ => rfl) fun _ _ => rfl

theorem cuts_ask (view : Showing → Except TokenError α) : Cuts d (ask view) :=
  cuts_of_silent (fun _ _ => rfl) (fun _ => rfl) (fun _ => rfl) (fun _ => rfl) fun _ _ => rfl

theorem cuts_hasMore : Cuts d hasMore :=
  cuts_of_silent (fun _ _ => rfl) (fun _ => rfl) (fun _ => rfl) (fun _ => rfl) fun _ _ => rfl

theorem cuts_advance : Cuts d advance :=
  cuts_of_silent (fun _ _ => rfl) (fun _ => rfl) (fun _ => rfl) (fun _ => rfl) fun _ _ => rfl

theorem cuts_know (view : State → α) : Cuts d (know view) :=
  cuts_of_silent (fun _ _ => rfl) (fun _ => rfl) (fun _ => rfl) (fun _ => rfl) fun _ _ => rfl

theorem cuts_change {f : State → State} (hf : ∀ s, (f s).labels = s.labels) : Cuts d (change f) :=
  cuts_of_silent (fun _ _ => rfl) (fun _ => rfl) (fun e => hf e.state) (fun _ => rfl) fun _ _ => rfl

/-- An event that neither writes nor draws a label is heard of, and that is all. -/
theorem cuts_tell {event : Event} (hw : event.instruction? = none) (hd : event.isDraw = false) :
    Cuts d (tell event) where
  grows hrun := by
    cases hrun
    exact ⟨[event], by rw [Array.toList_push]⟩
  cut hbeside hrun := by
    cases hrun
    refine Or.inl ⟨_, rfl, hbeside.unlimited, ?_⟩
    rw [hbeside.foldl_push]
    cases event with
    | wrote i => cases hw
    | drew number => cases hd
    | enteredClass name => rfl
    | enteredRoutine kind className name => rfl

theorem cuts_drawLabel : Cuts d drawLabel where
  grows hrun := by
    cases hrun
    exact ⟨[_], by rw [Array.toList_push]⟩
  cut hbeside hrun := by
    cases hrun
    exact Or.inl ⟨_, rfl, hbeside.unlimited, hbeside.foldl_push _⟩

/-- A line goes to the other sink, unless it is refused there. -/
theorem cuts_write (i : Vm.Instruction) : Cuts d (write i) where
  grows hrun := by
    cases hrun
    exact ⟨[.wrote i], by rw [Array.toList_push]⟩
  cut {path e sink outcome e₁} hbeside hrun := by
    have hroom : e.sink.hasRoom i.line.utf8ByteSize = true := by
      simp only [Vm.Sink.hasRoom, hbeside.unlimited]
    simp only [write, hroom, if_true] at hrun
    cases hrun
    have hstep := hbeside.foldl_push (.wrote i)
    cases hother : sink.hasRoom i.line.utf8ByteSize with
    | true =>
      refine Or.inl ⟨sink.write i.line, by simp only [write, hother, if_true], ?_, ?_⟩
      · exact (Vm.Sink.limit?_write ..).trans hbeside.unlimited
      · simp only [hstep, Delivery.step, hother, if_true, Bool.false_eq_true, if_false]
    | false =>
      refine Or.inr ⟨{ e with sink := sink.write i.line, trace := e.trace.push (.wrote i) }, ?_, ?_⟩
      · simp only [write, hother, Bool.false_eq_true, if_false]
      · simp only [Engine.Refused, hstep, Delivery.step, hother, Bool.false_eq_true, if_false]

theorem cuts_writeAll (is : List Vm.Instruction) : Cuts d (writeAll is) := by
  induction is with
  | nil => exact cuts_pure ()
  | cons i is ih => exact cuts_bind (cuts_write i) fun _ => ih

/-! ### Tokens -/

theorem cuts_ite {c : Prop} [Decidable c] {x y : Descent α} (hx : Cuts d x) (hy : Cuts d y) :
    Cuts d (if c then x else y) := by
  split
  · exact hx
  · exact hy

theorem cuts_isAt (lexeme : Lexeme) : Cuts d (isAt lexeme) :=
  cuts_look _

theorem cuts_unexpected (expected : Expected) : Cuts d (unexpected expected : Descent α) :=
  cuts_bind (cuts_look _) fun _ => cuts_fail _

theorem cuts_consume (wanted : Lexeme) (expected : Expected) : Cuts d (consume wanted expected) :=
  cuts_bind (cuts_isAt _) fun _ => cuts_ite cuts_advance (cuts_unexpected _)

theorem cuts_consumeSymbol (x : Symbol) : Cuts d (consumeSymbol x) :=
  cuts_consume _ _

theorem cuts_consumeKeyword (word : Keyword) : Cuts d (consumeKeyword word) :=
  cuts_consume _ _

theorem cuts_consumeIdentifier : Cuts d consumeIdentifier :=
  cuts_bind (cuts_ask _) fun _ => cuts_bind cuts_advance fun _ => cuts_pure _

theorem cuts_endOfSource : Cuts d endOfSource :=
  cuts_bind cuts_hasMore fun _ => cuts_ite (cuts_bind cuts_advance fun _ => cuts_unexpected _) (cuts_pure ())

theorem cuts_resolve (name : String) (span : Span) : Cuts d (resolve name span) := by
  refine cuts_bind (cuts_know _) fun v? => ?_
  cases v? with
  | none => exact cuts_fail _
  | some v => exact cuts_pure v

theorem cuts_declare (name type : String) (kind : Kind) : Cuts d (change (·.declare name type kind)) :=
  cuts_change fun _ => by cases kind <;> rfl

/-! ### Declarations -/

theorem cuts_type (n : Nat) : Cuts d (type n) := by
  cases n with
  | zero => exact cuts_exhausted
  | succ n =>
    rw [type]
    refine cuts_call .type (cuts_bind (cuts_ask _) fun t => ?_)
    split
    · exact cuts_bind cuts_advance fun _ => cuts_pure _
    · exact cuts_unexpected _

theorem cuts_variableNames (kind : Kind) (type : String) (n : Nat) : Cuts d (variableNames kind type n) := by
  induction n with
  | zero => exact cuts_exhausted
  | succ n ih =>
    rw [variableNames]
    refine cuts_call .variableNames (cuts_bind cuts_consumeIdentifier fun name => ?_)
    refine cuts_bind (cuts_declare name type kind) fun _ => cuts_bind (cuts_isAt _) fun _ => ?_
    exact cuts_ite (cuts_bind cuts_advance fun _ => ih) (cuts_pure ())

theorem cuts_declaration (kind : Kind) (n : Nat) : Cuts d (declaration kind n) := by
  cases n with
  | zero => exact cuts_exhausted
  | succ n =>
    rw [declaration]
    refine cuts_call .declaration (cuts_bind (cuts_type n) fun type => ?_)
    exact cuts_bind (cuts_variableNames kind type n) fun _ => cuts_consumeSymbol _

theorem cuts_classVariables (kind : Kind) (n : Nat) : Cuts d (classVariables kind n) := by
  cases n with
  | zero => exact cuts_exhausted
  | succ n =>
    rw [classVariables]
    exact cuts_call .classVariables (cuts_bind cuts_advance fun _ => cuts_declaration kind n)

theorem cuts_localVariables (n : Nat) : Cuts d (localVariables n) := by
  cases n with
  | zero => exact cuts_exhausted
  | succ n =>
    rw [localVariables]
    exact cuts_call .localVariables (cuts_bind (cuts_consumeKeyword _) fun _ => cuts_declaration .local_ n)

theorem cuts_parameters (n : Nat) : Cuts d (parameters n) := by
  induction n with
  | zero => exact cuts_exhausted
  | succ n ih =>
    rw [parameters]
    refine cuts_call .parameters (cuts_bind (cuts_type n) fun type => cuts_bind cuts_consumeIdentifier fun name => ?_)
    refine cuts_bind (cuts_declare name type .argument) fun _ => cuts_bind (cuts_isAt _) fun _ => ?_
    exact cuts_ite (cuts_bind cuts_advance fun _ => ih) (cuts_pure ())

theorem cuts_parameterList (n : Nat) : Cuts d (parameterList n) := by
  cases n with
  | zero => exact cuts_exhausted
  | succ n =>
    rw [parameterList]
    refine cuts_call .parameterList (cuts_bind (cuts_isAt _) fun _ => ?_)
    exact cuts_ite (cuts_pure ()) (cuts_parameters n)

theorem cuts_locals (n : Nat) : Cuts d (locals n) := by
  induction n with
  | zero => exact cuts_exhausted
  | succ n ih =>
    rw [locals]
    refine cuts_call .locals (cuts_bind (cuts_isAt _) fun _ => ?_)
    exact cuts_ite (cuts_bind (cuts_localVariables n) fun _ => ih) (cuts_pure ())

/-! ### Expressions -/

theorem cuts_element (array : Variable) {index : Descent Unit} (h : Cuts d index) : Cuts d (element array index) := by
  refine cuts_bind cuts_advance fun _ => cuts_bind (cuts_write _) fun _ => cuts_bind h fun _ => ?_
  exact cuts_bind (cuts_consumeSymbol _) fun _ => cuts_write _

theorem cuts_memberCall (owner : String) {arguments : Descent UInt16} (h : Cuts d arguments) :
    Cuts d (memberCall owner arguments) := by
  refine cuts_bind cuts_advance fun _ => cuts_bind cuts_consumeIdentifier fun _ => cuts_bind (cuts_know _) fun v? => ?_
  cases v? with
  | none => exact cuts_bind h fun _ => cuts_write _
  | some v => exact cuts_bind (cuts_write _) fun _ => cuts_bind h fun _ => cuts_write _

theorem cuts_methodCall (name : String) {arguments : Descent UInt16} (h : Cuts d arguments) :
    Cuts d (methodCall name arguments) :=
  cuts_bind (cuts_know _) fun _ => cuts_bind (cuts_write _) fun _ => cuts_bind h fun _ => cuts_write _

theorem cuts_string (text : String) (n : Nat) : Cuts d (string text n) := by
  cases n with
  | zero => exact cuts_exhausted
  | succ n =>
    rw [string]
    exact cuts_call .string (cuts_writeAll _)

/-- The routines of an expression, under a bound on the calls inside. -/
structure ExpressionsCut (d : Delivery) (n : Nat) : Prop where
  expression : Cuts d (expression n)
  operations : Cuts d (operations n)
  term : Cuts d (term n)
  nameTerm : Cuts d (nameTerm n)
  expressionList : Cuts d (expressionList n)
  expressions (count : UInt16) : Cuts d (expressions count n)

namespace ExpressionsCut
variable {n : Nat}

theorem expression_succ (ih : ExpressionsCut d n) : Cuts d (Descent.expression (n + 1)) := by
  rw [Descent.expression]
  exact cuts_call .expression (cuts_bind ih.term fun _ => ih.operations)

theorem operations_succ (ih : ExpressionsCut d n) : Cuts d (Descent.operations (n + 1)) := by
  rw [Descent.operations]
  refine cuts_call .operations (cuts_bind (cuts_ask _) fun x => ?_)
  split
  · exact cuts_bind cuts_advance fun _ => cuts_bind ih.term fun _ => cuts_bind (cuts_write _) fun _ => ih.operations
  · exact cuts_pure ()

theorem term_succ (ih : ExpressionsCut d n) : Cuts d (Descent.term (n + 1)) := by
  rw [Descent.term]
  refine cuts_call .term (cuts_bind (cuts_ask _) fun t => ?_)
  have hone (i : Vm.Instruction) : Cuts d (write i >>= fun _ => advance) :=
    cuts_bind (cuts_write i) fun _ => cuts_advance
  split
  · exact hone _
  · exact cuts_bind (cuts_string _ n) fun _ => cuts_advance
  · exact cuts_bind (cuts_write _) fun _ => hone _
  · exact hone _
  · exact hone _
  · exact hone _
  · exact cuts_unexpected _
  · exact ih.nameTerm
  · exact cuts_bind cuts_advance fun _ => cuts_bind ih.expression fun _ => cuts_consumeSymbol _
  · split
    · exact cuts_bind cuts_advance fun _ => cuts_bind ih.term fun _ => cuts_write _
    · exact cuts_unexpected _

theorem nameTerm_succ (ih : ExpressionsCut d n) : Cuts d (Descent.nameTerm (n + 1)) := by
  rw [Descent.nameTerm]
  refine cuts_call .nameTerm (cuts_bind (cuts_look _) fun span => cuts_bind cuts_consumeIdentifier fun name => ?_)
  refine cuts_bind (cuts_isAt _) fun _ => cuts_ite (cuts_memberCall name ih.expressionList) ?_
  refine cuts_bind (cuts_isAt _) fun _ => cuts_ite ?_ (cuts_bind (cuts_isAt _) fun _ => cuts_ite ?_ ?_)
  · refine cuts_bind (cuts_resolve name span) fun array => cuts_bind (cuts_element array ih.expression) fun _ => ?_
    exact cuts_bind (cuts_write _) fun _ => cuts_write _
  · exact cuts_methodCall name ih.expressionList
  · exact cuts_bind (cuts_resolve name span) fun _ => cuts_write _

theorem expressionList_succ (ih : ExpressionsCut d n) : Cuts d (Descent.expressionList (n + 1)) := by
  rw [Descent.expressionList]
  refine cuts_call .expressionList (cuts_bind (cuts_consumeSymbol _) fun _ => cuts_bind (cuts_isAt _) fun _ => ?_)
  have hend (count : UInt16) : Cuts d (consumeSymbol .rightParen >>= fun _ => pure count) :=
    cuts_bind (cuts_consumeSymbol _) fun _ => cuts_pure count
  exact cuts_ite (cuts_bind (cuts_pure 0) hend) (cuts_bind (ih.expressions 0) hend)

theorem expressions_succ (ih : ExpressionsCut d n) (count : UInt16) : Cuts d (Descent.expressions count (n + 1)) := by
  rw [Descent.expressions]
  refine cuts_call .expressions (cuts_bind ih.expression fun _ => cuts_bind (cuts_isAt _) fun _ => ?_)
  exact cuts_ite (cuts_bind cuts_advance fun _ => ih.expressions (count + 1)) (cuts_pure (count + 1))

end ExpressionsCut

theorem expressionsCut (n : Nat) : ExpressionsCut d n := by
  induction n with
  | zero =>
    exact ⟨cuts_exhausted, cuts_exhausted, cuts_exhausted, cuts_exhausted, cuts_exhausted, fun _ => cuts_exhausted⟩
  | succ n ih =>
    exact ⟨ih.expression_succ, ih.operations_succ, ih.term_succ, ih.nameTerm_succ, ih.expressionList_succ,
      ih.expressions_succ⟩

/-! ### Statements -/

theorem cuts_condition (n : Nat) : Cuts d (condition n) := by
  cases n with
  | zero => exact cuts_exhausted
  | succ n =>
    rw [condition]
    refine cuts_call .condition (cuts_bind (cuts_consumeSymbol _) fun _ => ?_)
    exact cuts_bind (expressionsCut n).expression fun _ => cuts_bind (cuts_consumeSymbol _) fun _ => cuts_write _

theorem cuts_letStatement (n : Nat) : Cuts d (letStatement n) := by
  cases n with
  | zero => exact cuts_exhausted
  | succ n =>
    rw [letStatement]
    refine cuts_call .letStatement (cuts_bind (cuts_consumeKeyword _) fun _ => cuts_bind (cuts_look _) fun span => ?_)
    refine cuts_bind cuts_consumeIdentifier fun name => cuts_bind (cuts_resolve name span) fun target => ?_
    refine cuts_bind (cuts_isAt _) fun _ => cuts_ite ?_ ?_
    · refine cuts_bind (cuts_element target (expressionsCut n).expression) fun _ => ?_
      refine cuts_bind (cuts_consumeSymbol _) fun _ => cuts_bind (expressionsCut n).expression fun _ => ?_
      refine cuts_bind (cuts_write _) fun _ => cuts_bind (cuts_write _) fun _ => cuts_bind (cuts_write _) fun _ => ?_
      exact cuts_bind (cuts_write _) fun _ => cuts_consumeSymbol _
    · refine cuts_bind (cuts_consumeSymbol _) fun _ => cuts_bind (expressionsCut n).expression fun _ => ?_
      exact cuts_bind (cuts_write _) fun _ => cuts_consumeSymbol _

theorem cuts_doStatement (n : Nat) : Cuts d (doStatement n) := by
  cases n with
  | zero => exact cuts_exhausted
  | succ n =>
    rw [doStatement]
    refine cuts_call .doStatement (cuts_bind (cuts_consumeKeyword _) fun _ => ?_)
    exact cuts_bind (expressionsCut n).term fun _ => cuts_bind (cuts_consumeSymbol _) fun _ => cuts_write _

theorem cuts_returnStatement (n : Nat) : Cuts d (returnStatement n) := by
  cases n with
  | zero => exact cuts_exhausted
  | succ n =>
    have hend : Cuts d (write .return_ >>= fun _ => consumeSymbol .semicolon) :=
      cuts_bind (cuts_write _) fun _ => cuts_consumeSymbol _
    rw [returnStatement]
    refine cuts_call .returnStatement (cuts_bind (cuts_consumeKeyword _) fun _ => cuts_bind (cuts_isAt _) fun _ => ?_)
    exact cuts_ite (cuts_bind (cuts_write _) fun _ => hend) (cuts_bind (expressionsCut n).expression fun _ => hend)

/-- The routines of statements, under a bound on the calls inside. -/
structure StatementsCut (d : Delivery) (n : Nat) : Prop where
  statements (returned : Bool) : Cuts d (statements returned n)
  block : Cuts d (block n)
  ifStatement : Cuts d (ifStatement n)
  whileStatement : Cuts d (whileStatement n)

namespace StatementsCut
variable {n : Nat}

theorem statements_succ (ih : StatementsCut d n) (returned : Bool) : Cuts d (Descent.statements returned (n + 1)) := by
  rw [Descent.statements]
  refine cuts_call .statements (cuts_bind (cuts_isAt _) fun _ => cuts_ite (cuts_pure returned) ?_)
  refine cuts_bind (cuts_look _) fun word? => ?_
  split
  · exact cuts_bind (cuts_letStatement n) fun _ => ih.statements _
  · exact cuts_bind ih.ifStatement fun _ => ih.statements _
  · exact cuts_bind ih.whileStatement fun _ => ih.statements _
  · exact cuts_bind (cuts_doStatement n) fun _ => ih.statements _
  · exact cuts_bind (cuts_returnStatement n) fun _ => ih.statements _
  · exact cuts_bind (cuts_unexpected _) fun _ => ih.statements _

theorem block_succ (ih : StatementsCut d n) : Cuts d (Descent.block (n + 1)) := by
  rw [Descent.block]
  refine cuts_call .block (cuts_bind (cuts_consumeSymbol _) fun _ => ?_)
  exact cuts_bind (ih.statements false) fun _ => cuts_consumeSymbol _

theorem ifStatement_succ (ih : StatementsCut d n) : Cuts d (Descent.ifStatement (n + 1)) := by
  rw [Descent.ifStatement]
  refine cuts_call .ifStatement (cuts_bind cuts_drawLabel fun _ => cuts_bind cuts_drawLabel fun _ => ?_)
  refine cuts_bind (cuts_consumeKeyword _) fun _ => cuts_bind (cuts_condition n) fun _ => ?_
  refine cuts_bind (cuts_write _) fun _ => cuts_bind ih.block fun _ => ?_
  refine cuts_bind (cuts_write _) fun _ => cuts_bind (cuts_write _) fun _ => cuts_bind (cuts_isAt _) fun _ => ?_
  exact cuts_ite (cuts_bind cuts_advance fun _ => cuts_bind ih.block fun _ => cuts_write _)
    (cuts_bind (cuts_pure ()) fun _ => cuts_write _)

theorem whileStatement_succ (ih : StatementsCut d n) : Cuts d (Descent.whileStatement (n + 1)) := by
  rw [Descent.whileStatement]
  refine cuts_call .whileStatement (cuts_bind cuts_drawLabel fun _ => cuts_bind cuts_drawLabel fun _ => ?_)
  refine cuts_bind (cuts_write _) fun _ => cuts_bind (cuts_consumeKeyword _) fun _ => ?_
  refine cuts_bind (cuts_condition n) fun _ => cuts_bind (cuts_write _) fun _ => cuts_bind ih.block fun _ => ?_
  exact cuts_bind (cuts_write _) fun _ => cuts_write _

end StatementsCut

theorem statementsCut (n : Nat) : StatementsCut d n := by
  induction n with
  | zero => exact ⟨fun _ => cuts_exhausted, cuts_exhausted, cuts_exhausted, cuts_exhausted⟩
  | succ n ih => exact ⟨ih.statements_succ, ih.block_succ, ih.ifStatement_succ, ih.whileStatement_succ⟩

/-! ### Classes -/

theorem cuts_body (kind : RoutineKind) (name : String) (void : Bool) (n : Nat) : Cuts d (body kind name void n) := by
  cases n with
  | zero => exact cuts_exhausted
  | succ n =>
    rw [body]
    refine cuts_call .body (cuts_bind (cuts_consumeSymbol _) fun _ => cuts_bind (cuts_locals n) fun _ => ?_)
    refine cuts_bind (cuts_know _) fun _ => cuts_bind (cuts_writeAll _) fun _ => ?_
    refine cuts_bind ((statementsCut n).statements false) fun _ => cuts_ite ?_ ?_
    · exact cuts_bind (cuts_write _) fun _ => cuts_bind (cuts_write _) fun _ => cuts_consumeSymbol _
    · exact cuts_consumeSymbol _

theorem cuts_namedRoutine (kind : RoutineKind) (void : Bool) (n : Nat) : Cuts d (namedRoutine kind void n) := by
  refine cuts_bind cuts_consumeIdentifier fun name => cuts_bind (cuts_know _) fun className => ?_
  refine cuts_bind (cuts_tell rfl rfl) fun _ => cuts_bind (cuts_change fun _ => by cases kind <;> rfl) fun _ => ?_
  refine cuts_bind (cuts_consumeSymbol _) fun _ => cuts_bind (cuts_parameterList n) fun _ => ?_
  exact cuts_bind (cuts_consumeSymbol _) fun _ => cuts_body kind name void n

theorem cuts_routine (kind : RoutineKind) (n : Nat) : Cuts d (routine kind n) := by
  cases n with
  | zero => exact cuts_exhausted
  | succ n =>
    rw [routine]
    refine cuts_call .routine (cuts_bind (cuts_change fun _ => rfl) fun _ => cuts_bind cuts_advance fun _ => ?_)
    refine cuts_bind (cuts_isAt _) fun _ => cuts_ite ?_ ?_
    · exact cuts_bind cuts_advance fun _ => cuts_namedRoutine kind true n
    · exact cuts_bind (cuts_type n) fun _ => cuts_namedRoutine kind false n

theorem cuts_members (n : Nat) : Cuts d (members n) := by
  induction n with
  | zero => exact cuts_exhausted
  | succ n ih =>
    rw [members]
    refine cuts_call .members (cuts_bind (cuts_isAt _) fun _ => cuts_ite (cuts_pure ()) ?_)
    refine cuts_bind (cuts_ask _) fun word => ?_
    split
    · exact cuts_bind (cuts_classVariables .static n) fun _ => ih
    · exact cuts_bind (cuts_classVariables .field n) fun _ => ih
    · exact cuts_bind (cuts_routine .constructor_ n) fun _ => ih
    · exact cuts_bind (cuts_routine .function n) fun _ => ih
    · exact cuts_bind (cuts_routine .method n) fun _ => ih
    · exact cuts_bind (cuts_unexpected _) fun _ => ih

theorem cuts_class (n : Nat) : Cuts d (class_ n) := by
  cases n with
  | zero => exact cuts_exhausted
  | succ n =>
    rw [class_]
    refine cuts_call .class_ (cuts_bind cuts_advance fun _ => cuts_bind (cuts_consumeKeyword _) fun _ => ?_)
    refine cuts_bind cuts_consumeIdentifier fun name => cuts_bind (cuts_change fun _ => rfl) fun _ => ?_
    refine cuts_bind (cuts_tell rfl rfl) fun _ => ?_
    exact cuts_bind (cuts_consumeSymbol _) fun _ => cuts_bind (cuts_members n) fun _ => cuts_endOfSource

/-! ### Whole sources -/

/-- Compiles a class by a descent into a sink. There is no outcome when the calls nest deeper than the bound. -/
def compileTo? (bound : Nat) (source : String) (limit? : Option Nat) (labels : Vm.Labels) : Option Outcome :=
  (class_ bound [] (.ofSource source labels.next limit?)).map fun (result, e) =>
    { output := e.sink.bytes, result, labels := e.state.labels }

/-- A descent into a sink comes to what the compilation delivers to the sink. -/
theorem compileTo?_eq {source : String} {bound : Nat} (h : 4 * ((Item.ofSource source).length + 1) ≤ bound)
    (limit? : Option Nat) (labels : Vm.Labels) :
    compileTo? bound source limit? labels = some (compileTo source limit? labels) := by
  obtain ⟨outcome, e, hrun, hstops⟩ := exists_stops source labels.next h
  have hstart : (Engine.ofSource source labels.next).Beside { sink := { limit? }, labels } { limit? } := ⟨rfl, rfl⟩
  have hdeliver : (compile source labels.next).deliver limit? labels =
      e.trace.toList.foldl Delivery.step { sink := { limit? }, labels } := by
    rw [Compilation.deliver, hstops.compilation]
  rw [compileTo?, compileTo, hdeliver, Compilation.resultAfter, hstops.compilation]
  rcases (cuts_class bound).cut hstart hrun with ⟨sink, hother, hend⟩ | ⟨other, hother, hend⟩
  · rw [hend.taken]
    exact congrArg (Option.map _) hother
  · rw [hend]
    exact congrArg (Option.map _) hother

end Descent

/-- A sink that is too small: a descent into it has an outcome, which is that of the compilation into the sink. Where
the whole output has room, a limit changes nothing. Elsewhere the output fails, which has no place in the source,
whatever the result would be without the limit. The sink has as many of the first bytes of the whole output as it takes,
and no more label numbers are drawn than without the limit. -/
theorem descent_into_sink (source : String) (labels : Vm.Labels) (limit bound : Nat)
    (h : 4 * ((Item.ofSource source).length + 1) ≤ bound) :
    ∃ whole cut : Outcome,
      Descent.compileTo? bound source none labels = some whole ∧ compileTo source none labels = whole ∧
      Descent.compileTo? bound source (some limit) labels = some cut ∧ compileTo source (some limit) labels = cut ∧
      (whole.output.size ≤ limit → cut = whole) ∧
      (limit < whole.output.size →
        cut.result = .error .sinkFull ∧ CompileError.sinkFull.span? = none ∧
        cut.output = whole.output.extract 0 limit ∧
        labels.next ≤ cut.labels.next ∧ cut.labels.next ≤ whole.labels.next) := by
  refine ⟨_, _, Descent.compileTo?_eq h none labels, rfl, Descent.compileTo?_eq h (some limit) labels, rfl,
    compileTo_of_fits, fun hfull => ?_⟩
  obtain ⟨hresult, hbytes, hlabels⟩ := compileTo_of_full hfull
  exact ⟨hresult, rfl, hbytes, hlabels⟩

/-- A class with an error behind its first branch. -/
def brokenSource : String :=
  "class A { function void f() { if (1) { let y = 1; } } }"

/-- The output has 52 bytes, and with one byte less of room it is the output that fails: the second of two labels has
been drawn, and the error in the source is never found. -/
theorem descent_into_sink_broken :
    4 * ((Item.ofSource brokenSource).length + 1) ≤ 100 ∧
    ∃ whole cut : Outcome, Descent.compileTo? 100 brokenSource none {} = some whole ∧
      Descent.compileTo? 100 brokenSource (some 51) {} = some cut ∧
      whole.output.size = 52 ∧ whole.result.isOk = false ∧ whole.labels.next = 2 ∧
      cut.result = .error .sinkFull ∧ cut.output = whole.output.extract 0 51 ∧ cut.labels.next ≤ 2 := by
  have hrun : (Item.ofSource brokenSource).length = 22 ∧ (compileTo brokenSource none {}).output.size = 52 ∧
      (compileTo brokenSource none {}).result.isOk = false ∧ (compileTo brokenSource none {}).labels.next = 2 := by
    decide +kernel
  obtain ⟨hitems, hsize, hfails, hnext⟩ := hrun
  have hbound : 4 * ((Item.ofSource brokenSource).length + 1) ≤ 100 := by omega
  obtain ⟨whole, cut, hwhole, rfl, hcut, rfl, -, hfull⟩ := descent_into_sink brokenSource {} 51 100 hbound
  obtain ⟨hresult, -, hbytes, -, hlabels⟩ := hfull (by omega)
  exact ⟨hbound, _, _, hwhole, hcut, hsize, hfails, hnext, hresult, hbytes, hnext ▸ hlabels⟩

end JackToVm
