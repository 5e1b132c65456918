import JackToVm.Proofs.Distinct
import JackToVm.Proofs.Refinement
import JackToVm.Proofs.Semantics

/-!
The code of a subroutine does what its statements mean. A machine shows a store when it holds the words of
the store in its slots; `temp` and `that` are scratch and not looked at. Straight code turns one shown store
into another whatever follows it. Code with jumps does so in its place in the code of the subroutine, where
no label stands twice.
-/

namespace JackToVm.Syntax
open Vm (Word Machine Instruction Steps labelsOf)
open Vm.Labels (ifName whileName)

/-! ### Stores in a machine -/

/-- The slots of a kind hold the values of the names that are variables of this kind. -/
def Frame.Holds (f : Frame) (kind : Kind) (slots : Nat → Word) (values : String → Word) : Prop :=
  ∀ x v, f.environment.lookup? x = some v → v.kind = kind → slots v.index = values x

/-- The machine has this stack, and this store in its slots. -/
structure Frame.Shows (f : Frame) (stack : List Word) (σ : Store) (m : Machine) : Prop where
  stack : m.stack = stack
  memory : m.memory = σ.memory
  this : m.this = f.this
  arguments : f.Holds .argument m.arguments σ.values
  locals : f.Holds .local_ m.locals σ.values

namespace Frame
variable {f : Frame} {code a b : List Instruction} {stack stack₁ stack₂ : List Word} {σ σ₁ σ₂ : Store}
  {m : Machine} {w : Word}

section
variable {kind : Kind} {slots : Nat → Word} {values : String → Word} {x : String} {v : Variable}

/-- No other variable is in the slot of the one that is assigned. -/
theorem Holds.update (h : f.Holds kind slots values) (hs : f.environment.Slotted)
    (hv : f.environment.lookup? x = some v) (hk : v.kind = kind) :
    f.Holds kind (Function.update slots v.index w) (Function.update values x w) := by
  intro y u hu hku
  by_cases hyx : y = x
  · subst hyx
    obtain rfl : u = v := Option.some.inj (hu.symm.trans hv)
    simp
  · have hi : u.index ≠ v.index := fun hi => hyx (hs.name_eq hu hv (hku.trans hk.symm) hi)
    rw [Function.update_of_ne hi, Function.update_of_ne hyx]
    exact h y u hu hku

theorem Holds.update_other (h : f.Holds kind slots values) (hv : f.environment.lookup? x = some v)
    (hk : v.kind ≠ kind) : f.Holds kind slots (Function.update values x w) := by
  intro y u hu hku
  have hyx : y ≠ x := by
    rintro rfl
    obtain rfl : u = v := Option.some.inj (hu.symm.trans hv)
    exact hk hku
  rw [Function.update_of_ne hyx]
  exact h y u hu hku

end

/-- The store that a machine holds. A name that is no variable has a value that nothing reads. -/
def storeOf (f : Frame) (m : Machine) : Store :=
  { values := fun x => ((f.environment.lookup? x).bind fun v => m.load? (.ofKind v.kind) v.index).getD 0
    memory := m.memory }

theorem shows_storeOf (h : m.this = f.this) : f.Shows m.stack (f.storeOf m) m := by
  refine ⟨rfl, rfl, h, ?_, ?_⟩ <;> intro x v hv hk <;> simp [storeOf, hv, hk, Vm.Segment.ofKind, Machine.load?]

namespace Shows

/-- Scratch is not looked at. -/
theorem scratch (h : f.Shows stack σ m) (temps : Nat → Word) (that : Word) :
    f.Shows stack σ { m with temps, that } :=
  ⟨h.stack, h.memory, h.this, h.arguments, h.locals⟩

theorem withStack (h : f.Shows stack σ m) (stack' : List Word) :
    f.Shows stack' σ { m with stack := stack' } :=
  ⟨rfl, h.memory, h.this, h.arguments, h.locals⟩

theorem withMemory (h : f.Shows stack σ m) (memory : Vm.Memory) :
    f.Shows stack { σ with memory } { m with memory } :=
  ⟨h.stack, rfl, h.this, h.arguments, h.locals⟩

theorem load? (h : f.Shows stack σ m) {x : String} {v : Variable}
    (hv : f.environment.lookup? x = some v) : m.load? (.ofKind v.kind) v.index = f.value? σ x := by
  rw [value?, hv, Option.map_some]
  cases hk : v.kind with
  | static => rw [← h.memory]; rfl
  | field => rw [← h.memory, ← h.this]; rfl
  | argument => exact congrArg some (h.arguments _ _ hv hk)
  | local_ => exact congrArg some (h.locals _ _ hv hk)

theorem store? (h : f.Shows stack σ m) (hs : f.environment.Slotted) {x : String} {v : Variable}
    (hv : f.environment.lookup? x = some v) (hx : f.assign? σ x w = some σ₁) :
    ∃ m', m.store? w (.ofKind v.kind) v.index = some m' ∧ f.Shows stack σ₁ m' := by
  rw [assign?, hv, Option.map_some, Option.some.injEq] at hx
  subst hx
  -- A class variable is in the memory, which a store has as it is; the others have slots and names.
  cases hk : v.kind with
  | static =>
    refine ⟨_, rfl, ?_⟩
    rw [h.memory]
    exact h.withMemory _
  | field =>
    refine ⟨_, rfl, ?_⟩
    rw [h.memory, h.this, ← h.this]
    exact h.withMemory _
  | argument =>
    have hk' : v.kind ≠ .local_ := by simp [hk]
    exact ⟨_, rfl, h.stack, h.memory, h.this, h.arguments.update hs hv hk, h.locals.update_other hv hk'⟩
  | local_ =>
    have hk' : v.kind ≠ .argument := by simp [hk]
    exact ⟨_, rfl, h.stack, h.memory, h.this, h.arguments.update_other hv hk', h.locals.update hs hv hk⟩

end Shows

/-! ### Straight code -/

/-- Whatever follows the instructions, they lead from a machine that shows one store to one that shows
another. -/
def Turns (f : Frame) (code instructions : List Instruction) (stack : List Word) (σ : Store)
    (stack' : List Word) (σ' : Store) : Prop :=
  ∀ m rest, f.Shows stack σ m →
    ∃ m', Steps f.library code ⟨instructions ++ rest, m⟩ ⟨rest, m'⟩ ∧ f.Shows stack' σ' m'

theorem Turns.nil : f.Turns code [] stack σ stack σ :=
  fun m _ hm => ⟨m, .refl _, hm⟩

theorem Turns.append (ha : f.Turns code a stack σ stack₁ σ₁) (hb : f.Turns code b stack₁ σ₁ stack₂ σ₂) :
    f.Turns code (a ++ b) stack σ stack₂ σ₂ := by
  intro m rest hm
  obtain ⟨m₁, h₁, hm₁⟩ := ha m (b ++ rest) hm
  obtain ⟨m₂, h₂, hm₂⟩ := hb m₁ rest hm₁
  rw [List.append_assoc]
  exact ⟨m₂, h₁.trans h₂, hm₂⟩

theorem Turns.cons {i : Instruction} (hi : f.Turns code [i] stack σ stack₁ σ₁)
    (hb : f.Turns code b stack₁ σ₁ stack₂ σ₂) : f.Turns code (i :: b) stack σ stack₂ σ₂ :=
  hi.append hb

theorem Turns.one {i : Instruction}
    (h : ∀ m rest, f.Shows stack σ m →
      ∃ m', Vm.step f.library code ⟨i :: rest, m⟩ = some ⟨rest, m'⟩ ∧ f.Shows stack₁ σ₁ m') :
    f.Turns code [i] stack σ stack₁ σ₁ := by
  intro m rest hm
  obtain ⟨m', hstep, hm'⟩ := h m rest hm
  exact ⟨m', .one hstep, hm'⟩

theorem turns_push {segment : Vm.Segment} {i : Nat}
    (h : ∀ m, f.Shows stack σ m → m.load? segment i = some w) :
    f.Turns code [.push segment i] stack σ (w :: stack) σ := by
  refine Turns.one fun m rest hm => ⟨{ m with stack := w :: stack }, ?_, hm.withStack _⟩
  simp [Vm.step, h m hm, hm.stack]

theorem turns_constant (n : Nat) : f.Turns code [.pushConstant n] stack σ (.ofNat 16 n :: stack) σ :=
  turns_push fun _ _ => rfl

theorem turns_this : f.Turns code [.push .pointer 0] stack σ (f.this :: stack) σ :=
  turns_push fun _ hm => congrArg some hm.this

theorem turns_variable {x : String} {v : Variable} (hv : f.environment.lookup? x = some v)
    (hx : f.value? σ x = some w) : f.Turns code [.pushVariable v] stack σ (w :: stack) σ :=
  turns_push fun _ hm => (hm.load? hv).trans hx

theorem turns_read {x : String} (h : f.value? σ x = some w) :
    f.Turns code (f.environment.read x) stack σ (w :: stack) σ := by
  obtain ⟨v, hv, -⟩ := Option.map_eq_some_iff.mp h
  rw [Environment.read_of_lookup? hv]
  exact turns_variable hv h

theorem turns_write (hs : f.environment.Slotted) {x : String} (h : f.assign? σ x w = some σ₁) :
    f.Turns code (f.environment.write x) (w :: stack) σ stack σ₁ := by
  obtain ⟨v, hv, -⟩ := Option.map_eq_some_iff.mp h
  rw [Environment.write_of_lookup? hv]
  refine Turns.one fun m rest hm => ?_
  obtain ⟨m', hm', hshow⟩ := (hm.withStack stack).store? hs hv h
  exact ⟨m', by simp [Vm.step, Instruction.popVariable, hm.stack, hm'], hshow⟩

theorem turns_compute {command : Vm.Command} (h : command.run? stack = some stack₁) :
    f.Turns code [.compute command] stack σ stack₁ σ := by
  refine Turns.one fun m rest hm => ⟨{ m with stack := stack₁ }, ?_, hm.withStack _⟩
  simp [Vm.step, hm.stack, h]

theorem turns_call (name : String) (arguments : List Word) :
    f.Turns code [.call name arguments.length] (arguments.reverse ++ stack) σ
      ((f.call name arguments σ).1 :: stack) (f.call name arguments σ).2 := by
  refine Turns.one fun m rest hm => ⟨m.called f.library name arguments stack, ?_, ?_⟩
  · have hlength : arguments.length ≤ m.stack.length := by simp [hm.stack]
    have htake : (m.stack.take arguments.length).reverse = arguments := by simp [hm.stack]
    have hdrop : m.stack.drop arguments.length = stack := by simp [hm.stack]
    simp only [Vm.step, if_pos hlength, htake, hdrop]
  · rw [Machine.called, hm.memory]
    exact ((hm.withStack _).withMemory _).scratch _ _

/-- The receiver of a method is its first argument. -/
theorem turns_method (name : String) (receiver : Word) (arguments : List Word) :
    f.Turns code [.call name (arguments.length + 1)] (arguments.reverse ++ receiver :: stack) σ
      ((f.call name (receiver :: arguments) σ).1 :: stack) (f.call name (receiver :: arguments) σ).2 := by
  have h : f.Turns code [.call name (receiver :: arguments).length] ((receiver :: arguments).reverse ++ stack) σ _ _ :=
    turns_call name (receiver :: arguments)
  rwa [List.reverse_cons, List.append_assoc] at h

theorem turns_drop : f.Turns code [.pop .temp 0] (w :: stack) σ stack σ := by
  refine Turns.one fun m rest hm => ?_
  obtain ⟨_, _, arguments, locals, temps, _, that⟩ := m
  obtain ⟨rfl, rfl, rfl, ha, hl⟩ := hm
  exact ⟨_, rfl, rfl, rfl, rfl, ha, hl⟩

theorem turns_element (base i : Word) :
    f.Turns code [.compute .add, .pop .pointer 1, .push .that 0] (i :: base :: stack) σ
      (σ.memory.heap (base + i) :: stack) σ := by
  intro m rest hm
  obtain ⟨_, _, arguments, locals, temps, _, that⟩ := m
  obtain ⟨rfl, rfl, rfl, ha, hl⟩ := hm
  have hzero : base + i = base + i + .ofNat 16 0 := (BitVec.add_zero _).symm
  rw [hzero]
  exact ⟨_, .cons rfl (.cons rfl (.one rfl)), rfl, rfl, rfl, ha, hl⟩

/-- The value is parked while the address under it becomes that of `that`. -/
theorem turns_setElement (address : Word) :
    f.Turns code [.pop .temp 0, .pop .pointer 1, .push .temp 0, .pop .that 0] (w :: address :: stack) σ stack
      { σ with memory := σ.memory.setHeap address w } := by
  intro m rest hm
  obtain ⟨_, _, arguments, locals, temps, _, that⟩ := m
  obtain ⟨rfl, rfl, rfl, ha, hl⟩ := hm
  refine ⟨_, .cons rfl (.cons rfl (.cons rfl (.one rfl))), rfl, ?_, rfl, ha, hl⟩
  simp

theorem turns_binary (op : BinaryOp) (x y : Word) :
    f.Turns code [.ofBinaryOp op] (y :: x :: stack) σ ((f.binary op x y σ).1 :: stack) (f.binary op x y σ).2 := by
  cases op with
  | mul => exact turns_call "Math.multiply" [x, y]
  | div => exact turns_call "Math.divide" [x, y]
  | _ => exact turns_compute rfl

theorem turns_unary (op : UnaryOp) (x : Word) :
    f.Turns code [.ofUnaryOp op] (x :: stack) σ (unary op x :: stack) σ := by
  cases op <;> exact turns_compute rfl

theorem turns_characters (cs : List Char) (s : Word × Store) :
    f.Turns code (cs.flatMap fun c => [.pushConstant c.toNat, .call "String.appendChar" 2]) (s.1 :: stack) s.2
      ((cs.foldl (fun (s, σ) c => f.call "String.appendChar" [s, .ofNat 16 c.toNat] σ) s).1 :: stack)
      (cs.foldl (fun (s, σ) c => f.call "String.appendChar" [s, .ofNat 16 c.toNat] σ) s).2 := by
  induction cs generalizing s with
  | nil => exact .nil
  | cons c cs ih =>
    exact ((turns_constant c.toNat).append (turns_call "String.appendChar" [s.1, .ofNat 16 c.toNat])).append (ih _)

theorem turns_string (text : String) :
    f.Turns code (Instruction.ofString text) stack σ ((f.string text σ).1 :: stack) (f.string text σ).2 :=
  .cons (turns_constant text.length)
    (.cons (turns_call "String.new" [.ofNat 16 text.length]) (turns_characters text.toList _))

end Frame

/-! ### Expressions -/

theorem Constant.turns_code {f : Frame} {code : List Instruction} {stack : List Word} {σ : Store} (c : Constant) :
    f.Turns code c.code stack σ (f.constant c :: stack) σ := by
  cases c with
  | true_ => exact .cons (Frame.turns_constant 1) (Frame.turns_compute rfl)
  | false_ => exact Frame.turns_constant 0
  | null => exact Frame.turns_constant 0
  | this => exact Frame.turns_this

theorem Arguments.length_of_eval {f : Frame} : ∀ {arguments : Arguments} {σ σ' : Store} {ws : List Word},
    arguments.eval f σ = some (ws, σ') → ws.length = arguments.count
  | .none, σ, σ', ws, h => by
    simp only [Arguments.eval, Option.some.injEq, Prod.mk.injEq] at h
    rw [← h.1]
    rfl
  | .more first rest, σ, σ', ws, h => by
    simp only [Arguments.eval, Option.bind_eq_bind, Option.bind_eq_some_iff, Prod.exists, Option.some.injEq,
      Prod.mk.injEq] at h
    obtain ⟨w, σ₁, -, ws', σ₂, hr, rfl, -⟩ := h
    rw [List.length_cons, length_of_eval hr]
    rfl

mutual

theorem Term.turns_code {f : Frame} {code : List Instruction} : ∀ {t : Term} {σ σ' : Store} {w : Word}
    {stack : List Word}, t.eval f σ = some (w, σ') →
      f.Turns code (t.code .exact f.environment) stack σ (w :: stack) σ'
  | .integer value, σ, σ', w, stack, h => by
    obtain ⟨rfl, rfl⟩ := Prod.mk.inj (Option.some.inj h)
    exact Frame.turns_constant value
  | .string text, σ, σ', w, stack, h => by
    obtain ⟨rfl, rfl⟩ := Prod.mk.inj (Option.some.inj h)
    exact Frame.turns_string text
  | .constant value, σ, σ', w, stack, h => by
    obtain ⟨rfl, rfl⟩ := Prod.mk.inj (Option.some.inj h)
    exact value.turns_code
  | .read x, σ, σ', w, stack, h => by
    simp only [Term.eval, Option.bind_eq_bind, Option.bind_eq_some_iff, Option.some.injEq, Prod.mk.injEq] at h
    obtain ⟨w, hx, rfl, rfl⟩ := h
    exact Frame.turns_read hx
  | .element x index, σ, σ', w, stack, h => by
    simp only [Term.eval, Option.bind_eq_bind, Option.bind_eq_some_iff, Prod.exists, Option.some.injEq,
      Prod.mk.injEq] at h
    obtain ⟨base, hx, i, σ₁, hi, rfl, rfl⟩ := h
    exact ((Frame.turns_read hx).append (index.turns_code hi)).append (Frame.turns_element base i)
  | .call g arguments, σ, σ', w, stack, h => by
    simp only [Term.eval, Option.bind_eq_bind, Option.bind_eq_some_iff, Prod.exists, Option.some.injEq] at h
    obtain ⟨ws, σ₁, ha, hcall⟩ := h
    obtain ⟨rfl, rfl⟩ := Prod.mk.inj hcall
    rw [Term.code, ← Arguments.length_of_eval ha]
    exact .cons Frame.turns_this ((arguments.turns_code ha).append (Frame.turns_method _ f.this ws))
  | .callOn owner g arguments, σ, σ', w, stack, h => by
    cases hv : f.environment.lookup? owner with
    -- A variable in front of the dot is the receiver of a method; any other name is that of a class.
    | some v =>
      simp only [Term.eval, hv, Option.bind_eq_bind, Option.bind_eq_some_iff, Prod.exists, Option.some.injEq] at h
      obtain ⟨receiver, hx, ws, σ₁, ha, hcall⟩ := h
      obtain ⟨rfl, rfl⟩ := Prod.mk.inj hcall
      simp only [Term.code, hv, ← Arguments.length_of_eval ha]
      exact .cons (Frame.turns_variable hv hx)
        ((arguments.turns_code ha).append (Frame.turns_method _ receiver ws))
    | none =>
      simp only [Term.eval, hv, Option.bind_eq_bind, Option.bind_eq_some_iff, Prod.exists, Option.some.injEq] at h
      obtain ⟨ws, σ₁, ha, hcall⟩ := h
      obtain ⟨rfl, rfl⟩ := Prod.mk.inj hcall
      simp only [Term.code, hv, ← Arguments.length_of_eval ha]
      exact (arguments.turns_code ha).append (Frame.turns_call _ ws)
  | .group inside, σ, σ', w, stack, h => inside.turns_code h
  | .unary op operand, σ, σ', w, stack, h => by
    simp only [Term.eval, Option.bind_eq_bind, Option.bind_eq_some_iff, Prod.exists, Option.some.injEq,
      Prod.mk.injEq] at h
    obtain ⟨x, σ₁, hx, rfl, rfl⟩ := h
    exact (operand.turns_code hx).append (Frame.turns_unary op x)

theorem Expression.turns_code {f : Frame} {code : List Instruction} : ∀ {e : Expression} {σ σ' : Store}
    {w : Word} {stack : List Word}, e.eval f σ = some (w, σ') →
      f.Turns code (e.code .exact f.environment) stack σ (w :: stack) σ'
  | .of first rest, σ, σ', w, stack, h => by
    simp only [Expression.eval, Option.bind_eq_bind, Option.bind_eq_some_iff, Prod.exists] at h
    obtain ⟨x, σ₁, hx, hr⟩ := h
    exact (first.turns_code hx).append (rest.turns_code hr)

theorem Operations.turns_code {f : Frame} {code : List Instruction} : ∀ {o : Operations} {x : Word}
    {σ σ' : Store} {w : Word} {stack : List Word}, o.eval f x σ = some (w, σ') →
      f.Turns code (o.code .exact f.environment) (x :: stack) σ (w :: stack) σ'
  | .none, x, σ, σ', w, stack, h => by
    obtain ⟨rfl, rfl⟩ := Prod.mk.inj (Option.some.inj h)
    exact .nil
  | .more op operand rest, x, σ, σ', w, stack, h => by
    simp only [Operations.eval, Option.bind_eq_bind, Option.bind_eq_some_iff, Prod.exists] at h
    obtain ⟨y, σ₁, hy, hr⟩ := h
    exact (operand.turns_code hy).append (.cons (Frame.turns_binary op x y) (rest.turns_code hr))

/-- The last argument is on top. -/
theorem Arguments.turns_code {f : Frame} {code : List Instruction} : ∀ {arguments : Arguments}
    {σ σ' : Store} {ws : List Word} {stack : List Word}, arguments.eval f σ = some (ws, σ') →
      f.Turns code (arguments.code .exact f.environment) stack σ (ws.reverse ++ stack) σ'
  | .none, σ, σ', ws, stack, h => by
    obtain ⟨rfl, rfl⟩ := Prod.mk.inj (Option.some.inj h)
    exact .nil
  | .more first rest, σ, σ', ws, stack, h => by
    simp only [Arguments.eval, Option.bind_eq_bind, Option.bind_eq_some_iff, Prod.exists, Option.some.injEq,
      Prod.mk.injEq] at h
    obtain ⟨w, σ₁, hf, ws', σ₂, hr, rfl, rfl⟩ := h
    rw [List.reverse_cons, List.append_assoc]
    exact (first.turns_code hf).append (rest.turns_code hr)

end

/-! ### Code in its place -/

namespace Frame

/-- Steps lead to a machine that shows the store: to the rest of the code, or to a `return` with the value on
top of the stack. -/
def Arrives (f : Frame) (code : List Instruction) (stack : List Word) (σ : Store) (rest : List Instruction)
    (c : Vm.Config) : Outcome → Prop
  | .normal => ∃ m, Steps f.library code c ⟨rest, m⟩ ∧ f.Shows stack σ m
  | .returned w => ∃ after m, Steps f.library code c ⟨.return_ :: after, m⟩ ∧ f.Shows (w :: stack) σ m

/-- The instructions run from one store to another with this outcome, wherever they stand in the code. -/
def Performs (f : Frame) (code instructions : List Instruction) (σ : Store) (o : Outcome) (σ' : Store) : Prop :=
  ∀ before rest stack m, code = before ++ (instructions ++ rest) → f.Shows stack σ m →
    f.Arrives code stack σ' rest ⟨instructions ++ rest, m⟩ o

variable {f : Frame} {code a b : List Instruction} {σ σ₁ σ₂ : Store} {o : Outcome} {target : String} {w : Word}

theorem Arrives.of_steps {stack : List Word} {rest : List Instruction} {c c' : Vm.Config}
    (h : Steps f.library code c c') (h' : f.Arrives code stack σ rest c' o) :
    f.Arrives code stack σ rest c o := by
  cases o with
  | normal =>
    obtain ⟨m, hs, hm⟩ := h'
    exact ⟨m, h.trans hs, hm⟩
  | returned w =>
    obtain ⟨after, m, hs, hm⟩ := h'
    exact ⟨after, m, h.trans hs, hm⟩

theorem Turns.performs (h : ∀ stack, f.Turns code a stack σ stack σ₁) : f.Performs code a σ .normal σ₁ :=
  fun _ rest stack m _ hm => h stack m rest hm

/-- A value is computed, and the subroutine is left with it. -/
theorem Turns.performs_return (h : ∀ stack, f.Turns code a stack σ (w :: stack) σ₁) :
    f.Performs code (a ++ [.return_]) σ (.returned w) σ₁ := by
  intro before rest stack m _ hm
  obtain ⟨m', hs, hm'⟩ := h stack m (.return_ :: rest) hm
  rw [List.append_assoc]
  exact ⟨rest, m', hs, hm'⟩

theorem Performs.append (ha : f.Performs code a σ .normal σ₁) (hb : f.Performs code b σ₁ o σ₂) :
    f.Performs code (a ++ b) σ o σ₂ := by
  intro before rest stack m hcode hm
  rw [List.append_assoc] at hcode ⊢
  obtain ⟨m₁, hs, hm₁⟩ := ha before (b ++ rest) stack m hcode hm
  have hcode' : code = (before ++ a) ++ (b ++ rest) := by rw [hcode, List.append_assoc]
  exact (hb _ rest stack m₁ hcode' hm₁).of_steps hs

/-- What follows a `return` does not matter. -/
theorem Performs.append_of_returned (ha : f.Performs code a σ (.returned w) σ₁) (b : List Instruction) :
    f.Performs code (a ++ b) σ (.returned w) σ₁ := by
  intro before rest stack m hcode hm
  rw [List.append_assoc] at hcode ⊢
  exact ha before (b ++ rest) stack m hcode hm

/-- Code that ends in the same way whether or not what follows is reached. -/
theorem Performs.seq (ha : f.Performs code a σ o σ₁) (hb : f.Performs code b σ₁ .normal σ₁) :
    f.Performs code (a ++ b) σ o σ₁ := by
  cases o with
  | normal => exact ha.append hb
  | returned w => exact ha.append_of_returned b

theorem performs_label (name : String) : f.Performs code [.label name] σ .normal σ :=
  fun _ _ _ m _ hm => ⟨m, .one rfl, hm⟩

section
variable (hcode : (labelsOf code).Nodup)
include hcode

theorem steps_goto {before after rest : List Instruction} (h : code = before ++ .label target :: after)
    (m : Machine) : Steps f.library code ⟨.goto target :: rest, m⟩ ⟨.label target :: after, m⟩ := by
  have hseek : Vm.seek? target code = some (.label target :: after) := by
    rw [h] at hcode ⊢
    exact Vm.seek?_of_nodup hcode
  exact .one (by simp [Vm.step, hseek])

/-- A jump over instructions. -/
theorem performs_goto (h : f.Performs code b σ o σ₁) :
    f.Performs code (.goto target :: a ++ .label target :: b) σ o σ₁ := by
  intro before rest stack m hc hm
  have hplace : code = (before ++ .goto target :: a) ++ .label target :: (b ++ rest) := by simp [hc]
  have hb := (performs_label target).append h (before ++ .goto target :: a) rest stack m (by simp [hc]) hm
  rw [List.cons_append, List.cons_append]
  exact hb.of_steps (steps_goto hcode hplace m)

/-- A jump back to a label. -/
theorem performs_loop (h : f.Performs code (.label target :: a) σ .normal σ₁)
    (h' : f.Performs code (.label target :: a ++ .goto target :: b) σ₁ o σ₂) :
    f.Performs code (.label target :: a ++ .goto target :: b) σ o σ₂ := by
  intro before rest stack m hc hm
  obtain ⟨m₁, hs, hm₁⟩ := h before (.goto target :: b ++ rest) stack m (by simp [hc]) hm
  -- The label stands in front of the very instructions that were just left.
  have hplace : code = before ++ .label target :: (a ++ .goto target :: b ++ rest) := by simp [hc]
  have hback := (steps_goto hcode hplace m₁ : Steps f.library code ⟨.goto target :: (b ++ rest), m₁⟩ _)
  have hagain := h' before rest stack m₁ hc hm₁
  rw [List.append_assoc]
  refine Arrives.of_steps (hs.trans hback) ?_
  simpa using hagain

end

theorem performs_nil : f.Performs code [] σ .normal σ :=
  Turns.performs fun _ => .nil

end Frame

/-! ### Conditions -/

section
variable {f : Frame} {code a b : List Instruction} {σ σ₁ σ₂ : Store} {o : Outcome} {target : String} {w : Word}
  {condition : Expression}

theorem Expression.turns_not (h : condition.eval f σ = some (w, σ₁)) (stack : List Word) :
    f.Turns code (condition.code .exact f.environment ++ [.compute .not]) stack σ (~~~w :: stack) σ₁ :=
  (Expression.turns_code h).append (Frame.turns_compute rfl)

theorem Expression.performs_jumpUnless_of_true (h : condition.eval f σ = some (-1, σ₁)) :
    f.Performs code (condition.jumpUnless .exact f.environment target) σ .normal σ₁ := by
  refine Frame.Turns.performs fun stack => ?_
  have hfall : f.Turns code [.ifGoto target] (0 :: stack) σ₁ stack σ₁ := by
    refine Frame.Turns.one fun m rest hm => ⟨{ m with stack }, ?_, hm.withStack stack⟩
    simp [Vm.step, hm.stack]
  have hturn := (Expression.turns_not h stack).append hfall
  rwa [List.append_assoc] at hturn

/-- All words but -1 have a bit that is not set. -/
theorem not_ne_zero_of_ne (hw : w ≠ -1) : ~~~w ≠ 0 := by
  intro h
  apply hw
  rw [← BitVec.not_not (b := w), h]
  rfl

theorem Expression.performs_jumpUnless_of_false (hcode : (labelsOf code).Nodup)
    (h : condition.eval f σ = some (w, σ₁)) (hw : w ≠ -1) (hb : f.Performs code b σ₁ o σ₂) :
    f.Performs code (condition.jumpUnless .exact f.environment target ++ (a ++ .label target :: b)) σ o σ₂ := by
  intro before rest stack m hc hm
  have hplace : code = (before ++ condition.jumpUnless .exact f.environment target ++ a) ++
      .label target :: (b ++ rest) := by
    simp [hc]
  have hseek : Vm.seek? target code = some (.label target :: (b ++ rest)) := by
    rw [hplace] at hcode ⊢
    exact Vm.seek?_of_nodup hcode
  obtain ⟨m₁, hs, hm₁⟩ := Expression.turns_not h stack m (.ifGoto target :: (a ++ .label target :: b ++ rest)) hm
  -- The word on top is the complement of the condition, and not 0: the jump is taken.
  have hjump : Vm.step f.library code ⟨.ifGoto target :: (a ++ .label target :: b ++ rest), m₁⟩ =
      some ⟨.label target :: (b ++ rest), { m₁ with stack }⟩ := by
    simp only [Vm.step, hm₁.stack, if_neg (not_ne_zero_of_ne hw), hseek, Option.map_some]
  have hrest := (Frame.performs_label target).append hb
    (before ++ condition.jumpUnless .exact f.environment target ++ a) rest stack _ hplace (hm₁.withStack stack)
  have hsteps := hs.trans (.one hjump)
  simp only [Expression.jumpUnless, List.append_assoc, List.cons_append, List.nil_append] at hsteps hrest ⊢
  exact hrest.of_steps hsteps

end

/-! ### Statements -/

namespace Statement
variable {f : Frame} {code : List Instruction} {σ σ₁ σ₂ σ₃ : Store} {o : Outcome} {w : Word}
  {condition : Expression} {body alternative : Block} {n : Nat}

theorem performs_assignElement {x : String} {index value : Expression} {base i : Word}
    (hx : f.value? σ x = some base) (hi : index.eval f σ = some (i, σ₁)) (hv : value.eval f σ₁ = some (w, σ₂)) :
    f.Performs code ((Statement.assignElement x index value).code .exact f.environment n) σ .normal
      { σ₂ with memory := σ₂.memory.setHeap (base + i) w } := by
  refine Frame.Turns.performs fun stack => ?_
  have hadd : f.Turns code [.compute .add] (i :: base :: stack) σ₁ ((base + i) :: stack) σ₁ :=
    Frame.turns_compute rfl
  have haddress := ((Frame.turns_read hx).append (Expression.turns_code hi)).append hadd
  have hvalue := (haddress.append (Expression.turns_code hv)).append (Frame.turns_setElement (base + i))
  simpa [Statement.code] using hvalue

theorem performs_ifTrue (hcode : (labelsOf code).Nodup) (hc : condition.eval f σ = some (-1, σ₁))
    (hb : f.Performs code (body.code .exact f.environment (n + 2)) σ₁ o σ₂) :
    f.Performs code ((Statement.if_ condition body).code .exact f.environment n) σ o σ₂ := by
  have hshape : (Statement.if_ condition body).code .exact f.environment n =
      condition.jumpUnless .exact f.environment (ifName n) ++ (body.code .exact f.environment (n + 2) ++
        (.goto (ifName (n + 1)) :: [.label (ifName n)] ++ .label (ifName (n + 1)) :: [])) := by
    simp [Statement.code]
  rw [hshape]
  exact (Expression.performs_jumpUnless_of_true hc).append
    (hb.seq (Frame.performs_goto hcode Frame.performs_nil))

theorem performs_ifFalse (hcode : (labelsOf code).Nodup) (hc : condition.eval f σ = some (w, σ₁))
    (hw : w ≠ -1) : f.Performs code ((Statement.if_ condition body).code .exact f.environment n) σ .normal σ₁ := by
  have hshape : (Statement.if_ condition body).code .exact f.environment n =
      condition.jumpUnless .exact f.environment (ifName n) ++
        ((body.code .exact f.environment (n + 2) ++ [.goto (ifName (n + 1))]) ++
          .label (ifName n) :: [.label (ifName (n + 1))]) := by
    simp [Statement.code]
  rw [hshape]
  exact Expression.performs_jumpUnless_of_false hcode hc hw (Frame.performs_label _)

theorem performs_ifElseTrue (hcode : (labelsOf code).Nodup) (hc : condition.eval f σ = some (-1, σ₁))
    (hb : f.Performs code (body.code .exact f.environment (n + 2)) σ₁ o σ₂) :
    f.Performs code ((Statement.ifElse condition body alternative).code .exact f.environment n) σ o σ₂ := by
  have hshape : (Statement.ifElse condition body alternative).code .exact f.environment n =
      condition.jumpUnless .exact f.environment (ifName n) ++ (body.code .exact f.environment (n + 2) ++
        (.goto (ifName (n + 1)) ::
          (.label (ifName n) :: alternative.code .exact f.environment (n + 2 + body.draws)) ++
            .label (ifName (n + 1)) :: [])) := by
    simp [Statement.code]
  rw [hshape]
  exact (Expression.performs_jumpUnless_of_true hc).append
    (hb.seq (Frame.performs_goto hcode Frame.performs_nil))

theorem performs_ifElseFalse (hcode : (labelsOf code).Nodup) (hc : condition.eval f σ = some (w, σ₁))
    (hw : w ≠ -1) (ha : f.Performs code (alternative.code .exact f.environment (n + 2 + body.draws)) σ₁ o σ₂) :
    f.Performs code ((Statement.ifElse condition body alternative).code .exact f.environment n) σ o σ₂ := by
  have hshape : (Statement.ifElse condition body alternative).code .exact f.environment n =
      condition.jumpUnless .exact f.environment (ifName n) ++
        ((body.code .exact f.environment (n + 2) ++ [.goto (ifName (n + 1))]) ++
          .label (ifName n) ::
            (alternative.code .exact f.environment (n + 2 + body.draws) ++ [.label (ifName (n + 1))])) := by
    simp [Statement.code]
  rw [hshape]
  exact Expression.performs_jumpUnless_of_false hcode hc hw (ha.seq (Frame.performs_label _))

/-- The code of a loop: its label, one round, and the way back. -/
theorem code_while (env : Environment) : (Statement.while_ condition body).code .exact env n =
    .label (whileName n) :: (condition.jumpUnless .exact env (whileName (n + 1)) ++ body.code .exact env (n + 2)) ++
      .goto (whileName n) :: [.label (whileName (n + 1))] := by
  simp [Statement.code]

theorem performs_whileDone (hcode : (labelsOf code).Nodup) (hc : condition.eval f σ = some (w, σ₁))
    (hw : w ≠ -1) : f.Performs code ((Statement.while_ condition body).code .exact f.environment n) σ .normal σ₁ := by
  have hshape : (Statement.while_ condition body).code .exact f.environment n =
      [.label (whileName n)] ++ (condition.jumpUnless .exact f.environment (whileName (n + 1)) ++
        ((body.code .exact f.environment (n + 2) ++ [.goto (whileName n)]) ++ .label (whileName (n + 1)) :: [])) := by
    simp [Statement.code]
  rw [hshape]
  exact (Frame.performs_label _).append
    (Expression.performs_jumpUnless_of_false hcode hc hw Frame.performs_nil)

/-- One round of a loop whose condition holds. -/
theorem performs_round (hc : condition.eval f σ = some (-1, σ₁))
    (hb : f.Performs code (body.code .exact f.environment (n + 2)) σ₁ o σ₂) :
    f.Performs code (.label (whileName n) ::
      (condition.jumpUnless .exact f.environment (whileName (n + 1)) ++
        body.code .exact f.environment (n + 2))) σ o σ₂ :=
  (Frame.performs_label _).append ((Expression.performs_jumpUnless_of_true hc).append hb)

theorem performs_whileReturned (hc : condition.eval f σ = some (-1, σ₁))
    (hb : f.Performs code (body.code .exact f.environment (n + 2)) σ₁ (.returned w) σ₂) :
    f.Performs code ((Statement.while_ condition body).code .exact f.environment n) σ (.returned w) σ₂ := by
  rw [code_while]
  exact (performs_round hc hb).append_of_returned _

theorem performs_whileAgain (hcode : (labelsOf code).Nodup) (hc : condition.eval f σ = some (-1, σ₁))
    (hb : f.Performs code (body.code .exact f.environment (n + 2)) σ₁ .normal σ₂)
    (hr : f.Performs code ((Statement.while_ condition body).code .exact f.environment n) σ₂ o σ₃) :
    f.Performs code ((Statement.while_ condition body).code .exact f.environment n) σ o σ₃ := by
  rw [code_while] at hr ⊢
  exact Frame.performs_loop hcode (performs_round hc hb) hr

end Statement

mutual

/-- By the rules of a run. A loop that goes on is again a run of the same loop, at the same label. -/
theorem Statement.Runs.performs {f : Frame} {code : List Instruction} (hcode : (labelsOf code).Nodup)
    (hs : f.environment.Slotted) : ∀ {s : Statement} {σ : Store} {o : Outcome} {σ' : Store},
    s.Runs f σ o σ' → ∀ n, f.Performs code (s.code .exact f.environment n) σ o σ'
  | .assign .., _, _, _, .assign hv hx, _ =>
    Frame.Turns.performs fun _ => (Expression.turns_code hv).append (Frame.turns_write hs hx)
  | .assignElement .., _, _, _, .assignElement hx hi hv, _ => Statement.performs_assignElement hx hi hv
  | .if_ .., _, _, _, .ifTrue hc hb, n => Statement.performs_ifTrue hcode hc (hb.performs hcode hs (n + 2))
  | .if_ .., _, _, _, .ifFalse hc hw, _ => Statement.performs_ifFalse hcode hc hw
  | .ifElse .., _, _, _, .ifElseTrue hc hb, n =>
    Statement.performs_ifElseTrue hcode hc (hb.performs hcode hs (n + 2))
  | .ifElse _ body _, _, _, _, .ifElseFalse hc hw ha, n =>
    Statement.performs_ifElseFalse hcode hc hw (ha.performs hcode hs (n + 2 + body.draws))
  | .while_ .., _, _, _, .whileDone hc hw, _ => Statement.performs_whileDone hcode hc hw
  | .while_ .., _, _, _, .whileReturned hc hb, n =>
    Statement.performs_whileReturned hc (hb.performs hcode hs (n + 2))
  | .while_ .., _, _, _, .whileAgain hc hb hr, n =>
    Statement.performs_whileAgain hcode hc (hb.performs hcode hs (n + 2)) (hr.performs hcode hs n)
  | .do_ _, _, _, _, .do_ ht, _ =>
    Frame.Turns.performs fun _ => (Term.turns_code ht).append Frame.turns_drop
  | .return_, _, _, _, .return_, _ => Frame.Turns.performs_return fun _ => Frame.turns_constant 0
  | .returnValue _, _, _, _, .returnValue hv, _ =>
    Frame.Turns.performs_return fun _ => Expression.turns_code hv

theorem Block.Runs.performs {f : Frame} {code : List Instruction} (hcode : (labelsOf code).Nodup)
    (hs : f.environment.Slotted) : ∀ {b : Block} {σ : Store} {o : Outcome} {σ' : Store},
    b.Runs f σ o σ' → ∀ n, f.Performs code (b.code .exact f.environment n) σ o σ'
  | .nil, _, _, _, .nil, _ => Frame.performs_nil
  | .cons first _, _, _, _, .next hf hr, n =>
    (hf.performs hcode hs n).append (hr.performs hcode hs (n + first.draws))
  | .cons _ _, _, _, _, .returned hf, n => (hf.performs hcode hs n).append_of_returned _

end

/-! ### Subroutines -/

namespace Placed

variable {u : Placed} {library : Vm.Library} {this w : Word} {σ σ' : Store}

theorem performs_bodyCode (hs : u.environment.Slotted) (h : u.routine.Returns (u.frame library this) σ w σ') :
    (u.frame library this).Performs (u.code .exact) (u.bodyCode .exact) σ (.returned w) σ' := by
  have hcode : (labelsOf (u.code .exact)).Nodup := u.nodup_labelsOf_code
  cases h with
  | value hb => exact (hb.performs hcode hs u.start).append_of_returned _
  | void hr hb =>
    -- The last brace is reached, so no `return` is the last statement, and one is added behind it.
    rw [bodyCode, hr, hb.endsInReturn_eq_false]
    exact (hb.performs hcode hs u.start).append (Frame.Turns.performs_return fun _ => Frame.turns_constant 0)

theorem steps_bodyCode (hs : u.environment.Slotted) {m : Machine}
    (hm : (u.frame library this).Shows m.stack σ m)
    (h : u.routine.Returns (u.frame library this) σ w σ') :
    ∃ after m', Steps library (u.code .exact) ⟨u.bodyCode .exact, m⟩ ⟨.return_ :: after, m'⟩ ∧
      (u.frame library this).Shows (w :: m.stack) σ' m' := by
  have hplace : u.code .exact = u.prologue ++ (u.bodyCode .exact ++ []) := by rw [List.append_nil, code]
  obtain ⟨after, m', hsteps, hm'⟩ := performs_bodyCode hs h u.prologue [] m.stack m hplace hm
  rw [List.append_nil] at hsteps
  exact ⟨after, m', hsteps, hm'⟩

end Placed

end JackToVm.Syntax
