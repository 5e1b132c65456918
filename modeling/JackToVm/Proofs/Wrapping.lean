import Mathlib.Data.List.Induction
import JackToVm.Proofs.Blocks

/-!
Counters of 16 bits beside exact ones. A counter shows how many variables of a kind there are, or how many
arguments a call has, modulo 65536 (`Scope.count_defineAll`, `Term.code_wrapped`). A subroutine with fewer
variables of each kind and fewer arguments in each call has the same code however it is counted
(`Routine.behind_wrapped`, `Placed.code_wrapped`).
-/

namespace JackToVm

theorem Counting.fit_succ (k : Counting) (n : Nat) : k.fit (k.fit n + 1) = k.fit (n + 1) := by
  cases k with
  | wrapped =>
    simp only [fit]
    omega
  | exact => rfl

/-! ### Scopes -/

namespace Scope
variable {k : Counting} {kind : Kind}

theorem defineAll_concat (s : Scope) (bs : List Binding) (b : Binding) :
    s.defineAll k (bs ++ [b]) = (s.defineAll k bs).enter k b := by
  rw [defineAll_append, defineAll_cons, defineAll_nil]

theorem countP_concat (bs : List Binding) (b : Binding) :
    (bs ++ [b]).countP (·.kind = kind) = bs.countP (·.kind = kind) + if kind = b.kind then 1 else 0 := by
  by_cases hk : kind = b.kind
  · simp [hk]
  · simp [hk, Ne.symm hk]

/-- The counter of a kind, behind declarations. -/
theorem count_defineAll (bs : List Binding) :
    (({} : Scope).defineAll k bs).count kind = k.fit (bs.countP (·.kind = kind)) := by
  induction bs using List.reverseRecOn with
  | nil => cases k <;> cases kind <;> rfl
  | append_singleton bs b ih =>
    rw [defineAll_concat, enter, count_record, countP_concat]
    by_cases hk : kind = b.kind
    · subst hk
      simp only [ih, if_true, Counting.fit_succ]
    · simp only [hk, if_false, Nat.add_zero, ih]

/-- The number of a variable is below the number of declarations of its kind. -/
theorem index_lt_of_mem_declared {bs : List Binding} {v : Variable} (h : v ∈ (({} : Scope).defineAll k bs).declared) :
    v.index < bs.countP (·.kind = v.kind) := by
  induction bs using List.reverseRecOn with
  | nil => cases h
  | append_singleton bs b ih =>
    rw [defineAll_concat, enter, declared_record] at h
    rw [countP_concat]
    rcases List.mem_cons.mp h with rfl | h
    · rw [if_pos rfl, count_defineAll]
      exact Nat.lt_succ_of_le (k.fit_le _)
    · exact Nat.lt_add_right _ (ih h)

theorem countP_declared (bs : List Binding) :
    (({} : Scope).defineAll k bs).declared.countP (·.kind = kind) = bs.countP (·.kind = kind) := by
  induction bs using List.reverseRecOn with
  | nil => rfl
  | append_singleton bs b ih =>
    rw [defineAll_concat, enter, declared_record, countP_concat, List.countP_cons, ih]
    simp [eq_comm]

/-- As long as all of a kind have a number, the two ways to count agree. -/
theorem defineAll_wrapped {bs : List Binding} (h : ∀ kind, bs.countP (·.kind = kind) < 65536) :
    ({} : Scope).defineAll .wrapped bs = ({} : Scope).defineAll .exact bs := by
  induction bs using List.reverseRecOn with
  | nil => rfl
  | append_singleton bs b ih =>
    have hfront (kind : Kind) : bs.countP (·.kind = kind) < 65536 :=
      Nat.lt_of_le_of_lt (List.countP_append ▸ Nat.le_add_right _ _) (h kind)
    have hcount : (({} : Scope).defineAll .exact bs).count b.kind + 1 < 65536 := by
      have hb := h b.kind
      rw [countP_concat, if_pos rfl] at hb
      rwa [count_defineAll, Counting.fit]
    rw [defineAll_concat, defineAll_concat, ih hfront, enter, enter, Counting.fit_of_lt _ hcount,
      Counting.fit_of_lt _ hcount]

end Scope

namespace Environment

/-- There are fewer than 65536 variables of each kind, hidden ones included. -/
def Fits (env : Environment) : Prop :=
  ∀ kind, (env.classScope.declared ++ env.routineScope.declared).countP (·.kind = kind) < 65536

/-- The environment of declarations of a class and of a subroutine. -/
def declaring (k : Counting) (className : String) (known own : List Binding) : Environment where
  className := className
  classScope := ({} : Scope).defineAll k known
  routineScope := ({} : Scope).defineAll k own

theorem fits_declaring_iff {k : Counting} {className : String} {known own : List Binding} :
    (declaring k className known own).Fits ↔
      ∀ kind, known.countP (·.kind = kind) + own.countP (·.kind = kind) < 65536 := by
  refine forall_congr' fun kind => ?_
  rw [declaring, List.countP_append, Scope.countP_declared, Scope.countP_declared]

/-- As long as there are numbers for all variables, an environment is the same however they are counted. -/
theorem declaring_wrapped {k : Counting} {className : String} {known own : List Binding}
    (h : (declaring k className known own).Fits) :
    declaring .wrapped className known own = declaring .exact className known own := by
  rw [fits_declaring_iff] at h
  have hknown (kind : Kind) := Nat.lt_of_le_of_lt (Nat.le_add_right _ _) (h kind)
  have hown (kind : Kind) := Nat.lt_of_le_of_lt (Nat.le_add_left _ _) (h kind)
  rw [declaring, declaring, Scope.defineAll_wrapped hknown, Scope.defineAll_wrapped hown]

end Environment

/-! ### Variables of a subroutine -/

namespace Syntax
open Vm (Instruction)

theorem countP_bindings (kind k : Kind) (d : Declaration) :
    (d.bindings kind).countP (·.kind = k) = if kind = k then d.names.length else 0 := by
  by_cases hk : kind = k <;> simp [Declaration.bindings, bindingsOf, Declaration.names, hk, List.countP_eq_zero]

theorem countP_parameters (ps : List Parameter) (kind : Kind) :
    (ps.map Parameter.binding).countP (·.kind = kind) = if kind = .argument then ps.length else 0 := by
  by_cases hk : kind = .argument
  · simp [Parameter.binding, hk]
  · simp [Parameter.binding, hk, Ne.symm hk]

theorem countP_locals (ds : List Declaration) (kind : Kind) :
    (ds.flatMap (Declaration.bindings .local_)).countP (·.kind = kind) =
      if kind = .local_ then (ds.flatMap Declaration.names).length else 0 := by
  induction ds with
  | nil => simp
  | cons d ds ih =>
    rw [List.flatMap_cons, List.countP_append, ih, countP_bindings, List.flatMap_cons, List.length_append]
    by_cases hk : kind = .local_
    · simp [hk]
    · simp [hk, Ne.symm hk]

/-- How many slots of a kind a subroutine needs behind some members. Each declaration takes one, and so does the
receiver. -/
def Routine.slots (r : Routine) (front : List Member) : Kind → Nat
  | .argument => r.parameters.length + if r.kind = .method then 1 else 0
  | .local_ => (r.locals.flatMap Declaration.names).length + if r.kind = .constructor_ then 1 else 0
  | kind => (front.flatMap Member.bindings).countP (·.kind = kind)

theorem countP_memberBindings (front : List Member) {kind : Kind} (h : kind.ofClass = false) :
    (front.flatMap Member.bindings).countP (·.kind = kind) = 0 := by
  refine List.countP_eq_zero.mpr fun b hb => ?_
  obtain ⟨m, -, hm⟩ := List.mem_flatMap.mp hb
  have hclass := Member.ofClass_of_mem_bindings hm
  rw [decide_eq_true_eq]
  rintro rfl
  rw [h] at hclass
  cases hclass

namespace Routine
variable (r : Routine) (k : Counting) (className : String) (front : List Member) (n : Nat)

/-- Each declaration for a subroutine has a slot. -/
theorem countP_bindings (kind : Kind) :
    (front.flatMap Member.bindings).countP (·.kind = kind) + (r.bindings className).countP (·.kind = kind) =
      r.slots front kind := by
  rw [bindings, List.countP_append, List.countP_append, countP_parameters, countP_locals]
  cases kind with
  | static | field => cases r.kind <;> simp [slots, receiver]
  | argument | local_ =>
    rw [countP_memberBindings front rfl]
    cases hk : r.kind <;> simp [slots, receiver, hk, Nat.add_comm]

/-- However variables are counted, each has the number of a slot. -/
theorem index_lt_slots {x : String} {v : Variable}
    (h : (r.behind k className front {} n).environment.lookup? x = some v) : v.index < r.slots front v.kind := by
  have hslots := r.countP_bindings className front v.kind
  rcases Environment.lookup?_cases h with h | h
  · have hlt := Scope.index_lt_of_mem_declared (Scope.mem_of_get? h).1
    omega
  · have hlt := Scope.index_lt_of_mem_declared (Scope.mem_of_get? h).1
    omega

end Routine

/-! ### Arguments of calls -/

/-- The instruction with its arguments counted in 16 bits. -/
def wrapCall : Instruction → Instruction
  | .call f n => .call f (n % 65536)
  | i => i

section
variable (env : Environment)

theorem map_wrapCall_ofString (text : String) :
    (Instruction.ofString text).map wrapCall = Instruction.ofString text := by
  simp [Instruction.ofString, wrapCall, Instruction.pushConstant, List.map_flatMap]

theorem map_wrapCall_read (x : String) : (env.read x).map wrapCall = env.read x := by
  cases h : env.lookup? x <;> simp [Environment.read, h, Instruction.pushVariable, wrapCall]

theorem map_wrapCall_write (x : String) : (env.write x).map wrapCall = env.write x := by
  cases h : env.lookup? x <;> simp [Environment.write, h, Instruction.popVariable, wrapCall]

theorem wrapCall_ofBinaryOp (op : BinaryOp) : wrapCall (.ofBinaryOp op) = .ofBinaryOp op := by
  cases op <;> rfl

theorem wrapCall_ofUnaryOp (op : UnaryOp) : wrapCall (.ofUnaryOp op) = .ofUnaryOp op := by
  cases op <;> rfl

theorem Constant.map_wrapCall_code (c : Constant) : c.code.map wrapCall = c.code := by
  cases c <;> rfl

mutual

theorem Term.code_wrapped : ∀ t : Term, t.code .wrapped env = (t.code .exact env).map wrapCall
  | .integer value => rfl
  | .string text => (map_wrapCall_ofString text).symm
  | .constant value => value.map_wrapCall_code.symm
  | .read x => (map_wrapCall_read env x).symm
  | .element x index => by
    simp [Term.code, index.code_wrapped, map_wrapCall_read, wrapCall]
  | .call f arguments => by
    simp [Term.code, arguments.code_wrapped, wrapCall, Counting.fit]
  | .callOn owner f arguments => by
    cases h : env.lookup? owner with
    | some v => simp [Term.code, h, arguments.code_wrapped, wrapCall, Instruction.pushVariable, Counting.fit]
    | none => simp [Term.code, h, arguments.code_wrapped, wrapCall, Counting.fit]
  | .group inside => inside.code_wrapped
  | .unary op operand => by
    simp [Term.code, operand.code_wrapped, wrapCall_ofUnaryOp]

theorem Expression.code_wrapped : ∀ e : Expression, e.code .wrapped env = (e.code .exact env).map wrapCall
  | .of first rest => by
    simp [Expression.code, first.code_wrapped, rest.code_wrapped]

theorem Operations.code_wrapped : ∀ o : Operations, o.code .wrapped env = (o.code .exact env).map wrapCall
  | .none => rfl
  | .more op operand rest => by
    simp [Operations.code, operand.code_wrapped, rest.code_wrapped, wrapCall_ofBinaryOp]

theorem Arguments.code_wrapped : ∀ a : Arguments, a.code .wrapped env = (a.code .exact env).map wrapCall
  | .none => rfl
  | .more first rest => by
    simp [Arguments.code, first.code_wrapped, rest.code_wrapped]

end

theorem Expression.jumpUnless_wrapped (e : Expression) (target : String) :
    e.jumpUnless .wrapped env target = (e.jumpUnless .exact env target).map wrapCall := by
  simp [jumpUnless, e.code_wrapped, wrapCall]

mutual

theorem Statement.code_wrapped : ∀ (s : Statement) (n : Nat),
    s.code .wrapped env n = (s.code .exact env n).map wrapCall
  | .assign x value, n => by
    simp [Statement.code, value.code_wrapped, map_wrapCall_write]
  | .assignElement x index value, n => by
    simp [Statement.code, index.code_wrapped, value.code_wrapped, map_wrapCall_read, wrapCall]
  | .if_ condition body, n => by
    simp [Statement.code, condition.jumpUnless_wrapped, body.code_wrapped, wrapCall]
  | .ifElse condition body alternative, n => by
    simp [Statement.code, condition.jumpUnless_wrapped, body.code_wrapped, alternative.code_wrapped,
      wrapCall]
  | .while_ condition body, n => by
    simp [Statement.code, condition.jumpUnless_wrapped, body.code_wrapped, wrapCall]
  | .do_ term, n => by
    simp [Statement.code, term.code_wrapped, wrapCall]
  | .return_, n => rfl
  | .returnValue value, n => by
    simp [Statement.code, value.code_wrapped, wrapCall]

theorem Block.code_wrapped : ∀ (b : Block) (n : Nat),
    b.code .wrapped env n = (b.code .exact env n).map wrapCall
  | .nil, n => rfl
  | .cons first rest, n => by
    simp [Block.code, first.code_wrapped, rest.code_wrapped]

end

end

/-- Every call in the code has fewer than 65536 arguments, the receiver among them. -/
def CallsFit (code : List Instruction) : Prop :=
  ∀ f n, .call f n ∈ code → n < 65536

theorem CallsFit.map_wrapCall {code : List Instruction} (h : CallsFit code) : code.map wrapCall = code := by
  have hkept : ∀ i ∈ code, wrapCall i = id i := by
    intro i hi
    cases i with
    | call f n => exact congrArg (Instruction.call f) (Nat.mod_eq_of_lt (h f n hi))
    | _ => rfl
  rw [List.map_congr_left hkept, List.map_id]

theorem callsFit_iff {code : List Instruction} : CallsFit code ↔ code.map wrapCall = code := by
  refine ⟨CallsFit.map_wrapCall, fun h f n hi => ?_⟩
  rw [← h] at hi
  obtain ⟨i, -, hcall⟩ := List.mem_map.mp hi
  cases i with
  | call g m =>
    obtain ⟨rfl, rfl⟩ := Instruction.call.inj hcall
    exact Nat.mod_lt m (by decide)
  | _ => cases hcall

instance (code : List Instruction) : Decidable (CallsFit code) :=
  decidable_of_iff _ callsFit_iff.symm

/-! ### Subroutines that fit -/

namespace Routine
variable {r : Routine} {k : Counting} {className : String}

theorem fits_behind_iff {front : List Member} {n : Nat} :
    (r.behind k className front {} n).environment.Fits ↔ ∀ kind, r.slots front kind < 65536 := by
  refine Environment.fits_declaring_iff.trans (forall_congr' fun kind => ?_)
  rw [r.countP_bindings]

theorem behind_wrapped {front : List Member} {n : Nat} (h : (r.behind k className front {} n).environment.Fits) :
    r.behind .wrapped className front {} n = r.behind .exact className front {} n :=
  congrArg (Placed.mk r · _) (Environment.declaring_wrapped h)

end Routine

/-- The variables of a subroutine fit, and each of its calls has fewer than 65536 arguments. -/
structure Placed.Fits (u : Placed) : Prop where
  environment : u.environment.Fits
  calls : CallsFit (u.code .exact)

theorem Placed.bodyCode_wrapped {u : Placed} (h : CallsFit (u.code .exact)) :
    u.bodyCode .wrapped = u.bodyCode .exact := by
  have hbody : CallsFit (u.routine.body.code .exact u.environment u.start) := fun f n hi =>
    h f n (List.mem_append_right _ (List.mem_append_left _ hi))
  rw [bodyCode, bodyCode, Block.code_wrapped, hbody.map_wrapCall]

theorem Placed.code_wrapped {u : Placed} (h : CallsFit (u.code .exact)) : u.code .wrapped = u.code .exact := by
  rw [code, code, bodyCode_wrapped h]

/-- Behind declarations, the subroutines in which everything fits have the same code however it is counted. -/
theorem Member.code_place_wrapped {className : String} {ms : List Member} {known : List Binding} {n : Nat}
    (h : ∀ u ∈ place .exact className ms (({} : Scope).defineAll .exact known) n, u.Fits) :
    (place .wrapped className ms (({} : Scope).defineAll .wrapped known) n).flatMap (Placed.code · .wrapped) =
      (place .exact className ms (({} : Scope).defineAll .exact known) n).flatMap (Placed.code · .exact) := by
  induction ms generalizing known n with
  | nil => rfl
  | cons m ms ih =>
    cases m with
    | routine r =>
      rw [place, List.forall_mem_cons] at h
      have henv : r.environment .wrapped className _ = r.environment .exact className _ :=
        Environment.declaring_wrapped h.1.environment
      rw [place, place, List.flatMap_cons, List.flatMap_cons, henv, Placed.code_wrapped h.1.calls, ih h.2]
    | _ =>
      rw [place, ← Scope.defineAll_append] at h
      · rw [place, place, ← Scope.defineAll_append, ← Scope.defineAll_append, ih h]
        all_goals
          intro r hr
          cases hr
      · intro r hr
        cases hr

/-- The code of a class in which everything fits is the same however it is counted. -/
theorem Class.code_wrapped {c : Class} {n : Nat} (h : ∀ u ∈ c.placed .exact n, u.Fits) :
    c.code .wrapped n = c.code .exact n :=
  @Member.code_place_wrapped c.name c.members [] n h

/-- A subroutine that fits when it is counted in 16 bits is the one that is counted exactly. -/
theorem Class.mem_placed_exact_of_fits {c : Class} {n : Nat} {u : Placed} (h : u ∈ c.placed .wrapped n)
    (hu : u.environment.Fits) : u ∈ c.placed .exact n := by
  obtain ⟨front, r, back, hms, rfl⟩ := Member.exists_of_mem_place h
  rw [Routine.behind_wrapped hu]
  exact mem_placed_behind hms .exact n

end Syntax

end JackToVm
