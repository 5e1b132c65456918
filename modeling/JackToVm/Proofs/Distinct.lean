import Mathlib.Algebra.GroupWithZero.Nat
import Mathlib.Data.List.Nodup
import Mathlib.Data.List.Pairwise
import JackToVm.Proofs.Machine
import JackToVm.Proofs.Repertoire

/-!
What is different in a subroutine stays different in its code: the label numbers that its statements take are
those of its labels, each of one, and no two names of an environment have the same slot.
-/

namespace JackToVm

/-! ### Names of labels -/

namespace Vm.Labels

theorem toString_inj {m n : Nat} (h : toString m = toString n) : m = n := by
  have hd : Nat.toDigits 10 m = Nat.toDigits 10 n := by
    rw [← Nat.toList_repr, ← Nat.toList_repr]
    exact congrArg String.toList h
  rw [← Nat.ofDigitChars_ten_toDigits (n := m), hd, Nat.ofDigitChars_ten_toDigits]

theorem name_inj {m n : Nat} (h : name m = name n) : m = n :=
  toString_inj (by simpa [name, String.append_right_inj] using h)

/-- The label has this number, in a branch or in a loop. -/
def Has (label : String) (number : Nat) : Prop :=
  label = ifName number ∨ label = whileName number

theorem ifName_ne_whileName (m n : Nat) : ifName m ≠ whileName n := by
  intro h
  have h' := congrArg String.toList h
  simp [ifName, whileName] at h'

theorem Has.number_eq {label : String} {m n : Nat} (hm : Has label m) (hn : Has label n) : m = n := by
  rcases hm with rfl | rfl <;> rcases hn with h | h
  · exact name_inj (by simpa [ifName, String.append_right_inj] using h)
  · exact absurd h (ifName_ne_whileName m n)
  · exact absurd h.symm (ifName_ne_whileName n m)
  · exact name_inj (by simpa [whileName, String.append_right_inj] using h)

instance (label : String) (number : Nat) : Decidable (Has label number) :=
  inferInstanceAs (Decidable (_ ∨ _))

/-- The numbers of the labels go from `low` to below `high`, and each of them is there once. -/
structure Fills (low high : Nat) (labels : List String) : Prop where
  number : ∀ l ∈ labels, ∃ i, Has l i ∧ low ≤ i ∧ i < high
  once : ∀ i, low ≤ i → i < high → labels.countP (Has · i) = 1

namespace Fills
variable {low mid high : Nat} {a b : List String}

theorem nil : Fills low low [] :=
  ⟨by simp, fun i h₁ h₂ => absurd h₂ (Nat.not_lt.mpr h₁)⟩

theorem one {label : String} {n : Nat} (h : Has label n) : Fills n (n + 1) [label] := by
  constructor
  · intro l hl
    exact ⟨n, List.mem_singleton.mp hl ▸ h, Nat.le_refl n, Nat.lt_succ_self n⟩
  · intro i h₁ h₂
    obtain rfl : i = n := by omega
    simp [h]

/-- A number that is not between the two bounds is not there. -/
theorem countP_eq_zero (h : Fills low high a) {i : Nat} (hi : i < low ∨ high ≤ i) : a.countP (Has · i) = 0 := by
  refine List.countP_eq_zero.mpr fun l hl => ?_
  obtain ⟨j, hj, h₁, h₂⟩ := h.number l hl
  simp only [decide_eq_true_eq]
  intro hli
  have := hj.number_eq hli
  omega

theorem append (ha : Fills low mid a) (hb : Fills mid high b) (hl : low ≤ mid) (hh : mid ≤ high) :
    Fills low high (a ++ b) := by
  constructor
  · intro l hm
    rcases List.mem_append.mp hm with h | h
    · obtain ⟨i, hi, h₁, h₂⟩ := ha.number l h
      exact ⟨i, hi, h₁, by omega⟩
    · obtain ⟨i, hi, h₁, h₂⟩ := hb.number l h
      exact ⟨i, hi, by omega, h₂⟩
  · intro i h₁ h₂
    rw [List.countP_append]
    by_cases hi : i < mid
    · rw [ha.once i h₁ hi, hb.countP_eq_zero (Or.inl hi)]
    · rw [ha.countP_eq_zero (Or.inr (Nat.not_lt.mp hi)), hb.once i (Nat.not_lt.mp hi) h₂]

theorem perm (h : Fills low high a) (hp : a.Perm b) : Fills low high b :=
  ⟨fun l hl => h.number l (hp.mem_iff.mpr hl), fun i h₁ h₂ => (hp.countP_eq _).symm.trans (h.once i h₁ h₂)⟩

/-- The two labels of a branch or a loop, and those of the statements in it. -/
theorem wrap {first second : String} {n : Nat} (h₁ : Has first n) (h₂ : Has second (n + 1))
    (h : Fills (n + 2) high a) (hh : n + 2 ≤ high) : Fills n high (first :: second :: a) :=
  append (append (one h₁) (one h₂) (by omega) (by omega)) h (by omega) hh

theorem nodup (h : Fills low high a) : a.Nodup := by
  refine List.nodup_iff_count_le_one.mpr fun l => ?_
  by_cases hl : l ∈ a
  · obtain ⟨i, hi, h₁, h₂⟩ := h.number l hl
    -- All copies of the label have its number.
    rw [← h.once i h₁ h₂]
    refine List.countP_mono_left fun x _ hx => ?_
    obtain rfl := eq_of_beq hx
    exact decide_eq_true hi
  · rw [List.count_eq_zero_of_not_mem hl]
    exact Nat.zero_le 1

end Fills

end Vm.Labels

/-! ### Labels of code -/

namespace Syntax
open Vm (Instruction labelsOf labelsOf_cons)
open Vm.Labels (Fills Has ifName whileName)

section
variable {env : Environment}

theorem label?_of_ofExpression {i : Instruction} (h : i.OfExpression env) : i.label? = none := by
  cases h <;> rfl

theorem labelsOf_of_ofExpression {code : List Instruction} (h : ∀ i ∈ code, i.OfExpression env) :
    labelsOf code = [] :=
  List.filterMap_eq_nil_iff.mpr fun i hi => label?_of_ofExpression (h i hi)

end

section
variable {k : Counting} (env : Environment)

theorem labelsOf_read (x : String) : labelsOf (env.read x) = [] :=
  labelsOf_of_ofExpression (ofExpression_read env x)

theorem labelsOf_write (x : String) : labelsOf (env.write x) = [] := by
  cases h : env.lookup? x <;> simp [Environment.write, h, labelsOf, Instruction.label?, Instruction.popVariable]

theorem Term.labelsOf_code (t : Term) : labelsOf (t.code k env) = [] :=
  labelsOf_of_ofExpression (t.ofExpression_code env)

theorem Expression.labelsOf_code (e : Expression) : labelsOf (e.code k env) = [] :=
  labelsOf_of_ofExpression (e.ofExpression_code env)

theorem Expression.labelsOf_jumpUnless (e : Expression) (target : String) :
    labelsOf (e.jumpUnless k env target) = [] := by
  simp [Expression.jumpUnless, e.labelsOf_code, labelsOf_cons, Instruction.label?]

mutual

/-- The labels of statements have the numbers that the statements take. -/
theorem Statement.fills_labelsOf_code : ∀ (s : Statement) (n : Nat),
    Fills n (n + s.draws) (labelsOf (s.code k env n))
  | .assign x value, n => by
    simpa [Statement.code, Statement.draws, value.labelsOf_code, labelsOf_write] using Fills.nil
  | .assignElement x index value, n => by
    simpa [Statement.code, Statement.draws, index.labelsOf_code, value.labelsOf_code, labelsOf_read, labelsOf_cons,
      Instruction.label?] using Fills.nil
  | .if_ condition body, n => by
    have hb := body.fills_labelsOf_code (n + 2)
    have hw := Fills.wrap (.inl rfl : Has (ifName n) n) (.inl rfl : Has (ifName (n + 1)) (n + 1)) hb (by omega)
    simp only [Statement.code, Statement.draws, Vm.labelsOf_append, condition.labelsOf_jumpUnless, labelsOf_cons,
      Instruction.label?, Option.toList, Vm.labelsOf_nil, List.nil_append, List.cons_append]
    rw [show n + (body.draws + 2) = n + 2 + body.draws by omega]
    exact hw.perm (List.perm_append_comm : ([_, _] ++ _).Perm _)
  | .ifElse condition body alternative, n => by
    have hb := body.fills_labelsOf_code (n + 2)
    have ha := alternative.fills_labelsOf_code (n + 2 + body.draws)
    have hw := Fills.wrap (.inl rfl : Has (ifName n) n) (.inl rfl : Has (ifName (n + 1)) (n + 1))
      (hb.append ha (by omega) (by omega)) (by omega)
    simp only [Statement.code, Statement.draws, Vm.labelsOf_append, condition.labelsOf_jumpUnless, labelsOf_cons,
      Instruction.label?, Option.toList, Vm.labelsOf_nil, List.nil_append, List.cons_append]
    rw [show n + (body.draws + alternative.draws + 2) = n + 2 + body.draws + alternative.draws by omega]
    refine hw.perm ?_
    grind
  | .while_ condition body, n => by
    have hb := body.fills_labelsOf_code (n + 2)
    have hw := Fills.wrap (.inr rfl : Has (whileName n) n) (.inr rfl : Has (whileName (n + 1)) (n + 1)) hb
      (by omega)
    simp only [Statement.code, Statement.draws, Vm.labelsOf_append, condition.labelsOf_jumpUnless, labelsOf_cons,
      Instruction.label?, Option.toList, Vm.labelsOf_nil, List.nil_append, List.cons_append]
    rw [show n + (body.draws + 2) = n + 2 + body.draws by omega]
    exact hw.perm ((List.perm_append_singleton ..).symm.cons _)
  | .do_ term, n => by
    simpa [Statement.code, Statement.draws, term.labelsOf_code, labelsOf_cons, Instruction.label?] using Fills.nil
  | .return_, n => Fills.nil
  | .returnValue value, n => by
    simpa [Statement.code, Statement.draws, value.labelsOf_code, labelsOf_cons, Instruction.label?] using Fills.nil

theorem Block.fills_labelsOf_code : ∀ (b : Block) (n : Nat),
    Fills n (n + b.draws) (labelsOf (b.code k env n))
  | .nil, n => Fills.nil
  | .cons first rest, n => by
    have hf := first.fills_labelsOf_code n
    have hr := rest.fills_labelsOf_code (n + first.draws)
    rw [Block.code, Block.draws, Vm.labelsOf_append, ← Nat.add_assoc]
    exact hf.append hr (by omega) (by omega)

end

end

namespace Placed
variable {k : Counting}

theorem labelsOf_code (u : Placed) :
    labelsOf (u.code k) = labelsOf (u.routine.body.code k u.environment u.start) := by
  have hp : labelsOf u.prologue = [] := by
    cases h : u.routine.kind <;> simp [prologue, h, labelsOf, Instruction.label?, Instruction.pushConstant]
  have he : ∀ void returned, labelsOf (epilogue void returned) = [] := by
    intro void returned
    cases void <;> cases returned <;> rfl
  rw [code, bodyCode, Vm.labelsOf_append, Vm.labelsOf_append, hp, he, List.nil_append, List.append_nil]

theorem fills_labelsOf_code (u : Placed) :
    Fills u.start (u.start + u.routine.body.draws) (labelsOf (u.code k)) := by
  rw [labelsOf_code]
  exact u.routine.body.fills_labelsOf_code u.environment u.start

/-- No label stands twice in the code of a subroutine. -/
theorem nodup_labelsOf_code (u : Placed) : (labelsOf (u.code k)).Nodup :=
  u.fills_labelsOf_code.nodup

end Placed

/-- How many label numbers a member takes. -/
def Member.draws : Member → Nat
  | .routine r => r.body.draws
  | _ => 0

theorem Member.draws_eq_zero {m : Member} (h : ∀ r, m ≠ .routine r) : m.draws = 0 := by
  cases m with
  | routine r => exact absurd rfl (h r)
  | _ => rfl

/-- The labels of a class have the numbers that its members take, one member after the other. -/
theorem Member.fills_labelsOf_place (k : Counting) (className : String) (ms : List Member) (scope : Scope) (n : Nat) :
    Fills n (n + (ms.map draws).sum) (labelsOf ((place k className ms scope n).flatMap (Placed.code · k))) := by
  fun_induction place k className ms scope n with
  | case1 => exact Fills.nil
  | case2 r ms scope n ih =>
    have hr : Fills _ _ (labelsOf (Placed.code _ k)) :=
      Placed.fills_labelsOf_code { routine := r, environment := r.environment k className scope, start := n }
    rw [List.flatMap_cons, Vm.labelsOf_append, List.map_cons, List.sum_cons, ← Nat.add_assoc]
    exact hr.append ih (Nat.le_add_right n _) (Nat.le_add_right _ _)
  | case3 m ms scope n hm ih =>
    rw [List.map_cons, List.sum_cons, draws_eq_zero hm, Nat.zero_add]
    exact ih

/-- How many label numbers a class takes. -/
def Class.draws (c : Class) : Nat :=
  (c.members.map Member.draws).sum

theorem Class.fills_labelsOf_code (c : Class) (k : Counting) (n : Nat) :
    Fills n (n + c.draws) (labelsOf (c.code k n)) :=
  Member.fills_labelsOf_place k c.name c.members {} n

theorem Class.nodup_labelsOf_code (c : Class) (k : Counting) (n : Nat) : (labelsOf (c.code k n)).Nodup :=
  (c.fills_labelsOf_code k n).nodup

end Syntax

/-! ### Slots -/

/-- Tells whether variables of this kind belong to a class, and not to a subroutine. -/
def Kind.ofClass : Kind → Bool
  | .static | .field => true
  | .argument | .local_ => false

/-- Two variables are in different slots. -/
def Variable.Apart (v w : Variable) : Prop :=
  v.kind = w.kind → v.index ≠ w.index

instance : Std.Symm Variable.Apart :=
  ⟨fun _ _ h hk hi => h hk.symm hi.symm⟩

/-- All variables of a scope belong to a class, or all to a subroutine, and no two of one kind have the same
number, hidden ones included. A scope that is counted in 16 bits may have more variables than numbers. -/
structure Scope.Slotted (s : Scope) (ofClass : Bool) : Prop where
  kind : ∀ v ∈ s.declared, v.kind.ofClass = ofClass
  index_lt : ∀ v ∈ s.declared, v.index < s.count v.kind
  apart : s.declared.Pairwise Variable.Apart

namespace Scope

theorem mem_of_get? {s : Scope} {x : String} {v : Variable} (h : s.get? x = some v) :
    v ∈ s.declared ∧ v.name = x :=
  ⟨List.mem_of_find?_eq_some h, by simpa using List.find?_some h⟩

namespace Slotted
variable {s : Scope} {ofClass : Bool}

theorem empty (ofClass : Bool) : ({} : Scope).Slotted ofClass :=
  ⟨by simp, by simp, .nil⟩

theorem enter (h : s.Slotted ofClass) {b : Binding} (hk : b.kind.ofClass = ofClass) :
    (s.enter .exact b).Slotted ofClass := by
  constructor
  · intro v hv
    rw [Scope.enter, declared_record] at hv
    rcases List.mem_cons.mp hv with rfl | hv
    · exact hk
    · exact h.kind v hv
  · intro v hv
    rw [Scope.enter, declared_record] at hv
    rw [Scope.enter, count_record, Counting.fit]
    rcases List.mem_cons.mp hv with rfl | hv
    · simp
    · have hlt := h.index_lt v hv
      split
      case isTrue hkind =>
        rw [hkind] at hlt
        exact Nat.lt_succ_of_lt hlt
      case isFalse => exact hlt
  · rw [Scope.enter, declared_record]
    refine List.pairwise_cons.mpr ⟨fun v hv hkind => ?_, h.apart⟩
    -- The new number is the count of its kind, which is above the numbers that the kind has so far.
    have hlt := h.index_lt v hv
    rw [← hkind] at hlt
    exact (Nat.ne_of_lt hlt).symm

/-- Counted exactly, each declaration has a slot of its own. -/
theorem defineAll (h : s.Slotted ofClass) {bindings : List Binding}
    (hk : ∀ b ∈ bindings, b.kind.ofClass = ofClass) : (s.defineAll .exact bindings).Slotted ofClass := by
  induction bindings generalizing s with
  | nil => exact h
  | cons b bindings ih =>
    rw [List.forall_mem_cons] at hk
    exact ih (h.enter hk.1) hk.2

theorem name_eq (h : s.Slotted ofClass) {x y : String} {v w : Variable} (hx : s.get? x = some v)
    (hy : s.get? y = some w) (hk : v.kind = w.kind) (hi : v.index = w.index) : x = y := by
  obtain ⟨hv, rfl⟩ := mem_of_get? hx
  obtain ⟨hw, rfl⟩ := mem_of_get? hy
  by_cases hvw : v = w
  · rw [hvw]
  · exact absurd hi (h.apart.forall hv hw hvw hk)

end Slotted

end Scope

namespace Environment

/-- The scopes of an environment hold the variables that they should, each in a slot of its own. -/
structure Slotted (env : Environment) : Prop where
  ofClass : env.classScope.Slotted true
  ofRoutine : env.routineScope.Slotted false

theorem lookup?_cases {env : Environment} {x : String} {v : Variable} (h : env.lookup? x = some v) :
    env.routineScope.get? x = some v ∨ env.classScope.get? x = some v := by
  rw [lookup?, Option.orElse_eq_orElse, Option.orElse_eq_or, Option.or_eq_some_iff] at h
  exact h.imp_right And.right

/-- Different names have different slots. -/
theorem Slotted.name_eq {env : Environment} (h : env.Slotted) {x y : String} {v w : Variable}
    (hx : env.lookup? x = some v) (hy : env.lookup? y = some w) (hk : v.kind = w.kind)
    (hi : v.index = w.index) : x = y := by
  have hclash : ∀ {a b : Variable}, a ∈ env.routineScope.declared → b ∈ env.classScope.declared →
      a.kind ≠ b.kind := by
    intro a b ha hb hab
    have h₁ := h.ofRoutine.kind a ha
    have h₂ := h.ofClass.kind b hb
    rw [hab, h₂] at h₁
    cases h₁
  -- Slots of one kind are slots of one scope, so only names of the same scope could meet.
  rcases lookup?_cases hx with hx | hx <;> rcases lookup?_cases hy with hy | hy
  · exact h.ofRoutine.name_eq hx hy hk hi
  · exact absurd hk (hclash (Scope.mem_of_get? hx).1 (Scope.mem_of_get? hy).1)
  · exact absurd hk.symm (hclash (Scope.mem_of_get? hy).1 (Scope.mem_of_get? hx).1)
  · exact h.ofClass.name_eq hx hy hk hi

end Environment

namespace Syntax

theorem kind_of_mem_bindings {d : Declaration} {kind : Kind} {b : Binding} (h : b ∈ d.bindings kind) :
    b.kind = kind := by
  obtain ⟨x, -, rfl⟩ := List.mem_map.mp h
  rfl

theorem Member.ofClass_of_mem_bindings {m : Member} {b : Binding} (h : b ∈ m.bindings) :
    b.kind.ofClass = true := by
  cases m with
  | statics d => rw [kind_of_mem_bindings h]; rfl
  | fields d => rw [kind_of_mem_bindings h]; rfl
  | routine r => cases h

theorem Routine.ofClass_of_mem_bindings {r : Routine} {className : String} {b : Binding}
    (h : b ∈ r.bindings className) : b.kind.ofClass = false := by
  rcases List.mem_append.mp h with h | h
  · rcases List.mem_append.mp h with h | h
    · cases hk : r.kind <;> simp [receiver, hk] at h <;> rw [h] <;> rfl
    · obtain ⟨p, -, rfl⟩ := List.mem_map.mp h
      rfl
  · obtain ⟨d, -, hd⟩ := List.mem_flatMap.mp h
    rw [kind_of_mem_bindings hd]
    rfl

theorem Member.slotted_of_mem_place {className : String} {ms : List Member} {scope : Scope} {n : Nat}
    {u : Placed} (hs : scope.Slotted true) (h : u ∈ place .exact className ms scope n) : u.environment.Slotted := by
  fun_induction place .exact className ms scope n with
  | case1 => cases h
  | case2 scope n r ms ih =>
    rcases List.mem_cons.mp h with rfl | h
    · exact ⟨hs, (Scope.Slotted.empty false).defineAll fun b => Routine.ofClass_of_mem_bindings⟩
    · exact ih hs h
  | case3 scope n m ms hm ih =>
    exact ih (hs.defineAll fun b => ofClass_of_mem_bindings) h

theorem Class.slotted_of_mem_placed {c : Class} {n : Nat} {u : Placed} (h : u ∈ c.placed .exact n) :
    u.environment.Slotted :=
  Member.slotted_of_mem_place (.empty true) h

end Syntax

end JackToVm
