import JackToVm.Proofs.Wrapping

/-!
How large the objects of a class are. A constructor asks for one word for each field that is declared in
front of it, counted in 16 bits, and a subroutine reaches no field but those declared in front of it. So all
objects have a word for each field exactly when no field is declared behind a constructor and a class with a
constructor has fewer than 65536 fields.
-/

namespace JackToVm

namespace Vm

/-- The size of the object that the block of a constructor asks for. -/
def allocated? : List Instruction → Option Nat
  | .function _ _ :: .push .constant size :: .call "Memory.alloc" 1 :: .pop .pointer 0 :: _ => some size
  | _ => none

theorem pop_mem_of_allocated? {name : String} {locals size : Nat} {body : List Instruction}
    (h : allocated? (.function name locals :: body) = some size) : .pop .pointer 0 ∈ body := by
  unfold allocated? at h
  split at h
  · rename_i heq
    rw [(List.cons.inj heq).2]
    simp
  · cases h

end Vm

/-! ### Counting fields -/

theorem Vm.Segment.ofKind_inj {kind k : Kind} (h : ofKind kind = ofKind k) : kind = k := by
  cases kind <;> cases k <;> first | rfl | cases h

namespace Syntax
open Vm (Instruction allocated?)

def Member.fieldNames : Member → List String
  | .fields d => d.names
  | _ => []

/-- The fields that members declare. A name that is declared twice is there twice. -/
def fieldNames (ms : List Member) : List String :=
  ms.flatMap Member.fieldNames

theorem length_fieldNames (ms : List Member) :
    (fieldNames ms).length = (ms.flatMap Member.bindings).countP (·.kind = .field) := by
  induction ms with
  | nil => rfl
  | cons m ms ih =>
    rw [fieldNames] at ih ⊢
    rw [List.flatMap_cons, List.length_append, List.flatMap_cons, List.countP_append, ih]
    cases m <;> simp [Member.fieldNames, Member.bindings, countP_bindings]

theorem length_fieldNames_append (front back : List Member) (r : Routine) :
    (fieldNames (front ++ .routine r :: back)).length = (fieldNames front).length + (fieldNames back).length := by
  simp [fieldNames, Member.fieldNames]

/-! ### Constructors -/

/-- No field is declared behind a constructor. -/
def Class.FieldsFirst (c : Class) : Prop :=
  ∀ front r back, c.members = front ++ .routine r :: back → r.kind = .constructor_ → fieldNames back = []

/-- A class with a constructor has fewer than 65536 fields. -/
def Class.FieldsFit (c : Class) : Prop :=
  ∀ front r back, c.members = front ++ .routine r :: back → r.kind = .constructor_ →
    (fieldNames c.members).length < 65536

/-- Statements reach the segment of a kind through variables of the kind only. -/
theorem exists_variable_of_ofStatement {env : Environment} {i : Instruction} {kind : Kind} {k : Nat}
    (h : i.OfStatement env) (hi : i = .push (.ofKind kind) k ∨ i = .pop (.ofKind kind) k) :
    ∃ x v, env.lookup? x = some v ∧ v.kind = kind ∧ v.index = k := by
  cases h with
  | expression h =>
    cases h with
    | read hv =>
      rcases hi with hi | hi
      · obtain ⟨hk, rfl⟩ := Instruction.push.inj hi
        exact ⟨_, _, hv, Vm.Segment.ofKind_inj hk, rfl⟩
      · cases hi
    | _ => cases kind <;> simp [Instruction.pushConstant, Vm.Segment.ofKind] at hi
  | write hv =>
    rcases hi with hi | hi
    · cases hi
    · obtain ⟨hk, rfl⟩ := Instruction.pop.inj hi
      exact ⟨_, _, hv, Vm.Segment.ofKind_inj hk, rfl⟩
  | _ => cases kind <;> simp [Vm.Segment.ofKind] at hi

/-- No statement moves the receiver. -/
theorem ne_pop_pointer_of_ofStatement {env : Environment} {i : Instruction} (h : i.OfStatement env) :
    i ≠ .pop .pointer 0 := by
  intro hi
  cases h with
  | expression h => cases h <;> simp [Instruction.pushConstant, Instruction.pushVariable] at hi
  | @write x v hv =>
    have hk := (Instruction.pop.inj hi).1
    cases hkind : v.kind <;> simp [hkind, Vm.Segment.ofKind] at hk
  | _ => simp at hi

/-- In front of the statements only a method reaches a slot: that of its receiver. -/
theorem Placed.of_mem_prologue {u : Placed} {i : Instruction} {kind : Kind} {k : Nat} (h : i ∈ u.prologue)
    (hi : i = .push (.ofKind kind) k ∨ i = .pop (.ofKind kind) k) :
    u.routine.kind = .method ∧ kind = .argument ∧ k = 0 := by
  rcases hi with rfl | rfl <;> cases hk : u.routine.kind <;> cases kind <;>
    simp [prologue, hk, Instruction.pushConstant, Vm.Segment.ofKind] at h
  exact ⟨rfl, rfl, h⟩

/-- A subroutine reaches no slot but those of its variables and, as a method, that of its receiver. -/
theorem Routine.lt_slots_of_mem_code {r : Routine} {k : Counting} {className : String} {front : List Member}
    {n : Nat} {i : Instruction} {slot : Nat} (kind : Kind) (h : i ∈ (r.behind k className front {} n).code k)
    (hi : i = .push (.ofKind kind) slot ∨ i = .pop (.ofKind kind) slot) : slot < r.slots front kind := by
  rcases List.mem_append.mp h with h | h
  · obtain ⟨hmethod, rfl, rfl⟩ := Placed.of_mem_prologue h hi
    have hmethod : r.kind = .method := hmethod
    rw [slots, if_pos hmethod]
    exact Nat.succ_pos _
  · obtain ⟨x, v, hv, rfl, rfl⟩ := exists_variable_of_ofStatement (Placed.ofStatement_bodyCode _ i h) hi
    exact r.index_lt_slots k className front n hv

theorem Routine.lt_of_this_mem {r : Routine} {k : Counting} {className : String} {front : List Member} {n slot : Nat}
    (h : .push .this slot ∈ (r.behind k className front {} n).code k ∨
      .pop .this slot ∈ (r.behind k className front {} n).code k) :
    slot < (fieldNames front).length := by
  rw [length_fieldNames]
  rcases h with h | h
  · exact Routine.lt_slots_of_mem_code .field h (Or.inl rfl)
  · exact Routine.lt_slots_of_mem_code .field h (Or.inr rfl)

theorem Routine.count_field_behind (r : Routine) (k : Counting) (className : String) (front : List Member) (n : Nat) :
    (r.behind k className front {} n).environment.classScope.count .field = k.fit (fieldNames front).length := by
  rw [length_fieldNames]
  exact Scope.count_defineAll _

/-- A constructor asks for the fields in front of it, and no other subroutine asks for an object. -/
theorem Routine.allocated?_behind (r : Routine) (k : Counting) (className : String) (front : List Member) (n : Nat) :
    allocated? ((r.behind k className front {} n).code k) =
      if r.kind = .constructor_ then some (k.fit (fieldNames front).length) else none := by
  have hcount := r.count_field_behind k className front n
  have hbody : .pop .pointer 0 ∉ (r.behind k className front {} n).bodyCode k := fun h =>
    ne_pop_pointer_of_ofStatement (Placed.ofStatement_bodyCode _ _ h) rfl
  have hkind : (r.behind k className front {} n).routine.kind = r.kind := rfl
  rw [Placed.code, Placed.prologue, hkind, hcount]
  cases hk : r.kind with
  | constructor_ => rfl
  | method => rfl
  | function =>
    -- The statements follow the header at once.
    rw [List.singleton_append, if_neg (by simp)]
    by_contra hne
    obtain ⟨size, hsize⟩ := Option.ne_none_iff_exists'.mp hne
    exact hbody (Vm.pop_mem_of_allocated? hsize)

namespace Class
variable {c : Class} {n : Nat}

theorem exists_of_allocated? {u : Placed} {size : Nat} (hu : u ∈ c.placed .wrapped n)
    (hsize : allocated? (u.code .wrapped) = some size) :
    ∃ front r back, c.members = front ++ .routine r :: back ∧ r.kind = .constructor_ ∧
      size = (fieldNames front).length % 65536 := by
  obtain ⟨front, r, back, hms, rfl⟩ := Member.exists_of_mem_place hu
  rw [r.allocated?_behind] at hsize
  by_cases hk : r.kind = .constructor_
  · rw [if_pos hk] at hsize
    exact ⟨front, r, back, hms, hk, (Option.some.inj hsize).symm⟩
  · rw [if_neg hk] at hsize
    cases hsize

theorem forall_allocated?_eq_iff :
    (∀ u ∈ c.placed .wrapped n, ∀ size, allocated? (u.code .wrapped) = some size →
        size = (fieldNames c.members).length) ↔
      c.FieldsFirst ∧ c.FieldsFit := by
  constructor
  · intro h
    -- A counter shows no more than there are, so with no field behind them all in front are shown.
    have hsize {front r back} (hms : c.members = front ++ .routine r :: back) (hk : r.kind = .constructor_) :
        (fieldNames front).length % 65536 = (fieldNames front).length + (fieldNames back).length := by
      rw [← length_fieldNames_append front back r, ← hms]
      exact h _ (mem_placed_behind hms .wrapped n) _ (by rw [r.allocated?_behind, if_pos hk, Counting.fit])
    constructor
    · intro front r back hms hk
      have hle := Nat.mod_le (fieldNames front).length 65536
      have hsum := hsize hms hk
      exact List.eq_nil_of_length_eq_zero (by omega)
    · intro front r back hms hk
      have hlt := Nat.mod_lt (fieldNames front).length (by decide : 0 < 65536)
      rw [hms, length_fieldNames_append, ← hsize hms hk]
      exact hlt
  · intro ⟨hfirst, hfit⟩ u hu size hsize
    obtain ⟨front, r, back, hms, hk, rfl⟩ := exists_of_allocated? hu hsize
    have hlt := hfit front r back hms hk
    rw [hms, length_fieldNames_append, hfirst front r back hms hk, List.length_nil, Nat.add_zero] at hlt ⊢
    exact Nat.mod_eq_of_lt hlt

theorem lt_of_this_mem {u : Placed} {slot : Nat} (hu : u ∈ c.placed .wrapped n)
    (h : .push .this slot ∈ u.code .wrapped ∨ .pop .this slot ∈ u.code .wrapped) :
    slot < (fieldNames c.members).length := by
  obtain ⟨front, r, back, hms, rfl⟩ := Member.exists_of_mem_place hu
  rw [hms, length_fieldNames_append]
  exact Nat.lt_add_right _ (Routine.lt_of_this_mem h)

end Class

end Syntax

/-! ### Objects of a class -/

open Syntax
open Vm (allocated? blocksOf)

/-- The size of objects: when a class compiles, the output has one block for each subroutine. That of a
constructor asks for as many words as there are fields in front of the constructor, modulo 65536, and no block
reaches a field that is not in front of its subroutine. So each constructor asks for a word for each field of
the class exactly when no field is declared behind a constructor and a class with a constructor has fewer than
65536 fields, and then all fields that the class reaches are in its objects. -/
theorem allocated_of_compile (source : String) (labels : Vm.Labels)
    (h : (compile source labels.next).resultAfter ((compile source labels.next).deliver none labels) = .ok ()) :
    ((compile source labels.next).deliver none labels).sink.bytes = (compile source labels.next).text.toUTF8 ∧
    ∃ (tokens : List Token) (c : Syntax.Class), Item.ofSource source = tokens.map .ok ∧
      c.lexemes = tokens.map (·.lexeme) ∧
      (blocksOf (compile source labels.next).code).length = c.routines.length ∧
      (∀ front r back, c.members = front ++ .routine r :: back →
        ∃ block,
          (blocksOf (compile source labels.next).code)[(front.filterMap Member.routine?).length]? = some block ∧
          allocated? block =
            (if r.kind = .constructor_ then some ((fieldNames front).length % 65536) else none) ∧
          ∀ k, .push .this k ∈ block ∨ .pop .this k ∈ block → k < (fieldNames front).length) ∧
      ((∀ block ∈ blocksOf (compile source labels.next).code, ∀ size, allocated? block = some size →
          size = (fieldNames c.members).length) ↔ c.FieldsFirst ∧ c.FieldsFit) ∧
      (c.FieldsFirst → c.FieldsFit → ∀ block ∈ blocksOf (compile source labels.next).code, ∀ size,
        allocated? block = some size → ∀ other ∈ blocksOf (compile source labels.next).code, ∀ k,
          .push .this k ∈ other ∨ .pop .this k ∈ other → k < size) := by
  rw [Compilation.resultAfter_deliver_none] at h
  obtain ⟨tokens, c, hi, hl, -, hb, -⟩ := exists_placed_of_compile h
  refine ⟨Compilation.bytes_deliver_none .., tokens, c, hi, hl, ?_⟩
  simp only [hb, List.forall_mem_map]
  refine ⟨?_, ?_, Class.forall_allocated?_eq_iff, ?_⟩
  · rw [← c.map_routine_placed .wrapped labels.next, List.length_map, List.length_map]
  · intro front r back hms
    refine ⟨(r.behind .wrapped c.name front {} labels.next).code .wrapped, ?_, r.allocated?_behind .., ?_⟩
    · rw [List.getElem?_map, Class.getElem?_placed hms, Option.map_some]
    · intro k hk
      exact Routine.lt_of_this_mem hk
  · intro hfirst hfit u hu size hsize other hother k hk
    rw [Class.forall_allocated?_eq_iff.mpr ⟨hfirst, hfit⟩ u hu size hsize]
    exact Class.lt_of_this_mem hother hk

/-- A class whose fields are all declared in front of its constructor. -/
def pointSource : String :=
  "class P { field int x, y; constructor P new() { return this; } method int top() { return y; } }"

def pointClass : Syntax.Class :=
  { name := "P"
    members := [
      .fields { type := .int, first := "x", more := ["y"] },
      .routine {
        kind := .constructor_, result? := some (.named "P"), name := "new", parameters := [], locals := []
        body := .cons (.returnValue (.of (.constant .this) .none)) .nil },
      .routine {
        kind := .method, result? := some .int, name := "top", parameters := [], locals := []
        body := .cons (.returnValue (.of (.read "y") .none)) .nil }] }

theorem allocated_of_compile_point :
    pointClass.FieldsFirst ∧ pointClass.FieldsFit ∧ (fieldNames pointClass.members).length = 2 ∧
      (blocksOf (compile pointSource 0).code).filterMap allocated? = [2] ∧
      ∀ other ∈ blocksOf (compile pointSource 0).code, ∀ k,
        .push .this k ∈ other ∨ .pop .this k ∈ other → k < 2 := by
  have hrun : (compile pointSource 0).result.isOk = true ∧
      (blocksOf (compile pointSource 0).code).filterMap allocated? = [2] := by
    decide +kernel
  obtain ⟨hok, hsizes⟩ := hrun
  obtain ⟨-, tokens, c, hi, hl, -, -, hiff, hlt⟩ :=
    allocated_of_compile pointSource { next := 0 } (resultAfter_of_isOk hok)
  have hlexemes : c.lexemes = pointClass.lexemes := by
    rw [hl, map_lexeme_of_ok hi]
    decide +kernel
  obtain rfl := Class.eq_of_lexemes hlexemes
  obtain ⟨hfirst, hfit⟩ : pointClass.FieldsFirst ∧ pointClass.FieldsFit := by
    refine hiff.mp fun block hblock size hsize => ?_
    have hmem := List.mem_filterMap.mpr ⟨block, hblock, hsize⟩
    rw [hsizes] at hmem
    exact List.mem_singleton.mp hmem
  obtain ⟨block, hblock, htwo⟩ := List.mem_filterMap.mp (hsizes ▸ List.mem_singleton.mpr rfl : 2 ∈ _)
  exact ⟨hfirst, hfit, rfl, hsizes, hlt hfirst hfit block hblock 2 htwo⟩

/-- A class with a field behind its constructor. -/
def lateSource : String :=
  "class A { constructor A new() { return this; } field int x; method int get() { return x; } }"

/-- Objects may be too small: the constructor asks for no word, and the method reads the first one. -/
theorem not_forall_allocated_eq_fieldNames :
    ¬ ∀ (source : String) (labels : Vm.Labels) (tokens : List Token) (c : Syntax.Class),
      (compile source labels.next).resultAfter ((compile source labels.next).deliver none labels) = .ok () →
      Item.ofSource source = tokens.map .ok → c.lexemes = tokens.map (·.lexeme) →
      ∀ block ∈ blocksOf (compile source labels.next).code, ∀ size, allocated? block = some size →
        size = (fieldNames c.members).length ∧
        ∀ other ∈ blocksOf (compile source labels.next).code, ∀ k,
          .push .this k ∈ other ∨ .pop .this k ∈ other → k < size := by
  intro h
  have hrun : (compile lateSource 0).result.isOk = true ∧ blocksOf (compile lateSource 0).code =
      [[.function "A.new" 1, .push .constant 0, .call "Memory.alloc" 1, .pop .pointer 0, .push .pointer 0, .return_],
        [.function "A.get" 0, .push .argument 0, .pop .pointer 0, .push .this 0, .return_]] := by
    decide +kernel
  obtain ⟨hok, hblocks⟩ := hrun
  obtain ⟨tokens, c, hi, hl, -⟩ := exists_tree_of_compile (eq_ok_of_isOk hok)
  have hall := h lateSource { next := 0 } tokens c (resultAfter_of_isOk hok) hi hl
  rw [hblocks] at hall
  obtain ⟨-, hlt⟩ := hall _ List.mem_cons_self 0 rfl
  exact absurd (hlt _ (List.mem_cons_of_mem _ List.mem_cons_self) 0 (Or.inl (by decide))) (Nat.lt_irrefl 0)

end JackToVm
