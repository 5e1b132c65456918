import JackToVm.Proofs.Allocation
import JackToVm.Proofs.Points

/-!
The slots of variables. A subroutine needs as many slots of each kind as it has variables of the kind, and its code
reaches no other (`Routine.lt_slots_of_mem_code`). As long as there are numbers for all of them, the header makes room
for the local ones and a scope gives each declaration a slot of its own and never takes one back. Then at each point of
a body different names are in different slots (`Environment.Slotted.resolves`), and the slot of the receiver is `this`,
which is no name in a source.
-/

namespace JackToVm

open Vm (Instruction Segment)

/-! ### Names at a point -/

def Variable.slot (v : Variable) : Segment × Nat :=
  (.ofKind v.kind, v.index)

/-- The slot that a subroutine keeps for its receiver. -/
def RoutineKind.receiverSlot? : RoutineKind → Option (Segment × Nat)
  | .method => some (.argument, 0)
  | .constructor_ => some (.local_, 0)
  | .function => none

/-- What the names of a source stand for where the pass is in a subroutine: different names for different slots, no
written name for the receiver, and a name of the subroutine for nothing of the class. -/
structure State.Resolves (s : State) (kind : RoutineKind) (written : List Lexeme) : Prop where
  distinct : ∀ x y v w, s.lookup? x = some v → s.lookup? y = some w → x ≠ y → v.slot ≠ w.slot
  receiver : ∀ x v, .identifier x ∈ written → s.lookup? x = some v → kind.receiverSlot? ≠ some v.slot
  hides : ∀ x v, s.routineScope.get? x = some v → s.lookup? x = some v ∧ s.classScope.get? x ≠ some v

theorem Scope.suffix_declared_defineAll (k : Counting) (s : Scope) (bs : List Binding) :
    s.declared <:+ (s.defineAll k bs).declared := by
  induction bs generalizing s with
  | nil => exact List.suffix_refl _
  | cons b bs ih =>
    refine List.IsSuffix.trans ?_ (ih (s.enter k b))
    rw [enter, declared_record]
    exact List.suffix_cons ..

open Syntax

namespace Environment

theorem Grows.suffix {env env' : Environment} (h : env.Grows env') :
    env'.classScope = env.classScope ∧ env.routineScope.declared <:+ env'.routineScope.declared := by
  obtain ⟨locals, -, rfl⟩ := h
  exact ⟨rfl, Scope.suffix_declared_defineAll ..⟩

/-- A point of a body has no more variables than its end. -/
theorem Grows.fits {env env' : Environment} (h : env.Grows env') (hf : env'.Fits) : env.Fits := by
  intro kind
  obtain ⟨hclass, hroutine⟩ := h.suffix
  refine Nat.lt_of_le_of_lt ?_ (hf kind)
  rw [hclass]
  exact (hroutine.sublist.append_left _).countP_le

/-- Variables that fit have slots of their own behind the head of a subroutine. -/
theorem Fits.slotted {r : Routine} {className : String} {front : List Member} {env : Environment} (h : env.Fits)
    (hg : (r.outset className (({} : Scope).defineAll .wrapped (front.flatMap Member.bindings))).Grows env) :
    env.Slotted := by
  obtain ⟨locals, hlocals, rfl⟩ := hg
  rw [Routine.outset, ← Scope.defineAll_append] at h ⊢
  have hexact := declaring_wrapped h
  rw [declaring] at hexact
  rw [hexact]
  constructor
  · refine (Scope.Slotted.empty true).defineAll fun b hb => ?_
    obtain ⟨m, -, hm⟩ := List.mem_flatMap.mp hb
    exact Member.ofClass_of_mem_bindings hm
  · refine (Scope.Slotted.empty false).defineAll fun b hb => ?_
    rcases List.mem_append.mp hb with hb | hb
    · exact Routine.ofClass_of_mem_bindings (List.mem_append_left _ hb)
    · rw [hlocals b hb]
      rfl

end Environment

/-- The receiver is declared first, so its slot is the first one of its kind. -/
theorem Syntax.Routine.exists_receiver (r : Routine) (className : String) (classScope : Scope)
    {slot : Segment × Nat} (h : r.kind.receiverSlot? = some slot) :
    ∃ v ∈ (r.outset className classScope).routineScope.declared, v.name = "this" ∧ v.slot = slot := by
  have hreceiver : ∃ v ∈ (({} : Scope).defineAll .wrapped (receiver className r.kind)).declared,
      v.name = "this" ∧ v.slot = slot := by
    cases hk : r.kind with
    | function =>
      rw [hk] at h
      cases h
    | method | constructor_ =>
      rw [hk] at h
      cases h
      exact ⟨_, List.mem_singleton.mpr rfl, rfl, rfl⟩
  obtain ⟨v, hv, hthis⟩ := hreceiver
  rw [outset, Scope.defineAll_append]
  exact ⟨v, (Scope.suffix_declared_defineAll ..).mem hv, hthis⟩

/-- Two declarations of a scope that have one slot are the same. -/
theorem Scope.Slotted.eq_of_slot {s : Scope} {ofClass : Bool} (h : s.Slotted ofClass) {v w : Variable}
    (hv : v ∈ s.declared) (hw : w ∈ s.declared) (hs : v.slot = w.slot) : v = w := by
  obtain ⟨hk, hi⟩ := Prod.mk.inj hs
  by_contra hne
  exact h.apart.forall hv hw hne (Segment.ofKind_inj hk) hi

/-- Names in an environment that has the variables of a subroutine. -/
theorem Environment.Slotted.resolves {s : State} (h : s.environment.Slotted) {kind : RoutineKind}
    {written : List Lexeme} (hthis : .identifier "this" ∉ written)
    (hr : ∀ slot, kind.receiverSlot? = some slot →
      ∃ v ∈ s.routineScope.declared, v.name = "this" ∧ v.slot = slot) : s.Resolves kind written where
  distinct x y v w hv hw hne hslot := by
    obtain ⟨hk, hi⟩ := Prod.mk.inj hslot
    exact hne (h.name_eq hv hw (Segment.ofKind_inj hk) hi)
  receiver x v hx hv hslot := by
    obtain ⟨w, hw, hname, heq⟩ := hr _ hslot
    rw [State.lookup?_eq] at hv
    rcases lookup?_cases hv with hv | hv
    · obtain ⟨hmem, rfl⟩ := Scope.mem_of_get? hv
      rw [← h.ofRoutine.eq_of_slot hw hmem heq, hname] at hx
      exact hthis hx
    · -- The slot of a receiver is none of a class variable.
      have hclass := h.ofClass.kind v (Scope.mem_of_get? hv).1
      rw [← Segment.ofKind_inj (Prod.mk.inj heq).1, h.ofRoutine.kind w hw] at hclass
      cases hclass
  hides x v hv := by
    refine ⟨by rw [State.lookup?, hv]; rfl, fun hc => ?_⟩
    have hroutine := h.ofRoutine.kind v (Scope.mem_of_get? hv).1
    rw [h.ofClass.kind v (Scope.mem_of_get? hc).1] at hroutine
    cases hroutine

/-! ### Slots of a class that compiles -/

/-- The header of a subroutine has its local variables, counted in 16 bits. -/
theorem Syntax.Routine.count_local_behind (r : Routine) (className : String) (front : List Member) (n : Nat) :
    (r.behind .wrapped className front {} n).environment.routineScope.count .local_ =
      r.slots front .local_ % 65536 := by
  rw [← r.countP_bindings className front .local_, countP_memberBindings front rfl, Nat.zero_add]
  exact Scope.count_defineAll _

open Vm (blocksOf)

/-- The slots of variables: when a class compiles, the output has one block for each subroutine, and the block
reaches no slot behind those of the variables that are declared in the subroutine and in front of it. When these are
fewer than 65536 of each kind, the header of the block makes room for the local ones, and at each point of the body
different names are in different slots, the receiver has a slot that no written name stands for, and the names of the
subroutine hide those of the class. -/
theorem slots_of_compile (source : String) (labels : Vm.Labels)
    (h : (compile source labels.next).resultAfter ((compile source labels.next).deliver none labels) = .ok ()) :
    ((compile source labels.next).deliver none labels).sink.bytes = (compile source labels.next).text.toUTF8 ∧
    ∃ (tokens : List Token) (c : Syntax.Class), Item.ofSource source = tokens.map .ok ∧
      c.lexemes = tokens.map (·.lexeme) ∧
      (blocksOf (compile source labels.next).code).length = c.routines.length ∧
      ∀ front r back, c.members = front ++ .routine r :: back →
        (∃ block,
          (blocksOf (compile source labels.next).code)[(front.filterMap Member.routine?).length]? = some block ∧
          block.head? = some (.function s!"{c.name}.{r.name}" (r.slots front .local_ % 65536)) ∧
          ∀ kind k, .push (.ofKind kind) k ∈ block ∨ .pop (.ofKind kind) k ∈ block → k < r.slots front kind) ∧
        ((∀ kind, r.slots front kind < 65536) → r.slots front .local_ % 65536 = r.slots front .local_ ∧
          ∀ before, before <+: tokens → r.Point c.name front (before.map (·.lexeme)) →
            ∃ events agenda s, events <+: (compile source labels.next).trace ∧
              Goal.Reaches Goal.ofClass { labels := { next := labels.next } } before events agenda s ∧
              s.Resolves r.kind (tokens.map (·.lexeme))) := by
  rw [Compilation.resultAfter_deliver_none] at h
  obtain ⟨tokens, c, hi, hl, hu, hc, hrun⟩ := exists_run_of_compile h
  refine ⟨Compilation.bytes_deliver_none .., tokens, c, hi, hl, ?_, ?_⟩
  · rw [hc, Class.blocksOf_code, ← c.map_routine_placed .wrapped labels.next, List.length_map, List.length_map]
  · intro front r back hms
    refine ⟨⟨(r.behind .wrapped c.name front {} labels.next).code .wrapped, ?_, ?_, ?_⟩, ?_⟩
    · rw [hc, Class.blocksOf_code, List.getElem?_map, Class.getElem?_placed hms, Option.map_some]
    · rw [← r.count_local_behind c.name front labels.next]
      rfl
    · rintro kind k (hk | hk)
      · exact Routine.lt_slots_of_mem_code kind hk (Or.inl rfl)
      · exact Routine.lt_slots_of_mem_code kind hk (Or.inr rfl)
    · intro hfits
      refine ⟨Nat.mod_eq_of_lt (hfits .local_), ?_⟩
      rintro before ⟨after, rfl⟩ hp
      obtain ⟨agenda, s, events, more, hbefore, -, htrace⟩ := hrun.split
      obtain ⟨_, _, s', hpoint, hgrows, hend⟩ := environment_of_point hu hms hp labels.next
      obtain ⟨-, rfl⟩ := hbefore.unique hpoint
      have hs : s.environment.Slotted := (hend.fits (Routine.fits_behind_iff.mpr hfits)).slotted hgrows
      refine ⟨events, agenda, s, ⟨more, htrace.symm⟩, hbefore, hs.resolves (this_not_mem_of_ofSource hi) ?_⟩
      intro slot hslot
      obtain ⟨v, hv, hname⟩ := r.exists_receiver c.name _ hslot
      exact ⟨v, hgrows.suffix.2.mem hv, hname⟩

/-- A class with names that are declared again, in the same scope and in another one. -/
def againSource : String :=
  "class P { static int x; field int x, y; method int f(int x, int x) { var int y, y; let y = x; return y; } }"

def againFront : List Member :=
  [.statics { type := .int, first := "x", more := [] }, .fields { type := .int, first := "x", more := ["y"] }]

def againMethod : Routine where
  kind := .method
  result? := some .int
  name := "f"
  parameters := [{ type := .int, name := "x" }, { type := .int, name := "x" }]
  locals := [{ type := .int, first := "y", more := ["y"] }]
  body := .cons (.assign "y" (.of (.read "x") .none)) (.cons (.returnValue (.of (.read "y") .none)) .nil)

def againClass : Syntax.Class where
  name := "P"
  members := againFront ++ [.routine againMethod]

theorem slots_of_compile_again :
    [.static, .field, .argument, .local_].map (againMethod.slots againFront) = [1, 2, 3, 2] ∧
    (∃ block, (blocksOf (compile againSource 0).code)[0]? = some block ∧ block.head? = some (.function "P.f" 2) ∧
      ∀ kind k, .push (.ofKind kind) k ∈ block ∨ .pop (.ofKind kind) k ∈ block →
        k < againMethod.slots againFront kind) ∧
    ∃ (tokens : List Token) (events : List Event) (agenda : List Goal) (s : State),
      Item.ofSource againSource = tokens.map .ok ∧
      Goal.Reaches Goal.ofClass { labels := { next := 0 } } (tokens.take 33) events agenda s ∧
      s.Resolves .method (tokens.map (·.lexeme)) := by
  have hrun : (compile againSource 0).result.isOk = true ∧
      (Item.ofSource againSource).filterMap (fun item => item.toOption.map (·.lexeme)) = againClass.lexemes := by
    decide +kernel
  obtain ⟨hok, hlexemes⟩ := hrun
  obtain ⟨-, tokens, c, hi, hl, -, hall⟩ := slots_of_compile againSource { next := 0 } (resultAfter_of_isOk hok)
  obtain rfl : c = againClass := Class.eq_of_lexemes (by rw [hl, map_lexeme_of_ok hi, hlexemes])
  obtain ⟨⟨block, hblock, hhead, hlt⟩, hfits⟩ := hall againFront againMethod [] rfl
  obtain ⟨-, hpoints⟩ := hfits (by rintro (_ | _ | _ | _) <;> decide)
  -- The point behind `let y =`, the ninth token of the body.
  obtain ⟨events, agenda, s, -, hreaches, hresolves⟩ := hpoints (tokens.take 33) (List.take_prefix ..)
    ⟨againMethod.bodyPhrase.lexemes.take 9, List.take_prefix .., by rw [List.map_take, ← hl]; decide +kernel⟩
  exact ⟨by decide, ⟨block, hblock, hhead, hlt⟩, tokens, events, agenda, s, hi, hreaches, hresolves⟩

end JackToVm
