import Mathlib.Data.Finset.Card
import JackToVm.Proofs.Wrapping

/-!
A scope and its history. Only the declarations since the last reset count (`after_eq_defineAll`), so a scope is known
from this list: a name is bound by its last declaration, and, with fewer than 65536 declarations of each kind, the
number of a variable is how many declarations of its kind stand in front of it (`records_defineAll`).
-/

namespace JackToVm

/-! ### Changes -/

/-- What changes a scope. -/
inductive Change where
  | define (binding : Binding)
  | reset
deriving DecidableEq, Repr

/-- The declarations since the last reset, the oldest first. -/
def Change.sinceReset (changes : List Change) : List Binding :=
  changes.foldl (fun known change =>
    match change with
    | define b => known ++ [b]
    | reset => []) []

/-- The variable that is declared behind other declarations. -/
def Binding.behind (b : Binding) (front : List Binding) : Variable :=
  { name := b.name, type := b.type, kind := b.kind, index := front.countP (·.kind = b.kind) }

namespace Scope

def apply (s : Scope) : Change → Scope
  | .define b => s.define b.name b.type b.kind
  | .reset => s.reset

def after (s : Scope) (changes : List Change) : Scope :=
  changes.foldl apply s

/-- What is in front of the last reset is forgotten. -/
theorem after_eq_defineAll (changes : List Change) :
    ({} : Scope).after changes = ({} : Scope).defineAll .wrapped (Change.sinceReset changes) := by
  induction changes using List.reverseRecOn with
  | nil => rfl
  | append_singleton changes change ih =>
    rw [after, Change.sinceReset, List.foldl_concat, List.foldl_concat, ← after, ← Change.sinceReset, ih]
    cases change with
    | define b => rw [apply, defineAll_append, defineAll_cons, defineAll_nil, enter_wrapped]
    | reset => rfl

/-! ### Names -/

/-- The last declaration of a name. -/
theorem exists_last {known : List Binding} {name : String} (h : ∃ b ∈ known, b.name = name) :
    ∃ front b back, known = front ++ b :: back ∧ b.name = name ∧ ∀ later ∈ back, later.name ≠ name := by
  induction known with
  | nil => simp at h
  | cons first known ih =>
    by_cases hlater : ∃ b ∈ known, b.name = name
    · obtain ⟨front, b, back, rfl, hb, hback⟩ := ih hlater
      exact ⟨first :: front, b, back, rfl, hb, hback⟩
    · obtain ⟨b, hb, hname⟩ := h
      rcases List.mem_cons.mp hb with rfl | hb
      · exact ⟨[], b, known, rfl, hname, fun later hl heq => hlater ⟨later, hl, heq⟩⟩
      · exact absurd ⟨b, hb, hname⟩ hlater

theorem get?_defineAll_of_ne {k : Counting} {s : Scope} {known : List Binding} {name : String}
    (h : ∀ b ∈ known, b.name ≠ name) : (s.defineAll k known).get? name = s.get? name := by
  induction known generalizing s with
  | nil => rfl
  | cons b known ih =>
    rw [List.forall_mem_cons] at h
    rw [defineAll_cons, ih h.2, enter, get?_record, if_neg h.1]

/-- A name is bound by its last declaration. -/
theorem get?_defineAll_last (k : Counting) (front : List Binding) {back : List Binding} {b : Binding}
    (h : ∀ later ∈ back, later.name ≠ b.name) :
    (({} : Scope).defineAll k (front ++ b :: back)).get? b.name =
      some { b.behind front with index := k.fit (b.behind front).index } := by
  rw [defineAll_append, defineAll_cons, get?_defineAll_of_ne h, enter, get?_record, if_pos rfl, count_defineAll]
  rfl

/-! ### Sizes -/

theorem length_eraseDups (names : List String) : names.eraseDups.length = names.toFinset.card := by
  match names with
  | [] => rfl
  | x :: names =>
    have hmem : x ∉ (names.filter fun y => !y == x).toFinset := by simp
    have hset : (x :: names).toFinset = insert x (names.filter fun y => !y == x).toFinset := by
      ext y
      by_cases hy : y = x <;> simp [hy]
    rw [List.eraseDups_cons, List.length_cons, length_eraseDups, hset, Finset.card_insert_of_notMem hmem]
termination_by names.length
decreasing_by exact Nat.lt_succ_of_le (List.length_filter_le _ _)

theorem map_name_declared (k : Counting) (s : Scope) (known : List Binding) :
    (s.defineAll k known).declared.map (·.name) = (known.map (·.name)).reverse ++ s.declared.map (·.name) := by
  induction known generalizing s with
  | nil => rfl
  | cons b known ih => rw [defineAll_cons, ih, enter, declared_record]; simp

/-! ### Numbers -/

/-- Of two declarations, the later one has the larger number when they are of one kind. -/
theorem index_behind_lt {front middle : List Binding} {b c : Binding} (h : b.kind = c.kind) :
    (b.behind front).index < (c.behind (front ++ b :: middle)).index := by
  simp only [Binding.behind, List.countP_append, List.countP_cons, h, decide_true, if_true]
  omega

theorem index_behind_lt_count (front back : List Binding) (b : Binding) :
    (b.behind front).index < (front ++ b :: back).countP (·.kind = b.kind) := by
  simp only [Binding.behind, List.countP_append, List.countP_cons, decide_true, if_true]
  omega

/-! ### What a scope says -/

/-- What a scope says when these are its declarations, the oldest first. -/
structure Records (s : Scope) (known : List Binding) : Prop where
  /-- A name is bound by its last declaration. -/
  found : ∀ front b back, known = front ++ b :: back → (∀ later ∈ back, later.name ≠ b.name) →
    s.get? b.name = some { name := b.name, type := b.type, kind := b.kind, index := front.countP (·.kind = b.kind) } ∧
    s.kindOf? b.name = some b.kind ∧ s.typeOf? b.name = some b.type ∧
    s.indexOf? b.name = some (front.countP (·.kind = b.kind))
  missing : ∀ name, (∀ b ∈ known, b.name ≠ name) →
    s.get? name = none ∧ s.kindOf? name = none ∧ s.typeOf? name = none ∧ s.indexOf? name = none
  count : ∀ kind, s.count kind = known.countP (·.kind = kind)
  size : s.size = (known.map (·.name)).toFinset.card
  isEmpty : s.isEmpty = true ↔ known = []
  /-- Two names of one kind have different numbers, and both are below the count of the kind. -/
  apart : ∀ x y v w, s.get? x = some v → s.get? y = some w → x ≠ y → v.kind = w.kind →
    v.index ≠ w.index ∧ v.index < s.count v.kind ∧ w.index < s.count v.kind

/-- A bound name has a last declaration, and is bound by it. -/
theorem exists_of_get?_defineAll {known : List Binding} {x : String} {v : Variable}
    (h : (({} : Scope).defineAll .exact known).get? x = some v) :
    ∃ front b back, known = front ++ b :: back ∧ b.name = x ∧ v = b.behind front := by
  by_cases hx : ∃ b ∈ known, b.name = x
  · obtain ⟨front, b, back, rfl, rfl, hback⟩ := exists_last hx
    rw [get?_defineAll_last .exact front hback] at h
    exact ⟨front, b, back, rfl, rfl, (Option.some.inj h).symm⟩
  · rw [get?_defineAll_of_ne fun b hb heq => hx ⟨b, hb, heq⟩] at h
    cases h

theorem index_ne_of_get?_defineAll {known : List Binding} {x y : String} {v w : Variable}
    (hv : (({} : Scope).defineAll .exact known).get? x = some v)
    (hw : (({} : Scope).defineAll .exact known).get? y = some w) (hne : x ≠ y) (hkind : v.kind = w.kind) :
    v.index ≠ w.index := by
  obtain ⟨front, b, back, hb, rfl, rfl⟩ := exists_of_get?_defineAll hv
  obtain ⟨front', c, back', hc, rfl, rfl⟩ := exists_of_get?_defineAll hw
  -- One of the two declarations stands in front of the other.
  rcases List.append_eq_append_iff.mp (hb.symm.trans hc) with ⟨middle, hfront, hrest⟩ | ⟨middle, hfront, hrest⟩
  · cases middle with
    | nil =>
      rw [List.nil_append, List.cons.injEq] at hrest
      exact absurd (congrArg Binding.name hrest.1) hne
    | cons d middle =>
      rw [List.cons_append, List.cons.injEq] at hrest
      rw [hfront, ← hrest.1]
      exact Nat.ne_of_lt (index_behind_lt hkind)
  · cases middle with
    | nil =>
      rw [List.nil_append, List.cons.injEq] at hrest
      exact absurd (congrArg Binding.name hrest.1).symm hne
    | cons d middle =>
      rw [List.cons_append, List.cons.injEq] at hrest
      rw [hfront, ← hrest.1]
      exact (Nat.ne_of_lt (index_behind_lt hkind.symm)).symm

theorem index_lt_of_get?_defineAll {known : List Binding} {x : String} {v : Variable}
    (h : (({} : Scope).defineAll .exact known).get? x = some v) :
    v.index < (({} : Scope).defineAll .exact known).count v.kind := by
  obtain ⟨front, b, back, rfl, -, rfl⟩ := exists_of_get?_defineAll h
  rw [count_defineAll]
  exact index_behind_lt_count front back b

theorem records_defineAll (known : List Binding) : (({} : Scope).defineAll .exact known).Records known where
  found := by
    rintro front b back rfl hback
    have hget := get?_defineAll_last .exact front hback
    rw [kindOf?, typeOf?, indexOf?, hget]
    exact ⟨rfl, rfl, rfl, rfl⟩
  missing := by
    intro name hname
    have hget : (({} : Scope).defineAll .exact known).get? name = none := get?_defineAll_of_ne hname
    rw [kindOf?, typeOf?, indexOf?, hget]
    exact ⟨rfl, rfl, rfl, rfl⟩
  count := by
    intro kind
    rw [count_defineAll]
    rfl
  size := by
    rw [size, length_eraseDups, map_name_declared, List.map_nil, List.append_nil, List.toFinset_reverse]
  isEmpty := by
    rw [isEmpty, List.isEmpty_iff, ← List.map_eq_nil_iff (f := (·.name)), map_name_declared]
    simp
  apart := by
    intro x y v w hv hw hne hkind
    have hlt := index_lt_of_get?_defineAll hw
    rw [← hkind] at hlt
    exact ⟨index_ne_of_get?_defineAll hv hw hne hkind, index_lt_of_get?_defineAll hv, hlt⟩

end Scope

/-- A scope says what its history says. Behind any declarations and resets, only the declarations since the last reset
count. When they are fewer than 65536 of each kind, a name is bound by the last of them that names it, with its type
and kind, and its number is how many of that kind stand in front of it, hidden ones included; a name that none of them
declares is not bound. The count of a kind is how many of them are of the kind, and the size is how many names they
have. -/
theorem scope_records_changes (changes : List Change)
    (h : ∀ kind, (Change.sinceReset changes).countP (·.kind = kind) < 65536) :
    (({} : Scope).after changes).Records (Change.sinceReset changes) := by
  rw [Scope.after_eq_defineAll, Scope.defineAll_wrapped h]
  exact Scope.records_defineAll _

/-- A name that is declared behind a reset, and again with another kind. -/
def againChanges : List Change :=
  [.define ⟨"x", "int", .local_⟩, .reset, .define ⟨"x", "int", .local_⟩, .define ⟨"x", "Point", .argument⟩,
    .define ⟨"y", "char", .local_⟩]

/-- The reset forgets the first declaration, and the second one stays counted. -/
theorem scope_records_changes_again :
    (∀ kind, (Change.sinceReset againChanges).countP (·.kind = kind) < 65536) ∧
    (({} : Scope).after againChanges).get? "x" = some ⟨"x", "Point", .argument, 0⟩ ∧
    (({} : Scope).after againChanges).indexOf? "y" = some 1 ∧ (({} : Scope).after againChanges).count .local_ = 2 := by
  have hfew : ∀ kind, (Change.sinceReset againChanges).countP (·.kind = kind) < 65536 := by
    rintro (_ | _ | _ | _) <;> decide
  have hrecords := scope_records_changes againChanges hfew
  obtain ⟨hx, -⟩ := hrecords.found [⟨"x", "int", .local_⟩] ⟨"x", "Point", .argument⟩ [⟨"y", "char", .local_⟩] rfl
    (by decide)
  obtain ⟨-, -, -, hy⟩ :=
    hrecords.found [⟨"x", "int", .local_⟩, ⟨"x", "Point", .argument⟩] ⟨"y", "char", .local_⟩ [] rfl
    (by decide)
  exact ⟨hfew, hx, hy, hrecords.count .local_⟩

/-- Behind number 65535 the numbers start again: the count of a kind is that of its declarations modulo 65536. -/
theorem count_after_changes (changes : List Change) (kind : Kind) :
    (({} : Scope).after changes).count kind = (Change.sinceReset changes).countP (·.kind = kind) % 65536 := by
  rw [Scope.after_eq_defineAll, Scope.count_defineAll, Counting.fit]

end JackToVm
