import JackToVm.Path
import Mathlib.Data.List.Basic
import Mathlib.Data.List.Infix
import Mathlib.Data.List.TakeWhile
import Mathlib.Tactic.Common

/-!
Names of files in a directory. A path that is joined from a directory and a name ends in that name, and a new
extension changes the name alone: the directory in front of it stays as it was written (`withExtension_join`).
The extension of the name itself is cut off before the new one comes, so the name is kept as a whole exactly when
it has none (`splitName_eq_self_iff`).
-/

namespace JackToVm
namespace Path

/-! ### Splitting a text -/

theorem splitSlash_ne_nil (cs : List Char) : splitSlash cs ≠ [] := by
  cases cs with
  | nil => simp [splitSlash]
  | cons c cs =>
    rw [splitSlash]
    split
    · simp
    · split <;> simp

theorem splitSlash_of_not_mem {cs : List Char} (h : '/' ∉ cs) : splitSlash cs = [cs] := by
  induction cs with
  | nil => rfl
  | cons c cs ih =>
    rw [List.mem_cons, not_or] at h
    rw [splitSlash, if_neg (Ne.symm h.1), ih h.2]

/-- A slash divides the segments in front of it from those behind it. -/
theorem splitSlash_append_slash (cs ds : List Char) :
    splitSlash (cs ++ '/' :: ds) = splitSlash cs ++ splitSlash ds := by
  induction cs with
  | nil => simp [splitSlash]
  | cons c cs ih =>
    rw [List.cons_append, splitSlash, splitSlash, ih]
    split
    · rfl
    · cases hcs : splitSlash cs with
      | nil => exact absurd hcs (splitSlash_ne_nil cs)
      | cons => rfl

theorem not_mem_of_mem_splitSlash {cs segment : List Char} (h : segment ∈ splitSlash cs) : '/' ∉ segment := by
  induction cs generalizing segment with
  | nil => simp_all [splitSlash]
  | cons c cs ih =>
    rw [splitSlash] at h
    split at h
    case isTrue =>
      rcases List.mem_cons.mp h with rfl | h
      · exact List.not_mem_nil
      · exact ih h
    case isFalse hc =>
      cases hcs : splitSlash cs with
      | nil => exact absurd hcs (splitSlash_ne_nil cs)
      | cons first rest =>
        rw [hcs] at h ih
        rcases List.mem_cons.mp h with rfl | h
        · rw [List.mem_cons, not_or]
          exact ⟨Ne.symm hc, ih List.mem_cons_self⟩
        · exact ih (List.mem_cons_of_mem _ h)

theorem intercalate_concat {xss : List (List Char)} (h : xss ≠ []) (xs : List Char) :
    ['/'].intercalate (xss ++ [xs]) = ['/'].intercalate xss ++ '/' :: xs := by
  induction xss with
  | nil => exact absurd rfl h
  | cons ys yss ih =>
    cases yss with
    | nil => simp [List.intercalate]
    | cons zs zss => simpa [List.intercalate] using ih (by simp)

theorem intercalate_splitSlash (cs : List Char) : ['/'].intercalate (splitSlash cs) = cs := by
  induction cs with
  | nil => rfl
  | cons c cs ih =>
    rw [splitSlash]
    cases hcs : splitSlash cs with
    | nil => exact absurd hcs (splitSlash_ne_nil cs)
    | cons first rest =>
      rw [hcs] at ih
      split
      case isTrue hc => simp_all [List.intercalate]
      case isFalse => cases rest <;> simp_all [List.intercalate]

theorem exists_last_segment (p : Path) : ∃ front last, p.segments = front ++ [last] ∧ '/' ∉ last.toList := by
  have hne : p.segments ≠ [] := by simp [segments, splitSlash_ne_nil]
  refine ⟨p.segments.dropLast, p.segments.getLast hne, (List.dropLast_append_getLast hne).symm, ?_⟩
  obtain ⟨last, hlast, heq⟩ := List.mem_map.mp (List.getLast_mem hne)
  rw [← heq, String.toList_ofList]
  exact not_mem_of_mem_splitSlash hlast

/-! ### File names -/

theorem exists_cons_of_ne_empty {text : String} (h : text ≠ "") : ∃ c cs, text.toList = c :: cs :=
  List.exists_cons_of_ne_nil (mt String.toList_eq_nil_iff.mp h)

/-- A segment that is the name of a file: it says something, and it does not lead upwards. -/
structure IsName (name : String) : Prop where
  busy : isIdle name = false
  notUp : name ≠ ".."
  noSlash : '/' ∉ name.toList

instance (name : String) : Decidable (IsName name) :=
  decidable_of_iff (isIdle name = false ∧ name ≠ ".." ∧ '/' ∉ name.toList)
    ⟨fun ⟨busy, notUp, noSlash⟩ => ⟨busy, notUp, noSlash⟩, fun h => ⟨h.busy, h.notUp, h.noSlash⟩⟩

theorem isIdle_eq_false_iff {segment : String} : isIdle segment = false ↔ segment ≠ "" ∧ segment ≠ "." := by
  simp [isIdle]

theorem IsName.ne_empty {name : String} (h : IsName name) : name ≠ "" :=
  (isIdle_eq_false_iff.mp h.busy).1

theorem IsName.head?_ne {name : String} (h : IsName name) : name.toList.head? ≠ some '/' :=
  fun hhead => h.noSlash (List.mem_of_head? hhead)

/-- No dot stands behind the first character, so a name of this form has no extension. -/
def Undotted (name : String) : Prop :=
  '.' ∉ name.toList.tail

instance (name : String) : Decidable (Undotted name) :=
  inferInstanceAs (Decidable ('.' ∉ name.toList.tail))

/-- A file name of a stem and an extension. Without an extension there is no dot either. -/
def extend (stem extension : String) : String :=
  if extension = "" then stem else stem ++ "." ++ extension

theorem extend_inj {stem stem' extension : String} :
    extend stem extension = extend stem' extension ↔ stem = stem' := by
  unfold extend
  split
  · rfl
  · simp [← String.toList_inj]

theorem exists_last_dot {cs : List Char} (h : '.' ∈ cs) : ∃ xs ys, cs = xs ++ '.' :: ys ∧ '.' ∉ ys := by
  induction cs with
  | nil => cases h
  | cons c cs ih =>
    by_cases hcs : '.' ∈ cs
    · obtain ⟨xs, ys, rfl, hys⟩ := ih hcs
      exact ⟨c :: xs, ys, rfl, hys⟩
    · obtain rfl : '.' = c := (List.mem_cons.mp h).resolve_right hcs
      exact ⟨[], cs, rfl, hcs⟩

/-- Two texts that are the same are the same up to their first dots and behind them. -/
theorem append_dot_inj {xs ys xs' ys' : List Char} (h : '.' ∉ xs) (h' : '.' ∉ xs')
    (heq : xs ++ '.' :: ys = xs' ++ '.' :: ys') : xs = xs' ∧ ys = ys' := by
  induction xs generalizing xs' with
  | nil =>
    cases xs' with
    | nil => exact ⟨rfl, (List.cons.inj heq).2⟩
    | cons c xs' => exact absurd ((List.cons.inj heq).1 ▸ List.mem_cons_self) h'
  | cons c xs ih =>
    cases xs' with
    | nil => exact absurd ((List.cons.inj heq).1 ▸ List.mem_cons_self) h
    | cons c' xs' =>
      obtain ⟨rfl, htail⟩ := List.cons.inj heq
      obtain ⟨rfl, rfl⟩ := ih (mt (List.mem_cons_of_mem c) h) (mt (List.mem_cons_of_mem c) h') htail
      exact ⟨rfl, rfl⟩

/-- A name is cut at its last dot, unless nothing or one dot alone would be left. -/
theorem splitName_of_dot (stem : String) {extension : String} (h : '.' ∉ extension.toList) :
    splitName (stem ++ "." ++ extension) =
      if stem = "" ∨ stem ++ "." ++ extension = ".." then (stem ++ "." ++ extension, none)
      else (stem, some extension) := by
  have hall : ∀ c ∈ extension.toList.reverse, decide (c ≠ '.') = true := fun c hc =>
    decide_eq_true fun hdot => h (hdot ▸ List.mem_reverse.mp hc)
  have hreverse : (stem ++ "." ++ extension).toList.reverse =
      extension.toList.reverse ++ '.' :: stem.toList.reverse := by simp
  unfold splitName
  simp only [hreverse, List.dropWhile_append_of_pos hall, List.takeWhile_append_of_pos hall,
    List.takeWhile_cons, List.dropWhile_cons]
  simp only [ne_eq, not_true_eq_false, decide_false, Bool.false_eq_true, if_false, List.append_nil,
    List.reverse_reverse, String.ofList_toList, Bool.or_eq_true, decide_eq_true_eq, List.reverse_eq_nil_iff,
    String.toList_eq_nil_iff]

theorem splitName_of_not_mem {name : String} (h : '.' ∉ name.toList) : splitName name = (name, none) := by
  have hnil : name.toList.reverse.dropWhile (· ≠ '.') = [] :=
    List.dropWhile_eq_nil_iff.mpr fun c hc => decide_eq_true fun hdot => h (hdot ▸ List.mem_reverse.mp hc)
  unfold splitName
  simp only [hnil]

/-- Either a name has no extension, or it is a stem, a dot and an extension. -/
theorem splitName_cases (name : String) :
    splitName name = (name, none) ∨
    ∃ stem extension, stem ≠ "" ∧ '.' ∉ extension.toList ∧ name = stem ++ "." ++ extension ∧
      splitName name = (stem, some extension) := by
  by_cases h : '.' ∈ name.toList
  · obtain ⟨stem, extension, heq, hdot⟩ := exists_last_dot h
    obtain rfl : name = String.ofList stem ++ "." ++ String.ofList extension := by
      simp [← String.toList_inj, heq]
    rw [← String.toList_ofList (l := extension)] at hdot
    have hsplit := splitName_of_dot (String.ofList stem) hdot
    split at hsplit
    case isTrue => exact Or.inl hsplit
    case isFalse hwhole => exact Or.inr ⟨_, _, fun h => hwhole (Or.inl h), hdot, rfl, hsplit⟩
  · exact Or.inl (splitName_of_not_mem h)

/-- The stem is all of a file name exactly when no dot stands behind the first character. -/
theorem splitName_eq_self_iff {name : String} (h : IsName name) : (splitName name).1 = name ↔ Undotted name := by
  constructor
  · intro hself hdot
    obtain ⟨c, cs, hcs⟩ := exists_cons_of_ne_empty h.ne_empty
    rw [hcs, List.tail_cons] at hdot
    obtain ⟨xs, ys, rfl, hys⟩ := exists_last_dot hdot
    obtain rfl : name = String.ofList (c :: xs) ++ "." ++ String.ofList ys := by
      rw [← String.toList_inj, hcs]
      simp
    rw [splitName_of_dot _ (by simpa), if_neg (not_or.mpr ⟨by simp, h.notUp⟩)] at hself
    simp [← String.toList_inj] at hself
  · intro hdot
    rcases splitName_cases name with hsplit | ⟨stem, extension, hstem, -, rfl, -⟩
    · rw [hsplit]
    · obtain ⟨c, cs, hcs⟩ := exists_cons_of_ne_empty hstem
      simp [Undotted, hcs] at hdot

/-! ### The name behind a directory -/

/-- The text in front of a name in a directory. -/
def lead (dir : Path) : String :=
  if dir.text = "" || dir.text.toList.getLast? = some '/' then dir.text else dir.text ++ "/"

/-- The segments in front of a name in a directory. -/
def front (dir : Path) : List String :=
  ((splitSlash dir.lead.toList).map String.ofList).dropLast

theorem join_eq {name : String} (h : name.toList.head? ≠ some '/') (dir : Path) :
    dir.join name = { text := dir.lead ++ name } := by
  unfold join lead
  rw [if_neg h]
  split <;> rfl

/-- Different names give different paths in a directory. -/
theorem join_inj {dir : Path} {name name' : String} (h : name.toList.head? ≠ some '/')
    (h' : name'.toList.head? ≠ some '/') : dir.join name = dir.join name' ↔ name = name' := by
  rw [join_eq h, join_eq h', Path.mk.injEq, String.append_right_inj]

/-- Nothing stands in front of a name, or a text that ends in a slash. -/
theorem lead_cases (dir : Path) :
    dir.lead = "" ∧ dir.front = [] ∨
    ∃ cs, dir.lead.toList = cs ++ ['/'] ∧ dir.front = (splitSlash cs).map String.ofList := by
  have hslash {cs : List Char} (h : dir.lead.toList = cs ++ ['/']) :
      dir.front = (splitSlash cs).map String.ofList := by
    rw [front, h, splitSlash_append_slash, List.map_append]
    exact List.dropLast_concat
  by_cases hempty : dir.lead = ""
  · exact Or.inl ⟨hempty, by rw [front, hempty]; rfl⟩
  · have hlast : ∃ cs, dir.lead.toList = cs ++ ['/'] := by
      unfold lead at hempty ⊢
      split
      case isTrue h =>
        rw [if_pos h] at hempty
        rw [Bool.or_eq_true, decide_eq_true_eq, decide_eq_true_eq, or_iff_right hempty] at h
        exact List.getLast?_eq_some_iff.mp h
      case isFalse => exact ⟨dir.text.toList, by simp⟩
    exact Or.inr (hlast.imp fun cs hcs => ⟨hcs, hslash hcs⟩)

/-- The segments of a directory are those in front of its names, up to a slash at the end of its path. -/
theorem segments_eq_front {dir : Path} (h : dir.text ≠ "") :
    dir.segments = dir.front ∨ dir.segments = dir.front ++ [""] := by
  by_cases hslash : dir.text.toList.getLast? = some '/'
  · obtain ⟨cs, hcs⟩ := List.getLast?_eq_some_iff.mp hslash
    refine Or.inr ?_
    rw [segments, front, lead, if_pos (by simp [hslash]), hcs, splitSlash_append_slash, List.map_append,
      show splitSlash [] = [[]] from rfl, List.map_singleton, List.dropLast_concat]
  · refine Or.inl ?_
    rw [segments, front, lead, if_neg (by simp [h, hslash]), String.toList_append,
      show "/".toList = ['/'] from rfl, splitSlash_append_slash, List.map_append]
    exact (List.dropLast_concat).symm

theorem exists_lead_eq (dir : Path) : ∃ slash, dir.lead = dir.text ++ slash := by
  unfold lead
  split
  · exact ⟨"", String.append_empty.symm⟩
  · exact ⟨"/", rfl⟩

theorem segments_join {name : String} (h : '/' ∉ name.toList) (dir : Path) :
    (dir.join name).segments = dir.front ++ [name] := by
  have hhead : name.toList.head? ≠ some '/' := fun hh => h (List.mem_of_head? hh)
  rw [join_eq hhead, segments, String.toList_append]
  rcases dir.lead_cases with ⟨hlead, hfront⟩ | ⟨cs, hlead, hfront⟩
  · rw [hlead, hfront]
    simp [splitSlash_of_not_mem h]
  · rw [hlead, hfront, List.append_assoc, List.singleton_append, splitSlash_append_slash, splitSlash_of_not_mem h]
    simp

theorem ofSegments_front {name : String} (h : name.toList.head? ≠ some '/') (dir : Path) :
    ofSegments (dir.front ++ [name]) = dir.join name := by
  rw [join_eq h, ofSegments, Path.mk.injEq, ← String.toList_inj, String.toList_intercalate, String.toList_append]
  rcases dir.lead_cases with ⟨hlead, hfront⟩ | ⟨cs, hlead, hfront⟩
  · rw [hlead, hfront]
    simp [List.intercalate]
  · have hconcat := intercalate_concat (splitSlash_ne_nil cs) name.toList
    rw [intercalate_splitSlash] at hconcat
    rw [hlead, hfront, List.append_assoc, List.singleton_append, ← hconcat]
    simp [Function.comp_def]

/-- Nothing is dropped at the end of a path whose last segment says something. -/
theorem trimmed_of_segments {p : Path} {front : List String} {last : String} (h : isIdle last = false)
    (hp : p.segments = front ++ [last]) : p.trimmed = p.segments := by
  have htext : p.text ≠ "" := by
    intro hempty
    rw [segments, hempty] at hp
    have hlast : last = "" := by simpa [splitSlash] using (congrArg List.getLast? hp).symm
    exact (isIdle_eq_false_iff.mp h).1 hlast
  rw [trimmed, if_neg htext, hp]
  cases front with
  | nil => rfl
  | cons first front => simp [trimEnd, h]

theorem fileName?_of_segments {p : Path} {front : List String} {last : String} (h : isIdle last = false)
    (hp : p.segments = front ++ [last]) : p.fileName? = if last = ".." then none else some last := by
  rw [fileName?, trimmed_of_segments h hp, hp, List.getLast?_concat]
  simp [h]

theorem fileName?_join {name : String} (h : IsName name) (dir : Path) : (dir.join name).fileName? = some name := by
  rw [fileName?_of_segments h.busy (segments_join h.noSlash dir), if_neg h.notUp]

theorem head?_extend {stem : String} (h : IsName stem) (extension : String) :
    (extend stem extension).toList.head? ≠ some '/' := by
  obtain ⟨c, cs, hcs⟩ := exists_cons_of_ne_empty h.ne_empty
  have hhead := h.head?_ne
  unfold extend
  split <;> simpa [hcs] using hhead

theorem isName_extend {stem extension : String} (h : IsName stem) (hslash : '/' ∉ extension.toList) :
    IsName (extend stem extension) := by
  unfold extend
  split
  case isTrue => exact h
  case isFalse hext =>
    have hlength : 3 ≤ (stem ++ "." ++ extension).length := by
      have hstem := mt String.length_eq_zero_iff.mp h.ne_empty
      have hext := mt String.length_eq_zero_iff.mp hext
      rw [String.length_append, String.length_append, show ".".length = 1 from rfl]
      omega
    have hshort {short : String} (hs : short.length < 3) : stem ++ "." ++ extension ≠ short := by
      rintro rfl
      omega
    refine ⟨isIdle_eq_false_iff.mpr ⟨hshort (by decide), hshort (by decide)⟩, hshort (by decide), ?_⟩
    simpa [h.noSlash] using hslash

/-- The extension of a name is cut off its end, and the dot in front of it stays. -/
theorem cutExtension_join {name : String} (h : IsName name) (hstem : IsName (splitName name).1) (dir : Path) :
    ∃ cut, (dir.join name).cutExtension = dir.join cut ∧ IsName cut ∧ (splitName cut).1 = (splitName name).1 := by
  rcases splitName_cases name with hsplit | ⟨stem, extension, -, -, rfl, hsplit⟩
  · exact ⟨name, by simp only [cutExtension, extension?, fileName?_join h, hsplit, Option.bind_some], h, rfl⟩
  · rw [hsplit] at hstem ⊢
    obtain ⟨hempty, hdot⟩ := isIdle_eq_false_iff.mp hstem.busy
    have hcut : IsName (stem ++ ".") := by
      refine ⟨isIdle_eq_false_iff.mpr ⟨by simp, fun heq => hempty (by simpa using heq)⟩, fun heq => hdot ?_, ?_⟩
      · exact (String.append_left_inj ".").mp heq
      · simpa using hstem.noSlash
    refine ⟨stem ++ ".", ?_, hcut, ?_⟩
    · have htext : (dir.join (stem ++ "." ++ extension)).text = (dir.join (stem ++ ".")).text ++ extension := by
        rw [join_eq h.head?_ne, join_eq hcut.head?_ne, ← String.append_assoc]
      simp only [cutExtension, extension?, fileName?_join h, hsplit, Option.bind_some]
      rw [htext, String.length_append, Nat.add_sub_cancel, String.toList_append, ← String.length_toList,
        List.take_left, String.ofList_toList]
    · rw [← String.append_empty (s := stem ++ "."), splitName_of_dot stem (by simp), String.append_empty,
        if_neg (not_or.mpr ⟨hempty, hcut.notUp⟩)]

/-- A new extension takes the place of the one that the name has. The directory stays as it is written. -/
theorem withExtension_join {name : String} (h : IsName name) (hstem : IsName (splitName name).1) (dir : Path)
    (extension : String) :
    (dir.join name).withExtension extension = dir.join (extend (splitName name).1 extension) := by
  obtain ⟨cut, hcut, hname, hsplit⟩ := cutExtension_join h hstem dir
  have htrimmed := trimmed_of_segments hname.busy (segments_join hname.noSlash dir)
  simp only [withExtension, hcut, stem?, fileName?_join hname, Option.map_some, htrimmed,
    segments_join hname.noSlash, List.dropLast_concat, hsplit]
  exact ofSegments_front (head?_extend hstem extension) dir

end Path
end JackToVm
