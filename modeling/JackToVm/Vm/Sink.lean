/-!
A sink for VM text. It may have room for only so many bytes; a text that does not fit is taken up to the
last byte there is room for, and refused.
-/

namespace JackToVm.Vm

/-- The bytes written so far, and how many the sink takes in all. -/
structure Sink where
  limit? : Option Nat := none
  bytes : ByteArray := ByteArray.empty

namespace Sink

/-- Tells whether there is room for so many bytes more. -/
def hasRoom (s : Sink) (size : Nat) : Bool :=
  match s.limit? with
  | some limit => s.bytes.size + size ≤ limit
  | none => true

/-- Adds a text as far as there is room. -/
def write : Sink → String → Sink
  | { limit?, bytes }, text =>
    let bytes := bytes ++ text.toUTF8
    match limit? with
    | some limit => { limit?, bytes := if bytes.size ≤ limit then bytes else bytes.extract 0 limit }
    | none => { limit?, bytes }

@[simp] theorem limit?_write (s : Sink) (text : String) : (s.write text).limit? = s.limit? := by
  obtain ⟨limit?, bytes⟩ := s
  cases limit? <;> rfl

/-- A text that there is room for is taken whole. -/
theorem bytes_write_of_hasRoom {s : Sink} {text : String} (h : s.hasRoom text.utf8ByteSize) :
    (s.write text).bytes = s.bytes ++ text.toUTF8 := by
  obtain ⟨limit?, bytes⟩ := s
  cases limit? with
  | none => rfl
  | some limit =>
    have hs : (bytes ++ text.toUTF8).size ≤ limit := by
      rw [ByteArray.size_append]
      simpa [hasRoom] using h
    simp only [write, hs, if_true]

/-- What is refused fills the sink. -/
theorem bytes_write_of_not_hasRoom {s : Sink} {text : String} {limit : Nat} (hl : s.limit? = some limit)
    (h : s.hasRoom text.utf8ByteSize = false) :
    (s.write text).bytes = (s.bytes ++ text.toUTF8).extract 0 limit := by
  obtain ⟨limit?, bytes⟩ := s
  subst hl
  have hs : ¬ (bytes ++ text.toUTF8).size ≤ limit := by
    rw [ByteArray.size_append]
    simpa [hasRoom] using h
  simp only [write, hs, if_false]

end Sink

end JackToVm.Vm
