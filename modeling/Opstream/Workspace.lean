import Opstream.Source.Program

namespace Opstream

/-- Buffers under names. A name that was never used stands for an empty buffer. -/
abbrev Workspace := String → Buffer

inductive Edit
  | clear
  | load (bytes : List UInt8)
  | assemble (text : String)
  | emit (opcode : Opcode) (operands : List Operand)
  | push (instruction : Instruction)
  | extend (other : String)
  | take

inductive Reply
  | done
  | offset (n : Nat)
  | bytes (bs : List UInt8)
  | fault (f : Fault)
  | sourceError (e : Source.Error)

namespace Workspace

def empty : Workspace := fun _ => Buffer.empty

def set (w : Workspace) (name : String) (b : Buffer) : Workspace :=
  fun other => if other = name then b else w other

def add (w : Workspace) (name : String) (i : Instruction) : Reply × Workspace :=
  match (w name).push i with
  | .ok (offset, b) => (.offset offset, w.set name b)
  | .error f => (.fault f, w)

/-- A step that fails changes nothing. -/
def apply (w : Workspace) (name : String) : Edit → Reply × Workspace
  | .clear => (.done, w.set name Buffer.empty)
  | .load bytes => (.done, w.set name (Buffer.ofBytes bytes))
  | .assemble text =>
      match Source.assemble text with
      | .ok b => (.done, w.set name b)
      | .error e => (.sourceError e, w)
  | .emit opcode operands => w.add name ⟨opcode, operands⟩
  | .push i => w.add name i
  | .extend other => (.done, w.set name ((w name).append (w other)))
  | .take => (.bytes (w name).bytes, w.set name Buffer.empty)

@[simp] theorem set_self (w : Workspace) (name : String) (b : Buffer) : w.set name b name = b := by
  simp [set]

theorem set_of_ne (w : Workspace) {name other : String} (h : other ≠ name) (b : Buffer) :
    w.set name b other = w other := by
  simp [set, h]

end Workspace

end Opstream
