import Opstream.Digits

namespace Opstream

abbrev Operand := UInt64

namespace Operand

/-- The number of bytes of an operand; no wider slot holds more values. -/
def maxWidth : Nat := 8

def fits (width : Nat) (v : Operand) : Bool :=
  maxWidth ≤ width || v.toNat >>> (8 * width) == 0

def slot (width : Nat) (v : Operand) : List UInt8 := BigEndian.bytes width v.toNat

/-- Of a slot wider than an operand only the last `maxWidth` bytes count. -/
def ofSlot (bytes : List UInt8) : Operand := UInt64.ofNat (BigEndian.value bytes)

@[simp] theorem length_slot (width : Nat) (v : Operand) : (slot width v).length = width := by
  simp [slot]

end Operand

def Operand.slots (widths : List Nat) (operands : List Operand) : List UInt8 :=
  (List.zipWith slot widths operands).flatten

def Operand.ofSlots : List Nat → List UInt8 → List Operand
  | [], _ => []
  | width :: widths, bytes => ofSlot (bytes.take width) :: ofSlots widths (bytes.drop width)

@[simp] theorem Operand.length_ofSlots (widths : List Nat) (bytes : List UInt8) :
    (ofSlots widths bytes).length = widths.length := by
  induction widths generalizing bytes with
  | nil => rfl
  | cons width widths ih => simp [ofSlots, ih]

/-- The operations of the machine. A tag is part of every stored stream, so it never changes. -/
inductive Opcode
  /-- Pushes the entry of the constant pool whose index is the operand. -/
  | constant
  deriving DecidableEq

namespace Opcode

def all : List Opcode := [constant]

def tag : Opcode → UInt8
  | constant => 0

def name : Opcode → String
  | constant => "OpConstant"

def widths : Opcode → List Nat
  | constant => [2]

def arity (opcode : Opcode) : Nat := opcode.widths.length

def ofTag? (tag : UInt8) : Option Opcode := all.find? (·.tag == tag)

def ofName? (name : String) : Option Opcode := all.find? (·.name == name)

theorem mem_all (opcode : Opcode) : opcode ∈ all := by
  cases opcode; decide

@[simp] theorem ofTag?_tag (opcode : Opcode) : ofTag? opcode.tag = some opcode := by
  cases opcode; rfl

@[simp] theorem ofName?_name (opcode : Opcode) : ofName? opcode.name = some opcode := by
  cases opcode; rfl

theorem tag_of_ofTag? {tag : UInt8} {opcode : Opcode} (h : ofTag? tag = some opcode) :
    opcode.tag = tag := by
  simpa using List.find?_some h

theorem name_of_ofName? {name : String} {opcode : Opcode} (h : ofName? name = some opcode) :
    opcode.name = name := by
  simpa using List.find?_some h

end Opcode

inductive Fault
  | undefinedOpcode (tag : UInt8)
  | operandCount (name : String) (expected given : Nat)
  | operandOverflow (name : String) (value : Operand) (width : Nat)
  | truncated (needed available : Nat)
  /-- A fault found while walking a stream, at the byte where it was met. -/
  | malformed (offset : Nat) (source : Fault)
  deriving DecidableEq

namespace Fault

def message : Fault → String
  | undefinedOpcode tag => s!"opcode {tag.toNat} undefined"
  | operandCount name expected given =>
      s!"{name} requires {expected} operands but was given {given}"
  | operandOverflow name value width =>
      s!"operand {value.toNat} of {name} does not fit in {width} bytes"
  | truncated needed available =>
      s!"truncated instruction: needed {needed} bytes but only {available} remain"
  | malformed offset source => s!"{source.message} at {Decimal.padded 4 offset}"

def atOffset (fault : Fault) (offset : Nat) : Fault := malformed offset fault

def offset? : Fault → Option Nat
  | malformed offset _ => some offset
  | _ => none

def isCutShort : Fault → Bool
  | malformed _ (truncated _ _) => true
  | _ => false

end Fault

/-- How an instruction is stored: the tag of its opcode, then a slot for each operand. -/
structure Layout where
  opcode : Opcode
  name : String
  widths : List Nat
  deriving DecidableEq

def Opcode.layout (opcode : Opcode) : Layout := ⟨opcode, opcode.name, opcode.widths⟩

namespace Layout

def arity (layout : Layout) : Nat := layout.widths.length

def operandsWidth (layout : Layout) : Nat := layout.widths.foldr (· + ·) 0

def width (layout : Layout) : Nat := 1 + layout.operandsWidth

def all : List Layout := Opcode.all.map Opcode.layout

def ofTag (tag : UInt8) : Except Fault Layout :=
  match Opcode.ofTag? tag with
  | some opcode => .ok opcode.layout
  | none => .error (.undefinedOpcode tag)

def overflow? (layout : Layout) (operands : List Operand) : Option (Operand × Nat) :=
  (operands.zip layout.widths).find? (fun (v, width) => !Operand.fits width v)

/-- The number of operands is checked first, then each operand from the left. -/
def encode (layout : Layout) (operands : List Operand) : Except Fault (List UInt8) :=
  if operands.length ≠ layout.arity then
    .error (.operandCount layout.name layout.arity operands.length)
  else match layout.overflow? operands with
    | some (v, width) => .error (.operandOverflow layout.name v width)
    | none => .ok (layout.opcode.tag :: Operand.slots layout.widths operands)

def decode (layout : Layout) (bytes : List UInt8) : Except Fault (List Operand × Nat) :=
  if bytes.length < layout.operandsWidth then
    .error (.truncated layout.operandsWidth bytes.length)
  else
    .ok (Operand.ofSlots layout.widths bytes, layout.operandsWidth)

/-- The line of an instruction in a listing. No opcode has two operands or more, so that case
has no form yet and shows as an error. -/
def format (layout : Layout) (operands : List Operand) : String :=
  if operands.length ≠ layout.arity then
    s!"ERROR: operand len {operands.length} does not match defined {layout.arity}"
  else match operands with
    | [] => layout.name
    | [v] => s!"{layout.name} {v.toNat}"
    | _ => s!"ERROR: unhandled operand count for {layout.name}"

@[simp] theorem arity_layout (opcode : Opcode) : opcode.layout.arity = opcode.arity := rfl

theorem ofTag_tag (opcode : Opcode) : ofTag opcode.tag = .ok opcode.layout := by
  simp [ofTag]

theorem tag_of_ofTag {tag : UInt8} {layout : Layout} (h : ofTag tag = .ok layout) :
    layout.opcode.tag = tag ∧ layout = layout.opcode.layout := by
  cases hop : Opcode.ofTag? tag with
  | none => simp [ofTag, hop] at h
  | some opcode =>
      simp only [ofTag, hop, Except.ok.injEq] at h
      subst h
      exact ⟨Opcode.tag_of_ofTag? hop, rfl⟩

theorem ofTag_eq_error {tag : UInt8} {fault : Fault} (h : ofTag tag = .error fault) :
    fault = .undefinedOpcode tag := by
  cases hop : Opcode.ofTag? tag with
  | none => simpa [ofTag, hop] using h.symm
  | some opcode => simp [ofTag, hop] at h

theorem decode_of_le {layout : Layout} {bytes : List UInt8}
    (h : layout.operandsWidth ≤ bytes.length) :
    layout.decode bytes = .ok (Operand.ofSlots layout.widths bytes, layout.operandsWidth) := by
  simp [decode, Nat.not_lt.2 h]

theorem decode_of_lt {layout : Layout} {bytes : List UInt8}
    (h : bytes.length < layout.operandsWidth) :
    layout.decode bytes = .error (.truncated layout.operandsWidth bytes.length) := by
  simp [decode, h]

end Layout

/-- The first two bytes as one number, for a machine that knows that its operand is that wide. -/
def readU16 : List UInt8 → Except Fault UInt16
  | high :: low :: _ => .ok (UInt16.ofNat (256 * high.toNat + low.toNat))
  | bytes => .error (.truncated 2 bytes.length)

structure Instruction where
  opcode : Opcode
  operands : List Operand
  deriving DecidableEq

namespace Instruction

def encode (i : Instruction) : Except Fault (List UInt8) := i.opcode.layout.encode i.operands

def text (i : Instruction) : String :=
  i.opcode.name ++ String.join (i.operands.map fun v => s!" {v.toNat}")

/-- Encodes what a stored tag and operands say. The tag is checked before the operands. -/
def encodeTagged (tag : UInt8) (operands : List Operand) : Except Fault (List UInt8) := do
  let layout ← Layout.ofTag tag
  layout.encode operands

end Instruction

end Opstream
