import Opstream.Listing
import Opstream.Memory

namespace Opstream

open Memory

namespace Operand

def fits? (width : Nat) (v : Operand) : Option Bool :=
  if width = 0 then some (v == 0)
  else if maxWidth ≤ width then some true
  else do
    let high ← shiftRight? v (8 * width)
    some (high == 0)

/-- Writes an operand to the end of its slot. The bytes in front of it stay as they are. -/
def write? (slot : List UInt8) (v : Operand) : Option (List UInt8) :=
  if slot.length = 0 then some slot
  else if maxWidth < slot.length then
    update? slot (slot.length - maxWidth) slot.length (writeUInt64? · v)
  else writeUInt? slot v slot.length

def read? (bytes : List UInt8) (width : Nat) : Option Operand :=
  if width = 0 then some 0
  else if maxWidth < width then do
    let span ← slice? bytes (width - maxWidth) width
    readUInt64? span
  else readUInt? bytes width

end Operand

namespace Layout

def operandsWidth? (layout : Layout) : Option Nat := sum? layout.widths

def width? (layout : Layout) : Option Nat := do
  let region ← layout.operandsWidth?
  add? 1 region

def fillSlots? (name : String) :
    List (Operand × Nat) → Nat → List UInt8 → Option (Except Fault (List UInt8))
  | [], _, buffer => some (.ok buffer)
  | (v, width) :: slots, start, buffer => do
      if ← Operand.fits? width v then
        let stop ← add? start width
        let buffer ← update? buffer start stop (Operand.write? · v)
        fillSlots? name slots stop buffer
      else some (.error (.operandOverflow name v width))

/-- Encodes in a buffer that has its size from the beginning. -/
def encodeInPlace? (layout : Layout) (operands : List Operand) :
    Option (Except Fault (List UInt8)) :=
  if operands.length ≠ layout.arity then
    some (.error (.operandCount layout.name layout.arity operands.length))
  else do
    let size ← layout.width?
    let buffer ← zeros? size
    let buffer ← set? buffer 0 layout.opcode.tag
    fillSlots? layout.name (operands.zip layout.widths) 1 buffer

def readSlots? (bytes : List UInt8) : List Nat → Nat → Option (List Operand × Nat)
  | [], start => some ([], start)
  | width :: widths, start => do
      let span ← sliceFrom? bytes start
      let v ← Operand.read? span width
      let stop ← add? start width
      let (operands, stop) ← readSlots? bytes widths stop
      some (v :: operands, stop)

def decodeInPlace? (layout : Layout) (bytes : List UInt8) :
    Option (Except Fault (List Operand × Nat)) := do
  let needed ← layout.operandsWidth?
  if bytes.length < needed then some (.error (.truncated needed bytes.length))
  else
    let found ← readSlots? bytes layout.widths 0
    some (.ok found)

end Layout

namespace Cursor

def nextIn? (bytes : List UInt8) (offset : Nat) :
    Option (Option (Except Fault Decoded) × Nat) :=
  match bytes[offset]? with
  | none => some (none, offset)
  | some tag => do
      let operandsStart ← add? offset 1
      match Layout.ofTag tag with
      | .error fault => some (some (.error (fault.atOffset offset)), operandsStart)
      | .ok layout =>
          let ahead ← sliceFrom? bytes operandsStart
          match ← layout.decodeInPlace? ahead with
          | .error fault => some (some (.error (fault.atOffset offset)), bytes.length)
          | .ok (operands, consumed) =>
              let width ← add? 1 consumed
              let stop ← add? offset width
              some (some (.ok ⟨offset, ⟨layout.opcode, operands⟩, width⟩), stop)

def collect? (bytes : List UInt8) : Nat → Nat → Option (List (Except Fault Decoded))
  | 0, _ => none
  | n + 1, offset => do
      let (found, stop) ← nextIn? bytes offset
      match found with
      | none => some []
      | some item =>
          let items ← collect? bytes n stop
          some (item :: items)

end Cursor

/-- Every item takes a byte, so that the end is met one call behind the last byte at the latest. -/
def items? (bytes : List UInt8) : Option (List (Except Fault Decoded)) :=
  Cursor.collect? bytes (bytes.length + 1) 0

namespace Listing

def lines? (bytes : List UInt8) : Option (List String) := do
  let found ← items? bytes
  some (found.map lineOf)

def stopIn? (bytes : List UInt8) (fault : Fault) : Option Nat :=
  if fault.isCutShort then some bytes.length
  else do
    let behind ← add? (fault.offset?.getD 0) 1
    some (min behind bytes.length)

def rowIn? (bytes : List UInt8) : Except Fault Decoded → Option ListingRow
  | .ok d => do
      let stop ← add? d.offset d.width
      let code ← slice? bytes d.offset stop
      some ⟨offsetText d.offset, d.instruction.opcode.name,
        ", ".intercalate (d.instruction.operands.map fun v => v.toNat.repr), Hex.text code⟩
  | .error fault => do
      let start := fault.offset?.getD 0
      let stop ← stopIn? bytes fault
      let passed ← slice? bytes start stop
      some ⟨offsetText start, "ERROR", fault.message, Hex.text passed⟩

def rows? (bytes : List UInt8) : Option (List ListingRow) := do
  let found ← items? bytes
  found.mapM (rowIn? bytes)

end Listing

end Opstream
