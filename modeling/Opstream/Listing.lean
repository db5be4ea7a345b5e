import Opstream.Log
import Opstream.Walk

namespace Opstream

def offsetText (offset : Nat) : String := Decimal.padded 4 offset

def Decoded.line (d : Decoded) : String :=
  offsetText d.offset ++ " " ++ d.instruction.opcode.layout.format d.instruction.operands

/-- A listing is read by people who look for faults, so a fault has its line like an instruction. -/
def Listing.lineOf : Except Fault Decoded → String
  | .ok d => d.line
  | .error fault => "ERROR: " ++ fault.message

namespace Segment

def line (s : Segment) : String := Listing.lineOf s.item

def layout? (s : Segment) : Option Layout :=
  match s.bytes with
  | [] => none
  | tag :: _ => (Layout.ofTag tag).toOption

/-- Reading a segment reports operands that are cut off, but no undefined tag. -/
def readEvents (s : Segment) : List Log.Event :=
  match s.content, s.layout? with
  | .error (.truncated needed available), some layout =>
      [.operandsCut layout.name needed available]
  | _, _ => []

def faultEvents (s : Segment) : List Log.Event :=
  match s.item with
  | .ok _ => []
  | .error fault => [.malformed fault]

end Segment

namespace Listing

def lines (bytes : List UInt8) : List String := (walk bytes).map Segment.line

def text (bytes : List UInt8) : String := String.join ((lines bytes).map (· ++ "\n"))

def events (bytes : List UInt8) : List Log.Event :=
  (walk bytes).flatMap fun s => s.readEvents ++ s.faultEvents

end Listing

inductive Align
  | left | right
  deriving DecidableEq

def Align.fill (align : Align) (width : Nat) (cell : String) : String :=
  let gap := String.ofList (List.replicate (width - cell.length) ' ')
  match align with
  | left => cell ++ gap
  | right => gap ++ cell

structure Column where
  title : String
  align : Align

structure Table where
  columns : List Column
  rows : List (List String)

namespace Table

def titles (t : Table) : List String := t.columns.map Column.title

def widths (t : Table) : List Nat :=
  t.rows.foldl (fun widths row => List.zipWith max widths (row.map String.length))
    (t.titles.map String.length)

def rowLine (columns : List Column) (widths : List Nat) (cells : List String) : String :=
  let fields := List.zipWith (fun (column, width) cell => column.align.fill width cell)
    (columns.zip widths) cells
  " " ++ "│".intercalate (fields.map fun field => " " ++ field ++ " ") ++ " "

def ruleLine (crossing : String) (widths : List Nat) : String :=
  " " ++ crossing.intercalate (widths.map fun width =>
    String.ofList (List.replicate (width + 2) '─')) ++ " "

def lines (t : Table) : List String :=
  let widths := t.widths
  [rowLine t.columns widths t.titles, ruleLine "┼" widths] ++
    t.rows.map (rowLine t.columns widths) ++ [ruleLine "┴" widths]

def render (t : Table) : String := String.join (t.lines.map (· ++ "\n"))

end Table

structure ListingRow where
  offset : String
  opcode : String
  operands : String
  bytes : String
  deriving DecidableEq

def ListingRow.cells (row : ListingRow) : List String :=
  [row.offset, row.opcode, row.operands, row.bytes]

namespace Listing

def columns : List Column :=
  [⟨"Offset", .right⟩, ⟨"Opcode", .left⟩, ⟨"Operands", .left⟩, ⟨"Bytes", .left⟩]

/-- Where the bytes of a fault's row end: a cut instruction takes all that is left. -/
def stopIn (bytes : List UInt8) (fault : Fault) : Nat :=
  if fault.isCutShort then bytes.length else min (fault.offset?.getD 0 + 1) bytes.length

def rowIn (bytes : List UInt8) : Except Fault Decoded → ListingRow
  | .ok d =>
      { offset := offsetText d.offset
        opcode := d.instruction.opcode.name
        operands := ", ".intercalate (d.instruction.operands.map fun v => v.toNat.repr)
        bytes := Hex.text ((bytes.take (d.offset + d.width)).drop d.offset) }
  | .error fault =>
      let start := fault.offset?.getD 0
      { offset := offsetText start
        opcode := "ERROR"
        operands := fault.message
        bytes := Hex.text ((bytes.take (stopIn bytes fault)).drop start) }

def rows (bytes : List UInt8) : List ListingRow := (items bytes).map (rowIn bytes)

def table (bytes : List UInt8) : Table := ⟨columns, (rows bytes).map ListingRow.cells⟩

/-- Faults stand in their rows, so that only the reading itself reports. -/
def tableEvents (bytes : List UInt8) : List Log.Event := (walk bytes).flatMap Segment.readEvents

end Listing

end Opstream
