import Opstream.Listing
import Opstream.Proofs.ListingText

namespace Opstream

theorem Opcode.arity_eq_one (opcode : Opcode) : opcode.arity = 1 := by
  cases opcode; rfl

/-- A row of a table and a line of a listing that say the same. The cells are those under Offset,
Opcode, Operands and Bytes. -/
inductive SameText : List String → List Char → Prop
  | instruction (offset opcode operands code : String) (h : opcode ≠ "ERROR") :
      SameText [offset, opcode, operands, code] (offset ++ " " ++ opcode ++ " " ++ operands).toList
  | fault (offset message code : String) :
      SameText [offset, "ERROR", message ++ " at " ++ offset, code]
        ("ERROR: " ++ (message ++ " at " ++ offset)).toList

namespace Segment

/-- What the table says of a segment, whose bytes need not be cut out of the stream again. -/
def row (s : Segment) : ListingRow :=
  match s.item with
  | .ok d =>
      { offset := offsetText d.offset
        opcode := d.instruction.opcode.name
        operands := ", ".intercalate (d.instruction.operands.map fun v => v.toNat.repr)
        bytes := Hex.text s.bytes }
  | .error fault =>
      { offset := offsetText s.offset
        opcode := "ERROR"
        operands := fault.message
        bytes := Hex.text s.bytes }

variable {bytes : List UInt8} {s : Segment}

theorem slice_eq (hs : s ∈ walk bytes) :
    (bytes.take (s.offset + s.width)).drop s.offset = s.bytes := by
  rw [← List.take_drop, ← (bytes_of_mem_walk hs).2]

theorem stopIn_eq (hs : s ∈ walk bytes) {fault : Fault} (h : s.item = .error fault) :
    Listing.stopIn bytes fault = s.offset + s.width := by
  obtain ⟨hstop, _⟩ := bytes_of_mem_walk hs
  obtain ⟨tag, rest, hdrop, hs⟩ := exists_cut_of_mem_walk hs
  rcases cut_cases s.offset tag rest with ⟨_, hcut⟩ | ⟨_, _, _, hcut⟩ | ⟨_, _, _, hcut⟩
  · rw [← hs] at hcut
    have hwidth : s.width = 1 := congrArg width hcut
    have hfault : s.item = .error (.malformed s.offset (.undefinedOpcode tag)) :=
      congrArg item hcut
    rw [hfault] at h
    cases h
    rw [hwidth] at hstop ⊢
    exact Nat.min_eq_left hstop
  · rw [← hs] at hcut
    have hwidth : s.width = rest.length + 1 := congrArg width hcut
    have hlen := length_of_drop hdrop
    have hfault : s.item = .error (.malformed s.offset _) := congrArg item hcut
    rw [hfault] at h
    cases h
    rw [Listing.stopIn, if_pos (by rfl)]
    omega
  · rw [← hs] at hcut
    have hitem : s.item = .ok _ := congrArg item hcut
    rw [hitem] at h
    cases h

theorem rowIn_eq (hs : s ∈ walk bytes) : Listing.rowIn bytes s.item = s.row := by
  have hslice := slice_eq hs
  cases hitem : s.item with
  | error fault =>
      have hstop := stopIn_eq hs hitem
      obtain ⟨source, rfl⟩ := fault_of_item hitem
      rw [row, hitem]
      dsimp only [Listing.rowIn, Fault.offset?, Option.getD_some]
      rw [hstop, hslice]
  | ok d =>
      obtain ⟨_, hoffset, hwidth⟩ := item_eq_ok hitem
      rw [hoffset, hwidth] at hslice
      rw [row, hitem]
      dsimp only [Listing.rowIn]
      rw [hslice]

theorem row_of_error {fault : Fault} (h : s.content = .error fault) :
    s.row = ⟨offsetText s.offset, "ERROR", fault.message ++ " at " ++ offsetText s.offset,
      Hex.text s.bytes⟩ := by
  rw [row, item, h]
  rfl

/-- As long as every opcode has one operand, a row has nothing to put between operands. -/
theorem row_of_ok (hs : s ∈ walk bytes) {i : Instruction} (h : s.content = .ok i) :
    ∃ v : Operand, i.operands = [v] ∧
      s.row = ⟨offsetText s.offset, i.opcode.name, v.toNat.repr, Hex.text s.bytes⟩ := by
  have hlen := length_operands_of_encode (encode_of_mem_walk hs h)
  rw [Opcode.arity_eq_one] at hlen
  obtain ⟨v, hv⟩ := List.length_eq_one_iff.1 hlen
  refine ⟨v, hv, ?_⟩
  rw [row, item, h]
  dsimp only
  rw [hv]
  exact congrArg (fun cell => ListingRow.mk _ _ cell _) String.intercalate_singleton

theorem bytes_row (s : Segment) : s.row.bytes = Hex.text s.bytes := by
  cases h : s.content with
  | error fault => rw [row, item, h]
  | ok i => rw [row, item, h]

theorem sameText_row (hs : s ∈ walk bytes) : SameText s.row.cells s.line.toList := by
  cases h : s.content with
  | error fault =>
      rw [row_of_error h, line_of_error h, ← String.append_assoc]
      exact .fault (offsetText s.offset) fault.message (Hex.text s.bytes)
  | ok i =>
      obtain ⟨v, hv, hrow⟩ := row_of_ok hs h
      have hname : i.opcode.name ≠ "ERROR" := by
        cases i.opcode
        decide
      have htext : i.text = i.opcode.name ++ " " ++ v.toNat.repr := by
        apply String.toList_injective
        rw [Instruction.toList_text, hv]
        simp [operandsText, Decimal.digits]
      have hline : s.line = offsetText s.offset ++ " " ++ i.opcode.name ++ " " ++ v.toNat.repr := by
        rw [line_of_ok h (length_operands_of_encode (encode_of_mem_walk hs h)), htext]
        simp only [String.append_assoc]
      rw [hrow, hline]
      exact .instruction (offsetText s.offset) i.opcode.name v.toNat.repr (Hex.text s.bytes) hname

end Segment

theorem Listing.rows_eq (bytes : List UInt8) : rows bytes = (walk bytes).map Segment.row := by
  rw [rows, items, List.map_map]
  exact List.map_congr_left fun _ => Segment.rowIn_eq

/-- A table has a row for every line of the listing, and the row says what the line says. -/
theorem table_says_listing (bytes : List UInt8) :
    (Listing.table bytes).titles = ["Offset", "Opcode", "Operands", "Bytes"] ∧
    List.Forall₂ SameText (Listing.table bytes).rows
      (Text.lines (Listing.text bytes).toList) := by
  refine ⟨rfl, ?_⟩
  have hrows : (Listing.table bytes).rows = (walk bytes).map fun s => s.row.cells := by
    rw [Listing.table, Listing.rows_eq, List.map_map]
    rfl
  rw [hrows, Listing.lines_text, Listing.lines, List.map_map, List.forall₂_map_left_iff,
    List.forall₂_map_right_iff, List.forall₂_same]
  exact fun _ => Segment.sameText_row

end Opstream
