import Mathlib.Data.List.Zip
import Opstream.Proofs.Results
import Opstream.Proofs.Slots
import Opstream.Walk

namespace Opstream

namespace Layout

variable {layout : Layout} {operands : List Operand} {bytes code : List UInt8}

/-- Every slot has an operand that fits it, and every operand has a slot. -/
def Holds (layout : Layout) (operands : List Operand) : Prop :=
  List.Forall₂ (fun width v => Operand.fits width v = true) layout.widths operands

theorem holds_iff : layout.Holds operands ↔
    operands.length = layout.arity ∧ layout.overflow? operands = none := by
  rw [Holds, List.forall₂_iff_zip, overflow?, List.find?_eq_none]
  constructor
  · rintro ⟨hlen, hfits⟩
    refine ⟨hlen.symm, ?_⟩
    rintro ⟨v, width⟩ hmem
    have hswap : (width, v) ∈ layout.widths.zip operands := by
      rw [← List.zip_swap operands]
      exact List.mem_map_of_mem hmem
    simpa using hfits hswap
  · rintro ⟨hlen, hnone⟩
    refine ⟨hlen.symm, ?_⟩
    intro width v hmem
    have hswap : (v, width) ∈ operands.zip layout.widths := by
      rw [← List.zip_swap layout.widths]
      exact List.mem_map_of_mem hmem
    simpa using hnone _ hswap

theorem encode_eq_ok_iff : layout.encode operands = .ok code ↔
    layout.Holds operands ∧ code = layout.opcode.tag :: Operand.slots layout.widths operands := by
  rw [holds_iff, encode]
  by_cases hlen : operands.length = layout.arity
  · cases hover : layout.overflow? operands with
    | none => simp [hlen, eq_comm]
    | some vw => simp [hlen]
  · simp [hlen]

theorem encode_eq_error_iff {fault : Fault} : layout.encode operands = .error fault ↔
    (operands.length ≠ layout.arity ∧
      fault = .operandCount layout.name layout.arity operands.length) ∨
    (operands.length = layout.arity ∧ ∃ v width,
      layout.overflow? operands = some (v, width) ∧
        fault = .operandOverflow layout.name v width) := by
  rw [encode]
  by_cases hlen : operands.length = layout.arity
  · cases hover : layout.overflow? operands with
    | none => simp [hlen]
    | some vw =>
        obtain ⟨v, width⟩ := vw
        simp [hlen, eq_comm]
  · simp [hlen, eq_comm]

theorem mem_of_overflow? {v : Operand} {width : Nat}
    (h : layout.overflow? operands = some (v, width)) : (v, width) ∈ operands.zip layout.widths :=
  List.mem_of_find?_eq_some h

theorem encode_of_holds (h : layout.Holds operands) :
    layout.encode operands = .ok (layout.opcode.tag :: Operand.slots layout.widths operands) :=
  encode_eq_ok_iff.2 ⟨h, rfl⟩

theorem Holds.length_slots (h : layout.Holds operands) :
    (Operand.slots layout.widths operands).length = layout.operandsWidth :=
  Operand.length_slots (List.Forall₂.length_eq h).symm

theorem decode_slots (h : layout.Holds operands) (rest : List UInt8) :
    layout.decode (Operand.slots layout.widths operands ++ rest) =
      .ok (operands, layout.operandsWidth) := by
  rw [decode_of_le, Operand.ofSlots_slots h]
  rw [List.length_append, h.length_slots]
  omega

theorem holds_ofSlots (h : layout.operandsWidth ≤ bytes.length) :
    layout.Holds (Operand.ofSlots layout.widths bytes) := Operand.fits_ofSlots h

theorem slots_ofSlots (h : layout.operandsWidth ≤ bytes.length) :
    Operand.slots layout.widths (Operand.ofSlots layout.widths bytes) =
      Operand.clearPadding layout.widths (bytes.take layout.operandsWidth) := by
  have hlen : (bytes.take layout.operandsWidth).length = layout.widths.sum :=
    List.length_take_of_le h
  have hread := Operand.ofSlots_append hlen.ge (bytes.drop layout.operandsWidth)
  rw [List.take_append_drop] at hread
  rw [hread, Operand.slots_ofSlots hlen]

/-- Encoding undoes decoding up to padding. -/
theorem encode_decode (layout : Layout) (bytes : List UInt8) :
    (bytes.length < layout.operandsWidth →
      layout.decode bytes = .error (.truncated layout.operandsWidth bytes.length)) ∧
    (layout.operandsWidth ≤ bytes.length → ∃ operands,
      layout.decode bytes = .ok (operands, layout.operandsWidth) ∧
      layout.encode operands = .ok (layout.opcode.tag ::
        Operand.clearPadding layout.widths (bytes.take layout.operandsWidth)) ∧
      (layout.encode operands = .ok (layout.opcode.tag :: bytes.take layout.operandsWidth) ↔
        ∀ k b, (bytes.take layout.operandsWidth)[k]? = some b →
          Operand.IsPadding layout.widths k → b = 0)) := by
  refine ⟨decode_of_lt, fun h => ⟨_, decode_of_le h, ?_, ?_⟩⟩
  · rw [encode_of_holds (holds_ofSlots h), slots_ofSlots h]
  · rw [encode_of_holds (holds_ofSlots h), slots_ofSlots h, Except.ok.injEq, List.cons.injEq,
      ← Operand.clearPadding_eq_self_iff]
    simp

theorem encode_decode_wide_slot : ∃ operands,
    decode ⟨.constant, "OpWide", [1, 10]⟩ [7, 1, 2, 0, 0, 0, 0, 0, 0, 1, 0, 9] =
      .ok (operands, 11) ∧
    encode ⟨.constant, "OpWide", [1, 10]⟩ operands =
      .ok [0, 7, 0, 0, 0, 0, 0, 0, 0, 0, 1, 0] ∧
    decode ⟨.constant, "OpWide", [1, 10]⟩ [7] = .error (.truncated 11 1) := by
  have hshort := (encode_decode ⟨.constant, "OpWide", [1, 10]⟩ [7]).1 (by decide)
  obtain ⟨operands, hdecode, hencode, _⟩ :=
    (encode_decode ⟨.constant, "OpWide", [1, 10]⟩ [7, 1, 2, 0, 0, 0, 0, 0, 0, 1, 0, 9]).2
      (by decide)
  have hclear : Operand.clearPadding [1, 10] [7, 1, 2, 0, 0, 0, 0, 0, 0, 1, 0] =
      [7, 0, 0, 0, 0, 0, 0, 0, 0, 1, 0] := by decide
  refine ⟨operands, hdecode, ?_, hshort⟩
  rw [hencode]
  exact congrArg (fun region => Except.ok (0 :: region)) hclear

end Layout

theorem length_operands_of_encode {i : Instruction} {code : List UInt8}
    (h : i.encode = .ok code) : i.operands.length = i.opcode.arity :=
  (Layout.holds_iff.1 (Layout.encode_eq_ok_iff.1 h).1).1

namespace Cursor

/-- Reads instructions whose layouts are known. A tag is passed over unread, and the next
instruction begins behind the bytes that the operands took. -/
def decodeEach (c : Cursor) : List Layout → Except Fault (List (List Operand × Nat) × Cursor)
  | [] => .ok ([], c)
  | layout :: layouts => do
      let (operands, consumed) ← layout.decode (c.rest.drop 1)
      let (more, d) ←
        decodeEach ⟨c.offset + (1 + consumed), c.rest.drop (1 + consumed)⟩ layouts
      pure ((operands, consumed) :: more, d)

theorem decodeEach_cons {layout : Layout} {operands : List Operand} {code : List UInt8}
    (h : layout.encode operands = .ok code) (offset : Nat) (rest : List UInt8)
    (layouts : List Layout) :
    decodeEach ⟨offset, code ++ rest⟩ (layout :: layouts) = (do
      let (more, d) ← decodeEach ⟨offset + code.length, rest⟩ layouts
      pure ((operands, layout.operandsWidth) :: more, d)) := by
  obtain ⟨hholds, rfl⟩ := Layout.encode_eq_ok_iff.1 h
  have hlen : (Operand.slots layout.widths operands).length = layout.operandsWidth :=
    hholds.length_slots
  have hread := Layout.decode_slots hholds rest
  simp only [decodeEach, List.cons_append, List.drop_succ_cons, List.drop_zero, hread,
    Results.ok_bind, List.length_cons, hlen, Nat.add_comm 1, List.drop_left' hlen]

/-- Decoding undoes encoding, whatever the layouts and whatever follows. -/
theorem decodeEach_encodings {parts : List (Layout × List Operand)} {codes : List (List UInt8)}
    (h : List.Forall₂ (fun part code => part.1.encode part.2 = .ok code) parts codes)
    (trailing : List UInt8) :
    (start (codes.flatten ++ trailing)).decodeEach (parts.map Prod.fst) =
      .ok (parts.map fun part => (part.2, part.1.operandsWidth),
        ⟨codes.flatten.length, trailing⟩) := by
  -- The place of the cursor is general, since every instruction moves it on.
  have hrun : ∀ offset, decodeEach ⟨offset, codes.flatten ++ trailing⟩ (parts.map Prod.fst) =
      .ok (parts.map fun part => (part.2, part.1.operandsWidth),
        ⟨offset + codes.flatten.length, trailing⟩) := by
    induction h with
    | nil => intro offset; rfl
    | @cons part code parts codes hcode _ ih =>
        intro offset
        rw [List.map_cons, List.flatten_cons, List.append_assoc, decodeEach_cons hcode, ih,
          List.length_append, ← Nat.add_assoc]
        rfl
  simpa [start] using hrun 0

theorem decodeEach_wide_and_null : decodeEach
    (start ([[0, 171, 0, 0, 255, 255, 255, 255, 255, 255, 255, 255], [0]].flatten ++ [7, 0]))
      [⟨.constant, "OpWide", [1, 10, 0]⟩, ⟨.constant, "OpNull", []⟩] =
    .ok ([([171, 18446744073709551615, 0], 11), ([], 0)], ⟨13, [7, 0]⟩) := by
  have hcodes : List.Forall₂
      (fun (part : Layout × List Operand) code => part.1.encode part.2 = .ok code)
      [(⟨.constant, "OpWide", [1, 10, 0]⟩, [171, 18446744073709551615, 0]),
        (⟨.constant, "OpNull", []⟩, [])]
      [[0, 171, 0, 0, 255, 255, 255, 255, 255, 255, 255, 255], [0]] :=
    .cons rfl (.cons rfl .nil)
  exact decodeEach_encodings hcodes [7, 0]

end Cursor

end Opstream
