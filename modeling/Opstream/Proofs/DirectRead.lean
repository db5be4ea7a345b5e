import Opstream.Proofs.WalkPlaces

namespace Opstream

/-- Every opcode has one operand of 16 bits. A machine that reads operands without a look at their
layout relies on it. -/
theorem Opcode.widths_eq_singleton (opcode : Opcode) : opcode.widths = [2] := by
  cases opcode; rfl

section Bytes

variable {bytes : List UInt8}

theorem readU16_of_lt (h : bytes.length < 2) :
    readU16 bytes = .error (.truncated 2 bytes.length) := by
  match bytes, h with
  | [], _ => rfl
  | [_], _ => rfl

theorem readU16_of_le (h : 2 ≤ bytes.length) :
    readU16 bytes = .ok (UInt16.ofNat (BigEndian.value (bytes.take 2))) := by
  match bytes, h with
  | high :: low :: rest, _ =>
      have hvalue : BigEndian.value [high, low] = 256 * high.toNat + low.toNat := by
        simp [BigEndian.value]
      rw [readU16, List.take_succ_cons, List.take_succ_cons, List.take_zero, hvalue]

theorem Operand.ofSlot_eq_toUInt64 (h : bytes.length = 2) :
    ofSlot bytes = (UInt16.ofNat (BigEndian.value bytes)).toUInt64 := by
  have hlt := BigEndian.value_lt bytes
  rw [h] at hlt
  exact (UInt16.toUInt64_ofNat' hlt).symm

end Bytes

theorem Layout.decode_eq_map_readU16 {layout : Layout} (h : layout.widths = [2])
    (bytes : List UInt8) :
    layout.decode bytes = (readU16 bytes).map fun v => ([v.toUInt64], 2) := by
  have hwidth : layout.operandsWidth = 2 := by
    rw [operandsWidth, h]
    rfl
  by_cases hlt : bytes.length < 2
  · rw [decode_of_lt (hwidth.symm ▸ hlt), readU16_of_lt hlt, hwidth]
    rfl
  · have hle : 2 ≤ bytes.length := Nat.not_lt.1 hlt
    have hslot := Operand.ofSlot_eq_toUInt64 (List.length_take_of_le hle)
    rw [decode_of_le (hwidth.symm ▸ hle), readU16_of_le hle, hwidth, h, Operand.ofSlots, hslot]
    rfl

theorem Segment.content_cut_tag (offset : Nat) (opcode : Opcode) (rest : List UInt8) :
    (cut offset opcode.tag rest).content =
      (opcode.layout.decode rest).map fun found => ⟨opcode, found.1⟩ := by
  have htag := Layout.ofTag_tag opcode
  by_cases hlt : rest.length < opcode.layout.operandsWidth
  · rw [cut_of_lt htag offset hlt, Layout.decode_of_lt hlt]
    rfl
  · have hle := Nat.not_lt.1 hlt
    rw [cut_of_le htag offset hle, Layout.decode_of_le hle]
    rfl

theorem content_eq_map_decode {bytes : List UInt8} {s : Segment} (hs : s ∈ walk bytes)
    (hknown : ∀ tag, s.content ≠ .error (.undefinedOpcode tag)) : ∃ opcode : Opcode,
      s.content = (opcode.layout.decode (bytes.drop (s.offset + 1))).map
        fun found => ⟨opcode, found.1⟩ := by
  obtain ⟨tag, rest, hdrop, hcut⟩ := exists_cut_of_mem_walk hs
  have hrest := drop_succ_of_drop hdrop
  cases htag : Layout.ofTag tag with
  | error fault =>
      obtain rfl := Layout.ofTag_eq_error htag
      rw [Segment.cut_of_undefined htag] at hcut
      exact absurd (congrArg Segment.content hcut) (hknown tag)
  | ok layout =>
      obtain ⟨rfl, _⟩ := Layout.tag_of_ofTag htag
      refine ⟨layout.opcode, ?_⟩
      rw [hrest, ← Segment.content_cut_tag s.offset]
      exact congrArg Segment.content hcut

theorem content_eq_map_readU16 {bytes : List UInt8} {s : Segment} (hs : s ∈ walk bytes)
    (hknown : ∀ tag, s.content ≠ .error (.undefinedOpcode tag)) : ∃ opcode : Opcode,
      s.content = (readU16 (bytes.drop (s.offset + 1))).map
        fun v => ⟨opcode, [v.toUInt64]⟩ := by
  obtain ⟨opcode, hcontent⟩ := content_eq_map_decode hs hknown
  refine ⟨opcode, ?_⟩
  rw [hcontent, Layout.decode_eq_map_readU16 opcode.widths_eq_singleton]
  cases readU16 (bytes.drop (s.offset + 1)) with
  | error fault => rfl
  | ok v => rfl

theorem readU16_of_mem_items {bytes : List UInt8} {d : Decoded} (h : .ok d ∈ items bytes) :
    d.offset < bytes.length ∧ ∃ v : UInt16,
      readU16 (bytes.drop (d.offset + 1)) = .ok v ∧ d.instruction.operands = [v.toUInt64] := by
  obtain ⟨s, hs, hitem⟩ := List.mem_map.1 h
  have hlt := offset_lt_of_mem_walk hs
  obtain ⟨hcontent, hoffset, _⟩ := Segment.item_eq_ok hitem
  obtain ⟨opcode, hread⟩ := content_eq_map_readU16 hs (by simp [hcontent])
  rw [hoffset] at hlt
  rw [hcontent, hoffset] at hread
  obtain ⟨v, hv, hi⟩ := Results.map_eq_ok_iff.1 hread.symm
  exact ⟨hlt, v, hv, congrArg Instruction.operands hi.symm⟩

theorem readU16_of_mem_items_truncated {bytes : List UInt8} {offset needed available : Nat}
    (h : .error (.malformed offset (.truncated needed available)) ∈ items bytes) :
    offset < bytes.length ∧
      readU16 (bytes.drop (offset + 1)) = .error (.truncated needed available) := by
  obtain ⟨s, hs, hitem⟩ := List.mem_map.1 h
  have hlt := offset_lt_of_mem_walk hs
  obtain ⟨source, hcontent⟩ := Segment.item_eq_error hitem
  rw [Segment.item, hcontent] at hitem
  cases hitem
  obtain ⟨opcode, hread⟩ := content_eq_map_readU16 hs (by simp [hcontent])
  rw [hcontent] at hread
  exact ⟨hlt, Results.map_eq_error_iff.1 hread.symm⟩

/-- Without a look at the layout, the direct read finds the operand of every instruction of a
stream, fails as the walk does where the operand is cut off, and on any bytes is the decoder. -/
theorem readU16_agrees_with_decode (bytes : List UInt8) :
    (∀ d, .ok d ∈ items bytes → d.offset < bytes.length ∧ ∃ v : UInt16,
      readU16 (bytes.drop (d.offset + 1)) = .ok v ∧ d.instruction.operands = [v.toUInt64]) ∧
    (∀ offset needed available,
      .error (.malformed offset (.truncated needed available)) ∈ items bytes →
      offset < bytes.length ∧
        readU16 (bytes.drop (offset + 1)) = .error (.truncated needed available)) ∧
    (∀ v : UInt16, readU16 bytes = .ok v ↔
      Opcode.constant.layout.decode bytes = .ok ([v.toUInt64], 2)) ∧
    (∀ fault, readU16 bytes = .error fault ↔
      Opcode.constant.layout.decode bytes = .error fault) := by
  have hdecode := @Layout.decode_eq_map_readU16 Opcode.constant.layout rfl bytes
  refine ⟨fun _ => readU16_of_mem_items, fun _ _ _ => readU16_of_mem_items_truncated, ?_, ?_⟩
  · intro v
    rw [hdecode, Results.map_eq_ok_iff]
    constructor
    · intro hv
      exact ⟨v, hv, rfl⟩
    · rintro ⟨w, hw, heq⟩
      have hwv : w.toUInt64 = v.toUInt64 := List.singleton_inj.1 (congrArg Prod.fst heq)
      rw [hw, UInt16.toUInt64_inj.1 hwv]
  · intro fault
    rw [hdecode, Results.map_eq_error_iff]

theorem readU16_agrees_with_decode_cut_short :
    (∃ v : UInt16, readU16 [1, 2, 0, 7] = .ok v ∧ [258] = [v.toUInt64]) ∧
    readU16 [7] = .error (.truncated 2 1) ∧
    Opcode.constant.layout.decode [1, 2, 0, 7] = .ok ([258], 2) := by
  have hitems : items [255, 0, 1, 2, 0, 7] = [.error (.malformed 0 (.undefinedOpcode 255)),
      .ok ⟨1, ⟨.constant, [258]⟩, 3⟩, .error (.malformed 4 (.truncated 2 1))] := by cbv
  obtain ⟨hdecoded, hcut, _⟩ := readU16_agrees_with_decode [255, 0, 1, 2, 0, 7]
  obtain ⟨_, _, hread, _⟩ := readU16_agrees_with_decode [1, 2, 0, 7]
  rw [hitems] at hdecoded hcut
  exact ⟨(hdecoded ⟨1, ⟨.constant, [258]⟩, 3⟩ (by simp)).2, (hcut 4 2 1 (by simp)).2,
    (hread 258).1 rfl⟩

end Opstream
