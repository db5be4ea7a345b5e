import Opstream.Proofs.LayoutRoundTrip

namespace Opstream

theorem Opcode.width_le_maxWidth (opcode : Opcode) :
    ∀ width ∈ opcode.widths, width ≤ Operand.maxWidth := by
  cases opcode; decide

section Place

variable {bytes rest : List UInt8} {offset : Nat} {tag : UInt8}

theorem getElem?_of_drop (h : bytes.drop offset = tag :: rest) : bytes[offset]? = some tag := by
  rw [← List.head?_drop, h, List.head?_cons]

theorem drop_succ_of_drop (h : bytes.drop offset = tag :: rest) :
    bytes.drop (offset + 1) = rest := by
  rw [← List.drop_drop, h, List.drop_one, List.tail_cons]

theorem length_of_drop (h : bytes.drop offset = tag :: rest) :
    bytes.length = offset + rest.length + 1 := by
  have hlen : bytes.length - offset = rest.length + 1 := by
    rw [← List.length_drop, h, List.length_cons]
  omega

end Place

namespace Segment

/-- All that a step of a walk can meet: a tag of no opcode, an instruction that is cut short, or
an instruction. -/
theorem cut_cases (offset : Nat) (tag : UInt8) (rest : List UInt8) :
    (Layout.ofTag tag = .error (.undefinedOpcode tag) ∧
      cut offset tag rest = ⟨offset, [tag], .error (.undefinedOpcode tag)⟩) ∨
    (∃ opcode : Opcode, opcode.tag = tag ∧ rest.length < opcode.layout.operandsWidth ∧
      cut offset tag rest = ⟨offset, tag :: rest,
        .error (.truncated opcode.layout.operandsWidth rest.length)⟩) ∨
    (∃ opcode : Opcode, opcode.tag = tag ∧ opcode.layout.operandsWidth ≤ rest.length ∧
      cut offset tag rest = ⟨offset, tag :: rest.take opcode.layout.operandsWidth,
        .ok ⟨opcode, Operand.ofSlots opcode.widths rest⟩⟩) := by
  cases htag : Layout.ofTag tag with
  | error fault =>
      obtain rfl := Layout.ofTag_eq_error htag
      exact .inl ⟨rfl, cut_of_undefined htag offset rest⟩
  | ok layout =>
      obtain ⟨htag', hlayout⟩ := Layout.tag_of_ofTag htag
      rw [hlayout] at htag
      by_cases hlt : rest.length < layout.opcode.layout.operandsWidth
      · exact .inr (.inl ⟨layout.opcode, htag', hlt, cut_of_lt htag offset hlt⟩)
      · have hle := Nat.not_lt.1 hlt
        exact .inr (.inr ⟨layout.opcode, htag', hle, cut_of_le htag offset hle⟩)

@[simp] theorem offset_cut (offset : Nat) (tag : UInt8) (rest : List UInt8) :
    (cut offset tag rest).offset = offset := by
  rcases cut_cases offset tag rest with ⟨_, h⟩ | ⟨_, _, _, h⟩ | ⟨_, _, _, h⟩
  all_goals rw [h]

theorem encode_of_cut {offset : Nat} {tag : UInt8} {rest : List UInt8} {i : Instruction}
    (h : (cut offset tag rest).content = .ok i) :
    i.encode = .ok (cut offset tag rest).bytes := by
  rcases cut_cases offset tag rest with ⟨_, hcut⟩ | ⟨_, _, _, hcut⟩ | ⟨opcode, htag, hle, hcut⟩
  · rw [hcut] at h
    cases h
  · rw [hcut] at h
    cases h
  -- No opcode has a slot wider than an operand, so no byte is lost to padding.
  · have hclear : Operand.clearPadding opcode.layout.widths
        (rest.take opcode.layout.operandsWidth) = rest.take opcode.layout.operandsWidth :=
      Operand.clearPadding_eq_self_iff.2 fun k _ _ hk =>
        absurd hk (Operand.not_isPadding opcode.width_le_maxWidth k)
    rw [hcut] at h ⊢
    cases h
    have hcode := Layout.encode_of_holds (Layout.holds_ofSlots hle)
    rw [Layout.slots_ofSlots hle, hclear] at hcode
    rw [← htag]
    exact hcode

theorem item_eq_ok {s : Segment} {d : Decoded} (h : s.item = .ok d) :
    s.content = .ok d.instruction ∧ s.offset = d.offset ∧ s.width = d.width := by
  cases hs : s.content with
  | error fault =>
      rw [item, hs] at h
      cases h
  | ok i =>
      rw [item, hs] at h
      cases h
      exact ⟨rfl, rfl, rfl⟩

theorem item_eq_error {s : Segment} {fault : Fault} (h : s.item = .error fault) :
    ∃ source, s.content = .error source := by
  cases hs : s.content with
  | error source => exact ⟨source, rfl⟩
  | ok i =>
      rw [item, hs] at h
      cases h

theorem fault_of_item {s : Segment} {fault : Fault} (h : s.item = .error fault) :
    ∃ source, fault = .malformed s.offset source := by
  obtain ⟨source, hsource⟩ := item_eq_error h
  rw [item, hsource] at h
  cases h
  exact ⟨source, rfl⟩

theorem cut_encode {i : Instruction} {code : List UInt8} (h : i.encode = .ok code) :
    ∃ tag region, code = tag :: region ∧
      ∀ offset rest, cut offset tag (region ++ rest) = ⟨offset, code, .ok i⟩ := by
  obtain ⟨hholds, rfl⟩ := Layout.encode_eq_ok_iff.1 h
  refine ⟨_, _, rfl, fun offset rest => ?_⟩
  have hdecode := Layout.decode_slots hholds rest
  have htake : (Operand.slots i.opcode.layout.widths i.operands ++ rest).take
      i.opcode.layout.operandsWidth = Operand.slots i.opcode.layout.widths i.operands :=
    List.take_left' hholds.length_slots
  have htag : Layout.ofTag i.opcode.layout.opcode.tag = .ok i.opcode.layout := Layout.ofTag_tag _
  simp only [cut, htag, hdecode, htake]

end Segment

namespace Cursor

@[elab_as_elim]
theorem walk_induction {motive : Nat → List UInt8 → Prop}
    (nil : ∀ offset, motive offset [])
    (cons : ∀ offset tag rest,
      motive (offset + (Segment.cut offset tag rest).width)
        ((tag :: rest).drop (Segment.cut offset tag rest).width) →
      motive offset (tag :: rest))
    (offset : Nat) (bytes : List UInt8) : motive offset bytes := by
  induction h : bytes.length using Nat.strongRecOn generalizing offset bytes with
  | ind n ih =>
      cases bytes with
      | nil => exact nil offset
      | cons tag rest =>
          have hpos := Segment.width_cut_pos offset tag rest
          rw [List.length_cons] at h
          refine cons offset tag rest (ih _ ?_ _ _ rfl)
          rw [List.length_drop, List.length_cons]
          omega

theorem exists_cut_of_mem_segments {offset : Nat} {bytes : List UInt8} {s : Segment}
    (h : s ∈ segments ⟨offset, bytes⟩) : ∃ k tag rest,
      bytes.drop k = tag :: rest ∧ s = Segment.cut (offset + k) tag rest := by
  induction offset, bytes using walk_induction with
  | nil offset =>
      rw [segments_nil] at h
      cases h
  | cons offset tag rest ih =>
      rw [segments_cons] at h
      rcases List.mem_cons.1 h with rfl | h
      · exact ⟨0, tag, rest, rfl, rfl⟩
      · obtain ⟨k, tag', rest', hdrop, rfl⟩ := ih h
        rw [List.drop_drop] at hdrop
        exact ⟨_, tag', rest', hdrop, by rw [Nat.add_assoc]⟩

theorem segments_encode {i : Instruction} {code : List UInt8} (h : i.encode = .ok code)
    (offset : Nat) (rest : List UInt8) : segments ⟨offset, code ++ rest⟩ =
      ⟨offset, code, .ok i⟩ :: segments ⟨offset + code.length, rest⟩ := by
  obtain ⟨tag, region, rfl, hcut⟩ := Segment.cut_encode h
  rw [List.cons_append, segments_cons, hcut]
  simp [Segment.width]

end Cursor

theorem exists_cut_of_mem_walk {bytes : List UInt8} {s : Segment} (h : s ∈ walk bytes) :
    ∃ tag rest, bytes.drop s.offset = tag :: rest ∧ s = Segment.cut s.offset tag rest := by
  obtain ⟨k, tag, rest, hdrop, rfl⟩ := Cursor.exists_cut_of_mem_segments h
  rw [Nat.zero_add, Segment.offset_cut]
  exact ⟨tag, rest, hdrop, rfl⟩

theorem offset_lt_of_mem_walk {bytes : List UInt8} {s : Segment} (h : s ∈ walk bytes) :
    s.offset < bytes.length := by
  obtain ⟨tag, rest, hdrop, _⟩ := exists_cut_of_mem_walk h
  have hlen := length_of_drop hdrop
  omega

theorem bytes_of_mem_walk {bytes : List UInt8} {s : Segment} (h : s ∈ walk bytes) :
    s.offset + s.width ≤ bytes.length ∧ s.bytes = (bytes.drop s.offset).take s.width := by
  obtain ⟨tag, rest, hdrop, hs⟩ := exists_cut_of_mem_walk h
  have hwidth := Segment.width_cut_le s.offset tag rest
  have hbytes := Segment.take_width_cut s.offset tag rest
  have hlen := length_of_drop hdrop
  rw [← hs] at hwidth hbytes
  constructor
  · rw [List.length_cons] at hwidth
    omega
  · rw [hdrop, hbytes]

theorem content_of_mem_walk {bytes : List UInt8} {s : Segment} (h : s ∈ walk bytes) :
    (∃ i, s.content = .ok i ∧ i.operands.length = i.opcode.arity) ∨
      (∃ tag, s.content = .error (.undefinedOpcode tag)) ∨
      ∃ needed available, s.content = .error (.truncated needed available) := by
  obtain ⟨tag, rest, _, hs⟩ := exists_cut_of_mem_walk h
  rcases Segment.cut_cases s.offset tag rest with ⟨_, hcut⟩ | ⟨_, _, _, hcut⟩ | ⟨_, _, _, hcut⟩
  · rw [hs, hcut]
    exact .inr (.inl ⟨tag, rfl⟩)
  · rw [hs, hcut]
    exact .inr (.inr ⟨_, _, rfl⟩)
  · rw [hs, hcut]
    exact .inl ⟨_, rfl, Operand.length_ofSlots _ _⟩

theorem encode_of_mem_walk {bytes : List UInt8} {s : Segment} {i : Instruction}
    (h : s ∈ walk bytes) (hs : s.content = .ok i) : i.encode = .ok s.bytes := by
  obtain ⟨tag, rest, _, hcut⟩ := exists_cut_of_mem_walk h
  rw [hcut] at hs ⊢
  exact Segment.encode_of_cut hs

end Opstream
