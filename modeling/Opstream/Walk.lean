import Opstream.Instruction

namespace Opstream

structure Decoded where
  offset : Nat
  instruction : Instruction
  width : Nat
  deriving DecidableEq

/-- A piece of a stream: an instruction, or the bytes to pass over where none can be read. -/
structure Segment where
  offset : Nat
  bytes : List UInt8
  content : Except Fault Instruction

namespace Segment

def width (s : Segment) : Nat := s.bytes.length

/-- Cuts off the segment that begins with `tag`. After an undefined tag the next byte may start
an instruction; a truncated instruction leaves no byte for another one. -/
def cut (offset : Nat) (tag : UInt8) (rest : List UInt8) : Segment :=
  match Layout.ofTag tag with
  | .error fault => ⟨offset, [tag], .error fault⟩
  | .ok layout =>
      match layout.decode rest with
      | .error fault => ⟨offset, tag :: rest, .error fault⟩
      | .ok (operands, consumed) =>
          ⟨offset, tag :: rest.take consumed, .ok ⟨layout.opcode, operands⟩⟩

def item (s : Segment) : Except Fault Decoded :=
  match s.content with
  | .ok i => .ok ⟨s.offset, i, s.width⟩
  | .error fault => .error (fault.atOffset s.offset)

theorem cut_of_undefined {tag : UInt8} {fault : Fault} (h : Layout.ofTag tag = .error fault)
    (offset : Nat) (rest : List UInt8) :
    cut offset tag rest = ⟨offset, [tag], .error fault⟩ := by
  simp [cut, h]

theorem cut_of_lt {tag : UInt8} {layout : Layout} (h : Layout.ofTag tag = .ok layout)
    (offset : Nat) {rest : List UInt8} (hlt : rest.length < layout.operandsWidth) :
    cut offset tag rest =
      ⟨offset, tag :: rest, .error (.truncated layout.operandsWidth rest.length)⟩ := by
  simp [cut, h, Layout.decode_of_lt hlt]

theorem cut_of_le {tag : UInt8} {layout : Layout} (h : Layout.ofTag tag = .ok layout)
    (offset : Nat) {rest : List UInt8} (hle : layout.operandsWidth ≤ rest.length) :
    cut offset tag rest = ⟨offset, tag :: rest.take layout.operandsWidth,
      .ok ⟨layout.opcode, Operand.ofSlots layout.widths rest⟩⟩ := by
  simp [cut, h, Layout.decode_of_le hle]

theorem bytes_cut (offset : Nat) (tag : UInt8) (rest : List UInt8) :
    ∃ n, (cut offset tag rest).bytes = tag :: rest.take n := by
  cases h : Layout.ofTag tag with
  | error fault => exact ⟨0, by simp [cut_of_undefined h]⟩
  | ok layout =>
      by_cases hlt : rest.length < layout.operandsWidth
      · exact ⟨rest.length, by simp [cut_of_lt h offset hlt]⟩
      · exact ⟨layout.operandsWidth, by simp [cut_of_le h offset (Nat.not_lt.1 hlt)]⟩

theorem width_cut_pos (offset : Nat) (tag : UInt8) (rest : List UInt8) :
    0 < (cut offset tag rest).width := by
  obtain ⟨n, hn⟩ := bytes_cut offset tag rest
  simp [width, hn]

theorem bytes_cut_append (offset : Nat) (tag : UInt8) (rest : List UInt8) :
    (cut offset tag rest).bytes ++ (tag :: rest).drop (cut offset tag rest).width =
      tag :: rest := by
  obtain ⟨n, hn⟩ := bytes_cut offset tag rest
  simp only [width, hn, List.cons_append, List.length_cons, List.drop_succ_cons, List.length_take,
    List.cons.injEq, true_and]
  by_cases h : n ≤ rest.length
  · rw [Nat.min_eq_left h, List.take_append_drop]
  · have hle : rest.length ≤ n := by omega
    rw [Nat.min_eq_right hle, List.take_of_length_le hle, List.drop_length, List.append_nil]

theorem width_cut_le (offset : Nat) (tag : UInt8) (rest : List UInt8) :
    (cut offset tag rest).width ≤ (tag :: rest).length := by
  have hsplit := congrArg List.length (bytes_cut_append offset tag rest)
  rw [← hsplit, List.length_append]
  exact Nat.le_add_right ..

theorem take_width_cut (offset : Nat) (tag : UInt8) (rest : List UInt8) :
    (tag :: rest).take (cut offset tag rest).width = (cut offset tag rest).bytes := by
  have hsplit := congrArg (List.take (cut offset tag rest).width) (bytes_cut_append offset tag rest)
  rw [width, List.take_left] at hsplit
  exact hsplit.symm

end Segment

/-- The place of a walk in a stream: how many bytes lie behind it, and those ahead. -/
structure Cursor where
  offset : Nat
  rest : List UInt8

namespace Cursor

def start (bytes : List UInt8) : Cursor := ⟨0, bytes⟩

def next (c : Cursor) : Option Segment × Cursor :=
  match c.rest with
  | [] => (none, c)
  | tag :: rest =>
      let s := Segment.cut c.offset tag rest
      (some s, ⟨c.offset + s.width, c.rest.drop s.width⟩)

def calls : Nat → Cursor → List (Option Segment × Cursor)
  | 0, _ => []
  | n + 1, c => c.next :: calls n c.next.2

theorem next_nil (offset : Nat) : next ⟨offset, []⟩ = (none, ⟨offset, []⟩) := rfl

theorem next_cons (offset : Nat) (tag : UInt8) (rest : List UInt8) :
    next ⟨offset, tag :: rest⟩ = (some (Segment.cut offset tag rest),
      ⟨offset + (Segment.cut offset tag rest).width,
        (tag :: rest).drop (Segment.cut offset tag rest).width⟩) := rfl

theorem length_rest_of_next {c d : Cursor} {s : Segment} (h : c.next = (some s, d)) :
    d.rest.length < c.rest.length := by
  obtain ⟨offset, bytes⟩ := c
  cases bytes with
  | nil => simp [next_nil] at h
  | cons tag rest =>
      have hpos := Segment.width_cut_pos offset tag rest
      rw [next_cons] at h
      cases h
      simp only [List.length_drop, List.length_cons]
      omega

def segments (c : Cursor) : List Segment :=
  match _h : c.next with
  | (none, _) => []
  | (some s, d) => s :: d.segments
termination_by c.rest.length
decreasing_by exact length_rest_of_next ‹_›

theorem segments_nil (offset : Nat) : segments ⟨offset, []⟩ = [] := by
  rw [segments]; rfl

theorem segments_cons (offset : Nat) (tag : UInt8) (rest : List UInt8) :
    segments ⟨offset, tag :: rest⟩ =
      Segment.cut offset tag rest ::
        segments ⟨offset + (Segment.cut offset tag rest).width,
          (tag :: rest).drop (Segment.cut offset tag rest).width⟩ := by
  rw [segments]; rfl

theorem flatMap_bytes_segments (c : Cursor) : c.segments.flatMap Segment.bytes = c.rest := by
  obtain ⟨offset, bytes⟩ := c
  induction h : bytes.length using Nat.strongRecOn generalizing offset bytes with
  | ind n ih =>
      cases bytes with
      | nil => simp [segments_nil]
      | cons tag rest =>
          have hpos := Segment.width_cut_pos offset tag rest
          simp only [List.length_cons] at h
          rw [segments_cons, List.flatMap_cons,
            ih _ (by simp only [List.length_drop, List.length_cons]; omega) _ _ rfl]
          exact Segment.bytes_cut_append offset tag rest

end Cursor

/-- Every byte of a stream lies in exactly one of its segments. -/
def walk (bytes : List UInt8) : List Segment := (Cursor.start bytes).segments

def items (bytes : List UInt8) : List (Except Fault Decoded) := (walk bytes).map Segment.item

def decodeAll (bytes : List UInt8) : Except Fault (List Decoded) := (items bytes).mapM id

end Opstream
