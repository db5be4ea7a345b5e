import Opstream.Proofs.CursorRun
import Opstream.Proofs.InPlaceCoding
import Opstream.Proofs.ListingContent
import Opstream.Proofs.TableListing

namespace Opstream

open Memory

theorem Opcode.operandsWidth_lt_wordSize (opcode : Opcode) :
    opcode.layout.operandsWidth < wordSize :=
  opcode.operandsWidth_le_two.trans_lt (by decide)

variable {bytes : List UInt8}

namespace Cursor

theorem nextIn?_cut {offset : Nat} {tag : UInt8} {rest : List UInt8}
    (hdrop : bytes.drop offset = tag :: rest) (hbytes : bytes.length < wordSize) :
    nextIn? bytes offset = some (some (Segment.cut offset tag rest).item,
      offset + (Segment.cut offset tag rest).width) := by
  have htag := getElem?_of_drop hdrop
  have hrest := drop_succ_of_drop hdrop
  have hlen := length_of_drop hdrop
  have hstart : add? offset 1 = some (offset + 1) := add?_of_lt (by omega)
  have hahead : sliceFrom? bytes (offset + 1) = some rest := by
    rw [sliceFrom?_of_le (by omega), hrest]
  simp only [nextIn?, htag, hstart, Option.bind_eq_bind, Option.bind_some]
  rcases Segment.cut_cases offset tag rest with
    ⟨hunknown, hcut⟩ | ⟨opcode, rfl, hshort, hcut⟩ | ⟨opcode, rfl, hle, hcut⟩
  · rw [hunknown, hcut]
    rfl
  · have hstop : offset + (opcode.tag :: rest).length = bytes.length := by
      rw [List.length_cons]
      omega
    rw [Layout.ofTag_tag]
    simp only [hahead, Option.bind_some, Layout.decodeInPlace?_eq opcode.operandsWidth_lt_wordSize,
      Layout.decode_of_lt hshort, hcut, Segment.width, hstop]
    rfl
  · have hwidth : (opcode.tag :: rest.take opcode.layout.operandsWidth).length =
        1 + opcode.layout.operandsWidth := by
      rw [List.length_cons, List.length_take_of_le hle, Nat.add_comm]
    have hsize : add? 1 opcode.layout.operandsWidth = some (1 + opcode.layout.operandsWidth) :=
      add?_of_lt (by omega)
    have hstop : add? offset (1 + opcode.layout.operandsWidth) =
        some (offset + (1 + opcode.layout.operandsWidth)) := add?_of_lt (by omega)
    rw [Layout.ofTag_tag]
    simp only [hahead, Option.bind_some, Layout.decodeInPlace?_eq opcode.operandsWidth_lt_wordSize,
      Layout.decode_of_le hle, hcut, Segment.item, Segment.width, hwidth, hsize, hstop]
    rfl

variable {c : Cursor}

theorem Within.nextIn?_eq (h : c.Within bytes) (hbytes : bytes.length < wordSize) :
    nextIn? bytes c.offset = some (c.next.1.map Segment.item, c.step.offset) := by
  rcases h.offset_le.eq_or_lt with hend | hlt
  · rw [nextIn?, List.getElem?_eq_none hend.ge, Cursor.step, h.next_of_end hend]
    rfl
  · obtain ⟨offset, ahead⟩ := c
    obtain rfl : ahead = bytes.drop offset := h.rest_eq
    obtain ⟨tag, rest, hdrop⟩ : ∃ tag rest, bytes.drop offset = tag :: rest :=
      ⟨_, _, List.drop_eq_getElem_cons hlt⟩
    rw [Cursor.step, hdrop, next_cons]
    exact nextIn?_cut hdrop hbytes

theorem collect?_eq (hbytes : bytes.length < wordSize) {n : Nat} (h : c.Within bytes)
    (hn : bytes.length - c.offset < n) :
    collect? bytes n c.offset = some (c.segments.map Segment.item) := by
  induction n generalizing c with
  | zero => exact absurd hn (Nat.not_lt_zero _)
  | succ n ih =>
      rw [collect?, h.nextIn?_eq hbytes]
      rcases next_cases c with ⟨hnext, hsegments⟩ | ⟨s, hnext, hsegments⟩
      · rw [hnext, hsegments]
        rfl
      · have hlt : c.offset < bytes.length := by
          apply h.offset_le.lt_of_ne
          intro hend
          rw [h.next_of_end hend] at hnext
          cases hnext
        obtain ⟨_, _, hpast, _⟩ := h.next_of_lt hlt
        have hmore := ih h.step (by omega)
        rw [hnext, hsegments]
        simp only [Option.bind_eq_bind, Option.bind_some, Option.map_some, hmore]
        rfl

end Cursor

theorem items?_eq (hbytes : bytes.length < wordSize) : items? bytes = some (items bytes) :=
  Cursor.collect?_eq hbytes (Cursor.within_start bytes) (Nat.lt_succ_self _)

theorem Listing.lines?_eq (hbytes : bytes.length < wordSize) :
    lines? bytes = some (lines bytes) := by
  rw [lines?, items?_eq hbytes, items, lines]
  exact congrArg some List.map_map

namespace Segment

variable {s : Segment}

theorem slice?_eq (hs : s ∈ walk bytes) :
    slice? bytes s.offset (s.offset + s.width) =
      some ((bytes.take (s.offset + s.width)).drop s.offset) :=
  slice?_of_le (Nat.le_add_right ..) (bytes_of_mem_walk hs).1

theorem stopIn?_eq (hs : s ∈ walk bytes) (hbytes : bytes.length < wordSize) {fault : Fault}
    (h : s.item = .error fault) :
    Listing.stopIn? bytes fault = some (Listing.stopIn bytes fault) := by
  have hlt := offset_lt_of_mem_walk hs
  obtain ⟨source, rfl⟩ := fault_of_item h
  have hadd : add? s.offset 1 = some (s.offset + 1) := add?_of_lt (by omega)
  rw [Listing.stopIn?, Listing.stopIn]
  simp only [Fault.offset?, Option.getD_some, hadd, Option.bind_eq_bind, Option.bind_some]
  split <;> rfl

theorem rowIn?_eq (hs : s ∈ walk bytes) (hbytes : bytes.length < wordSize) :
    Listing.rowIn? bytes s.item = some (Listing.rowIn bytes s.item) := by
  have hcode := slice?_eq hs
  cases hitem : s.item with
  | error fault =>
      have hstop := stopIn_eq hs hitem
      have hstop? := stopIn?_eq hs hbytes hitem
      obtain ⟨source, rfl⟩ := fault_of_item hitem
      rw [hstop] at hstop?
      simp only [Listing.rowIn?, Listing.rowIn, Fault.offset?, Option.getD_some, hstop, hstop?,
        hcode, Option.bind_eq_bind, Option.bind_some]
  | ok d =>
      obtain ⟨_, hoffset, hwidth⟩ := item_eq_ok hitem
      obtain ⟨hstop, _⟩ := bytes_of_mem_walk hs
      rw [hoffset, hwidth] at hcode hstop
      have hadd : add? d.offset d.width = some (d.offset + d.width) := add?_of_lt (by omega)
      simp only [Listing.rowIn?, Listing.rowIn, hadd, hcode, Option.bind_eq_bind,
        Option.bind_some]

end Segment

theorem mapM_of_mem {α β : Type} {f : α → Option β} {g : α → β} {xs : List α}
    (h : ∀ x ∈ xs, f x = some (g x)) : xs.mapM f = some (xs.map g) := by
  induction xs with
  | nil => rfl
  | cons x xs ih =>
      rw [List.mapM_cons, h x List.mem_cons_self, ih fun y hy => h y (List.mem_cons_of_mem x hy)]
      rfl

theorem Listing.rows?_eq (hbytes : bytes.length < wordSize) :
    rows? bytes = some (rows bytes) := by
  have hrow : ∀ item ∈ items bytes, rowIn? bytes item = some (rowIn bytes item) :=
    List.forall_mem_map.2 fun _ hs => Segment.rowIn?_eq hs hbytes
  rw [rows?, items?_eq hbytes]
  exact mapM_of_mem hrow

/-- With every access checked, the coding of an instruction, a walk, a listing and a table come to
their end, and they give what they give without the checks. Only an instruction that is larger than
any buffer is not encoded, if the number of its operands is right. -/
theorem accesses_in_bounds {layout : Layout} (hlayout : layout.width < wordSize)
    (operands : List Operand) {bytes : List UInt8} (hbytes : bytes.length < wordSize) :
    (layout.width ≤ maxSize ∨ operands.length ≠ layout.arity →
      layout.encodeInPlace? operands = some (layout.encode operands)) ∧
    (maxSize < layout.width → operands.length = layout.arity →
      layout.encodeInPlace? operands = none) ∧
    layout.decodeInPlace? bytes = some (layout.decode bytes) ∧
    (∀ offset ≤ bytes.length, Cursor.nextIn? bytes offset =
      some ((Cursor.next ⟨offset, bytes.drop offset⟩).1.map Segment.item,
        (Cursor.next ⟨offset, bytes.drop offset⟩).2.offset)) ∧
    items? bytes = some (items bytes) ∧
    Listing.lines? bytes = some (Listing.lines bytes) ∧
    Listing.rows? bytes = some (Listing.rows bytes) := by
  refine ⟨fun h => ?_, fun h hlen => Layout.encodeInPlace?_of_lt hlen h hlayout,
    Layout.decodeInPlace?_eq ?_ bytes, fun offset hoffset => ?_, items?_eq hbytes,
    Listing.lines?_eq hbytes, Listing.rows?_eq hbytes⟩
  · rcases h with hle | hne
    · exact Layout.encodeInPlace?_of_le hle operands
    · exact Layout.encodeInPlace?_of_ne hne
  · exact Nat.lt_of_le_of_lt (Nat.le_add_left ..) hlayout
  · have hwithin : Cursor.Within bytes ⟨offset, bytes.drop offset⟩ := ⟨hoffset, rfl⟩
    exact hwithin.nextIn?_eq hbytes

/-- A slot of no byte at the end, a slot wider than an operand, and a stream that is cut short. -/
theorem accesses_in_bounds_cut_short :
    Layout.encodeInPlace? ⟨.constant, "Wide", [9, 1, 0]⟩ [18446744073709551615, 7, 0] =
      some (.ok [0, 0, 255, 255, 255, 255, 255, 255, 255, 255, 7]) ∧
    Layout.decodeInPlace? ⟨.constant, "Wide", [9, 1, 0]⟩ [0, 1, 255, 0] =
      some (.error (.truncated 10 4)) ∧
    Layout.encodeInPlace? ⟨.constant, "Wide", [9223372036854775807]⟩ [0] = none ∧
    Listing.rows? [255, 0, 9] = some
      [⟨"0000", "ERROR", "opcode 255 undefined at 0000", "FF"⟩,
        ⟨"0001", "ERROR", "truncated instruction: needed 2 bytes but only 1 remain at 0001",
          "00 09"⟩] := by
  have hlayout : Layout.width ⟨.constant, "Wide", [9, 1, 0]⟩ < wordSize := by decide
  have hwide : Layout.width ⟨.constant, "Wide", [9223372036854775807]⟩ < wordSize := by decide
  have hbytes : ([0, 1, 255, 0] : List UInt8).length < wordSize := by decide
  have hcut : ([255, 0, 9] : List UInt8).length < wordSize := by decide
  obtain ⟨hencode, _, hdecode, _⟩ :=
    accesses_in_bounds hlayout [18446744073709551615, 7, 0] hbytes
  obtain ⟨_, hlarge, _, _, _, _, hrows⟩ := accesses_in_bounds hwide [0] hcut
  refine ⟨(hencode (.inl (by decide))).trans ?_, hdecode.trans ?_, hlarge (by decide) rfl,
    hrows.trans ?_⟩
  · decide +kernel
  · decide +kernel
  · decide +kernel

end Opstream
