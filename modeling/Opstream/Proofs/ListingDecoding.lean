import Opstream.Proofs.ListingText
import Opstream.Proofs.WalkPrefix

namespace Opstream

def itemLine : Except Fault Decoded → String
  | .ok d => Decimal.padded 4 d.offset ++ " " ++ d.instruction.text
  | .error fault => "ERROR: " ++ fault.message

theorem Segment.line_eq_itemLine {bytes : List UInt8} {s : Segment} (h : s ∈ walk bytes) :
    s.line = itemLine s.item := by
  rcases hitem : s.item with fault | d
  · rw [line, hitem]
    rfl
  · obtain ⟨hcontent, hoffset, _⟩ := item_eq_ok hitem
    have hcode := encode_of_mem_walk h hcontent
    rw [line_of_ok hcontent (length_operands_of_encode hcode), hoffset]
    rfl

theorem not_error_isPrefix_line (d : Decoded) :
    ¬ "ERROR".toList <+: (itemLine (.ok d)).toList := by
  rintro ⟨more, hmore⟩
  obtain ⟨c, cs, hcs⟩ := List.exists_cons_of_ne_nil (Text.padded_ne_nil 4 d.offset)
  have hc : c ∈ (Decimal.padded 4 d.offset).toList := by
    rw [hcs]
    exact List.mem_cons_self
  have hdigit := Text.isDigit_of_mem_padded hc
  rw [itemLine, String.toList_append, String.toList_append, hcs] at hmore
  injection hmore with hfirst
  rw [← hfirst] at hdigit
  exact absurd hdigit (by decide)

theorem error_isPrefix_line (fault : Fault) :
    "ERROR".toList <+: (itemLine (.error fault)).toList := by
  rw [itemLine, String.toList_append]
  exact ⟨':' :: ' ' :: fault.message.toList, rfl⟩

namespace Listing

theorem lines_eq_map_itemLine (bytes : List UInt8) : lines bytes = (items bytes).map itemLine := by
  rw [lines, items, List.map_map]
  apply List.map_congr_left
  intro s hs
  exact Segment.line_eq_itemLine hs

theorem text_eq_join (bytes : List UInt8) :
    text bytes = String.join ((items bytes).map fun item => itemLine item ++ "\n") := by
  rw [text, lines_eq_map_itemLine, List.map_map]
  rfl

theorem lines_text_eq_map (bytes : List UInt8) :
    Text.lines (text bytes).toList = (items bytes).map fun item => (itemLine item).toList := by
  rw [lines_text, lines_eq_map_itemLine, List.map_map]
  rfl

theorem newline_not_mem {bytes : List UInt8} {item : Except Fault Decoded}
    (h : item ∈ items bytes) : '\n' ∉ (itemLine item).toList := by
  have hline : (itemLine item).toList ∈ (lines bytes).map String.toList := by
    rw [lines_eq_map_itemLine]
    exact List.mem_map_of_mem (List.mem_map_of_mem h)
  intro hmem
  exact Text.ne_newline_of_isInline (inline_of_mem_lines hline _ hmem) rfl

theorem exists_decodeAll_iff (bytes : List UInt8) :
    (∃ ds, decodeAll bytes = .ok ds ∧ items bytes = ds.map .ok) ↔
      ∀ line ∈ Text.lines (text bytes).toList, ¬ "ERROR".toList <+: line := by
  rw [lines_text_eq_map, List.forall_mem_map]
  constructor
  · rintro ⟨ds, _, hitems⟩ item hitem
    rw [hitems] at hitem
    obtain ⟨d, _, rfl⟩ := List.mem_map.1 hitem
    exact not_error_isPrefix_line d
  · intro hlines
    rcases Results.all_ok_or_first_error (items bytes) with ⟨ds, hds⟩ | ⟨ds, fault, rest, hds⟩
    · exact ⟨ds, decodeAll_eq_ok_iff.2 hds, hds⟩
    · have hmem : .error fault ∈ items bytes := by
        rw [hds]
        exact List.mem_append_right _ List.mem_cons_self
      exact absurd (error_isPrefix_line fault) (hlines _ hmem)

/-- The first line with a fault tells the fault of the stream, behind the lines of what decodes
when the stream ends there. -/
theorem first_error_line {bytes : List UInt8} {fault : Fault} (h : decodeAll bytes = .error fault) :
    ∃ (offset : Nat) (source : Fault) (ds : List Decoded),
      fault = .malformed offset source ∧ decodeAll (bytes.take offset) = .ok ds ∧
      ds.map .ok ++ [.error fault] <+: items bytes ∧
      ds.map (fun d => (itemLine (.ok d)).toList) ++ [("ERROR: " ++ fault.message).toList] <+:
        Text.lines (text bytes).toList := by
  obtain ⟨ds, good, bad, rest, hwalk, hgood, hbad⟩ := exists_walk_of_decodeAll_error h
  obtain ⟨source, hfault⟩ := Segment.fault_of_item hbad
  have htake : walk (bytes.take bad.offset) = good := by
    apply walk_take_offset hwalk
    intro s hs
    obtain ⟨d, hd⟩ := exists_item_of_map_eq hgood hs
    exact Segment.isTruncated_of_ok hd
  have hitems : ds.map .ok ++ [.error fault] <+: items bytes := by
    refine ⟨rest.map Segment.item, ?_⟩
    rw [items, hwalk, List.map_append, List.map_cons, hgood, hbad, List.append_assoc]
    rfl
  refine ⟨bad.offset, source, ds, hfault, ?_, hitems, ?_⟩
  · rw [decodeAll_eq_ok_iff, items, htake, hgood]
  · have hlines := hitems.map fun item => (itemLine item).toList
    rw [← lines_text_eq_map, List.map_append, List.map_map] at hlines
    exact hlines

end Listing

/-- A listing and the strict decoder agree: a listing has a line for every item, and where the
decoder stops, it has its first line with a fault. -/
theorem listing_agrees_with_decodeAll (bytes : List UInt8) :
    Listing.text bytes = String.join ((items bytes).map fun item => itemLine item ++ "\n") ∧
    (∀ item ∈ items bytes, '\n' ∉ (itemLine item).toList) ∧
    ((∃ ds, decodeAll bytes = .ok ds ∧ items bytes = ds.map .ok) ↔
      ∀ line ∈ Text.lines (Listing.text bytes).toList, ¬ "ERROR".toList <+: line) ∧
    (∀ fault, decodeAll bytes = .error fault →
      ∃ (offset : Nat) (source : Fault) (ds : List Decoded),
        fault = .malformed offset source ∧ decodeAll (bytes.take offset) = .ok ds ∧
        ds.map .ok ++ [.error fault] <+: items bytes ∧
        ds.map (fun d => (itemLine (.ok d)).toList) ++ [("ERROR: " ++ fault.message).toList] <+:
          Text.lines (Listing.text bytes).toList ∧
        ∀ d ∈ ds, ¬ "ERROR".toList <+: (itemLine (.ok d)).toList) := by
  refine ⟨Listing.text_eq_join bytes, fun _ => Listing.newline_not_mem,
    Listing.exists_decodeAll_iff bytes, fun fault h => ?_⟩
  obtain ⟨offset, source, ds, hfault, htake, hitems, hlines⟩ := Listing.first_error_line h
  exact ⟨offset, source, ds, hfault, htake, hitems, hlines,
    fun d _ => not_error_isPrefix_line d⟩

theorem listing_stops_at_undefined_tag :
    decodeAll [0, 0, 1, 255, 0] = .error (.malformed 3 (.undefinedOpcode 255)) ∧
    ["0000 OpConstant 1".toList, "ERROR: opcode 255 undefined at 0003".toList] <+:
      Text.lines (Listing.text [0, 0, 1, 255, 0]).toList := by
  have herror : decodeAll [0, 0, 1, 255, 0] = .error (.malformed 3 (.undefinedOpcode 255)) := by
    decide +kernel
  have hfront : decodeAll ([0, 0, 1, 255, 0].take 3) = .ok [⟨0, ⟨.constant, [1]⟩, 3⟩] := by
    decide +kernel
  obtain ⟨_, _, _, hagrees⟩ := listing_agrees_with_decodeAll [0, 0, 1, 255, 0]
  obtain ⟨offset, source, ds, hfault, htake, _, hlines, _⟩ := hagrees _ herror
  cases hfault
  rw [hfront] at htake
  cases htake
  exact ⟨herror, hlines⟩

end Opstream
