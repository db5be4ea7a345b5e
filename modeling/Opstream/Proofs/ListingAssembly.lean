import Opstream.Proofs.Assembly

namespace Opstream

namespace Text

theorem trim_eq_strip (cs : List Char) : trim cs = strip isWhiteSpace cs := rfl

theorem not_isWhiteSpace_of_isDigit {c : Char} (h : c.isDigit = true) :
    isWhiteSpace c = false := by
  have hrange : 48 ≤ c.toNat ∧ c.toNat ≤ 57 := by
    simpa [Char.isDigit, UInt32.le_iff_toNat_le] using h
  simp [isWhiteSpace, whiteSpaceRanges]
  omega

end Text

namespace Segment

theorem trim_line_of_error {s : Segment} {fault : Fault} (h : s.content = .error fault) :
    Text.trim s.line.toList = s.line.toList := by
  have hline : s.line.toList = 'E' ::
      (("RROR: " ++ fault.message ++ " at ").toList ++ (Decimal.padded 4 s.offset).toList) := by
    rw [line_of_error h]
    simp [offsetText]
  rw [hline, Text.trim_eq_strip]
  apply Text.strip_eq_self
  · exact Text.stops_cons (by decide) _
  · rw [List.reverse_cons, List.reverse_append, List.append_assoc]
    refine Text.stops_append ?_ ?_ _
    · exact List.reverse_ne_nil_iff.2 (Text.padded_ne_nil 4 s.offset)
    · intro c hc
      exact Text.not_isWhiteSpace_of_isDigit (Text.isDigit_of_mem_padded (List.mem_reverse.1 hc))

theorem readLine_line_of_ok {bytes : List UInt8} {s : Segment} {i : Instruction}
    (hs : s ∈ walk bytes) (h : s.content = .ok i) :
    (Source.readLine s.line.toList).result = .ok (some i) := by
  have hcode := encode_of_mem_walk hs h
  rw [line_of_ok h (length_operands_of_encode hcode)]
  exact Source.result_readLine (Source.Statement.ofLine?_listed s.offset i) hcode

theorem readLine_line_of_error {s : Segment} {fault : Fault} (h : s.content = .error fault) :
    (Source.readLine s.line.toList).result = .error (.unreadable s.line) := by
  have hline : Source.Statement.ofLine? s.line.toList = none := by
    rw [line_of_error h]
    exact Source.Statement.ofLine?_error _
  rw [Source.result_readLine_of_none hline, trim_line_of_error h, String.ofList_toList]

end Segment

theorem assemble_listing_of_decodeAll {bytes : List UInt8} {ds : List Decoded}
    (h : decodeAll bytes = .ok ds) :
    Source.assemble (Listing.text bytes) = .ok (Buffer.ofBytes bytes) := by
  have hlines : List.Forall₂ (fun line i => (Source.readLine line).result = .ok (some i))
      (Text.lines (Listing.text bytes).toList) (ds.map Decoded.instruction) := by
    rw [Listing.lines_text, Listing.lines, walk_of_decodeAll h, List.forall₂_map_left_iff,
      List.forall₂_map_left_iff, List.forall₂_map_left_iff, List.forall₂_map_right_iff,
      List.forall₂_same]
    intro d hd
    exact Segment.readLine_line_of_ok (mem_walk_of_decodeAll h hd) rfl
  rw [Source.assemble_of_lines hlines (encodings_of_decodeAll h), flatten_span_of_decodeAll h]

theorem assemble_listing_of_bad_segment {bytes : List UInt8} {good rest : List Segment}
    {bad : Segment} {source : Fault} (hwalk : walk bytes = good ++ bad :: rest)
    (hgood : ∀ s ∈ good, ∃ d, s.item = .ok d) (hbad : bad.content = .error source) :
    Source.assemble (Listing.text bytes) = .error ⟨good.length + 1, .unreadable bad.line⟩ := by
  have hlines : Text.lines (Listing.text bytes).toList =
      (good.map fun s => s.line.toList) ++ bad.line.toList :: rest.map fun s => s.line.toList := by
    rw [Listing.lines_text, Listing.lines, hwalk]
    simp [Function.comp_def]
  have hread : ∀ line ∈ good.map fun s => s.line.toList,
      ∃ found, (Source.readLine line).result = .ok found := by
    intro line hline
    obtain ⟨s, hs, rfl⟩ := List.mem_map.1 hline
    obtain ⟨d, hd⟩ := hgood s hs
    have hmem : s ∈ walk bytes := by
      rw [hwalk]
      exact List.mem_append_left _ hs
    exact ⟨_, Segment.readLine_line_of_ok hmem (Segment.item_eq_ok hd).1⟩
  have hrun := Source.assemble_of_bad_line hlines hread (Segment.readLine_line_of_error hbad)
  rwa [List.length_map] at hrun

/-- A listing is a text that can be assembled exactly if its stream has no fault, and then it is
the text of all of the stream. -/
theorem assemble_listing (bytes : List UInt8) :
    (∀ ds, decodeAll bytes = .ok ds →
      Source.assemble (Listing.text bytes) = .ok (Buffer.ofBytes bytes)) ∧
    (∀ fault, decodeAll bytes = .error fault → ∃ (k : Nat) (line : String),
      (items bytes)[k]? = some (.error fault) ∧
      (∀ j < k, ∃ d, (items bytes)[j]? = some (.ok d)) ∧
      (Text.pieces (Listing.text bytes).toList)[k]? = some (line.toList ++ ['\n']) ∧
      Source.assemble (Listing.text bytes) = .error ⟨k + 1, .unreadable line⟩) := by
  refine ⟨fun _ h => assemble_listing_of_decodeAll h, fun fault h => ?_⟩
  obtain ⟨good, bad, rest, hwalk, hgood, hbad⟩ := walk_of_decodeAll_error h
  obtain ⟨source, hsource⟩ := Segment.item_eq_error hbad
  refine ⟨good.length, bad.line, ?_, ?_, ?_, ?_⟩
  · simp [items, hwalk, hbad]
  · intro j hj
    obtain ⟨d, hd⟩ := hgood good[j] (List.getElem_mem hj)
    refine ⟨d, ?_⟩
    rw [items, hwalk, List.map_append, List.getElem?_append_left (by simpa using hj)]
    simp [hj, hd]
  · simp [Listing.pieces_text, Listing.lines, hwalk]
  · exact assemble_listing_of_bad_segment hwalk hgood hsource

theorem assemble_listing_undefined_tag :
    Source.assemble (Listing.text [0, 0, 1]) = .ok (Buffer.ofBytes [0, 0, 1]) ∧
    ∃ (k : Nat) (line : String),
      (items [0, 0, 1, 255, 0])[k]? = some (.error (.malformed 3 (.undefinedOpcode 255))) ∧
      (∀ j < k, ∃ d, (items [0, 0, 1, 255, 0])[j]? = some (.ok d)) ∧
      (Text.pieces (Listing.text [0, 0, 1, 255, 0]).toList)[k]? = some (line.toList ++ ['\n']) ∧
      Source.assemble (Listing.text [0, 0, 1, 255, 0]) = .error ⟨k + 1, .unreadable line⟩ := by
  have hcode : (⟨.constant, [1]⟩ : Instruction).encode = .ok [0, 0, 1] := rfl
  obtain ⟨_, hok, _⟩ := decodeAll_of_encodings (.cons hcode .nil)
  have hwalk := Cursor.segments_encode hcode 0 [255, 0]
  rw [Cursor.segments_cons] at hwalk
  have herror : decodeAll [0, 0, 1, 255, 0] = .error (.malformed 3 (.undefinedOpcode 255)) :=
    decodeAll_eq_error_iff.2
      ⟨[⟨0, ⟨.constant, [1]⟩, 3⟩], _, congrArg (List.map Segment.item) hwalk⟩
  exact ⟨(assemble_listing [0, 0, 1]).1 _ hok, (assemble_listing [0, 0, 1, 255, 0]).2 _ herror⟩

end Opstream
