import Opstream.Proofs.WalkPlaces

namespace Opstream

/-- Instructions that all have an encoding, and their encodings. -/
def Encodings (is : List Instruction) (codes : List (List UInt8)) : Prop :=
  List.Forall₂ (fun i code => i.encode = .ok code) is codes

def Decoded.span (d : Decoded) (bytes : List UInt8) : List UInt8 :=
  (bytes.drop d.offset).take d.width

def Decoded.segment (d : Decoded) (bytes : List UInt8) : Segment :=
  ⟨d.offset, d.span bytes, .ok d.instruction⟩

theorem decodeAll_eq_ok_iff {bytes : List UInt8} {ds : List Decoded} :
    decodeAll bytes = .ok ds ↔ items bytes = ds.map .ok := Results.mapM_eq_ok_iff

theorem decodeAll_eq_error_iff {bytes : List UInt8} {fault : Fault} :
    decodeAll bytes = .error fault ↔
      ∃ (ds : List Decoded) (rest : List (Except Fault Decoded)),
        items bytes = ds.map .ok ++ .error fault :: rest := Results.mapM_eq_error_iff

theorem exists_walk_of_decodeAll_error {bytes : List UInt8} {fault : Fault}
    (h : decodeAll bytes = .error fault) : ∃ (ds : List Decoded) (good : List Segment)
      (bad : Segment) (rest : List Segment), walk bytes = good ++ bad :: rest ∧
        good.map Segment.item = ds.map .ok ∧ bad.item = .error fault := by
  obtain ⟨ds, rest, hitems⟩ := decodeAll_eq_error_iff.1 h
  obtain ⟨good, more, hwalk, hgood, hmore⟩ := List.map_eq_append_iff.1 hitems
  obtain ⟨bad, others, rfl, hbad, _⟩ := List.map_eq_cons_iff.1 hmore
  exact ⟨ds, good, bad, others, hwalk, hgood, hbad⟩

theorem exists_item_of_map_eq {ss : List Segment} {ds : List Decoded}
    (h : ss.map Segment.item = ds.map .ok) {s : Segment} (hs : s ∈ ss) : ∃ d, s.item = .ok d := by
  have hitem : s.item ∈ ds.map Except.ok := by
    rw [← h]
    exact List.mem_map_of_mem hs
  obtain ⟨d, _, hd⟩ := List.mem_map.1 hitem
  exact ⟨d, hd.symm⟩

theorem walk_of_decodeAll_error {bytes : List UInt8} {fault : Fault}
    (h : decodeAll bytes = .error fault) : ∃ good bad rest,
      walk bytes = good ++ bad :: rest ∧ (∀ s ∈ good, ∃ d, s.item = .ok d) ∧
        bad.item = .error fault := by
  obtain ⟨ds, good, bad, rest, hwalk, hgood, hbad⟩ := exists_walk_of_decodeAll_error h
  exact ⟨good, bad, rest, hwalk, fun _ hs => exists_item_of_map_eq hgood hs, hbad⟩

theorem eq_segment_of_mem_walk {bytes : List UInt8} {s : Segment} {d : Decoded}
    (h : s ∈ walk bytes) (hd : s.item = .ok d) : s = d.segment bytes := by
  obtain ⟨hcontent, hoffset, hwidth⟩ := Segment.item_eq_ok hd
  obtain ⟨_, hbytes⟩ := bytes_of_mem_walk h
  obtain ⟨offset, code, content⟩ := s
  dsimp only at hcontent hoffset hbytes
  rw [hwidth, hoffset] at hbytes
  rw [Decoded.segment, Decoded.span, hcontent, hoffset, ← hbytes]

theorem walk_of_decodeAll {bytes : List UInt8} {ds : List Decoded} (h : decodeAll bytes = .ok ds) :
    walk bytes = ds.map (·.segment bytes) := by
  have hitems := decodeAll_eq_ok_iff.1 h
  rw [items] at hitems
  apply List.ext_getElem
  · simpa using congrArg List.length hitems
  · intro n hn hn'
    rw [List.length_map] at hn'
    have hitem : (walk bytes)[n].item = .ok ds[n] := by
      have := List.getElem_of_eq hitems (by simpa using hn)
      simpa using this
    rw [List.getElem_map]
    exact eq_segment_of_mem_walk (List.getElem_mem hn) hitem

theorem mem_walk_of_decodeAll {bytes : List UInt8} {ds : List Decoded}
    (h : decodeAll bytes = .ok ds) {d : Decoded} (hd : d ∈ ds) : d.segment bytes ∈ walk bytes := by
  rw [walk_of_decodeAll h]
  exact List.mem_map_of_mem hd

theorem end_le_of_decodeAll {bytes : List UInt8} {ds : List Decoded} (h : decodeAll bytes = .ok ds)
    {d : Decoded} (hd : d ∈ ds) : d.offset + d.width ≤ bytes.length := by
  have hitem : .ok d ∈ items bytes := by
    rw [decodeAll_eq_ok_iff.1 h]
    exact List.mem_map_of_mem hd
  obtain ⟨s, hs, hsd⟩ := List.mem_map.1 hitem
  obtain ⟨_, hoffset, hwidth⟩ := Segment.item_eq_ok hsd
  rw [← hoffset, ← hwidth]
  exact (bytes_of_mem_walk hs).1

theorem encode_of_decodeAll {bytes : List UInt8} {ds : List Decoded} (h : decodeAll bytes = .ok ds)
    {d : Decoded} (hd : d ∈ ds) : d.instruction.encode = .ok (d.span bytes) :=
  encode_of_mem_walk (mem_walk_of_decodeAll h hd) rfl

theorem flatten_span_of_decodeAll {bytes : List UInt8} {ds : List Decoded}
    (h : decodeAll bytes = .ok ds) : (ds.map (·.span bytes)).flatten = bytes := by
  have hcover := Cursor.flatMap_bytes_segments (Cursor.start bytes)
  change (walk bytes).flatMap Segment.bytes = bytes at hcover
  rw [walk_of_decodeAll h, List.flatMap_map] at hcover
  rw [← List.flatMap_def]
  exact hcover

theorem encodings_of_decodeAll {bytes : List UInt8} {ds : List Decoded}
    (h : decodeAll bytes = .ok ds) :
    Encodings (ds.map Decoded.instruction) (ds.map (·.span bytes)) := by
  rw [Encodings, List.forall₂_map_left_iff, List.forall₂_map_right_iff, List.forall₂_same]
  intro d hd
  exact encode_of_decodeAll h hd

/-- The walk of encodings laid end to end, from any place on. -/
theorem segments_of_encodings {is : List Instruction} {codes : List (List UInt8)}
    (h : Encodings is codes) (offset : Nat) :
    ∃ ds : List Decoded, (Cursor.segments ⟨offset, codes.flatten⟩).map Segment.item = ds.map .ok ∧
      ds.map Decoded.instruction = is ∧ ds.map Decoded.width = codes.map List.length ∧
      ∀ n d, ds[n]? = some d → d.offset = offset + ((ds.take n).map Decoded.width).sum := by
  induction h generalizing offset with
  | nil => exact ⟨[], by rw [List.flatten_nil, Cursor.segments_nil]; rfl, rfl, rfl, by simp⟩
  | @cons i code is codes hcode _ ih =>
      obtain ⟨ds, hitems, hinstr, hwidth, hoffset⟩ := ih (offset + code.length)
      refine ⟨⟨offset, i, code.length⟩ :: ds, ?_, ?_, ?_, ?_⟩
      · rw [List.flatten_cons, Cursor.segments_encode hcode, List.map_cons, hitems]
        rfl
      · rw [List.map_cons, hinstr]
      · rw [List.map_cons, hwidth, List.map_cons]
      · intro n d hd
        cases n with
        | zero =>
            cases hd
            simp
        | succ n =>
            rw [hoffset n d hd, List.take_succ_cons, List.map_cons, List.sum_cons, Nat.add_assoc]

theorem decodeAll_of_encodings {is : List Instruction} {codes : List (List UInt8)}
    (h : Encodings is codes) :
    ∃ ds : List Decoded, decodeAll codes.flatten = .ok ds ∧ ds.map Decoded.instruction = is ∧
      ds.map Decoded.width = codes.map List.length ∧
      ∀ n d, ds[n]? = some d → d.offset = ((ds.take n).map Decoded.width).sum := by
  obtain ⟨ds, hitems, hinstr, hwidth, hoffset⟩ := segments_of_encodings h 0
  refine ⟨ds, decodeAll_eq_ok_iff.2 hitems, hinstr, hwidth, fun n d hd => ?_⟩
  rw [hoffset n d hd, Nat.zero_add]

theorem encodings_injective {is js : List Instruction} {codes codes' : List (List UInt8)}
    (hi : Encodings is codes) (hj : Encodings js codes') (h : codes.flatten = codes'.flatten) :
    is = js := by
  obtain ⟨ds, hds, rfl, _⟩ := decodeAll_of_encodings hi
  obtain ⟨es, hes, rfl, _⟩ := decodeAll_of_encodings hj
  rw [h, hes] at hds
  cases hds
  rfl

/-- Encoding instructions one behind the other and decoding a stream undo each other. -/
theorem decodeAll_inverts_encodings :
    (∀ (is : List Instruction) (codes : List (List UInt8)), Encodings is codes →
      ∃ ds : List Decoded, decodeAll codes.flatten = .ok ds ∧ ds.map Decoded.instruction = is ∧
        ds.map Decoded.width = codes.map List.length ∧
        ∀ n d, ds[n]? = some d → d.offset = ((ds.take n).map Decoded.width).sum) ∧
    (∀ (bytes : List UInt8) (ds : List Decoded), decodeAll bytes = .ok ds →
      (∀ d ∈ ds, d.offset + d.width ≤ bytes.length ∧
        d.instruction.encode = .ok ((bytes.drop d.offset).take d.width)) ∧
      (ds.map fun d => (bytes.drop d.offset).take d.width).flatten = bytes) ∧
    (∀ (is js : List Instruction) (codes codes' : List (List UInt8)), Encodings is codes →
      Encodings js codes' → codes.flatten = codes'.flatten → is = js) := by
  refine ⟨fun _ _ h => decodeAll_of_encodings h, fun bytes ds h => ⟨fun d hd => ⟨?_, ?_⟩, ?_⟩,
    fun _ _ _ _ hi hj h => encodings_injective hi hj h⟩
  · exact end_le_of_decodeAll h hd
  · exact encode_of_decodeAll h hd
  · exact flatten_span_of_decodeAll h

theorem decodeAll_two_constants :
    (∃ ds : List Decoded, decodeAll [0, 0, 1, 0, 255, 255] = .ok ds ∧
      ds.map Decoded.instruction = [⟨.constant, [1]⟩, ⟨.constant, [65535]⟩] ∧
      (ds.map fun d => (([0, 0, 1, 0, 255, 255] : List UInt8).drop d.offset).take d.width).flatten =
        [0, 0, 1, 0, 255, 255]) ∧
    [[0, 0, 1], [0, 255, 255]].flatten ≠ [([0, 0, 1] : List UInt8)].flatten := by
  have htwo : Encodings [⟨.constant, [1]⟩, ⟨.constant, [65535]⟩] [[0, 0, 1], [0, 255, 255]] :=
    .cons rfl (.cons rfl .nil)
  have hone : Encodings [⟨.constant, [1]⟩] [[0, 0, 1]] := .cons rfl .nil
  obtain ⟨hforward, hback, hinj⟩ := decodeAll_inverts_encodings
  constructor
  · obtain ⟨ds, hds, hinstr, _, _⟩ := hforward _ _ htwo
    have hbytes : [[0, 0, 1], [0, 255, 255]].flatten = ([0, 0, 1, 0, 255, 255] : List UInt8) := rfl
    rw [hbytes] at hds
    exact ⟨ds, hds, hinstr, (hback _ _ hds).2⟩
  · intro h
    exact absurd (hinj _ _ _ _ htwo hone h) (by decide)

end Opstream
