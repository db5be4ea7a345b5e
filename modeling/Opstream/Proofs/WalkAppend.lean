import Opstream.Proofs.StreamRoundTrip

namespace Opstream

def Fault.shift (k : Nat) : Fault → Fault
  | .malformed offset source => .malformed (offset + k) source
  | fault => fault

def Decoded.shift (k : Nat) (d : Decoded) : Decoded := { d with offset := d.offset + k }

def shiftItem (k : Nat) : Except Fault Decoded → Except Fault Decoded
  | .ok d => .ok (d.shift k)
  | .error fault => .error (fault.shift k)

/-- No instruction at the end of the stream lacks some of its operands. -/
def Untruncated (bytes : List UInt8) : Prop :=
  ∀ offset needed available,
    Except.error (Fault.malformed offset (.truncated needed available)) ∉ items bytes

namespace Segment

def shift (k : Nat) (s : Segment) : Segment := { s with offset := s.offset + k }

def isTruncated (s : Segment) : Bool :=
  match s.content with
  | .error (.truncated _ _) => true
  | _ => false

@[simp] theorem width_shift (k : Nat) (s : Segment) : (s.shift k).width = s.width := rfl

theorem item_shift (k : Nat) (s : Segment) : (s.shift k).item = shiftItem k s.item := by
  obtain ⟨offset, bytes, content⟩ := s
  cases content with
  | error fault => rfl
  | ok i => rfl

theorem isTruncated_iff {s : Segment} : s.isTruncated = true ↔
    ∃ offset needed available,
      s.item = .error (.malformed offset (.truncated needed available)) := by
  obtain ⟨place, bytes, content⟩ := s
  constructor
  · intro h
    unfold isTruncated at h
    split at h
    next needed available hcontent =>
        cases hcontent
        exact ⟨place, needed, available, rfl⟩
    next => cases h
  · rintro ⟨offset, needed, available, h⟩
    cases content with
    | ok i => cases h
    | error fault =>
        change Except.error (Fault.malformed place fault) = _ at h
        cases h
        rfl

theorem isTruncated_of_ok {s : Segment} {d : Decoded} (h : s.item = .ok d) :
    s.isTruncated = false := by
  rw [isTruncated, (item_eq_ok h).1]

theorem cut_shift (k offset : Nat) (tag : UInt8) (rest : List UInt8) :
    cut (offset + k) tag rest = (cut offset tag rest).shift k := by
  rw [cut, cut]
  split
  next => rfl
  next => split <;> rfl

theorem cut_append {offset : Nat} {tag : UInt8} {rest : List UInt8}
    (h : (cut offset tag rest).isTruncated = false) (more : List UInt8) :
    cut offset tag (rest ++ more) = cut offset tag rest := by
  rcases cut_cases offset tag rest with
    ⟨hunknown, hcut⟩ | ⟨_, _, _, hcut⟩ | ⟨opcode, rfl, hle, hcut⟩
  · rw [hcut, cut_of_undefined hunknown]
  · rw [hcut] at h
    cases h
  · have hmore : opcode.layout.operandsWidth ≤ (rest ++ more).length := by
      rw [List.length_append]
      exact Nat.le_add_right_of_le hle
    rw [cut_of_le (Layout.ofTag_tag opcode) offset hmore, hcut, Operand.ofSlots_append hle,
      List.take_append_of_le_length hle]
    rfl

end Segment

namespace Cursor

theorem segments_shift (k offset : Nat) (bytes : List UInt8) :
    segments ⟨offset + k, bytes⟩ = (segments ⟨offset, bytes⟩).map (Segment.shift k) := by
  induction offset, bytes using walk_induction with
  | nil offset => rw [segments_nil, segments_nil, List.map_nil]
  | cons offset tag rest ih =>
      rw [segments_cons, segments_cons, Segment.cut_shift, Segment.width_shift,
        Nat.add_right_comm, ih, List.map_cons]

theorem segments_append {offset : Nat} {a : List UInt8}
    (h : ∀ s ∈ segments ⟨offset, a⟩, s.isTruncated = false) (b : List UInt8) :
    segments ⟨offset, a ++ b⟩ = segments ⟨offset, a⟩ ++ segments ⟨offset + a.length, b⟩ := by
  induction offset, a using walk_induction with
  | nil offset => rw [segments_nil]; rfl
  | cons offset tag rest ih =>
      rw [segments_cons, List.forall_mem_cons] at h
      obtain ⟨hcut, hrest⟩ := h
      have hwidth := Segment.width_cut_le offset tag rest
      have hlen : offset + (Segment.cut offset tag rest).width +
          ((tag :: rest).drop (Segment.cut offset tag rest).width).length =
          offset + (tag :: rest).length := by
        rw [List.length_drop]
        omega
      rw [List.cons_append, segments_cons, segments_cons offset tag rest, Segment.cut_append hcut,
        ← List.cons_append, List.drop_append_of_le_length hwidth, ih hrest, hlen,
        List.cons_append]

end Cursor

theorem untruncated_iff {bytes : List UInt8} :
    Untruncated bytes ↔ ∀ s ∈ walk bytes, s.isTruncated = false := by
  constructor
  · intro h s hs
    rw [Bool.eq_false_iff]
    intro htruncated
    obtain ⟨offset, needed, available, hitem⟩ := Segment.isTruncated_iff.1 htruncated
    apply h offset needed available
    rw [← hitem]
    exact List.mem_map_of_mem hs
  · intro h offset needed available hmem
    obtain ⟨s, hs, hitem⟩ := List.mem_map.1 hmem
    have htruncated := Segment.isTruncated_iff.2 ⟨offset, needed, available, hitem⟩
    rw [h s hs] at htruncated
    cases htruncated

instance : DecidablePred Untruncated := fun _ => decidable_of_iff' _ untruncated_iff

/-- Where nothing is cut short, two streams laid end to end are walked one after the other. -/
theorem walk_append {a : List UInt8} (h : Untruncated a) (b : List UInt8) :
    walk (a ++ b) = walk a ++ (walk b).map (Segment.shift a.length) := by
  have hsegments := Cursor.segments_append (untruncated_iff.1 h) b
  rw [Cursor.segments_shift] at hsegments
  exact hsegments

theorem items_append {a : List UInt8} (h : Untruncated a) (b : List UInt8) :
    items (a ++ b) = items a ++ (items b).map (shiftItem a.length) := by
  rw [items, walk_append h, List.map_append, List.map_map]
  congr 1
  rw [items, List.map_map]
  congr 1
  funext s
  exact s.item_shift a.length

theorem mapM_shiftItem (k : Nat) (rs : List (Except Fault Decoded)) :
    (rs.map (shiftItem k)).mapM id = match rs.mapM id with
      | .error fault => .error (fault.shift k)
      | .ok ds => .ok (ds.map (Decoded.shift k)) := by
  rcases Results.all_ok_or_first_error rs with ⟨ds, rfl⟩ | ⟨ds, fault, rest, rfl⟩
  · have hmap : (ds.map Except.ok).map (shiftItem k) = (ds.map (Decoded.shift k)).map .ok := by
      rw [List.map_map, List.map_map]
      rfl
    rw [hmap, Results.mapM_ok, Results.mapM_ok]
  · have hmap : (ds.map Except.ok ++ Except.error fault :: rest).map (shiftItem k) =
        (ds.map (Decoded.shift k)).map .ok ++ .error (fault.shift k) :: rest.map (shiftItem k) := by
      rw [List.map_append, List.map_map, List.map_cons, List.map_map]
      rfl
    rw [hmap, Results.mapM_error, Results.mapM_error]

theorem decodeAll_append {a : List UInt8} (h : Untruncated a) (b : List UInt8) :
    decodeAll (a ++ b) = match decodeAll a, decodeAll b with
      | .error fault, _ => .error fault
      | .ok _, .error fault => .error (fault.shift a.length)
      | .ok ds, .ok es => .ok (ds ++ es.map (Decoded.shift a.length)) := by
  unfold decodeAll
  rw [items_append h, Results.mapM_append, mapM_shiftItem]
  cases (items a).mapM id with
  | error fault => rfl
  | ok ds =>
      cases (items b).mapM id with
      | error fault => rfl
      | ok es => rfl

/-- A walk goes on behind a stream as it would at the start of the next one. -/
theorem walk_compositional {a : List UInt8} (h : Untruncated a) (b : List UInt8) :
    items (a ++ b) = items a ++ (items b).map (shiftItem a.length) ∧
    decodeAll (a ++ b) = match decodeAll a, decodeAll b with
      | .error fault, _ => .error fault
      | .ok _, .error fault => .error (fault.shift a.length)
      | .ok ds, .ok es => .ok (ds ++ es.map (Decoded.shift a.length)) :=
  ⟨items_append h b, decodeAll_append h b⟩

theorem walk_compositional_undefined_then_cut :
    Untruncated [255, 0, 0, 1] ∧
    items ([255, 0, 0, 1] ++ [254, 0, 7]) = [.error (.malformed 0 (.undefinedOpcode 255)),
      .ok ⟨1, ⟨.constant, [1]⟩, 3⟩, .error (.malformed 4 (.undefinedOpcode 254)),
      .error (.malformed 5 (.truncated 2 1))] ∧
    decodeAll ([0, 0, 1] ++ [254, 0, 7]) = .error (.malformed 3 (.undefinedOpcode 254)) := by
  have huntruncated : Untruncated [255, 0, 0, 1] ∧ Untruncated [0, 0, 1] := by decide +kernel
  obtain ⟨hitems, _⟩ := walk_compositional huntruncated.1 [254, 0, 7]
  obtain ⟨_, hdecode⟩ := walk_compositional huntruncated.2 [254, 0, 7]
  rw [hitems, hdecode]
  exact ⟨huntruncated.1, by decide +kernel, by decide +kernel⟩

end Opstream
