import Opstream.Listing
import Opstream.Proofs.ListingDecoding

namespace Opstream

def fault? : Except Fault Decoded → Option Fault
  | .ok _ => none
  | .error fault => some fault

def faults (bytes : List UInt8) : List Fault := (items bytes).filterMap fault?

/-- The last item of a stream is an instruction that is cut short. -/
def EndsCut (bytes : List UInt8) (offset needed available : Nat) : Prop :=
  (items bytes).getLast? = some (.error (.malformed offset (.truncated needed available)))

namespace Log.Event

def isWarning : Event → Bool
  | malformed .. => true
  | _ => false

def isCut : Event → Bool
  | operandsCut .. => true
  | _ => false

theorem filter_isWarning_of_cuts {events : List Event} (h : ∀ event ∈ events, event.isCut = true) :
    events.filter isWarning = [] := by
  rw [List.filter_eq_nil_iff]
  intro event hevent hwarning
  have hcut := h event hevent
  cases event <;> cases hcut
  cases hwarning

theorem filter_isCut_of_warnings {events : List Event}
    (h : ∀ event ∈ events, event.isWarning = true) : events.filter isCut = [] := by
  rw [List.filter_eq_nil_iff]
  intro event hevent hcut
  have hwarning := h event hevent
  cases event <;> cases hwarning
  cases hcut

end Log.Event

namespace Segment

variable {s : Segment}

theorem readEvents_of_ok {i : Instruction} (h : s.content = .ok i) : s.readEvents = [] := by
  rw [readEvents, h]

theorem faultEvents_of_ok {i : Instruction} (h : s.content = .ok i) : s.faultEvents = [] := by
  rw [faultEvents, item, h]

theorem readEvents_of_not_truncated (h : s.isTruncated = false) : s.readEvents = [] := by
  rw [readEvents]
  split
  next hcontent _ =>
      rw [isTruncated, hcontent] at h
      cases h
  next => rfl

theorem readEvents_of_item {bytes : List UInt8} (hs : s ∈ walk bytes)
    {offset needed available : Nat}
    (h : s.item = .error (.malformed offset (.truncated needed available))) :
    ∃ opcode : Opcode, s.readEvents = [.operandsCut opcode.name needed available] := by
  obtain ⟨tag, rest, _, hcut⟩ := exists_cut_of_mem_walk hs
  rw [hcut] at h ⊢
  rcases cut_cases s.offset tag rest with ⟨_, heq⟩ | ⟨opcode, rfl, _, heq⟩ | ⟨_, _, _, heq⟩
  · rw [heq] at h
    cases h
  · rw [heq] at h
    cases h
    refine ⟨opcode, ?_⟩
    rw [readEvents, layout?_cut_of_ok (Layout.ofTag_tag opcode), heq]
    rfl
  · rw [heq] at h
    cases h

theorem eq_operandsCut_of_mem_readEvents {bytes : List UInt8} (hs : s ∈ walk bytes)
    {event : Log.Event} (h : event ∈ s.readEvents) : ∃ (opcode : Opcode) (needed available : Nat),
      event = .operandsCut opcode.name needed available := by
  cases htruncated : s.isTruncated with
  | false =>
      rw [readEvents_of_not_truncated htruncated] at h
      cases h
  | true =>
      obtain ⟨offset, needed, available, hitem⟩ := isTruncated_iff.1 htruncated
      obtain ⟨opcode, hread⟩ := readEvents_of_item hs hitem
      rw [hread] at h
      exact ⟨opcode, needed, available, List.mem_singleton.1 h⟩

theorem faultEvents_eq (s : Segment) :
    s.faultEvents = (fault? s.item).toList.map Log.Event.malformed := by
  rw [faultEvents]
  cases s.item with
  | ok d => rfl
  | error fault => rfl

theorem isCut_of_mem_readEvents {event : Log.Event} (h : event ∈ s.readEvents) :
    event.isCut = true := by
  rw [readEvents] at h
  split at h
  next =>
      rw [List.mem_singleton.1 h]
      rfl
  next => cases h

theorem isWarning_of_mem_faultEvents {event : Log.Event} (h : event ∈ s.faultEvents) :
    event.isWarning = true := by
  rw [faultEvents_eq] at h
  obtain ⟨fault, _, rfl⟩ := List.mem_map.1 h
  rfl

end Segment

theorem faults_eq_flatMap (bytes : List UInt8) :
    (faults bytes).map Log.Event.malformed = (walk bytes).flatMap Segment.faultEvents := by
  rw [faults, items, List.filterMap_map, List.filterMap_eq_flatMap_toList, List.map_flatMap]
  congr 1
  funext s
  exact s.faultEvents_eq.symm

namespace Listing

open Log (Event)

theorem filter_isWarning_events (bytes : List UInt8) :
    (events bytes).filter Event.isWarning = (faults bytes).map Event.malformed := by
  rw [faults_eq_flatMap, events, List.filter_flatMap]
  congr 1
  funext s
  rw [List.filter_append, Event.filter_isWarning_of_cuts fun _ => Segment.isCut_of_mem_readEvents,
    List.filter_eq_self.2 fun _ => Segment.isWarning_of_mem_faultEvents, List.nil_append]

theorem filter_isCut_events (bytes : List UInt8) :
    (events bytes).filter Event.isCut = tableEvents bytes := by
  rw [tableEvents, events, List.filter_flatMap]
  congr 1
  funext s
  rw [List.filter_append, List.filter_eq_self.2 fun _ => Segment.isCut_of_mem_readEvents,
    Event.filter_isCut_of_warnings fun _ => Segment.isWarning_of_mem_faultEvents, List.append_nil]

theorem isCut_of_mem_tableEvents {bytes : List UInt8} {event : Event}
    (h : event ∈ tableEvents bytes) : event.isCut = true := by
  obtain ⟨s, _, hs⟩ := List.mem_flatMap.1 h
  exact Segment.isCut_of_mem_readEvents hs

theorem tableEvents_of_decodeAll {bytes : List UInt8} {ds : List Decoded}
    (h : decodeAll bytes = .ok ds) : tableEvents bytes = [] := by
  rw [tableEvents, walk_of_decodeAll h, List.flatMap_map, List.flatMap_eq_nil_iff]
  exact fun d _ => Segment.readEvents_of_ok rfl

theorem events_of_decodeAll {bytes : List UInt8} {ds : List Decoded}
    (h : decodeAll bytes = .ok ds) : events bytes = [] := by
  rw [events, walk_of_decodeAll h, List.flatMap_map, List.flatMap_eq_nil_iff]
  intro d _
  rw [Segment.readEvents_of_ok rfl, Segment.faultEvents_of_ok rfl, List.append_nil]

theorem walk_of_endsCut {bytes : List UInt8} {offset needed available : Nat}
    (h : EndsCut bytes offset needed available) : ∃ (front : List Segment) (s : Segment)
      (opcode : Opcode), walk bytes = front ++ [s] ∧
      (∀ t ∈ front, t.readEvents = []) ∧
      s.readEvents = [.operandsCut opcode.name needed available] ∧
      s.faultEvents = [.malformed (.malformed offset (.truncated needed available))] := by
  rw [EndsCut, items, List.getLast?_map, Option.map_eq_some_iff] at h
  obtain ⟨s, hlast, hitem⟩ := h
  obtain ⟨front, hwalk⟩ := List.getLast?_eq_some_iff.1 hlast
  obtain ⟨opcode, hread⟩ := Segment.readEvents_of_item (List.mem_of_getLast? hlast) hitem
  refine ⟨front, s, opcode, hwalk, fun t ht => ?_, hread, ?_⟩
  · exact Segment.readEvents_of_not_truncated (Cursor.isTruncated_of_segments_eq hwalk t ht)
  · rw [Segment.faultEvents_eq, hitem]
    rfl

theorem events_of_endsCut {bytes : List UInt8} {offset needed available : Nat}
    (h : EndsCut bytes offset needed available) : ∃ (front : List Event) (opcode : Opcode),
      tableEvents bytes = [.operandsCut opcode.name needed available] ∧
      events bytes = front ++ [.operandsCut opcode.name needed available,
        .malformed (.malformed offset (.truncated needed available))] := by
  obtain ⟨front, s, opcode, hwalk, hfront, hread, hfault⟩ := walk_of_endsCut h
  refine ⟨front.flatMap fun t => t.readEvents ++ t.faultEvents, opcode, ?_, ?_⟩
  · rw [tableEvents, hwalk, List.flatMap_append, List.flatMap_eq_nil_iff.2 hfront, List.nil_append,
      List.flatMap_singleton, hread]
  · rw [events, hwalk, List.flatMap_append, List.flatMap_singleton, hread, hfault]
    rfl

theorem tableEvents_of_not_endsCut {bytes : List UInt8}
    (h : ∀ offset needed available, ¬ EndsCut bytes offset needed available) :
    tableEvents bytes = [] := by
  rcases List.eq_nil_or_concat' (walk bytes) with hwalk | ⟨front, last, hwalk⟩
  · rw [tableEvents, hwalk, List.flatMap_nil]
  · have hlast : last.isTruncated = false := by
      rw [Bool.eq_false_iff]
      intro htruncated
      obtain ⟨offset, needed, available, hitem⟩ := Segment.isTruncated_iff.1 htruncated
      apply h offset needed available
      rw [EndsCut, items, hwalk, List.getLast?_map, List.getLast?_concat, Option.map_some, hitem]
    rw [tableEvents, hwalk, List.flatMap_eq_nil_iff, List.forall_mem_append,
      List.forall_mem_singleton]
    exact ⟨fun t ht => Segment.readEvents_of_not_truncated
      (Cursor.isTruncated_of_segments_eq hwalk t ht), Segment.readEvents_of_not_truncated hlast⟩

end Listing

end Opstream
