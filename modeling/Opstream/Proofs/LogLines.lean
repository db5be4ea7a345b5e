import Opstream.Proofs.CommandRun
import Opstream.Proofs.ListingEvents
import Opstream.Proofs.ProgramEvents
import Opstream.Proofs.TableBytes

namespace Opstream

namespace Text

def linesWith (start text : String) : List (List Char) :=
  (lines text.toList).filter (start.toList <+: ·)

theorem inline_of_all {s : String} (h : s.toList.all isInline = true) : Inline s :=
  List.all_eq_true.1 h

theorem inline_repr (n : Nat) : Inline n.repr := inline_of_plain (plain_repr n)

theorem closed_terminated (ls : List (List Char)) : Closed (ls.flatMap (· ++ ['\n'])) := by
  rcases List.eq_nil_or_concat' ls with rfl | ⟨front, last, rfl⟩
  · exact fun c hc => absurd hc (by simp)
  · intro c hc
    rw [List.flatMap_append, List.flatMap_singleton, ← List.append_assoc,
      List.getLast?_concat] at hc
    exact (Option.mem_some.1 hc).symm

theorem isPrefix_append_iff {start front : String} (h : ¬ front.toList <+: start.toList)
    (more : String) :
    start.toList <+: (front ++ more).toList ↔ start.toList <+: front.toList := by
  rw [String.toList_append]
  constructor
  · intro hstart
    rcases List.prefix_or_prefix_of_prefix hstart (List.prefix_append _ _) with hfront | hshort
    · exact hfront
    · exact absurd hshort h
  · exact fun hstart => hstart.trans (List.prefix_append _ _)

theorem linesWith_line {start line : String} (hline : '\n' ∉ line.toList)
    (hstart : ¬ start.toList <+: line.toList) (more : String) :
    linesWith start (line ++ "\n" ++ more) = linesWith start more := by
  have hchomp : ¬ start.toList <+: chomp (line.toList ++ ['\n']) := fun hm =>
    hstart (hm.trans (isPrefix_chomp_newline line.toList))
  have hsplit : (line ++ "\n" ++ more).toList = line.toList ++ '\n' :: more.toList := by
    simp
  rw [linesWith, hsplit, lines_line hline, List.filter_cons, decide_eq_false hchomp]
  rfl

theorem linesWith_append {text : String} (h : Closed text.toList) (start more : String) :
    linesWith start (text ++ more) = linesWith start text ++ linesWith start more := by
  rw [linesWith, String.toList_append, lines_append_of_closed h, List.filter_append, linesWith,
    linesWith]

end Text

namespace Log.Event

def header (event : Event) : String := "[" ++ event.level.label ++ " " ++ event.target ++ "] "

theorem line_eq (event : Event) : event.line = event.header ++ event.message := rfl

theorem warning_isPrefix_line (event : Event) :
    "[WARN ".toList <+: event.line.toList ↔ event.isWarning = true := by
  have hheader : ¬ event.header.toList <+: "[WARN ".toList := by
    cases event <;> dsimp only [header, level, target] <;> decide
  rw [line_eq, Text.isPrefix_append_iff hheader]
  cases event <;> dsimp only [header, level, target, isWarning] <;> decide

theorem cut_isPrefix_line (event : Event) :
    "[DEBUG opcodec::bytecode::binary]".toList <+: event.line.toList ↔ event.isCut = true := by
  have hheader : ¬ event.header.toList <+: "[DEBUG opcodec::bytecode::binary]".toList := by
    cases event <;> dsimp only [header, level, target] <;> decide
  rw [line_eq, Text.isPrefix_append_iff hheader]
  cases event <;> dsimp only [header, level, target, isCut] <;> decide

theorem inline_line {event : Event} (h : Text.Inline event.message) : Text.Inline event.line := by
  rw [line_eq, Text.inline_append]
  refine ⟨Text.inline_of_all ?_, h⟩
  cases event <;> dsimp only [header, level, target] <;> decide

end Log.Event

theorem Opcode.inline_name (opcode : Opcode) : Text.Inline opcode.name :=
  Text.inline_of_plain opcode.plain_name

theorem Instruction.inline_event (i : Instruction) : Text.Inline i.event.message := by
  have hoperands : Text.Inline (", ".intercalate (i.operands.map fun v => v.toNat.repr)) := by
    refine Text.inline_intercalate (Text.inline_of_all (by decide)) fun part hpart => ?_
    obtain ⟨v, _, rfl⟩ := List.mem_map.1 hpart
    exact Text.inline_repr _
  have hpairs : Text.Inline (", ".intercalate (Hex.pairs i.code)) := by
    refine Text.inline_intercalate (Text.inline_of_all (by decide)) fun part hpart => ?_
    obtain ⟨b, _, rfl⟩ := List.mem_map.1 hpart
    exact Text.inline_of_plain (Text.plain_of_isAlphanum fun _ => Hex.isAlphanum_of_mem_pair)
  change Text.Inline ("encoded " ++ i.opcode.name ++ " [" ++ _ ++ "] as [" ++ _ ++ "]")
  simp only [Text.inline_append]
  refine ⟨⟨⟨⟨⟨⟨?_, i.opcode.inline_name⟩, ?_⟩, hoperands⟩, ?_⟩, hpairs⟩, ?_⟩
  all_goals exact Text.inline_of_all (by decide)

namespace Listing

open Log (Event)

theorem plain_message_of_mem_faults {bytes : List UInt8} {fault : Fault}
    (h : fault ∈ faults bytes) : Text.Plain fault.message := by
  obtain ⟨item, hitem, hfault⟩ := List.mem_filterMap.1 h
  obtain ⟨s, hs, rfl⟩ := List.mem_map.1 hitem
  cases hcontent : s.item with
  | ok d =>
      rw [hcontent] at hfault
      cases hfault
  | error source =>
      rw [hcontent] at hfault
      cases hfault
      have hline := plain_line hs
      rw [Segment.line, hcontent] at hline
      exact (Text.plain_append.1 hline).2

theorem inline_of_mem_tableEvents {bytes : List UInt8} {event : Event}
    (h : event ∈ tableEvents bytes) : Text.Inline event.message := by
  obtain ⟨s, hs, hread⟩ := List.mem_flatMap.1 h
  obtain ⟨opcode, needed, available, rfl⟩ := Segment.eq_operandsCut_of_mem_readEvents hs hread
  change Text.Inline
    (opcode.name ++ " needs " ++ needed.repr ++ " operand bytes, found " ++ available.repr)
  simp only [Text.inline_append]
  have hwords : Text.Inline " needs " ∧ Text.Inline " operand bytes, found " :=
    ⟨Text.inline_of_all (by decide), Text.inline_of_all (by decide)⟩
  exact ⟨⟨⟨⟨opcode.inline_name, hwords.1⟩, Text.inline_repr needed⟩, hwords.2⟩,
    Text.inline_repr available⟩

theorem inline_of_mem_events {bytes : List UInt8} {event : Event} (h : event ∈ events bytes) :
    Text.Inline event.message := by
  obtain ⟨s, hs, hevent⟩ := List.mem_flatMap.1 h
  rcases List.mem_append.1 hevent with hread | hfault
  · exact inline_of_mem_tableEvents (List.mem_flatMap.2 ⟨s, hs, hread⟩)
  · rw [Segment.faultEvents_eq] at hfault
    obtain ⟨fault, hitem, rfl⟩ := List.mem_map.1 hfault
    have hmem : fault ∈ faults bytes :=
      List.mem_filterMap.2 ⟨s.item, List.mem_map_of_mem hs, Option.mem_toList.1 hitem⟩
    change Text.Inline ("disassembly: " ++ fault.message)
    rw [Text.inline_append]
    exact ⟨Text.inline_of_all (by decide), Text.inline_of_plain (plain_message_of_mem_faults hmem)⟩

end Listing

namespace Command

open Log (Event)

variable {verbosity : Nat} {events : List Event}

theorem toList_logOf (verbosity : Nat) (events : List Event) : (logOf verbosity events).toList =
    ((events.filter (isShown verbosity)).map
      fun event => event.line.toList).flatMap (· ++ ['\n']) := by
  have hlines := Text.toList_join_lines
    ((events.filter (isShown verbosity)).map Event.line)
  rw [List.map_map, List.map_map] at hlines
  exact hlines

theorem closed_logOf (verbosity : Nat) (events : List Event) :
    Text.Closed (logOf verbosity events).toList := by
  rw [toList_logOf]
  exact Text.closed_terminated _

theorem lines_logOf (h : ∀ event ∈ events, Text.Inline event.message) :
    Text.lines (logOf verbosity events).toList =
      (events.filter (isShown verbosity)).map
        fun event => event.line.toList := by
  rw [toList_logOf, Text.lines_terminated]
  intro l hl
  obtain ⟨event, hevent, rfl⟩ := List.mem_map.1 hl
  exact Event.inline_line (h event (List.mem_of_mem_filter hevent))

/-- The lines of a log that begin in the way of some events are those of these events. -/
theorem linesWith_logOf {start : String} {p : Event → Bool}
    (hstart : ∀ event : Event, start.toList <+: event.line.toList ↔ p event = true)
    (hshown : ∀ event : Event, p event = true → isShown verbosity event = true)
    (h : ∀ event ∈ events, Text.Inline event.message) :
    Text.linesWith start (logOf verbosity events) =
      (events.filter p).map fun event => event.line.toList := by
  rw [Text.linesWith, lines_logOf h, List.filter_map, List.filter_filter]
  congr 1
  apply List.filter_congr
  intro event _
  by_cases hp : p event = true
  · simp [hp, hstart, hshown]
  · simp [hp, hstart]

end Command

end Opstream
