import Opstream.Proofs.CommandLog
import Opstream.Proofs.ErrorText
import Opstream.Proofs.LogLines

namespace Opstream

namespace Hex

theorem isAlphanum_or_space_of_mem_text {bytes : List UInt8} :
    ∀ c ∈ (text bytes).toList, c.isAlphanum = true ∨ c = ' ' := by
  refine Text.forall_mem_intercalate (fun c hc => .inr (List.mem_singleton.1 hc)) ?_
  intro part hpart c hc
  obtain ⟨b, _, rfl⟩ := List.mem_map.1 hpart
  exact .inl (isAlphanum_of_mem_pair hc)

end Hex

namespace Text

theorem linesWith_error_hex (bytes : List UInt8) (more : String) :
    linesWith "ERROR: " (Hex.text bytes ++ "\n" ++ more) = linesWith "ERROR: " more := by
  apply linesWith_line
  · intro hm
    rcases Hex.isAlphanum_or_space_of_mem_text _ hm with h | h
    · exact absurd h (by decide)
    · exact absurd h (by decide)
  · intro hprefix
    have hcolon : ':' ∈ (Hex.text bytes).toList := hprefix.subset (by decide)
    rcases Hex.isAlphanum_or_space_of_mem_text _ hcolon with h | h
    · exact absurd h (by decide)
    · exact absurd h (by decide)

theorem linesWith_error_listing (bytes : List UInt8) : linesWith "ERROR: " (Listing.text bytes) =
    (faults bytes).map fun fault => ("ERROR: " ++ fault.message).toList := by
  rw [linesWith, Listing.lines_text_eq_map, faults]
  induction items bytes with
  | nil => rfl
  | cons item items ih =>
      cases item with
      | ok d =>
          have hline : ¬ "ERROR: ".toList <+: (itemLine (.ok d)).toList := fun h =>
            not_error_isPrefix_line d (List.IsPrefix.trans ⟨[':', ' '], rfl⟩ h)
          rw [List.map_cons, List.filter_cons, decide_eq_false hline, if_neg Bool.false_ne_true, ih]
          rfl
      | error fault =>
          have hline : "ERROR: ".toList <+: (itemLine (.error fault)).toList := by
            rw [itemLine, String.toList_append]
            exact List.prefix_append _ _
          rw [List.map_cons, List.filter_cons, decide_eq_true hline, if_pos rfl, ih]
          rfl

end Text

namespace Command

open Log (Event)

variable {o : Options} {input : List UInt8} {r : Outcome}

theorem linesWith_error_page (h : o.table = false) (b : Buffer) :
    Text.linesWith "ERROR: " (page o b) =
      (faults b.bytes).map fun fault => ("ERROR: " ++ fault.message).toList := by
  rw [page, h, if_neg Bool.false_ne_true]
  split
  · rw [Buffer.hex, Text.linesWith_error_hex]
    exact Text.linesWith_error_listing b.bytes
  · rw [String.empty_append]
    exact Text.linesWith_error_listing b.bytes

theorem inline_loaded (size : Nat) : Text.Inline (Event.loaded size).message := by
  change Text.Inline (size.repr ++ " bytes of bytecode")
  rw [Text.inline_append]
  exact ⟨Text.inline_repr size, Text.inline_of_all (by decide)⟩

theorem inline_of_mem_listing {b : Buffer} {event : Event} (h : event ∈ (listing o b).events) :
    Text.Inline event.message := by
  cases htable : o.table with
  | true =>
      rw [events_listing_of_table htable] at h
      exact Listing.inline_of_mem_tableEvents h
  | false =>
      rw [events_listing_of_plain htable] at h
      exact Listing.inline_of_mem_events h

theorem Yields.stderr_of_binary (h : Yields none o input r) (hbinary : o.binary = true) :
    r.stderr = logOf o.verbosity
      (.loaded input.length :: (listing o (Buffer.ofBytes input)).events) := by
  have hload := load_of_binary hbinary input
  rw [h.stderr_eq, run_execute_of_ok (congrArg Log.Traced.result hload), hload]
  exact String.append_empty

theorem isShown_of_isWarning {event : Event} (h : event.isWarning = true) (verbosity : Nat) :
    isShown verbosity event = true := by
  cases event <;> cases h
  exact decide_eq_true (Nat.le_add_left 2 verbosity)

theorem isShown_of_isCut {event : Event} (h : event.isCut = true) {verbosity : Nat}
    (hverbosity : 2 ≤ verbosity) : isShown verbosity event = true := by
  cases event <;> cases h
  exact decide_eq_true (Nat.add_le_add_right hverbosity 2)

section Log

variable {verbosity : Nat} {events : List Event}

theorem linesWith_warning_log (h : ∀ event ∈ events, Text.Inline event.message) :
    Text.linesWith "[WARN " (logOf verbosity events) =
      (events.filter Event.isWarning).map fun event => event.line.toList :=
  linesWith_logOf Event.warning_isPrefix_line (fun _ hw => isShown_of_isWarning hw verbosity) h

theorem linesWith_cut_log (hverbosity : 2 ≤ verbosity)
    (h : ∀ event ∈ events, Text.Inline event.message) :
    Text.linesWith "[DEBUG opcodec::bytecode::binary]" (logOf verbosity events) =
      (events.filter Event.isCut).map fun event => event.line.toList :=
  linesWith_logOf Event.cut_isPrefix_line (fun _ hcut => isShown_of_isCut hcut hverbosity) h

end Log

theorem line_malformed (fault : Fault) : (Event.malformed fault).line =
    "[WARN  opcodec::bytecode::disassembly] disassembly: " ++ fault.message := by
  have hheader : (Event.malformed fault).header ++ "disassembly: " =
      "[WARN  opcodec::bytecode::disassembly] disassembly: " := by
    dsimp only [Event.header, Event.level, Event.target]
    decide
  rw [← hheader, String.append_assoc]
  rfl

/-- A report about a text does not look like a warning, even where it quotes that text. -/
theorem linesWith_warning_source {text : String} {e : Source.Error}
    (h : Source.parse text = .error e) :
    Text.linesWith "[WARN " (Failure.source e).report = [] := by
  have hreport : (Failure.source e).report = "Error: " ++ e.message ++ "\n" ++ "" :=
    String.append_empty.symm
  rw [hreport, Text.linesWith_line]
  · rfl
  · have hmessage := Source.newline_not_mem_message h
    simp only [String.toList_append, List.mem_append, not_or]
    exact ⟨by decide, hmessage⟩
  · rw [Text.isPrefix_append_iff (by decide)]
    decide

theorem newline_not_mem_fault (fault : Text.Utf8.Fault) : '\n' ∉ fault.message.toList := by
  have hrepr : ∀ n : Nat, '\n' ∉ n.repr.toList := fun n =>
    Text.newline_not_mem_of_plain (Text.plain_repr n)
  cases fault with
  | invalid length index =>
      change '\n' ∉ ("invalid utf-8 sequence of " ++ length.repr ++ " bytes from index " ++
        index.repr).toList
      simp only [String.toList_append, List.mem_append, not_or]
      exact ⟨⟨⟨by decide, hrepr length⟩, by decide⟩, hrepr index⟩
  | incomplete index =>
      change '\n' ∉ ("incomplete utf-8 byte sequence from index " ++ index.repr).toList
      simp only [String.toList_append, List.mem_append, not_or]
      exact ⟨by decide, hrepr index⟩

theorem linesWith_warning_notText (fault : Text.Utf8.Fault) :
    Text.linesWith "[WARN " (Failure.notText fault).report = [] := by
  have hfront : "Error: assembly input is not UTF-8\n\nCaused by:\n    " =
      "Error: assembly input is not UTF-8" ++ "\n" ++
        ("" ++ "\n" ++ ("Caused by:" ++ "\n" ++ "    ")) := by decide
  have hreport : (Failure.notText fault).report = "Error: assembly input is not UTF-8" ++ "\n" ++
      ("" ++ "\n" ++ ("Caused by:" ++ "\n" ++ ("    " ++ fault.message ++ "\n" ++ ""))) := by
    change "Error: assembly input is not UTF-8\n\nCaused by:\n    " ++ fault.message ++ "\n" = _
    rw [hfront]
    simp only [String.append_assoc, String.append_empty]
  rw [hreport, Text.linesWith_line (by decide) (by decide),
    Text.linesWith_line (by decide) (by decide), Text.linesWith_line (by decide) (by decide),
    Text.linesWith_line]
  · rfl
  · simp only [String.toList_append, List.mem_append, not_or]
    exact ⟨by decide, newline_not_mem_fault fault⟩
  · rw [Text.isPrefix_append_iff (by decide)]
    decide

theorem run_execute_of_not_text (hbinary : o.binary = false) {fault : Text.Utf8.Fault}
    (h : Text.Utf8.decode input = .error fault) :
    (execute .steady o input).run Journal.empty = (.error (.notText fault), ⟨[], ""⟩) := by
  have hload := load_of_not_text hbinary h
  rw [run_execute_of_error (congrArg Log.Traced.result hload), hload]

theorem linesWith_warning_quiet {verbosity : Nat} {events : List Event}
    (h : ∀ event ∈ events, Text.Inline event.message ∧ event.isWarning = false) :
    Text.linesWith "[WARN " (logOf verbosity events) = [] := by
  have hnone : events.filter Event.isWarning = [] := by
    rw [List.filter_eq_nil_iff]
    intro event hevent
    rw [(h event hevent).2]
    exact Bool.false_ne_true
  rw [linesWith_warning_log fun event hevent => (h event hevent).1, hnone]
  rfl

theorem quiet_program (is : List Instruction) : ∀ event ∈ is.map Instruction.event,
    Text.Inline event.message ∧ event.isWarning = false := by
  rw [List.forall_mem_map]
  exact fun i _ => ⟨i.inline_event, rfl⟩

theorem Yields.warnings_of_text (h : Yields none o input r) (hbinary : o.binary = false) :
    Text.linesWith "[WARN " r.stderr = [] := by
  rw [h.stderr_eq, Text.linesWith_append (closed_logOf _ _)]
  rcases text_or_fault input with ⟨text, rfl⟩ | ⟨fault, hfault⟩
  · cases hparse : Source.parse text with
    | ok is =>
        rw [run_execute_of_parse hbinary hparse, linesWith_warning_quiet, reportOf]
        · rfl
        · simp only [List.forall_mem_append, List.forall_mem_singleton]
          exact ⟨⟨quiet_program is, quiet_program is⟩, inline_loaded _, rfl⟩
    | error e =>
        obtain ⟨parts, _, hexecute⟩ := run_execute_of_parse_error hbinary hparse
        rw [hexecute, linesWith_warning_quiet (quiet_program _), reportOf,
          linesWith_warning_source hparse, List.append_nil]
  · rw [run_execute_of_not_text hbinary hfault, linesWith_warning_quiet (List.forall_mem_nil _),
      reportOf, linesWith_warning_notText, List.append_nil]

section Binary

theorem Yields.warnings_of_binary (h : Yields none o input r) (hbinary : o.binary = true) :
    Text.linesWith "[WARN " r.stderr =
      ((listing o (Buffer.ofBytes input)).events.filter Event.isWarning).map
        fun event => event.line.toList := by
  rw [h.stderr_of_binary hbinary, linesWith_warning_log]
  · rfl
  · exact List.forall_mem_cons.2 ⟨inline_loaded _, fun _ => inline_of_mem_listing⟩

theorem Yields.cuts_of_binary (h : Yields none o input r) (hbinary : o.binary = true)
    (hverbosity : 2 ≤ o.verbosity) : Text.linesWith "[DEBUG opcodec::bytecode::binary]" r.stderr =
      (Listing.tableEvents input).map fun event => event.line.toList := by
  have hcuts : (listing o (Buffer.ofBytes input)).events.filter Event.isCut =
      Listing.tableEvents input := by
    cases htable : o.table with
    | true =>
        rw [events_listing_of_table htable]
        exact List.filter_eq_self.2 fun _ => Listing.isCut_of_mem_tableEvents
    | false =>
        rw [events_listing_of_plain htable]
        exact Listing.filter_isCut_events input
  rw [h.stderr_of_binary hbinary, linesWith_cut_log hverbosity, ← hcuts]
  · rfl
  · exact List.forall_mem_cons.2 ⟨inline_loaded _, fun _ => inline_of_mem_listing⟩

theorem Yields.lines_of_cut (h : Yields none o input r) (hbinary : o.binary = true)
    (htable : o.table = false) (hverbosity : 2 ≤ o.verbosity) {front : List Event} {name : String}
    {needed available : Nat} {fault : Fault} (hevents : Listing.events input =
      front ++ [.operandsCut name needed available, .malformed fault]) :
    ∃ lines, Text.lines r.stderr.toList = lines ++
      [(Event.operandsCut name needed available).line.toList,
        ("[WARN  opcodec::bytecode::disassembly] disassembly: " ++ fault.message).toList] := by
  have hshown : ∀ event ∈ [Event.operandsCut name needed available, .malformed fault],
      isShown o.verbosity event = true := by
    rw [List.forall_mem_cons, List.forall_mem_singleton]
    exact ⟨isShown_of_isCut rfl hverbosity, isShown_of_isWarning rfl o.verbosity⟩
  have hinline : ∀ event ∈ Event.loaded input.length :: (listing o (Buffer.ofBytes input)).events,
      Text.Inline event.message :=
    List.forall_mem_cons.2 ⟨inline_loaded _, fun _ => inline_of_mem_listing⟩
  have hall : (listing o (Buffer.ofBytes input)).events =
      front ++ [.operandsCut name needed available, .malformed fault] :=
    (events_listing_of_plain htable _).trans hevents
  rw [h.stderr_of_binary hbinary, lines_logOf hinline, hall, ← List.cons_append, List.filter_append,
    List.filter_eq_self.2 hshown, List.map_append, List.map_cons, List.map_singleton,
    line_malformed]
  exact ⟨_, rfl⟩

end Binary

/-- The warnings of a run are the faults that its listing shows, and an instruction that is cut
short at the end of the stream is reported once more, just before its warning. -/
theorem warnings_mirror_faults (h : Yields none o input r) :
    (o.binary = true → o.table = false → ∃ messages : List String,
      Text.linesWith "ERROR: " r.stdout = messages.map (fun m => ("ERROR: " ++ m).toList) ∧
      Text.linesWith "[WARN " r.stderr = messages.map fun m =>
        ("[WARN  opcodec::bytecode::disassembly] disassembly: " ++ m).toList) ∧
    (o.binary = false ∨ o.table = true → Text.linesWith "[WARN " r.stderr = []) ∧
    (o.binary = true → 2 ≤ o.verbosity →
      (∀ offset needed available, EndsCut input offset needed available →
        ∃ opcode : Opcode,
          Text.linesWith "[DEBUG opcodec::bytecode::binary]" r.stderr =
            [(Event.operandsCut opcode.name needed available).line.toList] ∧
          (o.table = false → ∃ front, Text.lines r.stderr.toList = front ++
            [(Event.operandsCut opcode.name needed available).line.toList,
              ("[WARN  opcodec::bytecode::disassembly] disassembly: " ++
                (Fault.malformed offset (.truncated needed available)).message).toList])) ∧
      ((∀ offset needed available, ¬ EndsCut input offset needed available) →
        Text.linesWith "[DEBUG opcodec::bytecode::binary]" r.stderr = [])) := by
  refine ⟨fun hbinary htable => ⟨(faults input).map Fault.message, ?_, ?_⟩, ?_,
    fun hbinary hverbosity => ⟨fun offset needed available hcut => ?_, fun hcut => ?_⟩⟩
  · have hload := load_of_binary hbinary input
    rw [(h.of_ok (congrArg Log.Traced.result hload)).2, linesWith_error_page htable, List.map_map]
    rfl
  · rw [h.warnings_of_binary hbinary, events_listing_of_plain htable,
      Listing.filter_isWarning_events, List.map_map, List.map_map]
    apply List.map_congr_left
    intro fault _
    exact congrArg String.toList (line_malformed fault)
  · intro hquiet
    cases hbinary : o.binary with
    | false => exact h.warnings_of_text hbinary
    | true =>
        have htable : o.table = true := by simpa [hbinary] using hquiet
        rw [h.warnings_of_binary hbinary, events_listing_of_table htable,
          Event.filter_isWarning_of_cuts fun _ => Listing.isCut_of_mem_tableEvents]
        rfl
  · obtain ⟨front, opcode, htable, hevents⟩ := Listing.events_of_endsCut hcut
    refine ⟨opcode, ?_, fun hplain => ?_⟩
    · rw [h.cuts_of_binary hbinary hverbosity, htable]
      rfl
    · exact h.lines_of_cut hbinary hplain hverbosity hevents
  · rw [h.cuts_of_binary hbinary hverbosity, Listing.tableEvents_of_not_endsCut hcut]
    rfl

/-- A tag that no opcode has, and a constant that lacks a byte. -/
theorem warnings_mirror_faults_cut_short :
    run none (fun _ => .ok [255, 0, 9]) ["-bvv"] =
      ⟨0, "ERROR: opcode 255 undefined at 0000\n" ++
        "ERROR: truncated instruction: needed 2 bytes but only 1 remain at 0001\n",
        "[DEBUG opcodec] 3 bytes of bytecode\n" ++
        "[WARN  opcodec::bytecode::disassembly] disassembly: opcode 255 undefined at 0000\n" ++
        "[DEBUG opcodec::bytecode::binary] OpConstant needs 2 operand bytes, found 1\n" ++
        "[WARN  opcodec::bytecode::disassembly] disassembly: truncated instruction: " ++
        "needed 2 bytes but only 1 remain at 0001\n"⟩ ∧
    (∃ messages : List String,
      Text.linesWith "ERROR: " (run none (fun _ => .ok [255, 0, 9]) ["-bvv"]).stdout =
        messages.map (fun m => ("ERROR: " ++ m).toList) ∧
      Text.linesWith "[WARN " (run none (fun _ => .ok [255, 0, 9]) ["-bvv"]).stderr =
        messages.map fun m =>
          ("[WARN  opcodec::bytecode::disassembly] disassembly: " ++ m).toList) ∧
    EndsCut [255, 0, 9] 1 2 1 ∧
    (∃ opcode : Opcode, Text.linesWith "[DEBUG opcodec::bytecode::binary]"
      (run none (fun _ => .ok [255, 0, 9]) ["-bvv"]).stderr =
        [(Event.operandsCut opcode.name 2 1).line.toList]) := by
  have hcut : EndsCut [255, 0, 9] 1 2 1 := by
    rw [EndsCut]
    decide +kernel
  have hrun : Yields none ⟨none, true, false, false, 2⟩ [255, 0, 9]
      (run none (fun _ => .ok [255, 0, 9]) ["-bvv"]) :=
    ⟨["-bvv"], _, by decide +kernel, rfl, rfl⟩
  obtain ⟨hwarnings, _, hcuts⟩ := warnings_mirror_faults hrun
  obtain ⟨opcode, hline, _⟩ := (hcuts rfl (by decide)).1 1 2 1 hcut
  refine ⟨?_, hwarnings rfl rfl, hcut, opcode, hline⟩
  decide +kernel

end Command

end Opstream
