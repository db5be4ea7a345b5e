import Opstream.Proofs.CommandRun
import Opstream.Proofs.ListingEvents
import Opstream.Proofs.ProgramEvents

namespace Opstream

theorem Source.exists_decodeAll_ofProgram {text : String} {is : List Instruction}
    (h : parse text = .ok is) : ∃ ds, decodeAll (Buffer.ofProgram is).bytes = .ok ds := by
  obtain ⟨ds, hds, _⟩ := decodeAll_of_encodings (encodings_of_parse h)
  rw [← List.flatMap_def] at hds
  exact ⟨ds, hds⟩

namespace Command

open Log (Event)

variable {o o' : Options}

theorem events_listing_of_decodeAll {b : Buffer} {ds : List Decoded}
    (h : decodeAll b.bytes = .ok ds) (o : Options) : (listing o b).events = [] := by
  cases htable : o.table with
  | true => rw [events_listing_of_table htable, Listing.tableEvents_of_decodeAll h]
  | false => rw [events_listing_of_plain htable, Listing.events_of_decodeAll h]

theorem run_execute_of_parse {text : String} {is : List Instruction} (hbinary : o.binary = false)
    (h : Source.parse text = .ok is) :
    (execute .steady o (Text.Utf8.encode text.toList)).run Journal.empty =
      (.ok (), ⟨is.map Instruction.event ++ is.map Instruction.event ++
        [.loaded (Buffer.ofProgram is).size], page o (Buffer.ofProgram is)⟩) := by
  obtain ⟨ds, hds⟩ := Source.exists_decodeAll_ofProgram h
  have hload := load_of_text hbinary text
  rw [Source.assembleReported_of_ok h] at hload
  rw [run_execute_of_ok (congrArg Log.Traced.result hload), hload, events_listing_of_decodeAll hds]
  rfl

theorem run_execute_of_parse_error {text : String} {e : Source.Error} (hbinary : o.binary = false)
    (h : Source.parse text = .error e) : ∃ parts,
      List.Forall₂ (fun line part => Source.parse (String.ofList line) = .ok part)
        ((Text.lines text.toList).take (e.line - 1)) parts ∧
      (execute .steady o (Text.Utf8.encode text.toList)).run Journal.empty =
        (.error (.source e), ⟨parts.flatten.map Instruction.event, ""⟩) := by
  obtain ⟨parts, hparts, hassemble⟩ := Source.assembleReported_of_error h
  have hload := load_of_text hbinary text
  rw [hassemble] at hload
  refine ⟨parts, hparts, ?_⟩
  rw [run_execute_of_error (congrArg Log.Traced.result hload), hload]
  rfl

section Shown

variable {verbosity : Nat}

theorem logOf_append (verbosity : Nat) (a b : List Event) :
    logOf verbosity (a ++ b) = logOf verbosity a ++ logOf verbosity b := by
  rw [logOf, List.filter_append, List.map_append, String.join_append]
  rfl

theorem isShown_event (verbosity : Nat) (i : Instruction) :
    isShown verbosity i.event = decide (3 ≤ verbosity) :=
  decide_eq_decide.2 (by change 5 ≤ verbosity + 2 ↔ _; omega)

theorem isShown_loaded (verbosity size : Nat) :
    isShown verbosity (.loaded size) = decide (2 ≤ verbosity) :=
  decide_eq_decide.2 (by change 4 ≤ verbosity + 2 ↔ _; omega)

def encodedLines (is : List Instruction) : String :=
  String.join (is.map fun i => i.event.line ++ "\n")

def sizeLine (size : Nat) : String :=
  "[DEBUG opcodec] " ++ size.repr ++ " bytes of bytecode" ++ "\n"

theorem logOf_program_of_le (h : 3 ≤ verbosity) (is : List Instruction) :
    logOf verbosity (is.map Instruction.event) = encodedLines is := by
  have hshown : ∀ event ∈ is.map Instruction.event, isShown verbosity event = true :=
    List.forall_mem_map.2 fun i _ => (isShown_event verbosity i).trans (decide_eq_true h)
  rw [logOf, List.filter_eq_self.2 hshown, List.map_map]
  rfl

theorem logOf_program_of_lt (h : verbosity < 3) (is : List Instruction) :
    logOf verbosity (is.map Instruction.event) = "" := by
  have hhidden : ∀ event ∈ is.map Instruction.event, ¬ isShown verbosity event = true := by
    refine List.forall_mem_map.2 fun i _ => ?_
    rw [isShown_event, decide_eq_true_iff]
    exact Nat.not_le.2 h
  rw [logOf, List.filter_eq_nil_iff.2 hhidden]
  rfl

theorem line_loaded (size : Nat) : (Event.loaded size).line ++ "\n" = sizeLine size := by
  have hfront : "[" ++ Log.Level.label .debug ++ " " ++ "opcodec" ++ "] " = "[DEBUG opcodec] " := by
    decide
  calc (Event.loaded size).line ++ "\n"
      = "[" ++ Log.Level.label .debug ++ " " ++ "opcodec" ++ "] " ++
          (size.repr ++ " bytes of bytecode") ++ "\n" := rfl
    _ = "[DEBUG opcodec] " ++ (size.repr ++ " bytes of bytecode") ++ "\n" :=
        congrArg (· ++ (size.repr ++ " bytes of bytecode") ++ "\n") hfront
    _ = sizeLine size := congrArg (· ++ "\n") String.append_assoc.symm

theorem logOf_loaded_of_le (h : 2 ≤ verbosity) (size : Nat) :
    logOf verbosity [.loaded size] = sizeLine size := by
  rw [logOf, List.filter_singleton, isShown_loaded, decide_eq_true h, ← line_loaded]
  exact String.empty_append

theorem logOf_loaded_of_lt (h : verbosity < 2) (size : Nat) :
    logOf verbosity [.loaded size] = "" := by
  rw [logOf, List.filter_singleton, isShown_loaded, decide_eq_false (Nat.not_le.2 h)]
  rfl

end Shown

theorem Yields.verbosity_congr {input : List UInt8} {r r' : Outcome} (h : Yields none o input r)
    (h' : Yields none o' input r') (hbinary : o'.binary = o.binary) (hhex : o'.hex = o.hex)
    (htable : o'.table = o.table) :
    r'.exit = r.exit ∧ r'.stdout = r.stdout ∧ r'.stderr =
      logOf o'.verbosity ((execute .steady o input).run Journal.empty).2.events ++
        reportOf ((execute .steady o input).run Journal.empty).1 := by
  have hexecute := execute_congr hbinary hhex htable .steady input
  rw [h'.stderr_eq, h'.eq, h.eq, exit_finish, exit_finish, stdout_finish, stdout_finish, hexecute]
  exact ⟨rfl, rfl, rfl⟩

/-- The log of a run on a text is accounted for: every instruction ahead of the first line that
cannot be read is reported once, a whole program is reported once more and then its size. One
verbose flag shows nothing of this and two of them the size alone; more of them show everything,
and change nothing else. -/
theorem assembly_log (hinput : o.input ≠ some "") (hbinary : o.binary = false) (text : String) :
    ∃ r, (∀ r', Yields none o (Text.Utf8.encode text.toList) r' ↔ r' = r) ∧
    (∀ is, Source.parse text = .ok is → ∃ b, Source.assemble text = .ok b ∧ r.exit = 0 ∧
      r.stderr = logOf o.verbosity
        (is.map Instruction.event ++ is.map Instruction.event ++ [.loaded b.size]) ∧
      (3 ≤ o.verbosity → r.stderr = encodedLines is ++ encodedLines is ++ sizeLine b.size) ∧
      (o.verbosity = 2 → r.stderr = sizeLine b.size) ∧
      (o.verbosity ≤ 1 → r.stderr = "")) ∧
    (∀ e, Source.parse text = .error e → ∃ parts,
      List.Forall₂ (fun line part => Source.parse (String.ofList line) = .ok part)
        ((Text.lines text.toList).take (e.line - 1)) parts ∧ r.exit = 1 ∧
      r.stderr = logOf o.verbosity (parts.flatten.map Instruction.event) ++
        (Failure.source e).report ∧
      (3 ≤ o.verbosity →
        r.stderr = encodedLines parts.flatten ++ (Failure.source e).report) ∧
      (o.verbosity ≤ 2 → r.stderr = (Failure.source e).report)) ∧
    (∀ o' r', Yields none o' (Text.Utf8.encode text.toList) r' →
      o'.binary = false → o'.hex = o.hex → o'.table = o.table →
        r'.exit = r.exit ∧ r'.stdout = r.stdout ∧ ∃ events report,
          r.stderr = logOf o.verbosity events ++ report ∧
          r'.stderr = logOf o'.verbosity events ++ report) := by
  obtain ⟨r, hr⟩ := exists_run none hinput (Text.Utf8.encode text.toList)
  have h : Yields none o (Text.Utf8.encode text.toList) r := (hr r).2 rfl
  refine ⟨r, hr, fun is hparse => ?_, fun e hparse => ?_, fun o' r' h' hbinary' hhex htable => ?_⟩
  · have hrun := run_execute_of_parse hbinary hparse
    have hlog := h.stderr_eq
    rw [hrun, reportOf, String.append_empty] at hlog
    refine ⟨Buffer.ofProgram is, ?_, ?_, hlog, fun hall => ?_, fun htwo => ?_, fun hone => ?_⟩
    · rw [Source.assemble_eq, hparse]
      rfl
    · rw [h.eq, exit_finish, hrun]
      rfl
    · rw [hlog, logOf_append, logOf_append, logOf_program_of_le hall,
        logOf_loaded_of_le (Nat.le_of_succ_le hall)]
    · rw [hlog, logOf_append, logOf_append, logOf_program_of_lt (by omega),
        logOf_loaded_of_le htwo.ge]
      exact String.empty_append
    · rw [hlog, logOf_append, logOf_append, logOf_program_of_lt (by omega),
        logOf_loaded_of_lt (by omega)]
      rfl
  · obtain ⟨parts, hparts, hrun⟩ := run_execute_of_parse_error hbinary hparse
    have hlog := h.stderr_eq
    rw [hrun, reportOf] at hlog
    refine ⟨parts, hparts, ?_, hlog, fun hall => ?_, fun htwo => ?_⟩
    · rw [h.eq, exit_finish, hrun]
      rfl
    · rw [hlog, logOf_program_of_le hall]
    · rw [hlog, logOf_program_of_lt (by omega), String.empty_append]
  · obtain ⟨hexit, hstdout, hstderr⟩ :=
      h.verbosity_congr h' (hbinary'.trans hbinary.symm) hhex htable
    exact ⟨hexit, hstdout, _, _, h.stderr_eq, hstderr⟩

/-- A program without a verbose flag and with one, two and three of them, and a text that stops at
its second line. -/
theorem assembly_log_levels :
    run none (fun _ => .ok (Text.Utf8.encode "OpConstant 7".toList)) [] =
      ⟨0, "0000 OpConstant 7\n", ""⟩ ∧
    run none (fun _ => .ok (Text.Utf8.encode "OpConstant 7".toList)) ["-v"] =
      ⟨0, "0000 OpConstant 7\n", ""⟩ ∧
    run none (fun _ => .ok (Text.Utf8.encode "OpConstant 7".toList)) ["-vv"] =
      ⟨0, "0000 OpConstant 7\n", "[DEBUG opcodec] 3 bytes of bytecode\n"⟩ ∧
    run none (fun _ => .ok (Text.Utf8.encode "OpConstant 7".toList)) ["-vvv"] =
      ⟨0, "0000 OpConstant 7\n",
        "[TRACE opcodec::bytecode::binary] encoded OpConstant [7] as [00, 00, 07]\n" ++
        "[TRACE opcodec::bytecode::binary] encoded OpConstant [7] as [00, 00, 07]\n" ++
        "[DEBUG opcodec] 3 bytes of bytecode\n"⟩ ∧
    (run none (fun _ => .ok (Text.Utf8.encode "OpConstant 7\nOpBogus 2".toList)) []).stderr =
      "Error: Error on line 2: OpBogus is not an operation.\n" ∧
    run none (fun _ => .ok (Text.Utf8.encode "OpConstant 7\nOpBogus 2".toList)) ["-vvv"] =
      ⟨1, "", "[TRACE opcodec::bytecode::binary] encoded OpConstant [7] as [00, 00, 07]\n" ++
        "Error: Error on line 2: OpBogus is not an operation.\n"⟩ := by
  have hnone : Options.default.input ≠ some "" := by decide
  have hbad : Source.parse "OpConstant 7\nOpBogus 2" =
      .error ⟨2, .unknownOperation "OpBogus"⟩ := by decide +kernel
  obtain ⟨r, hr, _, hfails, _⟩ := assembly_log hnone rfl "OpConstant 7\nOpBogus 2"
  obtain rfl :
      run none (fun _ => .ok (Text.Utf8.encode "OpConstant 7\nOpBogus 2".toList)) [] = r :=
    (hr _).1 ⟨[], _, by decide +kernel, rfl, rfl⟩
  obtain ⟨_, _, _, _, _, hreport⟩ := hfails _ hbad
  refine ⟨by decide +kernel, by decide +kernel, by decide +kernel, by decide +kernel,
    (hreport (by decide)).trans (by decide +kernel), by decide +kernel⟩

end Command

end Opstream
