import Mathlib.Data.List.GetD
import Opstream.Proofs.ProgramEncoding

namespace Opstream.Source

open Log (Traced)

namespace Statement

variable {s : Statement} {i : Instruction} {cause : Cause}

theorem value_eq_error {name digits : String} {width : Nat}
    (h : value name width digits = .error cause) : cause = .operandOverflow name digits width := by
  by_cases hsize : Decimal.value digits.toList < UInt64.size
  · rw [value, if_pos hsize] at h
    cases h
  · rw [value, if_neg hsize] at h
    cases h
    rfl

theorem instruction_eq_ok (h : s.instruction = .ok i) :
    s.operands.length = i.opcode.arity ∧ s.values i.opcode = .ok i.operands := by
  rw [instruction] at h
  split at h
  next => cases h
  next opcode _ =>
      by_cases hlen : s.operands.length = opcode.arity
      · rw [if_neg (not_not_intro hlen)] at h
        obtain ⟨values, hvalues, rfl⟩ := Results.map_eq_ok_iff.1 h
        exact ⟨hlen, hvalues⟩
      · rw [if_pos hlen] at h
        cases h

theorem length_operands_of_instruction (h : s.instruction = .ok i) :
    i.operands.length = i.opcode.arity := by
  obtain ⟨hlen, hvalues⟩ := instruction_eq_ok h
  have hsame := (Results.mapM_eq_ok_iff_forall₂.1 hvalues).length_eq
  rw [List.length_zip, hlen] at hsame
  rw [← hsame]
  exact Nat.min_self _

/-- What can be wrong with a statement: its name, the number of its operands, or one of them. -/
inductive Refuses (s : Statement) : Cause → Prop
  | unknown : Refuses s (.unknownOperation s.name)
  | arity (opcode : Opcode) : Refuses s (.arity opcode.name opcode.arity s.operands.length)
  | overflow (opcode : Opcode) {digits : String} (h : digits ∈ s.operands) (width : Nat) :
      Refuses s (.operandOverflow opcode.name digits width)

theorem refuses_of_instruction (h : s.instruction = .error cause) : s.Refuses cause := by
  rw [instruction] at h
  split at h
  next =>
      cases h
      exact .unknown
  next opcode _ =>
      by_cases hlen : s.operands.length = opcode.arity
      · rw [if_neg (not_not_intro hlen)] at h
        obtain ⟨⟨digits, width⟩, hmem, hvalue⟩ :=
          Results.exists_of_mapM_eq_error (Results.map_eq_error_iff.1 h)
        rw [value_eq_error hvalue]
        exact .overflow opcode (List.of_mem_zip hmem).1 width
      · rw [if_pos hlen] at h
        cases h
        exact .arity opcode

theorem refuses_of_overflow (hlen : s.operands.length = i.opcode.arity)
    (hi : i.operands.length = i.opcode.arity) {v : Operand} (hv : v ∈ i.operands) (name : String)
    (width : Nat) : s.Refuses (s.refusal i (.operandOverflow name v width)) := by
  have hsome : ∃ u ∈ i.operands, (u == v) = true := ⟨v, hv, beq_self_eq_true v⟩
  have hindex := List.findIdx?_eq_some_of_exists hsome
  have hlt := List.findIdx_lt_length_of_exists hsome
  rw [hi, ← hlen] at hlt
  rw [refusal, hindex, Option.getD_some, List.getD_eq_getElem _ _ hlt]
  exact .overflow i.opcode (List.getElem_mem hlt) _

theorem refuses_of_encode (h : s.instruction = .ok i) {fault : Fault}
    (hfault : i.encode = .error fault) : s.Refuses (s.refusal i fault) := by
  have hlen := length_operands_of_instruction h
  rcases Layout.encode_eq_error_iff.1 hfault with ⟨hne, _⟩ | ⟨_, v, width, hover, rfl⟩
  · exact absurd hlen hne
  · have hv : v ∈ i.operands := (List.of_mem_zip (Layout.mem_of_overflow? hover)).1
    exact refuses_of_overflow (instruction_eq_ok h).1 hlen hv _ width

theorem refuses_of_check (h : s.check.result = .error cause) : s.Refuses cause := by
  rw [result_check_eq] at h
  cases hi : s.instruction with
  | error d =>
      rw [hi] at h
      cases h
      exact refuses_of_instruction hi
  | ok i =>
      rw [hi, Results.ok_bind, Results.map_eq_error_iff, Results.mapError_eq_error_iff] at h
      obtain ⟨source, hsource, rfl⟩ := h
      exact refuses_of_encode hi hsource

end Statement

theorem readLine_refused {line : List Char} {cause : Cause}
    (h : (readLine line).result = .error cause) :
    cause = .unreadable (String.ofList (Text.trim line)) ∨
      ∃ s, Statement.ofLine? line = some (some s) ∧ s.Refuses cause := by
  rw [readLine] at h
  split at h
  next =>
      cases h
      exact .inl rfl
  next => cases h
  next s hline =>
      rw [Traced.result_map, Results.map_eq_error_iff] at h
      exact .inr ⟨s, hline, Statement.refuses_of_check h⟩

theorem readLines_refused {number : Nat} {lines : List (List Char)} {e : Error}
    (h : (readLines number lines).result = .error e) :
    ∃ line ∈ lines, (readLine line).result = .error e.cause := by
  induction lines generalizing number with
  | nil => cases h
  | cons line lines ih =>
      rw [result_readLines_cons] at h
      cases hline : (readLine line).result with
      | error cause =>
          rw [hline] at h
          cases h
          exact ⟨line, List.mem_cons_self, hline⟩
      | ok found =>
          rw [hline] at h
          cases hmore : (readLines (number + 1) lines).result with
          | error d =>
              rw [hmore] at h
              cases h
              obtain ⟨bad, hbad, hcause⟩ := ih hmore
              exact ⟨bad, List.mem_cons_of_mem line hbad, hcause⟩
          | ok more =>
              rw [hmore] at h
              cases h

theorem parse_refused {text : String} {e : Error} (h : parse text = .error e) :
    ∃ line ∈ Text.lines text.toList, (readLine line).result = .error e.cause :=
  readLines_refused (Results.map_eq_error_iff.1 h)

theorem parse_ne_encoding {text : String} {e : Error} (h : parse text = .error e) (fault : Fault) :
    e.cause ≠ .encoding fault := by
  intro hcause
  obtain ⟨line, _, hline⟩ := parse_refused h
  rw [hcause] at hline
  rcases readLine_refused hline with htext | ⟨s, _, hs⟩
  · cases htext
  · cases hs

theorem appendAll_of_parseReported {text : String} {program : List (Nat × Instruction)}
    (h : (parseReported text).result = .ok program) (b : Buffer) :
    ∃ c, (appendAll b program).result = .ok c :=
  ⟨_, result_appendAll (encodings_code (encode_of_readLines h)) b⟩

/-- A text that can be read can be stored, and what cannot be read fails in the same way in both.
Every operand is checked while reading, so that no failure is left to the encoder. -/
theorem parse_agrees_with_assemble (text : String) :
    ((∃ b, assemble text = .ok b) ↔ ∃ is, parse text = .ok is) ∧
    (∀ is, parse text = .ok is → ∃ codes, Encodings is codes ∧
      (∀ i ∈ is, i.operands.length = i.opcode.arity) ∧
      assemble text = .ok (Buffer.ofBytes codes.flatten)) ∧
    (∀ e, assemble text = .error e ↔ parse text = .error e) ∧
    (∀ e fault, parse text = .error e ∨ assemble text = .error e → e.cause ≠ .encoding fault) ∧
    (∀ program, (parseReported text).result = .ok program →
      ∀ b, ∃ c, (appendAll b program).result = .ok c) := by
  have herror : ∀ e, assemble text = .error e ↔ parse text = .error e := fun e => by
    rw [assemble_eq, Results.map_eq_error_iff]
  refine ⟨?_, fun is his => ?_, herror, fun e fault => ?_, fun _ => appendAll_of_parseReported⟩
  · rw [assemble_eq, Results.exists_map_eq_ok_iff]
  · refine ⟨_, encodings_of_parse his, fun i hi => ?_, ?_⟩
    · obtain ⟨_, hcode⟩ := encode_of_parse his i hi
      exact length_operands_of_encode hcode
    · rw [assemble_eq, his, ← List.flatMap_def]
      rfl
  · rintro (h | h)
    · exact parse_ne_encoding h fault
    · exact parse_ne_encoding ((herror e).1 h) fault

theorem parse_agrees_with_assemble_late_overflow :
    (∃ codes, Encodings [⟨.constant, [7]⟩] codes ∧
      assemble "0003 OpConstant 7 # seven" = .ok (Buffer.ofBytes codes.flatten)) ∧
    (∃ c, (appendAll (Buffer.ofBytes [255]) [(1, ⟨.constant, [7]⟩)]).result = .ok c) ∧
    assemble "OpConstant 1\nOpConstant 065536" =
      .error ⟨2, .operandOverflow "OpConstant" "065536" 2⟩ ∧
    (∀ fault, Cause.operandOverflow "OpConstant" "065536" 2 ≠ .encoding fault) := by
  have hread : (parseReported "0003 OpConstant 7 # seven").result =
      .ok [(1, ⟨.constant, [7]⟩)] := by decide +kernel
  have hparse : parse "0003 OpConstant 7 # seven" = .ok [⟨.constant, [7]⟩] := by decide +kernel
  have hfault : parse "OpConstant 1\nOpConstant 065536" =
      .error ⟨2, .operandOverflow "OpConstant" "065536" 2⟩ := by decide +kernel
  obtain ⟨_, hstored, _, _, hsecond⟩ := parse_agrees_with_assemble "0003 OpConstant 7 # seven"
  obtain ⟨_, _, herror, hcause, _⟩ :=
    parse_agrees_with_assemble "OpConstant 1\nOpConstant 065536"
  obtain ⟨codes, hcodes, _, hassemble⟩ := hstored _ hparse
  exact ⟨⟨codes, hcodes, hassemble⟩, hsecond _ hread _, (herror _).2 hfault,
    fun fault => hcause _ fault (.inl hfault)⟩

end Opstream.Source
