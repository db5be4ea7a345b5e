import Opstream.Proofs.ProgramLines

namespace Opstream

theorem Opcode.stops_digit_name (opcode : Opcode) :
    Text.Stops Char.isDigit opcode.name.toList := by
  cases opcode
  exact Text.stops_cons (by decide) _

namespace Source

def Cause.ofFault : Fault → Cause
  | .operandCount name expected given => .arity name expected given
  | .operandOverflow name v width => .operandOverflow name v.toNat.repr width
  | fault => .encoding fault

namespace Statement

open Text

variable {i : Instruction}

theorem skipOffset_text (i : Instruction) : skipOffset i.text.toList = i.text.toList := by
  apply skipOffset_of_stops
  rw [Instruction.toList_text]
  obtain ⟨c, name, hname⟩ := List.exists_cons_of_ne_nil i.opcode.name_ne_nil
  have hstop := i.opcode.stops_digit_name
  rw [hname] at hstop ⊢
  exact stops_cons (hstop c rfl) _

theorem ofLine?_text (i : Instruction) : ofLine? i.text.toList = some (some i.statement) := by
  rw [ofLine?, (stops_text i).dropWhile_eq, read?_of_skipOffset (skipOffset_text i)]
  rfl

theorem instruction_statement_of_ne (h : i.operands.length ≠ i.opcode.arity) :
    i.statement.instruction =
      .error (.arity i.opcode.name i.opcode.arity i.operands.length) := by
  have hname : Opcode.ofName? i.statement.name = some i.opcode := Opcode.ofName?_name i.opcode
  have hlen : i.statement.operands.length = i.operands.length := List.length_map _
  rw [instruction, hname]
  dsimp only
  rw [hlen, if_pos h]

/-- As long as no opcode has two operands, the operand that does not fit is the only one. -/
theorem operands_of_overflow? (hlen : i.operands.length = i.opcode.arity) {v : Operand}
    {width : Nat} (h : i.opcode.layout.overflow? i.operands = some (v, width)) :
    i.operands = [v] ∧ i.opcode.widths = [width] := by
  have hmem := List.of_mem_zip (Layout.mem_of_overflow? h)
  have hone := i.opcode.arity_le_one
  have hoperands : i.operands.length = 1 := by
    have hpos := List.length_pos_of_mem hmem.1
    omega
  have hwidths : i.opcode.widths.length = 1 := hlen.symm.trans hoperands
  obtain ⟨u, hu⟩ := List.length_eq_one_iff.1 hoperands
  obtain ⟨w, hw⟩ := List.length_eq_one_iff.1 hwidths
  have hvu : v = u := List.mem_singleton.1 (hu ▸ hmem.1)
  have hww : width = w := List.mem_singleton.1 (hw ▸ hmem.2)
  exact ⟨by rw [hu, hvu], by rw [hw, hww]⟩

theorem refusal_statement (hlen : i.operands.length = i.opcode.arity) {v : Operand} {width : Nat}
    (h : i.opcode.layout.overflow? i.operands = some (v, width)) :
    i.statement.refusal i (.operandOverflow i.opcode.name v width) =
      .operandOverflow i.opcode.name v.toNat.repr width := by
  obtain ⟨hoperands, hwidths⟩ := operands_of_overflow? hlen h
  simp [refusal, Instruction.statement, hoperands, hwidths, List.findIdx?_cons]

theorem check_statement (i : Instruction) :
    i.statement.check.result = (i.encode.mapError Cause.ofFault).map fun _ => i := by
  cases hcode : i.encode with
  | ok code => exact result_check hcode
  | error fault =>
      rw [result_check_eq]
      rcases Layout.encode_eq_error_iff.1 hcode with ⟨hne, rfl⟩ | ⟨hlen, v, width, hover, rfl⟩
      · rw [instruction_statement_of_ne hne]
        rfl
      · rw [instruction_statement hlen, Results.ok_bind, hcode]
        exact congrArg Except.error (refusal_statement hlen hover)

end Statement

theorem parse_text (i : Instruction) :
    parse i.text = (i.encode.mapError fun fault => ⟨1, .ofFault fault⟩).map fun _ => [i] := by
  have hnewline : '\n' ∉ i.text.toList := fun hm =>
    Text.ne_newline_of_isInline (Text.inline_of_plain (plain_text i) _ hm) rfl
  have hline : (readLine i.text.toList).result = i.statement.check.result.map some := by
    rw [readLine, Statement.ofLine?_text]
    exact Log.Traced.result_map some i.statement.check
  have hparse := parse_line hnewline
  rw [String.ofList_toList, hline, Statement.check_statement] at hparse
  rw [hparse]
  cases i.encode <;> rfl

/-- An instruction and its text are checked alike: what has an encoding is read back, and what has
none is refused for the same reason. -/
theorem text_checked_as_encoding (i : Instruction) :
    (∀ code, i.encode = .ok code →
      parse i.text = .ok [i] ∧ assemble i.text = .ok (Buffer.ofBytes code)) ∧
    (∀ name expected given, i.encode = .error (.operandCount name expected given) →
      parse i.text = .error ⟨1, .arity name expected given⟩) ∧
    (∀ name v width, i.encode = .error (.operandOverflow name v width) →
      parse i.text = .error ⟨1, .operandOverflow name v.toNat.repr width⟩) ∧
    (∀ fault, i.encode = .error fault →
      (∃ name expected given, fault = .operandCount name expected given) ∨
        ∃ name v width, fault = .operandOverflow name v width) := by
  refine ⟨fun code h => ?_, fun name expected given h => ?_, fun name v width h => ?_,
    fun fault h => ?_⟩
  · have hparse : parse i.text = .ok [i] := by
      rw [parse_text, h]
      rfl
    refine ⟨hparse, ?_⟩
    rw [assemble_eq, hparse]
    change Except.ok (Buffer.ofBytes ([i].flatMap Instruction.code)) = _
    rw [List.flatMap_singleton, Instruction.code_eq h]
  · rw [parse_text, h]
    rfl
  · rw [parse_text, h]
    rfl
  · rcases Layout.encode_eq_error_iff.1 h with ⟨_, rfl⟩ | ⟨_, v, width, _, rfl⟩
    · exact .inl ⟨_, _, _, rfl⟩
    · exact .inr ⟨_, v, width, rfl⟩

theorem text_checked_as_encoding_at_limits :
    parse "OpConstant 65535" = .ok [⟨.constant, [65535]⟩] ∧
    assemble "OpConstant 65535" = .ok (Buffer.ofBytes [0, 255, 255]) ∧
    parse "OpConstant 65536" = .error ⟨1, .operandOverflow "OpConstant" "65536" 2⟩ ∧
    parse "OpConstant 65536 18446744073709551615" = .error ⟨1, .arity "OpConstant" 1 2⟩ := by
  obtain ⟨hok, _⟩ := text_checked_as_encoding ⟨.constant, [65535]⟩
  obtain ⟨_, _, hover, _⟩ := text_checked_as_encoding ⟨.constant, [65536]⟩
  obtain ⟨_, hcount, _, _⟩ := text_checked_as_encoding ⟨.constant, [65536, 18446744073709551615]⟩
  obtain ⟨hparse, hassemble⟩ := hok [0, 255, 255] rfl
  exact ⟨hparse, hassemble, hover "OpConstant" 65536 2 rfl, hcount "OpConstant" 1 2 rfl⟩

end Source

end Opstream
