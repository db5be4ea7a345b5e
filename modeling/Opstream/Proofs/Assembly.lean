import Opstream.Proofs.StatementText
import Opstream.Proofs.StreamRoundTrip
import Opstream.Source.Program

namespace Opstream

namespace Log.Traced

variable {ε δ α β : Type}

@[simp] theorem result_ofExcept (result : Except ε α) : (ofExcept result).result = result := rfl

@[simp] theorem result_mapError (f : ε → δ) (t : Traced ε α) :
    (t.mapError f).result = t.result.mapError f := rfl

theorem result_map (f : α → β) (t : Traced ε α) : (f <$> t).result = t.result.map f := by
  change (t >>= fun a => pure (f a)).result = _
  rw [result_bind]
  cases t.result with
  | error e => rfl
  | ok a => rfl

end Log.Traced

namespace Source

open Log (Traced)

namespace Statement

theorem value_repr (name : String) (width : Nat) (v : Operand) :
    value name width v.toNat.repr = .ok v := by
  have hvalue : Decimal.value v.toNat.repr.toList = v.toNat := by
    rw [Decimal.toList_repr, Decimal.value_digits]
  rw [value, hvalue, if_pos v.toNat_lt, UInt64.ofNat_toNat]

theorem mapM_value_repr (name : String) {operands : List Operand} {widths : List Nat}
    (h : operands.length = widths.length) :
    ((operands.map fun v => v.toNat.repr).zip widths).mapM
      (fun (digits, width) => value name width digits) = .ok operands := by
  induction operands generalizing widths with
  | nil => rfl
  | cons v operands ih =>
      cases widths with
      | nil => cases h
      | cons width widths =>
          rw [List.map_cons, List.zip_cons_cons, List.mapM_cons, ih (Nat.succ.inj h)]
          dsimp only
          rw [value_repr]
          rfl

theorem instruction_statement {i : Instruction} (h : i.operands.length = i.opcode.arity) :
    i.statement.instruction = .ok i := by
  have hvalues : i.statement.values i.opcode = .ok i.operands := mapM_value_repr i.opcode.name h
  have hlen : ¬ i.statement.operands.length ≠ i.opcode.arity := by
    rw [Instruction.statement, List.length_map]
    exact not_not_intro h
  have hname : Opcode.ofName? i.statement.name = some i.opcode := Opcode.ofName?_name i.opcode
  rw [instruction, hname]
  dsimp only
  rw [if_neg hlen, hvalues]
  rfl

theorem result_check_eq (s : Statement) : s.check.result = (do
    let i ← s.instruction
    (i.encode.mapError (s.refusal i)).map fun _ => i) := by
  rw [check, Traced.result_bind, Traced.result_ofExcept]
  congr 1
  funext i
  rw [Traced.result_bind, Traced.result_mapError, Instruction.result_encodeReported]
  cases i.encode <;> rfl

theorem result_check {i : Instruction} {code : List UInt8} (h : i.encode = .ok code) :
    i.statement.check.result = .ok i := by
  rw [result_check_eq, instruction_statement (length_operands_of_encode h), Results.ok_bind, h]
  rfl

end Statement

theorem result_readLine {line : List Char} {i : Instruction} {code : List UInt8}
    (hline : Statement.ofLine? line = some (some i.statement)) (h : i.encode = .ok code) :
    (readLine line).result = .ok (some i) := by
  rw [readLine, hline]
  dsimp only
  rw [Traced.result_map, Statement.result_check h]
  rfl

theorem result_readLine_of_none {line : List Char} (h : Statement.ofLine? line = none) :
    (readLine line).result = .error (.unreadable (String.ofList (Text.trim line))) := by
  rw [readLine, h]
  rfl

theorem result_readLines_cons (number : Nat) (line : List Char) (lines : List (List Char)) :
    (readLines number (line :: lines)).result = (do
      let found ← (readLine line).result.mapError (⟨number, ·⟩)
      let more ← (readLines (number + 1) lines).result
      pure (match found with
        | none => more
        | some i => (number, i) :: more)) := by
  rw [readLines, Traced.result_bind, Traced.result_mapError]
  congr 1
  funext found
  rw [Traced.result_bind]
  rfl

theorem result_readLines_of_ok {lines : List (List Char)} {is : List Instruction}
    (h : List.Forall₂ (fun line i => (readLine line).result = .ok (some i)) lines is)
    (number : Nat) : ∃ program, (readLines number lines).result = .ok program ∧
      program.map Prod.snd = is := by
  induction h generalizing number with
  | nil => exact ⟨[], rfl, rfl⟩
  | @cons line i lines is hline _ ih =>
      obtain ⟨program, hprogram, his⟩ := ih (number + 1)
      refine ⟨(number, i) :: program, ?_, ?_⟩
      · rw [result_readLines_cons, hline, hprogram]
        rfl
      · rw [List.map_cons, his]

/-- The first line that cannot be read decides, whatever stands behind it. -/
theorem result_readLines_of_error {good rest : List (List Char)} {bad : List Char} {cause : Cause}
    (hgood : ∀ line ∈ good, ∃ found, (readLine line).result = .ok found)
    (hbad : (readLine bad).result = .error cause) (number : Nat) :
    (readLines number (good ++ bad :: rest)).result = .error ⟨number + good.length, cause⟩ := by
  induction good generalizing number with
  | nil =>
      rw [List.nil_append, result_readLines_cons, hbad]
      rfl
  | cons line good ih =>
      obtain ⟨found, hfound⟩ := hgood line List.mem_cons_self
      have hrest := ih (fun l hl => hgood l (List.mem_cons_of_mem line hl)) (number + 1)
      rw [List.cons_append, result_readLines_cons, hfound, hrest, List.length_cons,
        Nat.add_assoc, Nat.add_comm 1]
      rfl

theorem result_appendAll {program : List (Nat × Instruction)} {codes : List (List UInt8)}
    (h : Encodings (program.map Prod.snd) codes) (b : Buffer) :
    (appendAll b program).result = .ok ⟨b.bytes ++ codes.flatten⟩ := by
  induction program generalizing codes b with
  | nil =>
      cases h
      rw [List.flatten_nil, List.append_nil]
      rfl
  | cons part program ih =>
      cases h with
      | @cons _ code _ codes hcode hcodes =>
          have hpush : b.push part.2 = .ok (b.size, ⟨b.bytes ++ code⟩) := by
            rw [Buffer.push, hcode]
            rfl
          rw [appendAll, Traced.result_bind, Traced.result_mapError, Buffer.result_pushReported,
            hpush]
          change (appendAll ⟨b.bytes ++ code⟩ program).result = _
          rw [ih hcodes, List.flatten_cons, ← List.append_assoc]

theorem assemble_of_lines {text : String} {is : List Instruction} {codes : List (List UInt8)}
    (hlines : List.Forall₂ (fun line i => (readLine line).result = .ok (some i))
      (Text.lines text.toList) is) (hcodes : Encodings is codes) :
    assemble text = .ok (Buffer.ofBytes codes.flatten) := by
  obtain ⟨program, hprogram, rfl⟩ := result_readLines_of_ok hlines 1
  rw [assemble, assembleReported, Traced.result_bind, parseReported, hprogram, Results.ok_bind,
    result_appendAll hcodes]
  rfl

theorem assemble_of_bad_line {text : String} {good rest : List (List Char)} {bad : List Char}
    {cause : Cause} (hlines : Text.lines text.toList = good ++ bad :: rest)
    (hgood : ∀ line ∈ good, ∃ found, (readLine line).result = .ok found)
    (hbad : (readLine bad).result = .error cause) :
    assemble text = .error ⟨good.length + 1, cause⟩ := by
  rw [assemble, assembleReported, Traced.result_bind, parseReported, hlines,
    result_readLines_of_error hgood hbad, Nat.add_comm]
  rfl

end Source

end Opstream
