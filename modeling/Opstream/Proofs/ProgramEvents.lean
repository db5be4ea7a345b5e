import Opstream.Proofs.ProgramLines

namespace Opstream

namespace Log.Traced

variable {ε δ α β : Type}

theorem map_eq (f : α → β) (t : Traced ε α) : f <$> t = ⟨t.result.map f, t.events⟩ := by
  change (t >>= fun a => pure (f a)) = _
  cases h : t.result with
  | error e => exact bind_of_error h _
  | ok a =>
      rw [bind_of_ok h, events_pure, List.append_nil]
      rfl

end Log.Traced

def Instruction.event (i : Instruction) : Log.Event :=
  .encoded i.opcode.name i.operands i.code

theorem Instruction.encodeReported_of_ok {i : Instruction} {code : List UInt8}
    (h : i.encode = .ok code) : i.encodeReported = ⟨.ok code, [i.event]⟩ := by
  rw [encodeReported, h, event, code_eq h]

theorem Instruction.encodeReported_of_error {i : Instruction} {fault : Fault}
    (h : i.encode = .error fault) : i.encodeReported = ⟨.error fault, []⟩ := by
  rw [encodeReported, h]

namespace Source

open Log (Traced)

theorem Statement.check_cases (s : Statement) :
    (∃ i : Instruction, s.check = ⟨.ok i, [i.event]⟩) ∨ ∃ cause, s.check = ⟨.error cause, []⟩ := by
  cases hs : s.instruction with
  | error cause =>
      refine .inr ⟨cause, ?_⟩
      rw [check, hs]
      rfl
  | ok i =>
      rw [check, hs, Traced.bind_of_ok (a := i) rfl]
      cases hcode : i.encode with
      | error fault =>
          refine .inr ⟨s.refusal i fault, ?_⟩
          rw [i.encodeReported_of_error hcode]
          rfl
      | ok code =>
          refine .inl ⟨i, ?_⟩
          rw [i.encodeReported_of_ok hcode]
          rfl

theorem readLine_cases (line : List Char) :
    (∃ found : Option Instruction,
      readLine line = ⟨.ok found, found.toList.map Instruction.event⟩) ∨
    ∃ cause, readLine line = ⟨.error cause, []⟩ := by
  rw [readLine]
  split
  next => exact .inr ⟨_, rfl⟩
  next => exact .inl ⟨none, rfl⟩
  next s _ =>
      rw [Traced.map_eq]
      rcases s.check_cases with ⟨i, hs⟩ | ⟨cause, hs⟩
      · refine .inl ⟨some i, ?_⟩
        rw [hs]
        rfl
      · refine .inr ⟨cause, ?_⟩
        rw [hs]
        rfl

theorem readLine_of_ok {line : List Char} {found : Option Instruction}
    (h : (readLine line).result = .ok found) :
    readLine line = ⟨.ok found, found.toList.map Instruction.event⟩ := by
  rcases readLine_cases line with ⟨other, hline⟩ | ⟨cause, hline⟩
  · rw [hline] at h ⊢
    cases h
    rfl
  · rw [hline] at h
    cases h

theorem readLine_of_error {line : List Char} {cause : Cause}
    (h : (readLine line).result = .error cause) : readLine line = ⟨.error cause, []⟩ := by
  rcases readLine_cases line with ⟨found, hline⟩ | ⟨other, hline⟩
  · rw [hline] at h
    cases h
  · rw [hline] at h ⊢
    cases h
    rfl

theorem events_readLines_cons {number : Nat} {line : List Char} {found : Option Instruction}
    (h : (readLine line).result = .ok found) (lines : List (List Char)) :
    (readLines number (line :: lines)).events =
      found.toList.map Instruction.event ++ (readLines (number + 1) lines).events := by
  rw [readLines, readLine_of_ok h, Traced.bind_of_ok (a := found) rfl]
  change found.toList.map Instruction.event ++ Traced.events (_ >>= _) = _
  cases hmore : (readLines (number + 1) lines).result with
  | error e => rw [Traced.bind_of_error hmore]
  | ok more => rw [Traced.bind_of_ok hmore, Traced.events_pure, List.append_nil]

theorem events_readLines_append {good : List (List Char)} {parts : List (List Instruction)}
    (hlines : ∀ line ∈ good, '\n' ∉ line)
    (h : List.Forall₂ (fun line part => parse (String.ofList line) = .ok part) good parts)
    (number : Nat) (rest : List (List Char)) :
    (readLines number (good ++ rest)).events = parts.flatten.map Instruction.event ++
      (readLines (number + good.length) rest).events := by
  induction h generalizing number with
  | nil => rfl
  | @cons line part good parts hline _ ih =>
      obtain ⟨hnewline, hlines⟩ := List.forall_mem_cons.1 hlines
      obtain ⟨found, hfound, rfl⟩ := readLine_of_parse_ok hnewline hline
      rw [List.cons_append, events_readLines_cons hfound, ih hlines, List.flatten_cons,
        List.map_append, List.append_assoc, List.length_cons, Nat.add_assoc, Nat.add_comm 1]

theorem events_readLines_of_error {number : Nat} {bad : List Char} {cause : Cause}
    (h : (readLine bad).result = .error cause) (rest : List (List Char)) :
    (readLines number (bad :: rest)).events = [] := by
  rw [readLines, readLine_of_error h]
  rfl

theorem events_appendAll {program : List (Nat × Instruction)}
    (h : ∀ i ∈ program.map Prod.snd, ∃ code, i.encode = .ok code) (b : Buffer) :
    (appendAll b program).events = (program.map Prod.snd).map Instruction.event := by
  induction program generalizing b with
  | nil => rfl
  | cons part program ih =>
      obtain ⟨⟨code, hcode⟩, hmore⟩ := List.forall_mem_cons.1 h
      have hpush : b.pushReported part.2 =
          ⟨.ok (b.size, Buffer.ofBytes (b.bytes ++ code)), [part.2.event]⟩ := by
        rw [Buffer.pushReported, Instruction.encodeReported_of_ok hcode]
        rfl
      rw [appendAll, hpush]
      change part.2.event :: (appendAll _ program).events = _
      rw [ih hmore, List.map_cons, List.map_cons]

/-- A program that can be read reports every instruction twice: when its line is checked and when
it is stored. -/
theorem assembleReported_of_ok {text : String} {is : List Instruction} (h : parse text = .ok is) :
    assembleReported text =
      ⟨.ok (Buffer.ofProgram is), is.map Instruction.event ++ is.map Instruction.event⟩ := by
  obtain ⟨parts, hparts, hlines⟩ := (parse_lineByLine.ok_iff text is).1 h
  have hevents : (parseReported text).events = is.map Instruction.event := by
    have hread := events_readLines_append (fun _ => Text.newline_not_mem_of_mem_lines) hlines 1 []
    rwa [List.append_nil, ← hparts, readLines, Traced.events_pure, List.append_nil] at hread
  obtain ⟨program, hprogram, rfl⟩ := Results.map_eq_ok_iff.1 h
  have hcodes := encode_of_readLines hprogram
  have hstored := result_appendAll (encodings_code hcodes) Buffer.empty
  rw [← List.flatMap_def] at hstored
  rw [assembleReported, Traced.bind_of_ok hprogram, hstored, events_appendAll hcodes, hevents]
  rfl

theorem assembleReported_of_error {text : String} {e : Error} (h : parse text = .error e) :
    ∃ parts, List.Forall₂ (fun line part => parse (String.ofList line) = .ok part)
        ((Text.lines text.toList).take (e.line - 1)) parts ∧
      assembleReported text = ⟨.error e, parts.flatten.map Instruction.event⟩ := by
  obtain ⟨good, bad, rest, hlines, hgood, hbad, hline⟩ := (parse_lineByLine.error_iff text e).1 h
  have hnewline : ∀ line ∈ good ++ bad :: rest, '\n' ∉ line := by
    rw [← hlines]
    exact fun _ => Text.newline_not_mem_of_mem_lines
  obtain ⟨parts, hparts⟩ := Results.exists_forall₂_of_ok hgood
  obtain ⟨cause, hcause, _⟩ := readLine_of_parse_error (hnewline bad (by simp)) hbad
  have hevents := events_readLines_append (fun line hl => hnewline line (by simp [hl])) hparts 1
    (bad :: rest)
  rw [events_readLines_of_error hcause, List.append_nil, ← hlines] at hevents
  refine ⟨parts, ?_, ?_⟩
  · rw [hline, Nat.add_sub_cancel, hlines, List.take_left]
    exact hparts
  · rw [assembleReported, Traced.bind_of_error (Results.map_eq_error_iff.1 h), parseReported,
      hevents]

end Source

end Opstream
