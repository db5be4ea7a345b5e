import Opstream.Proofs.Assembly

namespace Opstream

/-- The bytes of an instruction, none if it has no encoding. -/
def Instruction.code (i : Instruction) : List UInt8 :=
  match i.encode with
  | .ok code => code
  | .error _ => []

theorem Instruction.code_eq {i : Instruction} {code : List UInt8} (h : i.encode = .ok code) :
    i.code = code := by
  rw [Instruction.code, h]

def Buffer.ofProgram (is : List Instruction) : Buffer := ofBytes (is.flatMap Instruction.code)

theorem encodings_code {is : List Instruction} (h : ∀ i ∈ is, ∃ code, i.encode = .ok code) :
    Encodings is (is.map Instruction.code) := by
  rw [Encodings, List.forall₂_map_right_iff, List.forall₂_same]
  intro i hi
  obtain ⟨code, hcode⟩ := h i hi
  rw [hcode, Instruction.code_eq hcode]

namespace Source

open Log (Traced)

theorem Statement.encode_of_check {s : Statement} {i : Instruction}
    (h : s.check.result = .ok i) : ∃ code, i.encode = .ok code := by
  rw [result_check_eq] at h
  obtain ⟨j, _, h⟩ := Results.bind_eq_ok_iff.1 h
  obtain ⟨code, hcode, rfl⟩ := Results.map_eq_ok_iff.1 h
  exact ⟨code, Results.mapError_eq_ok_iff.1 hcode⟩

theorem encode_of_readLine {line : List Char} {i : Instruction}
    (h : (readLine line).result = .ok (some i)) : ∃ code, i.encode = .ok code := by
  rw [readLine] at h
  split at h
  next => cases h
  next => cases h
  next s _ =>
      rw [Traced.result_map] at h
      obtain ⟨j, hj, h⟩ := Results.map_eq_ok_iff.1 h
      cases h
      exact Statement.encode_of_check hj

theorem encode_of_readLines {number : Nat} {lines : List (List Char)}
    {program : List (Nat × Instruction)} (h : (readLines number lines).result = .ok program) :
    ∀ i ∈ program.map Prod.snd, ∃ code, i.encode = .ok code := by
  induction lines generalizing number program with
  | nil =>
      cases h
      exact fun i hi => absurd hi List.not_mem_nil
  | cons line lines ih =>
      rw [result_readLines_cons] at h
      obtain ⟨found, hline, h⟩ := Results.bind_eq_ok_iff.1 h
      obtain ⟨more, hmore, h⟩ := Results.bind_eq_ok_iff.1 h
      cases h
      cases found with
      | none => exact ih hmore
      | some i =>
          have hi := encode_of_readLine (Results.mapError_eq_ok_iff.1 hline)
          exact List.forall_mem_cons.2 ⟨hi, ih hmore⟩

theorem encode_of_parse {text : String} {is : List Instruction} (h : parse text = .ok is) :
    ∀ i ∈ is, ∃ code, i.encode = .ok code := by
  obtain ⟨program, hprogram, rfl⟩ := Results.map_eq_ok_iff.1 h
  exact encode_of_readLines hprogram

theorem encodings_of_parse {text : String} {is : List Instruction} (h : parse text = .ok is) :
    Encodings is (is.map Instruction.code) := encodings_code (encode_of_parse h)

/-- Storing the instructions of a program adds no failure to those of reading it. -/
theorem assemble_eq (text : String) : assemble text = (parse text).map Buffer.ofProgram := by
  rw [assemble, assembleReported, Traced.result_bind]
  cases hprogram : (parseReported text).result with
  | error e =>
      rw [parse, hprogram]
      rfl
  | ok program =>
      have hparse : parse text = .ok (program.map Prod.snd) := by
        rw [parse, hprogram]
        rfl
      rw [hparse, Results.ok_bind, result_appendAll (encodings_of_parse hparse),
        ← List.flatMap_def]
      rfl

end Source

end Opstream
