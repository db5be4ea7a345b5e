import Mathlib.Logic.Function.Basic
import Opstream.Proofs.ProgramEncoding
import Opstream.Proofs.WorkspaceRun

namespace Opstream

def Decodes (bytes : List UInt8) (is : List Instruction) : Prop :=
  ∃ ds, decodeAll bytes = .ok ds ∧ ds.map Decoded.instruction = is

theorem decodes_iff {bytes : List UInt8} {is : List Instruction} :
    Decodes bytes is ↔ ∃ codes, Encodings is codes ∧ codes.flatten = bytes := by
  constructor
  · rintro ⟨ds, hds, rfl⟩
    exact ⟨_, encodings_of_decodeAll hds, flatten_span_of_decodeAll hds⟩
  · rintro ⟨codes, hcodes, rfl⟩
    obtain ⟨ds, hds, hinstr, _⟩ := decodeAll_of_encodings hcodes
    exact ⟨ds, hds, hinstr⟩

namespace Decodes

theorem nil : Decodes [] [] := decodes_iff.2 ⟨[], .nil, rfl⟩

theorem encode {i : Instruction} {code : List UInt8} (h : i.encode = .ok code) :
    Decodes code [i] := decodes_iff.2 ⟨[code], .cons h .nil, by simp⟩

theorem append {a b : List UInt8} {is js : List Instruction} (ha : Decodes a is)
    (hb : Decodes b js) : Decodes (a ++ b) (is ++ js) := by
  obtain ⟨front, hfront, rfl⟩ := decodes_iff.1 ha
  obtain ⟨back, hback, rfl⟩ := decodes_iff.1 hb
  exact decodes_iff.2 ⟨front ++ back, List.rel_append hfront hback, List.flatten_append⟩

theorem ofProgram {text : String} {is : List Instruction} (h : Source.parse text = .ok is) :
    Decodes (Buffer.ofProgram is).bytes is :=
  decodes_iff.2 ⟨_, Source.encodings_of_parse h, (List.flatMap_def ..).symm⟩

end Decodes

/-- Whether a step goes through, which does not depend on the buffers. -/
def Edit.isAccepted : Edit → Bool
  | emit opcode operands => (Instruction.encode ⟨opcode, operands⟩).isOk
  | push i => i.encode.isOk
  | assemble text => (Source.parse text).isOk
  | _ => true

abbrev Ledger := String → List Instruction

namespace Ledger

def empty : Ledger := fun _ => []

/-- What stands under a name behind a step that goes through. Bytes that went through no check
have no entry. -/
def entry (l : Ledger) (name : String) : Edit → List Instruction
  | .clear | .take => []
  | .load _ => l name
  | .assemble text => match Source.parse text with
    | .ok is => is
    | .error _ => l name
  | .emit opcode operands => l name ++ [⟨opcode, operands⟩]
  | .push i => l name ++ [i]
  | .extend other => l name ++ l other

def apply (l : Ledger) (name : String) (e : Edit) : Ledger :=
  if e.isAccepted then Function.update l name (l.entry name e) else l

def after (l : Ledger) (steps : List (String × Edit)) : Ledger :=
  steps.foldl (fun l step => l.apply step.1 step.2) l

end Ledger

namespace Workspace

variable {w : Workspace} {l : Ledger} {name : String} {e : Edit} {is : List Instruction}

def Records (w : Workspace) (l : Ledger) : Prop := ∀ name, Decodes (w name).bytes (l name)

theorem records_empty : empty.Records Ledger.empty := fun _ => .nil

theorem Records.set (h : w.Records l) (name : String) {b : Buffer} (hb : Decodes b.bytes is) :
    (w.set name b).Records (Function.update l name is) := by
  intro other
  by_cases hother : other = name
  · subst other
    rw [set_self, Function.update_self]
    exact hb
  · rw [set_of_ne w hother, Function.update_of_ne hother]
    exact h other

theorem Records.add (h : w.Records l) (name : String) (i : Instruction) : (w.add name i).2.Records
    (if i.encode.isOk then Function.update l name (l name ++ [i]) else l) := by
  cases hcode : i.encode with
  | ok code =>
      rw [add_of_ok hcode]
      exact h.set name ((h name).append (.encode hcode))
  | error fault =>
      rw [add_of_error hcode]
      exact h

theorem Records.apply (h : w.Records l) (he : e.isChecked = true) (name : String) :
    (w.apply name e).2.Records (l.apply name e) := by
  cases e with
  | clear | take => exact h.set name .nil
  | load => cases he
  | emit opcode operands => exact h.add name ⟨opcode, operands⟩
  | push i => exact h.add name i
  | extend other => exact h.set name ((h name).append (h other))
  | assemble text =>
      rw [Workspace.apply, Source.assemble_eq, Ledger.apply, Edit.isAccepted, Ledger.entry]
      cases hparse : Source.parse text with
      | error e => exact h
      | ok is => exact h.set name (.ofProgram hparse)

theorem Records.after {steps : List (String × Edit)} (h : w.Records l)
    (hsteps : ∀ step ∈ steps, step.2.isChecked = true) :
    (w.after steps).Records (l.after steps) := by
  induction steps generalizing w l with
  | nil => exact h
  | cons step steps ih =>
      obtain ⟨hstep, hrest⟩ := List.forall_mem_cons.1 hsteps
      exact ih (h.apply hstep step.1) hrest

theorem isFailure_add (w : Workspace) (name : String) (i : Instruction) :
    (w.add name i).1.isFailure = !i.encode.isOk := by
  cases hcode : i.encode with
  | ok code => rw [add_of_ok hcode]; rfl
  | error fault => rw [add_of_error hcode]; rfl

theorem isFailure_apply (w : Workspace) (name : String) (e : Edit) :
    (w.apply name e).1.isFailure = !e.isAccepted := by
  cases e with
  | clear | load | extend | take => rfl
  | emit opcode operands => exact isFailure_add w name ⟨opcode, operands⟩
  | push i => exact isFailure_add w name i
  | assemble text =>
      rw [apply, Source.assemble_eq, Edit.isAccepted]
      cases Source.parse text with
      | error e => rfl
      | ok is => rfl

/-- Buffers that start out empty and grow by checked steps decode to what was appended. A step
changes the buffer it names at most, and only if it is accepted. -/
theorem checked_steps_recorded :
    (∀ steps : List (String × Edit), (∀ step ∈ steps, step.2.isChecked = true) →
      ∀ name, ∃ ds, decodeAll (empty.after steps name).bytes = .ok ds ∧
        ds.map Decoded.instruction = Ledger.empty.after steps name) ∧
    ∀ (w : Workspace) (name : String) (e : Edit),
      (w.apply name e).1.isFailure = !e.isAccepted ∧
      ((w.apply name e).1.isFailure = true → (w.apply name e).2 = w) ∧
      ∀ other, other ≠ name → (w.apply name e).2 other = w other := by
  constructor
  · intro steps hsteps
    exact records_empty.after hsteps
  · intro w name e
    refine ⟨isFailure_apply w name e, apply_of_failure, ?_⟩
    intro other hother
    exact apply_of_ne hother w e

theorem checked_steps_recorded_twice_extended :
    (∃ ds, decodeAll (empty.after [("a", .assemble "OpConstant 1"), ("b", .push ⟨.constant, [2]⟩),
        ("a", .emit .constant [70000]), ("a", .extend "b"), ("b", .take), ("a", .extend "a")]
          "a").bytes = .ok ds ∧
      ds.map Decoded.instruction =
        [⟨.constant, [1]⟩, ⟨.constant, [2]⟩, ⟨.constant, [1]⟩, ⟨.constant, [2]⟩]) ∧
    (empty.apply "a" (.emit .constant [70000])).2 = empty := by
  obtain ⟨hrecord, hstep⟩ := checked_steps_recorded
  constructor
  · have hledger : Ledger.empty.after [("a", .assemble "OpConstant 1"),
        ("b", .push ⟨.constant, [2]⟩), ("a", .emit .constant [70000]), ("a", .extend "b"),
        ("b", .take), ("a", .extend "a")] "a" =
          [⟨.constant, [1]⟩, ⟨.constant, [2]⟩, ⟨.constant, [1]⟩, ⟨.constant, [2]⟩] := by
      decide +kernel
    rw [← hledger]
    exact hrecord _ (by decide) "a"
  · exact (hstep empty "a" _).2.1 rfl

end Workspace

end Opstream
