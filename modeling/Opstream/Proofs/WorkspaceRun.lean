import Opstream.Workspace

namespace Opstream

namespace Edit

def instruction? : Edit → Option Instruction
  | emit opcode operands => some ⟨opcode, operands⟩
  | push i => some i
  | _ => none

def grows : Edit → Bool
  | emit .. | push _ | extend _ => true
  | _ => false

/-- Whether the bytes that a step brings in went through a check. -/
def isChecked : Edit → Bool
  | load _ => false
  | _ => true

end Edit

namespace Reply

def isFailure : Reply → Bool
  | fault _ | sourceError _ => true
  | _ => false

def offset? : Reply → Option Nat
  | offset n => some n
  | _ => none

end Reply

namespace Workspace

def after (w : Workspace) (steps : List (String × Edit)) : Workspace :=
  steps.foldl (fun w step => (w.apply step.1 step.2).2) w

theorem after_cons (w : Workspace) (step : String × Edit) (steps : List (String × Edit)) :
    w.after (step :: steps) = (w.apply step.1 step.2).2.after steps := rfl

variable {w : Workspace} {name other : String} {e : Edit} {i : Instruction} {code : List UInt8}

theorem add_of_ok (h : i.encode = .ok code) (w : Workspace) (name : String) :
    w.add name i = (.offset (w name).size, w.set name ⟨(w name).bytes ++ code⟩) := by
  have hpush : (w name).push i = .ok ((w name).size, ⟨(w name).bytes ++ code⟩) := by
    rw [Buffer.push, h]
    rfl
  rw [add, hpush]

theorem add_of_error {fault : Fault} (h : i.encode = .error fault) (w : Workspace)
    (name : String) : w.add name i = (.fault fault, w) := by
  have hpush : (w name).push i = .error fault := by
    rw [Buffer.push, h]
    rfl
  rw [add, hpush]

theorem bytes_add (h : i.encode = .ok code) (w : Workspace) (name : String) :
    ((w.add name i).2 name).bytes = (w name).bytes ++ code := by
  rw [add_of_ok h]
  exact congrArg Buffer.bytes (set_self ..)

theorem apply_eq_add (h : e.instruction? = some i) (w : Workspace) (name : String) :
    w.apply name e = w.add name i := by
  cases e with
  | emit opcode operands =>
      cases h
      rfl
  | push j =>
      cases h
      rfl
  | clear | load | assemble | extend | take => cases h

/-- All that a step can do: append an instruction and say where it starts, replace its buffer in
another way, or fail and change nothing. -/
theorem apply_cases (w : Workspace) (name : String) (e : Edit) :
    (∃ i code, e.instruction? = some i ∧ i.encode = .ok code ∧
      w.apply name e = (.offset (w name).size, w.set name ⟨(w name).bytes ++ code⟩)) ∨
    (∃ r b, w.apply name e = (r, w.set name b) ∧ r.isFailure = false ∧ r.offset? = none ∧
      (e.grows = true → ∃ more, b.bytes = (w name).bytes ++ more)) ∨
    ∃ r, w.apply name e = (r, w) ∧ r.isFailure = true ∧ r.offset? = none := by
  cases hi : e.instruction? with
  | some i =>
      rw [apply_eq_add hi]
      cases hcode : i.encode with
      | ok code => exact .inl ⟨i, code, rfl, hcode, add_of_ok hcode w name⟩
      | error fault => exact .inr (.inr ⟨_, add_of_error hcode w name, rfl, rfl⟩)
  | none =>
      cases e with
      | emit | push => cases hi
      | clear | load | take => exact .inr (.inl ⟨_, _, rfl, rfl, rfl, nofun⟩)
      | extend source => exact .inr (.inl ⟨_, _, rfl, rfl, rfl, fun _ => ⟨_, rfl⟩⟩)
      | assemble text =>
          rw [apply]
          cases Source.assemble text with
          | error e => exact .inr (.inr ⟨_, rfl, rfl, rfl⟩)
          | ok b => exact .inr (.inl ⟨_, b, rfl, rfl, rfl, nofun⟩)

theorem apply_of_ne (h : other ≠ name) (w : Workspace) (e : Edit) :
    (w.apply name e).2 other = w other := by
  rcases apply_cases w name e with ⟨_, _, _, _, happly⟩ | ⟨_, _, happly, _⟩ | ⟨_, happly, _⟩
  · rw [happly]
    exact set_of_ne w h _
  · rw [happly]
    exact set_of_ne w h _
  · rw [happly]

theorem apply_of_failure (h : (w.apply name e).1.isFailure = true) : (w.apply name e).2 = w := by
  rcases apply_cases w name e with ⟨_, _, _, _, happly⟩ | ⟨_, _, happly, hdone, _⟩ | ⟨_, happly, _⟩
  · rw [happly] at h
    cases h
  · rw [happly, hdone] at h
    cases h
  · rw [happly]

end Workspace

end Opstream
