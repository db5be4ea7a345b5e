import Opstream.Instruction

namespace Opstream.Log

inductive Level
  | error | warn | info | debug | trace
  deriving DecidableEq

namespace Level

def rank : Level → Nat
  | error => 1
  | warn => 2
  | info => 3
  | debug => 4
  | trace => 5

def name : Level → String
  | error => "ERROR"
  | warn => "WARN"
  | info => "INFO"
  | debug => "DEBUG"
  | trace => "TRACE"

def label (level : Level) : String := String.ofList (level.name.toList.rightpad 5 ' ')

end Level

inductive Event
  | encoded (name : String) (operands : List Operand) (bytes : List UInt8)
  | operandsCut (name : String) (needed available : Nat)
  | malformed (fault : Fault)
  | loaded (size : Nat)
  deriving DecidableEq

namespace Event

def level : Event → Level
  | encoded .. => .trace
  | operandsCut .. => .debug
  | malformed .. => .warn
  | loaded .. => .debug

def target : Event → String
  | encoded .. => "opcodec::bytecode::binary"
  | operandsCut .. => "opcodec::bytecode::binary"
  | malformed .. => "opcodec::bytecode::disassembly"
  | loaded .. => "opcodec"

def message : Event → String
  | encoded name operands bytes =>
      let values := ", ".intercalate (operands.map fun v => v.toNat.repr)
      let pairs := ", ".intercalate (Hex.pairs bytes)
      s!"encoded {name} [{values}] as [{pairs}]"
  | operandsCut name needed available =>
      s!"{name} needs {needed} operand bytes, found {available}"
  | malformed fault => s!"disassembly: {fault.message}"
  | loaded size => s!"{size} bytes of bytecode"

def line (event : Event) : String := s!"[{event.level.label} {event.target}] {event.message}"

end Event

/-- A computation that may fail, and what it reported up to its end. -/
structure Traced (ε α : Type) where
  result : Except ε α
  events : List Event

namespace Traced

variable {ε δ α β : Type}

def ofExcept (result : Except ε α) : Traced ε α := ⟨result, []⟩

def mapError (f : ε → δ) (t : Traced ε α) : Traced δ α := ⟨t.result.mapError f, t.events⟩

def andThen (t : Traced ε α) (f : α → Traced ε β) : Traced ε β :=
  match t.result with
  | .error e => ⟨.error e, t.events⟩
  | .ok a =>
      let next := f a
      ⟨next.result, t.events ++ next.events⟩

instance : Monad (Traced ε) where
  pure a := ⟨.ok a, []⟩
  bind := andThen

@[simp] theorem result_pure (a : α) : (pure a : Traced ε α).result = .ok a := rfl

@[simp] theorem events_pure (a : α) : (pure a : Traced ε α).events = [] := rfl

theorem result_bind (t : Traced ε α) (f : α → Traced ε β) :
    (t >>= f).result = t.result >>= fun a => (f a).result := by
  change (andThen t f).result = _
  cases h : t.result <;> simp [andThen, h] <;> rfl

theorem bind_of_ok {t : Traced ε α} {a : α} (h : t.result = .ok a) (f : α → Traced ε β) :
    (t >>= f) = ⟨(f a).result, t.events ++ (f a).events⟩ := by
  change andThen t f = _
  simp [andThen, h]

theorem bind_of_error {t : Traced ε α} {e : ε} (h : t.result = .error e) (f : α → Traced ε β) :
    (t >>= f) = ⟨.error e, t.events⟩ := by
  change andThen t f = _
  simp [andThen, h]

end Traced

end Opstream.Log

namespace Opstream

/-- Encodes and reports the bytes; an instruction without bytes is not reported. -/
def Instruction.encodeReported (i : Instruction) : Log.Traced Fault (List UInt8) :=
  match i.encode with
  | .ok bytes => ⟨.ok bytes, [.encoded i.opcode.name i.operands bytes]⟩
  | .error fault => ⟨.error fault, []⟩

@[simp] theorem Instruction.result_encodeReported (i : Instruction) :
    i.encodeReported.result = i.encode := by
  cases h : i.encode <;> simp [encodeReported, h]

end Opstream
