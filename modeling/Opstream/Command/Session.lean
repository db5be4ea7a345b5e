import Opstream.Source.Program
import Opstream.Text.Utf8

namespace Opstream.Command

open Log (Event Traced)

inductive Failure
  | input (path : Option String) (reason : String)
  | notText (fault : Text.Utf8.Fault)
  | source (error : Source.Error)
  | output (reason : String)

def Failure.report : Failure → String
  | input path reason =>
      let subject := path.getD "standard input"
      s!"Error: reading {subject}\n\nCaused by:\n    {reason}\n"
  | notText fault =>
      s!"Error: assembly input is not UTF-8\n\nCaused by:\n    {fault.message}\n"
  | source error => s!"Error: {error.message}\n"
  | output reason => s!"Error: {reason}\n"

/-- What stands behind a run: how it takes a text that is written after others. It takes all of it,
or some characters up to a failure. -/
abbrev Device := (written text : String) → Option (Nat × String)

namespace Device

def steady : Device := fun _ _ => none

def taken (device : Device) (written text : String) : String :=
  match device written text with
  | none => text
  | some (count, _) => String.ofList (text.toList.take count)

end Device

/-- What a run has reported, and what it has written. Nothing of it is taken back by a failure. -/
structure Journal where
  events : List Event
  written : String

def Journal.empty : Journal := ⟨[], ""⟩

abbrev Session := ExceptT Failure (StateM Journal)

namespace Session

variable {α β : Type}

def run (m : Session α) (journal : Journal) : Except Failure α × Journal :=
  Id.run (StateT.run (ExceptT.run m) journal)

def report (events : List Event) : Session Unit :=
  modify fun journal => { journal with events := journal.events ++ events }

def ofTraced (t : Traced Failure α) : Session α := do
  report t.events
  MonadExcept.ofExcept t.result

def write (device : Device) (text : String) : Session Unit := do
  let journal ← get
  set { journal with written := journal.written ++ device.taken journal.written text }
  match device journal.written text with
  | none => pure ()
  | some (_, reason) => throw (.output reason)

theorem run_bind (m : Session α) (f : α → Session β) (journal : Journal) :
    (m >>= f).run journal = match m.run journal with
      | (.ok a, after) => (f a).run after
      | (.error failure, after) => (.error failure, after) := by
  change (match m.run journal with | (result, after) => ExceptT.bindCont f result after) = _
  cases m.run journal with
  | mk result after => cases result <;> rfl

@[simp] theorem run_report (events : List Event) (journal : Journal) :
    (report events).run journal =
      (.ok (), { journal with events := journal.events ++ events }) := rfl

@[simp] theorem run_ofTraced (t : Traced Failure α) (journal : Journal) :
    (ofTraced t).run journal =
      (t.result, { journal with events := journal.events ++ t.events }) := by
  rw [ofTraced, run_bind, run_report]
  cases t.result <;> rfl

theorem run_write (device : Device) (text : String) (journal : Journal) :
    (write device text).run journal =
      ((match device journal.written text with
        | none => .ok ()
        | some (_, reason) => .error (.output reason)),
        { journal with
          written := journal.written ++ device.taken journal.written text }) := by
  change run (match device journal.written text with
    | none => pure ()
    | some (_, reason) => throw (.output reason)) _ = _
  cases device journal.written text <;> rfl

@[simp] theorem run_write_steady (text : String) (journal : Journal) :
    (write .steady text).run journal =
      (.ok (), { journal with written := journal.written ++ text }) := rfl

end Session

end Opstream.Command
