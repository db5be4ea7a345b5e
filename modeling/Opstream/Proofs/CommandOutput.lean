import Opstream.Proofs.CommandRun

namespace Opstream.Command

namespace Session

variable {α β : Type}

def Extends (m : Session α) : Prop :=
  ∀ journal, journal.written.toList <+: (m.run journal).2.written.toList

/-- A session that does what another one does, or fails on the way. Then it has written the start
of what the other one writes. -/
def FallsShort (m m' : Session α) : Prop :=
  ∀ journal, m.run journal = m'.run journal ∨ ∃ failure after,
    m.run journal = (.error failure, after) ∧
      after.written.toList <+: (m'.run journal).2.written.toList

theorem extends_report (events : List Log.Event) : Extends (report events) := fun _ =>
  List.prefix_rfl

theorem extends_ofTraced (t : Log.Traced Failure α) : Extends (ofTraced t) := by
  intro journal
  simp only [run_ofTraced, List.prefix_rfl]

theorem extends_write_steady (text : String) : Extends (write .steady text) := by
  intro journal
  rw [run_write_steady, String.toList_append]
  exact List.prefix_append _ _

theorem Extends.bind {m : Session α} {f : α → Session β} (h : Extends m)
    (hf : ∀ a, Extends (f a)) : Extends (m >>= f) := by
  intro journal
  have hm := h journal
  rw [run_bind]
  rcases hrun : m.run journal with ⟨failure | a, after⟩
  · rwa [hrun] at hm
  · rw [hrun] at hm
    exact hm.trans (hf a after)

theorem FallsShort.refl (m : Session α) : FallsShort m m := fun _ => .inl rfl

theorem FallsShort.bind {m m' : Session α} {f f' : α → Session β} (h : FallsShort m m')
    (hf : ∀ a, FallsShort (f a) (f' a)) (hextends : ∀ a, Extends (f' a)) :
    FallsShort (m >>= f) (m' >>= f') := by
  intro journal
  rw [run_bind, run_bind]
  rcases h journal with hsame | ⟨failure, after, hfails, hpart⟩
  · rw [hsame]
    rcases m'.run journal with ⟨failure | a, after⟩
    · exact .inl rfl
    · exact hf a after
  · refine .inr ⟨failure, after, by rw [hfails], ?_⟩
    rcases hrun : m'.run journal with ⟨failure' | a, after'⟩
    · rwa [hrun] at hpart
    · rw [hrun] at hpart
      exact hpart.trans (hextends a after')

theorem fallsShort_write (device : Device) (text : String) :
    FallsShort (write device text) (write .steady text) := by
  intro journal
  rw [run_write, run_write_steady]
  cases hdevice : device journal.written text with
  | none =>
      have htaken : device.taken journal.written text = text := by
        rw [Device.taken, hdevice]
      rw [htaken]
      exact .inl rfl
  | some fault =>
      have htaken : (device.taken journal.written text).toList = text.toList.take fault.1 := by
        rw [Device.taken, hdevice]
        exact String.toList_ofList
      refine .inr ⟨.output fault.2, _, rfl, ?_⟩
      rw [String.toList_append, String.toList_append, htaken]
      exact (List.prefix_append_right_inj _).2 (List.take_prefix _ _)

end Session

open Session

theorem extends_listing (o : Options) (b : Buffer) :
    Extends (ofTraced (listing o b) >>= write .steady) :=
  (extends_ofTraced _).bind extends_write_steady

theorem extends_writePage (o : Options) (b : Buffer) : Extends (writePage .steady o b) := by
  rw [writePage]
  split
  · exact (extends_write_steady _).bind fun _ => extends_listing o b
  · exact extends_listing o b

theorem fallsShort_listing (device : Device) (o : Options) (b : Buffer) :
    FallsShort (ofTraced (listing o b) >>= write device)
      (ofTraced (listing o b) >>= write .steady) :=
  (FallsShort.refl _).bind (fallsShort_write device) extends_write_steady

theorem fallsShort_writePage (device : Device) (o : Options) (b : Buffer) :
    FallsShort (writePage device o b) (writePage .steady o b) := by
  rw [writePage, writePage]
  split
  · exact (fallsShort_write device _).bind (fun _ => fallsShort_listing device o b)
      fun _ => extends_listing o b
  · exact fallsShort_listing device o b

/-- What an output takes of a run is the start of what the run would write, and a run that does not
fail has written all of it. -/
theorem fallsShort_execute (device : Device) (o : Options) (input : List UInt8) :
    FallsShort (execute device o input) (execute .steady o input) := by
  rw [execute, execute]
  refine (FallsShort.refl _).bind (fun b => ?_) fun b => ?_
  · exact (FallsShort.refl _).bind (fun _ => fallsShort_writePage device o b)
      fun _ => extends_writePage o b
  · exact (extends_report _).bind fun _ => extends_writePage o b

end Opstream.Command
