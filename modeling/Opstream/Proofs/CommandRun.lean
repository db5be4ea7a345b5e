import Opstream.Command.Run
import Opstream.Proofs.Assembly
import Opstream.Proofs.CommandOptions
import Opstream.Proofs.Utf8Encoding

namespace Opstream.Command

open Log (Event Filter Traced)

/-- The stream that an input stands for: its bytes as they are, or what its text assembles to. -/
inductive StreamOf (input : List UInt8) : Bool → List UInt8 → Prop
  | raw : StreamOf input true input
  | assembled {text : String} {b : Buffer} (htext : input = Text.Utf8.encode text.toList)
      (hread : Source.assemble text = .ok b) : StreamOf input false b.bytes

/-- A run whose arguments ask for these options and whose input can be read. -/
def Yields (logSpec : Option String) (o : Options) (input : List UInt8) (r : Outcome) : Prop :=
  ∃ arguments read, Options.ofArguments arguments = .ok o ∧ read o.input = .ok input ∧
    run logSpec read arguments = r

def page (o : Options) (b : Buffer) : String :=
  (if o.hex then b.hex ++ "\n" else "") ++
    if o.table then (Listing.table b.bytes).render else b.listing

/-- Errors and warnings are always shown, and for each verbose flag one level more. -/
def isShown (verbosity : Nat) (event : Event) : Bool := event.level.rank ≤ verbosity + 2

def logOf (verbosity : Nat) (events : List Event) : String :=
  String.join ((events.filter (isShown verbosity)).map (·.line ++ "\n"))

def exitOf : Except Failure Unit → Nat
  | .ok _ => 0
  | .error _ => 1

def reportOf : Except Failure Unit → String
  | .ok _ => ""
  | .error failure => failure.report

theorem admits_defaultLimit (verbosity : Nat) (event : Event) :
    (defaultLimit verbosity).admits event.level = isShown verbosity event := by
  match verbosity with
  | 0 | 1 | 2 => cases event <;> rfl
  | n + 3 =>
      have hlevel : event.level.rank ≤ 5 := by
        cases event.level <;> decide
      have hshown : isShown (n + 3) event = true := decide_eq_true (by omega)
      rw [hshown]
      exact decide_eq_true hlevel

theorem logLines_defaultLimit (verbosity : Nat) (events : List Event) :
    logLines (Filter.ofLimit (defaultLimit verbosity)) events = logOf verbosity events := by
  rw [logLines, logOf]
  congr 3
  funext event
  rw [← admits_defaultLimit]
  exact Bool.and_true _

variable {o : Options} {input : List UInt8}

theorem load_of_binary (h : o.binary = true) (input : List UInt8) :
    load o input = pure (Buffer.ofBytes input) := by
  rw [load, if_pos h]

theorem load_of_text (h : o.binary = false) (text : String) :
    load o (Text.Utf8.encode text.toList) =
      (Source.assembleReported text).mapError Failure.source := by
  have hdecode := Text.Utf8.decode_eq_ok_iff.2 (Eq.refl (Text.Utf8.encode text.toList))
  rw [load, h, if_neg Bool.false_ne_true, hdecode, Traced.bind_of_ok (a := text.toList) rfl,
    String.ofList_toList]
  rfl

theorem load_of_not_text (h : o.binary = false) {fault : Text.Utf8.Fault}
    (hfault : Text.Utf8.decode input = .error fault) :
    load o input = ⟨.error (.notText fault), []⟩ := by
  rw [load, h, if_neg Bool.false_ne_true, hfault]
  rfl

theorem text_or_fault (input : List UInt8) :
    (∃ text : String, input = Text.Utf8.encode text.toList) ∨
      ∃ fault, Text.Utf8.decode input = .error fault := by
  cases h : Text.Utf8.decode input with
  | error fault => exact .inr ⟨fault, rfl⟩
  | ok cs =>
      refine .inl ⟨String.ofList cs, ?_⟩
      rw [String.toList_ofList]
      exact Text.Utf8.decode_eq_ok_iff.1 h

theorem result_load_eq_ok_iff {b : Buffer} :
    (load o input).result = .ok b ↔ StreamOf input o.binary b.bytes := by
  obtain ⟨bytes⟩ := b
  constructor
  · intro h
    cases hbinary : o.binary with
    | true =>
        rw [load_of_binary hbinary] at h
        cases h
        exact .raw
    | false =>
        rcases text_or_fault input with ⟨text, rfl⟩ | ⟨fault, hfault⟩
        · rw [load_of_text hbinary, Traced.result_mapError] at h
          exact .assembled rfl (Results.mapError_eq_ok_iff.1 h)
        · rw [load_of_not_text hbinary hfault] at h
          cases h
  · intro h
    generalize hbinary : o.binary = binary at h
    cases h with
    | raw =>
        rw [load_of_binary hbinary]
        rfl
    | assembled htext hread =>
        rw [htext, load_of_text hbinary, Traced.result_mapError]
        exact Results.mapError_eq_ok_iff.2 hread

theorem result_listing (o : Options) (b : Buffer) : (listing o b).result =
    .ok (if o.table then (Listing.table b.bytes).render else b.listing) := by
  rw [listing]
  split <;> rfl

theorem events_listing_of_table (h : o.table = true) (b : Buffer) :
    (listing o b).events = Listing.tableEvents b.bytes := by
  rw [listing, if_pos h]

theorem events_listing_of_plain (h : o.table = false) (b : Buffer) :
    (listing o b).events = Listing.events b.bytes := by
  rw [listing, h, if_neg Bool.false_ne_true]

theorem run_writePage_steady (o : Options) (b : Buffer) (journal : Journal) :
    (writePage .steady o b).run journal =
      (.ok (), ⟨journal.events ++ (listing o b).events, journal.written ++ page o b⟩) := by
  cases hhex : o.hex with
  | true => simp [writePage, Session.run_bind, result_listing, page, hhex, String.append_assoc]
  | false => simp [writePage, Session.run_bind, result_listing, page, hhex]

theorem run_execute_of_ok {b : Buffer} (h : (load o input).result = .ok b) :
    (execute .steady o input).run Journal.empty =
      (.ok (), ⟨(load o input).events ++ .loaded b.size :: (listing o b).events, page o b⟩) := by
  rw [execute, Session.run_bind, Session.run_ofTraced, h]
  simp [Session.run_bind, run_writePage_steady, Journal.empty]

/-- Without a stream nothing is written, however the output takes what is written to it. -/
theorem run_execute_of_error {failure : Failure} (h : (load o input).result = .error failure)
    (device : Device) : (execute device o input).run Journal.empty =
      (.error failure, ⟨(load o input).events, ""⟩) := by
  rw [execute, Session.run_bind, Session.run_ofTraced, h]
  rfl

section Congr

variable {o' : Options}

theorem load_congr (h : o'.binary = o.binary) (input : List UInt8) :
    load o' input = load o input := by
  rw [load, load, h]

theorem listing_congr (h : o'.table = o.table) (b : Buffer) : listing o' b = listing o b := by
  rw [listing, listing, h]

theorem writePage_congr (hhex : o'.hex = o.hex) (htable : o'.table = o.table) (device : Device)
    (b : Buffer) : writePage device o' b = writePage device o b := by
  rw [writePage, writePage, hhex, listing_congr htable]

theorem execute_congr (hbinary : o'.binary = o.binary) (hhex : o'.hex = o.hex)
    (htable : o'.table = o.table) (device : Device) (input : List UInt8) :
    execute device o' input = execute device o input := by
  rw [execute, execute, load_congr hbinary, funext (writePage_congr hhex htable device)]

theorem page_congr (hhex : o'.hex = o.hex) (htable : o'.table = o.table) (b : Buffer) :
    page o' b = page o b := by
  rw [page, page, hhex, htable]

end Congr

section Finish

variable (logSpec : Option String) (o : Options) (session : Session Unit)

theorem exit_finish :
    (finish logSpec o session).exit = exitOf (session.run Journal.empty).1 := by
  rw [finish]
  cases session.run Journal.empty with
  | mk result journal => cases result <;> rfl

theorem stdout_finish :
    (finish logSpec o session).stdout = (session.run Journal.empty).2.written := by
  rw [finish]
  cases session.run Journal.empty with
  | mk result journal => cases result <;> rfl

theorem stderr_finish : (finish none o session).stderr =
    logOf o.verbosity (session.run Journal.empty).2.events ++
      reportOf (session.run Journal.empty).1 := by
  rw [finish, ← logLines_defaultLimit]
  cases session.run Journal.empty with
  | mk result journal =>
      change "" ++ (outcome _ result journal).stderr = _
      rw [String.empty_append]
      cases result with
      | ok _ => exact String.append_empty.symm
      | error failure => rfl

end Finish

section Run

variable {logSpec : Option String} {r : Outcome}

theorem runOn_eq (device : Device) (logSpec : Option String) {arguments : List String}
    {read : Option String → Except String (List UInt8)}
    (harguments : Options.ofArguments arguments = .ok o) (hread : read o.input = .ok input) :
    runOn device logSpec read arguments = finish logSpec o (execute device o input) := by
  rw [runOn, harguments]
  dsimp only
  rw [hread]
  rfl

theorem Yields.eq (h : Yields logSpec o input r) :
    r = finish logSpec o (execute .steady o input) := by
  obtain ⟨arguments, read, harguments, hread, rfl⟩ := h
  exact runOn_eq .steady logSpec harguments hread

/-- Every combination of options has one run on every input, in whatever way it is asked for. -/
theorem exists_run (logSpec : Option String) (h : o.input ≠ some "") (input : List UInt8) :
    ∃ r, ∀ r', Yields logSpec o input r' ↔ r' = r := by
  have hrun : Yields logSpec o input (finish logSpec o (execute .steady o input)) := by
    have harguments := Options.ofArguments_arguments h
    exact ⟨o.arguments, fun _ => .ok input, harguments, rfl,
      runOn_eq .steady logSpec harguments rfl⟩
  refine ⟨_, fun r' => ⟨Yields.eq, ?_⟩⟩
  rintro rfl
  exact hrun

theorem Yields.of_ok {b : Buffer} (h : Yields logSpec o input r)
    (hload : (load o input).result = .ok b) : r.exit = 0 ∧ r.stdout = page o b := by
  rw [h.eq, exit_finish, stdout_finish, run_execute_of_ok hload]
  exact ⟨rfl, rfl⟩

theorem Yields.of_error {failure : Failure} (h : Yields logSpec o input r)
    (hload : (load o input).result = .error failure) : r.exit = 1 ∧ r.stdout = "" := by
  rw [h.eq, exit_finish, stdout_finish, run_execute_of_error hload]
  exact ⟨rfl, rfl⟩

theorem Yields.stderr_eq (h : Yields none o input r) : r.stderr =
    logOf o.verbosity ((execute .steady o input).run Journal.empty).2.events ++
      reportOf ((execute .steady o input).run Journal.empty).1 := by
  rw [h.eq]
  exact stderr_finish o _

end Run

end Opstream.Command
