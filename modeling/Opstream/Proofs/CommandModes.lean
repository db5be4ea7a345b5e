import Opstream.Proofs.CommandOutput

namespace Opstream.Command

variable {logSpec : Option String} {o o' : Options} {input bytes : List UInt8} {r : Outcome}

theorem streamOf_text_iff : StreamOf input false bytes ↔ ∃ (text : String) (b : Buffer),
    input = Text.Utf8.encode text.toList ∧ Source.assemble text = .ok b ∧ b.bytes = bytes := by
  constructor
  · intro h
    cases h with
    | assembled htext hread => exact ⟨_, _, htext, hread, rfl⟩
  · rintro ⟨text, b, htext, hread, rfl⟩
    exact .assembled htext hread

theorem Yields.exit_cases (h : Yields logSpec o input r) :
    (r.exit = 0 ∧ ∃ bytes, StreamOf input o.binary bytes) ∨
      (r.exit = 1 ∧ r.stdout = "" ∧ ∀ bytes, ¬ StreamOf input o.binary bytes) := by
  cases hload : (load o input).result with
  | ok b => exact .inl ⟨(h.of_ok hload).1, b.bytes, result_load_eq_ok_iff.1 hload⟩
  | error failure =>
      obtain ⟨hexit, hstdout⟩ := h.of_error hload
      refine .inr ⟨hexit, hstdout, fun bytes hstream => ?_⟩
      rw [(result_load_eq_ok_iff (b := Buffer.ofBytes bytes)).2 hstream] at hload
      cases hload

theorem Yields.exit_eq_zero_iff (h : Yields logSpec o input r) :
    r.exit = 0 ↔ ∃ bytes, StreamOf input o.binary bytes := by
  rcases h.exit_cases with ⟨hexit, hstream⟩ | ⟨hexit, _, hnone⟩
  · exact ⟨fun _ => hstream, fun _ => hexit⟩
  · constructor
    · intro hzero
      rw [hexit] at hzero
      cases hzero
    · rintro ⟨bytes, hstream⟩
      exact absurd hstream (hnone bytes)

theorem Yields.stdout_of_streamOf (h : Yields logSpec o input r)
    (hstream : StreamOf input o.binary bytes) : r.stdout = page o (Buffer.ofBytes bytes) :=
  (h.of_ok (result_load_eq_ok_iff.2 hstream)).2

theorem page_of_hex (hhex : o.hex = true) (hplain : o'.hex = false) (htable : o'.table = o.table)
    (b : Buffer) : page o b = Hex.text b.bytes ++ "\n" ++ page o' b := by
  rw [page, page, hhex, hplain, htable, if_pos rfl, if_neg Bool.false_ne_true, String.empty_append,
    Buffer.hex]

/-- No stream, no output: not even where the output would fail to take it. -/
theorem runOn_of_no_stream (h : ∀ bytes, ¬ StreamOf input o.binary bytes) (device : Device)
    (logSpec : Option String) {arguments : List String}
    {read : Option String → Except String (List UInt8)}
    (harguments : Options.ofArguments arguments = .ok o) (hread : read o.input = .ok input) :
    (runOn device logSpec read arguments).exit = 1 ∧
      (runOn device logSpec read arguments).stdout = "" := by
  rw [runOn_eq device logSpec harguments hread]
  cases hload : (load o input).result with
  | ok b => exact absurd (result_load_eq_ok_iff.1 hload) (h b.bytes)
  | error failure =>
      rw [exit_finish, stdout_finish, run_execute_of_error hload]
      exact ⟨rfl, rfl⟩

theorem runOn_fallsShort (h : Yields logSpec o input r) (device : Device) {arguments : List String}
    {read : Option String → Except String (List UInt8)}
    (harguments : Options.ofArguments arguments = .ok o) (hread : read o.input = .ok input) :
    runOn device logSpec read arguments = r ∨
      ((runOn device logSpec read arguments).exit = 1 ∧
        (runOn device logSpec read arguments).stdout.toList <+: r.stdout.toList) := by
  rw [runOn_eq device logSpec harguments hread, h.eq]
  rcases fallsShort_execute device o input Journal.empty with
    hsame | ⟨failure, after, hfails, hpart⟩
  · left
    rw [finish, finish, hsame]
  · right
    rw [exit_finish, stdout_finish, stdout_finish, hfails]
    exact ⟨rfl, hpart⟩

/-- A text that can be assembled is listed as its bytes are, and a run that fails prints nothing,
but where the output itself fails: there it has taken the start of what the run prints. -/
theorem modes_agree (logSpec : Option String) (hinput : o.input ≠ some "") (input : List UInt8) :
    ∃ r, (∀ r', Yields logSpec o input r' ↔ r' = r) ∧
    (o.binary = true → r.exit = 0) ∧
    (o.binary = false → (r.exit = 0 ↔ ∃ (text : String) (b : Buffer),
      input = Text.Utf8.encode text.toList ∧ Source.assemble text = .ok b)) ∧
    (r.exit ≠ 0 → r.exit = 1 ∧ r.stdout = "") ∧
    (∀ bytes, StreamOf input o.binary bytes →
      (∀ logSpec' o' r', Yields logSpec' o' bytes r' →
        o'.binary = true → o'.hex = o.hex → o'.table = o.table → r'.stdout = r.stdout) ∧
      (∀ logSpec' o' r', Yields logSpec' o' input r' → o'.binary = o.binary →
        o.hex = true → o'.hex = false → o'.table = o.table →
          r.stdout = Hex.text bytes ++ "\n" ++ r'.stdout)) ∧
    ((∀ bytes, ¬ StreamOf input o.binary bytes) → ∀ device arguments read,
      Options.ofArguments arguments = .ok o → read o.input = .ok input →
        (runOn device logSpec read arguments).exit = 1 ∧
          (runOn device logSpec read arguments).stdout = "") ∧
    ∀ device arguments read, Options.ofArguments arguments = .ok o → read o.input = .ok input →
      runOn device logSpec read arguments = r ∨
        ((runOn device logSpec read arguments).exit = 1 ∧
          (runOn device logSpec read arguments).stdout.toList <+: r.stdout.toList) := by
  obtain ⟨r, hr⟩ := exists_run logSpec hinput input
  have h : Yields logSpec o input r := (hr r).2 rfl
  refine ⟨r, hr, fun hbinary => ?_, fun hbinary => ?_, fun hne => ?_, fun bytes hstream => ⟨?_, ?_⟩,
    fun hnone device _ _ => runOn_of_no_stream hnone device logSpec,
    fun device _ _ => runOn_fallsShort h device⟩
  · rw [h.exit_eq_zero_iff, hbinary]
    exact ⟨input, .raw⟩
  · rw [h.exit_eq_zero_iff, hbinary]
    simp only [streamOf_text_iff]
    constructor
    · rintro ⟨_, text, b, htext, hread, _⟩
      exact ⟨text, b, htext, hread⟩
    · rintro ⟨text, b, htext, hread⟩
      exact ⟨b.bytes, text, b, htext, hread, rfl⟩
  · rcases h.exit_cases with ⟨hzero, _⟩ | ⟨hexit, hstdout, _⟩
    · exact absurd hzero hne
    · exact ⟨hexit, hstdout⟩
  · intro logSpec' o' r' h' hbinary hhex htable
    have hraw : StreamOf bytes o'.binary bytes := by
      rw [hbinary]
      exact .raw
    rw [h'.stdout_of_streamOf hraw, h.stdout_of_streamOf hstream, page_congr hhex htable]
  · intro logSpec' o' r' h' hbinary hhex hplain htable
    have hstream' : StreamOf input o'.binary bytes := by rwa [hbinary]
    rw [h'.stdout_of_streamOf hstream', h.stdout_of_streamOf hstream,
      page_of_hex hhex hplain htable]
    rfl

/-- A listing of a text and of its bytes, with the bytes ahead; a text that stops to be assembled
after its first line; an octet of no text; an output that is full within the listing. -/
theorem modes_agree_hex :
    (run none (fun _ => .ok (Text.Utf8.encode "OpConstant 1".toList)) ["--hex"]).stdout =
      "00 00 01\n0000 OpConstant 1\n" ∧
    (run none (fun _ => .ok [0, 0, 1]) ["--binary", "--hex"]).stdout =
      (run none (fun _ => .ok (Text.Utf8.encode "OpConstant 1".toList)) ["--hex"]).stdout ∧
    (run none (fun _ => .ok (Text.Utf8.encode "OpConstant 1".toList)) ["--hex"]).stdout =
      Hex.text [0, 0, 1] ++ "\n" ++
        (run none (fun _ => .ok (Text.Utf8.encode "OpConstant 1".toList)) []).stdout ∧
    run none (fun _ => .ok (Text.Utf8.encode "OpConstant 1\nOpBogus 2".toList)) ["--hex"] =
      ⟨1, "", "Error: Error on line 2: OpBogus is not an operation.\n"⟩ ∧
    ((run none (fun _ => .ok [255]) []).exit = 1 ∧ (run none (fun _ => .ok [255]) []).stdout = "") ∧
    (∀ device, (runOn device none (fun _ => .ok [255]) ["--hex"]).stdout = "") ∧
    runOn (fun written _ => if written = "" then none else some (4, "full")) none
      (fun _ => .ok (Text.Utf8.encode "OpConstant 1".toList)) ["--hex"] =
        ⟨1, "00 00 01\n0000", "Error: full\n"⟩ ∧
    ∀ device, (runOn device none (fun _ => .ok (Text.Utf8.encode "OpConstant 1".toList))
      ["--hex"]).stdout.toList <+: "00 00 01\n0000 OpConstant 1\n".toList := by
  have hread : Source.assemble "OpConstant 1" = .ok (Buffer.ofBytes [0, 0, 1]) := by
    decide +kernel
  have hnone : Options.default.input ≠ some "" := by decide
  have hhex : { Options.default with hex := true }.input ≠ some "" := by decide
  have hwhole : (run none (fun _ => .ok (Text.Utf8.encode "OpConstant 1".toList))
      ["--hex"]).stdout = "00 00 01\n0000 OpConstant 1\n" := by decide +kernel
  obtain ⟨r, hr, _, _, _, hstream, _, hpart⟩ :=
    modes_agree none hhex (Text.Utf8.encode "OpConstant 1".toList)
  obtain rfl : run none (fun _ => .ok (Text.Utf8.encode "OpConstant 1".toList)) ["--hex"] = r :=
    (hr _).1 ⟨["--hex"], _, by decide +kernel, rfl, rfl⟩
  obtain ⟨hbinary, hplain⟩ := hstream [0, 0, 1] (.assembled rfl hread)
  have hbytes := hbinary none ⟨none, true, true, false, 0⟩
    (run none (fun _ => .ok [0, 0, 1]) ["--binary", "--hex"])
    ⟨_, _, by decide +kernel, rfl, rfl⟩ rfl rfl rfl
  have hahead := hplain none Options.default
    (run none (fun _ => .ok (Text.Utf8.encode "OpConstant 1".toList)) [])
    ⟨_, _, by decide +kernel, rfl, rfl⟩ rfl rfl rfl rfl
  obtain ⟨s, hs, _, _, hfails, _⟩ := modes_agree none hnone [255]
  obtain rfl : run none (fun _ => .ok [255]) [] = s :=
    (hs _).1 ⟨[], _, by decide +kernel, rfl, rfl⟩
  obtain ⟨_, _, _, _, _, _, hempty, _⟩ := modes_agree none hhex [255]
  refine ⟨hwhole, hbytes, hahead, by decide +kernel, hfails (by decide +kernel),
    fun device => (hempty (fun bytes h => ?_) device ["--hex"] _ (by decide +kernel) rfl).2,
    by decide +kernel, fun device => ?_⟩
  · have hfault : Text.Utf8.decode [255] = .error (.invalid 1 0) := by decide +kernel
    have hload := (result_load_eq_ok_iff (b := Buffer.ofBytes bytes)).2 h
    rw [load_of_not_text rfl hfault] at hload
    cases hload
  · rw [← hwhole]
    rcases hpart device ["--hex"] (fun _ => .ok (Text.Utf8.encode "OpConstant 1".toList))
      (by decide +kernel) rfl with hsame | ⟨_, hstart⟩
    · simp only [hsame, List.prefix_rfl]
    · exact hstart

end Opstream.Command
