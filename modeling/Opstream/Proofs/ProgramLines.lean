import Opstream.Proofs.ProgramEncoding

namespace Opstream

namespace Text

/-- An empty text, or one whose last line has an end: what follows it begins a new line. -/
def Closed (cs : List Char) : Prop := ∀ c ∈ cs.getLast?, c = '\n'

/-- A text is a line without an end, or a line with its end and a text behind it. -/
@[elab_as_elim]
theorem line_induction {motive : List Char → Prop} (last : ∀ l, '\n' ∉ l → motive l)
    (line : ∀ l rest, '\n' ∉ l → motive rest → motive (l ++ '\n' :: rest)) (cs : List Char) :
    motive cs := by
  induction h : cs.length using Nat.strongRecOn generalizing cs with
  | ind n ih =>
      by_cases hmem : '\n' ∈ cs
      · obtain ⟨l, rest, rfl, hl⟩ := List.eq_append_cons_of_mem hmem
        apply line l rest hl
        apply ih rest.length _ rest rfl
        rw [List.length_append, List.length_cons] at h
        omega
      · exact last cs hmem

theorem lines_line {l : List Char} (h : '\n' ∉ l) (rest : List Char) :
    lines (l ++ '\n' :: rest) = chomp (l ++ ['\n']) :: lines rest := by
  rw [lines, pieces_line h, List.map_cons]
  rfl

theorem isPrefix_chomp_newline (l : List Char) : chomp (l ++ ['\n']) <+: l := by
  have hrev : (l ++ ['\n']).reverse = '\n' :: l.reverse := by simp
  rw [chomp, hrev]
  split
  next rest hrest =>
      injection hrest with _ hl
      refine ⟨['\r'], ?_⟩
      rw [← List.reverse_reverse l, hl, List.reverse_cons]
  next rest _ hrest =>
      injection hrest with _ hl
      have hsame : rest.reverse = l := by
        rw [← hl, List.reverse_reverse]
      exact ⟨[], by rw [hsame, List.append_nil]⟩
  next _ hrest => exact absurd rfl (hrest l.reverse)

theorem newline_not_mem_of_mem_lines {cs l : List Char} (h : l ∈ lines cs) : '\n' ∉ l := by
  induction cs using line_induction with
  | last k hk =>
      by_cases hne : k = []
      · rw [hne] at h
        cases h
      · rw [lines_of_not_mem hk hne, List.mem_singleton] at h
        rw [h]
        exact hk
  | line k rest hk ih =>
      rw [lines_line hk] at h
      rcases List.mem_cons.1 h with rfl | h
      · exact fun hm => hk ((isPrefix_chomp_newline k).subset hm)
      · exact ih h

theorem closed_of_append (front : List Char) {back : List Char} (h : Closed (front ++ back)) :
    Closed back :=
  fun c hc => h c (List.mem_getLast?_append_of_mem_getLast? hc)

theorem length_lines_of_closed {cs : List Char} (h : Closed cs) :
    (lines cs).length = cs.count '\n' := by
  induction cs using line_induction with
  | last l hl =>
      have hnil : l = [] := by
        cases hlast : l.getLast? with
        | none => exact List.getLast?_eq_none_iff.1 hlast
        | some c => exact absurd (h c hlast ▸ List.mem_of_getLast? hlast) hl
      rw [hnil]
      rfl
  | line l rest hl ih =>
      have hrest : Closed rest := closed_of_append (l ++ ['\n']) (by simpa using h)
      rw [lines_line hl, List.length_cons, ih hrest, List.count_append, List.count_cons_self,
        List.count_eq_zero_of_not_mem hl, Nat.zero_add]

theorem lines_append_of_closed {cs : List Char} (h : Closed cs) (ds : List Char) :
    lines (cs ++ ds) = lines cs ++ lines ds := by
  cases hlast : cs.getLast? with
  | none =>
      rw [List.getLast?_eq_none_iff.1 hlast]
      rfl
  | some c =>
      obtain ⟨es, hes⟩ := List.getLast?_eq_some_iff.1 hlast
      rw [hes, h c hlast, List.append_assoc, List.singleton_append, lines_append]

end Text

def Buffer.concat (bs : List Buffer) : Buffer := ofBytes (bs.flatMap Buffer.bytes)

namespace Source

def Error.below (k : Nat) (e : Error) : Error := { e with line := e.line + k }

/-- A way to read texts in which every line stands for itself and the first line that cannot be
read decides. -/
structure LineByLine {α : Type} (read : String → Except Error α) (join : List α → α) : Prop where
  ok_iff : ∀ text a, read text = .ok a ↔ ∃ parts, a = join parts ∧
    List.Forall₂ (fun line part => read (String.ofList line) = .ok part)
      (Text.lines text.toList) parts
  error_iff : ∀ text e, read text = .error e ↔ ∃ good bad rest,
    Text.lines text.toList = good ++ bad :: rest ∧
    (∀ line ∈ good, ∃ part, read (String.ofList line) = .ok part) ∧
    read (String.ofList bad) = .error ⟨1, e.cause⟩ ∧ e.line = good.length + 1
  append : ∀ front back, Text.Closed front.toList → read (front ++ back) = do
    let a ← read front
    let b ← (read back).mapError (Error.below (front.toList.count '\n'))
    pure (join [a, b])

/-- What the lines say, if the first of them has this number. -/
def readAll (number : Nat) (lines : List (List Char)) : Except Error (List Instruction) :=
  (readLines number lines).result.map (·.map Prod.snd)

theorem parse_eq_readAll (text : String) : parse text = readAll 1 (Text.lines text.toList) := rfl

theorem readAll_nil (number : Nat) : readAll number [] = .ok [] := rfl

theorem readAll_cons (number : Nat) (line : List Char) (lines : List (List Char)) :
    readAll number (line :: lines) = (do
      let found ← (readLine line).result.mapError (⟨number, ·⟩)
      let more ← readAll (number + 1) lines
      pure (found.toList ++ more)) := by
  rw [readAll, readAll, result_readLines_cons]
  cases (readLine line).result with
  | error cause => rfl
  | ok found =>
      cases (readLines (number + 1) lines).result with
      | error e => rfl
      | ok more => cases found <;> rfl

theorem readAll_add (number k : Nat) (lines : List (List Char)) :
    readAll (number + k) lines = (readAll number lines).mapError (Error.below k) := by
  induction lines generalizing number with
  | nil => rfl
  | cons line lines ih =>
      rw [readAll_cons, readAll_cons, Nat.add_right_comm, ih]
      cases (readLine line).result with
      | error cause => rfl
      | ok found =>
          cases readAll (number + 1) lines with
          | error e => rfl
          | ok more => rfl

theorem readAll_append (number : Nat) (xs ys : List (List Char)) :
    readAll number (xs ++ ys) = (do
      let front ← readAll number xs
      let back ← readAll (number + xs.length) ys
      pure (front ++ back)) := by
  induction xs generalizing number with
  | nil =>
      rw [List.nil_append, readAll_nil, Results.ok_bind]
      cases readAll number ys <;> rfl
  | cons line xs ih =>
      rw [List.cons_append, readAll_cons, ih, readAll_cons, List.length_cons, Nat.add_right_comm,
        Nat.add_assoc number xs.length 1]
      cases (readLine line).result with
      | error cause => rfl
      | ok found =>
          cases readAll (number + 1) xs with
          | error e => rfl
          | ok front =>
              cases readAll (number + (xs.length + 1)) ys with
              | error e => rfl
              | ok back => exact congrArg Except.ok (List.append_assoc ..).symm

theorem parse_line {line : List Char} (h : '\n' ∉ line) : parse (String.ofList line) =
    ((readLine line).result.mapError (⟨1, ·⟩)).map Option.toList := by
  rw [parse_eq_readAll, String.toList_ofList]
  by_cases hne : line = []
  · rw [hne]
    rfl
  · rw [Text.lines_of_not_mem h hne, readAll_cons, readAll_nil]
    cases (readLine line).result with
    | error cause => rfl
    | ok found => exact congrArg Except.ok (List.append_nil _)

theorem readLine_of_parse_ok {line : List Char} (h : '\n' ∉ line) {part : List Instruction}
    (hpart : parse (String.ofList line) = .ok part) :
    ∃ found, (readLine line).result = .ok found ∧ found.toList = part := by
  rw [parse_line h] at hpart
  obtain ⟨found, hfound, hlist⟩ := Results.map_eq_ok_iff.1 hpart
  exact ⟨found, Results.mapError_eq_ok_iff.1 hfound, hlist⟩

theorem readLine_of_parse_error {line : List Char} (h : '\n' ∉ line) {e : Error}
    (he : parse (String.ofList line) = .error e) :
    ∃ cause, (readLine line).result = .error cause ∧ e = ⟨1, cause⟩ := by
  rw [parse_line h] at he
  obtain ⟨cause, hcause, hline⟩ := Results.mapError_eq_error_iff.1 (Results.map_eq_error_iff.1 he)
  exact ⟨cause, hcause, hline.symm⟩

theorem readAll_of_ok {lines : List (List Char)} {parts : List (List Instruction)}
    (hlines : ∀ line ∈ lines, '\n' ∉ line)
    (h : List.Forall₂ (fun line part => parse (String.ofList line) = .ok part) lines parts)
    (number : Nat) : readAll number lines = .ok parts.flatten := by
  induction h generalizing number with
  | nil => rfl
  | @cons line part lines parts hline _ ih =>
      obtain ⟨hnewline, hlines⟩ := List.forall_mem_cons.1 hlines
      obtain ⟨found, hfound, rfl⟩ := readLine_of_parse_ok hnewline hline
      rw [readAll_cons, hfound, ih hlines]
      rfl

theorem readAll_of_error {good rest : List (List Char)} {bad : List Char} {e : Error}
    (hlines : ∀ line ∈ good ++ bad :: rest, '\n' ∉ line)
    (hgood : ∀ line ∈ good, ∃ part, parse (String.ofList line) = .ok part)
    (hbad : parse (String.ofList bad) = .error e) (number : Nat) :
    readAll number (good ++ bad :: rest) = .error ⟨number + good.length, e.cause⟩ := by
  obtain ⟨cause, hcause, rfl⟩ := readLine_of_parse_error (hlines bad (by simp)) hbad
  have hread : ∀ line ∈ good, ∃ found, (readLine line).result = .ok found := by
    intro line hline
    obtain ⟨part, hpart⟩ := hgood line hline
    obtain ⟨found, hfound, _⟩ := readLine_of_parse_ok (hlines line (by simp [hline])) hpart
    exact ⟨found, hfound⟩
  rw [readAll, result_readLines_of_error hread hcause]
  rfl

theorem parse_of_parts {text : String} {parts : List (List Instruction)}
    (h : List.Forall₂ (fun line part => parse (String.ofList line) = .ok part)
      (Text.lines text.toList) parts) : parse text = .ok parts.flatten :=
  readAll_of_ok (fun _ => Text.newline_not_mem_of_mem_lines) h 1

theorem parse_of_bad_line {text : String} {good rest : List (List Char)} {bad : List Char}
    {e : Error} (hlines : Text.lines text.toList = good ++ bad :: rest)
    (hgood : ∀ line ∈ good, ∃ part, parse (String.ofList line) = .ok part)
    (hbad : parse (String.ofList bad) = .error e) :
    e = ⟨1, e.cause⟩ ∧ parse text = .error ⟨good.length + 1, e.cause⟩ := by
  have hnewline : ∀ line ∈ good ++ bad :: rest, '\n' ∉ line := by
    rw [← hlines]
    exact fun _ => Text.newline_not_mem_of_mem_lines
  obtain ⟨_, _, he⟩ := readLine_of_parse_error (hnewline bad (by simp)) hbad
  constructor
  · rw [he]
  · rw [parse_eq_readAll, hlines, readAll_of_error hnewline hgood hbad, Nat.add_comm]

theorem parse_lineByLine : LineByLine parse List.flatten where
  ok_iff text a := by
    constructor
    · intro h
      rcases Results.forall₂_ok_or_first_error (fun line => parse (String.ofList line))
        (Text.lines text.toList) with ⟨parts, hparts⟩ | ⟨good, bad, rest, e, hlines, hgood, hbad⟩
      · rw [parse_of_parts hparts] at h
        exact ⟨parts, (Except.ok.inj h).symm, hparts⟩
      · rw [(parse_of_bad_line hlines hgood hbad).2] at h
        cases h
    · rintro ⟨parts, rfl, hparts⟩
      exact parse_of_parts hparts
  error_iff text e := by
    constructor
    · intro h
      rcases Results.forall₂_ok_or_first_error (fun line => parse (String.ofList line))
        (Text.lines text.toList) with ⟨parts, hparts⟩ | ⟨good, bad, rest, d, hlines, hgood, hbad⟩
      · rw [parse_of_parts hparts] at h
        cases h
      · obtain ⟨hd, htext⟩ := parse_of_bad_line hlines hgood hbad
        rw [htext] at h
        cases h
        exact ⟨good, bad, rest, hlines, hgood, hd ▸ hbad, rfl⟩
    · rintro ⟨good, bad, rest, hlines, hgood, hbad, hline⟩
      rw [(parse_of_bad_line hlines hgood hbad).2, ← hline]
  append front back hclosed := by
    rw [parse_eq_readAll, String.toList_append, Text.lines_append_of_closed hclosed, readAll_append,
      readAll_add, Text.length_lines_of_closed hclosed, ← parse_eq_readAll, ← parse_eq_readAll]
    cases parse front with
    | error e => rfl
    | ok a =>
        cases parse back with
        | error e => rfl
        | ok b => simp

theorem exists_parts_of_images {α β : Type} {read : List Char → Except Error α} {f : α → β}
    {lines : List (List Char)} {images : List β}
    (h : List.Forall₂ (fun line image => (read line).map f = .ok image) lines images) :
    ∃ parts, List.Forall₂ (fun line part => read line = .ok part) lines parts ∧
      parts.map f = images := by
  induction h with
  | nil => exact ⟨[], .nil, rfl⟩
  | cons hline _ ih =>
      obtain ⟨part, hpart, rfl⟩ := Results.map_eq_ok_iff.1 hline
      obtain ⟨parts, hparts, rfl⟩ := ih
      exact ⟨part :: parts, .cons hpart hparts, rfl⟩

theorem LineByLine.map {α β : Type} {read : String → Except Error α} {join : List α → α}
    {joined : List β → β} {f : α → β} (h : LineByLine read join)
    (hf : ∀ parts, f (join parts) = joined (parts.map f)) :
    LineByLine (fun text => (read text).map f) joined where
  ok_iff text b := by
    constructor
    · intro hb
      obtain ⟨a, ha, rfl⟩ := Results.map_eq_ok_iff.1 hb
      obtain ⟨parts, rfl, hparts⟩ := (h.ok_iff text a).1 ha
      refine ⟨parts.map f, hf parts, List.forall₂_map_right_iff.2 ?_⟩
      exact hparts.imp fun line part hpart => Results.map_eq_ok_iff.2 ⟨part, hpart, rfl⟩
    · rintro ⟨images, rfl, himages⟩
      obtain ⟨parts, hparts, rfl⟩ := exists_parts_of_images himages
      rw [← hf]
      exact Results.map_eq_ok_iff.2 ⟨_, (h.ok_iff text _).2 ⟨parts, rfl, hparts⟩, rfl⟩
  error_iff text e := by
    simp only [Results.map_eq_error_iff, Results.exists_map_eq_ok_iff]
    exact h.error_iff text e
  append front back hclosed := by
    rw [h.append front back hclosed]
    cases read front with
    | error e => rfl
    | ok a =>
        cases read back with
        | error e => rfl
        | ok b => exact congrArg Except.ok (hf [a, b])

/-- Reading a program, and storing it, go line by line. -/
theorem programs_line_by_line :
    LineByLine parse List.flatten ∧ LineByLine assemble Buffer.concat := by
  refine ⟨parse_lineByLine, ?_⟩
  rw [funext assemble_eq]
  apply parse_lineByLine.map
  intro parts
  rw [Buffer.ofProgram, Buffer.concat, List.flatMap_map, ← List.flatMap_id, List.flatMap_assoc]
  rfl

theorem programs_line_by_line_late_fault :
    Text.Closed "# one\r\nOpConstant 1\n".toList ∧
    parse "OpConstant 2\nRobert 2\r" = .error ⟨2, .unreadable "Robert 2"⟩ ∧
    parse ("# one\r\nOpConstant 1\n" ++ "OpConstant 2\nRobert 2\r") =
      .error ⟨4, .unreadable "Robert 2"⟩ ∧
    assemble ("# one\r\nOpConstant 1\n" ++ "OpConstant 2") =
      .ok (Buffer.ofBytes [0, 0, 1, 0, 0, 2]) := by
  obtain ⟨hparse, hassemble⟩ := programs_line_by_line
  have hclosed : Text.Closed "# one\r\nOpConstant 1\n".toList := by
    intro c hc
    cases hc
    rfl
  rw [hparse.append _ _ hclosed, hassemble.append _ _ hclosed]
  refine ⟨hclosed, ?_, ?_, ?_⟩
  · decide +kernel
  · decide +kernel
  · decide +kernel

end Source

end Opstream
