import Opstream.Proofs.LineSpacing
import Opstream.Proofs.ProgramLines

namespace Opstream

namespace Text

/-- Texts that have these lines. The last line needs no end if there is something on it. -/
inductive Written : List (List Char) → List Char → Prop
  | nil : Written [] []
  | last {l : List Char} (hne : l ≠ []) (hl : '\n' ∉ l) : Written [l] l
  | line {l cs : List Char} {ls : List (List Char)} (hl : '\n' ∉ l) (h : Written ls cs) :
      Written (l :: ls) (l ++ '\n' :: cs)

/-- Puts a block in front of each line. The blocks that are left over stand at the end. -/
def weave : List (List (List Char)) → List (List Char) → List (List Char)
  | [], lines => lines
  | block :: blocks, [] => block ++ blocks.flatten
  | block :: blocks, line :: lines => block ++ line :: weave blocks lines

theorem lines_of_written {ls : List (List Char)} {cs : List Char} (h : Written ls cs)
    (hreturn : '\r' ∉ cs) : lines cs = ls := by
  induction h with
  | nil => rfl
  | last hne hl => exact lines_of_not_mem hl hne
  | @line l cs ls hl _ ih =>
      have hline : '\r' ∉ l := fun hm => hreturn (List.mem_append_left _ hm)
      have hrest : '\r' ∉ cs := fun hm =>
        hreturn (List.mem_append_right _ (List.mem_cons_of_mem _ hm))
      rw [lines_line hl, chomp_terminated hline, ih hrest]

theorem written_lines {cs : List Char} (hreturn : '\r' ∉ cs) : Written (lines cs) cs := by
  induction cs using line_induction with
  | last l hl =>
      by_cases hne : l = []
      · rw [hne]
        exact .nil
      · rw [lines_of_not_mem hl hne]
        exact .last hne hl
  | line l rest hl ih =>
      have hline : '\r' ∉ l := fun hm => hreturn (List.mem_append_left _ hm)
      have hrest : '\r' ∉ rest := fun hm =>
        hreturn (List.mem_append_right _ (List.mem_cons_of_mem _ hm))
      rw [lines_line hl, chomp_terminated hline]
      exact .line hl (ih hrest)

end Text

namespace Source

def IsBlankLine (line : List Char) : Prop := Statement.IsBlanks (Statement.body line)

/-- The place of an error when blocks of lines were put in: as many lines further down as there
are in the blocks in front of it. -/
def Error.moved (blocks : List (List (List Char))) (e : Error) : Error :=
  { e with line := e.line + (blocks.take e.line).flatten.length }

theorem Error.moved_nil (e : Error) : e.moved [] = e := by
  simp [moved]

theorem Error.moved_first (block : List (List Char)) (blocks : List (List (List Char)))
    (cause : Cause) :
    Error.moved (block :: blocks) ⟨1, cause⟩ = .below block.length ⟨1, cause⟩ := by
  simp [moved, below]

theorem Error.moved_below (block : List (List Char)) (blocks : List (List (List Char)))
    (e : Error) : (e.below 1).moved (block :: blocks) =
      ((e.moved blocks).below 1).below block.length := by
  simp only [moved, below, List.take_succ_cons, List.flatten_cons, List.length_append,
    Error.mk.injEq, and_true]
  omega

theorem readLine_blank {line : List Char} (h : IsBlankLine line) :
    (readLine line).result = .ok none := by
  have hwords : Statement.words (Statement.body line) = [] := Statement.words_append_blanks h []
  rw [readLine, (Statement.ofLine?_blank_iff line).2 hwords]
  rfl

theorem readAll_blank {block : List (List Char)} (h : ∀ line ∈ block, IsBlankLine line)
    (number : Nat) : readAll number block = .ok [] := by
  induction block generalizing number with
  | nil => rfl
  | cons line block ih =>
      obtain ⟨hline, hblock⟩ := List.forall_mem_cons.1 h
      rw [readAll_cons, readLine_blank hline, ih hblock]
      rfl

theorem readAll_blank_append {block : List (List Char)} (h : ∀ line ∈ block, IsBlankLine line)
    (number : Nat) (rest : List (List Char)) :
    readAll number (block ++ rest) =
      (readAll number rest).mapError (Error.below block.length) := by
  rw [readAll_append, readAll_blank h, Results.ok_bind, readAll_add]
  cases readAll number rest <;> rfl

theorem readAll_weave {blocks : List (List (List Char))}
    (h : ∀ block ∈ blocks, ∀ line ∈ block, IsBlankLine line) (lines : List (List Char)) :
    readAll 1 (Text.weave blocks lines) = (readAll 1 lines).mapError (Error.moved blocks) := by
  induction lines generalizing blocks with
  | nil =>
      cases blocks with
      | nil => rfl
      | cons block blocks =>
          have hall : ∀ line ∈ (block :: blocks).flatten, IsBlankLine line := by
            intro line hline
            obtain ⟨found, hfound, hmem⟩ := List.mem_flatten.1 hline
            exact h found hfound line hmem
          exact readAll_blank hall 1
  | cons line lines ih =>
      cases blocks with
      | nil =>
          rw [Text.weave]
          cases readAll 1 (line :: lines) with
          | error e => exact congrArg Except.error e.moved_nil.symm
          | ok is => rfl
      | cons block blocks =>
          obtain ⟨hblock, hblocks⟩ := List.forall_mem_cons.1 h
          rw [Text.weave, readAll_blank_append hblock, readAll_cons, readAll_add 1 1, ih hblocks,
            readAll_cons, readAll_add 1 1]
          cases (readLine line).result with
          | error cause => exact congrArg Except.error (Error.moved_first block blocks cause).symm
          | ok found =>
              cases readAll 1 lines with
              | error e => exact congrArg Except.error (Error.moved_below block blocks e).symm
              | ok more => rfl

theorem parse_weave {text wider : String} {blocks : List (List (List Char))}
    (h : ∀ block ∈ blocks, ∀ line ∈ block, IsBlankLine line)
    (hlines : Text.lines wider.toList = Text.weave blocks (Text.lines text.toList)) :
    parse wider = (parse text).mapError (Error.moved blocks) := by
  rw [parse_eq_readAll, hlines, readAll_weave h, ← parse_eq_readAll]

end Source

end Opstream
