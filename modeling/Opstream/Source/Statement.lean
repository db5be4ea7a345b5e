namespace Opstream.Source

/-- The words of a line that holds an instruction, as they were written. -/
structure Statement where
  name : String
  operands : List String
  deriving DecidableEq

namespace Statement

def isBlank (c : Char) : Bool := c == ' ' || c == '\t'

def run? (p : Char → Bool) (cs : List Char) : Option (List Char × List Char) :=
  match cs.takeWhile p with
  | [] => none
  | c :: run => some (c :: run, cs.dropWhile p)

/-- Passes over an offset: digits, then blanks. Digits that no blank follows are no offset. -/
def skipOffset (cs : List Char) : List Char :=
  match run? Char.isDigit cs with
  | none => cs
  | some (_, rest) =>
      match run? isBlank rest with
      | none => cs
      | some (_, rest) => rest

def readOperand? (cs : List Char) : Option (List Char × List Char) :=
  match run? isBlank cs with
  | none => none
  | some (_, rest) => run? Char.isDigit rest

theorem run?_eq_some_iff {p : Char → Bool} {cs run rest : List Char} :
    run? p cs = some (run, rest) ↔
      run ≠ [] ∧ run = cs.takeWhile p ∧ rest = cs.dropWhile p := by
  cases h : cs.takeWhile p with
  | nil =>
      simp only [run?, h, reduceCtorEq, false_iff, not_and]
      exact fun hne hnil => absurd hnil hne
  | cons c cs' =>
      simp only [run?, h, Option.some.injEq, Prod.mk.injEq]
      constructor
      · rintro ⟨rfl, rfl⟩
        exact ⟨by simp, rfl, rfl⟩
      · rintro ⟨_, rfl, rfl⟩
        exact ⟨rfl, rfl⟩

theorem append_of_run? {p : Char → Bool} {cs run rest : List Char}
    (h : run? p cs = some (run, rest)) : cs = run ++ rest := by
  obtain ⟨_, rfl, rfl⟩ := run?_eq_some_iff.1 h
  exact List.takeWhile_append_dropWhile.symm

theorem length_of_readOperand? {cs digits rest : List Char}
    (h : readOperand? cs = some (digits, rest)) : rest.length < cs.length := by
  cases hblank : run? isBlank cs with
  | none => simp [readOperand?, hblank] at h
  | some split =>
      obtain ⟨blanks, behind⟩ := split
      simp only [readOperand?, hblank] at h
      have hpos := List.length_pos_iff.2 (run?_eq_some_iff.1 hblank).1
      rw [append_of_run? hblank, append_of_run? h]
      simp only [List.length_append]
      omega

def readOperands (cs : List Char) : List (List Char) × List Char :=
  match _h : readOperand? cs with
  | none => ([], cs)
  | some (digits, rest) =>
      let (more, rest) := readOperands rest
      (digits :: more, rest)
termination_by cs.length
decreasing_by exact length_of_readOperand? ‹_›

theorem readOperands_of_none {cs : List Char} (h : readOperand? cs = none) :
    readOperands cs = ([], cs) := by
  rw [readOperands]
  split <;> simp_all

theorem readOperands_of_some {cs digits rest : List Char}
    (h : readOperand? cs = some (digits, rest)) :
    readOperands cs = (digits :: (readOperands rest).1, (readOperands rest).2) := by
  rw [readOperands]
  split <;> simp_all

def read? (cs : List Char) : Option (Statement × List Char) :=
  match run? Char.isAlphanum (skipOffset cs) with
  | none => none
  | some (name, rest) =>
      let (digits, rest) := readOperands rest
      some (⟨String.ofList name, digits.map String.ofList⟩, rest)

/-- A line with at most one statement and at most a comment behind it, and `none` for any other
line. Where no statement can be read, only blanks and a comment are left to be there. -/
def ofLine? (line : List Char) : Option (Option Statement) :=
  let cs := line.dropWhile isBlank
  let (found, rest) :=
    match read? cs with
    | none => (none, cs)
    | some (s, rest) => (some s, rest)
  match rest.dropWhile isBlank with
  | [] => some found
  | c :: _ => if c = '#' then some found else none

end Statement

end Opstream.Source
