import Mathlib.Data.List.Infix
import Opstream.Proofs.LineWords

namespace Opstream.Source.Statement

open Text

def body (line : List Char) : List Char := line.takeWhile (· != '#')

theorem suffix_of_run? {p : Char → Bool} {cs run rest : List Char}
    (h : run? p cs = some (run, rest)) : rest <:+ cs := by
  rw [append_of_run? h]
  exact List.suffix_append run rest

theorem skipOffset_suffix (cs : List Char) : skipOffset cs <:+ cs := by
  cases hdigits : run? Char.isDigit cs with
  | none => rw [skipOffset, hdigits]
  | some split =>
      rw [skipOffset, hdigits]
      dsimp only
      cases hgap : run? isBlank split.2 with
      | none => exact List.suffix_refl cs
      | some rest => exact (suffix_of_run? hgap).trans (suffix_of_run? hdigits)

theorem readOperands_suffix (cs : List Char) : (readOperands cs).2 <:+ cs := by
  induction cs using readOperands.induct with
  | case1 cs hread => rw [readOperands_of_none hread]
  | case2 cs digits more hread _ _ _ ih =>
      rw [readOperands_of_some hread]
      obtain ⟨gap, behind, hgap, hdigits⟩ := readOperand?_eq_some hread
      exact ih.trans ((suffix_of_run? hdigits).trans (suffix_of_run? hgap))

theorem suffix_of_read? {cs rest : List Char} {s : Statement} (h : read? cs = some (s, rest)) :
    rest <:+ cs := by
  obtain ⟨name, more, hname, _, rfl⟩ := read?_eq_some h
  exact (readOperands_suffix more).trans ((suffix_of_run? hname).trans (skipOffset_suffix cs))

section Comment

variable {tail : List Char} (htail : Stops (· != '#') tail)

include htail

theorem stops_comment {p : Char → Bool} (hp : p '#' = false) : Stops p tail := by
  intro c hc
  have hmark : c = '#' := by simpa using htail c hc
  rw [hmark, hp]

theorem run?_comment {p : Char → Bool} (hp : p '#' = false) (cs : List Char) :
    run? p (cs ++ tail) = (run? p cs).map fun (run, rest) => (run, rest ++ tail) := by
  have hstop := stops_comment htail hp
  cases h : run? p cs with
  | none => exact run?_of_stops ((stops_of_run? h).append hstop)
  | some split =>
      obtain ⟨run, rest⟩ := split
      have hrest := (stops_rest_of_run? h).append hstop
      rw [append_of_run? h, List.append_assoc]
      exact run?_append (run?_eq_some_iff.1 h).1 (of_mem_run? h) hrest

theorem skipOffset_comment (cs : List Char) :
    skipOffset (cs ++ tail) = skipOffset cs ++ tail := by
  rw [skipOffset, run?_comment htail rfl, skipOffset]
  cases run? Char.isDigit cs with
  | none => rfl
  | some split =>
      dsimp only [Option.map_some]
      rw [run?_comment htail rfl]
      cases run? isBlank split.2 with
      | none => rfl
      | some split => rfl

theorem readOperand?_comment (cs : List Char) :
    readOperand? (cs ++ tail) = (readOperand? cs).map fun (run, rest) => (run, rest ++ tail) := by
  rw [readOperand?, run?_comment htail rfl, readOperand?]
  cases run? isBlank cs with
  | none => rfl
  | some split => exact run?_comment htail rfl split.2

theorem readOperands_comment (cs : List Char) :
    readOperands (cs ++ tail) = ((readOperands cs).1, (readOperands cs).2 ++ tail) := by
  induction cs using readOperands.induct with
  | case1 cs hread =>
      have hnone : readOperand? (cs ++ tail) = none := by
        rw [readOperand?_comment htail, hread]
        rfl
      rw [readOperands_of_none hnone, readOperands_of_none hread]
  | case2 cs digits more hread _ _ _ ih =>
      have hsome : readOperand? (cs ++ tail) = some (digits, more ++ tail) := by
        rw [readOperand?_comment htail, hread]
        rfl
      rw [readOperands_of_some hsome, readOperands_of_some hread, ih]

theorem read?_comment (cs : List Char) :
    read? (cs ++ tail) = (read? cs).map fun (s, rest) => (s, rest ++ tail) := by
  rw [read?, skipOffset_comment htail, run?_comment htail rfl, read?]
  cases run? Char.isAlphanum (skipOffset cs) with
  | none => rfl
  | some split =>
      dsimp only [Option.map_some]
      rw [readOperands_comment htail]

theorem dropWhile_comment (cs : List Char) :
    (cs ++ tail).dropWhile isBlank = cs.dropWhile isBlank ++ tail := by
  rw [List.dropWhile_append]
  split
  next h => rw [(stops_comment htail rfl).dropWhile_eq, List.isEmpty_iff.1 h, List.nil_append]
  next => rfl

theorem ending_comment {rest : List Char} (h : '#' ∉ rest) (found : Option Statement) :
    (match (rest ++ tail).dropWhile isBlank with
      | [] => some found
      | c :: _ => if c = '#' then some found else none) =
      if words rest = [] then some found else none := by
  rw [dropWhile_comment htail]
  simp only [words_eq_nil_iff]
  cases hrest : rest.dropWhile isBlank with
  | nil =>
      rw [List.nil_append, if_pos rfl]
      cases tail with
      | nil => rfl
      | cons c tail => exact if_pos (by simpa using htail c rfl)
  | cons c more =>
      have hc : c ≠ '#' := by
        rintro rfl
        apply h
        apply (List.dropWhile_suffix isBlank).subset
        rw [hrest]
        exact List.mem_cons_self
      rw [if_neg (List.cons_ne_nil c more)]
      exact if_neg hc

theorem ofLine?_comment {cs : List Char} (h : '#' ∉ cs) :
    ofLine? (cs ++ tail) = match read? (cs.dropWhile isBlank) with
      | none => if words cs = [] then some none else none
      | some (s, rest) => if words rest = [] then some (some s) else none := by
  rw [ofLine?, dropWhile_comment htail, read?_comment htail]
  have hdrop : '#' ∉ cs.dropWhile isBlank := fun hm => h ((List.dropWhile_suffix isBlank).subset hm)
  cases hread : read? (cs.dropWhile isBlank) with
  | none =>
      rw [← words_dropWhile]
      exact ending_comment htail hdrop none
  | some split =>
      have hrest : '#' ∉ split.2 := fun hm => hdrop ((suffix_of_read? hread).subset hm)
      exact ending_comment htail hrest (some split.1)

end Comment

theorem mark_not_mem_body (line : List Char) : '#' ∉ body line := by
  intro h
  have hmark := List.all_eq_true.1 List.all_takeWhile _ h
  cases hmark

/-- Whatever stands in a comment, a line says what is in front of it. -/
theorem ofLine?_eq (line : List Char) :
    ofLine? line = match read? ((body line).dropWhile isBlank) with
      | none => if words (body line) = [] then some none else none
      | some (s, rest) => if words rest = [] then some (some s) else none := by
  have hsplit := ofLine?_comment (stops_dropWhile (· != '#') line) (mark_not_mem_body line)
  rw [body, List.takeWhile_append_dropWhile] at hsplit
  exact hsplit

end Opstream.Source.Statement
