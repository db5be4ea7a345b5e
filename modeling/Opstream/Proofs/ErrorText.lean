import Opstream.Proofs.ProgramFaults
import Opstream.Proofs.ProgramLines
import Opstream.Proofs.StatementGrammar

namespace Opstream

namespace Text

theorem newline_not_mem_of_plain {s : String} (h : Plain s) : '\n' ∉ s.toList :=
  fun hm => ne_newline_of_isInline (inline_of_plain h _ hm) rfl

theorem trim_subset (cs : List Char) : trim cs ⊆ cs := by
  intro c hc
  rw [trim, List.mem_reverse] at hc
  have hfront := List.mem_reverse.1 ((List.dropWhile_sublist isWhiteSpace).subset hc)
  exact (List.dropWhile_sublist isWhiteSpace).subset hfront

end Text

namespace Source

open Text

namespace Statement

variable {s : Statement} {cause : Cause}

theorem Spells.plain {ws : List (List Char)} (h : Spells ws s) :
    Plain s.name ∧ ∀ digits ∈ s.operands, Plain digits := by
  cases h with
  | intro name operands hname hoperands =>
      constructor
      · apply plain_of_isAlphanum
        rw [String.toList_ofList]
        exact hname
      · rw [List.forall_mem_map]
        intro digits hdigits
        apply plain_of_isAlphanum
        rw [String.toList_ofList]
        exact fun c hc => isAlphanum_of_isDigit (hoperands digits hdigits c hc)

theorem Refuses.plain_message (h : s.Refuses cause) (hname : Plain s.name)
    (hoperands : ∀ digits ∈ s.operands, Plain digits) : Plain cause.message := by
  cases h with
  | unknown =>
      change Plain (s.name ++ " is not an operation")
      rw [plain_append]
      exact ⟨hname, plain_of_all (by decide)⟩
  | arity opcode =>
      change Plain (opcode.name ++ " requires " ++ opcode.arity.repr ++
        " arguments but was given " ++ s.operands.length.repr)
      have hwords : Plain " requires " ∧ Plain " arguments but was given " :=
        ⟨plain_of_all (by decide), plain_of_all (by decide)⟩
      simp [hwords, opcode.plain_name]
  | @overflow opcode digits hdigits width =>
      change Plain ("operand " ++ digits ++ " of " ++ opcode.name ++ " does not fit in " ++
        width.repr ++ " bytes")
      have hwords : Plain "operand " ∧ Plain " of " ∧ Plain " does not fit in " ∧
          Plain " bytes" :=
        ⟨plain_of_all (by decide), plain_of_all (by decide), plain_of_all (by decide),
          plain_of_all (by decide)⟩
      simp [hwords, opcode.plain_name, hoperands digits hdigits]

end Statement

theorem newline_not_mem_cause {line : List Char} {cause : Cause}
    (h : (readLine line).result = .error cause) (hline : '\n' ∉ line) :
    '\n' ∉ cause.message.toList := by
  rcases readLine_refused h with rfl | ⟨s, hs, hrefuses⟩
  · change '\n' ∉ ("cannot parse \x60" ++ String.ofList (trim line) ++ "\x60").toList
    have htrim : '\n' ∉ trim line := fun hm => hline (trim_subset line hm)
    simp [htrim]
  · obtain ⟨hname, hoperands⟩ := ((Statement.ofLine?_statement_iff line s).1 hs).plain
    exact newline_not_mem_of_plain (hrefuses.plain_message hname hoperands)

theorem newline_not_mem_message {text : String} {e : Error} (h : parse text = .error e) :
    '\n' ∉ e.message.toList := by
  obtain ⟨line, hline, hcause⟩ := parse_refused h
  have hmessage := newline_not_mem_cause hcause (newline_not_mem_of_mem_lines hline)
  have hnumber := newline_not_mem_of_plain (plain_repr e.line)
  change '\n' ∉ ("Error on line " ++ e.line.repr ++ ": " ++ e.cause.message ++ ".").toList
  simp only [String.toList_append, List.mem_append, not_or]
  exact ⟨⟨⟨⟨by decide, hnumber⟩, by decide⟩, hmessage⟩, by decide⟩

end Source

end Opstream
