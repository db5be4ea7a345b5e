import Opstream.Proofs.BlankLines
import Opstream.Proofs.InstructionText

namespace Opstream

theorem Opcode.ofName?_number {digits : List Char} (h : Source.Statement.IsNumber digits) :
    Opcode.ofName? (String.ofList digits) = none := by
  cases hname : Opcode.ofName? (String.ofList digits) with
  | none => rfl
  | some opcode =>
      obtain ⟨c, rest, rfl⟩ := List.exists_cons_of_ne_nil h.1
      have hstop := opcode.stops_digit_name
      rw [Opcode.name_of_ofName? hname, String.toList_ofList] at hstop
      have hdigit := h.2 c List.mem_cons_self
      rw [hstop c rfl] at hdigit
      cases hdigit

namespace Source

open Statement (IsBlanks IsNumber IsGap LoneOffset body words)

def Cause.withoutText : Cause → Cause
  | .unreadable _ => .unreadable ""
  | cause => cause

/-- What a line means as a program of its own. Of a line that cannot be read the text is left
out. -/
def outcome (line : List Char) : Except Error (List Instruction) :=
  (parse (String.ofList line)).mapError fun e => { e with cause := e.cause.withoutText }

theorem newline_not_mem_gap {front gap back : List Char} (hfront : '\n' ∉ front) (hgap : IsGap gap)
    (hback : '\n' ∉ back) : '\n' ∉ front ++ gap ++ back :=
  List.not_mem_append (List.not_mem_append hfront (hgap.2.not_mem rfl)) hback

theorem newline_not_mem_strip {line : List Char} (h : '\n' ∉ line) :
    '\n' ∉ Text.strip Statement.isBlank (body line) := by
  obtain ⟨lead, trail, hsplit, _⟩ := Text.exists_strip Statement.isBlank (body line)
  intro hm
  apply h
  apply (List.takeWhile_prefix (· != '#')).subset
  change '\n' ∈ body line
  rw [hsplit]
  exact List.mem_append_left _ (List.mem_append_right _ hm)

theorem outcome_congr {l m : List Char} (hl : '\n' ∉ l) (hm : '\n' ∉ m)
    (h : Statement.ofLine? l = Statement.ofLine? m) : outcome l = outcome m := by
  rw [outcome, parse_line hl, outcome, parse_line hm, readLine, readLine, h]
  cases Statement.ofLine? m with
  | none => rfl
  | some found => cases found <;> rfl

theorem outcome_strip {line : List Char} (hline : '\n' ∉ line)
    (h : ∀ digits, ¬ LoneOffset (body line) digits) :
    outcome (Text.strip Statement.isBlank (body line)) = outcome line :=
  outcome_congr (newline_not_mem_strip hline) hline (Statement.ofLine?_strip h)

theorem parse_of_loneOffset {line digits : List Char} (hline : '\n' ∉ line)
    (h : LoneOffset (body line) digits) :
    parse (String.ofList line) = .error ⟨1, .unreadable (String.ofList (Text.trim line))⟩ := by
  rw [parse_line hline, result_readLine_of_none h.ofLine?_eq_none]
  rfl

theorem parse_number {digits : List Char} (h : IsNumber digits) :
    parse (String.ofList digits) = .error ⟨1, .unknownOperation (String.ofList digits)⟩ := by
  have hcheck : (Statement.mk (String.ofList digits) []).check.result =
      .error (.unknownOperation (String.ofList digits)) := by
    rw [Statement.result_check_eq, Statement.instruction, Opcode.ofName?_number h]
    rfl
  rw [parse_line (h.not_mem rfl), readLine, Statement.ofLine?_number h]
  dsimp only
  rw [Log.Traced.result_map, hcheck]
  rfl

/-- What surrounds the words of a line, the width of the gaps between them, and its offset do not
matter. Only a number with a blank behind it and no word is refused in another way than the number
alone. Lines without words move the error of a program down. -/
theorem layout_keeps_meaning :
    (∀ line, '\n' ∉ line → (∀ digits, ¬ LoneOffset (body line) digits) →
      outcome (Text.strip Statement.isBlank (body line)) = outcome line) ∧
    (∀ line digits, '\n' ∉ line → LoneOffset (body line) digits →
      parse (String.ofList line) = .error ⟨1, .unreadable (String.ofList (Text.trim line))⟩ ∧
      Text.strip Statement.isBlank (body line) = digits ∧
      parse (String.ofList digits) = .error ⟨1, .unknownOperation (String.ofList digits)⟩) ∧
    (∀ front gap wider back, '\n' ∉ front → '\n' ∉ back → IsGap gap → IsGap wider →
      outcome (front ++ gap ++ back) = outcome (front ++ wider ++ back)) ∧
    (∀ lead digits gap rest, IsBlanks lead → IsNumber digits → IsGap gap → '\n' ∉ rest →
      (∀ other, IsNumber other →
        outcome (lead ++ digits ++ gap ++ rest) = outcome (lead ++ other ++ gap ++ rest)) ∧
      ∀ indent word ws, IsBlanks indent → words (body rest) = word :: ws →
        word.all Char.isDigit = false →
        outcome (lead ++ digits ++ gap ++ rest) = outcome (indent ++ rest)) ∧
    (∀ text : String, '\r' ∉ text.toList → Text.Written (Text.lines text.toList) text.toList) ∧
    ∀ (text wider : String) (blocks : List (List (List Char))),
      (∀ block ∈ blocks, ∀ line ∈ block, IsBlankLine line) →
      '\r' ∉ wider.toList →
      Text.Written (Text.weave blocks (Text.lines text.toList)) wider.toList →
      parse wider = (parse text).mapError (Error.moved blocks) := by
  refine ⟨fun line => outcome_strip, fun line digits hline h => ?_, ?_, ?_,
    fun text => Text.written_lines, ?_⟩
  · exact ⟨parse_of_loneOffset hline h, h.strip_eq, parse_number h.number⟩
  · intro front gap wider back hfront hback hgap hwider
    have hline := newline_not_mem_gap hfront hgap hback
    have hwide := newline_not_mem_gap hfront hwider hback
    exact outcome_congr hline hwide (Statement.ofLine?_gap hgap hwider front back)
  · intro lead digits gap rest hlead hdigits hgap hrest
    have hline : ∀ {cs}, IsNumber cs → '\n' ∉ lead ++ cs ++ gap ++ rest := fun hcs =>
      newline_not_mem_gap (List.not_mem_append (hlead.not_mem rfl) (hcs.not_mem rfl)) hgap hrest
    refine ⟨fun other hother => ?_, fun indent word ws hindent hwords hword => ?_⟩
    · apply outcome_congr (hline hdigits) (hline hother)
      exact Statement.ofLine?_offset hlead hdigits hgap rest hother
    · have hback : '\n' ∉ indent ++ rest := List.not_mem_append (hindent.not_mem rfl) hrest
      apply outcome_congr (hline hdigits) hback
      exact Statement.ofLine?_drop_offset hlead hdigits hgap rest hindent hwords hword
  · intro text wider blocks hblocks hreturn hwritten
    exact parse_weave hblocks (Text.lines_of_written hwritten hreturn)

theorem layout_keeps_meaning_in_program :
    outcome "OpConstant 7".toList = outcome "\t OpConstant 7  # seven".toList ∧
    parse "12" = .error ⟨1, .unknownOperation "12"⟩ ∧
    parse " 12 # c" = .error ⟨1, .unreadable "12 # c"⟩ ∧
    outcome ("OpConstant".toList ++ [' '] ++ "7".toList) =
      outcome ("OpConstant".toList ++ ['\t', ' '] ++ "7".toList) ∧
    outcome ([] ++ "3".toList ++ [' '] ++ "OpConstant 7".toList) =
      outcome ([] ++ "0099".toList ++ [' '] ++ "OpConstant 7".toList) ∧
    outcome ([] ++ "3".toList ++ [' '] ++ "OpConstant 7".toList) =
      outcome ([] ++ "OpConstant 7".toList) ∧
    parse "OpConstant 1\nRobert 2" = .error ⟨2, .unknownOperation "Robert"⟩ ∧
    parse "# one\n\nOpConstant 1\n\t\nRobert 2\n #" =
      .error ⟨5, .unknownOperation "Robert"⟩ := by
  obtain ⟨hstrip, halone, hgap, hoffset, _, hblank⟩ := layout_keeps_meaning
  have hspace : IsGap [' '] := ⟨by decide, List.all_eq_true.1 rfl⟩
  have hcut : Text.strip Statement.isBlank (body "\t OpConstant 7  # seven".toList) =
      "OpConstant 7".toList := by decide
  have hword : ∀ digits, ¬ LoneOffset (body "\t OpConstant 7  # seven".toList) digits := by
    intro digits h
    rw [← h.strip_eq, hcut] at h
    exact absurd (h.number.2 'O' (by decide)) (by decide)
  have hmeaning := hstrip _ (by decide) hword
  rw [hcut] at hmeaning
  have hlone : LoneOffset (body " 12 # c".toList) "12".toList :=
    ⟨⟨by decide, List.all_eq_true.1 rfl⟩, [' '], [' '], hspace.2, hspace, by decide⟩
  obtain ⟨hunreadable, _, hunknown⟩ := halone _ _ (by decide) hlone
  have htrim : Text.trim " 12 # c".toList = "12 # c".toList := by decide
  rw [String.ofList_toList] at hunknown
  rw [htrim, String.ofList_toList, String.ofList_toList] at hunreadable
  have hwide := hgap "OpConstant".toList [' '] ['\t', ' '] "7".toList (by decide) (by decide) hspace
    ⟨by decide, List.all_eq_true.1 rfl⟩
  obtain ⟨hother, hdrop⟩ := hoffset [] "3".toList [' '] "OpConstant 7".toList
    (List.all_eq_true.1 rfl) ⟨by decide, List.all_eq_true.1 rfl⟩ hspace (by decide)
  have hwords : words (body "OpConstant 7".toList) = ["OpConstant".toList, "7".toList] := by decide
  have hfault : parse "OpConstant 1\nRobert 2" = .error ⟨2, .unknownOperation "Robert"⟩ := by
    decide +kernel
  have hblanks : [["# one".toList, []], [['\t']], [" #".toList]].all
      (·.all fun line => (body line).all Statement.isBlank) = true := by decide
  have hlines : Text.lines "# one\n\nOpConstant 1\n\t\nRobert 2\n #".toList =
      Text.weave [["# one".toList, []], [['\t']], [" #".toList]]
        (Text.lines "OpConstant 1\nRobert 2".toList) := by decide
  have hwider := hblank "OpConstant 1\nRobert 2" "# one\n\nOpConstant 1\n\t\nRobert 2\n #" _
    (fun block hblock line hline => List.all_eq_true.1
      (List.all_eq_true.1 (List.all_eq_true.1 hblanks block hblock) line hline))
    (by decide) (hlines ▸ Text.written_lines (by decide))
  rw [hfault] at hwider
  exact ⟨hmeaning, hunknown, hunreadable, hwide,
    hother "0099".toList ⟨by decide, List.all_eq_true.1 rfl⟩,
    hdrop [] _ _ (List.all_eq_true.1 rfl) hwords (by decide), hfault, hwider⟩

end Source

end Opstream
