import Opstream.Proofs.ListingText
import Opstream.Source.Statement

namespace Opstream

def Instruction.statement (i : Instruction) : Source.Statement :=
  ⟨i.opcode.name, i.operands.map fun v => v.toNat.repr⟩

namespace Text

/-- No run of such characters goes on into what follows. -/
def Stops (p : Char → Bool) (rest : List Char) : Prop := ∀ c ∈ rest.head?, p c = false

theorem stops_nil (p : Char → Bool) : Stops p [] := by
  intro c hc
  cases hc

theorem stops_cons {p : Char → Bool} {c : Char} (h : p c = false) (rest : List Char) :
    Stops p (c :: rest) := by
  intro d hd
  cases hd
  exact h

theorem stops_append {p : Char → Bool} {run : List Char} (hne : run ≠ [])
    (h : ∀ c ∈ run, p c = false) (rest : List Char) : Stops p (run ++ rest) := by
  intro c hc
  rw [List.head?_append_of_ne_nil _ hne] at hc
  exact h c (List.mem_of_mem_head? hc)

theorem Stops.dropWhile_eq {p : Char → Bool} {rest : List Char} (h : Stops p rest) :
    rest.dropWhile p = rest := by
  cases rest with
  | nil => rfl
  | cons c rest => rw [List.dropWhile_cons, h c rfl]; rfl

def strip (p : Char → Bool) (cs : List Char) : List Char :=
  ((cs.dropWhile p).reverse.dropWhile p).reverse

theorem strip_eq_self {p : Char → Bool} {cs : List Char} (hfront : Stops p cs)
    (hback : Stops p cs.reverse) : strip p cs = cs := by
  rw [strip, hfront.dropWhile_eq, hback.dropWhile_eq, List.reverse_reverse]

theorem strip_append_left {p : Char → Bool} {cs gap : List Char}
    (h : ∀ c ∈ gap, p c = true) : strip p (gap ++ cs) = strip p cs := by
  rw [strip, List.dropWhile_append_of_pos h, strip]

theorem strip_append_right {p : Char → Bool} {cs gap : List Char}
    (h : ∀ c ∈ gap, p c = true) : strip p (cs ++ gap) = strip p cs := by
  have hrev : ∀ c ∈ gap.reverse, p c = true := fun c hc => h c (List.mem_reverse.1 hc)
  by_cases hcs : (cs.dropWhile p).isEmpty = true
  · have hgap : gap.dropWhile p = [] := by
      have hsplit : (gap ++ []).dropWhile p = [].dropWhile p := List.dropWhile_append_of_pos h
      rwa [List.append_nil, List.dropWhile_nil] at hsplit
    rw [strip, List.dropWhile_append, if_pos hcs, hgap, strip, List.isEmpty_iff.1 hcs]
  · rw [strip, List.dropWhile_append, if_neg hcs, List.reverse_append,
      List.dropWhile_append_of_pos hrev, strip]

theorem stops_operandsText {p : Char → Bool} (h : p ' ' = false) (operands : List Operand) :
    Stops p (operandsText operands) := by
  cases operands with
  | nil => exact stops_nil p
  | cons v operands => exact stops_cons h _

end Text

namespace Source.Statement

open Text

theorem run?_of_stops {p : Char → Bool} {rest : List Char} (h : Stops p rest) :
    run? p rest = none := by
  cases rest with
  | nil => rfl
  | cons c rest => rw [run?, List.takeWhile_cons, h c rfl]; rfl

theorem run?_append {p : Char → Bool} {run rest : List Char} (hne : run ≠ [])
    (hrun : ∀ c ∈ run, p c = true) (hstop : Stops p rest) :
    run? p (run ++ rest) = some (run, rest) := by
  have htake : rest.takeWhile p = [] := by
    have hsplit := List.takeWhile_append_dropWhile (p := p) (l := rest)
    rw [hstop.dropWhile_eq] at hsplit
    exact List.append_left_eq_self.1 hsplit
  refine run?_eq_some_iff.2 ⟨hne, ?_, ?_⟩
  · rw [List.takeWhile_append_of_pos hrun, htake, List.append_nil]
  · rw [List.dropWhile_append_of_pos hrun, hstop.dropWhile_eq]

theorem run?_space {rest : List Char} (h : Stops isBlank rest) :
    run? isBlank (' ' :: rest) = some ([' '], rest) := by
  change run? isBlank ([' '] ++ rest) = _
  exact run?_append (by simp) (List.all_eq_true.1 rfl) h

theorem not_isBlank_of_isAlphanum {c : Char} (h : c.isAlphanum = true) : isBlank c = false := by
  rw [isBlank, Bool.or_eq_false_iff, beq_eq_false_iff_ne, beq_eq_false_iff_ne]
  constructor
  · exact ne_of_apart h rfl
  · exact ne_of_apart h rfl

theorem not_isBlank_of_isDigit {c : Char} (h : c.isDigit = true) : isBlank c = false :=
  not_isBlank_of_isAlphanum (isAlphanum_of_isDigit h)

theorem readOperand?_digits (n : Nat) {rest : List Char} (h : Stops Char.isDigit rest) :
    readOperand? (' ' :: (Decimal.digits n ++ rest)) = some (Decimal.digits n, rest) := by
  have hdigit : ∀ c ∈ Decimal.digits n, c.isDigit = true := fun _ => Decimal.isDigit_of_mem_digits
  have hstop : Stops isBlank (Decimal.digits n ++ rest) :=
    stops_append (Decimal.digits_ne_nil n) (fun c hc => not_isBlank_of_isDigit (hdigit c hc)) rest
  rw [readOperand?, run?_space hstop]
  exact run?_append (Decimal.digits_ne_nil n) hdigit h

theorem readOperands_operandsText (operands : List Operand) :
    readOperands (operandsText operands) =
      (operands.map fun v => Decimal.digits v.toNat, []) := by
  induction operands with
  | nil => exact readOperands_of_none rfl
  | cons v operands ih =>
      have hread : readOperand? (operandsText (v :: operands)) =
          some (Decimal.digits v.toNat, operandsText operands) :=
        readOperand?_digits v.toNat (stops_operandsText (by decide) operands)
      rw [readOperands_of_some hread, ih]
      rfl

theorem read?_of_name {cs name rest : List Char} (h : skipOffset cs = name ++ rest)
    (hne : name ≠ []) (hname : ∀ c ∈ name, c.isAlphanum = true)
    (hstop : Stops Char.isAlphanum rest) :
    read? cs = some (⟨String.ofList name, (readOperands rest).1.map String.ofList⟩,
      (readOperands rest).2) := by
  rw [read?, h, run?_append hne hname hstop]

theorem read?_of_skipOffset {cs : List Char} {i : Instruction}
    (h : skipOffset cs = i.text.toList) : read? cs = some (i.statement, []) := by
  rw [Instruction.toList_text] at h
  rw [read?_of_name h i.opcode.name_ne_nil (fun _ => Opcode.isAlphanum_of_mem_name)
    (stops_operandsText (by decide) _), readOperands_operandsText, String.ofList_toList,
    List.map_map]
  rfl

theorem skipOffset_of_stops {cs : List Char} (h : Stops Char.isDigit cs) : skipOffset cs = cs := by
  rw [skipOffset, run?_of_stops h]

theorem skipOffset_padded (width n : Nat) {rest : List Char} (h : Stops isBlank rest) :
    skipOffset ((Decimal.padded width n).toList ++ ' ' :: rest) = rest := by
  have hoffset := run?_append (padded_ne_nil width n) (fun _ => isDigit_of_mem_padded)
    (stops_cons (by decide : Char.isDigit ' ' = false) rest)
  rw [skipOffset, hoffset]
  dsimp only
  rw [run?_space h]

theorem stops_text (i : Instruction) : Stops isBlank i.text.toList := by
  rw [Instruction.toList_text]
  exact stops_append i.opcode.name_ne_nil
    (fun _ hc => not_isBlank_of_isAlphanum (Opcode.isAlphanum_of_mem_name hc)) _

/-- A line of a listing is read as the instruction that it was written for. -/
theorem ofLine?_listed (offset : Nat) (i : Instruction) :
    ofLine? (offsetText offset ++ " " ++ i.text).toList = some (some i.statement) := by
  have hline : (offsetText offset ++ " " ++ i.text).toList =
      (Decimal.padded 4 offset).toList ++ ' ' :: i.text.toList := by
    simp [offsetText]
  have hstart : Stops isBlank ((Decimal.padded 4 offset).toList ++ ' ' :: i.text.toList) :=
    stops_append (padded_ne_nil 4 offset)
      (fun _ hc => not_isBlank_of_isDigit (isDigit_of_mem_padded hc)) _
  have hskip := skipOffset_padded 4 offset (stops_text i)
  rw [hline, ofLine?, hstart.dropWhile_eq, read?_of_skipOffset hskip]
  rfl

theorem ofLine?_error (message : String) : ofLine? ("ERROR: " ++ message).toList = none := by
  have hline : ("ERROR: " ++ message).toList =
      ['E', 'R', 'R', 'O', 'R'] ++ ':' :: ' ' :: message.toList := by
    rw [String.toList_append]
    rfl
  have hstart : Stops isBlank (['E', 'R', 'R', 'O', 'R'] ++ ':' :: ' ' :: message.toList) :=
    stops_cons (by decide) _
  have hskip : Stops Char.isDigit (['E', 'R', 'R', 'O', 'R'] ++ ':' :: ' ' :: message.toList) :=
    stops_cons (by decide) _
  have hoperands : readOperand? (':' :: ' ' :: message.toList) = none := rfl
  have hread := read?_of_name (skipOffset_of_stops hskip) (by simp) (List.all_eq_true.1 rfl)
    (stops_cons (by decide) _)
  rw [readOperands_of_none hoperands] at hread
  rw [hline, ofLine?, hstart.dropWhile_eq, hread]
  rfl

end Source.Statement

end Opstream
