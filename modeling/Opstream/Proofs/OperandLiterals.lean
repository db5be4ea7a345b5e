import Mathlib.Data.Nat.Digits.Defs
import Opstream.Proofs.InstructionText

namespace Opstream

theorem Decimal.value_eq_ofDigits (cs : List Char) :
    value cs = Nat.ofDigits 10 (cs.reverse.map fun c => c.toNat - '0'.toNat) := by
  rw [Nat.ofDigits_eq_foldr, List.foldr_map, List.foldr_reverse, value, Nat.ofDigitChars]
  congr 1
  funext n c
  exact Nat.add_comm ..

namespace Source

namespace Statement

open Text

section SingleOperand

variable {opcode : Opcode} {width : Nat} (hwidths : opcode.widths = [width]) (digits : String)

include hwidths

theorem instruction_of_single : (Statement.mk opcode.name [digits]).instruction =
    if Decimal.value digits.toList < UInt64.size then
      .ok ⟨opcode, [UInt64.ofNat (Decimal.value digits.toList)]⟩
    else .error (.operandOverflow opcode.name digits width) := by
  have harity : opcode.arity = 1 := by rw [Opcode.arity, hwidths, List.length_singleton]
  have hvalues : (Statement.mk opcode.name [digits]).values opcode =
      (value opcode.name width digits).map ([·]) := by
    rw [values, hwidths, List.zip_cons_cons, List.zip_nil_left, List.mapM_cons, List.mapM_nil]
    dsimp only
    cases value opcode.name width digits <;> rfl
  rw [instruction, Opcode.ofName?_name]
  dsimp only
  rw [harity, if_neg (not_not_intro (List.length_singleton)), hvalues, value]
  split <;> rfl

theorem refusal_of_single (v : Operand) (name : String) (k : Nat) :
    (Statement.mk opcode.name [digits]).refusal ⟨opcode, [v]⟩ (.operandOverflow name v k) =
      .operandOverflow opcode.name digits width := by
  simp [refusal, hwidths]

theorem encode_of_single_lt {v : Operand} (h : v.toNat < 256 ^ width) :
    ∃ code, (Instruction.mk opcode [v]).encode = .ok code := by
  have hholds : opcode.layout.Holds [v] := by
    rw [Layout.Holds, Opcode.layout, hwidths]
    exact .cons (Operand.fits_iff.2 h) .nil
  exact ⟨_, Layout.encode_of_holds hholds⟩

theorem encode_of_single_le {v : Operand} (h : 256 ^ width ≤ v.toNat) :
    (Instruction.mk opcode [v]).encode = .error (.operandOverflow opcode.name v width) := by
  have hfits : Operand.fits width v = false := by
    rw [Bool.eq_false_iff]
    exact fun hfits => Nat.not_lt.2 h (Operand.fits_iff.1 hfits)
  have hlen : [v].length = opcode.layout.arity := by
    rw [Layout.arity, Opcode.layout, hwidths]
    rfl
  have hover : opcode.layout.overflow? [v] = some (v, width) := by
    rw [Layout.overflow?, Opcode.layout, hwidths]
    simp [hfits]
  exact Layout.encode_eq_error_iff.2 (.inr ⟨hlen, v, width, hover, rfl⟩)

theorem check_of_single : (Statement.mk opcode.name [digits]).check.result =
    if Decimal.value digits.toList < 256 ^ width then
      .ok ⟨opcode, [UInt64.ofNat (Decimal.value digits.toList)]⟩
    else .error (.operandOverflow opcode.name digits width) := by
  have hmax : 256 ^ width ≤ UInt64.size := by
    have hwidth : width ≤ Operand.maxWidth :=
      opcode.width_le_maxWidth width (hwidths ▸ List.mem_singleton_self width)
    exact Nat.pow_le_pow_right (by decide) hwidth
  rw [result_check_eq, instruction_of_single hwidths]
  by_cases hsize : Decimal.value digits.toList < UInt64.size
  · have hword : (UInt64.ofNat (Decimal.value digits.toList)).toNat =
        Decimal.value digits.toList := UInt64.toNat_ofNat_of_lt hsize
    rw [if_pos hsize, Results.ok_bind]
    by_cases hfits : Decimal.value digits.toList < 256 ^ width
    · obtain ⟨code, hcode⟩ := encode_of_single_lt hwidths (hword.symm ▸ hfits)
      rw [hcode, if_pos hfits]
      rfl
    · rw [encode_of_single_le hwidths (hword.symm ▸ Nat.not_lt.1 hfits), if_neg hfits]
      exact congrArg Except.error (refusal_of_single hwidths digits _ _ _)
  · have hfits : ¬ Decimal.value digits.toList < 256 ^ width := fun h =>
      hsize (Nat.lt_of_lt_of_le h hmax)
    rw [if_neg hsize, if_neg hfits]
    rfl

end SingleOperand

theorem ofLine?_single (opcode : Opcode) {digits : List Char} (hne : digits ≠ [])
    (hdigits : ∀ c ∈ digits, c.isDigit = true) :
    ofLine? (opcode.name.toList ++ ' ' :: digits) =
      some (some ⟨opcode.name, [String.ofList digits]⟩) := by
  have hname : ∀ c ∈ opcode.name.toList, c.isAlphanum = true := fun _ =>
    Opcode.isAlphanum_of_mem_name
  have hstart : Stops isBlank (opcode.name.toList ++ ' ' :: digits) :=
    stops_append opcode.name_ne_nil (fun c hc => not_isBlank_of_isAlphanum (hname c hc)) _
  have hskip : skipOffset (opcode.name.toList ++ ' ' :: digits) =
      opcode.name.toList ++ ' ' :: digits := by
    apply skipOffset_of_stops
    intro c hc
    rw [List.head?_append_of_ne_nil _ opcode.name_ne_nil] at hc
    exact opcode.stops_digit_name c hc
  have hgap : run? isBlank (' ' :: digits) = some ([' '], digits) := by
    apply run?_space
    intro c hc
    exact not_isBlank_of_isDigit (hdigits c (List.mem_of_mem_head? hc))
  have hrun : run? Char.isDigit digits = some (digits, []) := by
    simpa using run?_append hne hdigits (stops_nil Char.isDigit)
  have hread : readOperand? (' ' :: digits) = some (digits, []) := by
    rw [readOperand?, hgap]
    exact hrun
  have hrest : readOperands (' ' :: digits) = ([digits], []) := by
    rw [readOperands_of_some hread, readOperands_of_none rfl]
  rw [ofLine?, hstart.dropWhile_eq,
    read?_of_name hskip opcode.name_ne_nil hname (stops_cons (by decide) digits), hrest,
    String.ofList_toList]
  rfl

end Statement

theorem parse_single {opcode : Opcode} {width : Nat} (hwidths : opcode.widths = [width])
    {digits : String} (hne : digits ≠ "") (hdigits : ∀ c ∈ digits.toList, c.isDigit = true) :
    parse (opcode.name ++ " " ++ digits) =
      if Decimal.value digits.toList < 256 ^ width then
        .ok [⟨opcode, [UInt64.ofNat (Decimal.value digits.toList)]⟩]
      else .error ⟨1, .operandOverflow opcode.name digits width⟩ := by
  have htext : (opcode.name ++ " " ++ digits).toList =
      opcode.name.toList ++ ' ' :: digits.toList := by
    simp
  have hnil : digits.toList ≠ [] := fun h => hne (String.toList_eq_nil_iff.1 h)
  have hnewline : '\n' ∉ (opcode.name ++ " " ++ digits).toList := by
    rw [htext]
    intro hm
    rcases List.mem_append.1 hm with hm | hm
    · exact absurd (Opcode.isAlphanum_of_mem_name hm) (by decide)
    · rcases List.mem_cons.1 hm with hm | hm
      · exact absurd hm (by decide)
      · exact absurd (hdigits _ hm) (by decide)
  have hline := Statement.ofLine?_single opcode hnil hdigits
  rw [← htext, String.ofList_toList] at hline
  have hresult : (readLine (opcode.name ++ " " ++ digits).toList).result =
      (Statement.mk opcode.name [digits]).check.result.map some := by
    rw [readLine, hline]
    exact Log.Traced.result_map some _
  have hparse := parse_line hnewline
  rw [String.ofList_toList, hresult, Statement.check_of_single hwidths] at hparse
  rw [hparse]
  split <;> rfl

/-- A literal stands for the number that its digits say, whatever their number. It is accepted
with that value, or refused as it was written. -/
theorem literal_judged_by_value (digits : String) (hne : digits ≠ "")
    (hdigits : ∀ c ∈ digits.toList, c.isDigit = true) (n : Nat)
    (hn : n = Nat.ofDigits 10 (digits.toList.reverse.map fun c => c.toNat - '0'.toNat)) :
    (∀ is, parse ("OpConstant " ++ digits) = .ok is ↔
      n < 256 ^ 2 ∧ ∃ v : Operand, v.toNat = n ∧ is = [⟨.constant, [v]⟩]) ∧
    (256 ^ 2 ≤ n →
      parse ("OpConstant " ++ digits) = .error ⟨1, .operandOverflow "OpConstant" digits 2⟩) := by
  have hparse : parse ("OpConstant " ++ digits) = _ :=
    parse_single (rfl : Opcode.constant.widths = [2]) hne hdigits
  rw [Decimal.value_eq_ofDigits, ← hn] at hparse
  rw [hparse]
  by_cases hfits : n < 256 ^ 2
  · have hword : (UInt64.ofNat n).toNat = n :=
      UInt64.toNat_ofNat_of_lt (Nat.lt_trans hfits (by decide))
    rw [if_pos hfits]
    refine ⟨fun is => ⟨fun h => ?_, ?_⟩, fun hle => absurd hfits (Nat.not_lt.2 hle)⟩
    · cases h
      exact ⟨hfits, _, hword, rfl⟩
    · rintro ⟨_, v, hv, rfl⟩
      rw [← hv, UInt64.ofNat_toNat]
  · rw [if_neg hfits]
    refine ⟨fun is => ⟨fun h => ?_, fun h => absurd h.1 hfits⟩, fun _ => rfl⟩
    cases h

theorem literal_judged_by_value_with_zeros :
    (∃ v : Operand, v.toNat = 65535 ∧
      parse "OpConstant 00000000000000000000065535" = .ok [⟨.constant, [v]⟩]) ∧
    parse "OpConstant 065536" = .error ⟨1, .operandOverflow "OpConstant" "065536" 2⟩ ∧
    parse "OpConstant 018446744073709551617" =
      .error ⟨1, .operandOverflow "OpConstant" "018446744073709551617" 2⟩ := by
  obtain ⟨haccept, _⟩ := literal_judged_by_value "00000000000000000000065535" (by decide)
    (List.all_eq_true.1 rfl) 65535 (by decide)
  obtain ⟨_, hslot⟩ := literal_judged_by_value "065536" (by decide) (List.all_eq_true.1 rfl) 65536
    (by decide)
  obtain ⟨_, hword⟩ := literal_judged_by_value "018446744073709551617" (by decide)
    (List.all_eq_true.1 rfl) 18446744073709551617 (by decide)
  refine ⟨⟨65535, rfl, (haccept _).2 ⟨by decide, 65535, rfl, rfl⟩⟩, hslot (by decide), ?_⟩
  exact hword (by decide)

end Source

end Opstream
