import Mathlib.Data.List.Forall2
import Mathlib.Tactic.Ring
import Opstream.Instruction

namespace Opstream

namespace BigEndian

theorem value_bytes (width n : Nat) : value (bytes width n) = n % 256 ^ width := by
  induction width generalizing n with
  | zero => simp [Nat.mod_one]
  | succ width ih =>
      have hb : (UInt8.ofNat n).toNat = n % 256 := by simp
      rw [bytes_succ, value_concat, ih, hb, Nat.pow_succ, Nat.mul_comm (256 ^ width), Nat.mod_mul]
      omega

theorem value_lt (bs : List UInt8) : value bs < 256 ^ bs.length := by
  rw [← bytes_value bs, value_bytes]
  simpa using Nat.mod_lt _ (Nat.pow_pos (by decide))

theorem value_append (bs cs : List UInt8) :
    value (bs ++ cs) = 256 ^ cs.length * value bs + value cs := by
  induction cs generalizing bs with
  | nil => simp
  | cons c cs ih =>
      have hc : value (c :: cs) = 256 ^ cs.length * c.toNat + value cs := by
        simpa [value] using ih [c]
      rw [List.append_cons, ih, value_concat, hc, List.length_cons, Nat.pow_succ]
      ring

theorem bytes_add (k m n : Nat) : bytes (k + m) n = bytes k (n / 256 ^ m) ++ bytes m n := by
  induction m generalizing n with
  | zero => simp
  | succ m ih =>
      rw [← Nat.add_assoc, bytes_succ, ih, bytes_succ m, ← List.append_assoc,
        Nat.div_div_eq_div_mul, Nat.pow_succ, Nat.mul_comm (256 ^ m)]

theorem bytes_of_zero (width : Nat) : bytes width 0 = List.replicate width 0 := by
  induction width with
  | zero => rfl
  | succ width ih => rw [bytes_succ, Nat.zero_div, ih, List.replicate_succ']; rfl

theorem bytes_of_lt {m n : Nat} (h : n < 256 ^ m) (k : Nat) :
    bytes (k + m) n = List.replicate k 0 ++ bytes m n := by
  rw [bytes_add, Nat.div_eq_of_lt h, bytes_of_zero]

end BigEndian

namespace Operand

theorem fits_iff {width : Nat} {v : Operand} : fits width v = true ↔ v.toNat < 256 ^ width := by
  have hv : v.toNat < 256 ^ maxWidth := v.toNat_lt
  have hshift : v.toNat >>> (8 * width) = v.toNat / 256 ^ width := by
    rw [Nat.shiftRight_eq_div_pow, Nat.pow_mul]
  have hpos : 0 < 256 ^ width := Nat.pow_pos (by decide)
  simp only [fits, hshift, Bool.or_eq_true, decide_eq_true_eq, beq_iff_eq,
    Nat.div_eq_zero_iff_lt hpos]
  constructor
  · rintro (h | h)
    · exact Nat.lt_of_lt_of_le hv (Nat.pow_le_pow_right (by decide) h)
    · exact h
  · exact Or.inr

theorem ofSlot_slot {width : Nat} {v : Operand} (h : fits width v = true) :
    ofSlot (slot width v) = v := by
  rw [ofSlot, slot, BigEndian.value_bytes, Nat.mod_eq_of_lt (fits_iff.1 h)]
  simp

theorem fits_ofSlot (bytes : List UInt8) : fits bytes.length (ofSlot bytes) = true := by
  rw [fits_iff, ofSlot]
  exact Nat.lt_of_le_of_lt (by simpa using Nat.mod_le _ _) (BigEndian.value_lt bytes)

/-- Where the slot of an operand begins, counted from the first slot. -/
def slotStart (widths : List Nat) (i : Nat) : Nat := (widths.take i).sum

/-- A byte of a slot wider than an operand, ahead of the bytes that hold the operand. -/
def IsPadding (widths : List Nat) (k : Nat) : Prop :=
  ∃ i < widths.length, slotStart widths i ≤ k ∧ k + maxWidth < slotStart widths (i + 1)

instance (widths : List Nat) : DecidablePred (IsPadding widths) := fun k =>
  inferInstanceAs (Decidable (∃ i < widths.length,
    slotStart widths i ≤ k ∧ k + maxWidth < slotStart widths (i + 1)))

def clearPadding (widths : List Nat) (bytes : List UInt8) : List UInt8 :=
  bytes.mapIdx fun k b => if IsPadding widths k then 0 else b

@[simp] theorem slotStart_zero (widths : List Nat) : slotStart widths 0 = 0 := by
  simp [slotStart]

@[simp] theorem slotStart_cons_succ (width : Nat) (widths : List Nat) (i : Nat) :
    slotStart (width :: widths) (i + 1) = width + slotStart widths i := by
  simp [slotStart]

theorem isPadding_cons_of_lt {width k : Nat} (h : k < width) (widths : List Nat) :
    IsPadding (width :: widths) k ↔ k + maxWidth < width := by
  constructor
  · rintro ⟨i, _, hstart, hend⟩
    cases i with
    | zero => simpa using hend
    | succ i =>
        rw [slotStart_cons_succ] at hstart
        omega
  · intro hk
    exact ⟨0, by simp, by simp, by simpa using hk⟩

theorem isPadding_cons_add (width : Nat) (widths : List Nat) (k : Nat) :
    IsPadding (width :: widths) (width + k) ↔ IsPadding widths k := by
  constructor
  · rintro ⟨i, hi, hstart, hend⟩
    cases i with
    | zero =>
        rw [slotStart_cons_succ, slotStart_zero] at hend
        omega
    | succ i =>
        rw [slotStart_cons_succ] at hstart hend
        exact ⟨i, by simpa using hi, by omega, by omega⟩
  · rintro ⟨i, hi, hstart, hend⟩
    refine ⟨i + 1, by simpa using hi, ?_, ?_⟩
    · rw [slotStart_cons_succ]; omega
    · rw [slotStart_cons_succ]; omega

theorem slotStart_succ {widths : List Nat} {i : Nat} (h : i < widths.length) :
    slotStart widths (i + 1) = slotStart widths i + widths[i] := by
  rw [slotStart, slotStart, ← List.take_append_getElem h, List.sum_append]
  simp

theorem not_isPadding {widths : List Nat} (h : ∀ width ∈ widths, width ≤ maxWidth) (k : Nat) :
    ¬ IsPadding widths k := by
  rintro ⟨i, hi, hstart, hend⟩
  have hwidth := h widths[i] (List.getElem_mem hi)
  rw [slotStart_succ hi] at hend
  omega

theorem toNat_ofSlot (bytes : List UInt8) :
    (ofSlot bytes).toNat = BigEndian.value (bytes.drop (bytes.length - maxWidth)) := by
  have hlast := BigEndian.value_lt (bytes.drop (bytes.length - maxWidth))
  have hsplit := BigEndian.value_append (bytes.take (bytes.length - maxWidth))
    (bytes.drop (bytes.length - maxWidth))
  rw [List.take_append_drop] at hsplit
  rw [ofSlot, UInt64.toNat_ofNat']
  by_cases h : bytes.length ≤ maxWidth
  · have hfront : bytes.length - maxWidth = 0 := Nat.sub_eq_zero_of_le h
    rw [hfront, List.drop_zero] at hlast ⊢
    exact Nat.mod_eq_of_lt (hlast.trans_le (Nat.pow_le_pow_right (by decide) h))
  -- What stands ahead of the last bytes is a multiple of the size of an operand.
  · have hlen : (bytes.drop (bytes.length - maxWidth)).length = maxWidth := by
      rw [List.length_drop]; omega
    have hsize : 2 ^ 64 = 256 ^ maxWidth := by decide
    rw [hlen] at hlast hsplit
    rw [hsplit, hsize, Nat.mul_add_mod]
    exact Nat.mod_eq_of_lt hlast

/-- Only the last `maxWidth` bytes of a slot come back when it is read and written again. -/
theorem slot_ofSlot (bytes : List UInt8) : slot bytes.length (ofSlot bytes) =
    bytes.mapIdx fun k b => if k + maxWidth < bytes.length then 0 else b := by
  have hlen : bytes.length - maxWidth + (bytes.drop (bytes.length - maxWidth)).length =
      bytes.length := by
    rw [List.length_drop]; omega
  have hslot := BigEndian.bytes_of_lt (BigEndian.value_lt (bytes.drop (bytes.length - maxWidth)))
    (bytes.length - maxWidth)
  rw [hlen, BigEndian.bytes_value, ← toNat_ofSlot] at hslot
  rw [slot, hslot]
  apply List.ext_getElem
  · rw [List.length_append, List.length_replicate, List.length_mapIdx]
    omega
  · intro k hk _
    rw [List.getElem_mapIdx, List.getElem_append]
    split
    next h =>
        rw [List.length_replicate] at h
        rw [if_pos (by omega), List.getElem_replicate]
    next h =>
        rw [List.length_replicate] at h
        rw [if_neg (by omega), List.getElem_drop]
        congr 1
        simp only [List.length_replicate]
        omega

theorem clearPadding_cons {front : List UInt8} {width : Nat} (h : front.length = width)
    (widths : List Nat) (rest : List UInt8) :
    clearPadding (width :: widths) (front ++ rest) =
      slot width (ofSlot front) ++ clearPadding widths rest := by
  subst h
  rw [clearPadding, List.mapIdx_append, slot_ofSlot, clearPadding]
  congr 1
  · apply List.ext_getElem
    · simp
    · intro k hk _
      rw [List.length_mapIdx] at hk
      simp only [List.getElem_mapIdx, isPadding_cons_of_lt hk]
  · simp only [Nat.add_comm _ front.length, isPadding_cons_add]

theorem clearPadding_eq_self_iff {widths : List Nat} {bytes : List UInt8} :
    clearPadding widths bytes = bytes ↔
      ∀ k b, bytes[k]? = some b → IsPadding widths k → b = 0 := by
  rw [clearPadding, List.mapIdx_eq_iff]
  constructor
  · intro h k b hb hk
    have hkb := h k
    rw [hb] at hkb
    simpa [hk] using hkb
  · intro h k
    cases hb : bytes[k]? with
    | none => rfl
    | some b =>
        by_cases hk : IsPadding widths k
        · simp [hk, h k b hb hk]
        · simp [hk]

theorem length_slots {widths : List Nat} {operands : List Operand}
    (h : operands.length = widths.length) : (slots widths operands).length = widths.sum := by
  induction widths generalizing operands with
  | nil => simp [slots]
  | cons width widths ih =>
      cases operands with
      | nil => simp at h
      | cons v operands =>
          have := @ih operands (by simpa using h)
          simp_all [slots]

theorem ofSlots_append {widths : List Nat} {front : List UInt8} (h : widths.sum ≤ front.length)
    (rest : List UInt8) : ofSlots widths (front ++ rest) = ofSlots widths front := by
  induction widths generalizing front with
  | nil => rfl
  | cons width widths ih =>
      rw [List.sum_cons] at h
      have hdrop : widths.sum ≤ (front.drop width).length := by
        rw [List.length_drop]; omega
      rw [ofSlots, ofSlots, List.take_append_of_le_length (by omega),
        List.drop_append_of_le_length (by omega), ih hdrop]

theorem ofSlots_slots {widths : List Nat} {operands : List Operand}
    (h : List.Forall₂ (fun width v => fits width v = true) widths operands) (rest : List UInt8) :
    ofSlots widths (slots widths operands ++ rest) = operands := by
  induction h with
  | nil => rfl
  | @cons width v widths operands hv _ ih =>
      have hcons : slots (width :: widths) (v :: operands) =
          slot width v ++ slots widths operands := rfl
      rw [hcons, ofSlots, List.append_assoc, List.take_left' (length_slot width v),
        List.drop_left' (length_slot width v), ofSlot_slot hv, ih]

theorem fits_ofSlots {widths : List Nat} {bytes : List UInt8} (h : widths.sum ≤ bytes.length) :
    List.Forall₂ (fun width v => fits width v = true) widths (ofSlots widths bytes) := by
  induction widths generalizing bytes with
  | nil => exact .nil
  | cons width widths ih =>
      rw [List.sum_cons] at h
      have htake : (bytes.take width).length = width := List.length_take_of_le (by omega)
      refine .cons ?_ (ih ?_)
      · simpa only [htake] using fits_ofSlot (bytes.take width)
      · rw [List.length_drop]; omega

theorem slots_ofSlots {widths : List Nat} {bytes : List UInt8} (h : bytes.length = widths.sum) :
    slots widths (ofSlots widths bytes) = clearPadding widths bytes := by
  induction widths generalizing bytes with
  | nil =>
      rw [List.eq_nil_of_length_eq_zero h]
      rfl
  | cons width widths ih =>
      rw [List.sum_cons] at h
      have htake : (bytes.take width).length = width := List.length_take_of_le (by omega)
      have hdrop : (bytes.drop width).length = widths.sum := by
        rw [List.length_drop]; omega
      have hclear := clearPadding_cons htake widths (bytes.drop width)
      rw [List.take_append_drop] at hclear
      rw [hclear, ← ih hdrop]
      rfl

end Operand

end Opstream
