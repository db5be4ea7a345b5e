import Opstream.InPlace
import Opstream.Proofs.LayoutRoundTrip

namespace Opstream

namespace Memory

theorem foldlM_add? {ns : List Nat} {n : Nat} (h : n + ns.sum < wordSize) :
    ns.foldlM add? n = some (n + ns.sum) := by
  induction ns generalizing n with
  | nil => rfl
  | cons m ns ih =>
      rw [List.sum_cons, ← Nat.add_assoc] at h
      have hsum : add? n m = some (n + m) := add?_of_lt (by omega)
      rw [List.foldlM_cons, hsum]
      change List.foldlM add? (n + m) ns = _
      rw [ih h, List.sum_cons, Nat.add_assoc]

theorem sum?_of_lt {ns : List Nat} (h : ns.sum < wordSize) : sum? ns = some ns.sum := by
  have hzero : 0 + ns.sum < wordSize := by rwa [Nat.zero_add]
  rw [sum?, foldlM_add? hzero, Nat.zero_add]

end Memory

open Memory

namespace Operand

theorem fits?_eq (width : Nat) (v : Operand) : fits? width v = some (fits width v) := by
  by_cases hzero : width = 0
  · subst hzero
    have heq : (v == 0) = fits 0 v := by
      rw [Bool.eq_iff_iff, fits_iff, beq_iff_eq, ← UInt64.toNat_inj]
      simp
    rw [fits?, if_pos rfl, heq]
  · rw [fits?, if_neg hzero]
    by_cases hwide : maxWidth ≤ width
    · rw [if_pos hwide, fits, decide_eq_true hwide, Bool.true_or]
    · have hshift : 8 * width < 64 := by
        rw [maxWidth] at hwide
        omega
      have hcount : (UInt64.ofNat (8 * width)).toNat = 8 * width :=
        UInt64.toNat_ofNat_of_lt (Nat.lt_trans hshift (by decide))
      have hhigh : (v >>> UInt64.ofNat (8 * width)).toNat = v.toNat >>> (8 * width) := by
        rw [UInt64.toNat_shiftRight, hcount, Nat.mod_eq_of_lt hshift]
      have heq : (v >>> UInt64.ofNat (8 * width) == 0) = fits width v := by
        rw [fits, decide_eq_false hwide, Bool.false_or, Bool.eq_iff_iff, beq_iff_eq, beq_iff_eq,
          ← UInt64.toNat_inj, hhigh]
        rfl
      rw [if_neg hwide, shiftRight?, if_pos hshift]
      exact congrArg some heq

theorem write?_zeros {width : Nat} {v : Operand} (h : fits width v = true) :
    write? (List.replicate width 0) v = some (slot width v) := by
  rw [write?, List.length_replicate]
  by_cases hzero : width = 0
  · subst hzero
    rfl
  · rw [if_neg hzero]
    by_cases hwide : maxWidth < width
    · have hsplit : width = (width - maxWidth) + maxWidth := (Nat.sub_add_cancel hwide.le).symm
      have hwrite : writeUInt64? (List.replicate maxWidth 0) v =
          some (BigEndian.bytes maxWidth v.toNat) := rfl
      have hupdate := update?_middle (writeUInt64? · v) hwrite
        (List.replicate (width - maxWidth) 0) []
      rw [List.append_nil, List.append_nil, List.replicate_append_replicate, List.length_replicate,
        List.length_replicate, ← hsplit] at hupdate
      have hv : v.toNat < 256 ^ maxWidth := v.toNat_lt
      have hslot := BigEndian.bytes_of_lt hv (width - maxWidth)
      rw [if_pos hwide, hupdate, slot, ← hslot]
      exact congrArg (fun n => some (BigEndian.bytes n v.toNat)) hsplit.symm
    · have hwidth : width ≤ 8 := Nat.not_lt.1 hwide
      rw [if_neg hwide, writeUInt?, List.length_replicate,
        if_pos ⟨⟨Nat.pos_of_ne_zero hzero, hwidth⟩, fits_iff.1 h, Nat.le_refl _⟩,
        List.drop_of_length_le (List.length_replicate ..).le, List.append_nil, slot]

theorem read?_eq {bytes : List UInt8} {width : Nat} (h : width ≤ bytes.length) :
    read? bytes width = some (ofSlot (bytes.take width)) := by
  have htake : (bytes.take width).length = width := List.length_take_of_le h
  rw [read?]
  by_cases hzero : width = 0
  · subst hzero
    rfl
  · rw [if_neg hzero]
    by_cases hwide : maxWidth < width
    · have hlast : ((bytes.take width).drop (width - maxWidth)).length = 8 := by
        rw [List.length_drop, htake]
        exact Nat.sub_sub_self hwide.le
      have hvalue : UInt64.ofNat (BigEndian.value ((bytes.take width).drop (width - maxWidth))) =
          ofSlot (bytes.take width) := by
        have hlt := BigEndian.value_lt ((bytes.take width).drop (width - maxWidth))
        rw [hlast] at hlt
        rw [← UInt64.toNat_inj, toNat_ofSlot, htake]
        exact UInt64.toNat_ofNat_of_lt hlt
      rw [if_pos hwide, slice?_of_le (Nat.sub_le ..) h]
      change readUInt64? _ = _
      rw [readUInt64?, if_pos hlast.ge, List.take_of_length_le hlast.le, hvalue]
    · rw [if_neg hwide, readUInt?, if_pos ⟨⟨Nat.pos_of_ne_zero hzero, Nat.not_lt.1 hwide⟩, h⟩]
      rfl

end Operand

namespace Layout

/-- What is behind the slots that are done is zero, and as long as the slots that are left. -/
theorem fillSlots?_eq (name : String) (slots : List (Operand × Nat)) (done : List UInt8)
    (h : done.length + (slots.map Prod.snd).sum < wordSize) :
    fillSlots? name slots done.length
        (done ++ List.replicate (slots.map Prod.snd).sum 0) =
      some (match slots.find? (fun (v, width) => !Operand.fits width v) with
        | some (v, width) => .error (.operandOverflow name v width)
        | none => .ok (done ++ slots.flatMap fun (v, width) => Operand.slot width v)) := by
  induction slots generalizing done with
  | nil => simp [fillSlots?]
  | cons slot slots ih =>
      obtain ⟨v, width⟩ := slot
      rw [List.map_cons, List.sum_cons, ← Nat.add_assoc] at h
      rw [fillSlots?, Operand.fits?_eq, List.map_cons, List.sum_cons]
      cases hfits : Operand.fits width v with
      | false => simp [hfits]
      | true =>
          have hadd : add? done.length width = some (done.length + width) :=
            add?_of_lt (by omega)
          have hupdate := update?_middle (Operand.write? · v) (Operand.write?_zeros hfits) done
            (List.replicate (slots.map Prod.snd).sum 0)
          rw [List.length_replicate, List.append_assoc, List.replicate_append_replicate] at hupdate
          have hmore := ih (done ++ Operand.slot width v) (by simpa using h)
          rw [List.length_append, Operand.length_slot] at hmore
          simp only [Option.bind_eq_bind, Option.bind_some, if_true, hadd, hupdate, hmore,
            List.find?_cons, hfits, Bool.not_true, List.flatMap_cons]
          rw [List.append_assoc]

theorem operandsWidth?_of_lt {layout : Layout} (h : layout.operandsWidth < wordSize) :
    layout.operandsWidth? = some layout.operandsWidth :=
  sum?_of_lt h

theorem width?_of_lt {layout : Layout} (h : layout.width < wordSize) :
    layout.width? = some layout.width := by
  have hregion : layout.operandsWidth < wordSize := Nat.lt_of_le_of_lt (Nat.le_add_left ..) h
  rw [width?, operandsWidth?_of_lt hregion]
  exact add?_of_lt h

variable {layout : Layout} {operands : List Operand}

theorem fillSlots?_tag (hlen : operands.length = layout.arity) (h : layout.width < wordSize) :
    fillSlots? layout.name (operands.zip layout.widths) 1
        (layout.opcode.tag :: List.replicate layout.operandsWidth 0) =
      some (layout.encode operands) := by
  have hwidths : (operands.zip layout.widths).map Prod.snd = layout.widths :=
    List.map_snd_zip hlen.ge
  have hfill := fillSlots?_eq layout.name (operands.zip layout.widths) [layout.opcode.tag]
    (by rw [hwidths]; exact h)
  have hslots : (operands.zip layout.widths).flatMap (fun (v, width) => Operand.slot width v) =
      Operand.slots layout.widths operands := by
    rw [Operand.slots, List.flatMap_def, List.zipWith_comm, List.map_zip_eq_zipWith]
    rfl
  rw [hwidths, hslots] at hfill
  rw [encode, if_neg (not_not_intro hlen)]
  exact hfill

theorem encodeInPlace?_of_ne (h : operands.length ≠ layout.arity) :
    layout.encodeInPlace? operands = some (layout.encode operands) := by
  rw [encodeInPlace?, encode, if_pos h, if_pos h]

theorem encodeInPlace?_of_le (h : layout.width ≤ maxSize) (operands : List Operand) :
    layout.encodeInPlace? operands = some (layout.encode operands) := by
  by_cases hlen : operands.length = layout.arity
  · have hword : layout.width < wordSize := Nat.lt_of_le_of_lt h (by decide)
    have hbuffer : set? (List.replicate layout.width 0) 0 layout.opcode.tag =
        some (layout.opcode.tag :: List.replicate layout.operandsWidth 0) := by
      rw [width, Nat.add_comm, List.replicate_succ]
      exact if_pos (Nat.succ_pos _)
    rw [encodeInPlace?, if_neg (not_not_intro hlen), width?_of_lt hword]
    simp only [Option.bind_eq_bind, Option.bind_some, zeros?_of_le h, hbuffer]
    exact fillSlots?_tag hlen hword
  · exact encodeInPlace?_of_ne hlen

/-- There is no buffer for a larger instruction, not even to find out that an operand does not
fit. -/
theorem encodeInPlace?_of_lt (hlen : operands.length = layout.arity) (h : maxSize < layout.width)
    (hword : layout.width < wordSize) : layout.encodeInPlace? operands = none := by
  rw [encodeInPlace?, if_neg (not_not_intro hlen), width?_of_lt hword]
  simp only [Option.bind_eq_bind, Option.bind_some, zeros?_of_lt h, Option.bind_none]

/-- A slot of no byte and an operand that does not fit it. The slots behind it make the width of
the instruction fit a word, but no buffer. -/
theorem oversized_has_no_buffer :
    Layout.width ⟨.constant, "Wide", 0 :: List.replicate 1025 9007199254740991⟩ < wordSize ∧
    Layout.encodeInPlace? ⟨.constant, "Wide", 0 :: List.replicate 1025 9007199254740991⟩
      (1 :: List.replicate 1025 0) = none ∧
    Layout.encode ⟨.constant, "Wide", 0 :: List.replicate 1025 9007199254740991⟩
      (1 :: List.replicate 1025 0) = .error (.operandOverflow "Wide" 1 0) := by
  decide +kernel

theorem readSlots?_eq {bytes : List UInt8} {widths : List Nat} {start : Nat}
    (hbytes : start + widths.sum ≤ bytes.length) (hword : start + widths.sum < wordSize) :
    readSlots? bytes widths start =
      some (Operand.ofSlots widths (bytes.drop start), start + widths.sum) := by
  induction widths generalizing start with
  | nil => rfl
  | cons width widths ih =>
      rw [List.sum_cons, ← Nat.add_assoc] at hbytes hword
      have hspan : sliceFrom? bytes start = some (bytes.drop start) := sliceFrom?_of_le (by omega)
      have hread := Operand.read?_eq (show width ≤ (bytes.drop start).length by
        rw [List.length_drop]
        omega)
      have hadd : add? start width = some (start + width) := add?_of_lt (by omega)
      simp only [readSlots?, Option.bind_eq_bind, Option.bind_some, hspan, hread, hadd,
        ih hbytes hword, Operand.ofSlots, List.drop_drop, List.sum_cons, Nat.add_assoc]

theorem decodeInPlace?_eq {layout : Layout} (h : layout.operandsWidth < wordSize)
    (bytes : List UInt8) : layout.decodeInPlace? bytes = some (layout.decode bytes) := by
  rw [decodeInPlace?, operandsWidth?_of_lt h, decode]
  simp only [Option.bind_eq_bind, Option.bind_some]
  by_cases hlt : bytes.length < layout.operandsWidth
  · rw [if_pos hlt, if_pos hlt]
  · have hzero : 0 + layout.widths.sum = layout.operandsWidth := Nat.zero_add _
    have hread := readSlots?_eq (hzero ▸ Nat.not_lt.1 hlt) (hzero.symm ▸ h)
    rw [hzero, List.drop_zero] at hread
    rw [if_neg hlt, if_neg hlt, hread]
    rfl

end Layout

end Opstream
