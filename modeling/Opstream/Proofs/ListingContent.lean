import Opstream.Proofs.ListingDecoding

namespace Opstream

/-- No two opcodes have operands of the same size, so that an instruction that is cut short can be
told by the bytes that it needs. -/
theorem Opcode.eq_of_operandsWidth {a b : Opcode}
    (h : a.layout.operandsWidth = b.layout.operandsWidth) : a = b := by
  cases a; cases b; rfl

theorem Opcode.operandsWidth_le_two (opcode : Opcode) : opcode.layout.operandsWidth ≤ 2 := by
  cases opcode; decide

/-- The words in which a listing tells an item. -/
inductive Worded : Except Fault Decoded → List String → Prop
  | instruction (offset : Nat) {i : Instruction} {code : List UInt8} (h : i.encode = .ok code) :
      Worded (.ok ⟨offset, i, code.length⟩)
        (offsetText offset :: i.opcode.name :: i.operands.map fun v => v.toNat.repr)
  | undefined (offset : Nat) (tag : UInt8) :
      Worded (.error (.malformed offset (.undefinedOpcode tag)))
        ["ERROR:", "opcode", tag.toNat.repr, "undefined", "at", offsetText offset]
  | truncated (offset needed available : Nat) :
      Worded (.error (.malformed offset (.truncated needed available)))
        ["ERROR:", "truncated", "instruction:", "needed", needed.repr, "bytes", "but", "only",
          available.repr, "remain", "at", offsetText offset]

theorem repr_injective : Function.Injective Nat.repr := by
  intro m n h
  apply Decimal.digits_injective
  rw [← Decimal.toList_repr, h, Decimal.toList_repr]

theorem offsetText_injective : Function.Injective offsetText := by
  intro m n h
  rw [← Decimal.value_padded 4 m, ← Decimal.value_padded 4 n]
  exact congrArg (fun text : String => Decimal.value text.toList) h

theorem offsetText_ne_error (offset : Nat) : offsetText offset ≠ "ERROR:" := by
  intro h
  have hcolon : ':' ∈ (offsetText offset).toList := by
    rw [h]
    decide
  exact absurd (Text.isDigit_of_mem_padded hcolon) (by decide)

theorem Opcode.name_injective {a b : Opcode} (h : a.name = b.name) : a = b := by
  have hname : some a = some b := by rw [← ofName?_name a, h, ofName?_name]
  exact Option.some.inj hname

theorem Instruction.eq_of_words {i j : Instruction} (hname : i.opcode.name = j.opcode.name)
    (hoperands : (i.operands.map fun v => v.toNat.repr) = j.operands.map fun v => v.toNat.repr) :
    i = j := by
  have hrepr : Function.Injective fun v : Operand => v.toNat.repr :=
    fun _ _ h => UInt64.toNat_inj.1 (repr_injective h)
  obtain ⟨opcode, operands⟩ := i
  obtain ⟨opcode', operands'⟩ := j
  obtain rfl := Opcode.name_injective hname
  obtain rfl := List.map_injective_iff.2 hrepr hoperands
  rfl

theorem intercalate_cons (separator word : String) (words : List String) :
    separator.intercalate (word :: words) = word ++ String.join (words.map (separator ++ ·)) := by
  induction words generalizing word with
  | nil => simp
  | cons next words ih => rw [String.intercalate_cons_cons, ih]; simp [String.append_assoc]

namespace Worded

variable {a b : Except Fault Decoded} {words more : List String}

theorem eq_of_words (ha : Worded a words) (hb : Worded b more) (h : words = more) : a = b := by
  cases ha with
  | @instruction offset i code hi =>
      cases hb with
      | @instruction place j code' hj =>
          injection h with hoffset h
          injection h with hname hoperands
          obtain rfl := Instruction.eq_of_words hname hoperands
          rw [hi] at hj
          cases hj
          rw [offsetText_injective hoffset]
      | undefined | truncated =>
          injection h with hoffset
          exact absurd hoffset (offsetText_ne_error offset)
  | undefined offset tag =>
      cases hb with
      | instruction place hj =>
          injection h with hoffset
          exact absurd hoffset.symm (offsetText_ne_error place)
      | undefined place tag' =>
          simp only [List.cons.injEq, true_and, and_true] at h
          rw [offsetText_injective h.2, UInt8.toNat_inj.1 (repr_injective h.1)]
      | truncated => simp at h
  | truncated offset needed available =>
      cases hb with
      | instruction place hj =>
          injection h with hoffset
          exact absurd hoffset.symm (offsetText_ne_error place)
      | undefined => simp at h
      | truncated place needed' available' =>
          simp only [List.cons.injEq, true_and, and_true] at h
          obtain ⟨hneeded, havailable, hoffset⟩ := h
          rw [offsetText_injective hoffset, repr_injective hneeded, repr_injective havailable]

theorem leftUnique : Relator.LeftUnique Worded := fun _ _ _ ha hb => ha.eq_of_words hb rfl

theorem ne_nil (h : Worded a words) : words ≠ [] := by
  cases h <;> exact List.cons_ne_nil _ _

theorem itemLine_eq (h : Worded a words) : itemLine a = " ".intercalate words := by
  apply String.toList_injective
  cases h with
  | @instruction offset i code hi =>
      rw [itemLine, String.toList_append, Instruction.toList_text]
      simp [intercalate_cons, offsetText, operandsText, List.flatMap_map, Decimal.digits]
  | undefined offset tag =>
      change ("ERROR: " ++ ("opcode " ++ tag.toNat.repr ++ " undefined" ++ " at " ++
        offsetText offset)).toList = _
      simp
  | truncated offset needed available =>
      change ("ERROR: " ++ ("truncated instruction: needed " ++ needed.repr ++
        " bytes but only " ++ available.repr ++ " remain" ++ " at " ++
        offsetText offset)).toList = _
      simp

theorem space_not_mem (h : Worded a words) : ∀ word ∈ words, ' ' ∉ word.toList := by
  have hoffset : ∀ offset, ' ' ∉ (offsetText offset).toList := fun offset hm =>
    absurd (Text.isDigit_of_mem_padded hm) (by decide)
  have hdigits : ∀ n, ' ' ∉ Nat.toDigits 10 n := fun n hm =>
    absurd (Decimal.isDigit_of_mem_digits hm) (by decide)
  cases h with
  | @instruction offset i code hi =>
      have hname : ' ' ∉ i.opcode.name.toList := fun hm =>
        absurd (Opcode.isAlphanum_of_mem_name hm) (by decide)
      simp [hoffset, hname, hdigits]
  | undefined offset tag =>
      simp [hoffset, hdigits]
  | truncated offset needed available => simp [hoffset, hdigits]

end Worded

theorem exists_worded {bytes : List UInt8} {s : Segment} (hs : s ∈ walk bytes) :
    ∃ words, Worded s.item words := by
  rcases content_of_mem_walk hs with ⟨i, hi, _⟩ | ⟨tag, htag⟩ | ⟨needed, available, hcut⟩
  · rw [Segment.item, hi]
    exact ⟨_, .instruction s.offset (encode_of_mem_walk hs hi)⟩
  · rw [Segment.item, htag]
    exact ⟨_, .undefined s.offset tag⟩
  · rw [Segment.item, hcut]
    exact ⟨_, .truncated s.offset needed available⟩

namespace Listing

def readWords (text : String) : List (List String) :=
  (Text.lines text.toList).map fun line => (line.splitOn ' ').map String.ofList

theorem forall₂_worded (bytes : List UInt8) :
    List.Forall₂ Worded (items bytes) (readWords (text bytes)) := by
  rw [readWords, lines_text_eq_map, List.map_map, items, List.map_map, List.forall₂_map_left_iff,
    List.forall₂_map_right_iff, List.forall₂_same]
  intro s hs
  obtain ⟨words, hwords⟩ := exists_worded hs
  have hline : (itemLine s.item).toList = [' '].intercalate (words.map String.toList) := by
    rw [hwords.itemLine_eq, String.toList_intercalate]
    rfl
  have hsplit : (itemLine s.item).toList.splitOn ' ' = words.map String.toList := by
    rw [hline]
    apply List.splitOn_intercalate
    · exact List.forall_mem_map.2 hwords.space_not_mem
    · simpa using hwords.ne_nil
  have hread : ((itemLine s.item).toList.splitOn ' ').map String.ofList = words := by
    rw [hsplit, List.map_map]
    simp [Function.comp_def]
  change Worded s.item (((itemLine s.item).toList.splitOn ' ').map String.ofList)
  rw [hread]
  exact hwords

theorem text_eq_iff {a b : List UInt8} : text a = text b ↔ items a = items b := by
  constructor
  · intro h
    have ha := forall₂_worded a
    rw [h] at ha
    exact Worded.leftUnique.forall₂ ha (forall₂_worded b)
  · intro h
    rw [text_eq_join, h, text_eq_join]

end Listing

/-- The last instruction has its tag and one byte for its operands. A listing tells that the byte
is there, but not which one it is. -/
def HidesLast (bytes : List UInt8) : Prop :=
  ∃ offset needed, (items bytes).getLast? = some (.error (.malformed offset (.truncated needed 1)))

namespace Segment

theorem content_eq_of_item_eq {s t : Segment} (h : s.item = t.item) : s.content = t.content := by
  cases hs : s.content with
  | ok i =>
      rw [item, hs] at h
      exact (item_eq_ok h.symm).1.symm
  | error fault =>
      rw [item, hs] at h
      obtain ⟨source, hsource⟩ := item_eq_error h.symm
      rw [item, hsource] at h
      injection h with hfault
      injection hfault with _ hfault
      rw [hsource, hfault]

variable {offset : Nat} {tag tag' : UInt8} {rest rest' : List UInt8}

theorem bytes_of_item_eq (h : (cut offset tag rest).item = (cut offset tag' rest').item) :
    (cut offset tag rest).bytes = (cut offset tag' rest').bytes ∨
      ∃ x y needed, tag = tag' ∧ rest = [x] ∧ rest' = [y] ∧
        (cut offset tag rest).item = .error (.malformed offset (.truncated needed 1)) := by
  have hcontent := content_eq_of_item_eq h
  rcases cut_cases offset tag rest with ⟨_, hcut⟩ | ⟨opcode, rfl, hlt, hcut⟩ | ⟨_, _, _, hcut⟩
  · rw [hcut] at hcontent ⊢
    rcases cut_cases offset tag' rest' with ⟨_, hcut'⟩ | ⟨_, _, _, hcut'⟩ | ⟨_, _, _, hcut'⟩
    · rw [hcut'] at hcontent ⊢
      cases hcontent
      exact .inl rfl
    · rw [hcut'] at hcontent
      cases hcontent
    · rw [hcut'] at hcontent
      cases hcontent
  · rw [hcut] at hcontent ⊢
    rcases cut_cases offset tag' rest' with ⟨_, hcut'⟩ | ⟨opcode', rfl, _, hcut'⟩ | ⟨_, _, _, hcut'⟩
    · rw [hcut'] at hcontent
      cases hcontent
    · rw [hcut'] at hcontent ⊢
      injection hcontent with hfault
      injection hfault with hneeded havailable
      obtain rfl := Opcode.eq_of_operandsWidth hneeded
      have htwo := opcode.operandsWidth_le_two
      by_cases hempty : rest.length = 0
      · rw [List.length_eq_zero_iff.1 hempty,
          List.length_eq_zero_iff.1 (havailable.symm.trans hempty)]
        exact .inl rfl
      · have hone : rest.length = 1 := by omega
        obtain ⟨x, rfl⟩ := List.length_eq_one_iff.1 hone
        obtain ⟨y, rfl⟩ := List.length_eq_one_iff.1 havailable.symm
        exact .inr ⟨x, y, _, rfl, rfl, rfl, rfl⟩
    · rw [hcut'] at hcontent
      cases hcontent
  · have hi := congrArg Segment.content hcut
    have hcode := encode_of_cut hi
    rw [encode_of_cut (hcontent.symm.trans hi)] at hcode
    exact .inl (Except.ok.inj hcode).symm

end Segment

theorem dropLast_append_congr {α : Type} {a b : List α} (hlen : a.length = b.length)
    (h : a.dropLast = b.dropLast) (front : List α) :
    (front ++ a).dropLast = (front ++ b).dropLast := by
  simp only [List.dropLast_append, List.isEmpty_iff_length_eq_zero, hlen, h]

namespace Cursor

theorem eq_or_dropLast_eq {offset : Nat} {a b : List UInt8}
    (h : (segments ⟨offset, a⟩).map Segment.item = (segments ⟨offset, b⟩).map Segment.item) :
    a = b ∨ (a.length = b.length ∧ a.dropLast = b.dropLast ∧ ∃ place needed,
      ((segments ⟨offset, a⟩).map Segment.item).getLast? =
        some (.error (.malformed place (.truncated needed 1)))) := by
  induction offset, a using walk_induction generalizing b with
  | nil offset =>
      cases b with
      | nil => exact .inl rfl
      | cons tag rest =>
          rw [segments_nil, segments_cons] at h
          cases h
  | cons offset tag rest ih =>
      cases b with
      | nil =>
          rw [segments_nil, segments_cons] at h
          cases h
      | cons tag' rest' =>
          rw [segments_cons, segments_cons offset tag' rest', List.map_cons, List.map_cons] at h
          injection h with hitem hmore
          rcases Segment.bytes_of_item_eq hitem with hbytes | ⟨x, y, needed, rfl, rfl, rfl, hlast⟩
          · have hsplit := Segment.bytes_cut_append offset tag rest
            have hsplit' := Segment.bytes_cut_append offset tag' rest'
            have hwidth : (Segment.cut offset tag' rest').width =
                (Segment.cut offset tag rest).width :=
              congrArg List.length hbytes.symm
            rw [hwidth] at hmore hsplit'
            rw [← hbytes] at hsplit'
            rcases ih hmore with heq | ⟨hlen, hdrop, place, needed, hlast⟩
            · exact .inl (hsplit.symm.trans ((congrArg (_ ++ ·) heq).trans hsplit'))
            · refine .inr ⟨?_, ?_, place, needed, ?_⟩
              · rw [← hsplit, ← hsplit', List.length_append, List.length_append, hlen]
              · rw [← hsplit, ← hsplit']
                exact dropLast_append_congr hlen hdrop _
              · rw [segments_cons, List.map_cons, List.getLast?_cons, hlast]
                rfl
          · have htruncated := Segment.isTruncated_iff.2 ⟨_, _, _, hlast⟩
            rw [segments_of_isTruncated htruncated, List.map_singleton, hlast]
            exact .inr ⟨rfl, rfl, _, _, rfl⟩

end Cursor

theorem HidesLast.items_eq {bytes : List UInt8} (h : HidesLast bytes) :
    ∃ front tag x layout, bytes = front ++ [tag, x] ∧ Layout.ofTag tag = .ok layout ∧
      items bytes = items front ++
        [.error (.malformed front.length (.truncated layout.operandsWidth 1))] := by
  obtain ⟨offset, needed, hlast⟩ := h
  obtain ⟨ahead, hitems⟩ := List.getLast?_eq_some_iff.1 hlast
  obtain ⟨good, more, hwalk, hgood, hmore⟩ := List.map_eq_append_iff.1 hitems
  obtain ⟨s, rfl, hitem⟩ := List.map_eq_singleton_iff.1 hmore
  have hs : s ∈ walk bytes := by
    rw [hwalk]
    exact List.mem_append_right good List.mem_cons_self
  have hwhole := walk_take_offset hwalk (Cursor.isTruncated_of_segments_eq hwalk)
  have hle : s.offset ≤ bytes.length := Nat.le_of_add_right_le (bytes_of_mem_walk hs).1
  obtain ⟨tag, rest, hdrop, hcut⟩ := exists_cut_of_mem_walk hs
  have htruncated := Segment.isTruncated_iff.2 ⟨_, _, _, hitem⟩
  rw [hcut] at htruncated
  obtain ⟨layout, hlayout, _, hshort⟩ := Segment.cut_of_isTruncated htruncated
  rw [hcut, hshort] at hitem
  injection hitem with hfault
  injection hfault with hoffset hfault
  injection hfault with hneeded hone
  obtain rfl : s.offset = offset := hoffset
  obtain ⟨x, rfl⟩ := List.length_eq_one_iff.1 hone
  have hfront : (bytes.take s.offset).length = s.offset := List.length_take_of_le hle
  refine ⟨bytes.take s.offset, tag, x, layout, ?_, hlayout, ?_⟩
  · rw [← hdrop, List.take_append_drop]
  · rw [hitems, ← hgood, ← hwhole, hfront, hneeded]
    rfl

theorem items_eq_iff {a b : List UInt8} : items a = items b ↔
    a = b ∨ (a.length = b.length ∧ a.dropLast = b.dropLast ∧ HidesLast a ∧ HidesLast b) := by
  constructor
  · intro h
    rcases Cursor.eq_or_dropLast_eq h with heq | ⟨hlen, hdrop, offset, needed, hlast⟩
    · exact .inl heq
    · refine .inr ⟨hlen, hdrop, ⟨offset, needed, hlast⟩, offset, needed, ?_⟩
      rw [← h]
      exact hlast
  · rintro (rfl | ⟨_, hdrop, ha, hb⟩)
    · rfl
    · obtain ⟨front, tag, x, layout, rfl, hlayout, hitems⟩ := ha.items_eq
      obtain ⟨front', tag', y, layout', rfl, hlayout', hitems'⟩ := hb.items_eq
      have hfront : front ++ [tag] = front' ++ [tag'] := by simpa using hdrop
      obtain ⟨rfl, htag⟩ := List.append_inj' hfront rfl
      obtain rfl : tag = tag' := List.singleton_inj.1 htag
      rw [hlayout] at hlayout'
      cases hlayout'
      rw [hitems, hitems']

/-- A listing tells all of its stream but one thing: the value of a last byte that is the only
operand byte of an instruction cut short. -/
theorem listing_determines_stream (a b : List UInt8) :
    Listing.text a = Listing.text b ↔
      a = b ∨ (a.length = b.length ∧ a.dropLast = b.dropLast ∧ HidesLast a ∧ HidesLast b) :=
  Listing.text_eq_iff.trans items_eq_iff

example : Listing.text [0, 0, 7, 0, 1] = Listing.text [0, 0, 7, 0, 2] := by decide +kernel

end Opstream
