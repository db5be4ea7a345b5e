import Opstream.Listing
import Opstream.Proofs.WalkPlaces
import Opstream.Text.Lines

namespace Opstream

namespace Text

def isInline (c : Char) : Bool := c != '\n' && c != '\r'

def Inline (s : String) : Prop := ∀ c ∈ s.toList, isInline c = true

theorem ne_of_apart {p : Char → Bool} {c d : Char} (hc : p c = true) (hd : p d = false) :
    c ≠ d := by
  rintro rfl
  rw [hc] at hd
  cases hd

theorem ne_newline_of_isInline {c : Char} (h : isInline c = true) : c ≠ '\n' :=
  ne_of_apart h rfl

theorem ne_return_of_isInline {c : Char} (h : isInline c = true) : c ≠ '\r' :=
  ne_of_apart h rfl

/-- A character of the words that listings are made of. -/
def isPlain (c : Char) : Bool := c.isAlphanum || c == ' ' || c == ':'

def Plain (s : String) : Prop := ∀ c ∈ s.toList, isPlain c = true

theorem isPlain_of_isAlphanum {c : Char} (h : c.isAlphanum = true) : isPlain c = true := by
  rw [isPlain, h, Bool.true_or, Bool.true_or]

theorem inline_of_plain {s : String} (h : Plain s) : Inline s := by
  intro c hc
  rw [isInline, Bool.and_eq_true, bne_iff_ne, bne_iff_ne]
  constructor
  · exact ne_of_apart (h c hc) rfl
  · exact ne_of_apart (h c hc) rfl

theorem plain_of_all {s : String} (h : s.toList.all isPlain = true) : Plain s :=
  List.all_eq_true.1 h

@[simp] theorem plain_append {s t : String} : Plain (s ++ t) ↔ Plain s ∧ Plain t := by
  simp only [Plain, String.toList_append, List.forall_mem_append]

theorem plain_of_isAlphanum {s : String} (h : ∀ c ∈ s.toList, c.isAlphanum = true) : Plain s :=
  fun c hc => isPlain_of_isAlphanum (h c hc)

theorem isAlphanum_of_isDigit {c : Char} (h : c.isDigit = true) : c.isAlphanum = true := by
  rw [Char.isAlphanum, h, Bool.or_true]

theorem isAlphanum_of_mem_repr {n : Nat} {c : Char} (h : c ∈ n.repr.toList) :
    c.isAlphanum = true := by
  rw [Decimal.toList_repr] at h
  exact isAlphanum_of_isDigit (Decimal.isDigit_of_mem_digits h)

@[simp] theorem plain_repr (n : Nat) : Plain n.repr :=
  plain_of_isAlphanum fun _ => isAlphanum_of_mem_repr

/-- Words, from a letter or digit up to a letter or digit. -/
structure Phrase (s : String) : Prop where
  plain : Plain s
  first : ∃ c ∈ s.toList.head?, c.isAlphanum = true
  last : ∃ c ∈ s.toList.getLast?, c.isAlphanum = true

theorem phrase_of_isAlphanum {s : String} (hne : s.toList ≠ [])
    (h : ∀ c ∈ s.toList, c.isAlphanum = true) : Phrase s where
  plain := plain_of_isAlphanum h
  first := ⟨s.toList.head hne, List.head?_eq_some_head hne, h _ (List.head_mem hne)⟩
  last := ⟨s.toList.getLast hne, List.getLast?_eq_some_getLast hne, h _ (List.getLast_mem hne)⟩

theorem phrase_of_all {s : String} (hne : s.toList ≠ [])
    (h : s.toList.all Char.isAlphanum = true) : Phrase s :=
  phrase_of_isAlphanum hne (List.all_eq_true.1 h)

theorem Phrase.append {s middle t : String} (hs : Phrase s) (h : Plain middle) (ht : Phrase t) :
    Phrase (s ++ middle ++ t) where
  plain := by
    rw [plain_append, plain_append]
    exact ⟨⟨hs.plain, h⟩, ht.plain⟩
  first := by
    obtain ⟨c, hc, halnum⟩ := hs.first
    rw [String.toList_append, String.toList_append, List.append_assoc]
    exact ⟨c, List.mem_head?_append_of_mem_head? hc, halnum⟩
  last := by
    obtain ⟨c, hc, halnum⟩ := ht.last
    rw [String.toList_append]
    exact ⟨c, List.mem_getLast?_append_of_mem_getLast? hc, halnum⟩

theorem phrase_repr (n : Nat) : Phrase n.repr := by
  apply phrase_of_isAlphanum
  · rw [Decimal.toList_repr]
    exact Decimal.digits_ne_nil n
  · exact fun _ => isAlphanum_of_mem_repr

theorem isDigit_of_mem_padded {width n : Nat} {c : Char}
    (h : c ∈ (Decimal.padded width n).toList) : c.isDigit = true := by
  rw [Decimal.toList_padded, List.leftpad, List.mem_append] at h
  rcases h with h | h
  · rw [List.eq_of_mem_replicate h]
    rfl
  · exact Decimal.isDigit_of_mem_digits h

theorem padded_ne_nil (width n : Nat) : (Decimal.padded width n).toList ≠ [] := by
  rw [Decimal.toList_padded, List.leftpad]
  exact List.append_ne_nil_of_right_ne_nil _ (Decimal.digits_ne_nil n)

theorem isAlphanum_of_mem_padded {width n : Nat} {c : Char}
    (h : c ∈ (Decimal.padded width n).toList) : c.isAlphanum = true :=
  isAlphanum_of_isDigit (isDigit_of_mem_padded h)

@[simp] theorem plain_padded (width n : Nat) : Plain (Decimal.padded width n) :=
  plain_of_isAlphanum fun _ => isAlphanum_of_mem_padded

theorem phrase_offset (offset : Nat) : Phrase (offsetText offset) :=
  phrase_of_isAlphanum (padded_ne_nil 4 offset) fun _ => isAlphanum_of_mem_padded

theorem pieces_line {l : List Char} (h : '\n' ∉ l) (rest : List Char) :
    pieces (l ++ '\n' :: rest) = (l ++ ['\n']) :: pieces rest := by
  induction l with
  | nil => exact pieces_newline rest
  | cons c l ih =>
      have hc : c ≠ '\n' := by
        rintro rfl
        exact h List.mem_cons_self
      rw [List.cons_append, pieces_cons_of_ne hc, ih fun hm => h (List.mem_cons_of_mem c hm)]
      rfl

theorem pieces_terminated {ls : List (List Char)} (h : ∀ l ∈ ls, '\n' ∉ l) :
    pieces (ls.flatMap (· ++ ['\n'])) = ls.map (· ++ ['\n']) := by
  induction ls with
  | nil => rfl
  | cons l ls ih =>
      rw [List.flatMap_cons, List.append_assoc, List.singleton_append,
        pieces_line (h l List.mem_cons_self), ih fun l hl => h l (List.mem_cons_of_mem _ hl),
        List.map_cons]

theorem chomp_terminated {l : List Char} (h : '\r' ∉ l) : chomp (l ++ ['\n']) = l := by
  have hrev : (l ++ ['\n']).reverse = '\n' :: l.reverse := by simp
  unfold chomp
  rw [hrev]
  split
  next rest hrest =>
      injection hrest with _ hl
      exact absurd (List.mem_reverse.1 (hl ▸ List.mem_cons_self)) h
  next rest _ hrest =>
      injection hrest with _ hl
      rw [← hl, List.reverse_reverse]
  next _ hrest => exact absurd rfl (hrest l.reverse)

theorem toList_join_lines (ls : List String) : (String.join (ls.map (· ++ "\n"))).toList =
    (ls.map String.toList).flatMap (· ++ ['\n']) := by
  rw [String.toList_join, List.flatMap_map, List.flatMap_map]
  congr 1
  funext l
  exact String.toList_append

/-- Lines that end in newlines and hold no other line ending are read as they were written. -/
theorem lines_terminated {ls : List (List Char)} (h : ∀ l ∈ ls, ∀ c ∈ l, isInline c = true) :
    lines (ls.flatMap (· ++ ['\n'])) = ls := by
  have hnewline : ∀ l ∈ ls, '\n' ∉ l := fun l hl hm =>
    ne_newline_of_isInline (h l hl _ hm) rfl
  rw [lines, pieces_terminated hnewline, List.map_map]
  conv_rhs => rw [← List.map_id ls]
  apply List.map_congr_left
  intro l hl
  exact chomp_terminated fun hm => ne_return_of_isInline (h l hl _ hm) rfl

end Text

namespace Opcode

theorem isAlphanum_of_mem_name {opcode : Opcode} {c : Char} (h : c ∈ opcode.name.toList) :
    c.isAlphanum = true := by
  have hall : opcode.name.toList.all Char.isAlphanum = true := by
    cases opcode; decide
  exact List.all_eq_true.1 hall c h

theorem plain_name (opcode : Opcode) : Text.Plain opcode.name :=
  Text.plain_of_isAlphanum fun _ => isAlphanum_of_mem_name

theorem name_ne_nil (opcode : Opcode) : opcode.name.toList ≠ [] := by
  cases opcode; decide

theorem arity_le_one (opcode : Opcode) : opcode.arity ≤ 1 := by
  cases opcode; decide

end Opcode

def operandsText (operands : List Operand) : List Char :=
  operands.flatMap fun v => ' ' :: Decimal.digits v.toNat

theorem Instruction.toList_text (i : Instruction) :
    i.text.toList = i.opcode.name.toList ++ operandsText i.operands := by
  rw [operandsText, text, String.toList_append, String.toList_join, List.flatMap_map]
  congr 2
  funext v
  change (" " ++ v.toNat.repr).toList = _
  rw [String.toList_append, Decimal.toList_repr]
  rfl

/-- As long as no opcode has two operands, a listing has a form for every instruction. -/
theorem Layout.format_eq_text {i : Instruction} (h : i.operands.length = i.opcode.arity) :
    i.opcode.layout.format i.operands = i.text := by
  have hone := i.opcode.arity_le_one
  obtain ⟨opcode, operands⟩ := i
  dsimp only at h hone ⊢
  apply String.toList_injective
  rw [Instruction.toList_text]
  match operands, h with
  | [], h =>
      rw [format, arity_layout, if_neg (not_not_intro h)]
      exact (List.append_nil _).symm
  | [v], h =>
      rw [format, arity_layout, if_neg (not_not_intro h)]
      change (opcode.name ++ " " ++ v.toNat.repr).toList = _
      simp [operandsText, Decimal.digits]
  | _ :: _ :: _, h =>
      rw [← h] at hone
      simp at hone

namespace Segment

theorem line_of_ok {s : Segment} {i : Instruction} (h : s.content = .ok i)
    (hi : i.operands.length = i.opcode.arity) :
    s.line = offsetText s.offset ++ " " ++ i.text := by
  rw [line, item, h]
  dsimp only [Listing.lineOf]
  rw [Decoded.line, Layout.format_eq_text hi]

theorem line_of_error {s : Segment} {fault : Fault} (h : s.content = .error fault) :
    s.line = "ERROR: " ++ (fault.message ++ " at " ++ offsetText s.offset) := by
  rw [line, item, h]
  rfl

end Segment

theorem plain_text (i : Instruction) : Text.Plain i.text := by
  intro c hc
  rw [Instruction.toList_text, operandsText, List.mem_append, List.mem_flatMap] at hc
  rcases hc with hc | ⟨v, _, hc⟩
  · exact Text.isPlain_of_isAlphanum (Opcode.isAlphanum_of_mem_name hc)
  · rcases List.mem_cons.1 hc with rfl | hc
    · rfl
    · exact Text.isPlain_of_isAlphanum
        (Text.isAlphanum_of_isDigit (Decimal.isDigit_of_mem_digits hc))

open Text in
theorem phrase_message {bytes : List UInt8} {s : Segment} {fault : Fault} (hs : s ∈ walk bytes)
    (h : s.content = .error fault) : Phrase fault.message := by
  rcases content_of_mem_walk hs with ⟨i, hi, _⟩ | ⟨tag, htag⟩ | ⟨needed, available, hcut⟩
  · rw [hi] at h
    cases h
  · rw [htag] at h
    cases h
    have htext : (Fault.undefinedOpcode tag).message =
        "opcode" ++ (" " ++ tag.toNat.repr ++ " ") ++ "undefined" := by
      apply String.toList_injective
      change ("opcode " ++ tag.toNat.repr ++ " undefined").toList = _
      simp
    have hspace : Plain " " := plain_of_all rfl
    rw [htext]
    refine .append (phrase_of_all (by simp) rfl) ?_ (phrase_of_all (by simp) rfl)
    simp [hspace]
  · rw [hcut] at h
    cases h
    have htext : (Fault.truncated needed available).message = "truncated" ++
        (" instruction: needed " ++ needed.repr ++ " bytes but only " ++ available.repr ++ " ") ++
          "remain" := by
      apply String.toList_injective
      change ("truncated instruction: needed " ++ needed.repr ++ " bytes but only " ++
        available.repr ++ " remain").toList = _
      simp
    have hwords : Plain " instruction: needed " ∧ Plain " bytes but only " ∧ Plain " " :=
      ⟨plain_of_all rfl, plain_of_all rfl, plain_of_all rfl⟩
    rw [htext]
    refine .append (phrase_of_all (by simp) rfl) ?_ (phrase_of_all (by simp) rfl)
    simp [hwords]

theorem plain_line {bytes : List UInt8} {s : Segment} (h : s ∈ walk bytes) :
    Text.Plain s.line := by
  have hwords : Text.Plain " " ∧ Text.Plain "ERROR: " ∧ Text.Plain " at " :=
    ⟨Text.plain_of_all rfl, Text.plain_of_all rfl, Text.plain_of_all rfl⟩
  cases hs : s.content with
  | error fault =>
      rw [Segment.line_of_error hs]
      simp [hwords, (phrase_message h hs).plain, offsetText]
  | ok i =>
      rw [Segment.line_of_ok hs (length_operands_of_encode (encode_of_mem_walk h hs))]
      simp [hwords, offsetText, plain_text]

namespace Listing

theorem toList_text (bytes : List UInt8) : (text bytes).toList =
    ((lines bytes).map String.toList).flatMap (· ++ ['\n']) := Text.toList_join_lines (lines bytes)

theorem inline_of_mem_lines {bytes : List UInt8} {l : List Char}
    (h : l ∈ (lines bytes).map String.toList) : ∀ c ∈ l, Text.isInline c = true := by
  obtain ⟨line, hline, rfl⟩ := List.mem_map.1 h
  obtain ⟨s, hs, rfl⟩ := List.mem_map.1 hline
  exact Text.inline_of_plain (plain_line hs)

theorem lines_text (bytes : List UInt8) :
    Text.lines (text bytes).toList = (lines bytes).map String.toList := by
  rw [toList_text, Text.lines_terminated fun l hl => inline_of_mem_lines hl]

theorem pieces_text (bytes : List UInt8) : Text.pieces (text bytes).toList =
    (lines bytes).map fun line => line.toList ++ ['\n'] := by
  rw [toList_text, Text.pieces_terminated, List.map_map]
  · rfl
  · exact fun l hl hm => Text.ne_newline_of_isInline (inline_of_mem_lines hl _ hm) rfl

end Listing

end Opstream
