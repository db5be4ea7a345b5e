import Mathlib.Order.Monotone.Basic
import Opstream.Proofs.WalkPlaces

namespace Opstream

/-- What an item says about the bytes of a stream from `start` up to `stop`. -/
inductive Describes (bytes : List UInt8) (start stop : Nat) : Except Fault Decoded → Prop
  | instruction {i : Instruction}
      (code : i.encode = .ok ((bytes.drop start).take (stop - start))) :
      Describes bytes start stop (.ok ⟨start, i, stop - start⟩)
  | undefined {tag : UInt8} (here : bytes[start]? = some tag)
      (unknown : Layout.ofTag tag = .error (.undefinedOpcode tag)) (alone : stop = start + 1) :
      Describes bytes start stop (.error (.malformed start (.undefinedOpcode tag)))
  | truncated {tag : UInt8} {layout : Layout} (here : bytes[start]? = some tag)
      (known : Layout.ofTag tag = .ok layout)
      (short : bytes.length - start - 1 < layout.operandsWidth) (last : stop = bytes.length) :
      Describes bytes start stop
        (.error (.malformed start (.truncated layout.operandsWidth (bytes.length - start - 1))))

namespace Segment

variable {bytes rest : List UInt8} {offset : Nat} {tag : UInt8}

theorem describes_cut_of_ok (h : bytes.drop offset = tag :: rest) {i : Instruction}
    (hi : (cut offset tag rest).content = .ok i) :
    Describes bytes offset (offset + (cut offset tag rest).width) (cut offset tag rest).item := by
  have hspan : offset + (cut offset tag rest).width - offset = (cut offset tag rest).width :=
    Nat.add_sub_cancel_left ..
  have hitem : (cut offset tag rest).item =
      .ok ⟨offset, i, offset + (cut offset tag rest).width - offset⟩ := by
    rw [hspan, item, hi, offset_cut]
  rw [hitem]
  apply Describes.instruction
  rw [hspan, h, take_width_cut, encode_of_cut hi]

theorem describes_cut (h : bytes.drop offset = tag :: rest) :
    Describes bytes offset (offset + (cut offset tag rest).width) (cut offset tag rest).item := by
  have htag := getElem?_of_drop h
  have hlen := length_of_drop h
  have hrest : rest.length = bytes.length - offset - 1 := by omega
  rcases cut_cases offset tag rest with
    ⟨hunknown, hcut⟩ | ⟨opcode, hopcode, hshort, hcut⟩ | ⟨_, _, _, hcut⟩
  · rw [hcut]
    exact .undefined htag hunknown rfl
  · have hknown : Layout.ofTag tag = .ok opcode.layout := by
      rw [← hopcode, Layout.ofTag_tag]
    have hstop : offset + (cut offset tag rest).width = bytes.length := by
      rw [hcut]
      change offset + (rest.length + 1) = _
      omega
    rw [hstop, hcut]
    rw [hrest] at hshort ⊢
    exact .truncated htag hknown hshort rfl
  · exact describes_cut_of_ok h (congrArg Segment.content hcut)

end Segment

namespace Cursor

/-- A place in a stream: what lies ahead is what the stream has from there on. -/
structure Within (bytes : List UInt8) (c : Cursor) : Prop where
  offset_le : c.offset ≤ bytes.length
  rest_eq : c.rest = bytes.drop c.offset

def step (c : Cursor) : Cursor := c.next.2

def after (bytes : List UInt8) (n : Nat) : Cursor := step^[n] (start bytes)

theorem after_succ (bytes : List UInt8) (n : Nat) : after bytes (n + 1) = (after bytes n).step :=
  Function.iterate_succ_apply' step n (start bytes)

theorem next_cases (c : Cursor) :
    (c.next = (none, c) ∧ c.segments = []) ∨
      ∃ s, c.next = (some s, c.step) ∧ c.segments = s :: c.step.segments := by
  obtain ⟨offset, bytes⟩ := c
  cases bytes with
  | nil => exact .inl ⟨next_nil offset, segments_nil offset⟩
  | cons tag rest =>
      exact .inr ⟨Segment.cut offset tag rest, next_cons offset tag rest,
        segments_cons offset tag rest⟩

theorem getElem?_segments (c : Cursor) (n : Nat) : c.segments[n]? = (step^[n] c).next.1 := by
  induction n generalizing c with
  | zero =>
      rcases next_cases c with ⟨hnext, hsegments⟩ | ⟨s, hnext, hsegments⟩
      · rw [hsegments, Function.iterate_zero_apply, hnext]
        rfl
      · rw [hsegments, Function.iterate_zero_apply, hnext]
        rfl
  | succ n ih =>
      rw [Function.iterate_succ_apply, ← ih]
      rcases next_cases c with ⟨hnext, hsegments⟩ | ⟨s, _, hsegments⟩
      · rw [step, hnext, hsegments]
        rfl
      · rw [hsegments, List.getElem?_cons_succ]

theorem getElem?_items (bytes : List UInt8) (n : Nat) :
    (items bytes)[n]? = (after bytes n).next.1.map Segment.item := by
  rw [items, List.getElem?_map, walk, getElem?_segments]
  rfl

variable {bytes : List UInt8} {c : Cursor}

theorem within_start (bytes : List UInt8) : (start bytes).Within bytes :=
  ⟨Nat.zero_le _, rfl⟩

theorem Within.next_of_end (h : c.Within bytes) (hend : c.offset = bytes.length) :
    c.next = (none, c) := by
  obtain ⟨offset, ahead⟩ := c
  obtain rfl : ahead = [] := h.rest_eq.trans (List.drop_eq_nil_of_le hend.ge)
  exact next_nil offset

theorem Within.next_of_lt (h : c.Within bytes) (hlt : c.offset < bytes.length) :
    ∃ s, c.next = (some s, c.step) ∧ c.offset < c.step.offset ∧ c.step.Within bytes ∧
      Describes bytes c.offset c.step.offset s.item := by
  obtain ⟨offset, ahead⟩ := c
  have hahead : ahead = bytes.drop offset := h.rest_eq
  dsimp only at hlt
  obtain ⟨tag, rest, hdrop⟩ : ∃ tag rest, bytes.drop offset = tag :: rest :=
    ⟨_, _, List.drop_eq_getElem_cons hlt⟩
  subst hahead
  rw [hdrop]
  have hle := Segment.width_cut_le offset tag rest
  rw [← hdrop, List.length_drop] at hle
  refine ⟨Segment.cut offset tag rest, rfl, ?_, ⟨?_, ?_⟩, Segment.describes_cut hdrop⟩
  · exact Nat.lt_add_of_pos_right (Segment.width_cut_pos offset tag rest)
  · change offset + (Segment.cut offset tag rest).width ≤ bytes.length
    omega
  · change (tag :: rest).drop _ = bytes.drop (offset + _)
    rw [← hdrop, List.drop_drop]

theorem Within.step (h : c.Within bytes) : c.step.Within bytes := by
  rcases h.offset_le.eq_or_lt with hend | hlt
  · rw [Cursor.step, h.next_of_end hend]
    exact h
  · obtain ⟨_, _, _, hstep, _⟩ := h.next_of_lt hlt
    exact hstep

theorem within_after (bytes : List UInt8) (n : Nat) : (after bytes n).Within bytes := by
  induction n with
  | zero => exact within_start bytes
  | succ n ih =>
      rw [after_succ]
      exact ih.step

theorem next_after_of_end {n : Nat} (hend : (after bytes n).offset = bytes.length) {m : Nat}
    (hm : n ≤ m) : (after bytes m).next = (none, after bytes n) := by
  have hnext := (within_after bytes n).next_of_end hend
  have hstay : after bytes m = after bytes n := by
    induction m, hm using Nat.le_induction with
    | base => rfl
    | succ m _ ih => rw [after_succ, ih, step, hnext]
  rw [hstay, hnext]

theorem monotone_offset_after (bytes : List UInt8) : Monotone fun n => (after bytes n).offset := by
  apply monotone_nat_of_le_succ
  intro n
  rw [after_succ]
  have hwithin := within_after bytes n
  rcases hwithin.offset_le.eq_or_lt with hend | hlt
  · rw [step, hwithin.next_of_end hend]
  · obtain ⟨_, _, hstep, _⟩ := hwithin.next_of_lt hlt
    exact hstep.le

theorem le_offset_after (bytes : List UInt8) (n : Nat) :
    min n bytes.length ≤ (after bytes n).offset := by
  induction n with
  | zero => exact Nat.min_le_left 0 _
  | succ n ih =>
      have hwithin := within_after bytes n
      rcases hwithin.offset_le.eq_or_lt with hend | hlt
      · have hmono := monotone_offset_after bytes (Nat.le_add_right n 1)
        dsimp only at hmono
        omega
      · obtain ⟨_, _, hstep, _⟩ := hwithin.next_of_lt hlt
        rw [after_succ]
        omega

theorem offset_after_length (bytes : List UInt8) :
    (after bytes bytes.length).offset = bytes.length := by
  have hle := le_offset_after bytes bytes.length
  rw [Nat.min_self] at hle
  exact Nat.le_antisymm (within_after bytes bytes.length).offset_le hle

theorem length_items_le_iff (bytes : List UInt8) (n : Nat) :
    (items bytes).length ≤ n ↔ (after bytes n).offset = bytes.length := by
  have hwithin := within_after bytes n
  rw [← List.getElem?_eq_none_iff, getElem?_items, Option.map_eq_none_iff]
  constructor
  · intro hnone
    rcases hwithin.offset_le.eq_or_lt with hend | hlt
    · exact hend
    · obtain ⟨s, hsome, _⟩ := hwithin.next_of_lt hlt
      rw [hsome] at hnone
      cases hnone
  · intro hend
    rw [hwithin.next_of_end hend]

theorem exists_span {p n : Nat} (h : p < (after bytes n).offset) :
    ∃ m, (after bytes m).offset ≤ p ∧ p < (after bytes (m + 1)).offset := by
  induction n with
  | zero => exact absurd h (Nat.not_lt_zero p)
  | succ n ih =>
      by_cases hn : p < (after bytes n).offset
      · exact ih hn
      · exact ⟨n, Nat.not_lt.1 hn, h⟩

theorem le_of_span {p m n : Nat} (hstart : (after bytes m).offset ≤ p)
    (hstop : p < (after bytes (n + 1)).offset) : m ≤ n := by
  by_contra hlt
  have hmono : (after bytes (n + 1)).offset ≤ (after bytes m).offset :=
    monotone_offset_after bytes (Nat.not_le.1 hlt)
  exact Nat.not_lt.2 (hmono.trans hstart) hstop

/-- Every byte lies in the span of one step, and of no other. -/
theorem existsUnique_span {p : Nat} (hp : p < bytes.length) :
    ∃! n, (after bytes n).offset ≤ p ∧ p < (after bytes (n + 1)).offset := by
  rw [← offset_after_length bytes] at hp
  obtain ⟨n, hstart, hstop⟩ := exists_span hp
  refine ⟨n, ⟨hstart, hstop⟩, ?_⟩
  rintro m ⟨hstart', hstop'⟩
  exact Nat.le_antisymm (le_of_span hstart' hstop) (le_of_span hstart hstop')

theorem length_items_of_truncated {n offset needed available : Nat}
    (h : (items bytes)[n]? = some (.error (.malformed offset (.truncated needed available)))) :
    n + 1 = (items bytes).length := by
  obtain ⟨hn, _⟩ := List.getElem?_eq_some_iff.1 h
  have hlt : (after bytes n).offset < bytes.length := by
    apply (within_after bytes n).offset_le.lt_of_ne
    intro hend
    exact Nat.not_le.2 hn ((length_items_le_iff bytes n).2 hend)
  obtain ⟨s, hnext, _, _, hitem⟩ := (within_after bytes n).next_of_lt hlt
  rw [getElem?_items, hnext, Option.map_some, Option.some.injEq] at h
  rw [h] at hitem
  have hlast : (after bytes (n + 1)).offset = bytes.length := by
    rw [after_succ]
    cases hitem with
    | truncated _ _ _ last => exact last
  exact Nat.le_antisymm hn ((length_items_le_iff bytes (n + 1)).2 hlast)

/-- A walk meets every byte of a stream exactly once, and then it stops. -/
theorem walk_tiles_stream (bytes : List UInt8) :
    (∀ n, (items bytes)[n]? = (after bytes n).next.1.map Segment.item) ∧
    (∀ n, (after bytes n).offset ≤ bytes.length ∧
      ((after bytes n).offset < bytes.length → ∃ s,
        (after bytes n).next = (some s, after bytes (n + 1)) ∧
        (after bytes n).offset < (after bytes (n + 1)).offset ∧
        Describes bytes (after bytes n).offset (after bytes (n + 1)).offset s.item) ∧
      ((after bytes n).offset = bytes.length →
        ∀ m ≥ n, (after bytes m).next = (none, after bytes n))) ∧
    (∀ p < bytes.length, ∃! n,
      (after bytes n).offset ≤ p ∧ p < (after bytes (n + 1)).offset) ∧
    (items bytes).length ≤ bytes.length ∧
    (∀ n offset needed available,
      (items bytes)[n]? = some (.error (.malformed offset (.truncated needed available))) →
      n + 1 = (items bytes).length) := by
  refine ⟨getElem?_items bytes, fun n => ⟨?_, ?_, ?_⟩, ?_, ?_, ?_⟩
  · exact (within_after bytes n).offset_le
  · intro hlt
    obtain ⟨s, hnext, hstep, _, hitem⟩ := (within_after bytes n).next_of_lt hlt
    rw [after_succ]
    exact ⟨s, hnext, hstep, hitem⟩
  · exact fun hend _ hm => next_after_of_end hend hm
  · exact fun _ hp => existsUnique_span hp
  · exact (length_items_le_iff bytes _).2 (offset_after_length bytes)
  · exact fun _ _ _ _ h => length_items_of_truncated h

theorem walk_tiles_three_spans :
    (∃ s, (after [0, 0, 1, 255, 0, 7] 1).next = (some s, after [0, 0, 1, 255, 0, 7] 2) ∧
      Describes [0, 0, 1, 255, 0, 7] 3 4 s.item) ∧
    (∀ m ≥ 3, (after [0, 0, 1, 255, 0, 7] m).next = (none, ⟨6, []⟩)) ∧
    (∃! n, (after [0, 0, 1, 255, 0, 7] n).offset ≤ 5 ∧
      5 < (after [0, 0, 1, 255, 0, 7] (n + 1)).offset) ∧
    (items [0, 0, 1, 255, 0, 7]).length = 3 := by
  obtain ⟨hitems, hstates, hspans, _, hlast⟩ := walk_tiles_stream [0, 0, 1, 255, 0, 7]
  obtain ⟨s, hnext, _, hitem⟩ := (hstates 1).2.1 (by decide)
  have hcut : (items [0, 0, 1, 255, 0, 7])[2]? = some (.error (.malformed 4 (.truncated 2 1))) :=
    (hitems 2).trans rfl
  exact ⟨⟨s, hnext, hitem⟩, (hstates 3).2.2 rfl, hspans 5 (by decide), (hlast 2 4 2 1 hcut).symm⟩

end Cursor

end Opstream
