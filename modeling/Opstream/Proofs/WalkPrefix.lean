import Opstream.Listing
import Opstream.Proofs.CursorRun
import Opstream.Proofs.WalkAppend

namespace Opstream

namespace Segment

/-- A segment that is still whole when its stream ends at `k`. -/
def wholeAt (k : Nat) (s : Segment) : Bool := !s.isTruncated && decide (s.offset + s.width ≤ k)

/-- What is left of an instruction that starts ahead of `k`, but needs bytes behind it, when its
stream ends there. -/
def remnant? (k : Nat) (s : Segment) : Option Segment :=
  s.layout?.bind fun layout =>
    if s.offset < k ∧ k < s.offset + layout.width then
      some ⟨s.offset, s.bytes.take (k - s.offset),
        .error (.truncated layout.operandsWidth (k - s.offset - 1))⟩
    else none

theorem layout?_cut (offset : Nat) (tag : UInt8) (rest : List UInt8) :
    (cut offset tag rest).layout? = (Layout.ofTag tag).toOption := by
  obtain ⟨n, hn⟩ := bytes_cut offset tag rest
  rw [layout?, hn]

theorem layout?_cut_of_ok {tag : UInt8} {layout : Layout} (h : Layout.ofTag tag = .ok layout)
    (offset : Nat) (rest : List UInt8) : (cut offset tag rest).layout? = some layout := by
  rw [layout?_cut, h]
  rfl

theorem remnant?_of_ge {k : Nat} {s : Segment} (h : k ≤ s.offset) : s.remnant? k = none := by
  rw [remnant?, Option.bind_eq_none_iff]
  intro layout _
  exact if_neg fun hcrosses => Nat.not_le.2 hcrosses.1 h

theorem wholeAt_of_le {k : Nat} {s : Segment} (h : s.isTruncated = false)
    (hk : s.offset + s.width ≤ k) : s.wholeAt k = true := by
  rw [wholeAt, h, decide_eq_true hk]
  rfl

theorem wholeAt_of_gt {k : Nat} {s : Segment} (h : k < s.offset + s.width) :
    s.wholeAt k = false := by
  rw [wholeAt, decide_eq_false (Nat.not_le.2 h), Bool.and_false]

theorem remnant?_eq_some {k : Nat} {s : Segment} {layout : Layout} (h : s.layout? = some layout)
    (hstart : s.offset < k) (hend : k < s.offset + layout.width) :
    s.remnant? k = some ⟨s.offset, s.bytes.take (k - s.offset),
      .error (.truncated layout.operandsWidth (k - s.offset - 1))⟩ := by
  rw [remnant?, h, Option.bind_some, if_pos ⟨hstart, hend⟩]

theorem remnant?_eq_none {k : Nat} {s : Segment} (h : ∀ layout, s.layout? = some layout →
    s.offset < k → s.offset + layout.width ≤ k) : s.remnant? k = none := by
  rw [remnant?, Option.bind_eq_none_iff]
  intro layout hlayout
  apply if_neg
  rintro ⟨hstart, hend⟩
  exact Nat.not_le.2 hend (h layout hlayout hstart)

theorem isTruncated_of_remnant? {k : Nat} {s t : Segment} (h : s.remnant? k = some t) :
    t.isTruncated = true := by
  obtain ⟨layout, _, ht⟩ := Option.bind_eq_some_iff.1 h
  split at ht
  next => cases ht; rfl
  next => cases ht

theorem width_cut_of_layout? {offset : Nat} {tag : UInt8} {rest : List UInt8}
    (h : (cut offset tag rest).isTruncated = false) {layout : Layout}
    (hlayout : (cut offset tag rest).layout? = some layout) :
    (cut offset tag rest).width = layout.width := by
  rw [layout?_cut] at hlayout
  rcases cut_cases offset tag rest with
    ⟨hunknown, _⟩ | ⟨_, _, _, hcut⟩ | ⟨opcode, rfl, hle, hcut⟩
  · rw [hunknown] at hlayout
    cases hlayout
  · rw [hcut] at h
    cases h
  · rw [Layout.ofTag_tag] at hlayout
    cases hlayout
    rw [hcut, width, List.length_cons, List.length_take_of_le hle, Layout.width, Nat.add_comm]

theorem remnant?_cut_of_le {offset k : Nat} {tag : UInt8} {rest : List UInt8}
    (h : (cut offset tag rest).isTruncated = false)
    (hk : offset + (cut offset tag rest).width ≤ k) :
    (cut offset tag rest).remnant? k = none := by
  apply remnant?_eq_none
  intro layout hlayout _
  rw [offset_cut, ← width_cut_of_layout? h hlayout]
  exact hk

theorem cut_of_isTruncated {offset : Nat} {tag : UInt8} {rest : List UInt8}
    (h : (cut offset tag rest).isTruncated = true) : ∃ layout, Layout.ofTag tag = .ok layout ∧
      rest.length < layout.operandsWidth ∧ cut offset tag rest =
        ⟨offset, tag :: rest, .error (.truncated layout.operandsWidth rest.length)⟩ := by
  rcases cut_cases offset tag rest with ⟨_, hcut⟩ | ⟨opcode, rfl, hlt, hcut⟩ | ⟨_, _, _, hcut⟩
  · rw [hcut] at h
    cases h
  · exact ⟨opcode.layout, Layout.ofTag_tag opcode, hlt, hcut⟩
  · rw [hcut] at h
    cases h

section Cut

variable {offset k : Nat} {tag : UInt8} {rest : List UInt8}

theorem cut_take (h : (cut offset tag (rest.take k)).isTruncated = false) :
    cut offset tag (rest.take k) = cut offset tag rest := by
  have happend := cut_append h (rest.drop k)
  rw [List.take_append_drop] at happend
  exact happend.symm

theorem width_cut_take_le (offset k : Nat) (tag : UInt8) (rest : List UInt8) :
    (cut offset tag (rest.take k)).width ≤ k + 1 := by
  have hle := width_cut_le offset tag (rest.take k)
  have hlen := List.length_take_le k rest
  rw [List.length_cons] at hle
  omega

theorem wholeAt_cut_take (h : (cut offset tag (rest.take k)).isTruncated = false) :
    (cut offset tag (rest.take k)).wholeAt (offset + (k + 1)) = true := by
  apply wholeAt_of_le h
  rw [offset_cut]
  exact Nat.add_le_add_left (width_cut_take_le offset k tag rest) offset

theorem remnant?_cut_take (h : (cut offset tag (rest.take k)).isTruncated = false) :
    (cut offset tag (rest.take k)).remnant? (offset + (k + 1)) = none := by
  apply remnant?_cut_of_le h
  exact Nat.add_le_add_left (width_cut_take_le offset k tag rest) offset

theorem le_width_cut (hk : k ≤ rest.length)
    (h : (cut offset tag (rest.take k)).isTruncated = true) :
    k + 1 ≤ (cut offset tag rest).width := by
  obtain ⟨layout, hlayout, hlt, _⟩ := cut_of_isTruncated h
  rw [List.length_take_of_le hk] at hlt
  by_cases hle : layout.operandsWidth ≤ rest.length
  · rw [cut_of_le hlayout offset hle, width, List.length_cons, List.length_take_of_le hle]
    omega
  · rw [cut_of_lt hlayout offset (Nat.not_le.1 hle), width, List.length_cons]
    omega

theorem not_wholeAt_cut (hk : k ≤ rest.length)
    (h : (cut offset tag (rest.take k)).isTruncated = true) :
    (cut offset tag rest).wholeAt (offset + (k + 1)) = false := by
  obtain ⟨layout, hlayout, hlt, _⟩ := cut_of_isTruncated h
  rw [List.length_take_of_le hk] at hlt
  cases hfull : (cut offset tag rest).isTruncated with
  | true => rw [wholeAt, hfull]; rfl
  | false =>
      have hwidth := width_cut_of_layout? hfull (layout?_cut_of_ok hlayout offset rest)
      apply wholeAt_of_gt
      rw [offset_cut, hwidth, Layout.width]
      omega

theorem remnant?_cut (hk : k ≤ rest.length)
    (h : (cut offset tag (rest.take k)).isTruncated = true) :
    (cut offset tag rest).remnant? (offset + (k + 1)) = some (cut offset tag (rest.take k)) := by
  have hbytes : (cut offset tag rest).bytes.take (k + 1) = tag :: rest.take k := by
    rw [← take_width_cut, List.take_take, Nat.min_eq_left (le_width_cut hk h),
      List.take_succ_cons]
  obtain ⟨layout, hlayout, hlt, hcut⟩ := cut_of_isTruncated h
  rw [List.length_take_of_le hk] at hlt hcut
  have hspan : offset + (k + 1) - offset = k + 1 := Nat.add_sub_cancel_left ..
  have hstart : (cut offset tag rest).offset < offset + (k + 1) := by
    rw [offset_cut]
    exact Nat.lt_add_of_pos_right (Nat.succ_pos k)
  have hend : offset + (k + 1) < (cut offset tag rest).offset + layout.width := by
    rw [offset_cut, Layout.width]
    omega
  rw [remnant?_eq_some (layout?_cut_of_ok hlayout offset rest) hstart hend, offset_cut, hspan,
    hbytes, hcut, Nat.add_sub_cancel]

end Cut

end Segment

namespace Cursor

theorem le_offset_of_mem_segments {offset : Nat} {bytes : List UInt8} {s : Segment}
    (h : s ∈ segments ⟨offset, bytes⟩) : offset ≤ s.offset ∧ 0 < s.width := by
  obtain ⟨k, tag, rest, _, rfl⟩ := exists_cut_of_mem_segments h
  rw [Segment.offset_cut]
  exact ⟨Nat.le_add_right offset k, Segment.width_cut_pos _ tag rest⟩

theorem segments_eq_cons {offset : Nat} {bytes : List UInt8} {s : Segment} {back : List Segment}
    (h : segments ⟨offset, bytes⟩ = s :: back) :
    s.offset = offset ∧ ∃ rest, back = segments ⟨offset + s.width, rest⟩ := by
  cases bytes with
  | nil =>
      rw [segments_nil] at h
      cases h
  | cons tag rest =>
      rw [segments_cons, List.cons.injEq] at h
      obtain ⟨rfl, hback⟩ := h
      exact ⟨Segment.offset_cut offset tag rest, _, hback.symm⟩

theorem segments_resume {offset : Nat} {bytes : List UInt8} {front back : List Segment}
    {s : Segment} (h : segments ⟨offset, bytes⟩ = front ++ s :: back) :
    (∃ ahead, s :: back = segments ⟨s.offset, ahead⟩) ∧
      ∀ t ∈ front, t.offset + t.width ≤ s.offset := by
  induction front generalizing offset bytes with
  | nil =>
      obtain ⟨rfl, _⟩ := segments_eq_cons h
      exact ⟨⟨bytes, h.symm⟩, List.forall_mem_nil _⟩
  | cons t front ih =>
      obtain ⟨rfl, rest, hrest⟩ := segments_eq_cons h
      obtain ⟨hahead, hfront⟩ := ih hrest.symm
      have hs : s ∈ segments ⟨t.offset + t.width, rest⟩ := by
        rw [← hrest]
        exact List.mem_append_right front List.mem_cons_self
      exact ⟨hahead, List.forall_mem_cons.2 ⟨(le_offset_of_mem_segments hs).1, hfront⟩⟩

theorem segments_of_isTruncated {offset : Nat} {tag : UInt8} {rest : List UInt8}
    (h : (Segment.cut offset tag rest).isTruncated = true) :
    segments ⟨offset, tag :: rest⟩ = [Segment.cut offset tag rest] := by
  obtain ⟨_, _, _, hcut⟩ := Segment.cut_of_isTruncated h
  have hdrop : (tag :: rest).drop (Segment.cut offset tag rest).width = [] := by
    rw [hcut]
    exact List.drop_length
  rw [segments_cons, hdrop, segments_nil]

theorem isTruncated_of_segments_eq {offset : Nat} {bytes : List UInt8} {front back : List Segment}
    {s : Segment} (h : segments ⟨offset, bytes⟩ = front ++ s :: back) :
    ∀ t ∈ front, t.isTruncated = false := by
  induction front generalizing offset bytes with
  | nil => exact List.forall_mem_nil _
  | cons t front ih =>
      obtain ⟨_, rest, hrest⟩ := segments_eq_cons h
      refine List.forall_mem_cons.2 ⟨?_, ih hrest.symm⟩
      rw [Bool.eq_false_iff]
      intro htruncated
      cases bytes with
      | nil =>
          rw [segments_nil] at h
          cases h
      | cons tag rest =>
          obtain ⟨ht, _⟩ := List.cons.inj ((segments_cons offset tag rest).symm.trans h)
          rw [← ht] at htruncated
          rw [segments_of_isTruncated htruncated] at h
          simpa using congrArg List.length h

theorem filter_wholeAt_of_le {k offset : Nat} (h : k ≤ offset) (bytes : List UInt8) :
    (segments ⟨offset, bytes⟩).filter (Segment.wholeAt k) = [] := by
  rw [List.filter_eq_nil_iff]
  intro s hs
  obtain ⟨hoffset, hwidth⟩ := le_offset_of_mem_segments hs
  rw [Segment.wholeAt_of_gt (by omega)]
  exact Bool.false_ne_true

theorem filterMap_remnant?_of_le {k offset : Nat} (h : k ≤ offset) (bytes : List UInt8) :
    (segments ⟨offset, bytes⟩).filterMap (Segment.remnant? k) = [] := by
  rw [List.filterMap_eq_nil_iff]
  intro s hs
  exact Segment.remnant?_of_ge (h.trans (le_offset_of_mem_segments hs).1)

/-- The walk of a stream that ends earlier: whole segments stay, and what is left of an
instruction stands behind them. -/
theorem segments_take {offset k : Nat} {bytes : List UInt8} (h : k ≤ bytes.length) :
    segments ⟨offset, bytes.take k⟩ =
      (segments ⟨offset, bytes⟩).filter (Segment.wholeAt (offset + k)) ++
        (segments ⟨offset, bytes⟩).filterMap (Segment.remnant? (offset + k)) := by
  induction offset, bytes using walk_induction generalizing k with
  | nil offset =>
      rw [List.take_nil, segments_nil]
      rfl
  | cons offset tag rest ih =>
      cases k with
      | zero =>
          rw [List.take_zero, segments_nil, Nat.add_zero, filter_wholeAt_of_le (Nat.le_refl _),
            filterMap_remnant?_of_le (Nat.le_refl _)]
          rfl
      | succ k =>
          have hk : k ≤ rest.length := Nat.le_of_succ_le_succ h
          rw [List.take_succ_cons, segments_cons offset tag rest]
          cases hcut : (Segment.cut offset tag (rest.take k)).isTruncated with
          | false =>
              have hwhole := Segment.wholeAt_cut_take hcut
              have hnone := Segment.remnant?_cut_take hcut
              have hwidth := Segment.width_cut_take_le offset k tag rest
              rw [segments_cons, Segment.cut_take hcut]
              rw [Segment.cut_take hcut] at hwhole hnone hwidth
              generalize Segment.cut offset tag rest = s at hwhole hnone hwidth ih ⊢
              have hdrop : (tag :: rest.take k).drop s.width =
                  ((tag :: rest).drop s.width).take (k + 1 - s.width) := by
                rw [← List.take_succ_cons, List.drop_take]
              have hlen : k + 1 - s.width ≤ ((tag :: rest).drop s.width).length := by
                rw [List.length_drop]
                exact Nat.sub_le_sub_right h s.width
              have hend : offset + s.width + (k + 1 - s.width) = offset + (k + 1) := by omega
              rw [List.filter_cons_of_pos hwhole, List.filterMap_cons_none hnone, hdrop, ih hlen,
                hend, List.cons_append]
          | true =>
              have hpast : offset + (k + 1) ≤ offset + (Segment.cut offset tag rest).width :=
                Nat.add_le_add_left (Segment.le_width_cut hk hcut) offset
              have hnot : ¬ (Segment.cut offset tag rest).wholeAt (offset + (k + 1)) = true :=
                Bool.eq_false_iff.1 (Segment.not_wholeAt_cut hk hcut)
              rw [segments_of_isTruncated hcut, List.filter_cons_of_neg hnot,
                filter_wholeAt_of_le hpast, List.filterMap_cons_some (Segment.remnant?_cut hk hcut),
                filterMap_remnant?_of_le hpast, List.nil_append]

end Cursor

theorem walk_take {bytes : List UInt8} {k : Nat} (h : k ≤ bytes.length) :
    walk (bytes.take k) = (walk bytes).filter (Segment.wholeAt k) ++
      (walk bytes).filterMap (Segment.remnant? k) := by
  have hsegments := @Cursor.segments_take 0 k bytes h
  rw [Nat.zero_add] at hsegments
  exact hsegments

theorem remnant?_of_mem_walk {bytes : List UInt8} {s : Segment} (hs : s ∈ walk bytes)
    (h : s.isTruncated = false) {k : Nat} (hk : s.offset + s.width ≤ k) : s.remnant? k = none := by
  obtain ⟨tag, rest, _, hcut⟩ := exists_cut_of_mem_walk hs
  rw [hcut] at h ⊢
  apply Segment.remnant?_cut_of_le h
  rw [← hcut]
  exact hk

theorem walk_take_offset {bytes : List UInt8} {front back : List Segment} {s : Segment}
    (h : walk bytes = front ++ s :: back) (hfront : ∀ t ∈ front, t.isTruncated = false) :
    walk (bytes.take s.offset) = front := by
  obtain ⟨⟨ahead, hahead⟩, hend⟩ := Cursor.segments_resume h
  have hwhole : front.filter (Segment.wholeAt s.offset) = front :=
    List.filter_eq_self.2 fun t ht => Segment.wholeAt_of_le (hfront t ht) (hend t ht)
  have hnone : front.filterMap (Segment.remnant? s.offset) = [] := by
    rw [List.filterMap_eq_nil_iff]
    intro t ht
    have hmem : t ∈ walk bytes := by
      rw [h]
      exact List.mem_append_left _ ht
    exact remnant?_of_mem_walk hmem (hfront t ht) (hend t ht)
  have hs : s ∈ walk bytes := by
    rw [h]
    exact List.mem_append_right front List.mem_cons_self
  have hle := (bytes_of_mem_walk hs).1
  rw [walk_take (Nat.le_of_add_right_le hle), h, hahead, List.filter_append,
    List.filterMap_append, hwhole, hnone, Cursor.filter_wholeAt_of_le (Nat.le_refl _),
    Cursor.filterMap_remnant?_of_le (Nat.le_refl _), List.append_nil, List.append_nil,
    List.append_nil]

theorem length_filterMap_remnant?_le {bytes : List UInt8} {k : Nat} (h : k ≤ bytes.length) :
    ((walk bytes).filterMap (Segment.remnant? k)).length ≤ 1 := by
  have hwalk := walk_take h
  have htruncated : ∀ t ∈ (walk bytes).filterMap (Segment.remnant? k), t.isTruncated = true := by
    intro t ht
    obtain ⟨s, _, hs⟩ := List.mem_filterMap.1 ht
    exact Segment.isTruncated_of_remnant? hs
  match hrest : (walk bytes).filterMap (Segment.remnant? k) with
  | [] => exact Nat.zero_le 1
  | [_] => exact Nat.le_refl 1
  | t :: u :: more =>
      rw [hrest] at hwalk htruncated
      obtain ⟨offset, needed, available, hitem⟩ :=
        Segment.isTruncated_iff.1 (htruncated t List.mem_cons_self)
      have hget : (items (bytes.take k))[((walk bytes).filter (Segment.wholeAt k)).length]? =
          some (.error (.malformed offset (.truncated needed available))) := by
        rw [items, hwalk, List.getElem?_map, List.getElem?_append_right (Nat.le_refl _),
          Nat.sub_self, List.getElem?_cons_zero, Option.map_some, hitem]
      have hlast := Cursor.length_items_of_truncated hget
      rw [items, hwalk, List.length_map, List.length_append, List.length_cons,
        List.length_cons] at hlast
      omega

/-- A stream that ends at `k` shows every item that was whole there, and then the fault of the
instruction across `k`, if there is one. -/
theorem items_take {bytes : List UInt8} {k : Nat} (hk : k ≤ bytes.length) :
    (∀ s ∈ walk bytes, ∀ layout, s.layout? = some layout → s.offset < k →
      k < s.offset + layout.width →
      items (bytes.take k) = ((walk bytes).filter (Segment.wholeAt k)).map Segment.item ++
        [.error (.malformed s.offset (.truncated layout.operandsWidth (k - s.offset - 1)))]) ∧
    ((∀ s ∈ walk bytes, ∀ layout, s.layout? = some layout → s.offset < k →
      s.offset + layout.width ≤ k) →
      items (bytes.take k) = ((walk bytes).filter (Segment.wholeAt k)).map Segment.item) := by
  constructor
  · intro s hs layout hlayout hstart hend
    have hmem := List.mem_filterMap.2 ⟨s, hs, Segment.remnant?_eq_some hlayout hstart hend⟩
    have hone := Nat.le_antisymm (length_filterMap_remnant?_le hk) (List.length_pos_of_mem hmem)
    obtain ⟨t, ht⟩ := List.length_eq_one_iff.1 hone
    rw [ht, List.mem_singleton] at hmem
    rw [items, walk_take hk, ht, ← hmem, List.map_append]
    rfl
  · intro hnone
    have hnil : (walk bytes).filterMap (Segment.remnant? k) = [] :=
      List.filterMap_eq_nil_iff.2 fun s hs => Segment.remnant?_eq_none (hnone s hs)
    rw [items, walk_take hk, hnil, List.append_nil]

theorem items_take_ahead_of_last :
    items ([0, 0, 1, 255, 0, 7].take 5) = [.ok ⟨0, ⟨.constant, [1]⟩, 3⟩,
      .error (.malformed 3 (.undefinedOpcode 255)), .error (.malformed 4 (.truncated 2 0))] ∧
    items ([0, 0, 1, 255, 0, 7].take 4) = [.ok ⟨0, ⟨.constant, [1]⟩, 3⟩,
      .error (.malformed 3 (.undefinedOpcode 255))] := by
  have hwalk : walk [0, 0, 1, 255, 0, 7] = [⟨0, [0, 0, 1], .ok ⟨.constant, [1]⟩⟩,
      ⟨3, [255], .error (.undefinedOpcode 255)⟩, ⟨4, [0, 7], .error (.truncated 2 1)⟩] := by cbv
  have hbehind := @items_take [0, 0, 1, 255, 0, 7] 5 (by decide)
  have hahead := @items_take [0, 0, 1, 255, 0, 7] 4 (by decide)
  rw [hwalk] at hbehind hahead
  constructor
  · exact hbehind.1 ⟨4, [0, 7], .error (.truncated 2 1)⟩ (by simp) Opcode.constant.layout rfl
      (by decide) (by decide)
  · apply hahead.2
    intro s hs layout hlayout hstart
    rw [List.mem_cons, List.mem_cons, List.mem_singleton] at hs
    rcases hs with rfl | rfl | rfl
    · cases hlayout
      decide
    · cases hlayout
    · exact absurd hstart (by decide)

end Opstream
