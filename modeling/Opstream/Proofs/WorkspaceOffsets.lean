import Opstream.Proofs.WalkPrefix
import Opstream.Proofs.WorkspaceRun

namespace Opstream

def itemOffset? : Except Fault Decoded → Option Nat
  | .ok d => some d.offset
  | .error (.malformed offset _) => some offset
  | .error _ => none

theorem Segment.itemOffset?_item (s : Segment) : itemOffset? s.item = some s.offset := by
  obtain ⟨offset, bytes, content⟩ := s
  cases content with
  | error fault => rfl
  | ok i => rfl

section Between

variable {front code : List UInt8} {i : Instruction}

theorem length_of_encode (h : i.encode = .ok code) : code.length = i.opcode.layout.width := by
  obtain ⟨hholds, rfl⟩ := Layout.encode_eq_ok_iff.1 h
  rw [List.length_cons, hholds.length_slots, Layout.width, Nat.add_comm]

theorem walk_between (hfront : Untruncated front) (hcode : i.encode = .ok code)
    (back : List UInt8) : walk (front ++ code ++ back) = walk front ++
      ⟨front.length, code, .ok i⟩ :: Cursor.segments ⟨front.length + code.length, back⟩ := by
  have happend := Cursor.segments_append (untruncated_iff.1 hfront) (code ++ back)
  rw [Nat.zero_add, Cursor.segments_encode hcode, ← List.append_assoc] at happend
  exact happend

theorem items_between (hfront : Untruncated front) (hcode : i.encode = .ok code)
    (back : List UInt8) : items (front ++ code ++ back) = items front ++
      .ok ⟨front.length, i, i.opcode.layout.width⟩ ::
        (Cursor.segments ⟨front.length + code.length, back⟩).map Segment.item := by
  rw [items, walk_between hfront hcode, List.map_append, List.map_cons, ← length_of_encode hcode]
  rfl

theorem filter_item_of_ne {ss : List Segment} {place : Nat} (h : ∀ s ∈ ss, s.offset ≠ place) :
    (ss.map Segment.item).filter (itemOffset? · = some place) = [] := by
  rw [List.filter_eq_nil_iff, List.forall_mem_map]
  intro s hs
  rw [s.itemOffset?_item, decide_eq_true_eq, Option.some.injEq]
  exact h s hs

theorem filter_items_between (hfront : Untruncated front) (hcode : i.encode = .ok code)
    (back : List UInt8) :
    (items (front ++ code ++ back)).filter (itemOffset? · = some front.length) =
      [.ok ⟨front.length, i, i.opcode.layout.width⟩] := by
  have hbefore : (items front).filter (itemOffset? · = some front.length) = [] :=
    filter_item_of_ne fun s hs => Nat.ne_of_lt (offset_lt_of_mem_walk hs)
  have hbehind : ((Cursor.segments ⟨front.length + code.length, back⟩).map Segment.item).filter
      (itemOffset? · = some front.length) = [] := by
    apply filter_item_of_ne
    intro s hs
    have hle := (Cursor.le_offset_of_mem_segments hs).1
    rw [length_of_encode hcode, Layout.width] at hle
    omega
  rw [items_between hfront hcode, List.filter_append, hbefore, List.nil_append, List.filter_cons,
    hbehind]
  exact if_pos (decide_eq_true rfl)

end Between

namespace Workspace

/-- Steps that do nothing to a buffer but append to it; the other buffers may change freely. -/
def OnlyGrows (name : String) (steps : List (String × Edit)) : Prop :=
  ∀ step ∈ steps, step.1 = name → step.2.grows = true

instance (name : String) (steps : List (String × Edit)) : Decidable (OnlyGrows name steps) :=
  inferInstanceAs (Decidable (∀ step ∈ steps, step.1 = name → step.2.grows = true))

variable {w : Workspace} {name other : String} {e : Edit} {steps : List (String × Edit)}

theorem apply_eq_append (h : other = name → e.grows = true) (w : Workspace) :
    ∃ more, ((w.apply other e).2 name).bytes = (w name).bytes ++ more := by
  by_cases hname : other = name
  · subst other
    rcases apply_cases w name e with
      ⟨_, code, _, _, happly⟩ | ⟨_, b, happly, _, _, hgrows⟩ | ⟨_, happly, _⟩
    · exact ⟨code, by rw [happly]; exact congrArg Buffer.bytes (set_self ..)⟩
    · obtain ⟨more, hmore⟩ := hgrows (h rfl)
      exact ⟨more, by rw [happly, ← hmore]; exact congrArg Buffer.bytes (set_self ..)⟩
    · exact ⟨[], by rw [happly, List.append_nil]⟩
  · exact ⟨[], by rw [apply_of_ne (Ne.symm hname), List.append_nil]⟩

theorem after_eq_append (h : OnlyGrows name steps) (w : Workspace) :
    ∃ more, (w.after steps name).bytes = (w name).bytes ++ more := by
  induction steps generalizing w with
  | nil => exact ⟨[], (List.append_nil _).symm⟩
  | cons step steps ih =>
      obtain ⟨hstep, hrest⟩ := List.forall_mem_cons.1 h
      obtain ⟨more, hmore⟩ := apply_eq_append hstep w
      obtain ⟨later, hlater⟩ := ih hrest (w.apply step.1 step.2).2
      exact ⟨more ++ later, by rw [after_cons, hlater, hmore, List.append_assoc]⟩

def offsets (name : String) (w : Workspace) : List (String × Edit) → List Nat
  | [] => []
  | step :: steps =>
      (if step.1 = name then (w.apply step.1 step.2).1.offset?.toList else []) ++
        offsets name (w.apply step.1 step.2).2 steps

theorem of_offset? {n : Nat} (h : (w.apply name e).1.offset? = some n) :
    n = (w name).size ∧ n < ((w.apply name e).2 name).size := by
  rcases apply_cases w name e with
    ⟨i, code, hi, hcode, happly⟩ | ⟨_, _, happly, _, hnone, _⟩ | ⟨_, happly, _, hnone⟩
  · have hsize := congrArg List.length (bytes_add hcode w name)
    rw [List.length_append, length_of_encode hcode, Layout.width, ← apply_eq_add hi] at hsize
    rw [happly] at h
    cases h
    exact ⟨rfl, by rw [Buffer.size, Buffer.size, hsize]; omega⟩
  · rw [happly, hnone] at h
    cases h
  · rw [happly, hnone] at h
    cases h

/-- An offset is the size of the buffer when it was handed out, which bounds the later ones. -/
theorem offsets_increase (h : OnlyGrows name steps) (w : Workspace) :
    (offsets name w steps).Pairwise (· < ·) ∧ ∀ n ∈ offsets name w steps, (w name).size ≤ n := by
  induction steps generalizing w with
  | nil => exact ⟨.nil, fun n hn => absurd hn List.not_mem_nil⟩
  | cons step steps ih =>
      obtain ⟨hstep, hrest⟩ := List.forall_mem_cons.1 h
      obtain ⟨hsorted, hlow⟩ := ih hrest (w.apply step.1 step.2).2
      obtain ⟨more, hmore⟩ := apply_eq_append hstep w
      have hsize : (w name).size ≤ ((w.apply step.1 step.2).2 name).size := by
        rw [Buffer.size, Buffer.size, hmore, List.length_append]
        exact Nat.le_add_right _ _
      have hlater : ∀ n ∈ offsets name (w.apply step.1 step.2).2 steps, (w name).size ≤ n :=
        fun n hn => hsize.trans (hlow n hn)
      rw [offsets]
      by_cases hname : step.1 = name
      · rw [if_pos hname]
        subst hname
        cases hoffset : (w.apply step.1 step.2).1.offset? with
        | none => exact ⟨hsorted, hlater⟩
        | some n =>
            obtain ⟨rfl, hlt⟩ := of_offset? hoffset
            exact ⟨.cons (fun m hm => hlt.trans_le (hlow m hm)) hsorted,
              List.forall_mem_cons.2 ⟨le_rfl, hlater⟩⟩
      · rw [if_neg hname]
        exact ⟨hsorted, hlater⟩

/-- An instruction appended to a stream that is not cut short stays where it is, whatever the stream
is made to grow by, and the items ahead of it stay too. -/
theorem offsets_stay_valid :
    (∀ (w : Workspace) (name : String) (e : Edit) (i : Instruction), e.instruction? = some i →
      Untruncated (w name).bytes → (w.apply name e).1.isFailure = false →
      (w.apply name e).1 = .offset (w name).size ∧
      ∀ steps, OnlyGrows name steps →
        (∃ later, items ((w.apply name e).2.after steps name).bytes =
          items (w name).bytes ++
            .ok ⟨(w name).size, i, i.opcode.layout.width⟩ :: later) ∧
        (items ((w.apply name e).2.after steps name).bytes).filter
            (itemOffset? · = some (w name).size) =
          [.ok ⟨(w name).size, i, i.opcode.layout.width⟩]) ∧
    ∀ (w : Workspace) (name : String) (steps : List (String × Edit)), OnlyGrows name steps →
      (offsets name w steps).Pairwise (· < ·) := by
  constructor
  · intro w name e i hi hwhole hdone
    rw [apply_eq_add hi] at hdone ⊢
    cases hcode : i.encode with
    | error fault =>
        rw [add_of_error hcode] at hdone
        cases hdone
    | ok code =>
        refine ⟨by rw [add_of_ok hcode], fun steps hsteps => ?_⟩
        obtain ⟨more, hmore⟩ := after_eq_append hsteps (w.add name i).2
        rw [hmore, bytes_add hcode]
        exact ⟨⟨_, items_between hwhole hcode more⟩, filter_items_between hwhole hcode more⟩
  · intro w name steps hsteps
    exact (offsets_increase hsteps w).1

theorem offsets_stay_valid_behind_undefined_tag :
    (∃ later, items (((empty.set "a" ⟨[255]⟩).apply "a" (.push ⟨.constant, [7]⟩)).2.after
        [("b", .load [0, 9]), ("a", .emit .constant []), ("a", .extend "b")] "a").bytes =
      .error (.malformed 0 (.undefinedOpcode 255)) :: .ok ⟨1, ⟨.constant, [7]⟩, 3⟩ :: later) ∧
    (offsets "a" (empty.set "a" ⟨[255]⟩)
      [("a", .push ⟨.constant, [7]⟩), ("b", .load [0, 9]), ("a", .extend "b"),
        ("a", .emit .constant [8])]).Pairwise (· < ·) := by
  obtain ⟨hstay, hincrease⟩ := offsets_stay_valid
  constructor
  · obtain ⟨_, hlater⟩ := hstay (empty.set "a" ⟨[255]⟩) "a" (.push ⟨.constant, [7]⟩)
      ⟨.constant, [7]⟩ rfl (by decide +kernel) rfl
    obtain ⟨later, hitems⟩ := (hlater [("b", .load [0, 9]), ("a", .emit .constant []),
      ("a", .extend "b")] (by decide)).1
    have hfront : items (empty.set "a" ⟨[255]⟩ "a").bytes =
        [.error (.malformed 0 (.undefinedOpcode 255))] := by decide +kernel
    rw [hfront] at hitems
    exact ⟨later, hitems⟩
  · exact hincrease _ "a" _ (by decide)

end Workspace

end Opstream
