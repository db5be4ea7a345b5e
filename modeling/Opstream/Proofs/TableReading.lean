import Opstream.Proofs.StatementText
import Opstream.Proofs.TableLayout

namespace Opstream

namespace Text

variable {p : Char → Bool}

/-- Parts between separators come back when the text is split and its parts are stripped, even if
a border was added at both ends. -/
theorem strip_splitOn_intercalate {separator : Char} {parts : List (List Char)}
    (hne : parts ≠ []) (hparts : ∀ part ∈ parts, separator ∉ part) (front back : List Char)
    (hfront : ∀ c ∈ front, p c = true) (hback : ∀ c ∈ back, p c = true)
    (hp : p separator = false) :
    ((front ++ [separator].intercalate parts ++ back).splitOn separator).map (strip p) =
      parts.map (strip p) := by
  have houtside : ∀ {border : List Char}, (∀ c ∈ border, p c = true) → separator ∉ border :=
    fun h hm => absurd (h _ hm) (by rw [hp]; exact Bool.false_ne_true)
  induction parts generalizing front with
  | nil => exact absurd rfl hne
  | cons part parts ih =>
      obtain ⟨hpart, hmore⟩ := List.forall_mem_cons.1 hparts
      have hstart : separator ∉ front ++ part :=
        fun hm => (List.mem_append.1 hm).elim (houtside hfront) hpart
      cases parts with
      | nil =>
          have hall : separator ∉ front ++ part ++ back :=
            fun hm => (List.mem_append.1 hm).elim hstart (houtside hback)
          rw [List.intercalate_singleton, List.splitOn_eq_singleton hall, List.map_singleton,
            List.map_singleton, strip_append_right hback, strip_append_left hfront]
      | cons next parts =>
          have hrest := ih (List.cons_ne_nil next parts) hmore [] (by simp)
          have hsplit : front ++ [separator].intercalate (part :: next :: parts) ++ back =
              front ++ part ++ separator :: ([separator].intercalate (next :: parts) ++ back) := by
            simp
          rw [hsplit, List.splitOn_append_cons_self, List.splitOn_eq_singleton hstart,
            List.map_append, List.map_singleton, strip_append_left hfront]
          rw [List.nil_append] at hrest
          rw [hrest]
          rfl

@[simp] theorem inline_append {s t : String} : Inline (s ++ t) ↔ Inline s ∧ Inline t := by
  simp only [Inline, String.toList_append, List.forall_mem_append]

theorem inline_replicate {c : Char} (h : isInline c = true) (n : Nat) :
    Inline (String.ofList (List.replicate n c)) := by
  intro d hd
  rw [String.toList_ofList] at hd
  rw [List.eq_of_mem_replicate hd]
  exact h

theorem forall_mem_intercalate {p : Char → Prop} {separator : String}
    (h : ∀ c ∈ separator.toList, p c) {parts : List String}
    (hparts : ∀ part ∈ parts, ∀ c ∈ part.toList, p c) :
    ∀ c ∈ (separator.intercalate parts).toList, p c := by
  induction parts with
  | nil => exact fun c hc => absurd hc List.not_mem_nil
  | cons part parts ih =>
      obtain ⟨hpart, hmore⟩ := List.forall_mem_cons.1 hparts
      cases parts with
      | nil => simpa using hpart
      | cons next parts =>
          rw [String.intercalate_cons_cons]
          simp only [String.toList_append, List.forall_mem_append]
          exact ⟨⟨hpart, h⟩, ih hmore⟩

theorem inline_intercalate {separator : String} (h : Inline separator) {parts : List String}
    (hparts : ∀ part ∈ parts, Inline part) : Inline (separator.intercalate parts) :=
  forall_mem_intercalate h hparts

end Text

namespace Table

/-- A cell that can be told from the layout around it: it is part of one line, does not hold the
separator of columns, and has no blank at its ends. -/
structure ReadableCell (cell : String) : Prop where
  inline : Text.Inline cell
  whole : '│' ∉ cell.toList
  front : Text.Stops (· == ' ') cell.toList
  back : Text.Stops (· == ' ') cell.toList.reverse

def readRow (line : List Char) : List (List Char) :=
  (line.splitOn '│').map (Text.strip (· == ' '))

theorem exists_blanks_field (align : Align) (width : Nat) (cell : String) :
    ∃ m n, (" " ++ align.fill width cell ++ " ").toList =
      List.replicate m ' ' ++ cell.toList ++ List.replicate n ' ' := by
  cases align with
  | left =>
      refine ⟨1, width - cell.length + 1, ?_⟩
      simp [Align.fill, List.replicate_succ']
  | right =>
      refine ⟨width - cell.length + 1, 1, ?_⟩
      simp [Align.fill, List.replicate_succ]

theorem strip_field {cell : String} (h : ReadableCell cell) (align : Align) (width : Nat) :
    Text.strip (· == ' ') (" " ++ align.fill width cell ++ " ").toList = cell.toList := by
  obtain ⟨m, n, hfield⟩ := exists_blanks_field align width cell
  have hblank : ∀ k, ∀ c ∈ List.replicate k ' ', (c == ' ') = true := fun k c hc => by
    rw [List.eq_of_mem_replicate hc]
    rfl
  rw [hfield, Text.strip_append_right (hblank n), Text.strip_append_left (hblank m)]
  exact Text.strip_eq_self h.front h.back

theorem mem_fields {columns : List Column} {widths : List Nat} {cells : List String}
    {field : String} (h : field ∈ fields columns widths cells) :
    ∃ align width, ∃ cell ∈ cells, field = " " ++ Align.fill align width cell ++ " " := by
  induction cells generalizing columns widths with
  | nil =>
      rw [fields, List.zipWith_nil_right] at h
      cases h
  | cons cell cells ih =>
      cases columns with
      | nil => cases h
      | cons column columns =>
          cases widths with
          | nil => cases h
          | cons width widths =>
              rw [fields_cons] at h
              rcases List.mem_cons.1 h with rfl | h
              · exact ⟨column.align, width, cell, List.mem_cons_self, rfl⟩
              · obtain ⟨align, width, other, hother, hfield⟩ := ih h
                exact ⟨align, width, other, List.mem_cons_of_mem cell hother, hfield⟩

theorem map_strip_fields {columns : List Column} {widths : List Nat} {cells : List String}
    (h : Fits cells widths) (hlen : columns.length = widths.length)
    (hcells : ∀ cell ∈ cells, ReadableCell cell) :
    (fields columns widths cells).map (fun field => Text.strip (· == ' ') field.toList) =
      cells.map String.toList := by
  induction h generalizing columns with
  | nil => cases columns <;> rfl
  | @cons cell width cells widths _ _ ih =>
      obtain ⟨hcell, hmore⟩ := List.forall_mem_cons.1 hcells
      cases columns with
      | nil => cases hlen
      | cons column columns =>
          rw [fields_cons, List.map_cons, strip_field hcell, ih (Nat.succ.inj hlen) hmore,
            List.map_cons]

theorem of_mem_field {cell : String} {align : Align} {width : Nat} {c : Char}
    (h : c ∈ (" " ++ align.fill width cell ++ " ").toList) : c = ' ' ∨ c ∈ cell.toList := by
  obtain ⟨m, n, hfield⟩ := exists_blanks_field align width cell
  rw [hfield, List.mem_append, List.mem_append] at h
  rcases h with (h | h) | h
  · exact .inl (List.eq_of_mem_replicate h)
  · exact .inr h
  · exact .inl (List.eq_of_mem_replicate h)

theorem readRow_rowLine {columns : List Column} {widths : List Nat} {cells : List String}
    (h : Fits cells widths) (hlen : columns.length = widths.length) (hne : columns ≠ [])
    (hcells : ∀ cell ∈ cells, ReadableCell cell) :
    readRow (rowLine columns widths cells).toList = cells.map String.toList := by
  have hfields : (fields columns widths cells).map String.toList ≠ [] := by
    intro hnil
    have hwidths := map_length_fields h hlen
    rw [List.map_eq_nil_iff.1 hnil] at hwidths
    have hzero : widths.length = 0 := by simpa using (congrArg List.length hwidths).symm
    exact hne (List.eq_nil_of_length_eq_zero (hlen.trans hzero))
  have hbar : ∀ part ∈ (fields columns widths cells).map String.toList, '│' ∉ part := by
    intro part hpart
    obtain ⟨field, hfield, rfl⟩ := List.mem_map.1 hpart
    obtain ⟨align, width, cell, hcell, rfl⟩ := mem_fields hfield
    intro hbar
    rcases of_mem_field hbar with hblank | hinside
    · exact absurd hblank (by decide)
    · exact (hcells cell hcell).whole hinside
  have hsplit := Text.strip_splitOn_intercalate (p := (· == ' ')) hfields hbar [' '] [' ']
    (by simp) (by simp) (by decide)
  have hline : (rowLine columns widths cells).toList =
      [' '] ++ ['│'].intercalate ((fields columns widths cells).map String.toList) ++ [' '] := by
    rw [rowLine_eq_frame, frame, String.toList_append, String.toList_append,
      String.toList_intercalate]
    rfl
  rw [readRow, hline, hsplit, List.map_map]
  exact map_strip_fields h hlen hcells

structure Readable (t : Table) : Prop where
  columns : t.columns ≠ []
  rectangular : t.Rectangular
  titles : ∀ title ∈ t.titles, ReadableCell title
  cells : ∀ row ∈ t.rows, ∀ cell ∈ row, ReadableCell cell

theorem inline_frame {separator : String} (h : Text.Inline separator) {parts : List String}
    (hparts : ∀ part ∈ parts, Text.Inline part) : Text.Inline (frame separator parts) := by
  have hborder : Text.Inline " " := Text.inline_of_plain (Text.plain_of_all rfl)
  rw [frame, Text.inline_append, Text.inline_append]
  exact ⟨⟨hborder, Text.inline_intercalate h hparts⟩, hborder⟩

theorem inline_rowLine (columns : List Column) (widths : List Nat) {cells : List String}
    (h : ∀ cell ∈ cells, ReadableCell cell) : Text.Inline (rowLine columns widths cells) := by
  apply inline_frame (List.all_eq_true.1 rfl)
  intro field hfield
  obtain ⟨align, width, cell, hcell, rfl⟩ := mem_fields hfield
  intro c hc
  rcases of_mem_field hc with rfl | hc
  · rfl
  · exact (h cell hcell).inline c hc

theorem inline_ruleLine {crossing : String} (h : Text.Inline crossing) (widths : List Nat) :
    Text.Inline (ruleLine crossing widths) := by
  apply inline_frame h
  intro part hpart
  obtain ⟨width, _, rfl⟩ := List.mem_map.1 hpart
  exact Text.inline_replicate rfl (width + 2)

def shown (t : Table) : List (List Char) := Text.lines t.render.toList

variable {t : Table}

theorem Readable.inline_lines (h : t.Readable) : ∀ line ∈ t.lines, Text.Inline line := by
  have hcross : Text.Inline "┼" := List.all_eq_true.1 rfl
  have hfoot : Text.Inline "┴" := List.all_eq_true.1 rfl
  rw [lines, List.forall_mem_append, List.forall_mem_append, List.forall_mem_cons,
    List.forall_mem_singleton, List.forall_mem_singleton, List.forall_mem_map]
  exact ⟨⟨⟨inline_rowLine _ _ h.titles, inline_ruleLine hcross _⟩,
    fun row hrow => inline_rowLine _ _ (h.cells row hrow)⟩, inline_ruleLine hfoot _⟩

theorem Readable.shown_eq (h : t.Readable) : t.shown = t.lines.map String.toList := by
  rw [shown, render, Text.toList_join_lines, Text.lines_terminated]
  exact List.forall_mem_map.2 h.inline_lines

theorem Readable.length_of_mem_shown (h : t.Readable) :
    ∀ line ∈ t.shown, line.length = frameWidth (t.widths.map (· + 2)) := by
  rw [h.shown_eq, List.forall_mem_map]
  exact fun line hline =>
    String.length_toList.trans (length_of_mem_lines h.rectangular line hline)

theorem Readable.length_shown (h : t.Readable) : t.shown.length = t.rows.length + 3 := by
  rw [h.shown_eq, List.length_map, length_lines]

theorem Readable.map_readRow_shown (h : t.Readable) :
    (t.shown.drop 2).dropLast.map readRow = t.rows.map (·.map String.toList) := by
  have hrows : (t.shown.drop 2).dropLast =
      t.rows.map fun row => (rowLine t.columns t.widths row).toList := by
    rw [h.shown_eq, lines, List.append_assoc, List.map_append]
    simp
  rw [hrows, List.map_map]
  apply List.map_congr_left
  intro row hrow
  exact readRow_rowLine (h.rectangular.fits.2 row hrow) (length_widths h.rectangular) h.columns
    (h.cells row hrow)

end Table

end Opstream
