import Mathlib.Algebra.Ring.Nat
import Mathlib.Data.List.Forall2
import Opstream.Listing

namespace Opstream

namespace Table

/-- Cells that columns of these widths have room for. -/
def Fits (cells : List String) (widths : List Nat) : Prop :=
  List.Forall₂ (fun cell width => cell.length ≤ width) cells widths

def widen (widths : List Nat) (row : List String) : List Nat :=
  List.zipWith max widths (row.map String.length)

theorem widths_eq (t : Table) : t.widths = t.rows.foldl widen (t.titles.map String.length) := rfl

theorem length_widen {widths : List Nat} {row : List String} (h : row.length = widths.length) :
    (widen widths row).length = widths.length := by
  simp [widen, h]

theorem Fits.widen {cells row : List String} {widths : List Nat} (h : Fits cells widths)
    (hlen : row.length = widths.length) : Fits cells (widen widths row) := by
  induction h generalizing row with
  | nil => exact .nil
  | cons hcell _ ih =>
      cases row with
      | nil => cases hlen
      | cons other row =>
          exact .cons (Nat.le_trans hcell (Nat.le_max_left _ _)) (ih (Nat.succ.inj hlen))

theorem fits_widen {row : List String} {widths : List Nat} (hlen : row.length = widths.length) :
    Fits row (widen widths row) := by
  induction row generalizing widths with
  | nil =>
      rw [Table.widen, List.map_nil, List.zipWith_nil_right]
      exact .nil
  | cons cell row ih =>
      cases widths with
      | nil => cases hlen
      | cons width widths => exact .cons (Nat.le_max_right _ _) (ih (Nat.succ.inj hlen))

theorem fits_foldl {rows : List (List String)} {widths : List Nat}
    (hlen : ∀ row ∈ rows, row.length = widths.length) :
    (∀ cells, Fits cells widths → Fits cells (rows.foldl widen widths)) ∧
    ∀ row ∈ rows, Fits row (rows.foldl widen widths) := by
  induction rows generalizing widths with
  | nil => exact ⟨fun _ h => h, fun row hrow => absurd hrow List.not_mem_nil⟩
  | cons row rows ih =>
      obtain ⟨hrow, hrows⟩ := List.forall_mem_cons.1 hlen
      have hmore : ∀ other ∈ rows, other.length = (widen widths row).length :=
        fun other hother => (hrows other hother).trans (length_widen hrow).symm
      obtain ⟨hkeep, hfits⟩ := ih hmore
      exact ⟨fun cells h => hkeep cells (h.widen hrow),
        List.forall_mem_cons.2 ⟨hkeep row (fits_widen hrow), hfits⟩⟩

def Rectangular (t : Table) : Prop := ∀ row ∈ t.rows, row.length = t.columns.length

theorem Rectangular.fits {t : Table} (h : t.Rectangular) :
    Fits t.titles t.widths ∧ ∀ row ∈ t.rows, Fits row t.widths := by
  have hlen : ∀ row ∈ t.rows, row.length = (t.titles.map String.length).length := by
    intro row hrow
    rw [List.length_map, titles, List.length_map]
    exact h row hrow
  have htitles : Fits t.titles (t.titles.map String.length) := by
    rw [Fits, List.forall₂_map_right_iff, List.forall₂_same]
    exact fun title _ => Nat.le_refl _
  obtain ⟨hkeep, hrows⟩ := fits_foldl hlen
  rw [widths_eq]
  exact ⟨hkeep t.titles htitles, hrows⟩

/-- A line of a table: parts between separators, and a blank as border. -/
def frame (separator : String) (parts : List String) : String :=
  " " ++ separator.intercalate parts ++ " "

def frameWidth (lengths : List Nat) : Nat := lengths.sum + (lengths.length - 1) + 2

theorem length_frame {separator : String} (h : separator.length = 1) (parts : List String) :
    (frame separator parts).length = frameWidth (parts.map String.length) := by
  have hinner : (separator.intercalate parts).length =
      (parts.map String.length).sum + (parts.length - 1) := by
    induction parts with
    | nil => simp
    | cons part parts ih =>
        cases parts with
        | nil => simp
        | cons next parts =>
            rw [String.intercalate_cons_cons, String.length_append, String.length_append, ih, h]
            simp
            omega
  rw [frame, String.length_append, String.length_append, hinner, frameWidth, List.length_map]
  change 1 + _ + 1 = _
  omega

def fields (columns : List Column) (widths : List Nat) (cells : List String) : List String :=
  (List.zipWith (fun (column, width) cell => column.align.fill width cell)
    (columns.zip widths) cells).map fun field => " " ++ field ++ " "

theorem rowLine_eq_frame (columns : List Column) (widths : List Nat) (cells : List String) :
    rowLine columns widths cells = frame "│" (fields columns widths cells) := rfl

theorem ruleLine_eq_frame (crossing : String) (widths : List Nat) :
    ruleLine crossing widths = frame crossing
      (widths.map fun width => String.ofList (List.replicate (width + 2) '─')) := rfl

theorem fields_cons (column : Column) (columns : List Column) (width : Nat) (widths : List Nat)
    (cell : String) (cells : List String) :
    fields (column :: columns) (width :: widths) (cell :: cells) =
      (" " ++ column.align.fill width cell ++ " ") :: fields columns widths cells := rfl

theorem length_fill {align : Align} {width : Nat} {cell : String} (h : cell.length ≤ width) :
    (align.fill width cell).length = width := by
  cases align with
  | left => simp [Align.fill]; omega
  | right => simp [Align.fill]; omega

theorem map_length_fields {columns : List Column} {widths : List Nat} {cells : List String}
    (h : Fits cells widths) (hlen : columns.length = widths.length) :
    (fields columns widths cells).map String.length = widths.map (· + 2) := by
  induction h generalizing columns with
  | nil => cases columns <;> rfl
  | @cons cell width cells widths hcell _ ih =>
      cases columns with
      | nil => cases hlen
      | cons column columns =>
          have hfield : (" " ++ column.align.fill width cell ++ " ").length = width + 2 := by
            rw [String.length_append, String.length_append, length_fill hcell]
            change 1 + width + 1 = width + 2
            omega
          rw [fields_cons, List.map_cons, hfield, ih (Nat.succ.inj hlen)]
          rfl

variable {t : Table}

theorem length_widths (h : t.Rectangular) : t.columns.length = t.widths.length := by
  have hlen := h.fits.1.length_eq
  rw [titles, List.length_map] at hlen
  exact hlen

theorem length_rowLine {columns : List Column} {widths : List Nat} {cells : List String}
    (h : Fits cells widths) (hlen : columns.length = widths.length) :
    (rowLine columns widths cells).length = frameWidth (widths.map (· + 2)) := by
  rw [rowLine_eq_frame, length_frame (by rfl), map_length_fields h hlen]

theorem length_ruleLine {crossing : String} (h : crossing.length = 1) (widths : List Nat) :
    (ruleLine crossing widths).length = frameWidth (widths.map (· + 2)) := by
  rw [ruleLine_eq_frame, length_frame h, List.map_map]
  congr 2
  funext width
  simp

theorem length_of_mem_lines (h : t.Rectangular) :
    ∀ line ∈ t.lines, line.length = frameWidth (t.widths.map (· + 2)) := by
  have hlen := length_widths h
  rw [lines, List.forall_mem_append, List.forall_mem_append, List.forall_mem_cons,
    List.forall_mem_singleton, List.forall_mem_singleton, List.forall_mem_map]
  exact ⟨⟨⟨length_rowLine h.fits.1 hlen, length_ruleLine rfl _⟩,
    fun row hrow => length_rowLine (h.fits.2 row hrow) hlen⟩, length_ruleLine rfl _⟩

theorem length_lines (t : Table) : t.lines.length = t.rows.length + 3 := by
  simp [lines]

end Table

end Opstream
