import Opstream.Proofs.TableListing
import Opstream.Proofs.TableReading

namespace Opstream

namespace Hex

def digitValue? (c : Char) : Option Nat := "0123456789ABCDEF".toList.idxOf? c

def readPair? : List Char → Option UInt8
  | [high, low] => do
      let h ← digitValue? high
      let l ← digitValue? low
      pure (UInt8.ofNat (16 * h + l))
  | _ => none

def read? (cs : List Char) : Option (List UInt8) :=
  ((cs.splitOn ' ').filter (· ≠ [])).mapM readPair?

theorem digitValue?_digit : ∀ n < 16, digitValue? (digit n) = some n := by decide

theorem isAlphanum_digit : ∀ n < 16, (digit n).isAlphanum = true := by decide

theorem halves_lt (b : UInt8) : b.toNat / 16 < 16 ∧ b.toNat % 16 < 16 := by
  have hb := b.toNat_lt
  omega

theorem readPair?_pair (b : UInt8) : readPair? (pair b).toList = some b := by
  obtain ⟨hhigh, hlow⟩ := halves_lt b
  rw [toList_pair, readPair?, digitValue?_digit _ hhigh, digitValue?_digit _ hlow]
  change some (UInt8.ofNat (16 * (b.toNat / 16) + b.toNat % 16)) = some b
  rw [Nat.div_add_mod, UInt8.ofNat_toNat]

theorem isAlphanum_of_mem_pair {b : UInt8} {c : Char} (h : c ∈ (pair b).toList) :
    c.isAlphanum = true := by
  obtain ⟨hhigh, hlow⟩ := halves_lt b
  rw [toList_pair, List.mem_pair] at h
  rcases h with rfl | rfl
  · exact isAlphanum_digit _ hhigh
  · exact isAlphanum_digit _ hlow

theorem pair_ne_nil (b : UInt8) : (pair b).toList ≠ [] := by
  rw [toList_pair]
  exact List.cons_ne_nil _ _

theorem mapM_readPair?_pairs (bytes : List UInt8) :
    ((pairs bytes).map String.toList).mapM readPair? = some bytes := by
  induction bytes with
  | nil => rfl
  | cons b bytes ih =>
      rw [pairs, List.map_cons, List.map_cons, List.mapM_cons, readPair?_pair]
      change (((pairs bytes).map String.toList).mapM readPair?).bind
        (fun more => some (b :: more)) = _
      rw [ih]
      rfl

theorem read?_text (bytes : List UInt8) : read? (text bytes).toList = some bytes := by
  by_cases hbytes : bytes = []
  · subst bytes
    rfl
  · have hne : (pairs bytes).map String.toList ≠ [] := by simpa [pairs] using hbytes
    have hspace : ∀ part ∈ (pairs bytes).map String.toList, ' ' ∉ part := by
      intro part hpart hm
      obtain ⟨_, hword, rfl⟩ := List.mem_map.1 hpart
      obtain ⟨b, _, rfl⟩ := List.mem_map.1 hword
      exact absurd (isAlphanum_of_mem_pair hm) (by decide)
    have hparts : ∀ part ∈ (pairs bytes).map String.toList, decide (part ≠ []) = true := by
      intro part hpart
      obtain ⟨_, hword, rfl⟩ := List.mem_map.1 hpart
      obtain ⟨b, _, rfl⟩ := List.mem_map.1 hword
      exact decide_eq_true (pair_ne_nil b)
    have hsplit := List.splitOn_intercalate ' ' hspace hne
    rw [read?, text, String.toList_intercalate]
    change (List.filter _ (List.splitOn ' ' ([' '].intercalate _))).mapM _ = _
    rw [hsplit, List.filter_eq_self.2 hparts, mapM_readPair?_pairs]

theorem text_append {a b : List UInt8} (ha : a ≠ []) (hb : b ≠ []) :
    text (a ++ b) = text a ++ " " ++ text b := by
  rw [text, pairs, List.map_append]
  apply String.intercalate_append_of_ne_nil
  · simpa using ha
  · simpa using hb

theorem text_flatten {parts : List (List UInt8)} (h : ∀ part ∈ parts, part ≠ []) :
    text parts.flatten = " ".intercalate (parts.map text) := by
  induction parts with
  | nil => rfl
  | cons part parts ih =>
      obtain ⟨hpart, hmore⟩ := List.forall_mem_cons.1 h
      cases parts with
      | nil => simp
      | cons next parts =>
          have hrest : (next :: parts).flatten ≠ [] := by
            rw [List.flatten_cons]
            exact List.append_ne_nil_of_left_ne_nil (hmore next List.mem_cons_self) _
          rw [List.flatten_cons, text_append hpart hrest, ih hmore]
          exact (String.intercalate_cons_of_ne_nil (List.cons_ne_nil _ _)).symm

end Hex

namespace Text

theorem stops_of_isAlphanum {cs : List Char} (h : ∃ c ∈ cs.head?, c.isAlphanum = true) :
    Stops (· == ' ') cs := by
  obtain ⟨c, hc, halnum⟩ := h
  intro d hd
  rw [Option.mem_unique hd hc]
  exact beq_eq_false_iff_ne.2 (ne_of_apart halnum rfl)

theorem Phrase.readableCell {s : String} (h : Phrase s) : Table.ReadableCell s where
  inline := inline_of_plain h.plain
  whole hm := absurd (h.plain _ hm) (by decide)
  front := stops_of_isAlphanum h.first
  back := by
    apply stops_of_isAlphanum
    rw [List.head?_reverse]
    exact h.last

theorem phrase_hex {bytes : List UInt8} (h : bytes ≠ []) : Phrase (Hex.text bytes) := by
  have hpair : ∀ b, Phrase (Hex.pair b) := fun b =>
    phrase_of_isAlphanum (Hex.pair_ne_nil b) fun _ => Hex.isAlphanum_of_mem_pair
  induction bytes with
  | nil => exact absurd rfl h
  | cons b bytes ih =>
      cases bytes with
      | nil =>
          have htext : Hex.text [b] = Hex.pair b := String.intercalate_singleton
          rw [htext]
          exact hpair b
      | cons next bytes =>
          have htext : Hex.text (b :: next :: bytes) =
              Hex.pair b ++ " " ++ Hex.text (next :: bytes) := String.intercalate_cons_cons
          rw [htext]
          exact (hpair b).append (plain_of_all rfl) (ih (List.cons_ne_nil next bytes))

end Text

namespace Segment

open Text

variable {bytes : List UInt8} {s : Segment}

theorem bytes_ne_nil (h : s ∈ walk bytes) : s.bytes ≠ [] := by
  obtain ⟨tag, rest, _, hs⟩ := exists_cut_of_mem_walk h
  obtain ⟨n, hn⟩ := bytes_cut s.offset tag rest
  rw [hs, hn]
  exact List.cons_ne_nil _ _

theorem readableCell_row (hs : s ∈ walk bytes) :
    ∀ cell ∈ s.row.cells, Table.ReadableCell cell := by
  have hoffset := phrase_offset s.offset
  have hhex := phrase_hex (bytes_ne_nil hs)
  suffices hcells : ∀ cell ∈ s.row.cells, Phrase cell from
    fun cell hcell => (hcells cell hcell).readableCell
  cases h : s.content with
  | error fault =>
      have hmark : Phrase "ERROR" := phrase_of_all (by simp) rfl
      have hat : Plain " at " := plain_of_all rfl
      have hmessage := (phrase_message hs h).append hat hoffset
      rw [row_of_error h]
      simpa [ListingRow.cells] using ⟨hoffset, hmark, hmessage, hhex⟩
  | ok i =>
      have hname : Phrase i.opcode.name :=
        phrase_of_isAlphanum i.opcode.name_ne_nil fun _ => Opcode.isAlphanum_of_mem_name
      obtain ⟨v, _, hrow⟩ := row_of_ok hs h
      rw [hrow]
      simpa [ListingRow.cells] using ⟨hoffset, hname, phrase_repr v.toNat, hhex⟩

end Segment

namespace Listing

theorem readable_table (bytes : List UInt8) : (table bytes).Readable where
  columns := by simp [table, columns]
  rectangular := by
    intro cells hcells
    obtain ⟨row, _, rfl⟩ := List.mem_map.1 hcells
    rfl
  titles := by
    have hword : ∀ title ∈ (table bytes).titles,
        title.toList ≠ [] ∧ title.toList.all Char.isAlphanum = true := by
      simp only [Table.titles, table, columns]
      decide
    exact fun title htitle =>
      (Text.phrase_of_all (hword title htitle).1 (hword title htitle).2).readableCell
  cells := by
    intro cells hcells
    obtain ⟨row, hrow, rfl⟩ := List.mem_map.1 hcells
    rw [rows_eq] at hrow
    obtain ⟨s, hs, rfl⟩ := List.mem_map.1 hrow
    exact Segment.readableCell_row hs

theorem intercalate_bytes_rows (bytes : List UInt8) :
    " ".intercalate ((rows bytes).map ListingRow.bytes) = Hex.text bytes := by
  have hcover := Cursor.flatMap_bytes_segments (Cursor.start bytes)
  change (walk bytes).flatMap Segment.bytes = bytes at hcover
  have hcells : (rows bytes).map ListingRow.bytes =
      ((walk bytes).map Segment.bytes).map Hex.text := by
    rw [rows_eq, List.map_map, List.map_map]
    exact List.map_congr_left fun s _ => Segment.bytes_row s
  have hne : ∀ part ∈ (walk bytes).map Segment.bytes, part ≠ [] :=
    List.forall_mem_map.2 fun _ => Segment.bytes_ne_nil
  rw [hcells, ← Hex.text_flatten hne, ← List.flatMap_def, hcover]

theorem rows_injective {a b : List UInt8} (h : rows a = rows b) : a = b := by
  have htext : Hex.text a = Hex.text b := by
    rw [← intercalate_bytes_rows, h, intercalate_bytes_rows]
  have hread := Hex.read?_text a
  rw [htext, Hex.read?_text] at hread
  exact (Option.some.inj hread).symm

theorem map_readRow_shown (bytes : List UInt8) :
    ((table bytes).shown.drop 2).dropLast.map Table.readRow =
      (rows bytes).map fun row => row.cells.map String.toList := by
  rw [(readable_table bytes).map_readRow_shown, table, List.map_map]
  rfl

theorem cells_injective {a b : ListingRow}
    (h : a.cells.map String.toList = b.cells.map String.toList) : a = b := by
  obtain ⟨offset, opcode, operands, code⟩ := a
  simp only [ListingRow.cells, List.map_cons, List.cons.injEq, String.toList_inj] at h
  obtain ⟨rfl, rfl, rfl, rfl, _⟩ := h
  rfl

theorem render_injective : Function.Injective fun bytes => (table bytes).render := by
  intro a b h
  have hshown : (table a).shown = (table b).shown :=
    congrArg (fun text : String => Text.lines text.toList) h
  have hrows := map_readRow_shown a
  rw [hshown, map_readRow_shown b] at hrows
  exact rows_injective (List.map_injective_iff.2 (fun _ _ => cells_injective) hrows.symm)

end Listing

/-- A table has every byte of its stream, and everything in it can be read off its text. -/
theorem table_loses_no_byte :
    (∀ bytes,
      " ".intercalate ((Listing.rows bytes).map ListingRow.bytes) = Hex.text bytes ∧
      Hex.read? (Hex.text bytes).toList = some bytes ∧
      (∃ width, ∀ line ∈ (Listing.table bytes).shown, line.length = width) ∧
      (Listing.table bytes).shown.length = (Listing.rows bytes).length + 3 ∧
      ((Listing.table bytes).shown.drop 2).dropLast.map Table.readRow =
        (Listing.rows bytes).map fun row => row.cells.map String.toList) ∧
    Function.Injective fun bytes => (Listing.table bytes).render := by
  refine ⟨fun bytes => ?_, Listing.render_injective⟩
  have hreadable := Listing.readable_table bytes
  refine ⟨Listing.intercalate_bytes_rows bytes, Hex.read?_text bytes,
    ⟨_, hreadable.length_of_mem_shown⟩, ?_, Listing.map_readRow_shown bytes⟩
  rw [hreadable.length_shown]
  exact congrArg (· + 3) (List.length_map _)

theorem table_loses_no_byte_three_rows :
    (Listing.table [0, 0, 7, 255, 0, 1]).shown.length = 6 ∧
    ((Listing.table [0, 0, 7, 255, 0, 1]).shown.drop 2).dropLast.map Table.readRow =
      [["0000", "OpConstant", "7", "00 00 07"],
        ["0003", "ERROR", "opcode 255 undefined at 0003", "FF"],
        ["0004", "ERROR", "truncated instruction: needed 2 bytes but only 1 remain at 0004",
          "00 01"]].map (·.map String.toList) ∧
    (Listing.table [0]).render ≠ (Listing.table [1]).render := by
  obtain ⟨hall, hinjective⟩ := table_loses_no_byte
  obtain ⟨_, _, _, hlength, hrows⟩ := hall [0, 0, 7, 255, 0, 1]
  refine ⟨hlength.trans (by decide +kernel), hrows.trans (by decide +kernel), fun h => ?_⟩
  exact absurd (hinjective h) (by decide)

end Opstream
