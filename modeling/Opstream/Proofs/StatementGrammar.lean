import Opstream.Proofs.LineComment

namespace Opstream.Source.Statement

open Text

/-- How many words the offset of a line takes up. An offset is a first word of digits only that
has a blank behind it. -/
def offsetWords (cs : List Char) : Nat :=
  match words cs with
  | [] => 0
  | word :: _ => if word.all Char.isDigit && (cs.dropWhile isBlank).any isBlank then 1 else 0

/-- A name of letters and digits, and operands of digits. -/
inductive Spells : List (List Char) → Statement → Prop
  | intro (name : List Char) (operands : List (List Char))
      (hname : ∀ c ∈ name, c.isAlphanum = true)
      (hoperands : ∀ digits ∈ operands, ∀ c ∈ digits, c.isDigit = true) :
      Spells (name :: operands) ⟨String.ofList name, operands.map String.ofList⟩

theorem readOperand?_of_blanks {cs : List Char} (h : words cs = []) : readOperand? cs = none := by
  rw [words_eq_nil_iff] at h
  cases hgap : run? isBlank cs with
  | none => rw [readOperand?, hgap]
  | some split =>
      obtain ⟨gap, behind⟩ := split
      obtain ⟨_, _, rfl⟩ := run?_eq_some_iff.1 hgap
      rw [readOperand?, hgap, h]
      rfl

theorem readOperands_of_words {cs : List Char} {ws : List (List Char)} (hstart : Stops isSolid cs)
    (hwords : words cs = ws) (hdigits : ∀ w ∈ ws, ∀ c ∈ w, c.isDigit = true) :
    (readOperands cs).1 = ws ∧ words (readOperands cs).2 = [] := by
  induction ws generalizing cs with
  | nil =>
      rw [readOperands_of_none (readOperand?_of_blanks hwords)]
      exact ⟨rfl, hwords⟩
  | cons w ws ih =>
      cases cs with
      | nil => cases hwords
      | cons c cs =>
          have hc : isBlank c = true := by simpa [isSolid] using hstart c rfl
          have hgap : run? isBlank (c :: cs) =
              some ((c :: cs).takeWhile isBlank, (c :: cs).dropWhile isBlank) := by
            refine run?_eq_some_iff.2 ⟨?_, rfl, rfl⟩
            rw [List.takeWhile_cons_of_pos hc]
            exact List.cons_ne_nil c _
          rw [← words_dropWhile] at hwords
          obtain ⟨more, hrun, hstop, hmore⟩ := run?_of_words (fun _ => isSolid_of_isDigit)
            (stops_dropWhile isBlank _) hwords (hdigits w List.mem_cons_self)
          have hread : readOperand? (c :: cs) = some (w, more) := by
            rw [readOperand?, hgap]
            exact hrun
          obtain ⟨hvalues, hrest⟩ :=
            ih hstop hmore fun v hv => hdigits v (List.mem_cons_of_mem w hv)
          rw [readOperands_of_some hread, hvalues]
          exact ⟨rfl, hrest⟩

theorem words_of_readOperand? {cs digits more : List Char}
    (h : readOperand? cs = some (digits, more)) (hmore : Stops isSolid more) :
    Stops isSolid cs ∧ words cs = digits :: words more ∧ ∀ c ∈ digits, c.isDigit = true := by
  obtain ⟨gap, behind, hgap, hdigits⟩ := readOperand?_eq_some h
  obtain ⟨_, _, rfl⟩ := run?_eq_some_iff.1 hgap
  refine ⟨stops_solid_of_run? hgap, ?_, of_mem_run? hdigits⟩
  rw [← words_dropWhile]
  exact words_of_run? (fun _ => isSolid_of_isDigit) hdigits hmore

theorem words_of_readOperands {cs : List Char} (h : words (readOperands cs).2 = []) :
    Stops isSolid cs ∧ words cs = (readOperands cs).1 ∧
      ∀ w ∈ words cs, ∀ c ∈ w, c.isDigit = true := by
  induction cs using readOperands.induct with
  | case1 cs hread =>
      rw [readOperands_of_none hread] at h ⊢
      refine ⟨?_, h, ?_⟩
      · rcases stops_solid_or cs with hsolid | ⟨hne, hblank⟩
        · exact hsolid
        · rw [words_of_stops hne hblank] at h
          cases h
      · rw [h]
        exact fun w hw => absurd hw List.not_mem_nil
  | case2 cs digits more hread _ _ _ ih =>
      rw [readOperands_of_some hread] at h ⊢
      obtain ⟨hstop, hwords, hmore⟩ := ih h
      obtain ⟨hstart, hfirst, hdigits⟩ := words_of_readOperand? hread hstop
      refine ⟨hstart, ?_, ?_⟩
      · rw [hfirst, hwords]
      · rw [hfirst]
        exact List.forall_mem_cons.2 ⟨hdigits, hmore⟩

theorem offsetWords_of_blank {cs digits rest gap behind : List Char} (hstart : Stops isBlank cs)
    (hdigits : run? Char.isDigit cs = some (digits, rest))
    (hgap : run? isBlank rest = some (gap, behind)) : offsetWords cs = 1 := by
  have hwords := words_of_run? (fun _ => isSolid_of_isDigit) hdigits (stops_solid_of_run? hgap)
  have hall : digits.all Char.isDigit = true := List.all_eq_true.2 (of_mem_run? hdigits)
  have hblank : (cs.dropWhile isBlank).any isBlank = true := by
    obtain ⟨c, hc⟩ := List.exists_mem_of_ne_nil gap (run?_eq_some_iff.1 hgap).1
    rw [hstart.dropWhile_eq, append_of_run? hdigits, append_of_run? hgap]
    exact List.any_eq_true.2 ⟨c, by simp [hc], of_mem_run? hgap c hc⟩
  rw [offsetWords, hwords]
  dsimp only
  rw [hall, hblank]
  rfl

theorem offsetWords_of_stops {cs : List Char} (hstart : Stops isBlank cs)
    (h : ∀ digits rest, run? Char.isDigit cs = some (digits, rest) → Stops isBlank rest) :
    offsetWords cs = 0 := by
  cases hwords : words cs with
  | nil => rw [offsetWords, hwords]
  | cons word ws =>
      rw [offsetWords, hwords]
      dsimp only
      by_cases hdigits : ∀ c ∈ word, c.isDigit = true
      · obtain ⟨rest, hrun, hsolid, _⟩ :=
          run?_of_words (fun _ => isSolid_of_isDigit) hstart hwords hdigits
        have hcs := append_of_run? hrun
        rw [eq_nil_of_stops hsolid (h word rest hrun), List.append_nil] at hcs
        have hnone : cs.any isBlank = false := by
          rw [List.any_eq_false, hcs]
          intro c hc
          rw [not_isBlank_of_isDigit (hdigits c hc)]
          exact Bool.false_ne_true
        rw [hstart.dropWhile_eq, hnone, Bool.and_false]
        rfl
      · rw [← List.all_eq_true] at hdigits
        rw [eq_false_of_ne_true hdigits, Bool.false_and]
        rfl

theorem words_skipOffset {cs : List Char} (hstart : Stops isBlank cs) :
    Stops isBlank (skipOffset cs) ∧
      words (skipOffset cs) = (words cs).drop (offsetWords cs) := by
  by_cases h : ∀ digits rest, run? Char.isDigit cs = some (digits, rest) → Stops isBlank rest
  · have hskip : skipOffset cs = cs := by
      cases hdigits : run? Char.isDigit cs with
      | none => rw [skipOffset, hdigits]
      | some split =>
          rw [skipOffset, hdigits]
          dsimp only
          rw [run?_of_stops (h split.1 split.2 hdigits)]
    rw [hskip, offsetWords_of_stops hstart h]
    exact ⟨hstart, rfl⟩
  · simp only [not_forall] at h
    obtain ⟨digits, rest, hdigits, hrest⟩ := h
    cases hgap : run? isBlank rest with
    | none => exact absurd (stops_of_run? hgap) hrest
    | some split =>
        obtain ⟨gap, behind⟩ := split
        have hskip : skipOffset cs = behind := by
          rw [skipOffset, hdigits]
          dsimp only
          rw [hgap]
        have hwords := words_of_run? (fun _ => isSolid_of_isDigit) hdigits
          (stops_solid_of_run? hgap)
        obtain ⟨_, _, hbehind⟩ := run?_eq_some_iff.1 hgap
        rw [hskip, offsetWords_of_blank hstart hdigits hgap, hwords, List.drop_one, List.tail_cons,
          hbehind, words_dropWhile]
        exact ⟨stops_dropWhile isBlank rest, rfl⟩

theorem read?_iff_spells {cs : List Char} (hstart : Stops isBlank cs) (s : Statement) :
    (∃ rest, read? cs = some (s, rest) ∧ words rest = []) ↔
      Spells ((words cs).drop (offsetWords cs)) s := by
  obtain ⟨hbehind, hwords⟩ := words_skipOffset hstart
  rw [← hwords]
  constructor
  · rintro ⟨rest, hread, hrest⟩
    obtain ⟨name, more, hname, rfl, rfl⟩ := read?_eq_some hread
    obtain ⟨hstop, hmore, hdigits⟩ := words_of_readOperands hrest
    rw [words_of_run? (fun _ => isSolid_of_isAlphanum) hname hstop, ← hmore]
    exact .intro name (words more) (of_mem_run? hname) hdigits
  · intro h
    generalize hws : words (skipOffset cs) = ws at h
    cases h with
    | intro name operands hname hoperands =>
        obtain ⟨more, hrun, hstop, hmore⟩ :=
          run?_of_words (fun _ => isSolid_of_isAlphanum) hbehind hws hname
        obtain ⟨hvalues, hrest⟩ := readOperands_of_words hstop hmore hoperands
        refine ⟨(readOperands more).2, ?_, hrest⟩
        rw [read?, hrun]
        dsimp only
        rw [hvalues]

theorem ofLine?_blank_iff (line : List Char) :
    ofLine? line = some none ↔ words (body line) = [] := by
  rw [ofLine?_eq]
  cases hread : read? ((body line).dropWhile isBlank) with
  | none => simp
  | some split =>
      have hne : words (body line) ≠ [] := by
        intro hnil
        rw [words_eq_nil_iff.1 hnil] at hread
        cases hread
      by_cases hrest : words split.2 = []
      · simp [hne, hrest]
      · simp [hne, hrest]

theorem ofLine?_statement_iff (line : List Char) (s : Statement) :
    ofLine? line = some (some s) ↔
      Spells ((words (body line)).drop (offsetWords (body line))) s := by
  have hstart := stops_dropWhile isBlank (body line)
  have hoffset : offsetWords ((body line).dropWhile isBlank) = offsetWords (body line) := by
    rw [offsetWords, words_dropWhile, hstart.dropWhile_eq, offsetWords]
  have hspells := read?_iff_spells hstart s
  rw [words_dropWhile, hoffset] at hspells
  rw [← hspells, ofLine?_eq]
  cases hread : read? ((body line).dropWhile isBlank) with
  | none => simp
  | some split =>
      obtain ⟨found, rest⟩ := split
      by_cases hrest : words rest = []
      · simp [hrest]
      · simp [hrest]

/-- A line is blank up to its comment, or it spells a statement, or nothing can be read. -/
theorem ofLine?_grammar (line : List Char) :
    (ofLine? line = some none ↔ words (body line) = []) ∧
    (∀ s, ofLine? line = some (some s) ↔
      Spells ((words (body line)).drop (offsetWords (body line))) s) ∧
    (ofLine? line = none ↔ words (body line) ≠ [] ∧
      ∀ s, ¬ Spells ((words (body line)).drop (offsetWords (body line))) s) := by
  refine ⟨ofLine?_blank_iff line, ofLine?_statement_iff line, ?_⟩
  simp only [← ofLine?_statement_iff, ne_eq, ← ofLine?_blank_iff]
  match ofLine? line with
  | none => simp
  | some none => simp
  | some (some s) => simp

/-- A blank behind the first digits makes them an offset, a comment does not. -/
example : ofLine? "12 #c".toList = none ∧ ofLine? "12#c".toList = some (some ⟨"12", []⟩) := by
  decide +kernel

end Opstream.Source.Statement
