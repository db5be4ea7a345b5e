import Opstream.Proofs.StatementText

namespace Opstream

namespace Text

theorem stops_dropWhile (p : Char → Bool) (cs : List Char) : Stops p (cs.dropWhile p) := by
  intro c hc
  have hhead := List.head?_dropWhile_not p cs
  rw [hc] at hhead
  exact hhead

theorem Stops.append {p : Char → Bool} {cs rest : List Char} (hcs : Stops p cs)
    (hrest : Stops p rest) : Stops p (cs ++ rest) := by
  cases cs with
  | nil => exact hrest
  | cons c cs => exact stops_cons (hcs c rfl) (cs ++ rest)

end Text

namespace Source.Statement

open Text

/-- The longest runs of characters that are not blank. -/
def words (cs : List Char) : List (List Char) := (cs.splitOnP isBlank).filter (· ≠ [])

def isSolid (c : Char) : Bool := !isBlank c

theorem isSolid_of_isAlphanum {c : Char} (h : c.isAlphanum = true) : isSolid c = true := by
  rw [isSolid, not_isBlank_of_isAlphanum h]
  rfl

theorem isSolid_of_isDigit {c : Char} (h : c.isDigit = true) : isSolid c = true :=
  isSolid_of_isAlphanum (isAlphanum_of_isDigit h)

theorem stops_solid_of_blank {c : Char} (h : isBlank c = true) (rest : List Char) :
    Stops isSolid (c :: rest) := by
  apply stops_cons
  rw [isSolid, h]
  rfl

theorem stops_solid_or (cs : List Char) : Stops isSolid cs ∨ cs ≠ [] ∧ Stops isBlank cs := by
  cases cs with
  | nil => exact .inl (stops_nil isSolid)
  | cons c cs =>
      by_cases hc : isBlank c = true
      · exact .inl (stops_solid_of_blank hc cs)
      · exact .inr ⟨List.cons_ne_nil c cs, stops_cons (eq_false_of_ne_true hc) cs⟩

theorem stops_of_run? {p : Char → Bool} {cs : List Char} (h : run? p cs = none) : Stops p cs := by
  cases cs with
  | nil => exact stops_nil p
  | cons c cs =>
      by_cases hc : p c = true
      · rw [run?, List.takeWhile_cons_of_pos hc] at h
        cases h
      · exact stops_cons (eq_false_of_ne_true hc) cs

theorem of_mem_run? {p : Char → Bool} {cs run rest : List Char}
    (h : run? p cs = some (run, rest)) : ∀ c ∈ run, p c = true := by
  rw [(run?_eq_some_iff.1 h).2.1]
  exact List.all_eq_true.1 List.all_takeWhile

theorem stops_rest_of_run? {p : Char → Bool} {cs run rest : List Char}
    (h : run? p cs = some (run, rest)) : Stops p rest := by
  rw [(run?_eq_some_iff.1 h).2.2]
  exact stops_dropWhile p cs

theorem readOperand?_eq_some {cs digits more : List Char}
    (h : readOperand? cs = some (digits, more)) : ∃ gap behind,
      run? isBlank cs = some (gap, behind) ∧ run? Char.isDigit behind = some (digits, more) := by
  cases hgap : run? isBlank cs with
  | none =>
      rw [readOperand?, hgap] at h
      cases h
  | some split =>
      rw [readOperand?, hgap] at h
      exact ⟨split.1, split.2, rfl, h⟩

theorem read?_eq_some {cs rest : List Char} {s : Statement} (h : read? cs = some (s, rest)) :
    ∃ name more, run? Char.isAlphanum (skipOffset cs) = some (name, more) ∧
      s = ⟨String.ofList name, (readOperands more).1.map String.ofList⟩ ∧
      rest = (readOperands more).2 := by
  cases hname : run? Char.isAlphanum (skipOffset cs) with
  | none =>
      rw [read?, hname] at h
      cases h
  | some split =>
      rw [read?, hname] at h
      cases h
      exact ⟨split.1, split.2, rfl, rfl, rfl⟩

theorem stops_solid_of_run? {cs : List Char} {split : List Char × List Char}
    (h : run? isBlank cs = some split) : Stops isSolid cs := by
  rcases stops_solid_or cs with hsolid | ⟨_, hblank⟩
  · exact hsolid
  · rw [run?_of_stops hblank] at h
    cases h

theorem eq_nil_of_stops {cs : List Char} (hsolid : Stops isSolid cs) (hblank : Stops isBlank cs) :
    cs = [] := by
  cases cs with
  | nil => rfl
  | cons c cs =>
      have hc := hsolid c rfl
      rw [isSolid, hblank c rfl] at hc
      cases hc

theorem words_nil : words [] = [] := rfl

theorem words_cons_blank {c : Char} (h : isBlank c = true) (cs : List Char) :
    words (c :: cs) = words cs := by
  rw [words, List.splitOnP_cons_eq_if_modifyHead, if_pos h]
  rfl

theorem words_append_of_blanks {gap : List Char} (h : ∀ c ∈ gap, isBlank c = true)
    (cs : List Char) : words (gap ++ cs) = words cs := by
  induction gap with
  | nil => rfl
  | cons c gap ih =>
      rw [List.cons_append, words_cons_blank (h c List.mem_cons_self)]
      exact ih fun d hd => h d (List.mem_cons_of_mem c hd)

theorem words_dropWhile (cs : List Char) : words (cs.dropWhile isBlank) = words cs := by
  conv_rhs => rw [← List.takeWhile_append_dropWhile (p := isBlank) (l := cs)]
  exact (words_append_of_blanks (List.all_eq_true.1 List.all_takeWhile) _).symm

theorem words_append {word : List Char} (hne : word ≠ []) (hword : ∀ c ∈ word, isSolid c = true)
    {rest : List Char} (hrest : Stops isSolid rest) :
    words (word ++ rest) = word :: words rest := by
  have hsolid : ∀ c ∈ word, isBlank c = false := fun c hc => by
    simpa [isSolid] using hword c hc
  cases rest with
  | nil =>
      rw [List.append_nil, words, List.splitOnP_eq_singleton hsolid, words_nil]
      simp [hne]
  | cons c rest =>
      have hc : isBlank c = true := by simpa [isSolid] using hrest c rfl
      rw [words, List.splitOnP_append_cons word rest hc, List.splitOnP_eq_singleton hsolid,
        words_cons_blank hc]
      simp [hne, words]

theorem takeWhile_solid_ne_nil {cs : List Char} (hne : cs ≠ []) (hstart : Stops isBlank cs) :
    cs.takeWhile isSolid ≠ [] := by
  cases cs with
  | nil => exact absurd rfl hne
  | cons c cs =>
      have hc : isSolid c = true := by
        rw [isSolid, hstart c rfl]
        rfl
      rw [List.takeWhile_cons_of_pos hc]
      exact List.cons_ne_nil c _

theorem words_of_stops {cs : List Char} (hne : cs ≠ []) (hstart : Stops isBlank cs) :
    words cs = cs.takeWhile isSolid :: words (cs.dropWhile isSolid) := by
  conv_lhs => rw [← List.takeWhile_append_dropWhile (p := isSolid) (l := cs)]
  apply words_append
  · exact takeWhile_solid_ne_nil hne hstart
  · exact List.all_eq_true.1 List.all_takeWhile
  · exact stops_dropWhile isSolid cs

theorem words_eq_nil_iff {cs : List Char} : words cs = [] ↔ cs.dropWhile isBlank = [] := by
  rw [← words_dropWhile]
  constructor
  · intro h
    by_contra hne
    rw [words_of_stops hne (stops_dropWhile isBlank cs)] at h
    cases h
  · intro h
    rw [h, words_nil]

theorem stops_of_stops_solid {p : Char → Bool} (hp : ∀ c, p c = true → isSolid c = true)
    {rest : List Char} (h : Stops isSolid rest) : Stops p rest := by
  intro c hc
  rw [Bool.eq_false_iff]
  intro htrue
  have hsolid := h c hc
  rw [hp c htrue] at hsolid
  cases hsolid

/-- The first word is read as a whole if all its characters are of the class that is read. -/
theorem run?_of_words {p : Char → Bool} (hp : ∀ c, p c = true → isSolid c = true)
    {cs word : List Char} {ws : List (List Char)} (hstart : Stops isBlank cs)
    (hwords : words cs = word :: ws) (hword : ∀ c ∈ word, p c = true) :
    ∃ rest, run? p cs = some (word, rest) ∧ Stops isSolid rest ∧ words rest = ws := by
  have hne : cs ≠ [] := by
    rintro rfl
    cases hwords
  rw [words_of_stops hne hstart] at hwords
  obtain ⟨rfl, rfl⟩ := List.cons.inj hwords
  have hstop := stops_dropWhile isSolid cs
  refine ⟨cs.dropWhile isSolid, ?_, hstop, rfl⟩
  conv_lhs => rw [← List.takeWhile_append_dropWhile (p := isSolid) (l := cs)]
  exact run?_append (takeWhile_solid_ne_nil hne hstart) hword (stops_of_stops_solid hp hstop)

theorem words_of_run? {p : Char → Bool} (hp : ∀ c, p c = true → isSolid c = true)
    {cs run rest : List Char} (h : run? p cs = some (run, rest)) (hrest : Stops isSolid rest) :
    words cs = run :: words rest := by
  rw [append_of_run? h]
  apply words_append (run?_eq_some_iff.1 h).1 _ hrest
  exact fun c hc => hp c (of_mem_run? h c hc)

end Source.Statement

end Opstream
