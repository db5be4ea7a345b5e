import Opstream.Proofs.StatementGrammar

namespace Opstream

theorem Text.exists_strip (p : Char → Bool) (cs : List Char) : ∃ lead trail,
    cs = lead ++ strip p cs ++ trail ∧ (∀ c ∈ lead, p c = true) ∧ ∀ c ∈ trail, p c = true := by
  refine ⟨cs.takeWhile p, ((cs.dropWhile p).reverse.takeWhile p).reverse, ?_,
    List.all_eq_true.1 List.all_takeWhile, fun c hc => ?_⟩
  · rw [strip, List.append_assoc, ← List.reverse_append, List.takeWhile_append_dropWhile,
      List.reverse_reverse, List.takeWhile_append_dropWhile]
  · exact List.all_eq_true.1 List.all_takeWhile c (List.mem_reverse.1 hc)

namespace Source.Statement

open Text

def IsBlanks (cs : List Char) : Prop := ∀ c ∈ cs, isBlank c = true

def IsNumber (cs : List Char) : Prop := cs ≠ [] ∧ ∀ c ∈ cs, c.isDigit = true

def IsGap (cs : List Char) : Prop := cs ≠ [] ∧ IsBlanks cs

/-- A number with a blank behind it, and nothing that it could be the offset of. -/
structure LoneOffset (cs digits : List Char) : Prop where
  number : IsNumber digits
  split : ∃ lead gap, IsBlanks lead ∧ IsGap gap ∧ cs = lead ++ digits ++ gap

/-- A line is read by its words. Those of the offset count only as being there. -/
theorem ofLine?_congr {l m : List Char} (hblank : words (body l) = [] ↔ words (body m) = [])
    (hwords : (words (body l)).drop (offsetWords (body l)) =
      (words (body m)).drop (offsetWords (body m))) : ofLine? l = ofLine? m := by
  apply Option.ext
  intro found
  cases found with
  | none => rw [ofLine?_blank_iff, ofLine?_blank_iff, hblank]
  | some s => rw [ofLine?_statement_iff, ofLine?_statement_iff, hwords]

section Body

variable {front back : List Char}

theorem body_append (h : '#' ∉ front) (back : List Char) :
    body (front ++ back) = front ++ body back := by
  apply List.takeWhile_append_of_pos
  intro c hc
  rw [bne_iff_ne]
  rintro rfl
  exact h hc

theorem body_append_of_mem (h : '#' ∈ front) (back : List Char) :
    body (front ++ back) = body front := by
  obtain ⟨lead, tail, rfl, hlead⟩ := List.eq_append_cons_of_mem h
  rw [List.append_assoc, body_append hlead, body_append hlead]
  rfl

theorem body_eq_self (h : '#' ∉ front) : body front = front := by
  have hbody : body (front ++ []) = front ++ [] := body_append h []
  rwa [List.append_nil] at hbody

theorem IsBlanks.not_mem {cs : List Char} (h : IsBlanks cs) {c : Char} (hc : isBlank c = false) :
    c ∉ cs := fun hm =>
  Bool.false_ne_true (hc.symm.trans (h c hm))

theorem IsNumber.not_mem {cs : List Char} (h : IsNumber cs) {c : Char} (hc : c.isDigit = false) :
    c ∉ cs := fun hm =>
  Bool.false_ne_true (hc.symm.trans (h.2 c hm))

end Body

section Words

variable {lead word rest gap front back : List Char}

theorem words_append_gap (h : IsGap gap) (front back : List Char) :
    words (front ++ gap ++ back) = words front ++ words back := by
  obtain ⟨hne, hgap⟩ := h
  obtain ⟨c, gap, rfl⟩ := List.exists_cons_of_ne_nil hne
  obtain ⟨hc, hgap⟩ := List.forall_mem_cons.1 hgap
  rw [List.append_assoc, List.cons_append, words,
    List.splitOnP_append_cons front (gap ++ back) hc, List.filter_append]
  exact congrArg (words front ++ ·) (words_append_of_blanks hgap back)

theorem words_append_blanks (h : IsBlanks gap) (front : List Char) :
    words (front ++ gap) = words front := by
  by_cases hne : gap = []
  · rw [hne, List.append_nil]
  · have hwords := words_append_gap ⟨hne, h⟩ front []
    rwa [List.append_nil, words_nil, List.append_nil] at hwords

theorem words_strip (cs : List Char) : words (strip isBlank cs) = words cs := by
  obtain ⟨lead, trail, hsplit, hlead, htrail⟩ := exists_strip isBlank cs
  conv_rhs => rw [hsplit, words_append_blanks htrail, words_append_of_blanks hlead]

theorem exists_first_word {cs : List Char} {ws : List (List Char)} (h : words cs = word :: ws) :
    ∃ lead rest, cs = lead ++ word ++ rest ∧ IsBlanks lead ∧ word ≠ [] ∧
      (∀ c ∈ word, isSolid c = true) ∧ Stops isSolid rest := by
  have hne : cs.dropWhile isBlank ≠ [] := by
    intro hnil
    rw [words_eq_nil_iff.2 hnil] at h
    cases h
  have hstart := stops_dropWhile isBlank cs
  rw [← words_dropWhile, words_of_stops hne hstart] at h
  obtain ⟨rfl, _⟩ := List.cons.inj h
  refine ⟨cs.takeWhile isBlank, (cs.dropWhile isBlank).dropWhile isSolid, ?_,
    List.all_eq_true.1 List.all_takeWhile, takeWhile_solid_ne_nil hne hstart,
    List.all_eq_true.1 List.all_takeWhile, stops_dropWhile isSolid _⟩
  rw [List.append_assoc, List.takeWhile_append_dropWhile, List.takeWhile_append_dropWhile]

theorem words_first (hlead : IsBlanks lead) (hne : word ≠ [])
    (hword : ∀ c ∈ word, isSolid c = true) (hrest : Stops isSolid rest) :
    words (lead ++ word ++ rest) = word :: words rest := by
  rw [List.append_assoc, words_append_of_blanks hlead, words_append hne hword hrest]

theorem offsetWords_first (hlead : IsBlanks lead) (hne : word ≠ [])
    (hword : ∀ c ∈ word, isSolid c = true) (hrest : Stops isSolid rest) :
    offsetWords (lead ++ word ++ rest) =
      if word.all Char.isDigit = true ∧ rest ≠ [] then 1 else 0 := by
  have hstart : Stops isBlank (word ++ rest) :=
    stops_append hne (fun c hc => by simpa [isSolid] using hword c hc) rest
  have hsolid : word.any isBlank = false := by
    rw [List.any_eq_false]
    intro c hc
    simpa [isSolid] using hword c hc
  have hblank : rest.any isBlank = true ↔ rest ≠ [] := by
    cases rest with
    | nil => simp
    | cons c rest =>
        have hc : isBlank c = true := by simpa [isSolid] using hrest c rfl
        simp [hc]
  rw [offsetWords, words_first hlead hne hword hrest]
  dsimp only
  rw [List.append_assoc, List.dropWhile_append_of_pos hlead, hstart.dropWhile_eq, List.any_append,
    hsolid, Bool.false_or]
  simp only [Bool.and_eq_true, hblank]

theorem offsetWords_of_word {cs : List Char} {ws : List (List Char)} (h : words cs = word :: ws)
    (hword : word.all Char.isDigit = false) : offsetWords cs = 0 := by
  rw [offsetWords, h]
  dsimp only
  rw [hword, Bool.false_and]
  rfl

theorem any_isBlank_gap (h : IsGap gap) (front back : List Char) :
    ((front ++ gap ++ back).dropWhile isBlank).any isBlank =
      (!(front.dropWhile isBlank).isEmpty || (back.dropWhile isBlank).any isBlank) := by
  rw [List.append_assoc, List.dropWhile_append]
  split
  next hfront => rw [List.dropWhile_append_of_pos h.2, hfront, Bool.not_true, Bool.false_or]
  next hfront =>
      obtain ⟨c, hc⟩ := List.exists_mem_of_ne_nil gap h.1
      have hany : gap.any isBlank = true := List.any_eq_true.2 ⟨c, hc, h.2 c hc⟩
      rw [List.any_append, List.any_append, hany, Bool.eq_false_of_not_eq_true hfront]
      simp

theorem offsetWords_gap {wider : List Char} (h : IsGap gap) (hwider : IsGap wider)
    (front back : List Char) :
    offsetWords (front ++ gap ++ back) = offsetWords (front ++ wider ++ back) := by
  rw [offsetWords, words_append_gap h, any_isBlank_gap h, offsetWords, words_append_gap hwider,
    any_isBlank_gap hwider]

end Words

theorem stops_solid_of_blanks {cs : List Char} (h : IsBlanks cs) : Stops isSolid cs := by
  intro c hc
  rw [isSolid, h c (List.mem_of_mem_head? hc)]
  rfl

theorem IsGap.stops_solid {gap : List Char} (h : IsGap gap) (rest : List Char) :
    Stops isSolid (gap ++ rest) := by
  apply stops_append h.1
  intro c hc
  rw [isSolid, h.2 c hc]
  rfl

section Number

variable {cs digits : List Char}

theorem IsNumber.solid (h : IsNumber digits) : ∀ c ∈ digits, isSolid c = true := fun c hc =>
  isSolid_of_isDigit (h.2 c hc)

theorem IsNumber.all (h : IsNumber digits) : digits.all Char.isDigit = true :=
  List.all_eq_true.2 h.2

theorem IsNumber.stops (h : IsNumber digits) : Stops isBlank digits := by
  intro c hc
  exact not_isBlank_of_isDigit (h.2 c (List.mem_of_mem_head? hc))

theorem IsNumber.reverse (h : IsNumber digits) : IsNumber digits.reverse :=
  ⟨List.reverse_ne_nil_iff.2 h.1, fun c hc => h.2 c (List.mem_reverse.1 hc)⟩

theorem ofLine?_number (h : IsNumber digits) :
    ofLine? digits = some (some ⟨String.ofList digits, []⟩) := by
  have hblanks : IsBlanks [] := fun c hc => absurd hc List.not_mem_nil
  have hstop : Stops isSolid [] := stops_nil isSolid
  have hwords := words_first hblanks h.1 h.solid hstop
  have hoffset := offsetWords_first hblanks h.1 h.solid hstop
  rw [List.nil_append, List.append_nil] at hwords hoffset
  rw [ofLine?_statement_iff, body_eq_self (h.not_mem rfl), hwords, hoffset,
    if_neg fun hrest => hrest.2 rfl]
  exact .intro digits [] (fun c hc => isAlphanum_of_isDigit (h.2 c hc)) (by simp)

theorem LoneOffset.strip_eq (h : LoneOffset cs digits) : strip isBlank cs = digits := by
  obtain ⟨lead, gap, hlead, hgap, rfl⟩ := h.split
  rw [strip_append_right hgap.2, strip_append_left hlead]
  exact strip_eq_self h.number.stops h.number.reverse.stops

theorem LoneOffset.ofLine?_eq_none {line : List Char} (h : LoneOffset (body line) digits) :
    ofLine? line = none := by
  obtain ⟨lead, gap, hlead, hgap, hbody⟩ := h.split
  have hstop := stops_solid_of_blanks hgap.2
  have hwords := words_first hlead h.number.1 h.number.solid hstop
  have hoffset := offsetWords_first hlead h.number.1 h.number.solid hstop
  rw [if_pos ⟨h.number.all, hgap.1⟩] at hoffset
  rw [← hbody] at hwords hoffset
  match hline : ofLine? line with
  | none => rfl
  | some none =>
      rw [ofLine?_blank_iff, hwords] at hline
      cases hline
  | some (some s) =>
      have hnil : words gap = [] := words_append_blanks hgap.2 []
      rw [ofLine?_statement_iff, hwords, hoffset, hnil] at hline
      cases hline

end Number

theorem mark_not_mem_strip {cs : List Char} (h : '#' ∉ cs) : '#' ∉ strip isBlank cs := by
  obtain ⟨lead, trail, hsplit, _⟩ := exists_strip isBlank cs
  intro hm
  apply h
  rw [hsplit]
  exact List.mem_append_left _ (List.mem_append_right _ hm)

theorem offsetWords_strip {cs : List Char} (h : ∀ digits, ¬ LoneOffset cs digits) :
    offsetWords (strip isBlank cs) = offsetWords cs := by
  obtain ⟨lead, trail, hsplit, hlead, htrail⟩ := exists_strip isBlank cs
  cases hwords : words (strip isBlank cs) with
  | nil => rw [offsetWords, hwords, offsetWords, ← words_strip, hwords]
  | cons word ws =>
      obtain ⟨inner, rest, hstrip, hinner, hne, hword, hrest⟩ := exists_first_word hwords
      have hcs : cs = (lead ++ inner) ++ word ++ (rest ++ trail) := by
        conv_lhs => rw [hsplit, hstrip]
        simp only [List.append_assoc]
      have hfront : IsBlanks (lead ++ inner) := List.forall_mem_append.2 ⟨hlead, hinner⟩
      have hback : Stops isSolid (rest ++ trail) := hrest.append (stops_solid_of_blanks htrail)
      rw [hstrip, offsetWords_first hinner hne hword hrest]
      conv_rhs => rw [hcs, offsetWords_first hfront hne hword hback]
      have hends : word.all Char.isDigit = true → rest = [] → trail = [] := by
        intro hall hnil
        by_contra htrail'
        refine h word ⟨⟨hne, List.all_eq_true.1 hall⟩, lead ++ inner, trail, hfront,
          ⟨htrail', htrail⟩, ?_⟩
        rw [hcs, hnil, List.nil_append]
      refine if_congr (and_congr_right fun hall => not_congr ⟨fun hnil => ?_, fun hnil => ?_⟩)
        rfl rfl
      · rw [hnil, hends hall hnil, List.append_nil]
      · exact (List.append_eq_nil_iff.1 hnil).1

/-- What stands around the words of a line is not read, but for the blank behind a number that is
alone. -/
theorem ofLine?_strip {line : List Char} (h : ∀ digits, ¬ LoneOffset (body line) digits) :
    ofLine? (strip isBlank (body line)) = ofLine? line := by
  have hbody := body_eq_self (mark_not_mem_strip (mark_not_mem_body line))
  apply ofLine?_congr
  · rw [hbody, words_strip]
  · rw [hbody, words_strip, offsetWords_strip h]

theorem ofLine?_gap {gap wider : List Char} (h : IsGap gap) (hwider : IsGap wider)
    (front back : List Char) :
    ofLine? (front ++ gap ++ back) = ofLine? (front ++ wider ++ back) := by
  by_cases hmark : '#' ∈ front
  · have hbody : body (front ++ gap ++ back) = body (front ++ wider ++ back) := by
      rw [List.append_assoc, List.append_assoc, body_append_of_mem hmark, body_append_of_mem hmark]
    apply ofLine?_congr
    · rw [hbody]
    · rw [hbody]
  · have hbody : ∀ {cs}, IsGap cs → body (front ++ cs ++ back) = front ++ cs ++ body back := by
      intro cs hcs
      rw [List.append_assoc, body_append hmark, body_append (hcs.2.not_mem rfl),
        List.append_assoc]
    apply ofLine?_congr
    · rw [hbody h, hbody hwider, words_append_gap h, words_append_gap hwider]
    · rw [hbody h, hbody hwider, words_append_gap h, words_append_gap hwider,
        offsetWords_gap h hwider]

section Offset

variable {lead digits gap : List Char} (hlead : IsBlanks lead) (hdigits : IsNumber digits)
  (hgap : IsGap gap) (rest : List Char)

include hlead hdigits hgap

theorem words_behind_offset :
    words (body (lead ++ digits ++ gap ++ rest)) = digits :: words (body rest) ∧
      offsetWords (body (lead ++ digits ++ gap ++ rest)) = 1 := by
  have hbody : body (lead ++ digits ++ gap ++ rest) = lead ++ digits ++ (gap ++ body rest) := by
    rw [List.append_assoc, List.append_assoc, body_append (hlead.not_mem rfl),
      body_append (hdigits.not_mem rfl), body_append (hgap.2.not_mem rfl),
      List.append_assoc]
  have hstop := hgap.stops_solid (body rest)
  have hne : gap ++ body rest ≠ [] := List.append_ne_nil_of_left_ne_nil hgap.1 _
  rw [hbody, words_first hlead hdigits.1 hdigits.solid hstop, words_append_of_blanks hgap.2,
    offsetWords_first hlead hdigits.1 hdigits.solid hstop, if_pos ⟨hdigits.all, hne⟩]
  exact ⟨rfl, rfl⟩

theorem ofLine?_offset {other : List Char} (hother : IsNumber other) :
    ofLine? (lead ++ digits ++ gap ++ rest) = ofLine? (lead ++ other ++ gap ++ rest) := by
  obtain ⟨hwords, hoffset⟩ := words_behind_offset hlead hdigits hgap rest
  obtain ⟨howords, hooffset⟩ := words_behind_offset hlead hother hgap rest
  apply ofLine?_congr
  · rw [hwords, howords]
    simp
  · rw [hwords, hoffset, howords, hooffset]
    rfl

/-- Without its offset a line says the same, unless its next word would be taken for one. -/
theorem ofLine?_drop_offset {indent word : List Char} {ws : List (List Char)}
    (hindent : IsBlanks indent) (hwords : words (body rest) = word :: ws)
    (hword : word.all Char.isDigit = false) :
    ofLine? (lead ++ digits ++ gap ++ rest) = ofLine? (indent ++ rest) := by
  obtain ⟨hall, hoffset⟩ := words_behind_offset hlead hdigits hgap rest
  have hbody : body (indent ++ rest) = indent ++ body rest :=
    body_append (hindent.not_mem rfl) rest
  have hsame : words (indent ++ body rest) = word :: ws := by
    rw [words_append_of_blanks hindent, hwords]
  apply ofLine?_congr
  · rw [hall, hbody, hsame]
    simp
  · rw [hall, hoffset, hbody, hsame, offsetWords_of_word hsame hword, hwords]
    rfl

end Offset

end Source.Statement

end Opstream
