namespace Opstream.Text

/-- Cuts a text after every newline. The last piece is the only one that may have none. -/
def pieces : List Char → List (List Char)
  | [] => []
  | c :: cs =>
      if c = '\n' then [c] :: pieces cs
      else match pieces cs with
        | [] => [[c]]
        | p :: ps => (c :: p) :: ps

/-- Takes the ending off a line: a newline, or a carriage return and a newline. A carriage return
that no newline follows belongs to the line. -/
def chomp (cs : List Char) : List Char :=
  match cs.reverse with
  | '\n' :: '\r' :: rest => rest.reverse
  | '\n' :: rest => rest.reverse
  | _ => cs

def lines (cs : List Char) : List (List Char) := (pieces cs).map chomp

def splitOn (separator : Char) : List Char → List (List Char)
  | [] => [[]]
  | c :: cs =>
      match splitOn separator cs with
      | [] => [[c]]
      | p :: ps => if c = separator then [] :: p :: ps else (c :: p) :: ps

theorem pieces_cons_of_ne {c : Char} (h : c ≠ '\n') (cs : List Char) :
    pieces (c :: cs) = match pieces cs with
      | [] => [[c]]
      | p :: ps => (c :: p) :: ps := by
  simp [pieces, h]

@[simp] theorem pieces_newline (cs : List Char) : pieces ('\n' :: cs) = ['\n'] :: pieces cs := by
  simp [pieces]

theorem flatten_pieces (cs : List Char) : (pieces cs).flatten = cs := by
  induction cs with
  | nil => rfl
  | cons c cs ih =>
      by_cases hc : c = '\n'
      · simp [hc, ih]
      · rw [pieces_cons_of_ne hc]
        split
        next h => simp_all
        next h => simp_all

theorem pieces_eq_nil {cs : List Char} (h : pieces cs = []) : cs = [] := by
  rw [← flatten_pieces cs, h, List.flatten_nil]

theorem pieces_append (cs ds : List Char) :
    pieces (cs ++ '\n' :: ds) = pieces (cs ++ ['\n']) ++ pieces ds := by
  induction cs with
  | nil => simp [pieces]
  | cons c cs ih =>
      by_cases hc : c = '\n'
      · simp [hc, ih]
      · simp only [List.cons_append, pieces_cons_of_ne hc, ih]
        cases h : pieces (cs ++ ['\n']) with
        | nil => exact absurd (pieces_eq_nil h) (by simp)
        | cons p ps => simp

theorem lines_append (cs ds : List Char) :
    lines (cs ++ '\n' :: ds) = lines (cs ++ ['\n']) ++ lines ds := by
  rw [lines, pieces_append, List.map_append]; rfl

theorem pieces_of_not_mem {cs : List Char} (h : '\n' ∉ cs) (hne : cs ≠ []) : pieces cs = [cs] := by
  induction cs with
  | nil => exact absurd rfl hne
  | cons c cs ih =>
      have hcs : '\n' ∉ cs := fun hm => h (List.mem_cons_of_mem c hm)
      rw [pieces_cons_of_ne fun hc => h (hc ▸ List.mem_cons_self)]
      cases cs with
      | nil => simp [pieces]
      | cons d ds => rw [ih hcs (by simp)]

theorem chomp_of_not_mem {cs : List Char} (h : '\n' ∉ cs) : chomp cs = cs := by
  unfold chomp
  split
  next hrev => exact absurd (List.mem_reverse.1 (hrev ▸ List.mem_cons_self)) h
  next hrev => exact absurd (List.mem_reverse.1 (hrev ▸ List.mem_cons_self)) h
  next => rfl

theorem lines_of_not_mem {cs : List Char} (h : '\n' ∉ cs) (hne : cs ≠ []) : lines cs = [cs] := by
  rw [lines, pieces_of_not_mem h hne, List.map_singleton, chomp_of_not_mem h]

/-- The ranges of the characters with the Unicode property `White_Space`. -/
def whiteSpaceRanges : List (Nat × Nat) :=
  [(0x09, 0x0D), (0x20, 0x20), (0x85, 0x85), (0xA0, 0xA0), (0x1680, 0x1680), (0x2000, 0x200A),
    (0x2028, 0x2029), (0x202F, 0x202F), (0x205F, 0x205F), (0x3000, 0x3000)]

def isWhiteSpace (c : Char) : Bool :=
  whiteSpaceRanges.any fun (low, high) => low ≤ c.toNat && c.toNat ≤ high

def trim (cs : List Char) : List Char :=
  ((cs.dropWhile isWhiteSpace).reverse.dropWhile isWhiteSpace).reverse

end Opstream.Text
