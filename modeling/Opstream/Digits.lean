namespace Opstream

namespace BigEndian

def lowFirst : Nat → Nat → List UInt8
  | 0, _ => []
  | width + 1, n => UInt8.ofNat n :: lowFirst width (n / 256)

/-- The last `width` base-256 digits of `n`, the most significant one first. -/
def bytes (width n : Nat) : List UInt8 := (lowFirst width n).reverse

def value (bs : List UInt8) : Nat := bs.foldl (fun acc b => 256 * acc + b.toNat) 0

theorem length_lowFirst (width n : Nat) : (lowFirst width n).length = width := by
  induction width generalizing n with
  | zero => rfl
  | succ width ih => simp [lowFirst, ih]

@[simp] theorem length_bytes (width n : Nat) : (bytes width n).length = width := by
  simp [bytes, length_lowFirst]

@[simp] theorem bytes_zero (n : Nat) : bytes 0 n = [] := rfl

theorem bytes_succ (width n : Nat) :
    bytes (width + 1) n = bytes width (n / 256) ++ [UInt8.ofNat n] := by
  simp [bytes, lowFirst]

@[simp] theorem value_nil : value [] = 0 := rfl

theorem value_concat (bs : List UInt8) (b : UInt8) :
    value (bs ++ [b]) = 256 * value bs + b.toNat := by
  simp [value]

theorem bytes_value (bs : List UInt8) : bytes bs.length (value bs) = bs := by
  induction h : bs.length generalizing bs with
  | zero => simp [List.eq_nil_of_length_eq_zero h]
  | succ n ih =>
      have hne : bs ≠ [] := by intro h'; simp [h'] at h
      have hsplit := (List.dropLast_concat_getLast hne).symm
      have hlen : bs.dropLast.length = n := by simp [h]
      have hb : (bs.getLast hne).toNat < 256 := (bs.getLast hne).toNat_lt
      rw [hsplit, value_concat, bytes_succ, Nat.mul_add_div (by omega),
        Nat.div_eq_of_lt hb, Nat.add_zero, ih _ hlen]
      congr 1
      simp

end BigEndian

namespace Decimal

def digits (n : Nat) : List Char := Nat.toDigits 10 n

def value (cs : List Char) : Nat := Nat.ofDigitChars 10 cs 0

/-- At least `width` digits; a longer number is not cut. -/
def padded (width n : Nat) : String := String.ofList ((digits n).leftpad width '0')

theorem toList_repr (n : Nat) : n.repr.toList = digits n := Nat.toList_repr

theorem value_digits (n : Nat) : value (digits n) = n := Nat.ofDigitChars_ten_toDigits

theorem value_zeros (k : Nat) (cs : List Char) : value (List.replicate k '0' ++ cs) = value cs := by
  simp [value, Nat.ofDigitChars_append]

@[simp] theorem toList_padded (width n : Nat) :
    (padded width n).toList = (digits n).leftpad width '0' := by
  simp [padded]

theorem value_padded (width n : Nat) : value (padded width n).toList = n := by
  simp [List.leftpad, value_zeros, value_digits]

theorem digits_injective {m n : Nat} (h : digits m = digits n) : m = n := by
  rw [← value_digits m, h, value_digits]

theorem digits_ne_nil (n : Nat) : digits n ≠ [] := Nat.toDigits_ne_nil

theorem isDigit_of_mem_digits {n : Nat} {c : Char} (h : c ∈ digits n) : c.isDigit = true :=
  Nat.isDigit_of_mem_toDigits (by decide) (by decide) h

end Decimal

namespace Hex

def digit (n : Nat) : Char := n.digitChar.toUpper

def pair (b : UInt8) : String := String.ofList [digit (b.toNat / 16), digit (b.toNat % 16)]

def pairs (bs : List UInt8) : List String := bs.map pair

def text (bs : List UInt8) : String := " ".intercalate (pairs bs)

theorem toList_pair (b : UInt8) :
    (pair b).toList = [digit (b.toNat / 16), digit (b.toNat % 16)] := by
  simp [pair]

@[simp] theorem text_nil : text [] = "" := rfl

end Hex

end Opstream
