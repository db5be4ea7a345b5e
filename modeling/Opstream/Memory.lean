import Opstream.Digits

namespace Opstream.Memory

def wordSize : Nat := UInt64.size

/-- The size of the largest buffer: a signed word still holds it. -/
def maxSize : Nat := wordSize / 2 - 1

/-- A program stops at a sum that no word holds. Then there is no result, as there is none behind
any of the other accesses where it is not allowed. -/
def add? (m n : Nat) : Option Nat := if m + n < wordSize then some (m + n) else none

def sum? (ns : List Nat) : Option Nat := ns.foldlM add? 0

/-- The bits of a word moved down. They cannot be moved by the size of the word or more. -/
def shiftRight? (v : UInt64) (k : Nat) : Option UInt64 :=
  if k < 64 then some (v >>> UInt64.ofNat k) else none

def zeros? (n : Nat) : Option (List UInt8) :=
  if n ≤ maxSize then some (List.replicate n 0) else none

def set? (bytes : List UInt8) (i : Nat) (b : UInt8) : Option (List UInt8) :=
  if i < bytes.length then some (bytes.set i b) else none

def slice? (bytes : List UInt8) (start stop : Nat) : Option (List UInt8) :=
  if start ≤ stop ∧ stop ≤ bytes.length then some ((bytes.take stop).drop start) else none

def sliceFrom? (bytes : List UInt8) (start : Nat) : Option (List UInt8) :=
  slice? bytes start bytes.length

def update? (bytes : List UInt8) (start stop : Nat) (write : List UInt8 → Option (List UInt8)) :
    Option (List UInt8) := do
  let span ← slice? bytes start stop
  let span ← write span
  some (bytes.take start ++ span ++ bytes.drop stop)

def writeUInt? (slot : List UInt8) (v : UInt64) (width : Nat) : Option (List UInt8) :=
  if (1 ≤ width ∧ width ≤ 8) ∧ v.toNat < Nat.pow 256 width ∧ width ≤ slot.length then
    some (BigEndian.bytes width v.toNat ++ slot.drop width)
  else none

def writeUInt64? (slot : List UInt8) (v : UInt64) : Option (List UInt8) :=
  if 8 ≤ slot.length then some (BigEndian.bytes 8 v.toNat ++ slot.drop 8) else none

def readUInt? (bytes : List UInt8) (width : Nat) : Option UInt64 :=
  if (1 ≤ width ∧ width ≤ 8) ∧ width ≤ bytes.length then
    some (UInt64.ofNat (BigEndian.value (bytes.take width)))
  else none

def readUInt64? (bytes : List UInt8) : Option UInt64 :=
  if 8 ≤ bytes.length then some (UInt64.ofNat (BigEndian.value (bytes.take 8))) else none

theorem add?_of_lt {m n : Nat} (h : m + n < wordSize) : add? m n = some (m + n) := if_pos h

theorem zeros?_of_le {n : Nat} (h : n ≤ maxSize) : zeros? n = some (List.replicate n 0) := if_pos h

theorem zeros?_of_lt {n : Nat} (h : maxSize < n) : zeros? n = none := if_neg (Nat.not_le.2 h)

theorem slice?_of_le {bytes : List UInt8} {start stop : Nat} (h : start ≤ stop)
    (hstop : stop ≤ bytes.length) : slice? bytes start stop = some ((bytes.take stop).drop start) :=
  if_pos ⟨h, hstop⟩

theorem sliceFrom?_of_le {bytes : List UInt8} {start : Nat} (h : start ≤ bytes.length) :
    sliceFrom? bytes start = some (bytes.drop start) := by
  rw [sliceFrom?, slice?_of_le h (Nat.le_refl _), List.take_length]

/-- A slice cannot end behind the buffer, and cannot end before it begins. -/
example : slice? [1, 2, 3] 1 3 = some [2, 3] ∧ slice? [1, 2, 3] 2 4 = none ∧
    slice? [1, 2, 3] 2 1 = none := by decide

theorem update?_middle (write : List UInt8 → Option (List UInt8)) {middle span : List UInt8}
    (h : write middle = some span) (front back : List UInt8) :
    update? (front ++ middle ++ back) front.length (front.length + middle.length) write =
      some (front ++ span ++ back) := by
  have hlen : (front ++ middle).length = front.length + middle.length := List.length_append
  have hslice : slice? (front ++ middle ++ back) front.length (front.length + middle.length) =
      some middle := by
    rw [slice?_of_le (Nat.le_add_right ..) (by rw [List.length_append]; omega),
      List.take_left' hlen, List.drop_left]
  have htake : (front ++ middle ++ back).take front.length = front := by
    rw [List.append_assoc, List.take_left]
  rw [update?, hslice, htake, List.drop_left' hlen]
  change (write middle >>= fun span => some (front ++ span ++ back)) = _
  rw [h]
  rfl

end Opstream.Memory
