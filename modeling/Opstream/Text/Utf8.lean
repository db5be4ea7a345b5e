namespace Opstream.Text.Utf8

/-- Where octets stop being UTF-8: the first `length` octets from `index` on begin no character,
or the text ends inside one that starts at `index`. -/
inductive Fault
  | invalid (length index : Nat)
  | incomplete (index : Nat)
  deriving DecidableEq

def Fault.message : Fault → String
  | invalid length index => s!"invalid utf-8 sequence of {length} bytes from index {index}"
  | incomplete index => s!"incomplete utf-8 byte sequence from index {index}"

def plain : Nat × Nat := (0x80, 0xBF)

/-- The bits that a first octet carries, and the ranges of the octets that must follow. The second
octet is held to a smaller range where the plain one would give a code point that has a shorter
form, is a surrogate, or lies beyond the last one. -/
def lead? (octet : Nat) : Option (Nat × List (Nat × Nat)) :=
  if octet < 0x80 then some (octet, [])
  else if octet < 0xC2 then none
  else if octet < 0xE0 then some (octet - 0xC0, [plain])
  else if octet = 0xE0 then some (0, [(0xA0, 0xBF), plain])
  else if octet = 0xED then some (0xD, [(0x80, 0x9F), plain])
  else if octet < 0xF0 then some (octet - 0xE0, [plain, plain])
  else if octet = 0xF0 then some (0, [(0x90, 0xBF), plain, plain])
  else if octet < 0xF4 then some (octet - 0xF0, [plain, plain, plain])
  else if octet = 0xF4 then some (4, [(0x80, 0x8F), plain, plain])
  else none

def trail (index seen bits : Nat) :
    List (Nat × Nat) → List UInt8 → Except Fault (Nat × List UInt8)
  | [], octets => .ok (bits, octets)
  | _ :: _, [] => .error (.incomplete index)
  | (low, high) :: ranges, octet :: octets =>
      if low ≤ octet.toNat ∧ octet.toNat ≤ high then
        trail index (seen + 1) (64 * bits + (octet.toNat - 0x80)) ranges octets
      else
        .error (.invalid seen index)

def next (index : Nat) (octet : UInt8) (octets : List UInt8) :
    Except Fault (Nat × Nat × List UInt8) :=
  match lead? octet.toNat with
  | none => .error (.invalid 1 index)
  | some (bits, ranges) =>
      (trail index 1 bits ranges octets).map fun (code, rest) => (code, ranges.length + 1, rest)

theorem length_of_trail {index seen bits code : Nat} {ranges : List (Nat × Nat)}
    {octets rest : List UInt8} (h : trail index seen bits ranges octets = .ok (code, rest)) :
    octets.length = ranges.length + rest.length := by
  induction ranges generalizing seen bits octets with
  | nil => simp_all [trail]
  | cons range ranges ih =>
      cases octets with
      | nil => simp [trail] at h
      | cons octet octets =>
          obtain ⟨low, high⟩ := range
          simp only [trail] at h
          split at h
          next => have := ih h; simp only [List.length_cons]; omega
          next => cases h

theorem length_of_next {index code width : Nat} {octet : UInt8} {octets rest : List UInt8}
    (h : next index octet octets = .ok (code, width, rest)) :
    0 < width ∧ octets.length + 1 = width + rest.length := by
  cases hlead : lead? octet.toNat with
  | none => simp [next, hlead] at h
  | some lead =>
      obtain ⟨bits, ranges⟩ := lead
      cases ht : trail index 1 bits ranges octets with
      | error fault => simp [next, hlead, ht, Except.map] at h
      | ok read =>
          obtain ⟨code, rest⟩ := read
          have hlen := length_of_trail ht
          simp only [next, hlead, ht, Except.map, Except.ok.injEq, Prod.mk.injEq] at h
          obtain ⟨rfl, rfl, rfl⟩ := h
          omega

def decodeFrom (index : Nat) : List UInt8 → Except Fault (List Char)
  | [] => .ok []
  | octet :: octets =>
      match _h : next index octet octets with
      | .error fault => .error fault
      | .ok (code, width, rest) => (decodeFrom (index + width) rest).map (Char.ofNat code :: ·)
termination_by octets => octets.length
decreasing_by
  have := length_of_next ‹_›
  simp only [List.length_cons]
  omega

def decode (octets : List UInt8) : Except Fault (List Char) := decodeFrom 0 octets

end Opstream.Text.Utf8
