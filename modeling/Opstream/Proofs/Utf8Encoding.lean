import Opstream.Proofs.Results
import Opstream.Text.Utf8

namespace Opstream.Text.Utf8

def encode (cs : List Char) : List UInt8 := cs.flatMap String.utf8EncodeChar

/-- The range of the second of three octets, by the bits that the first one carries. -/
def secondOfThree (bits : Nat) : Nat × Nat :=
  (if bits = 0 then 0xA0 else 0x80, if bits = 0xD then 0x9F else 0xBF)

def secondOfFour (bits : Nat) : Nat × Nat :=
  (if bits = 0 then 0x90 else 0x80, if bits = 4 then 0x8F else 0xBF)

theorem within_secondOfThree {bits k : Nat} :
    (secondOfThree bits).1 ≤ k ∧ k ≤ (secondOfThree bits).2 ↔
      0x80 ≤ k ∧ k ≤ 0xBF ∧ (bits = 0 → 0xA0 ≤ k) ∧ (bits = 0xD → k ≤ 0x9F) := by
  simp only [secondOfThree]
  split <;> split <;> omega

theorem within_secondOfFour {bits k : Nat} :
    (secondOfFour bits).1 ≤ k ∧ k ≤ (secondOfFour bits).2 ↔
      0x80 ≤ k ∧ k ≤ 0xBF ∧ (bits = 0 → 0x90 ≤ k) ∧ (bits = 4 → k ≤ 0x8F) := by
  simp only [secondOfFour]
  split <;> split <;> omega

theorem lead?_one {octet : Nat} (h : octet < 0x80) : lead? octet = some (octet, []) := by
  rw [lead?, if_pos h]

theorem lead?_two : ∀ bits < 0x1E, lead? (bits + 0xC2) = some (bits + 2, [plain]) := by
  decide

theorem lead?_three : ∀ bits < 0x10,
    lead? (bits + 0xE0) = some (bits, [secondOfThree bits, plain]) := by
  decide

theorem lead?_four : ∀ bits < 5,
    lead? (bits + 0xF0) = some (bits, [secondOfFour bits, plain, plain]) := by
  decide

theorem lead?_eq_none {octet : Nat} (h : 0x80 ≤ octet ∧ octet < 0xC2 ∨ 0xF5 ≤ octet) :
    lead? octet = none := by
  rcases h with h | h
  · simp (disch := omega) only [lead?, if_pos, if_neg]
  · simp (disch := omega) only [lead?, if_neg]

theorem lead?_eq_some {octet : Nat} {lead : Nat × List (Nat × Nat)} (h : lead? octet = some lead) :
    (octet < 0x80 ∧ lead = (octet, [])) ∨
    (∃ bits < 0x1E, octet = bits + 0xC2 ∧ lead = (bits + 2, [plain])) ∨
    (∃ bits < 0x10, octet = bits + 0xE0 ∧ lead = (bits, [secondOfThree bits, plain])) ∨
    (∃ bits < 5, octet = bits + 0xF0 ∧ lead = (bits, [secondOfFour bits, plain, plain])) := by
  by_cases hone : octet < 0x80
  · rw [lead?_one hone] at h
    exact .inl ⟨hone, (Option.some.inj h).symm⟩
  by_cases htwo : 0xC2 ≤ octet ∧ octet < 0xE0
  · obtain ⟨bits, rfl⟩ := Nat.exists_eq_add_of_le' htwo.1
    have hbits : bits < 0x1E := by omega
    rw [lead?_two bits hbits] at h
    exact .inr (.inl ⟨bits, hbits, rfl, (Option.some.inj h).symm⟩)
  by_cases hthree : 0xE0 ≤ octet ∧ octet < 0xF0
  · obtain ⟨bits, rfl⟩ := Nat.exists_eq_add_of_le' hthree.1
    have hbits : bits < 0x10 := by omega
    rw [lead?_three bits hbits] at h
    exact .inr (.inr (.inl ⟨bits, hbits, rfl, (Option.some.inj h).symm⟩))
  by_cases hfour : 0xF0 ≤ octet ∧ octet < 0xF5
  · obtain ⟨bits, rfl⟩ := Nat.exists_eq_add_of_le' hfour.1
    have hbits : bits < 5 := by omega
    rw [lead?_four bits hbits] at h
    exact .inr (.inr (.inr ⟨bits, hbits, rfl, (Option.some.inj h).symm⟩))
  · rw [lead?_eq_none (by omega)] at h
    cases h

theorem trail_eq_ok_iff {index seen bits code : Nat} {ranges : List (Nat × Nat)}
    {octets rest : List UInt8} : trail index seen bits ranges octets = .ok (code, rest) ↔
      ∃ front : List UInt8, octets = front ++ rest ∧
        List.Forall₂ (fun range octet => range.1 ≤ octet.toNat ∧ octet.toNat ≤ range.2)
          ranges front ∧
        code = front.foldl (fun bits octet => 64 * bits + (octet.toNat - 0x80)) bits := by
  induction ranges generalizing seen bits octets with
  | nil => simp [trail, eq_comm, and_comm]
  | cons range ranges ih =>
      obtain ⟨low, high⟩ := range
      cases octets with
      | nil => simp [trail]
      | cons octet octets =>
          by_cases h : low ≤ octet.toNat ∧ octet.toNat ≤ high
          · rw [trail, if_pos h, ih]
            constructor
            · rintro ⟨front, rfl, hfront, hcode⟩
              rw [← List.foldl_cons] at hcode
              exact ⟨octet :: front, rfl, .cons h hfront, hcode⟩
            · rintro ⟨front, hoctets, hfront, hcode⟩
              cases hfront with
              | cons _ hmore =>
                  cases hoctets
                  rw [List.foldl_cons] at hcode
                  exact ⟨_, rfl, hmore, hcode⟩
          · rw [trail, if_neg h]
            constructor
            · intro hfault
              cases hfault
            · rintro ⟨front, hoctets, hfront, _⟩
              cases hfront with
              | cons hrange _ =>
                  cases hoctets
                  exact absurd hrange h

theorem next_eq_ok_iff {index code width : Nat} {octet : UInt8} {octets rest : List UInt8} :
    next index octet octets = .ok (code, width, rest) ↔ ∃ bits ranges,
      lead? octet.toNat = some (bits, ranges) ∧ width = ranges.length + 1 ∧
        trail index 1 bits ranges octets = .ok (code, rest) := by
  cases hlead : lead? octet.toNat with
  | none => simp [next, hlead]
  | some lead =>
      obtain ⟨bits, ranges⟩ := lead
      simp only [next, hlead, Results.map_eq_ok_iff]
      constructor
      · rintro ⟨⟨code', rest'⟩, htrail, hread⟩
        cases hread
        exact ⟨bits, ranges, rfl, rfl, htrail⟩
      · rintro ⟨_, _, hsame, rfl, htrail⟩
        cases hsame
        exact ⟨_, htrail, rfl⟩

theorem utf8EncodeChar_eq (c : Char) : String.utf8EncodeChar c =
    if c.toNat ≤ 0x7F then [UInt8.ofNat c.toNat]
    else if c.toNat ≤ 0x7FF then
      [UInt8.ofNat (c.toNat / 64 % 0x20 + 0xC0), UInt8.ofNat (c.toNat % 0x40 + 0x80)]
    else if c.toNat ≤ 0xFFFF then
      [UInt8.ofNat (c.toNat / 4096 % 0x10 + 0xE0), UInt8.ofNat (c.toNat / 64 % 0x40 + 0x80),
        UInt8.ofNat (c.toNat % 0x40 + 0x80)]
    else
      [UInt8.ofNat (c.toNat / 262144 % 0x08 + 0xF0), UInt8.ofNat (c.toNat / 4096 % 0x40 + 0x80),
        UInt8.ofNat (c.toNat / 64 % 0x40 + 0x80), UInt8.ofNat (c.toNat % 0x40 + 0x80)] := rfl

theorem six_bits {k : Nat} (h : k < 0x40) : (UInt8.ofNat (k + 0x80)).toNat = k + 0x80 ∧
    plain.1 ≤ (UInt8.ofNat (k + 0x80)).toNat ∧ (UInt8.ofNat (k + 0x80)).toNat ≤ plain.2 := by
  rw [UInt8.toNat_ofNat_of_lt' (Nat.lt_trans (Nat.add_lt_add_right h 0x80) (by decide)), plain]
  omega

theorem next_encode (index : Nat) (c : Char) (rest : List UInt8) : ∃ octet octets width,
    String.utf8EncodeChar c ++ rest = octet :: octets ∧
      next index octet octets = .ok (c.toNat, width, rest) := by
  have hvalid : c.toNat < 0xD800 ∨ 0xDFFF < c.toNat ∧ c.toNat < 0x110000 := c.valid
  have hfirst : ∀ {n}, n < 256 → (UInt8.ofNat n).toNat = n := UInt8.toNat_ofNat_of_lt'
  rw [utf8EncodeChar_eq]
  generalize c.toNat = n at hvalid
  have hlow := six_bits (Nat.mod_lt n (by decide : 0 < 0x40))
  have hmiddle := six_bits (Nat.mod_lt (n / 64) (by decide : 0 < 0x40))
  have hhigh := six_bits (Nat.mod_lt (n / 4096) (by decide : 0 < 0x40))
  split
  next hone =>
    refine ⟨_, _, _, rfl, next_eq_ok_iff.2 ⟨n, [], ?_, rfl, rfl⟩⟩
    rw [hfirst (by omega), lead?_one (by omega)]
  split
  next htwo =>
    obtain ⟨bits, hbits⟩ := Nat.exists_eq_add_of_le' (show 2 ≤ n / 64 by omega)
    have hlead : n / 64 % 0x20 + 0xC0 = bits + 0xC2 := by omega
    refine ⟨_, _, _, rfl, next_eq_ok_iff.2 ⟨bits + 2, [plain], ?_, rfl,
      trail_eq_ok_iff.2 ⟨[_], rfl, .cons hlow.2 .nil, ?_⟩⟩⟩
    · rw [hfirst (by omega), hlead, lead?_two bits (by omega)]
    · rw [List.foldl_cons, List.foldl_nil, hlow.1]
      omega
  split
  next hthree =>
    have hlead : n / 4096 % 0x10 = n / 4096 := by omega
    refine ⟨_, _, _, rfl, next_eq_ok_iff.2 ⟨n / 4096, [secondOfThree (n / 4096), plain], ?_, rfl,
      trail_eq_ok_iff.2 ⟨[_, _], rfl, .cons ?_ (.cons hlow.2 .nil), ?_⟩⟩⟩
    · rw [hfirst (by omega), hlead, lead?_three _ (by omega)]
    · rw [hmiddle.1, within_secondOfThree]
      omega
    · simp only [List.foldl_cons, List.foldl_nil, hlow.1, hmiddle.1]
      omega
  next hfour =>
    have hlead : n / 262144 % 0x08 = n / 262144 := by omega
    refine ⟨_, _, _, rfl, next_eq_ok_iff.2 ⟨n / 262144, [secondOfFour (n / 262144), plain, plain],
      ?_, rfl, trail_eq_ok_iff.2 ⟨[_, _, _], rfl,
        .cons ?_ (.cons hmiddle.2 (.cons hlow.2 .nil)), ?_⟩⟩⟩
    · rw [hfirst (by omega), hlead, lead?_four _ (by omega)]
    · rw [hhigh.1, within_secondOfFour]
      omega
    · simp only [List.foldl_cons, List.foldl_nil, hlow.1, hmiddle.1, hhigh.1]
      omega

theorem exists_char {n : Nat} (h : n < 0xD800 ∨ 0xDFFF < n ∧ n < 0x110000) :
    ∃ c : Char, c.toNat = n := by
  have hsize : n < UInt32.size := Nat.lt_trans (show n < 0x110000 by omega) (by decide)
  have hn : (UInt32.ofNatLT n hsize).toNat = n := UInt32.toNat_ofNatLT
  refine ⟨⟨UInt32.ofNatLT n hsize, ?_⟩, hn⟩
  rw [UInt32.isValidChar, hn]
  exact h

theorem ofNat_eq {n : Nat} (octet : UInt8) (h : n = octet.toNat) : UInt8.ofNat n = octet := by
  rw [h, UInt8.ofNat_toNat]

theorem encode_of_next {index code width : Nat} {octet : UInt8} {octets rest : List UInt8}
    (h : next index octet octets = .ok (code, width, rest)) :
    String.utf8EncodeChar (Char.ofNat code) ++ rest = octet :: octets := by
  obtain ⟨bits, ranges, hlead, _, htrail⟩ := next_eq_ok_iff.1 h
  obtain ⟨front, rfl, hfront, hcode⟩ := trail_eq_ok_iff.1 htrail
  suffices hchar : ∃ c : Char, c.toNat = code ∧ String.utf8EncodeChar c = octet :: front by
    obtain ⟨c, rfl, hc⟩ := hchar
    rw [Char.ofNat_toNat, hc, List.cons_append]
  rcases lead?_eq_some hlead with ⟨hone, hsome⟩ | ⟨low, hlow, hoctet, hsome⟩ |
    ⟨bits, hbits, hoctet, hsome⟩ | ⟨bits, hbits, hoctet, hsome⟩
  · cases hsome
    obtain rfl := List.forall₂_nil_left_iff.1 hfront
    rw [List.foldl_nil] at hcode
    obtain ⟨c, hc⟩ := exists_char (n := code) (by omega)
    refine ⟨c, hc, ?_⟩
    rw [utf8EncodeChar_eq, hc, if_pos (by omega), ofNat_eq octet hcode]
  · cases hsome
    obtain ⟨x, _, hx, hmore, rfl⟩ := List.forall₂_cons_left_iff.1 hfront
    obtain rfl := List.forall₂_nil_left_iff.1 hmore
    have hx : 0x80 ≤ x.toNat ∧ x.toNat ≤ 0xBF := hx
    simp only [List.foldl_cons, List.foldl_nil] at hcode
    obtain ⟨c, hc⟩ := exists_char (n := code) (by omega)
    refine ⟨c, hc, ?_⟩
    rw [utf8EncodeChar_eq, hc, if_neg (by omega), if_pos (by omega), ofNat_eq octet (by omega),
      ofNat_eq x (by omega)]
  · cases hsome
    obtain ⟨x, _, hx, hmore, rfl⟩ := List.forall₂_cons_left_iff.1 hfront
    obtain ⟨y, _, hy, hlast, rfl⟩ := List.forall₂_cons_left_iff.1 hmore
    obtain rfl := List.forall₂_nil_left_iff.1 hlast
    rw [within_secondOfThree] at hx
    have hy : 0x80 ≤ y.toNat ∧ y.toNat ≤ 0xBF := hy
    simp only [List.foldl_cons, List.foldl_nil] at hcode
    obtain ⟨c, hc⟩ := exists_char (n := code) (by omega)
    refine ⟨c, hc, ?_⟩
    rw [utf8EncodeChar_eq, hc, if_neg (by omega), if_neg (by omega), if_pos (by omega),
      ofNat_eq octet (by omega), ofNat_eq x (by omega), ofNat_eq y (by omega)]
  · cases hsome
    obtain ⟨x, _, hx, hmore, rfl⟩ := List.forall₂_cons_left_iff.1 hfront
    obtain ⟨y, _, hy, hmost, rfl⟩ := List.forall₂_cons_left_iff.1 hmore
    obtain ⟨z, _, hz, hlast, rfl⟩ := List.forall₂_cons_left_iff.1 hmost
    obtain rfl := List.forall₂_nil_left_iff.1 hlast
    rw [within_secondOfFour] at hx
    have hy : 0x80 ≤ y.toNat ∧ y.toNat ≤ 0xBF := hy
    have hz : 0x80 ≤ z.toNat ∧ z.toNat ≤ 0xBF := hz
    simp only [List.foldl_cons, List.foldl_nil] at hcode
    obtain ⟨c, hc⟩ := exists_char (n := code) (by omega)
    refine ⟨c, hc, ?_⟩
    rw [utf8EncodeChar_eq, hc, if_neg (by omega), if_neg (by omega), if_neg (by omega),
      ofNat_eq octet (by omega), ofNat_eq x (by omega), ofNat_eq y (by omega),
      ofNat_eq z (by omega)]

theorem decodeFrom_cons (index : Nat) (octet : UInt8) (octets : List UInt8) :
    decodeFrom index (octet :: octets) = (next index octet octets).bind fun (code, width, rest) =>
      (decodeFrom (index + width) rest).map (Char.ofNat code :: ·) := by
  rw [decodeFrom]
  split
  next h => rw [h]; rfl
  next h => rw [h]; rfl

theorem decodeFrom_encode (index : Nat) (cs : List Char) :
    decodeFrom index (encode cs) = .ok cs := by
  induction cs generalizing index with
  | nil => simp [encode, decodeFrom]
  | cons c cs ih =>
      obtain ⟨octet, octets, width, hoctets, hnext⟩ := next_encode index c (encode cs)
      have hencode : encode (c :: cs) = octet :: octets := hoctets
      rw [hencode, decodeFrom_cons, hnext]
      change (decodeFrom (index + width) (encode cs)).map (Char.ofNat c.toNat :: ·) = _
      rw [ih, Char.ofNat_toNat]
      rfl

theorem encode_of_decodeFrom {index : Nat} {octets : List UInt8} {cs : List Char}
    (h : decodeFrom index octets = .ok cs) : encode cs = octets := by
  induction cs generalizing index octets with
  | nil =>
      cases octets with
      | nil => rfl
      | cons octet octets =>
          rw [decodeFrom_cons] at h
          obtain ⟨_, _, hread⟩ := Results.bind_eq_ok_iff.1 h
          obtain ⟨_, _, hcs⟩ := Results.map_eq_ok_iff.1 hread
          cases hcs
  | cons c cs ih =>
      cases octets with
      | nil =>
          rw [decodeFrom] at h
          cases h
      | cons octet octets =>
          rw [decodeFrom_cons] at h
          obtain ⟨⟨code, width, rest⟩, hnext, hread⟩ := Results.bind_eq_ok_iff.1 h
          obtain ⟨_, hrest, hcs⟩ := Results.map_eq_ok_iff.1 hread
          cases hcs
          rw [encode, List.flatMap_cons, ← encode, ih hrest]
          exact encode_of_next hnext

/-- What can be decoded are the octets of texts, and they decode to these texts. -/
theorem decode_eq_ok_iff {octets : List UInt8} {cs : List Char} :
    decode octets = .ok cs ↔ octets = encode cs := by
  constructor
  · exact fun h => (encode_of_decodeFrom h).symm
  · rintro rfl
    exact decodeFrom_encode 0 cs

end Opstream.Text.Utf8
