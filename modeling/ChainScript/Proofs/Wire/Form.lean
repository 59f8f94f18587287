import ChainScript.Wire.VarInt

/-! The forms of a variable-length integer. Any tag that leaves enough bytes for a number may stand
in front of it, so a number has up to four forms, no two of them of one length. Writing takes the
shortest. -/
namespace ChainScript.Wire.VarInt

inductive Form : Nat → Bytes → Prop where
  | bare {n : Nat} : n < 0xFD → Form n [n.toUInt8]
  | two {n : Nat} : n ≤ 0xFFFF → Form n (0xFD :: leBytes 2 n)
  | four {n : Nat} : n ≤ 0xFFFFFFFF → Form n (0xFE :: leBytes 4 n)
  | eight {n : Nat} : n ≤ 0xFFFFFFFFFFFFFFFF → Form n (0xFF :: leBytes 8 n)

def Shortest (n : Nat) (bytes : Bytes) : Prop :=
  Form n bytes ∧ ∀ other, Form n other → bytes.length ≤ other.length

namespace Form

theorem lt_size {n : Nat} {bytes : Bytes} (h : Form n bytes) : n < UInt64.size := by
  rw [UInt64.size]
  cases h <;> omega

theorem ne_nil {n : Nat} {bytes : Bytes} (h : Form n bytes) : bytes ≠ [] := by
  cases h <;> exact List.cons_ne_nil _ _

/-- The length of a form says which of the four it is. -/
theorem eq_of_length_eq {n : Nat} {bytes other : Bytes} (h : Form n bytes) (hother : Form n other)
    (hlength : bytes.length = other.length) : bytes = other := by
  cases h <;> cases hother <;> simp_all

/-- A larger number needs a longer form. -/
theorem le_length {n : Nat} {bytes : Bytes} (h : Form n bytes) :
    1 ≤ bytes.length ∧ (0xFD ≤ n → 3 ≤ bytes.length) ∧ (0xFFFF < n → 5 ≤ bytes.length) ∧
      (0xFFFFFFFF < n → 9 ≤ bytes.length) := by
  cases h <;> simp <;> omega

end Form

/-- Which form writing takes, by the size of the number. -/
theorem encode_toUInt64 {n : Nat} (h : n < UInt64.size) :
    encode n.toUInt64 =
      if n < 0xFD then [n.toUInt8]
      else if n ≤ 0xFFFF then 0xFD :: leBytes 2 n
      else if n ≤ 0xFFFFFFFF then 0xFE :: leBytes 4 n
      else 0xFF :: leBytes 8 n := by
  have hsame : n.toUInt64.toNat = n := UInt64.toNat_ofNat_of_lt h
  have hbyte : n.toUInt64.toUInt8 = n.toUInt8 := by
    rw [← UInt8.toNat_inj, UInt64.toNat_toUInt8, hsame]
    exact UInt8.toNat_ofNat'.symm
  simp only [encode, UInt64.lt_iff_toNat_lt, UInt64.le_iff_toNat_le, hsame, hbyte]
  rfl

theorem shortest_encode {n : Nat} (h : n < UInt64.size) : Shortest n (encode n.toUInt64) := by
  rw [encode_toUInt64 h]
  rw [UInt64.size] at h
  split
  next small => exact ⟨.bare small, fun _ hother => hother.le_length.1⟩
  next large =>
    split
    next h16 => exact ⟨.two h16, fun _ hother => by simpa using hother.le_length.2.1 (by omega)⟩
    next =>
      split
      next h32 =>
        exact ⟨.four h32, fun _ hother => by simpa using hother.le_length.2.2.1 (by omega)⟩
      next =>
        exact ⟨.eight (by omega), fun _ hother => by
          simpa using hother.le_length.2.2.2 (by omega)⟩

/-- The shortest form is the one that is written. -/
theorem Shortest.eq_encode {n : Nat} {bytes : Bytes} (h : Shortest n bytes) :
    bytes = encode n.toUInt64 := by
  have hencode := shortest_encode h.1.lt_size
  exact h.1.eq_of_length_eq hencode.1 (Nat.le_antisymm (h.2 _ hencode.1) (hencode.2 _ h.1))

end ChainScript.Wire.VarInt
