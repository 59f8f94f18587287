import ChainScript.Bytes

/-! Numbers as little-endian bytes, of a fixed width or as short as the number allows. -/
namespace ChainScript.Wire

def leBytes : (width : Nat) → Nat → Bytes
  | 0, _ => []
  | width + 1, n => n.toUInt8 :: leBytes width (n / 256)

def leValue (bytes : Bytes) : Nat := bytes.foldr (fun b value => b.toNat + 256 * value) 0

/-- The shortest bytes of a number. Zero takes one byte. -/
def leDigits (n : Nat) : Bytes :=
  if n < 256 then [n.toUInt8] else n.toUInt8 :: leDigits (n / 256)

@[simp] theorem length_leBytes (width n : Nat) : (leBytes width n).length = width := by
  induction width generalizing n with
  | zero => rfl
  | succ width ih => simp [leBytes, ih]

theorem leValue_leDigits (n : Nat) : leValue (leDigits n) = n := by
  induction n using Nat.strongRecOn with
  | ind n ih =>
    rw [leDigits]
    split
    · simp [leValue]; omega
    · have h := ih (n / 256) (by omega)
      simp only [leValue] at h
      simp only [leValue, List.foldr_cons, h, Nat.toUInt8, UInt8.toNat_ofNat']
      omega

theorem leDigits_ne_nil (n : Nat) : leDigits n ≠ [] := by
  rw [leDigits]; split <;> simp

end ChainScript.Wire
