import ChainScript.Proofs.Wire.Interrupted

/-! The canonical form of a variable-length integer. Reading takes every form of a number and
nothing else, so all competitors of the form that is written are known, and it fails only where the
data ends too early. -/
namespace ChainScript.Wire.VarInt
open Decoder

def Spells (bytes : Bytes) (n : UInt64) : Prop :=
  read (.ofBytes bytes) = .ok n ⟨bytes.length, []⟩

/-- No tag stands in front of a number that is too small for it. -/
def Minimal (n : Nat) (bytes : Bytes) : Prop :=
  (bytes.head? = some 0xFD → 0xFD ≤ n) ∧ (bytes.head? = some 0xFE → 0xFFFF < n) ∧
    (bytes.head? = some 0xFF → 0xFFFFFFFF < n)

theorem spells_iff_form {bytes : Bytes} {n : UInt64} : Spells bytes n ↔ Form n.toNat bytes := by
  constructor
  · intro h
    obtain ⟨front, hrest, -, hform⟩ :=
      (follows_varInt : Follows read _ fun _ _ => False).of_ok h
    change bytes = front ++ [] at hrest
    rwa [hrest, List.append_nil]
  · intro h
    have hread := reads_form h 0 []
    rwa [List.append_nil, Nat.zero_add, Nat.toUInt64, UInt64.ofNat_toNat] at hread

/-- A longer form than needed is one whose tag is too large for the number. -/
theorem Form.minimal_iff_shortest {n : Nat} {bytes : Bytes} (h : Form n bytes) :
    Minimal n bytes ↔ Shortest n bytes := by
  constructor
  · rintro ⟨h16, h32, h64⟩
    refine ⟨h, fun other hother => ?_⟩
    obtain ⟨hone, hthree, hfive, hnine⟩ := hother.le_length
    cases h with
    | bare => exact hone
    | two => simpa using hthree (h16 rfl)
    | four => simpa using hfive (h32 rfl)
    | eight => simpa using hnine (h64 rfl)
  · rintro ⟨-, hshortest⟩
    have hbare (hn : n < 0xFD) : bytes.length ≤ 1 := hshortest _ (.bare hn)
    have htwo (hn : n ≤ 0xFFFF) : bytes.length ≤ 3 := by simpa using hshortest _ (.two hn)
    have hfour (hn : n ≤ 0xFFFFFFFF) : bytes.length ≤ 5 := by simpa using hshortest _ (.four hn)
    cases h with
    | bare hn =>
      have hno {tag : UInt8} (htag : 0xFD ≤ tag.toNat) : ¬ [n.toUInt8].head? = some tag :=
        fun he => toUInt8_ne_tag hn htag (Option.some.inj he)
      exact ⟨fun he => absurd he (hno (by decide)), fun he => absurd he (hno (by decide)),
        fun he => absurd he (hno (by decide))⟩
    | two | four | eight =>
      simp only [List.length_cons, length_leBytes] at hbare htwo hfour
      simp [Minimal]
      omega

theorem Form.eq_encode_iff {n : UInt64} {bytes : Bytes} (h : Form n.toNat bytes) :
    bytes = encode n ↔ Minimal n.toNat bytes := by
  have hencode := shortest_encode n.toNat_lt
  rw [Nat.toUInt64, UInt64.ofNat_toNat] at hencode
  rw [h.minimal_iff_shortest]
  constructor
  · rintro rfl
    exact hencode
  · intro hshortest
    have he := hshortest.eq_encode
    rwa [Nat.toUInt64, UInt64.ofNat_toNat] at he

/-- What is written is the one shortest spelling of the number, and any other spelling has a tag
that is too large. Reading fails only where what the tag calls for is missing. -/
theorem encode_canonical (n : UInt64) :
    (Spells (encode n) n ∧
      ∀ other, Spells other n → other ≠ encode n → (encode n).length < other.length) ∧
    (∀ bytes, Spells bytes n →
      (encode n).length ≤ bytes.length ∧ (bytes = encode n ↔ Minimal n.toNat bytes)) ∧
    ∀ input fault last, read input = .error fault last ↔ Missing input fault last := by
  obtain ⟨hform, hshortest⟩ := shortest_encode n.toNat_lt
  rw [Nat.toUInt64, UInt64.ofNat_toNat] at hform hshortest
  have hle (other : Bytes) (h : Spells other n) : (encode n).length ≤ other.length :=
    hshortest other (spells_iff_form.1 h)
  refine ⟨⟨spells_iff_form.2 hform, fun other hother hne => ?_⟩, fun bytes h => ?_,
    fun input fault last => ⟨missing_of_varInt, varInt_of_missing⟩⟩
  · have hlength : other.length ≠ (encode n).length :=
      fun he => hne ((spells_iff_form.1 hother).eq_of_length_eq hform he)
    exact Nat.lt_of_le_of_ne (hle other hother) hlength.symm
  · exact ⟨hle bytes h, (spells_iff_form.1 h).eq_encode_iff⟩

/-- Five may be spelled with four bytes behind a tag, of which three are cut here. -/
theorem five_behind_tag :
    Spells [0xFE, 5, 0, 0, 0] 5 ∧ (encode 5).length < 5 ∧ ¬ Minimal 5 [0xFE, 5, 0, 0, 0] ∧
      Missing (.ofBytes [0xFE, 5]) (.truncated 4 1) ⟨1, [5]⟩ := by
  obtain ⟨⟨-, hlonger⟩, hminimal, hmissing⟩ := encode_canonical 5
  have hspells : Spells [0xFE, 5, 0, 0, 0] 5 := rfl
  exact ⟨hspells, hlonger _ hspells (by decide), fun h => absurd ((hminimal _ hspells).2.2 h)
    (by decide), (hmissing _ _ _).1 rfl⟩

end ChainScript.Wire.VarInt
