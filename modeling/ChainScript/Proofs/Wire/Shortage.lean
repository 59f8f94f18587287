import ChainScript.Proofs.Wire.Interrupted

/-! What is missing where a read fails. Reading asks for one part of the data after the other, so it
fails at the first part that the data are too short for: the bytes it asks for first, the number
that a tag announces, or the bytes that a length counts. -/
namespace ChainScript.Wire

namespace Decoder

variable {d : Decoder α} {input last : Input} {fault : Fault}

theorem map_eq_error_iff {g : α → β} :
    (g <$> d) input = .error fault last ↔ d input = .error fault last :=
  ⟨map_eq_error, fun h => bind_of_error (f := fun a => pure (g a)) h⟩

/-- The decoder takes its bytes at once, and it fails just where there are fewer than these. -/
def Asks (d : Decoder α) (n : Nat) : Prop :=
  ∀ input fault last, d input = .error fault last ↔
    input.rest.length < n ∧ fault = .truncated n input.rest.length ∧ last = input

theorem Asks.map {n : Nat} (g : α → β) (hd : d.Asks n) : Asks (g <$> d) n :=
  fun _ _ _ => map_eq_error_iff.trans (hd _ _ _)

theorem asks_take (n : Nat) : Asks (take n) n := by
  intro input fault last
  constructor
  · intro h
    obtain ⟨hlast, hshort, hfault⟩ := take_eq_error h
    exact ⟨hshort, hfault, hlast⟩
  · rintro ⟨hshort, rfl, rfl⟩
    exact take_short hshort

theorem asks_byte : Asks byte 1 := by
  intro input fault last
  cases hrest : input.rest with
  | nil => simp [byte, hrest, eq_comm]
  | cons b rest => simp [byte, hrest]

theorem asks_peek : Asks peek 1 := by
  intro input fault last
  cases hrest : input.rest with
  | nil => simp [peek, hrest, eq_comm]
  | cons b rest => simp [peek, hrest]

/-- Counted bytes lack something of their length, or there are fewer than it says behind it. -/
theorem counted_eq_error_iff :
    counted input = .error fault last ↔ VarInt.Missing input fault last ∨
      ∃ n length back, input.rest = length ++ back ∧ VarInt.Form n length ∧ back.length < n ∧
        fault = .truncated n back.length ∧ last = ⟨input.pos + length.length, back⟩ := by
  constructor
  · intro h
    obtain hlength | ⟨n, between, hlength, htake⟩ := bind_eq_error h
    · exact .inl (missing_of_varInt hlength)
    · obtain ⟨length, hrest, hpos, hform⟩ :=
        (follows_varInt : Follows VarInt.read _ fun _ _ => False).of_ok hlength
      obtain ⟨rfl, hshort, rfl⟩ := take_eq_error htake
      obtain ⟨pos, back⟩ := last
      obtain rfl : pos = input.pos + length.length := hpos
      exact .inr ⟨_, length, back, hrest, hform, hshort, rfl, rfl⟩
  · rintro (hmissing | ⟨n, length, back, hrest, hform, hshort, rfl, rfl⟩)
    · exact bind_of_error (varInt_of_missing hmissing)
    · obtain ⟨pos, rest⟩ := input
      subst hrest
      have hread := VarInt.reads_form hform pos back
      have hn : n.toUInt64.toNat = n := UInt64.toNat_ofNat_of_lt hform.lt_size
      change EStateM.bind VarInt.read _ _ = _
      rw [EStateM.bind, hread]
      change take n.toUInt64.toNat _ = _
      rw [hn]
      exact take_short hshort

end Decoder

namespace Request

def first : Request → Nat
  | u16 => 2
  | u32 => 4
  | u64 => 8
  | raw n => n
  | peek | u8 | varInt | bytes | text | natural => 1

def Counted : Request → Prop
  | bytes | text | natural => True
  | _ => False

/-- The data are too short for the request: once `moved` bytes of them are read, it asks for
`wanted` more, and there are fewer. -/
inductive Cut (q : Request) : Bytes → (wanted moved : Nat) → Prop where
  | atOnce {left} : left.length < q.first → Cut q left q.first 0
  | behindTag {tag back width} : ¬ q.Single → VarInt.announced? tag = some width →
      back.length < width → Cut q (tag :: back) width 1
  | behindLength {n length back} : q.Counted → VarInt.Form n length → back.length < n →
      Cut q (length ++ back) n length.length

variable {q : Request} {left : Bytes} {wanted moved : Nat}

theorem Cut.moved_le (h : q.Cut left wanted moved) : moved ≤ left.length := by
  cases h <;> simp

/-- More is asked for than is there. -/
theorem Cut.lt_wanted (h : q.Cut left wanted moved) : left.length - moved < wanted := by
  cases h with
  | atOnce hshort => exact hshort
  | behindTag _ _ hshort => simpa using hshort
  | behindLength _ _ hshort => simpa using hshort

theorem Single.not_counted (h : q.Single) : ¬ q.Counted := by
  cases q <;> simp_all [Single, Counted]

open Decoder in
theorem Single.asks (h : q.Single) : q.read.Asks q.first := by
  cases q with
  | peek => exact asks_peek.map _
  | u8 => exact asks_byte.map _
  | u16 => exact ((asks_take 2).map _).map _
  | u32 => exact ((asks_take 4).map _).map _
  | u64 => exact ((asks_take 8).map _).map _
  | raw n => exact (asks_take n).map _
  | varInt | bytes | text | natural => exact h.elim

open Decoder in
theorem read_eq_error_of_not_single {input last : Input} {fault : Fault} (h : ¬ q.Single) :
    q.read input = .error fault last ↔ VarInt.Missing input fault last ∨
      q.Counted ∧ ∃ n length back, input.rest = length ++ back ∧ VarInt.Form n length ∧
        back.length < n ∧ fault = .truncated n back.length ∧
        last = ⟨input.pos + length.length, back⟩ := by
  cases q with
  | varInt =>
    have hcounted : ¬ Request.varInt.Counted := id
    simp only [hcounted, false_and, or_false]
    exact map_eq_error_iff.trans ⟨missing_of_varInt, varInt_of_missing⟩
  | bytes =>
    simp only [Counted, true_and]
    rw [← counted_eq_error_iff]
    exact map_eq_error_iff
  | text | natural =>
    simp only [Counted, true_and]
    rw [← counted_eq_error_iff]
    exact map_eq_error_iff.trans map_eq_error_iff
  | peek | u8 | u16 | u32 | u64 | raw => exact absurd trivial h

theorem first_of_not_single (h : ¬ q.Single) : q.first = 1 := by
  cases q with
  | varInt | bytes | text | natural => rfl
  | peek | u8 | u16 | u32 | u64 | raw => exact absurd trivial h

/-- A read fails just where the data are too short for it. It stands behind what it has read, and
its fault is how much it asked for there and how much there is. -/
theorem read_eq_error_iff {input last : Input} {fault : Fault} :
    q.read input = .error fault last ↔ ∃ wanted moved, q.Cut input.rest wanted moved ∧
      fault = .truncated wanted (input.rest.length - moved) ∧ last = input.advance moved := by
  obtain ⟨pos, rest⟩ := input
  by_cases hq : q.Single
  · rw [hq.asks _ fault last]
    constructor
    · rintro ⟨hshort, rfl, rfl⟩
      exact ⟨q.first, 0, .atOnce hshort, rfl, rfl⟩
    · rintro ⟨wanted, moved, hcut, rfl, rfl⟩
      cases hcut with
      | atOnce hshort => exact ⟨hshort, rfl, rfl⟩
      | behindTag hnot => exact absurd hq hnot
      | behindLength hcounted => exact absurd hcounted hq.not_counted
  · rw [read_eq_error_of_not_single hq]
    constructor
    · rintro (hmissing | ⟨hcounted, n, length, back, rfl, hform, hshort, rfl, rfl⟩)
      · cases hmissing with
        | tag hrest =>
          obtain rfl : rest = [] := hrest
          have hone := first_of_not_single hq
          have hshort : ([] : Bytes).length < q.first := by simp [hone]
          exact ⟨q.first, 0, .atOnce hshort, by rw [hone]; rfl, rfl⟩
        | number hrest hwidth hshort =>
          obtain rfl : rest = _ := hrest
          exact ⟨_, _, .behindTag hq hwidth hshort, rfl, rfl⟩
      · exact ⟨_, _, .behindLength hcounted hform hshort, by simp, by simp [Input.advance]⟩
    · rintro ⟨wanted, moved, hcut, rfl, rfl⟩
      cases hcut with
      | atOnce hshort =>
        rw [first_of_not_single hq] at hshort ⊢
        obtain rfl : rest = [] := List.length_eq_zero_iff.1 (Nat.lt_one_iff.1 hshort)
        exact .inl (.tag rfl)
      | behindTag _ hwidth hshort => exact .inl (.number rfl hwidth hshort)
      | behindLength hcounted hform hshort =>
        exact .inr ⟨hcounted, _, _, _, rfl, hform, hshort, by simp, by simp [Input.advance]⟩

end Request
end ChainScript.Wire
