import ChainScript.Proofs.Wire.Outcome

/-! Where reading stands after a read that failed. A read of one part takes all of its bytes or
none. A read of several parts keeps the parts that it came through: the tag of a length, or the
whole length. So it stands where it began only if there was nothing to read. -/
namespace ChainScript.Wire

def VarInt.announced? (tag : UInt8) : Option Nat :=
  if tag = 0xFD then some 2 else if tag = 0xFE then some 4 else if tag = 0xFF then some 8 else none

/-- The data ends in front of the tag or within the number that the tag announces. -/
inductive VarInt.Missing (input : Input) : Fault → Input → Prop where
  | tag : input.rest = [] → Missing input (.truncated 1 0) input
  | number {tag back width} : input.rest = tag :: back → announced? tag = some width →
      back.length < width → Missing input (.truncated width back.length) ⟨input.pos + 1, back⟩

/-- A place behind the first bytes of the data, which were read, where what they announce is more
than is left. -/
inductive Stranded (input : Input) : Fault → Input → Prop where
  | behindTag {tag back width} : input.rest = tag :: back → VarInt.announced? tag = some width →
      back.length < width → Stranded input (.truncated width back.length) ⟨input.pos + 1, back⟩
  | behindLength {n length back} : input.rest = length ++ back → VarInt.Form n length →
      back.length < n → Stranded input (.truncated n back.length) ⟨input.pos + length.length, back⟩

namespace Stranded
variable {input last : Input} {fault : Fault}

theorem rest_ne_nil (h : Stranded input fault last) : input.rest ≠ [] := by
  cases h with
  | behindTag hrest => simp [hrest]
  | behindLength hrest hform => simp [hrest, hform.ne_nil]

theorem pos_lt (h : Stranded input fault last) : input.pos < last.pos := by
  cases h with
  | behindTag => exact Nat.lt_succ_self _
  | behindLength _ hform => exact Nat.lt_add_of_pos_right (List.length_pos_iff.2 hform.ne_nil)

end Stranded

namespace Decoder
variable {d : Decoder α} {input last : Input} {fault : Fault}

theorem bind_eq_error {f : α → Decoder β} (h : (d >>= f) input = .error fault last) :
    d input = .error fault last ∨ ∃ a between, d input = .ok a between ∧
      f a between = .error fault last := by
  change EStateM.bind d f input = _ at h
  rw [EStateM.bind] at h
  split at h
  next a between ha => exact .inr ⟨a, between, ha, h⟩
  next =>
    cases h
    exact .inl ‹_›

theorem bind_of_error {f : α → Decoder β} (h : d input = .error fault last) :
    (d >>= f) input = .error fault last := by
  change EStateM.bind d f input = _
  rw [EStateM.bind, h]

theorem map_eq_error {g : α → β} (h : (g <$> d) input = .error fault last) :
    d input = .error fault last := by
  change EStateM.map g d input = _ at h
  rw [EStateM.map] at h
  split at h
  next => cases h
  next =>
    cases h
    assumption

theorem exists_of_run_error {bytes : Bytes} (h : d.run bytes = .error fault) :
    ∃ last, d (Input.ofBytes bytes) = .error fault last := by
  rw [Decoder.run] at h
  split at h
  next => cases h
  next other last hd =>
    cases h
    exact ⟨last, hd⟩

/-- A read that takes all of its bytes or none. -/
def Whole (d : Decoder α) : Prop :=
  ∀ ⦃input fault last⦄, d input = .error fault last → last = input

/-- A read that keeps what it came through. -/
def Keeps (d : Decoder α) : Prop :=
  ∀ ⦃input fault last⦄, d input = .error fault last →
    (input.rest = [] ∧ last = input) ∨ Stranded input fault last

theorem Whole.map (g : α → β) (hd : d.Whole) : Whole (g <$> d) :=
  fun _ _ _ h => hd (map_eq_error h)

theorem Keeps.map (g : α → β) (hd : d.Keeps) : Keeps (g <$> d) :=
  fun _ _ _ h => hd (map_eq_error h)

theorem take_eq_error {n : Nat} (h : take n input = .error fault last) :
    last = input ∧ input.rest.length < n ∧ fault = .truncated n input.rest.length := by
  rw [take] at h
  split at h
  next => cases h
  next hshort =>
    cases h
    exact ⟨rfl, by simpa using hshort, rfl⟩

theorem take_short {n : Nat} (h : input.rest.length < n) :
    take n input = .error (.truncated n input.rest.length) input := by
  have hshort : (input.rest.take n).length ≠ n := by
    rw [List.length_take]
    omega
  rw [take, if_neg hshort]
  rfl

theorem byte_eq_error (h : byte input = .error fault last) :
    last = input ∧ input.rest = [] ∧ fault = .truncated 1 0 := by
  rw [byte] at h
  split at h
  next hrest =>
    cases h
    exact ⟨rfl, hrest, rfl⟩
  next => cases h

theorem byte_eq_ok {b : UInt8} {next : Input} (h : byte input = .ok b next) :
    ∃ back, input.rest = b :: back ∧ next = ⟨input.pos + 1, back⟩ := by
  rw [byte] at h
  split at h
  next => cases h
  next c back hrest =>
    cases h
    exact ⟨back, hrest, by rw [Input.advance, hrest]; rfl⟩

theorem whole_take (n : Nat) : Whole (take n) := fun _ _ _ h => (take_eq_error h).1

theorem whole_byte : Whole byte := fun _ _ _ h => (byte_eq_error h).1

theorem whole_peek : Whole peek := by
  intro input fault last h
  rw [peek] at h
  split at h
  next =>
    cases h
    rfl
  next => cases h

/-- Behind the tag the number is one part, and reading stops right there if it is cut. -/
theorem missing_of_varInt (h : VarInt.read input = .error fault last) :
    VarInt.Missing input fault last := by
  obtain hbyte | ⟨tag, between, hbyte, hnumber⟩ := bind_eq_error h
  · obtain ⟨rfl, hrest, rfl⟩ := byte_eq_error hbyte
    exact .tag hrest
  · obtain ⟨back, hrest, rfl⟩ := byte_eq_ok hbyte
    have hcut {width : Nat} (hwidth : VarInt.announced? tag = some width)
        (htake : take width ⟨input.pos + 1, back⟩ = .error fault last) :
        VarInt.Missing input fault last := by
      obtain ⟨rfl, hshort, rfl⟩ := take_eq_error htake
      exact .number hrest hwidth hshort
    split at hnumber
    next htag =>
      have hwidth : VarInt.announced? tag = some 2 := by simp [VarInt.announced?, htag]
      exact hcut hwidth (map_eq_error (map_eq_error hnumber))
    next =>
      split at hnumber
      next htag =>
        have hwidth : VarInt.announced? tag = some 4 := by simp [VarInt.announced?, htag]
        exact hcut hwidth (map_eq_error (map_eq_error hnumber))
      next =>
        split at hnumber
        next htag =>
          have hwidth : VarInt.announced? tag = some 8 := by simp [VarInt.announced?, htag]
          exact hcut hwidth (map_eq_error hnumber)
        next => cases hnumber

theorem varInt_of_missing (h : VarInt.Missing input fault last) :
    VarInt.read input = .error fault last := by
  obtain ⟨pos, rest⟩ := input
  cases h with
  | tag hrest =>
    subst hrest
    rfl
  | @number tag back width hrest hwidth hshort =>
    subst hrest
    have htake : take width ⟨pos + 1, back⟩ =
        .error (.truncated width back.length) ⟨pos + 1, back⟩ := take_short hshort
    rw [VarInt.announced?] at hwidth
    split at hwidth
    next htag =>
      cases hwidth
      subst htag
      have hnumber : u16 ⟨pos + 1, back⟩ = _ := bind_of_error htake
      exact bind_of_error (f := fun n => pure n.toUInt64) hnumber
    next =>
      split at hwidth
      next htag =>
        cases hwidth
        subst htag
        have hnumber : u32 ⟨pos + 1, back⟩ = _ := bind_of_error htake
        exact bind_of_error (f := fun n => pure n.toUInt64) hnumber
      next =>
        split at hwidth
        next htag =>
          cases hwidth
          subst htag
          have hnumber : u64 ⟨pos + 1, back⟩ = _ := bind_of_error htake
          exact hnumber
        next => cases hwidth

theorem keeps_varInt : Keeps VarInt.read := by
  intro input fault last h
  cases missing_of_varInt h with
  | tag hrest => exact .inl ⟨hrest, rfl⟩
  | number hrest hwidth hshort => exact .inr (.behindTag hrest hwidth hshort)

theorem keeps_counted : Keeps counted := by
  intro input fault last h
  obtain hlength | ⟨n, between, hlength, htake⟩ := bind_eq_error h
  · exact keeps_varInt hlength
  · obtain ⟨length, hrest, hpos, hform⟩ :=
      (follows_varInt : Follows VarInt.read _ fun _ _ => False).of_ok hlength
    obtain ⟨rfl, hshort, rfl⟩ := take_eq_error htake
    obtain ⟨pos, rest⟩ := last
    obtain rfl : pos = input.pos + length.length := hpos
    exact .inr (.behindLength hrest hform hshort)

end Decoder

namespace Request

def Single : Request → Prop
  | peek | u8 | u16 | u32 | u64 | raw _ => True
  | varInt | bytes | text | natural => False

open Decoder in
theorem Single.whole {q : Request} (h : q.Single) : q.read.Whole := by
  cases q with
  | peek => exact whole_peek.map _
  | u8 => exact whole_byte.map _
  | u16 => exact ((whole_take 2).map _).map _
  | u32 => exact ((whole_take 4).map _).map _
  | u64 => exact ((whole_take 8).map _).map _
  | raw n => exact (whole_take n).map _
  | varInt | bytes | text | natural => exact h.elim

open Decoder in
theorem keeps_read {q : Request} (h : ¬ q.Single) : q.read.Keeps := by
  cases q with
  | varInt => exact keeps_varInt.map _
  | bytes => exact keeps_counted.map _
  | text => exact (keeps_counted.map _).map _
  | natural => exact (keeps_counted.map _).map _
  | peek | u8 | u16 | u32 | u64 | raw => exact absurd trivial h

/-- A read that fails stands where it began if it is a read of one part or if there was nothing to
read, and in no other case. Then it stands behind a tag or a whole length, and what is left is less
than these announce. -/
theorem place_of_error {q : Request} {input last : Input} {fault : Fault}
    (h : q.read input = .error fault last) :
    (last = input ↔ q.Single ∨ input.rest = []) ∧ (last ≠ input → Stranded input fault last) := by
  by_cases hq : q.Single
  · have hlast := hq.whole h
    exact ⟨⟨fun _ => .inl hq, fun _ => hlast⟩, fun hne => absurd hlast hne⟩
  · obtain ⟨hrest, hlast⟩ | hstranded := keeps_read hq h
    · exact ⟨⟨fun _ => .inr hrest, fun _ => hlast⟩, fun hne => absurd hlast hne⟩
    · have hne : last ≠ input := fun he => Nat.lt_irrefl _ (he ▸ hstranded.pos_lt)
      refine ⟨⟨fun he => absurd he hne, ?_⟩, fun _ => hstranded⟩
      rintro (hsingle | hrest)
      · exact absurd hsingle hq
      · exact absurd hrest hstranded.rest_ne_nil

/-- A text of two bytes that was cut within its length, with three bytes in front of it. -/
theorem stranded_cut_text :
    Request.text.read ⟨3, [0xFD, 2]⟩ = .error (.truncated 2 1) ⟨4, [2]⟩ ∧
      Stranded ⟨3, [0xFD, 2]⟩ (.truncated 2 1) ⟨4, [2]⟩ := by
  have hread : Request.text.read ⟨3, [0xFD, 2]⟩ = .error (.truncated 2 1) ⟨4, [2]⟩ := rfl
  exact ⟨hread, (place_of_error hread).2 (by decide)⟩

/-- Bytes that were cut are not read, and yet their length is behind the reader. -/
theorem cut_bytes_move_on :
    ∃ last, Request.bytes.read (.ofBytes [5, 0xAA]) = .error (.truncated 5 1) last ∧
      last.pos ≠ 0 ∧ last.remaining ≠ 2 ∧ last.rest ≠ [5, 0xAA] :=
  ⟨⟨1, [0xAA]⟩, rfl, by decide, by decide, by decide⟩

end Request
end ChainScript.Wire
