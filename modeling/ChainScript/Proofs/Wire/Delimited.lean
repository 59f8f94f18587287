import ChainScript.Proofs.Wire.ReadBack

/-! Decoders that know where to stop. What such a decoder takes does not depend on what follows, and
data that stops earlier is too short for it. -/
namespace ChainScript.Wire.Decoder

/-- Data that stops within the bytes is too short for the decoder. -/
def Needs (d : Decoder α) (bytes : Bytes) : Prop :=
  ∀ pos front more, bytes = front ++ more → more ≠ [] →
    ∃ wanted left last, d ⟨pos, front⟩ = .error (.truncated wanted left) last

/-- Any value is read from bytes that are read as this value in front of all data, and none of them
can be missing. -/
def Delimits (d : Decoder α) : Prop :=
  ∀ ⦃input next a⦄, d input = .ok a next →
    ∃ front, input.rest = front ++ next.rest ∧ d.Reads front a ∧ d.Needs front

theorem needs_nil (d : Decoder α) : d.Needs [] := by
  intro pos front more h hmore
  exact absurd (List.append_eq_nil_iff.1 h.symm).2 hmore

/-- Data that stops within two parts stops within the first, or behind it and within the second. -/
theorem stop_of_append {front back short more : Bytes} (h : front ++ back = short ++ more) :
    (∃ rest, rest ≠ [] ∧ front = short ++ rest) ∨
      ∃ part, short = front ++ part ∧ back = part ++ more := by
  obtain ⟨part, hshort, hback⟩ | ⟨rest, hfront, hmore⟩ := List.append_eq_append_iff.1 h
  · exact .inr ⟨part, hshort, hback⟩
  · by_cases hrest : rest = []
    · subst hrest
      exact .inr ⟨[], by simp [hfront], by simp [hmore]⟩
    · exact .inl ⟨rest, hrest, hfront⟩

theorem Needs.bind {d : Decoder α} {f : α → Decoder β} {front back : Bytes} {a : α}
    (hread : d.Reads front a) (hd : d.Needs front) (hf : (f a).Needs back) :
    Needs (d >>= f) (front ++ back) := by
  intro pos short more h hmore
  change ∃ wanted left last, EStateM.bind d f _ = _
  rw [EStateM.bind]
  obtain ⟨rest, hrest, hfront⟩ | ⟨part, rfl, hback⟩ := stop_of_append h
  · obtain ⟨wanted, left, last, hstop⟩ := hd pos short rest hfront hrest
    exact ⟨wanted, left, last, by rw [hstop]⟩
  · obtain ⟨wanted, left, last, hstop⟩ := hf (pos + front.length) part more hback hmore
    exact ⟨wanted, left, last, by rw [hread pos part]; exact hstop⟩

theorem needs_take (bytes : Bytes) : Needs (take bytes.length) bytes := by
  rintro pos front more rfl hmore
  have hpos := List.length_pos_iff.2 hmore
  have hshort : ¬ (front.take (front ++ more).length).length = (front ++ more).length := by
    simp only [List.length_take, List.length_append]
    omega
  exact ⟨_, _, _, by rw [take, if_neg hshort]⟩

theorem needs_byte (b : UInt8) : Needs byte [b] := by
  intro pos front more h hmore
  have hlength := congrArg List.length h
  have hpos := List.length_pos_iff.2 hmore
  simp only [List.length_append, List.length_cons, List.length_nil] at hlength
  obtain rfl : front = [] := List.eq_nil_of_length_eq_zero (by omega)
  exact ⟨1, 0, _, rfl⟩

namespace Delimits

/-- The bytes that a value is read from are those it needs. -/
theorem needs {d : Decoder α} {bytes : Bytes} {a : α} (h : d.Delimits) (hread : d.Reads bytes a) :
    d.Needs bytes := by
  obtain ⟨front, hfront, -, hneeds⟩ := h (hread 0 [])
  simp only [List.append_nil] at hfront
  rwa [hfront]

theorem pure (a : α) : Delimits (pure a) := by
  intro input next b h
  cases h
  exact ⟨[], rfl, Reads.pure _, needs_nil _⟩

theorem fail (fault : Fault) : Delimits (throw fault : Decoder α) := by
  intro input next a h
  cases h

theorem bind {d : Decoder α} {f : α → Decoder β} (hd : d.Delimits) (hf : ∀ a, (f a).Delimits) :
    Delimits (d >>= f) := by
  intro input last b h
  obtain ⟨a, between, ha, hb⟩ := bind_eq_ok h
  obtain ⟨front, hfront, hread, hneeds⟩ := hd ha
  obtain ⟨back, hback, hreadback, hneedsback⟩ := hf a hb
  refine ⟨front ++ back, ?_, hread.bind hreadback, hneeds.bind hread hneedsback⟩
  rw [hfront, hback, List.append_assoc]

end Delimits

theorem delimits_take (n : Nat) : Delimits (take n) := by
  intro input next data h
  rw [take] at h
  split at h
  next hlength =>
    cases h
    refine ⟨input.rest.take n, (List.take_append_drop n input.rest).symm, reads_take hlength, ?_⟩
    have hneeds := needs_take (input.rest.take n)
    rwa [hlength] at hneeds
  next => cases h

theorem delimits_byte : Delimits byte := by
  intro input next b h
  rw [byte] at h
  split at h
  next => cases h
  next c rest hrest =>
    cases h
    refine ⟨[b], ?_, reads_byte b, needs_byte b⟩
    rw [Input.advance, hrest]
    rfl

theorem delimits_u16 : Delimits u16 := (delimits_take 2).bind fun _ => .pure _
theorem delimits_u32 : Delimits u32 := (delimits_take 4).bind fun _ => .pure _
theorem delimits_u64 : Delimits u64 := (delimits_take 8).bind fun _ => .pure _

theorem delimits_varInt : Delimits VarInt.read := by
  refine delimits_byte.bind fun tag => ?_
  split
  · exact delimits_u16.bind fun _ => .pure _
  · split
    · exact delimits_u32.bind fun _ => .pure _
    · split
      · exact delimits_u64
      · exact .pure _

theorem delimits_counted : Delimits counted := delimits_varInt.bind fun n => delimits_take n.toNat
theorem delimits_text : Delimits text := delimits_counted.bind fun _ => .pure _

end ChainScript.Wire.Decoder
