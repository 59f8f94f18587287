import ChainScript.Wire.Item

/-! Reading only moves forward: wherever a decoder ends, with or without a value, it has passed
some of the bytes that were left and nothing else. -/
namespace ChainScript.Wire

def Input.Reaches (a b : Input) : Prop := ∃ n, n ≤ a.rest.length ∧ b = a.advance n

namespace Input

theorem advance_advance (a : Input) (m n : Nat) : (a.advance m).advance n = a.advance (m + n) := by
  simp [advance, Nat.add_assoc, List.drop_drop]

theorem Reaches.refl (a : Input) : a.Reaches a := ⟨0, Nat.zero_le _, rfl⟩

theorem Reaches.trans {a b c : Input} : a.Reaches b → b.Reaches c → a.Reaches c := by
  rintro ⟨m, hm, rfl⟩ ⟨n, hn, rfl⟩
  simp only [advance, List.length_drop] at hn
  exact ⟨m + n, by omega, advance_advance a m n⟩

theorem Reaches.length_le {a b : Input} : a.Reaches b → b.rest.length ≤ a.rest.length := by
  rintro ⟨n, _, rfl⟩
  simp [advance]

end Input

namespace Decoder

def stop : EStateM.Result ε σ α → σ
  | .ok _ s | .error _ s => s

def Forward (d : Decoder α) : Prop := ∀ input : Input, input.Reaches (stop (d input))

theorem Forward.pure (a : α) : Forward (pure a) := fun input => Input.Reaches.refl input

theorem Forward.fail (fault : Fault) : Forward (throw fault : Decoder α) :=
  fun input => Input.Reaches.refl input

theorem Forward.bind {d : Decoder α} {f : α → Decoder β} (hd : d.Forward)
    (hf : ∀ a, (f a).Forward) : Forward (d >>= f) := by
  intro input
  have h := hd input
  show input.Reaches (stop (EStateM.bind d f input))
  unfold EStateM.bind
  cases hr : d input with
  | ok a next => rw [hr] at h; exact Input.Reaches.trans h (hf a next)
  | error fault next => rw [hr] at h; exact h

theorem forward_take (n : Nat) : Forward (take n) := by
  intro input
  unfold take
  by_cases h : (input.rest.take n).length = n
  · simp only [h, if_pos]
    exact ⟨n, by simp at h; omega, rfl⟩
  · simp only [h, if_neg, not_false_eq_true]
    exact Input.Reaches.refl _

theorem forward_peek : Forward peek := by
  intro input
  unfold peek
  cases input.rest <;> exact Input.Reaches.refl _

theorem forward_byte : Forward byte := by
  intro input
  unfold byte
  cases h : input.rest with
  | nil => exact Input.Reaches.refl _
  | cons b rest => exact ⟨1, by simp [h], rfl⟩

theorem forward_u16 : Forward u16 := (forward_take 2).bind fun _ => .pure _
theorem forward_u32 : Forward u32 := (forward_take 4).bind fun _ => .pure _
theorem forward_u64 : Forward u64 := (forward_take 8).bind fun _ => .pure _

theorem forward_varInt : Forward VarInt.read := by
  refine forward_byte.bind fun tag => ?_
  split
  · exact forward_u16.bind fun _ => .pure _
  · split
    · exact forward_u32.bind fun _ => .pure _
    · split
      · exact forward_u64
      · exact .pure _

theorem forward_counted : Forward counted := forward_varInt.bind fun n => forward_take n.toNat
theorem forward_text : Forward text := forward_counted.bind fun _ => .pure _
theorem forward_natural : Forward natural := forward_counted.bind fun _ => .pure _

def Shortens (d : Decoder α) : Prop :=
  ∀ ⦃input next : Input⦄ ⦃a : α⦄, d input = .ok a next → next.rest.length < input.rest.length

theorem Shortens.bind {d : Decoder α} {f : α → Decoder β} (hd : d.Shortens)
    (hf : ∀ a, (f a).Forward) : Shortens (d >>= f) := by
  intro input next b h
  change EStateM.bind d f input = .ok b next at h
  unfold EStateM.bind at h
  cases hr : d input with
  | ok a mid =>
    rw [hr] at h
    have hstop := hf a mid
    rw [show f a mid = .ok b next from h] at hstop
    exact Nat.lt_of_le_of_lt hstop.length_le (hd hr)
  | error fault mid => rw [hr] at h; simp at h

theorem shortens_byte : Shortens byte := by
  intro input next b h
  unfold byte at h
  cases hr : input.rest with
  | nil => simp [hr] at h
  | cons c rest =>
    simp only [hr, EStateM.Result.ok.injEq] at h
    rw [← h.2]
    simp [Input.advance, hr]

end Decoder
end ChainScript.Wire
