import ChainScript.Proofs.Assembly.Emission

/-! What holds of a draft after any calls. Its slots are blank and lie apart inside the code, its
labels stand behind a `nop`, and code that was written stays as it is, so linking finds every
slot. -/
namespace ChainScript
open Machine

namespace Draft

structure Sound (d : Draft) : Prop where
  inside : ∀ r ∈ d.references, r.slot + 2 ≤ d.code.length
  apart : d.references.Pairwise fun r s => r.slot + 2 ≤ s.slot
  blank : ∀ r ∈ d.references, d.code[r.slot]? = some 0 ∧ d.code[r.slot + 1]? = some 0
  landing : ∀ l ∈ d.labels, 1 ≤ l.2 ∧ l.2 ≤ d.code.length ∧
    d.code[l.2 - 1]? = some Opcode.nop.byte

theorem sound_empty : empty.Sound := ⟨by simp [empty], .nil, by simp [empty], by simp [empty]⟩

namespace Sound
variable {d : Draft}

/-- Code behind that of a sound draft leaves it sound. -/
theorem grow (h : d.Sound) (bytes : Bytes) : Sound { d with code := d.code ++ bytes } where
  inside r hr := by
    have hinside := h.inside r hr
    rw [List.length_append]
    omega
  apart := h.apart
  blank r hr := by
    have hinside := h.inside r hr
    rw [List.getElem?_append_left (by omega), List.getElem?_append_left (by omega)]
    exact h.blank r hr
  landing l hl := by
    obtain ⟨hpos, hle, hnop⟩ := h.landing l hl
    refine ⟨hpos, by rw [List.length_append]; omega, ?_⟩
    rwa [List.getElem?_append_left (by omega)]

/-- A label behind a last `nop`. -/
theorem place (h : d.Sound) (name : String) (hnop : d.code.getLast? = some Opcode.nop.byte) :
    Sound { d with labels := (name, d.offset) :: d.labels } where
  inside := h.inside
  apart := h.apart
  blank := h.blank
  landing l hl := by
    obtain rfl | hl := List.mem_cons.1 hl
    · have hne : d.code ≠ [] := fun hnil => by rw [hnil] at hnop; cases hnop
      refine ⟨List.length_pos_iff.2 hne, Nat.le_refl _, ?_⟩
      rw [← hnop, List.getLast?_eq_getElem?]
      rfl
    · exact h.landing l hl

/-- A slot at the end of the code. -/
theorem reserve (h : d.Sound) (label : String) :
    Sound { d with
      code := d.code ++ [0, 0]
      references := d.references ++ [⟨d.offset, label⟩] } where
  inside r hr := by
    obtain hr | hr := List.mem_append.1 hr
    · exact (h.grow [0, 0]).inside r hr
    · obtain rfl := List.mem_singleton.1 hr
      rw [List.length_append]
      exact Nat.le_refl _
  apart := by
    refine List.pairwise_append.2 ⟨h.apart, List.pairwise_singleton _ _, fun r hr s hs => ?_⟩
    obtain rfl := List.mem_singleton.1 hs
    exact h.inside r hr
  blank r hr := by
    obtain hr | hr := List.mem_append.1 hr
    · exact (h.grow [0, 0]).blank r hr
    · obtain rfl := List.mem_singleton.1 hr
      constructor
      · rw [offset, List.getElem?_append_right (Nat.le_refl _), Nat.sub_self]
        rfl
      · rw [offset, List.getElem?_append_right (Nat.le_add_right _ 1), Nat.add_sub_cancel_left]
        rfl
  landing := (h.grow [0, 0]).landing

theorem add (h : d.Sound) (p : Piece) : (d.add p).Sound := by
  cases p with
  | raw bytes => exact h.grow bytes
  | instr i => exact h.grow i.encode
  | label name =>
    have hgrown : (d.add (.instr .nop)).Sound := h.grow Instr.nop.encode
    have hnop : (d.code ++ [Opcode.nop.byte]).getLast? = some Opcode.nop.byte :=
      List.getLast?_concat
    have hplaced := hgrown.place name hnop
    have hoffset : (d.add (.instr .nop)).offset = d.offset + 1 := by rw [offset_add]; rfl
    rwa [hoffset] at hplaced
  | branch b label =>
    have hgrown : (d.add (.raw b.lead)).Sound := h.grow b.lead
    have hreserved := hgrown.reserve label
    have hoffset : (d.add (.raw b.lead)).offset = d.offset + b.lead.length := offset_add d _
    have hcode : (d.add (.raw b.lead)).code ++ [0, 0] = d.code ++ (b.lead ++ [0, 0]) :=
      List.append_assoc d.code b.lead [0, 0]
    rwa [hoffset, hcode] at hreserved

theorem extend (h : d.Sound) (ps : List Piece) : (d.extend ps).Sound := by
  induction ps generalizing d with
  | nil => exact h
  | cons p ps ih => exact ih (h.add p)

end Sound

/-- Filling a slot keeps the length of the code. -/
theorem length_patch {d : Draft} {code after : Bytes} {r : Reference}
    (h : d.patch code r = .ok after) : after.length = code.length := by
  rw [patch] at h
  cases htarget : d.target r.label with
  | error refusal => rw [htarget] at h; cases h
  | ok target =>
    rw [htarget] at h
    obtain rfl := Except.ok.inj h
    rw [Wire.Slot.fill]
    split
    next hinside =>
      simp only [Option.getD_some, List.length_append, List.length_take, List.length_drop,
        Wire.length_leBytes]
      omega
    next => rfl

theorem length_foldlM_patch {d : Draft} {references : List Reference} {code after : Bytes}
    (h : references.foldlM d.patch code = .ok after) : after.length = code.length := by
  induction references generalizing code with
  | nil => exact congrArg List.length (Except.ok.inj h).symm
  | cons r rest ih =>
    rw [List.foldlM_cons] at h
    cases hpatch : d.patch code r with
    | error refusal => rw [hpatch] at h; cases h
    | ok between =>
      rw [hpatch] at h
      exact (ih h).trans (length_patch hpatch)

/-- When the turn of a slot comes in linking, it lies in the code as it is then. -/
theorem Sound.exists_fill {d : Draft} (h : d.Sound) {before after : List Reference}
    {r : Reference} {code : Bytes} (hsplit : d.references = before ++ r :: after)
    (hcode : before.foldlM d.patch d.code = .ok code) (value : UInt16) :
    ∃ filled, Wire.Slot.fill code r.slot value = some filled := by
  have hinside := h.inside r (by rw [hsplit]; exact List.mem_append_right _ List.mem_cons_self)
  rw [← length_foldlM_patch hcode] at hinside
  exact ⟨_, by rw [Wire.Slot.fill, if_pos hinside]⟩

end Draft

namespace Call

theorem sound_outcome (c : Call) {d : Draft} (h : d.Sound) : (c.outcome d).1.Sound := by
  by_cases hc : c = begin
  · subst hc
    exact Draft.sound_empty
  · rw [outcome_fst hc]
    exact h.extend _

theorem sound_run (calls : List Call) {d : Draft} (h : d.Sound) : (run calls d).Sound := by
  induction calls generalizing d with
  | nil => exact h
  | cons c calls ih => exact ih (c.sound_outcome h)

/-- Whatever the calls were and however many of them were refused, the references and labels of the
draft fit its code; the next call, unless it starts anew, leaves the code in place and writes behind
it; and linking never comes to a slot that it cannot fill. -/
theorem run_sound (calls : List Call) :
    (run calls Draft.empty).Sound ∧
    (∀ c, c ≠ begin → (run calls Draft.empty).code <+: (c.outcome (run calls Draft.empty)).1.code) ∧
    ∀ before r after code value, (run calls Draft.empty).references = before ++ r :: after →
      before.foldlM (run calls Draft.empty).patch (run calls Draft.empty).code = .ok code →
      ∃ filled, Wire.Slot.fill code r.slot value = some filled := by
  have hsound := sound_run calls Draft.sound_empty
  refine ⟨hsound, fun c hc => ?_, fun before r after code value hsplit hcode =>
    hsound.exists_fill hsplit hcode value⟩
  rw [outcome_fst hc, Draft.code_extend]
  exact List.prefix_append _ _

end Call
end ChainScript
