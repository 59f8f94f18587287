import ChainScript.Proofs.Envelope.Acceptance
import ChainScript.Proofs.Wire.Interrupted

/-! Transactions that announce more signatures than the data can hold. Every signature takes at
least two bytes, so it is the data that is left, and not the announced number, that bounds how often
a signature is read. -/
namespace ChainScript
open Wire Decoder

namespace Signature
variable {input next last : Input} {s : Signature} {fault : Fault}

/-- The kind takes a byte, and so does the length of the data even where there is none. -/
theorem length_of_read (h : Signature.read input = .ok s next) :
    next.rest.length + 2 ≤ input.rest.length := by
  obtain ⟨front, hrest, -, hitems⟩ :=
    (Signature.follows_read fun _ _ _ => trivial : Follows _ _ fun _ _ => True).of_ok h
  obtain ⟨kind, data, rfl, hkind, hdata⟩ := hitems.of_cons
  obtain rfl : kind = [s.kind.byte] := hkind
  obtain ⟨counted, tail, rfl, hcounted, -⟩ := hdata.of_cons
  obtain ⟨length, hlength, rfl⟩ := hcounted
  have hpos := List.length_pos_iff.2 hlength.ne_nil
  rw [hrest]
  simp only [List.length_append, List.length_singleton]
  omega

theorem fault_of_read (h : Signature.read input = .error fault last) :
    (∃ wanted left, fault = .truncated wanted left) ∨ ∃ tag, fault = .unknownTag tag := by
  have hread : Outcome _ (fun _ fault => ∃ tag, fault = .unknownTag tag) input _ :=
    Signature.follows_read (fun b _ _ => ⟨b, rfl⟩) input
  rw [h] at hread
  cases hread with
  | cut => exact .inl ⟨_, _, rfl⟩
  | wrong _ htag => exact .inr htag

inductive ReadEach : Input → List Signature → Input → Prop where
  | nil (input : Input) : ReadEach input [] input
  | cons {input next last : Input} {s : Signature} {rest : List Signature} :
      Signature.read input = .ok s next → ReadEach next rest last → ReadEach input (s :: rest) last

theorem ReadEach.length_le {signatures : List Signature} (h : ReadEach input signatures last) :
    last.rest.length + 2 * signatures.length ≤ input.rest.length := by
  induction h with
  | nil => exact Nat.le_refl _
  | cons hread _ ih =>
    have hshort := length_of_read hread
    rw [List.length_cons]
    omega

end Signature

namespace Transaction
open Signature
variable {input next last stop : Input} {signatures found : List Signature} {fault : Fault}

theorem readSignatures_succ {s : Signature} (h : Signature.read input = .ok s next) (count : Nat) :
    readSignatures (count + 1) found input = readSignatures count (s :: found) next := by
  change EStateM.bind Signature.read _ input = _
  rw [EStateM.bind, h]

theorem readSignatures_of_each (h : ReadEach input signatures last) :
    readSignatures signatures.length found input = .ok (found.reverse ++ signatures) last := by
  induction h generalizing found with
  | nil => exact congrArg (EStateM.Result.ok · _) (List.append_nil _).symm
  | cons hread _ ih =>
    rw [List.length_cons, readSignatures_succ hread, ih]
    simp

/-- A signature that cannot be read ends the loop, however many were to follow. -/
theorem readSignatures_of_failed (h : ReadEach input signatures last)
    (hlast : Signature.read last = .error fault stop) {count : Nat}
    (hcount : signatures.length < count) :
    readSignatures count found input = .error fault stop := by
  induction h generalizing found count with
  | nil =>
    cases count with
    | zero => cases hcount
    | succ count => exact bind_of_error hlast
  | cons hread _ ih =>
    cases count with
    | zero => cases hcount
    | succ count =>
      rw [readSignatures_succ hread]
      exact ih hlast (Nat.lt_of_succ_lt_succ hcount)

/-- The loop comes through, or some signature before its end cannot be read. -/
theorem exists_each (count : Nat) (input : Input) :
    (∃ signatures last, ReadEach input signatures last ∧ signatures.length = count) ∨
      ∃ signatures last fault stop, ReadEach input signatures last ∧ signatures.length < count ∧
        Signature.read last = .error fault stop := by
  induction count generalizing input with
  | zero => exact .inl ⟨[], input, .nil input, rfl⟩
  | succ count ih =>
    cases hread : Signature.read input with
    | error fault stop => exact .inr ⟨[], input, fault, stop, .nil input, Nat.succ_pos _, hread⟩
    | ok s next =>
      obtain ⟨rest, last, heach, hlength⟩ | ⟨rest, last, fault, stop, heach, hlt, hlast⟩ := ih next
      · exact .inl ⟨s :: rest, last, .cons hread heach, congrArg (· + 1) hlength⟩
      · exact .inr ⟨s :: rest, last, fault, stop, .cons hread heach, Nat.succ_lt_succ hlt, hlast⟩

theorem readSignatures_min (count : Nat) (found : List Signature) (input : Input) :
    readSignatures count found input =
      readSignatures (min count (input.remaining / 2 + 1)) found input := by
  obtain ⟨signatures, last, heach, rfl⟩ | ⟨signatures, last, fault, stop, heach, hlt, hlast⟩ :=
    exists_each count input
  · have hlength := heach.length_le
    rw [Nat.min_eq_left (by rw [Input.remaining]; omega)]
  · have hlength := heach.length_le
    have hmin : signatures.length < min count (input.remaining / 2 + 1) := by
      rw [Input.remaining]
      omega
    rw [readSignatures_of_failed heach hlast hlt, readSignatures_of_failed heach hlast hmin]

/-- The announced number of signatures matters no further than the data that is left behind it: the
loop stops within half as many signatures as there are bytes. If the data is too short for the
number, then a signature among these fails, and if the data is read, it has just that number. -/
theorem ofBytes_forged_count {data : Bytes} {t : Transaction} {between next : Input} {c : UInt64}
    (henvelope : envelope (.ofBytes data) = .ok t between) (hsection : between.rest ≠ [])
    (hcount : VarInt.read between = .ok c next) :
    (ofBytes data = match readSignatures c.toNat [] next with
      | .error fault _ => .error fault
      | .ok signatures last =>
        if last.isEmpty then .ok { t with signatures := signatures }
        else .error (.trailing last.remaining)) ∧
    readSignatures c.toNat [] next =
      readSignatures (min c.toNat (next.remaining / 2 + 1)) [] next ∧
    (next.remaining < 2 * c.toNat → ∃ signatures last fault stop,
      ReadEach next signatures last ∧ Signature.read last = .error fault stop ∧
      signatures.length < c.toNat ∧ signatures.length + 1 ≤ next.remaining / 2 + 1 ∧
      ofBytes data = .error fault ∧
      ((∃ wanted left, fault = .truncated wanted left) ∨ ∃ tag, fault = .unknownTag tag)) ∧
    ∀ u, ofBytes data = .ok u →
      u.signatures.length = c.toNat ∧ 2 * c.toNat ≤ next.remaining := by
  have hsignatures : readSection between = readSignatures c.toNat [] next := by
    rw [readSection_of_ne_nil hsection]
    change EStateM.bind VarInt.read _ between = _
    rw [EStateM.bind, hcount]
  have hall := ofBytes_eq data
  simp only [henvelope, hsignatures] at hall
  refine ⟨hall, readSignatures_min _ _ _, ?_⟩
  obtain ⟨signatures, last, heach, hlength⟩ | ⟨signatures, last, fault, stop, heach, hlt, hlast⟩ :=
    exists_each c.toNat next
  · have hle : last.rest.length + 2 * signatures.length ≤ next.remaining := heach.length_le
    refine ⟨fun hshort => by omega, fun u hu => ?_⟩
    rw [hu, ← hlength, readSignatures_of_each heach] at hall
    cases hend : last.isEmpty with
    | true =>
      simp only [hend, if_true] at hall
      cases hall
      exact ⟨hlength, by omega⟩
    | false =>
      simp only [hend] at hall
      cases hall
  · have hle : last.rest.length + 2 * signatures.length ≤ next.remaining := heach.length_le
    rw [readSignatures_of_failed heach hlast hlt] at hall
    refine ⟨fun _ => ⟨signatures, last, fault, stop, heach, hlast, hlt, by omega, hall,
      fault_of_read hlast⟩, fun u hu => ?_⟩
    rw [hu] at hall
    cases hall

/-- A transaction that announces more than any data can hold, with one signature behind the number
and a byte that is no kind. -/
def forgedData : Bytes :=
  [0, 0, 0, 0, 0, 0, 0, 0] ++ VarInt.encode 0xFFFFFFFFFFFFFFFF ++ [1, 0, 7]

theorem ofBytes_forgedData :
    readSignatures 0xFFFFFFFFFFFFFFFF [] ⟨17, [1, 0, 7]⟩ = readSignatures 2 [] ⟨17, [1, 0, 7]⟩ ∧
    (∃ signatures last fault stop, ReadEach ⟨17, [1, 0, 7]⟩ signatures last ∧
      Signature.read last = .error fault stop ∧ signatures.length + 1 ≤ 2 ∧
      ofBytes forgedData = .error fault) ∧
    ∀ u, ofBytes forgedData ≠ .ok u := by
  have henvelope : envelope (.ofBytes forgedData) =
      .ok ⟨"", "", [], ⟨0⟩, "", []⟩ ⟨8, VarInt.encode 0xFFFFFFFFFFFFFFFF ++ [1, 0, 7]⟩ := rfl
  have hcount : VarInt.read ⟨8, VarInt.encode 0xFFFFFFFFFFFFFFFF ++ [1, 0, 7]⟩ =
      .ok 0xFFFFFFFFFFFFFFFF ⟨17, [1, 0, 7]⟩ := rfl
  obtain ⟨-, hmin, hshort, hread⟩ := ofBytes_forged_count henvelope (by decide) hcount
  obtain ⟨signatures, last, fault, stop, heach, hlast, -, hle, hdata, -⟩ := hshort (by decide)
  exact ⟨hmin, ⟨signatures, last, fault, stop, heach, hlast, hle, hdata⟩,
    fun u hu => absurd (hread u hu).2 (by decide)⟩

end Transaction
end ChainScript
