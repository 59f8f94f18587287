import ChainScript.Envelope.Signature
import ChainScript.Event.Payload
import ChainScript.Machine.Instr
import ChainScript.Proofs.Wire.Delimited
import ChainScript.Proofs.Wire.Interrupted

/-! Decoders whose answers do not depend on what comes behind the data they took. A value stays the
same value, whatever follows its bytes, and none of these bytes can be missing. A byte that names
nothing is refused, whatever follows it. Only missing data is a matter of where the data ends. -/
namespace ChainScript
open Wire

namespace Wire.Decoder
variable {d : Decoder α}

/-- A fault that is no lack of data is there, and at the same place, whatever follows the data. -/
def Persists (d : Decoder α) : Prop :=
  ∀ ⦃input last fault⦄, d input = .error fault last →
    (∃ wanted left, fault = .truncated wanted left) ∨
      ∀ more, d ⟨input.pos, input.rest ++ more⟩ = .error fault ⟨last.pos, last.rest ++ more⟩

/-- Whatever the decoder makes of some data, it makes of all data that starts with them, unless it
came to their end. -/
structure Streams (d : Decoder α) : Prop where
  delimits : d.Delimits
  persists : d.Persists

/-- A read that succeeds does the same if more data follows. -/
theorem Delimits.extend (h : d.Delimits) {input next : Input} {a : α} (ha : d input = .ok a next)
    (more : Bytes) : d ⟨input.pos, input.rest ++ more⟩ = .ok a ⟨next.pos, next.rest ++ more⟩ := by
  obtain ⟨front, hfront, hread, -⟩ := h ha
  have hplace := hread input.pos next.rest
  rw [← hfront, ha] at hplace
  obtain ⟨-, hnext⟩ := EStateM.Result.ok.inj hplace
  rw [hfront, List.append_assoc, hread, hnext]

namespace Streams

theorem pure (a : α) : Streams (pure a) := ⟨.pure a, fun _ _ _ h => nomatch h⟩

theorem fail (fault : Fault) : Streams (throw fault : Decoder α) where
  delimits := .fail fault
  persists := by
    intro input last fault h
    cases h
    exact .inr fun _ => rfl

theorem bind {f : α → Decoder β} (hd : d.Streams) (hf : ∀ a, (f a).Streams) :
    Streams (d >>= f) where
  delimits := hd.delimits.bind fun a => (hf a).delimits
  persists := by
    intro input last fault h
    obtain hfirst | ⟨a, between, ha, hsecond⟩ := bind_eq_error h
    · refine (hd.persists hfirst).imp_right fun hmore more => ?_
      change EStateM.bind d f _ = _
      rw [EStateM.bind, hmore]
    · refine ((hf a).persists hsecond).imp_right fun hmore more => ?_
      change EStateM.bind d f _ = _
      rw [EStateM.bind, hd.delimits.extend ha]
      exact hmore more

theorem map (g : α → β) (hd : d.Streams) : Streams (g <$> d) :=
  hd.bind fun a => .pure (g a)

/-- Where all that can be wrong is a lack of data, nothing else has to persist. -/
theorem of_truncated (hd : d.Delimits)
    (h : ∀ ⦃input last fault⦄, d input = .error fault last →
      ∃ wanted left, fault = .truncated wanted left) : d.Streams :=
  ⟨hd, fun _ _ _ herror => .inl (h herror)⟩

end Streams

theorem streams_take (n : Nat) : Streams (take n) :=
  .of_truncated (delimits_take n) fun _ _ _ h => ⟨_, _, (take_eq_error h).2.2⟩

theorem streams_byte : Streams byte := by
  refine .of_truncated delimits_byte fun input last fault h => ?_
  rw [byte] at h
  split at h
  next =>
    cases h
    exact ⟨1, 0, rfl⟩
  next => cases h

theorem streams_u16 : Streams u16 := (streams_take 2).bind fun _ => .pure _
theorem streams_u32 : Streams u32 := (streams_take 4).bind fun _ => .pure _
theorem streams_u64 : Streams u64 := (streams_take 8).bind fun _ => .pure _

theorem streams_varInt : Streams VarInt.read := by
  refine streams_byte.bind fun tag => ?_
  split
  · exact streams_u16.bind fun _ => .pure _
  · split
    · exact streams_u32.bind fun _ => .pure _
    · split
      · exact streams_u64
      · exact .pure _

theorem streams_counted : Streams counted := streams_varInt.bind fun n => streams_take n.toNat
theorem streams_text : Streams text := streams_counted.bind fun _ => .pure _
theorem streams_natural : Streams natural := streams_counted.bind fun _ => .pure _

/-- Peeking takes no bytes and yet needs one, so it is left out. -/
theorem streams_request {q : Request} (h : q ≠ .peek) : Streams q.read := by
  cases q with
  | peek => exact absurd rfl h
  | u8 => exact streams_byte.map Item.u8
  | u16 => exact streams_u16.map Item.u16
  | u32 => exact streams_u32.map Item.u32
  | u64 => exact streams_u64.map Item.u64
  | varInt => exact streams_varInt.map Item.varInt
  | raw length => exact (streams_take length).map Item.raw
  | bytes => exact streams_counted.map Item.bytes
  | text => exact streams_text.map Item.text
  | natural => exact streams_natural.map Item.natural

/-- From any data: a value is read from just the bytes that it consumes, in front of all others and
from no fewer of them, and a byte that names nothing is refused in front of all others. -/
structure SelfDelimiting (d : Decoder α) : Prop where
  value : ∀ {pos data a next}, d ⟨pos, data⟩ = .ok a next →
    ∃ k ≤ data.length, next = ⟨pos + k, data.drop k⟩ ∧
      (∀ more, d ⟨pos, data.take k ++ more⟩ = .ok a ⟨pos + k, more⟩) ∧
      ∀ j < k, ∃ wanted left last, d ⟨pos, data.take j⟩ = .error (.truncated wanted left) last
  wrong : ∀ {pos data tag last}, d ⟨pos, data⟩ = .error (.unknownTag tag) last →
    ∀ more, d ⟨pos, data ++ more⟩ = .error (.unknownTag tag) ⟨last.pos, last.rest ++ more⟩

theorem Streams.selfDelimiting (h : d.Streams) : d.SelfDelimiting where
  value := by
    intro pos data a next ha
    obtain ⟨front, hdata, hread, hneeds⟩ := h.delimits ha
    have hdata : data = front ++ next.rest := hdata
    have hnext : next = ⟨pos + front.length, next.rest⟩ := by
      have hplace := hread pos next.rest
      rw [← hdata, ha] at hplace
      exact (EStateM.Result.ok.inj hplace).2
    refine ⟨front.length, ?_, ?_, fun more => ?_, fun j hj => ?_⟩
    · rw [hdata, List.length_append]
      exact Nat.le_add_right _ _
    · rw [hdata, List.drop_left]
      exact hnext
    · rw [hdata, List.take_left]
      exact hread pos more
    · have hcut : front.drop j ≠ [] := List.ne_nil_of_length_pos (by rw [List.length_drop]; omega)
      rw [hdata, List.take_append_of_le_length (Nat.le_of_lt hj)]
      exact hneeds pos _ _ (List.take_append_drop j front).symm hcut
  wrong := by
    intro pos data tag last htag
    obtain ⟨wanted, left, hcut⟩ | hmore := h.persists htag
    · cases hcut
    · exact hmore

end Wire.Decoder

open Decoder

namespace Machine.Decode

theorem pair_eq_map : pair = (fun regs => (regs.getD 0 0, regs.getD 1 0)) <$> take 2 := by
  funext ⟨pos, rest⟩
  rcases rest with _ | ⟨a, _ | ⟨b, rest⟩⟩ <;> rfl

theorem triple_eq_map :
    triple = (fun regs => (regs.getD 0 0, regs.getD 1 0, regs.getD 2 0)) <$> take 3 := by
  funext ⟨pos, rest⟩
  rcases rest with _ | ⟨a, _ | ⟨b, _ | ⟨c, rest⟩⟩⟩ <;> rfl

theorem streams_pair : Streams pair := pair_eq_map ▸ (streams_take 2).map _

theorem streams_triple : Streams triple := triple_eq_map ▸ (streams_take 3).map _

theorem streams_opcode : Streams opcode := by
  refine streams_byte.bind fun b => ?_
  split
  · exact .pure _
  · exact .fail _

theorem streams_typeTag : Streams typeTag := by
  refine streams_byte.bind fun b => ?_
  split
  · exact .pure _
  · exact .fail _

theorem streams_operands (op : Opcode) : Streams (operands op) := by
  unfold operands
  split
  next => split <;> exact .pure _
  next => exact streams_byte.bind fun _ => .pure _
  next => exact streams_pair.bind fun _ => .pure _
  next => exact streams_triple.bind fun _ => .pure _
  next => exact streams_byte.bind fun _ => streams_u16.bind fun _ => .pure _
  next => exact streams_u16.bind fun _ => .pure _
  next =>
    refine streams_byte.bind fun _ => streams_u16.bind fun _ => ?_
    split <;> exact .pure _
  next => exact streams_counted.bind fun _ => .pure _
  next =>
    exact streams_byte.bind fun _ => streams_typeTag.bind fun _ => streams_counted.bind fun _ =>
      .pure _
  next =>
    exact streams_byte.bind fun _ => streams_byte.bind fun _ => streams_typeTag.bind fun _ =>
      .pure _
  next =>
    refine streams_byte.bind fun _ => streams_byte.bind fun _ => streams_varInt.bind fun _ => ?_
    split <;> exact .pure _
  next =>
    exact streams_byte.bind fun _ => streams_byte.bind fun _ => streams_varInt.bind fun _ =>
      streams_varInt.bind fun _ => .pure _

theorem streams_instr : Streams instr := streams_opcode.bind streams_operands

end Machine.Decode

theorem SignatureKind.streams_read : Streams SignatureKind.read := by
  refine streams_byte.bind fun b => ?_
  split
  · exact .pure _
  · exact .fail _

theorem Signature.streams_read : Streams Signature.read :=
  SignatureKind.streams_read.bind fun _ => streams_counted.bind fun _ => .pure _

theorem TokenAmount.streams_read : Streams TokenAmount.read :=
  streams_text.bind fun _ => streams_natural.bind fun _ => streams_text.bind fun _ => .pure _

theorem ChainValue.streams_read : Streams ChainValue.read :=
  streams_text.bind fun _ => streams_natural.bind fun _ => .pure _

/-- All requests but peeking, bytes of a fixed number among them, two and three registers at a time,
whole instructions, signatures and the payloads of events are read from just the bytes that they
take. -/
theorem reads_selfDelimiting :
    (∀ q : Request, q ≠ .peek → SelfDelimiting q.read) ∧
    SelfDelimiting Machine.Decode.pair ∧ SelfDelimiting Machine.Decode.triple ∧
    SelfDelimiting Machine.Decode.instr ∧ SelfDelimiting Signature.read ∧
    SelfDelimiting TokenAmount.read ∧ SelfDelimiting ChainValue.read :=
  ⟨fun _ hq => (streams_request hq).selfDelimiting,
    Machine.Decode.streams_pair.selfDelimiting, Machine.Decode.streams_triple.selfDelimiting,
    Machine.Decode.streams_instr.selfDelimiting, Signature.streams_read.selfDelimiting,
    TokenAmount.streams_read.selfDelimiting, ChainValue.streams_read.selfDelimiting⟩

end ChainScript
