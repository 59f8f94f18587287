import ChainScript.Proofs.Text.SingleByte
import ChainScript.Proofs.Wire.Written
import Mathlib.Tactic.Linarith

/-! Reading back what was written. A decoder reads some bytes if it takes just them from the front
of any data, wherever they lie and whatever follows them. -/
namespace ChainScript.Wire

theorem leValue_leBytes (width n : Nat) : leValue (leBytes width n) = n % 256 ^ width := by
  induction width generalizing n with
  | zero => simp [leBytes, leValue, Nat.mod_one]
  | succ width ih =>
    have h := ih (n / 256)
    simp only [leValue] at h
    have hlow : n.toUInt8.toNat = n % 256 := UInt8.toNat_ofNat'
    simp only [leBytes, leValue, List.foldr_cons, h, hlow]
    rw [pow_succ', Nat.mod_mul]

theorem leValue_leBytes_of_lt {width n : Nat} (h : n < 256 ^ width) :
    leValue (leBytes width n) = n := by
  rw [leValue_leBytes, Nat.mod_eq_of_lt h]

namespace Decoder

/-- From the front of any data the decoder takes just these bytes, and they stand for the value. -/
def Reads (d : Decoder α) (bytes : Bytes) (a : α) : Prop :=
  ∀ pos rest, d ⟨pos, bytes ++ rest⟩ = .ok a ⟨pos + bytes.length, rest⟩

theorem Reads.pure (a : α) : Reads (pure a) [] a := fun _ _ => rfl

theorem Reads.unique {d : Decoder α} {bytes : Bytes} {a b : α} (ha : d.Reads bytes a)
    (hb : d.Reads bytes b) : a = b := by
  have h := ha 0 []
  rw [hb] at h
  exact (EStateM.Result.ok.inj h).1.symm

theorem Reads.bind {d : Decoder α} {f : α → Decoder β} {front back : Bytes} {a : α} {b : β}
    (hd : d.Reads front a) (hf : (f a).Reads back b) : Reads (d >>= f) (front ++ back) b := by
  intro pos rest
  change EStateM.bind d f _ = _
  rw [EStateM.bind, List.append_assoc, hd]
  change f a _ = _
  rw [hf, List.length_append, Nat.add_assoc]

/-- What follows may look at the value without reading further. -/
theorem Reads.bind_nil {d : Decoder α} {f : α → Decoder β} {bytes : Bytes} {a : α} {b : β}
    (hd : d.Reads bytes a) (hf : (f a).Reads [] b) : Reads (d >>= f) bytes b := by
  have h := hd.bind hf
  rwa [List.append_nil] at h

theorem Reads.map {d : Decoder α} {bytes : Bytes} {a : α} (g : α → β) (hd : d.Reads bytes a) :
    Reads (do return g (← d)) bytes (g a) := hd.bind_nil (Reads.pure (g a))

theorem reads_take {bytes : Bytes} {n : Nat} (h : bytes.length = n) :
    Reads (take n) bytes bytes := by
  intro pos rest
  subst h
  simp [take, Input.advance]

theorem reads_byte (b : UInt8) : Reads byte [b] b := fun _ _ => rfl

theorem reads_u16 (n : UInt16) : Reads u16 (leBytes 2 n.toNat) n := by
  have h := (reads_take (length_leBytes 2 n.toNat)).map fun bytes => (leValue bytes).toUInt16
  rwa [leValue_leBytes_of_lt n.toNat_lt, Nat.toUInt16, UInt16.ofNat_toNat] at h

theorem reads_u32 (n : UInt32) : Reads u32 (leBytes 4 n.toNat) n := by
  have h := (reads_take (length_leBytes 4 n.toNat)).map fun bytes => (leValue bytes).toUInt32
  rwa [leValue_leBytes_of_lt n.toNat_lt, Nat.toUInt32, UInt32.ofNat_toNat] at h

theorem reads_u64 (n : UInt64) : Reads u64 (leBytes 8 n.toNat) n := by
  have h := (reads_take (length_leBytes 8 n.toNat)).map fun bytes => (leValue bytes).toUInt64
  rwa [leValue_leBytes_of_lt n.toNat_lt, Nat.toUInt64, UInt64.ofNat_toNat] at h

end Decoder

namespace VarInt
open Decoder

/-- The byte of a small number is no tag. -/
theorem toUInt8_ne_tag {n : Nat} (h : n < 0xFD) {tag : UInt8} (htag : 0xFD ≤ tag.toNat) :
    n.toUInt8 ≠ tag := by
  have hbyte : n.toUInt8.toNat = n := UInt8.toNat_ofNat_of_lt (by rw [UInt8.size]; omega)
  intro he
  rw [← he, hbyte] at htag
  omega

/-- Any form of a number is read as that number. -/
theorem reads_form {n : Nat} {bytes : Bytes} (h : Form n bytes) : Reads read bytes n.toUInt64 := by
  have hsame : n.toUInt64.toNat = n := UInt64.toNat_ofNat_of_lt h.lt_size
  cases h with
  | bare small =>
    have hbyte : n.toUInt8.toNat = n := UInt8.toNat_ofNat_of_lt (by rw [UInt8.size]; omega)
    have hback : n.toUInt8.toUInt64 = n.toUInt64 := by
      rw [← UInt64.toNat_inj, UInt8.toNat_toUInt64, hbyte, hsame]
    refine (reads_byte n.toUInt8).bind_nil ?_
    rw [if_neg (toUInt8_ne_tag small (by decide)), if_neg (toUInt8_ne_tag small (by decide)),
      if_neg (toUInt8_ne_tag small (by decide)), hback]
    exact Reads.pure n.toUInt64
  | two hle =>
    have hword : n.toUInt16.toNat = n := UInt16.toNat_ofNat_of_lt (by rw [UInt16.size]; omega)
    have hback : n.toUInt16.toUInt64 = n.toUInt64 := by
      rw [← UInt64.toNat_inj, UInt16.toNat_toUInt64, hword, hsame]
    have hread := (reads_u16 n.toUInt16).map UInt16.toUInt64
    rw [hword, hback] at hread
    exact (reads_byte 0xFD).bind hread
  | four hle =>
    have hword : n.toUInt32.toNat = n := UInt32.toNat_ofNat_of_lt (by rw [UInt32.size]; omega)
    have hback : n.toUInt32.toUInt64 = n.toUInt64 := by
      rw [← UInt64.toNat_inj, UInt32.toNat_toUInt64, hword, hsame]
    have hread := (reads_u32 n.toUInt32).map UInt32.toUInt64
    rw [hword, hback] at hread
    exact (reads_byte 0xFE).bind hread
  | eight hle =>
    have hread := reads_u64 n.toUInt64
    rw [hsame] at hread
    exact (reads_byte 0xFF).bind hread

end VarInt

namespace Decoder

/-- Bytes are found behind their length, whatever its form. -/
theorem reads_counted {length bytes : Bytes} (h : VarInt.Form bytes.length length) :
    Reads counted (length ++ bytes) bytes := by
  have hlength : bytes.length.toUInt64.toNat = bytes.length := UInt64.toNat_ofNat_of_lt h.lt_size
  exact (VarInt.reads_form h).bind (reads_take hlength.symm)

theorem reads_text {s : String} {length bytes : Bytes} (h : Text.SingleByte.encode s = .ok bytes)
    (hlength : VarInt.Form bytes.length length) : Reads text (length ++ bytes) s := by
  have hread := (reads_counted hlength).map Text.SingleByte.decode
  rwa [Text.SingleByte.decode_encode h] at hread

/-- Whatever forms the items are written in, the decoder reads the value from them. -/
def ReadsItems (d : Decoder α) (items : List Item) (a : α) : Prop :=
  ∀ bytes, Item.WrittenAll VarInt.Form items bytes → d.Reads bytes a

namespace ReadsItems

theorem pure (a : α) : ReadsItems (pure a) [] a := by
  intro bytes h
  obtain rfl := h.of_nil
  exact Reads.pure a

theorem bind {d : Decoder α} {f : α → Decoder β} {items more : List Item} {a : α} {b : β}
    (hd : d.ReadsItems items a) (hf : (f a).ReadsItems more b) :
    ReadsItems (d >>= f) (items ++ more) b := by
  intro bytes h
  obtain ⟨front, back, rfl, hfront, hback⟩ := h.of_append
  exact (hd front hfront).bind (hf back hback)

theorem one {d : Decoder α} {item : Item} {a : α}
    (h : ∀ bytes, item.Written VarInt.Form bytes → d.Reads bytes a) : ReadsItems d [item] a := by
  intro bytes hbytes
  obtain ⟨front, back, rfl, hfront, hback⟩ := hbytes.of_cons
  obtain rfl := hback.of_nil
  rw [List.append_nil]
  exact h front hfront

end ReadsItems

theorem readsItems_byte (b : UInt8) : ReadsItems byte [.u8 b] b :=
  .one fun _ h => h ▸ reads_byte b

theorem readsItems_u16 (n : UInt16) : ReadsItems u16 [.u16 n] n := .one fun _ h => h ▸ reads_u16 n

theorem readsItems_u32 (n : UInt32) : ReadsItems u32 [.u32 n] n := .one fun _ h => h ▸ reads_u32 n

theorem readsItems_varInt (n : UInt64) : ReadsItems VarInt.read [.varInt n] n := by
  refine .one fun bytes h => ?_
  have hread := VarInt.reads_form h
  rwa [Nat.toUInt64, UInt64.ofNat_toNat] at hread

theorem readsItems_counted (data : Bytes) : ReadsItems counted [.bytes data] data := by
  refine .one fun bytes h => ?_
  obtain ⟨length, hlength, rfl⟩ := h
  exact reads_counted hlength

theorem readsItems_text (s : String) : ReadsItems text [.text s] s := by
  refine .one fun bytes h => ?_
  obtain ⟨data, hdata, length, hlength, rfl⟩ := h
  exact reads_text hdata hlength

/-- A read made of two parts succeeds only where both of them do. -/
theorem bind_eq_ok {d : Decoder α} {f : α → Decoder β} {input last : Input} {b : β}
    (h : (d >>= f) input = .ok b last) :
    ∃ a between, d input = .ok a between ∧ f a between = .ok b last := by
  change EStateM.bind d f input = _ at h
  rw [EStateM.bind] at h
  split at h
  next a between hd => exact ⟨a, between, hd, h⟩
  next => cases h

/-- Every text that is read has bytes again. -/
theorem encode_of_text {input last : Input} {s : String} (h : text input = .ok s last) :
    ∃ bytes, Text.SingleByte.encode s = .ok bytes := by
  obtain ⟨bytes, _, _, hdecode⟩ := bind_eq_ok h
  cases hdecode
  exact ⟨bytes, Text.SingleByte.encode_decode bytes⟩

/-- All the data that is left stands for the value. What the decoder does may depend on where the
data ends, so this says nothing about reading in front of other data. -/
def Ends (d : Decoder α) (bytes : Bytes) (a : α) : Prop :=
  ∀ pos, d ⟨pos, bytes⟩ = .ok a ⟨pos + bytes.length, []⟩

theorem Reads.ends {d : Decoder α} {bytes : Bytes} {a : α} (hd : d.Reads bytes a) :
    d.Ends bytes a := by
  intro pos
  have h := hd pos []
  rwa [List.append_nil] at h

theorem Reads.bind_ends {d : Decoder α} {f : α → Decoder β} {front back : Bytes} {a : α} {b : β}
    (hd : d.Reads front a) (hf : (f a).Ends back b) : Ends (d >>= f) (front ++ back) b := by
  intro pos
  change EStateM.bind d f _ = _
  rw [EStateM.bind, hd]
  change f a _ = _
  rw [hf, List.length_append, Nat.add_assoc]

/-- No data is left behind data that ends. -/
theorem Ends.ended {d : Decoder α} {bytes : Bytes} {a : α} (g : α → β) (hd : d.Ends bytes a) :
    Ends (do let x ← d; Decoder.ended; return g x) bytes (g a) := by
  intro pos
  change EStateM.bind d _ _ = _
  rw [EStateM.bind, hd]
  rfl

theorem Ends.run {d : Decoder α} {bytes : Bytes} {a : α} (hd : d.Ends bytes a) :
    d.run bytes = .ok a := by
  rw [Decoder.run, Input.ofBytes, hd]

theorem exists_of_run {d : Decoder α} {bytes : Bytes} {a : α} (h : d.run bytes = .ok a) :
    ∃ last, d (Input.ofBytes bytes) = .ok a last := by
  rw [Decoder.run] at h
  split at h
  next value last hd =>
    cases h
    exact ⟨last, hd⟩
  next => cases h

end Decoder
end ChainScript.Wire
