import ChainScript.Proofs.Assembly.Loading
import ChainScript.Proofs.Wire.Outcome

/-! Getting a value back from the data that it was loaded as. A plain value is known from its type
and its data, but for a number, which is loaded as its text. -/
namespace ChainScript
open Machine

namespace Value

/-- What is got back for a value: its data do not say whether they were given as a number. -/
def restored : Value → Value
  | number digits => text digits
  | v => v

theorem ofRaw_time (t : Timestamp) : ofRaw .timestamp t.encode = .ok (time t) := by
  change Except.ok (time ⟨(Wire.leValue (Wire.leBytes 4 t.secs.toNat)).toUInt32⟩) = _
  rw [Wire.leValue_leBytes_of_lt t.secs.toNat_lt, Nat.toUInt32, UInt32.ofNat_toNat]

theorem ofRaw_enum (n : UInt32) : ofRaw .enum (Wire.leBytes 4 n.toNat) = .ok (enum n) := by
  change Except.ok (enum (Wire.leValue (Wire.leBytes 4 n.toNat)).toUInt32) = _
  rw [Wire.leValue_leBytes_of_lt n.toNat_lt, Nat.toUInt32, UInt32.ofNat_toNat]

theorem encode_of_toOption {s : String} {data : Bytes}
    (h : (Text.SingleByte.encode s).toOption = some data) :
    Text.SingleByte.encode s = .ok data := by
  cases hs : Text.SingleByte.encode s with
  | ok bytes =>
    rw [hs] at h
    exact congrArg Except.ok (Option.some.inj h)
  | error c =>
    rw [hs] at h
    cases h

theorem ofRaw_data {v : Value} {data : Bytes} (h : v.data? = some data) :
    ofRaw v.type data = .ok v.restored := by
  cases v with
  | text s | number s =>
    change Except.ok (text (Text.SingleByte.decode data)) = _
    rw [Text.SingleByte.decode_encode (encode_of_toOption h)]
    rfl
  | bool b =>
    obtain rfl := Option.some.inj h
    cases b <;> rfl
  | time t =>
    obtain rfl := Option.some.inj h
    exact ofRaw_time t
  | bytes bytes =>
    obtain rfl := Option.some.inj h
    rfl
  | enum n =>
    obtain rfl := Option.some.inj h
    exact ofRaw_enum n
  | array items => cases h

theorem leBytes_word (a b c d : UInt8) :
    Wire.leBytes 4 (Wire.leValue [a, b, c, d]).toUInt32.toNat = [a, b, c, d] := by
  have hsmall : Wire.leValue [a, b, c, d] < 256 ^ 4 := Wire.leValue_lt rfl
  rw [Nat.toUInt32, UInt32.toNat_ofNat_of_lt' hsmall]
  exact Wire.leBytes_leValue rfl

/-- Data stand for a value only if they are the data of that value under its type. -/
theorem data_of_ofRaw {ty : TypeTag} {data : Bytes} {v : Value} (h : ofRaw ty data = .ok v) :
    v.Plain ∧ v.type = ty ∧ v.data? = some data := by
  unfold ofRaw at h
  split at h
  case h_1 =>
    cases h
    exact ⟨trivial, rfl, by rw [data?, Text.SingleByte.encode_decode]; rfl⟩
  case h_2 | h_3 | h_4 =>
    cases h
    exact ⟨trivial, rfl, rfl⟩
  case h_5 a b c d | h_6 a b c d =>
    cases h
    exact ⟨trivial, rfl, congrArg some (leBytes_word a b c d)⟩
  case h_7 => cases h

theorem ofRaw_refused {ty : TypeTag} {data : Bytes} {refusal : Refusal}
    (h : ofRaw ty data = .error refusal) : refusal = .unloadable ty := by
  unfold ofRaw at h
  split at h
  case h_7 => exact (Except.error.inj h).symm
  all_goals cases h

end Value

namespace Assembly
open Step

theorem loadBytes_eq_ok_iff {r : Reg} {data : Bytes} {ty : TypeTag} {d d' : Draft} :
    loadBytes r data ty d = .ok () d' ↔
      data.length ≤ loadLimit ∧ d' = d.write [.load r ty data] := by
  have hfollows :
      Follows (loadBytes r data ty) [⟨.load r ty data, Value.oversized? data.length⟩] := by
    rw [Follows, ← Emission.loadBytes_eq_follow]
    exact emits_loadBytes r data ty
  rw [hfollows.eq_ok_iff, Sound, List.forall_mem_singleton, Value.oversized?_eq_none]
  rfl

/-- A value with data is loaded like bare data under its type. -/
theorem load_of_data {v : Value} {data : Bytes} (h : v.data? = some data) (r : Reg) :
    load r v = loadBytes r data v.type := by
  cases v with
  | text s | number s =>
    rw [load, loadText, Value.encode_of_toOption h]
    rfl
  | bool | time | bytes | enum =>
    obtain rfl := Option.some.inj h
    rw [load]
    rfl
  | array items => cases h

/-- Only a text with a character without a byte is plain and has no data. -/
theorem exists_data_of_load {v : Value} (hplain : v.Plain) {r : Reg} {d d' : Draft}
    (h : load r v d = .ok () d') : ∃ data, v.data? = some data := by
  cases v with
  | text s | number s =>
    rw [load, loadText] at h
    rw [Value.data?]
    cases hs : Text.SingleByte.encode s with
    | ok data => exact ⟨data, rfl⟩
    | error c =>
      rw [hs] at h
      cases h
  | bool | time | bytes | enum => exact ⟨_, rfl⟩
  | array items => exact hplain.elim

/-- Loading a plain value writes the load of its data, if it has some and they are short enough. -/
theorem load_eq_ok_iff {v : Value} (hplain : v.Plain) {r : Reg} {d d' : Draft} :
    load r v d = .ok () d' ↔
      ∃ data, v.data? = some data ∧ data.length ≤ loadLimit ∧
        d' = d.write [.load r v.type data] := by
  constructor
  · intro h
    obtain ⟨data, hdata⟩ := exists_data_of_load hplain h
    rw [load_of_data hdata, loadBytes_eq_ok_iff] at h
    exact ⟨data, hdata, h⟩
  · rintro ⟨data, hdata, hd'⟩
    rw [load_of_data hdata]
    exact loadBytes_eq_ok_iff.2 hd'

theorem code_write_singleton (d : Draft) (i : Instr) : (d.write [i]).code = d.code ++ i.encode := by
  rw [Draft.write, List.flatMap_singleton]

theorem reads_load {data : Bytes} (h : data.length ≤ loadLimit) (r : Reg) (ty : TypeTag) :
    Wire.Decoder.Reads Decode.instr (Instr.load r ty data).encode (.load r ty data) := by
  have hlimit : data.length ≤ 65535 := h
  have hwell : (Instr.load r ty data).WellFormed :=
    ⟨rfl, Nat.lt_of_le_of_lt hlimit (by decide)⟩
  exact Decode.reads_instr hwell.written.lenient

/-- Some value that is no array is loaded by an instruction that carries these data. -/
def Produces (ty : TypeTag) (data : Bytes) : Prop :=
  ∃ r v d d' bytes, v.Plain ∧ load r v d = .ok () d' ∧ d'.code = d.code ++ bytes ∧
    Wire.Decoder.Reads Decode.instr bytes (.load r ty data)

theorem produces_of_ofRaw {ty : TypeTag} {data : Bytes} {v : Value}
    (hlimit : data.length ≤ loadLimit) (h : Value.ofRaw ty data = .ok v) : Produces ty data := by
  obtain ⟨hplain, rfl, hdata⟩ := Value.data_of_ofRaw h
  exact ⟨0, v, Draft.empty, _, _, hplain, (load_eq_ok_iff hplain).2 ⟨data, hdata, hlimit, rfl⟩,
    code_write_singleton _ _, reads_load hlimit 0 v.type⟩

/-- What was written is read as one instruction only, so its data are those of the value. -/
theorem Produces.exists_ofRaw {ty : TypeTag} {data : Bytes} (h : Produces ty data) :
    ∃ v, Value.ofRaw ty data = .ok v := by
  obtain ⟨r, v, d, d', bytes, hplain, hload, hcode, hreads⟩ := h
  obtain ⟨own, hown, hlimit, rfl⟩ := (load_eq_ok_iff hplain).1 hload
  rw [code_write_singleton] at hcode
  obtain rfl := List.append_cancel_left hcode
  have hsame := (reads_load hlimit r v.type).unique hreads
  injection hsame with _ hty hdata
  subst hty hdata
  exact ⟨v.restored, Value.ofRaw_data hown⟩

/-- The data that stand for no value are those that no loading of a plain value writes. -/
theorem ofRaw_eq_error_iff {ty : TypeTag} {data : Bytes} (hlimit : data.length ≤ loadLimit)
    {refusal : Refusal} :
    Value.ofRaw ty data = .error refusal ↔ refusal = .unloadable ty ∧ ¬ Produces ty data := by
  constructor
  · intro h
    refine ⟨Value.ofRaw_refused h, fun hproduces => ?_⟩
    obtain ⟨v, hv⟩ := hproduces.exists_ofRaw
    rw [h] at hv
    cases hv
  · rintro ⟨rfl, hnone⟩
    cases hraw : Value.ofRaw ty data with
    | ok v => exact absurd (produces_of_ofRaw hlimit hraw) hnone
    | error other => rw [Value.ofRaw_refused hraw]

/-- What a plain value is loaded as gives the value back, a number as its text. Data that stand for
a value are what the value is loaded as, also as bare data under their type. The data that stand for
none, refused for their type, are those that no plain value is loaded as. -/
theorem ofRaw_inverts_load :
    (∀ r v d d', v.Plain → load r v d = .ok () d' →
      ∃ bytes data, d'.code = d.code ++ bytes ∧
        Wire.Decoder.Reads Decode.instr bytes (.load r v.type data) ∧
        Value.ofRaw v.type data = .ok v.restored) ∧
    (∀ ty data v, data.length ≤ loadLimit → Value.ofRaw ty data = .ok v →
      ∀ r d, ∃ d', load r v d = .ok () d' ∧ loadBytes r data ty d = .ok () d' ∧
        d'.code = d.code ++ (Instr.load r ty data).encode) ∧
    ∀ ty data, data.length ≤ loadLimit → ∀ refusal, Value.ofRaw ty data = .error refusal ↔
      refusal = .unloadable ty ∧ ¬ Produces ty data := by
  refine ⟨fun r v d d' hplain hload => ?_, fun ty data v hlimit hraw r d => ?_,
    fun ty data hlimit refusal => ofRaw_eq_error_iff hlimit⟩
  · obtain ⟨data, hdata, hlimit, rfl⟩ := (load_eq_ok_iff hplain).1 hload
    exact ⟨_, data, code_write_singleton d _, reads_load hlimit r v.type, Value.ofRaw_data hdata⟩
  · obtain ⟨hplain, rfl, hdata⟩ := Value.data_of_ofRaw hraw
    exact ⟨_, (load_eq_ok_iff hplain).2 ⟨data, hdata, hlimit, rfl⟩,
      loadBytes_eq_ok_iff.2 ⟨hlimit, rfl⟩, code_write_singleton d _⟩

end Assembly
end ChainScript
