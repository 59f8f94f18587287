import ChainScript.Event.Report
import ChainScript.Proofs.Hex
import ChainScript.Proofs.Wire.Interrupted
import ChainScript.Proofs.Wire.Stream
import Mathlib.Algebra.BigOperators.Fin

/-! What the data of events say. The fields stand one behind the other, so a named value is the
front of an amount, and what the two decoders give can be told from each other. -/
namespace ChainScript
open Wire Decoder

/-- Every byte counts, however many there are and whether the last of them are zeros. -/
theorem Wire.leValue_eq_sum (bytes : Bytes) :
    leValue bytes = ∑ i : Fin bytes.length, bytes[i].toNat * 256 ^ (i : Nat) := by
  induction bytes with
  | nil => rfl
  | cons b bytes ih =>
    have hhigh : 256 * leValue bytes =
        ∑ i : Fin bytes.length, bytes[i].toNat * 256 ^ ((i : Nat) + 1) := by
      rw [ih, Finset.mul_sum]
      refine Finset.sum_congr rfl fun i _ => ?_
      rw [Nat.pow_succ, Nat.mul_left_comm, Nat.mul_comm 256]
    calc
      leValue (b :: bytes) = b.toNat + 256 * leValue bytes := rfl
      _ = b.toNat * 256 ^ 0 +
          ∑ i : Fin bytes.length, bytes[i].toNat * 256 ^ ((i : Nat) + 1) := by
        rw [hhigh, Nat.pow_zero, Nat.mul_one]
      _ = _ := (Fin.sum_univ_succ fun i : Fin (bytes.length + 1) =>
        (b :: bytes)[i].toNat * 256 ^ (i : Nat)).symm

/-- A text of characters up to U+00FF has bytes. -/
theorem Wire.exists_countedText {s : String} (h : ∀ c ∈ s.toList, c.toNat ≤ 0xFF)
    (hsized : s.length < UInt64.size) :
    ∃ bytes, countedText s = .ok bytes ∧ (Item.text s).Written VarInt.Form bytes := by
  have hfits : ∀ c ∈ s.toList, Text.SingleByte.fits c := fun c hc => by
    simpa [Text.SingleByte.fits] using Nat.lt_succ_of_le (h c hc)
  have hencode := Text.SingleByte.encode_eq_ok_iff.2 ⟨hfits, rfl⟩
  have hbytes : (Item.text s).encode = .ok (counted (s.toList.map fun c => c.toNat.toUInt8)) := by
    rw [Item.encode, countedText, hencode]
    rfl
  have hpayload : (Item.text s).payload < UInt64.size := hsized
  exact ⟨_, hbytes, (Item.written_of_encode hpayload hbytes).lenient⟩

theorem ChainValue.readsItems_read (name : String) (digits : Bytes) :
    ReadsItems ChainValue.read [.text name, .bytes digits] ⟨name, leValue digits⟩ :=
  (readsItems_text name).bind (((readsItems_counted digits).map leValue).bind (.pure _))

namespace TokenAmount

/-- An amount is a named value with the chain behind it. -/
theorem read_eq : read = do
    let named ← ChainValue.read
    let chain ← Decoder.text
    return ⟨named.name, named.value, chain⟩ := by
  simp only [read, ChainValue.read, bind_assoc, pure_bind]

theorem readsItems_read (symbol : String) (digits : Bytes) (chain : String) :
    ReadsItems read [.text symbol, .bytes digits, .text chain] ⟨symbol, leValue digits, chain⟩ := by
  rw [read_eq]
  exact (ChainValue.readsItems_read symbol digits).bind ((readsItems_text chain).bind (.pure _))

end TokenAmount

namespace Event

variable {e : Event} {fault : Fault}

/-- The empty text is looked at first, but it is also what no bytes are written as. -/
theorem ofReport_of_decode {digits : String} {payload : Bytes}
    (h : Hex.decode digits = .ok payload) (kind address contract : String) :
    ofReport kind address contract digits = .ok ⟨.ofName kind, address, contract, payload⟩ := by
  rw [ofReport]
  split
  next hempty =>
    obtain rfl := String.isEmpty_iff.1 hempty
    cases h
    rfl
  next => rw [h]

theorem tokenAmount_of_written {symbol chain : String} {digits front extra : Bytes}
    (h : Item.WrittenAll VarInt.Form [.text symbol, .bytes digits, .text chain] front)
    (he : e.data = front ++ extra) : e.tokenAmount = .ok ⟨symbol, leValue digits, chain⟩ := by
  rw [tokenAmount, Decoder.run, he, Input.ofBytes, TokenAmount.readsItems_read _ _ _ front h]

theorem tokenAmount_of_chainValue_error (h : e.chainValue = .error fault) :
    e.tokenAmount = .error fault := by
  obtain ⟨last, hread⟩ := exists_of_run_error h
  rw [tokenAmount, Decoder.run, TokenAmount.read_eq, bind_of_error hread]

theorem chainValue_of_tokenAmount {a : TokenAmount} (h : e.tokenAmount = .ok a) :
    e.chainValue = .ok ⟨a.symbol, a.value⟩ := by
  obtain ⟨last, hread⟩ := exists_of_run h
  rw [TokenAmount.read_eq] at hread
  obtain ⟨named, between, hnamed, hchain⟩ := bind_eq_ok hread
  obtain ⟨chain, behind, -, ha⟩ := bind_eq_ok hchain
  cases ha
  rw [chainValue, Decoder.run, hnamed]

inductive Query where
  | tokenAmount | chainValue

inductive Answer where
  | amount (found : Except Fault TokenAmount)
  | named (found : Except Fault ChainValue)

def answer (e : Event) : Query → Answer
  | .tokenAmount => .amount e.tokenAmount
  | .chainValue => .named e.chainValue

def ask (q : Query) : StateM Event Answer := do return (← get).answer q

theorem run_mapM_ask (queries : List Query) (e : Event) :
    (queries.mapM ask).run e = (queries.map e.answer, e) := by
  induction queries with
  | nil => rfl
  | cons q queries ih =>
    calc
      ((q :: queries).mapM ask).run e =
          (e.answer q :: ((queries.mapM ask).run e).1, ((queries.mapM ask).run e).2) := by
        rw [List.mapM_cons]
        rfl
      _ = _ := by rw [ih, List.map_cons]

/-- The data of an amount, in front of whatever else is reported and in any letters, are read as the
amount and as the value it is of. In all data, what one of the two decoders gives settles the other,
up to the chain. Events stay as they are, so they may be asked in any order. -/
theorem payload_exact :
    (∀ (symbol chain : String) (digits : Bytes), (∀ c ∈ symbol.toList, c.toNat ≤ 0xFF) →
      (∀ c ∈ chain.toList, c.toNat ≤ 0xFF) → symbol.length < UInt64.size →
      chain.length < UInt64.size → digits.length < UInt64.size →
      ∃ front back, countedText symbol = .ok front ∧ countedText chain = .ok back ∧
        ∀ extra (report : String),
          report.toUpper = (Hex.upper (front ++ counted digits ++ back ++ extra)).toUpper →
          ∀ kind address contract, ∃ e, ofReport kind address contract report = .ok e ∧
            e.data = front ++ counted digits ++ back ++ extra ∧
            e.tokenAmount = .ok
              ⟨symbol, ∑ i : Fin digits.length, digits[i].toNat * 256 ^ (i : Nat), chain⟩ ∧
            e.chainValue = .ok
              ⟨symbol, ∑ i : Fin digits.length, digits[i].toNat * 256 ^ (i : Nat)⟩) ∧
    (∀ (e : Event) fault, e.chainValue = .error fault → e.tokenAmount = .error fault) ∧
    (∀ (e : Event) a, e.tokenAmount = .ok a → e.chainValue = .ok ⟨a.symbol, a.value⟩) ∧
    ∀ (queries : List Query) (e : Event), (queries.mapM ask).run e = (queries.map e.answer, e) := by
  refine ⟨?_, fun _ _ => tokenAmount_of_chainValue_error, fun _ _ => chainValue_of_tokenAmount,
    run_mapM_ask⟩
  intro symbol chain digits hsymbol hchain hsymbolSize hchainSize hdigitsSize
  obtain ⟨front, hfront, hsymbolItem⟩ := exists_countedText hsymbol hsymbolSize
  obtain ⟨back, hback, hchainItem⟩ := exists_countedText hchain hchainSize
  have hdigitsItem : (Item.bytes digits).Written VarInt.Form (counted digits) :=
    ⟨_, (VarInt.shortest_encode hdigitsSize).1, rfl⟩
  have hwritten : Item.WrittenAll VarInt.Form [.text symbol, .bytes digits, .text chain]
      (front ++ counted digits ++ back) := by
    have hall := Item.WrittenAll.cons hsymbolItem (.cons hdigitsItem (.cons hchainItem .nil))
    rwa [List.append_nil, ← List.append_assoc] at hall
  refine ⟨front, back, hfront, hback, fun extra report hreport kind address contract => ?_⟩
  have hamount := tokenAmount_of_written (e := ⟨.ofName kind, address, contract,
    front ++ counted digits ++ back ++ extra⟩) hwritten rfl
  rw [leValue_eq_sum] at hamount
  exact ⟨_, ofReport_of_decode (Hex.decode_of_toUpper hreport) _ _ _, rfl, hamount,
    chainValue_of_tokenAmount hamount⟩

/-- Ten thousand with two zero bytes too many, reported in letters of both cases and with two more
bytes behind the chain. -/
theorem payload_of_padded_amount :
    ∃ e, ofReport "TokenSend" "P2K" "token" "044b43414c0410270000046D61696Effff" = .ok e ∧
      e.tokenAmount = .ok ⟨"KCAL", 10000, "main"⟩ ∧ e.chainValue = .ok ⟨"KCAL", 10000⟩ := by
  obtain ⟨front, back, hfront, hback, hread⟩ :=
    payload_exact.1 "KCAL" "main" [0x10, 0x27, 0, 0] (by simp) (by simp) (by decide) (by decide)
      (by decide)
  have hsymbol : countedText "KCAL" = .ok [4, 0x4B, 0x43, 0x41, 0x4C] := rfl
  have hchain : countedText "main" = .ok [4, 0x6D, 0x61, 0x69, 0x6E] := rfl
  obtain rfl := Except.ok.inj (hfront.symm.trans hsymbol)
  obtain rfl := Except.ok.inj (hback.symm.trans hchain)
  have hreport : "044b43414c0410270000046D61696Effff".toUpper =
      (Hex.upper ([4, 0x4B, 0x43, 0x41, 0x4C] ++ counted [0x10, 0x27, 0, 0] ++
        [4, 0x6D, 0x61, 0x69, 0x6E] ++ [0xFF, 0xFF])).toUpper := by
    rw [Hex.toUpper_upper, ← String.toList_inj]
    decide +kernel
  obtain ⟨e, he, -, hamount, hvalue⟩ := hread [0xFF, 0xFF] _ hreport "TokenSend" "P2K" "token"
  rw [← leValue_eq_sum] at hamount hvalue
  exact ⟨e, he, hamount, hvalue⟩

end Event
end ChainScript
