import ChainScript.Proofs.Envelope.Layout
import ChainScript.Proofs.Hex

/-! Transactions through the wire and back, as bytes and as hexadecimal text, with the signatures
and without them. -/
namespace ChainScript
open Wire Decoder

namespace Transaction

def Encodable (t : Transaction) : Prop :=
  ∀ s ∈ [t.network, t.chain, t.payload], ∃ bytes, Text.SingleByte.encode s = .ok bytes

/-- Each length, and the number of signatures, is one that 64 bits hold. -/
structure Sized (t : Transaction) : Prop where
  network : t.network.length < UInt64.size
  chain : t.chain.length < UInt64.size
  script : t.script.length < UInt64.size
  payload : t.payload.length < UInt64.size
  count : t.signatures.length < UInt64.size
  data : ∀ s ∈ t.signatures, s.data.length < UInt64.size

theorem encode_of_checkText {s : String} (h : checkText s = .ok ()) :
    ∃ bytes, Text.SingleByte.encode s = .ok bytes := by
  rw [checkText] at h
  split at h
  next bytes hs => exact ⟨bytes, hs⟩
  next => cases h

theorem writable_text {s : String} (htext : ∃ bytes, Text.SingleByte.encode s = .ok bytes)
    (hlength : s.length < UInt64.size) : (Item.text s).Writable := by
  obtain ⟨bytes, hbytes⟩ := htext
  exact ⟨bytes, hbytes, by rwa [Text.SingleByte.length_of_encode hbytes]⟩

theorem exists_written_items {t : Transaction} (htexts : t.Encodable) (hsized : t.Sized) :
    ∃ bytes, Item.WrittenAll VarInt.Shortest t.items bytes := by
  refine Item.exists_writtenAll fun item hitem => ?_
  simp only [items, List.mem_cons, List.not_mem_nil, or_false] at hitem
  obtain rfl | rfl | rfl | rfl | rfl := hitem
  · exact writable_text (htexts t.network (by simp)) hsized.network
  · exact writable_text (htexts t.chain (by simp)) hsized.chain
  · exact hsized.script
  · trivial
  · exact writable_text (htexts t.payload (by simp)) hsized.payload

theorem written_section {signatures : List Signature}
    (hdata : ∀ s ∈ signatures, s.data.length < UInt64.size) :
    Item.WrittenAll VarInt.Shortest (sectionItems signatures) (encodeSignatures signatures) := by
  have hwritable : ∀ item ∈ sectionItems signatures, item.Writable := by
    intro item hitem
    simp only [sectionItems, List.mem_cons, List.mem_flatMap, Signature.items, List.not_mem_nil,
      or_false] at hitem
    obtain rfl | ⟨s, hs, rfl | rfl⟩ := hitem
    · trivial
    · trivial
    · exact hdata s hs
  obtain ⟨bytes, hbytes⟩ := Item.exists_writtenAll hwritable
  have hencode := hbytes.encodeAll_eq
  rw [encodeAll_sectionItems] at hencode
  rwa [Except.ok.inj hencode]

theorem ends_readSection {signatures : List Signature}
    (hcount : signatures.length < UInt64.size)
    (hdata : ∀ s ∈ signatures, s.data.length < UInt64.size) :
    readSection.Ends (encodeSignatures signatures) signatures :=
  ends_section hcount (written_section hdata).lenient

/-- The bytes that are signed exist, and data that goes on behind them with the section for some
signatures is read as the transaction with those. -/
theorem ofBytes_message_append {t : Transaction} (htexts : t.Encodable) (hsized : t.Sized) :
    ∃ bytes, t.message = .ok bytes ∧ ∀ tail signatures, readSection.Ends tail signatures →
      ofBytes (bytes ++ tail) = .ok { t with signatures := signatures } := by
  obtain ⟨bytes, hbytes⟩ := exists_written_items htexts hsized
  exact ⟨bytes, message_of_written hbytes, fun _ _ => ofBytes_append hbytes.lenient⟩

/-- The transactions there can be: those that are made or read, and those that come of signing
one that is there with whatever key. -/
inductive Reachable : Transaction → Prop where
  | ofHexScript {network chain script expiration payload t} :
      Transaction.ofHexScript network chain script expiration payload = .ok t → Reachable t
  | withScript {network chain script expiration payload t} :
      Transaction.withScript network chain script expiration payload = .ok t → Reachable t
  | ofBytes {data t} : Transaction.ofBytes data = .ok t → Reachable t
  | ofHex {digits t} : Transaction.ofHex digits = .ok t → Reachable t
  | sign {scheme secret t t'} : Reachable t → t.sign scheme secret = .ok t' → Reachable t'

/-- What follows a check is reached only if the check passes. -/
theorem ok_of_check {check : Except Refusal Unit} {next : Except Refusal α} {a : α}
    (h : (do check; next) = .ok a) : check = .ok () ∧ next = .ok a := by
  cases check with
  | error refusal => cases h
  | ok => exact ⟨rfl, h⟩

theorem encodable_of_withScript {network chain payload : String} {script : Bytes}
    {expiration : Timestamp} {t : Transaction}
    (h : withScript network chain script expiration payload = .ok t) : t.Encodable := by
  obtain ⟨hnetwork, h⟩ := ok_of_check h
  obtain ⟨hchain, h⟩ := ok_of_check h
  obtain ⟨hpayload, h⟩ := ok_of_check h
  cases h
  simpa [Encodable] using ⟨encode_of_checkText hnetwork, encode_of_checkText hchain,
    encode_of_checkText hpayload⟩

theorem encodable_of_ofBytes {data : Bytes} {t : Transaction} (h : ofBytes data = .ok t) :
    t.Encodable := by
  obtain ⟨last, h⟩ := exists_of_run h
  obtain ⟨network, _, hnetwork, h⟩ := bind_eq_ok h
  obtain ⟨chain, _, hchain, h⟩ := bind_eq_ok h
  obtain ⟨script, _, -, h⟩ := bind_eq_ok h
  obtain ⟨expiration, _, -, h⟩ := bind_eq_ok h
  obtain ⟨payload, _, hpayload, h⟩ := bind_eq_ok h
  obtain ⟨signatures, _, -, h⟩ := bind_eq_ok h
  obtain ⟨_, _, -, h⟩ := bind_eq_ok h
  cases h
  simpa [Encodable] using
    ⟨encode_of_text hnetwork, encode_of_text hchain, encode_of_text hpayload⟩

theorem sign_of_message {t : Transaction} {bytes : Bytes} (h : t.message = .ok bytes)
    (scheme : Scheme) (secret : Block 32) : t.sign scheme secret =
      .ok { t with signatures := Signature.make scheme secret bytes :: t.signatures } := by
  rw [sign, h]
  rfl

theorem encodable_of_sign {scheme : Scheme} {secret : Block 32} {t t' : Transaction}
    (htexts : t.Encodable) (h : t.sign scheme secret = .ok t') : t'.Encodable := by
  cases hmessage : t.message with
  | error refusal => rw [sign, hmessage] at h; cases h
  | ok bytes =>
    rw [sign_of_message hmessage] at h
    cases h
    exact htexts

theorem Reachable.encodable {t : Transaction} (h : t.Reachable) : t.Encodable := by
  induction h with
  | ofHexScript h =>
    rw [Transaction.ofHexScript] at h
    split at h
    next => cases h
    next =>
      split at h
      next => exact encodable_of_withScript h
      next => cases h
  | withScript h => exact encodable_of_withScript h
  | ofBytes h => exact encodable_of_ofBytes h
  | ofHex h =>
    rw [Transaction.ofHex] at h
    split at h
    next => exact encodable_of_ofBytes h
    next => cases h
  | sign _ h ih => exact encodable_of_sign ih h

theorem ofHex_of_toUpper {digits : String} {bytes : Bytes}
    (h : digits.toUpper = (Hex.upper bytes).toUpper) : ofHex digits = ofBytes bytes := by
  rw [ofHex, Hex.decode_of_toUpper h]

/-- Any transaction there can be is written with and without its signatures, and either is read
back, from the bytes or from their digits in any mixture of cases. Signing and hashing never
fail, and every signature is looked at. -/
theorem wire_round_trip {t : Transaction} (h : t.Reachable) (hsized : t.Sized) :
    ∃ unsigned signed, t.message = .ok unsigned ∧ t.encode = .ok signed ∧
      ofBytes signed = .ok t ∧ ofBytes unsigned = .ok { t with signatures := [] } ∧
      (∀ digits : String, digits.toUpper = (Hex.upper signed).toUpper → ofHex digits = .ok t) ∧
      (∀ digits : String, digits.toUpper = (Hex.upper unsigned).toUpper →
        ofHex digits = .ok { t with signatures := [] }) ∧
      (∀ scheme secret, t.sign scheme secret =
        .ok { t with signatures := Signature.make scheme secret unsigned :: t.signatures }) ∧
      t.hash = .ok (Hash.sha256 unsigned) ∧
      ∀ scheme signer, t.isSignedBy scheme signer =
        t.signatures.any fun s => (s.verify scheme unsigned signer).isOk := by
  obtain ⟨unsigned, hmessage, hread⟩ := ofBytes_message_append h.encodable hsized
  have hencode : t.encode = .ok (unsigned ++ encodeSignatures t.signatures) := by
    rw [encode, hmessage]
    rfl
  have hsigned := hread _ _ (ends_readSection hsized.count hsized.data)
  have hunsigned := hread _ _ ends_readSection_nil
  rw [List.append_nil] at hunsigned
  refine ⟨unsigned, _, hmessage, hencode, hsigned, hunsigned, ?_, ?_, ?_, ?_, ?_⟩
  · intro digits hdigits
    rw [ofHex_of_toUpper hdigits, hsigned]
  · intro digits hdigits
    rw [ofHex_of_toUpper hdigits, hunsigned]
  · exact sign_of_message hmessage
  · rw [hash, hmessage]
    rfl
  · intro scheme signer
    rw [isSignedBy, hmessage]

def ringSigned : Transaction :=
  ⟨"main", "é", [0x0D, 0x00, 0x04, 0x01, 0xFF, 0x0B], ⟨0x5F5E1000⟩, "", [⟨.ring, [0xAA, 0xBB]⟩]⟩

def doubling : Scheme := ⟨id, fun secret _ => secret.append secret, fun _ _ _ => .ok ()⟩

def countersigned : Transaction :=
  { ringSigned with signatures := ⟨.ed25519, List.replicate 64 7⟩ :: ringSigned.signatures }

theorem reachable_countersigned : countersigned.Reachable := by
  have hread : ofBytes [4, 109, 97, 105, 110, 1, 0xE9, 6, 0x0D, 0x00, 0x04, 0x01, 0xFF, 0x0B,
      0x00, 0x10, 0x5E, 0x5F, 0, 1, 3, 2, 0xAA, 0xBB] = .ok ringSigned := by decide
  have hsign : ringSigned.sign doubling ⟨List.replicate 32 7, rfl⟩ = .ok countersigned := by decide
  exact .sign (.ofBytes hread) hsign

theorem countersigned_round_trip : countersigned.Reachable ∧ countersigned.Sized ∧
    ∃ unsigned signed, countersigned.message = .ok unsigned ∧ countersigned.encode = .ok signed ∧
      ofBytes signed = .ok countersigned ∧
      ofBytes unsigned = .ok { countersigned with signatures := [] } ∧
      ∀ digits : String, digits.toUpper = (Hex.upper signed).toUpper →
        ofHex digits = .ok countersigned := by
  have hsized : countersigned.Sized := by constructor <;> decide
  obtain ⟨unsigned, signed, hmessage, hencode, hsigned, hunsigned, hdigits, -⟩ :=
    wire_round_trip reachable_countersigned hsized
  exact ⟨reachable_countersigned, hsized, unsigned, signed, hmessage, hencode, hsigned, hunsigned,
    hdigits⟩

end Transaction
end ChainScript
