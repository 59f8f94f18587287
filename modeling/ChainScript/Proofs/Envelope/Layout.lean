import ChainScript.Envelope.Transaction
import ChainScript.Proofs.Wire.ReadBack

/-! What a transaction is written as: five items, and behind them, where there are signatures or
room for some, their number and two items for each. -/
namespace ChainScript
open Wire Decoder

namespace Signature

def items (s : Signature) : List Item := [.u8 s.kind.byte, .bytes s.data]

theorem encodeAll_items (s : Signature) : Item.encodeAll s.items = .ok s.encode :=
  congrArg (fun bytes => Except.ok (s.kind.byte :: bytes)) (List.append_nil (counted s.data))

theorem readsItems_kind (k : SignatureKind) : ReadsItems SignatureKind.read [.u8 k.byte] k := by
  refine (readsItems_byte k.byte).bind ?_
  rw [SignatureKind.ofByte?_byte]
  exact .pure k

theorem readsItems_read (s : Signature) : ReadsItems Signature.read s.items s :=
  (readsItems_kind s.kind).bind ((readsItems_counted s.data).bind (.pure s))

end Signature

namespace Transaction

def items (t : Transaction) : List Item :=
  [.text t.network, .text t.chain, .bytes t.script, .u32 t.expiration.secs, .text t.payload]

def sectionItems (signatures : List Signature) : List Item :=
  .varInt signatures.length.toUInt64 :: signatures.flatMap Signature.items

theorem message_eq (t : Transaction) :
    t.message = (Item.encodeAll t.items).mapError .unencodable := by
  simp only [message, encodeText, items, Item.encodeAll, Item.encode]
  cases countedText t.network with
  | error c => rfl
  | ok network =>
    cases countedText t.chain with
    | error c => rfl
    | ok chain =>
      cases countedText t.payload with
      | error c => rfl
      | ok payload =>
        have hbytes : network ++ chain ++ counted t.script ++ t.expiration.encode ++ payload =
            network ++ (chain ++ (counted t.script ++
              (t.expiration.encode ++ (payload ++ [])))) := by
          simp only [List.append_assoc, List.append_nil]
        exact congrArg Except.ok hbytes

theorem message_of_written {t : Transaction} {bytes : Bytes}
    (h : Item.WrittenAll VarInt.Shortest t.items bytes) : t.message = .ok bytes := by
  rw [message_eq, h.encodeAll_eq]
  rfl

theorem encodeAll_sectionItems (signatures : List Signature) :
    Item.encodeAll (sectionItems signatures) = .ok (encodeSignatures signatures) := by
  have hall : Item.encodeAll (signatures.flatMap Signature.items) =
      .ok (signatures.flatMap Signature.encode) := by
    induction signatures with
    | nil => rfl
    | cons s rest ih => exact Item.encodeAll_append s.encodeAll_items ih
  exact Item.encodeAll_cons rfl hall

theorem encode_of_written {t : Transaction} {bytes : Bytes}
    (h : Item.WrittenAll VarInt.Shortest (t.items ++ sectionItems t.signatures) bytes) :
    t.encode = .ok bytes := by
  obtain ⟨front, back, rfl, hfront, hback⟩ := h.of_append
  have hsection := hback.encodeAll_eq
  rw [encodeAll_sectionItems] at hsection
  rw [encode, message_of_written hfront, Except.ok.inj hsection]
  rfl

def envelope : Decoder Transaction := do
  let network ← Decoder.text
  let chain ← Decoder.text
  let script ← Decoder.counted
  let expiration ← Decoder.u32
  let payload ← Decoder.text
  return ⟨network, chain, script, ⟨expiration⟩, payload, []⟩

def announced : Decoder (List Signature) := do readSignatures (← VarInt.read).toNat []

theorem read_eq : read = (do
    let t ← envelope
    let signatures ← readSection
    Decoder.ended
    return { t with signatures := signatures }) := by
  simp only [read, envelope, bind_assoc, pure_bind]

theorem readSection_of_ne_nil {pos : Nat} {rest : Bytes} (h : rest ≠ []) :
    readSection ⟨pos, rest⟩ = announced ⟨pos, rest⟩ := by
  rw [readSection, if_neg (by simpa [Input.isEmpty] using h)]
  rfl

theorem readsItems_envelope (t : Transaction) :
    ReadsItems envelope t.items { t with signatures := [] } :=
  (readsItems_text t.network).bind ((readsItems_text t.chain).bind
    ((readsItems_counted t.script).bind ((readsItems_u32 t.expiration.secs).bind
      ((readsItems_text t.payload).bind (.pure _)))))

/-- Where one layout ends is settled by the data in front of it. -/
theorem envelope_unique {t u : Transaction} {front other tail rest : Bytes}
    (ht : Item.WrittenAll VarInt.Form t.items front)
    (hu : Item.WrittenAll VarInt.Form u.items other) (h : front ++ tail = other ++ rest) :
    { t with signatures := [] } = { u with signatures := [] } ∧ tail = rest := by
  have hread := readsItems_envelope t front ht 0 tail
  rw [h, readsItems_envelope u other hu] at hread
  obtain ⟨hsame, hplace⟩ := EStateM.Result.ok.inj hread
  exact ⟨hsame.symm, (Input.mk.inj hplace).2.symm⟩

/-- Signatures come back behind those read before them, in the order in which they were written. -/
theorem readsItems_signatures (signatures found : List Signature) :
    ReadsItems (readSignatures signatures.length found) (signatures.flatMap Signature.items)
      (found.reverse ++ signatures) := by
  induction signatures generalizing found with
  | nil =>
    rw [List.append_nil]
    exact .pure found.reverse
  | cons s rest ih =>
    have hrest := ih (s :: found)
    rw [List.reverse_cons, List.append_assoc, List.singleton_append] at hrest
    exact s.readsItems_read.bind hrest

theorem readsItems_announced {signatures : List Signature}
    (hcount : signatures.length < UInt64.size) :
    ReadsItems announced (sectionItems signatures) signatures := by
  refine (readsItems_varInt signatures.length.toUInt64).bind ?_
  have hlength : signatures.length.toUInt64.toNat = signatures.length :=
    UInt64.toNat_ofNat_of_lt hcount
  rw [hlength]
  exact readsItems_signatures signatures []

theorem ends_readSection_nil : readSection.Ends [] [] := fun _ => rfl

/-- The section is there even for no signatures, for the count takes a byte. -/
theorem written_sectionItems_ne_nil {signatures : List Signature} {bytes : Bytes}
    (h : Item.WrittenAll VarInt.Form (sectionItems signatures) bytes) : bytes ≠ [] := by
  obtain ⟨count, back, rfl, hcount, -⟩ := h.of_cons
  exact List.append_ne_nil_of_left_ne_nil (VarInt.Form.ne_nil hcount) back

theorem ends_section {signatures : List Signature} {bytes : Bytes}
    (hcount : signatures.length < UInt64.size)
    (h : Item.WrittenAll VarInt.Form (sectionItems signatures) bytes) :
    readSection.Ends bytes signatures := by
  intro pos
  rw [readSection_of_ne_nil (written_sectionItems_ne_nil h)]
  exact (readsItems_announced hcount bytes h).ends pos

/-- Data that goes on behind what is signed with the section for some signatures is read as the
transaction with those. -/
theorem ofBytes_append {t : Transaction} {front tail : Bytes} {signatures : List Signature}
    (h : Item.WrittenAll VarInt.Form t.items front) (hsection : readSection.Ends tail signatures) :
    ofBytes (front ++ tail) = .ok { t with signatures := signatures } := by
  refine Ends.run ?_
  rw [read_eq]
  refine (readsItems_envelope t front h).bind_ends ?_
  exact hsection.ended fun found => { t with signatures := found }

end Transaction
end ChainScript
