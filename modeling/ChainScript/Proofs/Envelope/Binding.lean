import ChainScript.Proofs.Envelope.RoundTrip

/-! What a signature is made over. The bytes that are signed say all that is in a transaction but
its signatures, and no such bytes go on from others. -/
namespace ChainScript
open Wire
namespace Transaction

/-- The transactions differ in their signatures at most. -/
structure SameEnvelope (t u : Transaction) : Prop where
  network : t.network = u.network
  chain : t.chain = u.chain
  script : t.script = u.script
  expiration : t.expiration = u.expiration
  payload : t.payload = u.payload

namespace SameEnvelope
variable {t u : Transaction}

theorem symm (h : t.SameEnvelope u) : u.SameEnvelope t :=
  ⟨h.network.symm, h.chain.symm, h.script.symm, h.expiration.symm, h.payload.symm⟩

theorem of_unsigned_eq (h : { t with signatures := [] } = { u with signatures := [] }) :
    t.SameEnvelope u := by
  obtain ⟨hnetwork, hchain, hscript, hexpiration, hpayload, -⟩ := Transaction.mk.inj h
  exact ⟨hnetwork, hchain, hscript, hexpiration, hpayload⟩

theorem items_eq (h : t.SameEnvelope u) : t.items = u.items := by
  rw [items, items, h.network, h.chain, h.script, h.expiration, h.payload]

theorem message_eq (h : t.SameEnvelope u) : t.message = u.message := by
  rw [Transaction.message_eq, Transaction.message_eq, h.items_eq]

theorem hash_eq (h : t.SameEnvelope u) : t.hash = u.hash := by
  rw [hash, hash, h.message_eq]

/-- What one transaction may be written as goes on from what another may be only where both have
one envelope. -/
theorem of_written {front other : Bytes} (ht : Item.WrittenAll VarInt.Form t.items front)
    (hu : Item.WrittenAll VarInt.Form u.items other) (h : front <+: other) : t.SameEnvelope u := by
  obtain ⟨tail, rfl⟩ := h
  have hsame := envelope_unique ht hu (List.append_nil (front ++ tail)).symm
  exact of_unsigned_eq hsame.1

end SameEnvelope

/-- For any two transactions there can be, the bytes that are signed are the same, or one goes on
from the other, just where the envelopes are the same; whatever the signatures, the hash is then
the same too. Signing is signing these bytes, and they are what a signature is held against. -/
theorem message_binds_envelope {t u : Transaction} (ht : t.Reachable) (hu : u.Reachable)
    (htsized : t.Sized) (husized : u.Sized) :
    ∃ m n, t.message = .ok m ∧ u.message = .ok n ∧
      (m <+: n ↔ t.SameEnvelope u) ∧ (m = n ↔ t.SameEnvelope u) ∧
      (¬ t.SameEnvelope u → ¬ m <+: n ∧ ¬ n <+: m) ∧
      (t.SameEnvelope u → t.hash = u.hash) ∧
      (∀ scheme secret, t.sign scheme secret =
        .ok { t with signatures := Signature.make scheme secret m :: t.signatures }) ∧
      ∀ scheme signer, u.isSignedBy scheme signer =
        u.signatures.any fun s => (s.verify scheme n signer).isOk := by
  obtain ⟨m, hm⟩ := exists_written_items ht.encodable htsized
  obtain ⟨n, hn⟩ := exists_written_items hu.encodable husized
  have hmessage := message_of_written hm
  have hother := message_of_written hn
  have hsame (h : t.SameEnvelope u) : m = n := by
    have heq := h.message_eq
    rw [hmessage, hother] at heq
    exact Except.ok.inj heq
  have hfront (h : m <+: n) : t.SameEnvelope u := .of_written hm.lenient hn.lenient h
  refine ⟨m, n, hmessage, hother, ⟨hfront, fun h => ?_⟩, ⟨fun h => ?_, hsame⟩, fun h => ⟨?_, ?_⟩,
    fun h => h.hash_eq, sign_of_message hmessage, fun scheme signer => ?_⟩
  · exact hsame h ▸ List.prefix_refl m
  · exact hfront (h ▸ List.prefix_refl m)
  · exact fun hmn => h (hfront hmn)
  · exact fun hnm => h (SameEnvelope.of_written hn.lenient hm.lenient hnm).symm
  · rw [isSignedBy, hother]

/-- A transaction whose network and chain put one after the other are those of `ringSigned`. -/
def shifted : Transaction := ⟨"mai", "né", ringSigned.script, ringSigned.expiration, "", []⟩

theorem message_countersigned_shifted :
    countersigned.Reachable ∧ shifted.Reachable ∧ countersigned.Sized ∧ shifted.Sized ∧
      ∃ m n, countersigned.message = .ok m ∧ shifted.message = .ok n ∧
        ¬ m <+: n ∧ ¬ n <+: m := by
  have hmade : withScript "mai" "né" ringSigned.script ringSigned.expiration "" = .ok shifted := by
    decide
  have hshifted : shifted.Reachable := .withScript hmade
  have hsized : countersigned.Sized := by constructor <;> decide
  have hshort : shifted.Sized := by constructor <;> decide
  have hdiffer : ¬ countersigned.SameEnvelope shifted := fun h => absurd h.network (by decide)
  obtain ⟨m, n, hm, hn, -, -, hneither, -⟩ :=
    message_binds_envelope reachable_countersigned hshifted hsized hshort
  exact ⟨reachable_countersigned, hshifted, hsized, hshort, m, n, hm, hn, hneither hdiffer⟩

end Transaction
end ChainScript
