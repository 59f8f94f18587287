import ChainScript.Proofs.Envelope.Binding

/-! Transactions with many signatures. Every signature is made over the envelope alone, so signing
again leaves the earlier signatures good, and a signer is found wherever the signature stands. -/
namespace ChainScript
open Wire

/-- All that is asked of a scheme: what is signed with a secret is signed by the owner of it. -/
def Scheme.Honest (scheme : Scheme) : Prop :=
  ∀ secret message,
    scheme.verify (scheme.publicKey secret) message (scheme.sign secret message) = .ok ()

namespace Signature

def Signs (scheme : Scheme) (message : Bytes) (signer : Block 32) (s : Signature) : Prop :=
  s.kind = .ed25519 ∧
    ∃ data : Block 64, s.data = data.val ∧ scheme.verify signer message data = .ok ()

theorem verify_isOk_iff {scheme : Scheme} {message : Bytes} {signer : Block 32} {s : Signature} :
    (s.verify scheme message signer).isOk = true ↔ s.Signs scheme message signer := by
  rw [verify, Signs]
  by_cases hkind : s.kind = .ed25519
  · by_cases hlength : s.data.length = 64
    · have hblock : Block.ofBytes? 64 s.data = some ⟨s.data, hlength⟩ := dif_pos hlength
      have hdata : (∃ data : Block 64, s.data = data.val ∧
          scheme.verify signer message data = .ok ()) ↔
            scheme.verify signer message ⟨s.data, hlength⟩ = .ok () := by
        constructor
        · rintro ⟨data, hdata, hok⟩
          rwa [show data = ⟨s.data, hlength⟩ from Subtype.ext hdata.symm] at hok
        · exact fun hok => ⟨_, rfl, hok⟩
      simp only [hkind, hblock, hdata, if_true, true_and]
      cases scheme.verify signer message ⟨s.data, hlength⟩ <;> simp [Except.mapError, Except.isOk,
        Except.toBool]
    · have hblock : Block.ofBytes? 64 s.data = none := dif_neg hlength
      have hdata (data : Block 64) : s.data ≠ data.val := by
        intro heq
        rw [heq] at hlength
        exact hlength data.property
      simp [hkind, hblock, hdata, Except.isOk, Except.toBool]
  · simp [hkind, Except.isOk, Except.toBool]

theorem signs_make {scheme : Scheme} (h : scheme.Honest) (secret : Block 32) (message : Bytes) :
    (make scheme secret message).Signs scheme message (scheme.publicKey secret) :=
  ⟨rfl, _, rfl, h secret message⟩

end Signature

namespace Transaction

def signAll (scheme : Scheme) (secrets : List (Block 32)) (t : Transaction) :
    Except Refusal Transaction :=
  secrets.foldlM (fun t secret => t.sign scheme secret) t

variable {scheme : Scheme} {t u : Transaction} {m : Bytes}

theorem signAll_append (done rest : List (Block 32)) :
    t.signAll scheme (done ++ rest) = (do (← t.signAll scheme done).signAll scheme rest) :=
  List.foldlM_append

/-- The later a signature is made, the further in front it stands. -/
theorem signAll_of_message (h : t.message = .ok m) (secrets : List (Block 32)) :
    t.signAll scheme secrets = .ok { t with
      signatures := (secrets.map fun k => Signature.make scheme k m).reverse ++ t.signatures } := by
  induction secrets generalizing t with
  | nil => rfl
  | cons secret secrets ih =>
    have hsigned : ({ t with signatures := Signature.make scheme secret m :: t.signatures } :
        Transaction).message = .ok m := h
    rw [signAll, List.foldlM_cons, sign_of_message h]
    refine (ih hsigned).trans ?_
    simp

theorem isSignedBy_iff (h : t.message = .ok m) {signer : Block 32} :
    t.isSignedBy scheme signer = true ↔ ∃ s ∈ t.signatures, s.Signs scheme m signer := by
  rw [isSignedBy, h]
  simp only [List.any_eq_true, Signature.verify_isOk_iff]

theorem encodeText_of_encode {s : String} {bytes : Bytes}
    (h : Text.SingleByte.encode s = .ok bytes) : encodeText s = .ok (counted bytes) := by
  rw [encodeText, countedText, h]
  rfl

theorem exists_message (h : t.Encodable) : ∃ m, t.message = .ok m := by
  obtain ⟨network, hnetwork⟩ := h t.network (by simp)
  obtain ⟨chain, hchain⟩ := h t.chain (by simp)
  obtain ⟨payload, hpayload⟩ := h t.payload (by simp)
  rw [message, encodeText_of_encode hnetwork, encodeText_of_encode hchain,
    encodeText_of_encode hpayload]
  exact ⟨_, rfl⟩

theorem ofBytes_encode (htexts : t.Encodable) (hsized : t.Sized) :
    ∃ bytes, t.encode = .ok bytes ∧ ofBytes bytes = .ok t := by
  obtain ⟨unsigned, hmessage, hread⟩ := ofBytes_message_append htexts hsized
  refine ⟨unsigned ++ encodeSignatures t.signatures, ?_,
    hread _ _ (ends_readSection hsized.count hsized.data)⟩
  rw [encode, hmessage]
  rfl

/-- What holds of a transaction that comes of signing another one with some secrets. -/
structure Countersigned (scheme : Scheme) (t : Transaction) (m : Bytes)
    (secrets : List (Block 32)) (u : Transaction) : Prop where
  signed : t.signAll scheme secrets = .ok u
  signatures : u.signatures =
    (secrets.map fun k => Signature.make scheme k m).reverse ++ t.signatures
  envelope : t.SameEnvelope u
  message : u.message = .ok m
  hash : u.hash = t.hash
  signers : ∀ secret ∈ secrets, u.isSignedBy scheme (scheme.publicKey secret) = true
  kept : ∀ signer, t.isSignedBy scheme signer = true → u.isSignedBy scheme signer = true

theorem exists_countersigned (hscheme : scheme.Honest) (h : t.message = .ok m)
    (secrets : List (Block 32)) : ∃ u, Countersigned scheme t m secrets u := by
  have hmessage : ({ t with signatures :=
      (secrets.map fun k => Signature.make scheme k m).reverse ++ t.signatures } :
        Transaction).message = .ok m := h
  refine ⟨_, signAll_of_message h secrets, rfl, ⟨rfl, rfl, rfl, rfl, rfl⟩, hmessage, ?_, ?_, ?_⟩
  · rw [hash, hash, hmessage, h]
  · intro secret hsecret
    rw [isSignedBy_iff hmessage]
    refine ⟨Signature.make scheme secret m, ?_, Signature.signs_make hscheme secret m⟩
    simp only [List.mem_append, List.mem_reverse, List.mem_map]
    exact .inl ⟨secret, hsecret, rfl⟩
  · intro signer hsigned
    rw [isSignedBy_iff h] at hsigned
    rw [isSignedBy_iff hmessage]
    obtain ⟨s, hs, hgood⟩ := hsigned
    exact ⟨s, List.mem_append_right _ hs, hgood⟩

namespace Countersigned
variable {secrets : List (Block 32)} (h : Countersigned scheme t m secrets u)
include h

theorem sized (hsized : t.Sized)
    (hcount : t.signatures.length + secrets.length < UInt64.size) : u.Sized where
  network := h.envelope.network ▸ hsized.network
  chain := h.envelope.chain ▸ hsized.chain
  script := h.envelope.script ▸ hsized.script
  payload := h.envelope.payload ▸ hsized.payload
  count := by
    rw [h.signatures]
    simp only [List.length_append, List.length_reverse, List.length_map]
    omega
  data s hs := by
    rw [h.signatures] at hs
    simp only [List.mem_append, List.mem_reverse, List.mem_map] at hs
    obtain ⟨secret, -, rfl⟩ | hs := hs
    · rw [Signature.make, (scheme.sign secret m).property]
      decide
    · exact hsized.data s hs

theorem encodable (htexts : t.Encodable) : u.Encodable := by
  rw [Encodable, ← h.envelope.network, ← h.envelope.chain, ← h.envelope.payload]
  exact htexts

/-- Where signing has come to after some of the secrets. -/
theorem exists_between (hscheme : scheme.Honest) (hmessage : t.message = .ok m)
    {done rest : List (Block 32)} (hsplit : secrets = done ++ rest) :
    ∃ between, Countersigned scheme t m done between ∧ between.signAll scheme rest = .ok u := by
  obtain ⟨between, hbetween⟩ := exists_countersigned hscheme hmessage done
  refine ⟨between, hbetween, ?_⟩
  have hsigned := h.signed
  rw [hsplit, signAll_append, hbetween.signed] at hsigned
  exact hsigned

end Countersigned

/-- Signing with any number of secrets puts one signature for each in front of those there are, the
last one first, and changes nothing else at any time. All the owners of the secrets, and all signers
there were, are signers then, also once the transaction is written and read. Whether somebody is a
signer hangs only on whether some signature, wherever it stands, is theirs: the order of the
signatures does not count, nor does any signature that is not theirs. -/
theorem signed_by_all (hscheme : scheme.Honest) (ht : t.Reachable) :
    ∃ m, t.message = .ok m ∧
      (∀ secrets, ∃ u, Countersigned scheme t m secrets u ∧
        (∀ done rest, secrets = done ++ rest →
          ∃ between, Countersigned scheme t m done between ∧
            between.signAll scheme rest = .ok u) ∧
        (t.Sized → t.signatures.length + secrets.length < UInt64.size →
          ∃ bytes, u.encode = .ok bytes ∧ ofBytes bytes = .ok u)) ∧
      ∀ signatures signer,
        (isSignedBy scheme signer { t with signatures := signatures } = true ↔
          ∃ s ∈ signatures, s.kind = .ed25519 ∧
            ∃ data : Block 64, s.data = data.val ∧ scheme.verify signer m data = .ok ()) ∧
        (∀ others, signatures.Perm others →
          isSignedBy scheme signer { t with signatures := signatures } =
            isSignedBy scheme signer { t with signatures := others }) ∧
        ∀ front s back, signatures = front ++ s :: back → ¬ s.Signs scheme m signer →
          isSignedBy scheme signer { t with signatures := signatures } =
            isSignedBy scheme signer { t with signatures := front ++ back } := by
  obtain ⟨m, hmessage⟩ := exists_message ht.encodable
  refine ⟨m, hmessage, fun secrets => ?_, fun signatures signer => ?_⟩
  · obtain ⟨u, hu⟩ := exists_countersigned hscheme hmessage secrets
    refine ⟨u, hu, fun done rest => hu.exists_between hscheme hmessage, fun hsized hcount => ?_⟩
    exact ofBytes_encode (hu.encodable ht.encodable) (hu.sized hsized hcount)
  · have hiff (carried : List Signature) :
        isSignedBy scheme signer { t with signatures := carried } = true ↔
          ∃ s ∈ carried, s.Signs scheme m signer := by
      have hsame : ({ t with signatures := carried } : Transaction).message = .ok m := hmessage
      exact isSignedBy_iff hsame
    refine ⟨hiff signatures, fun others hperm => ?_, fun front s back hsplit hbad => ?_⟩
    · rw [Bool.eq_iff_iff, hiff, hiff]
      simp only [hperm.mem_iff]
    · rw [Bool.eq_iff_iff, hiff, hiff, hsplit]
      simp [or_and_right, exists_or, hbad]

section
open Curve.Ed25519 (encodeScalar)

def zeros : Block 32 := encodeScalar 0
def ones : Block 32 := ⟨List.replicate 32 1, List.length_replicate⟩

def zerosKey : Block 32 :=
  encodeScalar 0x29da598ba148c03aa643e21d77153265730d6f2ad0a8a3622da4b6cebc276a3b
def onesKey : Block 32 :=
  encodeScalar 0x5c6f0fb4018874f31b12941dbf0967ca725dba3c2ddb52fd95f10974dde3888a
def zerosSignature : Block 64 :=
  (encodeScalar 0xde68a42173b1e69942a4586c823297126719e0e2c5841693989703bf26ac3d56).append
    (encodeScalar 0x0839fa50649e2dd4054a5573ed28e76259234628dba667bef16ca01af1485b27)
def onesSignature : Block 64 :=
  (encodeScalar 0xf3a226d24d8b692955053c9e5e58cc92ece4fef449794cddb0fdde73735d7166).append
    (encodeScalar 0x0b52d69a51275dfe5c1dea769625d4a2b2af9e3139ad08f5b1f6243989d29846)

def countersignedMessage : Bytes :=
  [4, 109, 97, 105, 110, 1, 0xE9, 6, 0x0D, 0x00, 0x04, 0x01, 0xFF, 0x0B, 0x00, 0x10, 0x5E, 0x5F, 0]

def recordedKey (secret : Block 32) : Block 32 :=
  if secret = zeros then zerosKey else if secret = ones then onesKey else secret

/-- Ed25519 as it is recorded for these secrets and this message. Any other secret is its own public
half, and any other message is signed by putting the public half twice. -/
def recorded : Scheme where
  publicKey := recordedKey
  sign secret message :=
    if message = countersignedMessage ∧ secret = zeros then zerosSignature
    else if message = countersignedMessage ∧ secret = ones then onesSignature
    else (recordedKey secret).append (recordedKey secret)
  verify signer message signature :=
    if signature = signer.append signer ∨ message = countersignedMessage ∧
        (signer = zerosKey ∧ signature = zerosSignature ∨
          signer = onesKey ∧ signature = onesSignature) then .ok ()
    else .error .mismatch

end

theorem honest_recorded : recorded.Honest := by
  intro secret message
  simp only [recorded, recordedKey]
  by_cases hmessage : message = countersignedMessage <;> by_cases hzeros : secret = zeros <;>
    by_cases hones : secret = ones <;> simp_all

/-- The signature of neither secret is hidden by those that were there, a bad one and one that
cannot be verified, and these do not count. -/
theorem countersigned_signed_by_both : recorded.Honest ∧ countersigned.Reachable ∧
    ∃ u, countersigned.signAll recorded [zeros, ones] = .ok u ∧
      u.signatures = ⟨.ed25519, onesSignature.val⟩ :: ⟨.ed25519, zerosSignature.val⟩ ::
        countersigned.signatures ∧
      countersigned.isSignedBy recorded zerosKey = false ∧
      u.isSignedBy recorded zerosKey = true ∧ u.isSignedBy recorded onesKey = true ∧
      ∃ bytes, u.encode = .ok bytes ∧ ofBytes bytes = .ok u := by
  obtain ⟨m, hmessage, hsigned, -⟩ := signed_by_all honest_recorded reachable_countersigned
  have hm : countersigned.message = .ok countersignedMessage := by decide
  rw [hm] at hmessage
  obtain rfl := Except.ok.inj hmessage
  obtain ⟨u, hu, -, hread⟩ := hsigned [zeros, ones]
  have hsized : countersigned.Sized := by constructor <;> decide
  have hbefore : countersigned.isSignedBy recorded zerosKey = false := by decide
  have hkeys : recorded.publicKey zeros = zerosKey ∧ recorded.publicKey ones = onesKey := by decide
  have hsignatures : [zeros, ones].map (fun k => Signature.make recorded k countersignedMessage) =
      [⟨.ed25519, zerosSignature.val⟩, ⟨.ed25519, onesSignature.val⟩] := by decide
  have hall := hu.signatures
  rw [hsignatures] at hall
  refine ⟨honest_recorded, reachable_countersigned, u, hu.signed, hall, hbefore, ?_, ?_,
    hread hsized (by decide)⟩
  · rw [← hkeys.1]
    exact hu.signers zeros (by decide)
  · rw [← hkeys.2]
    exact hu.signers ones (by decide)

end Transaction
end ChainScript
