import ChainScript.Proofs.Event.Payload
import ChainScript.Proofs.Hex.Spelling
import ChainScript.Envelope.Transaction
import ChainScript.Assembly.Draft

/-! Hexadecimal text comes in as the data of an event, as code in a script and as the script of a
transaction. Some of these look at the text beforehand, and some have only one word for all that can
be wrong with it, but they all take the same texts for the same bytes. -/
namespace ChainScript
open Wire

/-- The empty text spells no bytes, so it need not be looked at apart. -/
theorem Event.ofReport_eq (kind address contract data : String) :
    ofReport kind address contract data = match Hex.decode data with
      | .ok bytes => .ok ⟨.ofName kind, address, contract, bytes⟩
      | .error fault => .error (.badHex fault) := by
  cases h : Hex.decode data with
  | ok bytes => exact ofReport_of_decode h kind address contract
  | error fault =>
    have hne : ¬ data.isEmpty := by
      intro hempty
      rw [String.isEmpty_iff.1 hempty] at h
      cases h
    rw [ofReport, if_neg hne, h]

theorem Assembly.hex_eq (digits : String) (d : Draft) :
    hex digits d = match Hex.decode digits with
      | .ok bytes => .ok () { d with code := d.code ++ bytes }
      | .error _ => .error .malformedScript d := by
  rw [hex]
  cases Hex.decode digits <;> rfl

theorem Assembly.finishText_eq_ok_iff {d after : Draft} {text : String} :
    finishText d = .ok text after ↔ ∃ code, finish d = .ok code after ∧ text = Hex.upper code := by
  change EStateM.bind finish _ d = _ ↔ _
  rw [EStateM.bind]
  cases finish d with
  | ok code d => simp [pure, EStateM.pure, eq_comm, and_comm]
  | error refusal d => simp

namespace Transaction

variable {network chain payload : String} {expiration : Timestamp}

/-- A text of an odd length is refused anyway, so its length need not be looked at apart. -/
theorem ofHexScript_eq (network chain script : String) (expiration : Timestamp)
    (payload : String) :
    ofHexScript network chain script expiration payload = match Hex.decode script with
      | .ok bytes => withScript network chain bytes expiration payload
      | .error _ => .error .malformedScript := by
  rw [ofHexScript]
  split
  next hodd => rw [Hex.decode_eq_error_iff.2 (.odd hodd)]
  next => rfl

theorem checkText_of_fits {s : String} (h : ∀ c ∈ s.toList, c.toNat ≤ 0xFF) :
    checkText s = .ok () := by
  have hfits : ∀ c ∈ s.toList, Text.SingleByte.fits c := fun c hc => by
    simpa [Text.SingleByte.fits] using Nat.lt_succ_of_le (h c hc)
  rw [checkText, Text.SingleByte.encode_eq_ok_iff.2 ⟨hfits, rfl⟩]

theorem withScript_of_fits (script : Bytes) (expiration : Timestamp)
    (h : ∀ s ∈ [network, chain, payload], ∀ c ∈ s.toList, c.toNat ≤ 0xFF) :
    withScript network chain script expiration payload =
      .ok ⟨network, chain, script, expiration, payload, []⟩ := by
  rw [withScript, checkText_of_fits (h network (by simp)), checkText_of_fits (h chain (by simp)),
    checkText_of_fits (h payload (by simp))]
  rfl

theorem error_of_check {check : Except Refusal Unit} {next : Except Refusal α} {r : Refusal}
    (h : (do check; next) = .error r) : check = .error r ∨ next = .error r := by
  cases check with
  | error refusal =>
    cases h
    exact .inl rfl
  | ok => exact .inr h

theorem checkText_ne_malformed (s : String) : checkText s ≠ .error .malformedScript := by
  rw [checkText]
  split <;> simp

/-- What is wrong with the other texts has a word of its own. -/
theorem withScript_ne_malformed (script : Bytes) :
    withScript network chain script expiration payload ≠ .error .malformedScript := by
  intro h
  obtain h | h := error_of_check h
  · exact checkText_ne_malformed network h
  · obtain h | h := error_of_check h
    · exact checkText_ne_malformed chain h
    · obtain h | h := error_of_check h
      · exact checkText_ne_malformed payload h
      · cases h

theorem ofHexScript_eq_malformed_iff {script : String} :
    ofHexScript network chain script expiration payload = .error .malformedScript ↔
      ¬ ∃ bytes, Hex.decode script = .ok bytes := by
  rw [ofHexScript_eq]
  cases Hex.decode script with
  | ok bytes => simpa using withScript_ne_malformed bytes
  | error fault => simp

/-- What a script is shown as when it is finished is the script of any transaction it is put in. -/
theorem ofHexScript_upper (script : Bytes) (expiration : Timestamp)
    (h : ∀ s ∈ [network, chain, payload], ∀ c ∈ s.toList, c.toNat ≤ 0xFF) :
    ofHexScript network chain (Hex.upper script) expiration payload =
      .ok ⟨network, chain, script, expiration, payload, []⟩ := by
  rw [ofHexScript_eq, Hex.decode_of_toUpper rfl]
  exact withScript_of_fits script expiration h

end Transaction

namespace Hex

/-- A text is hexadecimal if its characters are digits and their number is even. Then it is what its
bytes are written as, up to the case of letters, and otherwise its length or its first bad byte is
the fault. All that take hexadecimal text take just these texts for just these bytes, whatever they
look at first, so a finished script is the same script in a transaction. -/
theorem one_language :
    (∀ s : String, (∃ bytes, decode s = .ok bytes) ↔
      s.length % 2 = 0 ∧ ∀ c ∈ s.toList, Digit c) ∧
    (∀ s bytes, decode s = .ok bytes → upper bytes = s.toUpper ∧ Spells s.toList bytes) ∧
    (∀ bytes, decode (upper bytes) = .ok bytes) ∧
    (∀ s fault, decode s = .error fault ↔ Faulty s fault) ∧
    (∀ kind address contract s, Event.ofReport kind address contract s = match decode s with
      | .ok bytes => .ok ⟨.ofName kind, address, contract, bytes⟩
      | .error fault => .error (.badHex fault)) ∧
    (∀ s, Input.ofHex s = match decode s with
      | .ok bytes => .ok (.ofBytes bytes)
      | .error fault => .error (.badHex fault)) ∧
    (∀ s (d : Draft), Assembly.hex s d = match decode s with
      | .ok bytes => .ok () { d with code := d.code ++ bytes }
      | .error _ => .error .malformedScript d) ∧
    (∀ network chain s expiration payload,
      (Transaction.ofHexScript network chain s expiration payload = .error .malformedScript ↔
        ¬ ∃ bytes, decode s = .ok bytes) ∧
      ∀ bytes, decode s = .ok bytes →
        Transaction.ofHexScript network chain s expiration payload =
          Transaction.withScript network chain bytes expiration payload) ∧
    ∀ network chain payload : String,
      (∀ s ∈ [network, chain, payload], ∀ c ∈ s.toList, c.toNat ≤ 0xFF) →
      (∀ s bytes expiration, decode s = .ok bytes →
        Transaction.ofHexScript network chain s expiration payload =
          .ok ⟨network, chain, bytes, expiration, payload, []⟩) ∧
      ∀ (d : Draft) text after, Assembly.finishText d = .ok text after ↔
        ∃ code, Assembly.finish d = .ok code after ∧ text = upper code ∧
          ∀ expiration, Transaction.ofHexScript network chain text expiration payload =
            .ok ⟨network, chain, code, expiration, payload, []⟩ := by
  refine ⟨fun s => exists_decode_iff, fun s bytes h => ?_, fun bytes => decode_of_toUpper rfl,
    fun s fault => decode_eq_error_iff, Event.ofReport_eq, fun s => rfl, Assembly.hex_eq,
    fun network chain s expiration payload => ⟨Transaction.ofHexScript_eq_malformed_iff, ?_⟩,
    fun network chain payload htexts => ⟨?_, ?_⟩⟩
  · have hspells := decode_eq_ok_iff.1 h
    exact ⟨(toUpper_eq_upper_iff.2 hspells).symm, hspells⟩
  · intro bytes h
    rw [Transaction.ofHexScript_eq, h]
  · intro s bytes expiration h
    rw [Transaction.ofHexScript_eq, h]
    exact Transaction.withScript_of_fits bytes expiration htexts
  · intro d text after
    rw [Assembly.finishText_eq_ok_iff]
    constructor
    · rintro ⟨code, hcode, rfl⟩
      exact ⟨code, hcode, rfl, fun expiration =>
        Transaction.ofHexScript_upper code expiration htexts⟩
    · rintro ⟨code, hcode, htext, -⟩
      exact ⟨code, hcode, htext⟩

/-- A script of one byte that is finished, and its text with letters of both cases. -/
theorem mixed_case_script :
    decode "fD0b" = .ok [0xFD, 0x0B] ∧ upper [0xFD, 0x0B] = "fD0b".toUpper ∧
    (∀ s ∈ ["é", "main", ""], ∀ c ∈ s.toList, c.toNat ≤ 0xFF) ∧
    Transaction.ofHexScript "é" "main" "fD0b" ⟨7⟩ "" =
      .ok ⟨"é", "main", [0xFD, 0x0B], ⟨7⟩, "", []⟩ ∧
    ∃ text, Assembly.finishText ⟨[0xFD], [], []⟩ = .ok text ⟨[0xFD, 0x0B], [], []⟩ ∧
      Transaction.ofHexScript "é" "main" text ⟨7⟩ "" =
        .ok ⟨"é", "main", [0xFD, 0x0B], ⟨7⟩, "", []⟩ := by
  obtain ⟨-, hupper, -, -, -, -, -, -, hscript⟩ := one_language
  have hdecode : decode "fD0b" = .ok [0xFD, 0x0B] := rfl
  have htexts : ∀ s ∈ ["é", "main", ""], ∀ c ∈ s.toList, c.toNat ≤ 0xFF := by simp
  have hfinish : Assembly.finish ⟨[0xFD], [], []⟩ = .ok [0xFD, 0x0B] ⟨[0xFD, 0x0B], [], []⟩ := rfl
  have htext : Assembly.finishText ⟨[0xFD], [], []⟩ =
      .ok (upper [0xFD, 0x0B]) ⟨[0xFD, 0x0B], [], []⟩ := rfl
  obtain ⟨hread, hfinished⟩ := hscript "é" "main" "" htexts
  obtain ⟨code, hcode, -, hput⟩ := (hfinished _ _ _).1 htext
  rw [hfinish] at hcode
  cases hcode
  exact ⟨hdecode, (hupper _ _ hdecode).1, htexts, hread _ _ _ hdecode, _, htext, hput _⟩

end Hex
end ChainScript
