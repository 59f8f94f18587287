import ChainScript.Proofs.Envelope.Acceptance
import ChainScript.Proofs.Envelope.RoundTrip
import ChainScript.Proofs.Wire.Delimited

/-! Transactions that lost their end or have data behind it. There is one place within a transaction
where data may stop, in front of the section for signatures, and none behind the section. -/
namespace ChainScript
open Wire Decoder

theorem SignatureKind.delimits_read : Delimits SignatureKind.read := by
  refine delimits_byte.bind fun b => ?_
  split
  · exact .pure _
  · exact .fail _

theorem Signature.delimits_read : Delimits Signature.read :=
  SignatureKind.delimits_read.bind fun _ => delimits_counted.bind fun _ => .pure _

namespace Transaction

theorem delimits_signatures (count : Nat) (found : List Signature) :
    Delimits (readSignatures count found) := by
  induction count generalizing found with
  | zero => exact .pure _
  | succ count ih => exact Signature.delimits_read.bind fun s => ih (s :: found)

theorem delimits_announced : Delimits announced :=
  delimits_varInt.bind fun n => delimits_signatures n.toNat []

theorem delimits_envelope : Delimits envelope :=
  delimits_text.bind fun _ => delimits_text.bind fun _ => delimits_counted.bind fun _ =>
    delimits_u32.bind fun _ => delimits_text.bind fun _ => .pure _

section
variable {t : Transaction} {front : Bytes} (ht : Item.WrittenAll VarInt.Form t.items front)
include ht

theorem ofBytes_within_items {data more : Bytes} (h : front = data ++ more) (hmore : more ≠ []) :
    ∃ wanted left, ofBytes data = .error (.truncated wanted left) := by
  have hneeds := delimits_envelope.needs (readsItems_envelope t front ht)
  obtain ⟨wanted, left, last, hstop⟩ := hneeds 0 data more h hmore
  exact ⟨wanted, left, by rw [ofBytes_eq, Input.ofBytes, hstop]⟩

/-- Behind the five items whatever data there is has to be the section. -/
theorem ofBytes_behind_items {back : Bytes} (hback : back ≠ []) :
    ofBytes (front ++ back) = match announced ⟨0 + front.length, back⟩ with
      | .error fault _ => .error fault
      | .ok signatures last =>
        if last.isEmpty then .ok { t with signatures := signatures }
        else .error (.trailing last.remaining) := by
  have hall := ofBytes_eq (front ++ back)
  rw [Input.ofBytes, readsItems_envelope t front ht 0 back] at hall
  rw [← readSection_of_ne_nil hback]
  exact hall

variable {signatures : List Signature} {back : Bytes} (hcount : signatures.length < UInt64.size)
  (hback : Item.WrittenAll VarInt.Form (sectionItems signatures) back)
include hcount hback

theorem ofBytes_within_section {part more : Bytes} (h : back = part ++ more) (hpart : part ≠ [])
    (hmore : more ≠ []) : ∃ wanted left, ofBytes (front ++ part) = .error (.truncated wanted left) := by
  have hneeds := delimits_announced.needs (readsItems_announced hcount back hback)
  obtain ⟨wanted, left, last, hstop⟩ := hneeds (0 + front.length) part more h hmore
  exact ⟨wanted, left, by rw [ofBytes_behind_items ht hpart, hstop]⟩

theorem ofBytes_behind_section {extra : Bytes} (hextra : extra ≠ []) :
    ofBytes (front ++ back ++ extra) = .error (.trailing extra.length) := by
  have hread := readsItems_announced hcount back hback (0 + front.length) extra
  have hne : back ++ extra ≠ [] := List.append_ne_nil_of_right_ne_nil back hextra
  rw [List.append_assoc, ofBytes_behind_items ht hne, hread]
  simp [Input.isEmpty, Input.remaining, hextra]

end

/-- The bytes of a transaction that stop anywhere but in front of the signatures are too short, and
with anything behind them they are refused for as many bytes as that is. Where they stop in front
of the signatures, they are read as the transaction without them. -/
theorem ofBytes_cut_or_extended {t : Transaction} (h : t.Reachable) (hsized : t.Sized) :
    ∃ unsigned signed, t.message = .ok unsigned ∧ t.encode = .ok signed ∧
      (∀ data, data <+: signed → data ≠ signed → data ≠ unsigned →
        ∃ wanted left, ofBytes data = .error (.truncated wanted left)) ∧
      ofBytes unsigned = .ok { t with signatures := [] } ∧
      ∀ extra, extra ≠ [] → ofBytes (signed ++ extra) = .error (.trailing extra.length) := by
  obtain ⟨unsigned, hunsigned⟩ := exists_written_items h.encodable hsized
  have hsection := written_section hsized.data
  have hitems := hunsigned.lenient
  have hread := ofBytes_append hitems ends_readSection_nil
  rw [List.append_nil] at hread
  refine ⟨unsigned, unsigned ++ encodeSignatures t.signatures, message_of_written hunsigned,
    encode_of_written (hunsigned.append hsection), ?_, hread,
    fun extra => ofBytes_behind_section hitems hsized.count hsection.lenient⟩
  rintro data ⟨more, hmore⟩ hsigned hne
  have hrest : more ≠ [] := by
    rintro rfl
    rw [List.append_nil] at hmore
    exact hsigned hmore
  obtain ⟨rest, hnil, hfront⟩ | ⟨part, rfl, hback⟩ := stop_of_append hmore.symm
  · exact ofBytes_within_items hitems hfront hnil
  · have hpart : part ≠ [] := by
      rintro rfl
      exact hne (List.append_nil unsigned)
    exact ofBytes_within_section hitems hsized.count hsection.lenient hback hpart hrest

theorem cut_or_extended_countersigned :
    countersigned.Reachable ∧ countersigned.Sized ∧
    ∃ unsigned signed, countersigned.message = .ok unsigned ∧ countersigned.encode = .ok signed ∧
      (∀ data, data <+: signed → data ≠ signed → data ≠ unsigned →
        ∃ wanted left, ofBytes data = .error (.truncated wanted left)) ∧
      ofBytes unsigned = .ok { countersigned with signatures := [] } ∧
      ofBytes (signed ++ [0, 0]) = .error (.trailing 2) := by
  have hsized : countersigned.Sized := by constructor <;> decide
  obtain ⟨unsigned, signed, hmessage, hencode, hcut, hunsigned, hextended⟩ :=
    ofBytes_cut_or_extended reachable_countersigned hsized
  exact ⟨reachable_countersigned, hsized, unsigned, signed, hmessage, hencode, hcut, hunsigned,
    hextended [0, 0] (by decide)⟩

end Transaction
end ChainScript
