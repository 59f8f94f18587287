import ChainScript.Proofs.Envelope.Layout
import ChainScript.Proofs.Wire.Outcome

/-! The data that is read as a transaction. It is five items with or without the section for
signatures, and the end of the data alone says which. -/
namespace ChainScript
open Wire Decoder

namespace SignatureKind

theorem ofByte?_eq_none {b : UInt8} (h : ofByte? b = .none) : 3 < b.toNat :=
  List.getElem?_eq_none_iff.1 h

theorem byte_of_ofByte? {b : UInt8} {k : SignatureKind} (h : ofByte? b = some k) : k.byte = b :=
  toUInt8_of_table (by decide : all.map SignatureKind.ctorIdx = List.range all.length) h

theorem follows_read {wrong : Bytes → Fault → Prop}
    (hwrong : ∀ b rest, 3 < b.toNat → wrong (b :: rest) (.unknownTag b)) :
    Follows read (fun k bytes => bytes = [k.byte]) wrong := by
  refine follows_tag SignatureKind.none.byte .none rfl fun b => ?_
  split
  next k h => exact .inl ⟨k, rfl, by rw [byte_of_ofByte? h]⟩
  next h => exact .inr ⟨rfl, fun rest => hwrong b rest (ofByte?_eq_none h)⟩

end SignatureKind

theorem Signature.follows_read {wrong : Bytes → Fault → Prop}
    (hwrong : ∀ b rest, 3 < b.toNat → wrong (b :: rest) (.unknownTag b)) :
    Follows Signature.read (fun s => Item.WrittenAll VarInt.Form s.items) wrong :=
  (SignatureKind.follows_read hwrong).bind fun _ _ hkind => follows_counted.bind fun _ _ hdata =>
    .pure (.cons hkind (.cons hdata .nil))

namespace Transaction

structure Unsigned (form : Nat → Bytes → Prop) (t : Transaction) (data : Bytes) : Prop where
  none : t.signatures = []
  items : Item.WrittenAll form t.items data

structure Signed (form : Nat → Bytes → Prop) (t : Transaction) (data : Bytes) : Prop where
  count : t.signatures.length < UInt64.size
  items : Item.WrittenAll form (t.items ++ sectionItems t.signatures) data

/-- Behind some signatures, fewer than there should be, a byte that is no kind stands where the
next one starts. -/
inductive BadKind (count : Nat) : Bytes → UInt8 → Prop where
  | mk (signatures : List Signature) (front : Bytes) {rest : Bytes} {tag : UInt8} :
      signatures.length < count →
      Item.WrittenAll VarInt.Form (signatures.flatMap Signature.items) front → 3 < tag.toNat →
      BadKind count (front ++ tag :: rest) tag

theorem BadKind.behind {count : Nat} {data front : Bytes} {tag : UInt8} {s : Signature}
    (h : BadKind count data tag) (hs : Item.WrittenAll VarInt.Form s.items front) :
    BadKind (count + 1) (front ++ data) tag := by
  cases h with
  | @mk signatures before _ _ hlt hbefore htag =>
    rw [← List.append_assoc]
    have hall : Item.WrittenAll VarInt.Form ((s :: signatures).flatMap Signature.items)
        (front ++ before) := hs.append hbefore
    exact .mk (s :: signatures) _ (Nat.succ_lt_succ hlt) hall htag

/-- What reading a number of signatures can come to, by induction on how many are to come. -/
theorem follows_signatures (count : Nat) (found : List Signature) :
    Follows (readSignatures count found)
      (fun all bytes => ∃ more, all = found.reverse ++ more ∧ more.length = count ∧
        Item.WrittenAll VarInt.Form (more.flatMap Signature.items) bytes)
      (fun bytes fault => ∃ tag, fault = .unknownTag tag ∧ BadKind count bytes tag) := by
  induction count generalizing found with
  | zero => exact .pure ⟨[], (List.append_nil _).symm, rfl, .nil⟩
  | succ count ih =>
    have hkind (b : UInt8) (rest : Bytes) (hb : 3 < b.toNat) :
        BadKind (count + 1) (b :: rest) b :=
      .mk [] [] (Nat.succ_pos count) .nil hb
    refine (Signature.follows_read fun b rest hb => ⟨b, rfl, hkind b rest hb⟩).bind
      fun s front hs => (ih (s :: found)).mono ?_ ?_
    · rintro all bytes ⟨more, rfl, rfl, hmore⟩
      refine ⟨s :: more, ?_, rfl, hs.append hmore⟩
      rw [List.reverse_cons, List.append_assoc, List.singleton_append]
    · rintro bytes fault ⟨tag, rfl, hbad⟩
      exact ⟨tag, rfl, hbad.behind hs⟩

def BadSection (data : Bytes) (tag : UInt8) : Prop :=
  ∃ count length back, data = length ++ back ∧ VarInt.Form count length ∧ BadKind count back tag

theorem follows_announced :
    Follows announced
      (fun signatures bytes => signatures.length < UInt64.size ∧
        Item.WrittenAll VarInt.Form (sectionItems signatures) bytes)
      (fun bytes fault => ∃ tag, fault = .unknownTag tag ∧ BadSection bytes tag) := by
  refine follows_varInt.bind fun count length hlength =>
    (follows_signatures count.toNat []).mono ?_ ?_
  · rintro all bytes ⟨more, hall, hcount, hmore⟩
    obtain rfl : all = more := hall
    refine ⟨hcount ▸ count.toNat_lt, ?_⟩
    rw [sectionItems, hcount, Nat.toUInt64, UInt64.ofNat_toNat]
    exact .cons hlength hmore
  · rintro bytes fault ⟨tag, rfl, hbad⟩
    exact ⟨tag, rfl, count.toNat, length, bytes, rfl, hlength, hbad⟩

theorem follows_envelope {wrong : Bytes → Fault → Prop} :
    Follows envelope (fun t bytes => t.Unsigned VarInt.Form bytes) wrong :=
  follows_text.bind fun _ _ hnetwork => follows_text.bind fun _ _ hchain =>
    follows_counted.bind fun _ _ hscript => follows_u32.bind fun _ _ hexpiration =>
      follows_text.bind fun _ _ hpayload =>
        .pure ⟨rfl, .cons hnetwork (.cons hchain (.cons hscript (.cons hexpiration
          (.cons hpayload .nil))))⟩

/-- Why data is refused: it ends within a layout, a byte that should be the kind of a signature is
none, or data is left behind the announced signatures. -/
inductive Refused (data : Bytes) : Fault → Prop where
  | cut {t : Transaction} {more : Bytes} {wanted left : Nat} : left < wanted → more ≠ [] →
      t.Unsigned VarInt.Form (data ++ more) ∨ t.Signed VarInt.Form (data ++ more) →
      Refused data (.truncated wanted left)
  | kind {t : Transaction} {front back : Bytes} {tag : UInt8} : data = front ++ back →
      t.Unsigned VarInt.Form front → BadSection back tag → Refused data (.unknownTag tag)
  | trailing {t : Transaction} {front rest : Bytes} : data = front ++ rest →
      t.Signed VarInt.Form front → rest ≠ [] → Refused data (.trailing rest.length)

theorem ofBytes_eq (data : Bytes) :
    ofBytes data = match envelope (Input.ofBytes data) with
      | .error fault _ => .error fault
      | .ok t between => match readSection between with
        | .error fault _ => .error fault
        | .ok signatures last =>
          if last.isEmpty then .ok { t with signatures := signatures }
          else .error (.trailing last.remaining) := by
  rw [ofBytes, Decoder.run, read_eq]
  simp only [bind, EStateM.bind]
  cases envelope (Input.ofBytes data) with
  | error fault last => rfl
  | ok t between =>
    simp only
    cases readSection between with
    | error fault last => rfl
    | ok signatures last =>
      simp only [Decoder.ended]
      cases last.isEmpty <;> rfl

theorem Unsigned.signed {t : Transaction} {front back : Bytes} {signatures : List Signature}
    (h : t.Unsigned VarInt.Form front) (hcount : signatures.length < UInt64.size)
    (hsection : Item.WrittenAll VarInt.Form (sectionItems signatures) back) :
    ({ t with signatures := signatures } : Transaction).Signed VarInt.Form (front ++ back) :=
  ⟨hcount, h.items.append hsection⟩

theorem ofBytes_cases_of_envelope {t : Transaction} {front back : Bytes} {pos : Nat}
    (hread : envelope (Input.ofBytes (front ++ back)) = .ok t ⟨pos, back⟩)
    (ht : t.Unsigned VarInt.Form front) :
    (∃ u, ofBytes (front ++ back) = .ok u ∧
      (u.Unsigned VarInt.Form (front ++ back) ∨ u.Signed VarInt.Form (front ++ back))) ∨
    ∃ fault, ofBytes (front ++ back) = .error fault ∧ Refused (front ++ back) fault := by
  simp only [ofBytes_eq, hread]
  by_cases hback : back = []
  · subst hback
    rw [List.append_nil]
    exact .inl ⟨_, rfl, .inl ⟨rfl, ht.items⟩⟩
  · have hfollows := follows_announced ⟨pos, back⟩
    rw [readSection_of_ne_nil hback]
    generalize announced ⟨pos, back⟩ = result at hfollows
    cases hfollows with
    | @value signatures signed rest hrest hsection =>
      have hrest : back = signed ++ rest := hrest
      have hsigned := ht.signed hsection.1 hsection.2
      subst hrest
      cases rest with
      | nil =>
        rw [List.append_nil]
        exact .inl ⟨_, rfl, .inr hsigned⟩
      | cons b rest =>
        exact .inr ⟨_, rfl, .trailing (List.append_assoc front signed _).symm hsigned
          (List.cons_ne_nil b rest)⟩
    | cut signatures more hlt hmore hsection =>
      have hsigned := ht.signed hsection.1 hsection.2
      rw [← List.append_assoc] at hsigned
      exact .inr ⟨_, rfl, .cut hlt hmore (.inr hsigned)⟩
    | wrong _ hwrong =>
      obtain ⟨tag, rfl, hbad⟩ := hwrong
      exact .inr ⟨_, rfl, .kind rfl ht hbad⟩

theorem ofBytes_cases (data : Bytes) :
    (∃ t, ofBytes data = .ok t ∧ (t.Unsigned VarInt.Form data ∨ t.Signed VarInt.Form data)) ∨
      ∃ fault, ofBytes data = .error fault ∧ Refused data fault := by
  have hfollows : Outcome _ (fun _ _ => False) (Input.ofBytes data) _ := follows_envelope _
  cases hread : envelope (Input.ofBytes data) with
  | error fault last =>
    rw [hread] at hfollows
    cases hfollows with
    | cut t more hlt hmore ht =>
      refine .inr ⟨_, ?_, .cut hlt hmore (.inl ht)⟩
      simp only [ofBytes_eq, hread]
    | wrong _ hfalse => exact hfalse.elim
  | ok t between =>
    rw [hread] at hfollows
    cases hfollows with
    | @value _ front back hdata ht =>
    obtain rfl : data = front ++ back := hdata
    exact ofBytes_cases_of_envelope hread ht

theorem ofBytes_eq_ok_iff {t : Transaction} {data : Bytes} :
    ofBytes data = .ok t ↔ t.Unsigned VarInt.Form data ∨ t.Signed VarInt.Form data := by
  refine ⟨fun h => ?_, ?_⟩
  · obtain ⟨u, hu, hlayout⟩ | ⟨fault, hfault, -⟩ := ofBytes_cases data
    · rw [h] at hu
      rwa [Except.ok.inj hu]
    · rw [h] at hfault
      cases hfault
  · rintro (⟨hnone, hitems⟩ | ⟨hcount, hitems⟩)
    · have hread := ofBytes_append hitems ends_readSection_nil
      rwa [List.append_nil, ← hnone] at hread
    · obtain ⟨front, back, rfl, hfront, hback⟩ := hitems.of_append
      exact ofBytes_append hfront (ends_section hcount hback)

/-- The data itself says whether there is a section. -/
theorem Unsigned.not_signed {t u : Transaction} {data : Bytes} (ht : t.Unsigned VarInt.Form data) :
    ¬ u.Signed VarInt.Form data := by
  rintro ⟨-, hitems⟩
  obtain ⟨front, back, hdata, hfront, hback⟩ := hitems.of_append
  rw [← List.append_nil data] at hdata
  have hend := (envelope_unique ht.items hfront hdata).2
  exact written_sectionItems_ne_nil hback hend.symm

/-- Whatever is read can be written again, with a section even where there was none. -/
theorem exists_signed {t : Transaction} {data : Bytes}
    (h : t.Unsigned VarInt.Form data ∨ t.Signed VarInt.Form data) :
    ∃ bytes, t.Signed VarInt.Shortest bytes := by
  obtain ⟨hnone, hitems⟩ | ⟨hcount, hitems⟩ := h
  · obtain ⟨front, hfront, -⟩ := hitems.shorten
    have hempty : Item.WrittenAll VarInt.Shortest (sectionItems []) (VarInt.encode 0 ++ []) :=
      .cons (VarInt.shortest_encode (by decide : 0 < UInt64.size)) .nil
    rw [← hnone] at hempty
    exact ⟨_, by rw [hnone]; decide, hfront.append hempty⟩
  · obtain ⟨bytes, hbytes, -⟩ := hitems.shorten
    exact ⟨bytes, hcount, hbytes⟩

/-- The data that is read as a transaction is just its five items, alone or with the section for its
signatures behind them, whatever forms the VarInts have. It is what the transaction is written as
where they have their shortest forms, and otherwise no shorter than that. All other data is refused
for a reason that it gives. -/
theorem ofBytes_layout (data : Bytes) :
    (∀ t, ofBytes data = .ok t ↔ t.Unsigned VarInt.Form data ∨ t.Signed VarInt.Form data) ∧
    (∀ t u : Transaction, t.Unsigned VarInt.Form data → ¬ u.Signed VarInt.Form data) ∧
    (∀ t, ofBytes data = .ok t →
      (t.encode = .ok data ↔ t.Signed VarInt.Shortest data) ∧
      (t.message = .ok data ↔ t.Unsigned VarInt.Shortest data) ∧
      (t.Signed VarInt.Form data → ∃ bytes, t.encode = .ok bytes ∧ bytes.length ≤ data.length) ∧
      (t.Unsigned VarInt.Form data →
        ∃ bytes, t.message = .ok bytes ∧ bytes.length ≤ data.length)) ∧
    ∀ fault, ofBytes data = .error fault → Refused data fault := by
  refine ⟨fun t => ofBytes_eq_ok_iff, fun t u => Unsigned.not_signed, fun t h => ?_,
    fun fault h => ?_⟩
  · have hlayout := ofBytes_eq_ok_iff.1 h
    refine ⟨⟨fun hencode => ?_, fun hsigned => encode_of_written hsigned.items⟩,
      ⟨fun hmessage => ?_, fun hunsigned => message_of_written hunsigned.items⟩, fun hsigned => ?_,
      fun hunsigned => ?_⟩
    · obtain ⟨bytes, hbytes⟩ := exists_signed hlayout
      rw [encode_of_written hbytes.items] at hencode
      rwa [Except.ok.inj hencode] at hbytes
    · obtain ⟨bytes, hbytes⟩ := exists_signed hlayout
      obtain ⟨front, back, -, hfront, -⟩ := hbytes.items.of_append
      rw [message_of_written hfront] at hmessage
      rw [Except.ok.inj hmessage] at hfront
      -- The items alone are a layout too, so what is read has no signatures.
      have hread := ofBytes_append hfront.lenient ends_readSection_nil
      rw [List.append_nil, h] at hread
      exact ⟨congrArg Transaction.signatures (Except.ok.inj hread), hfront⟩
    · obtain ⟨bytes, hbytes, hle⟩ := hsigned.items.shorten
      exact ⟨bytes, encode_of_written hbytes, hle⟩
    · obtain ⟨bytes, hbytes, hle⟩ := hunsigned.items.shorten
      exact ⟨bytes, message_of_written hbytes, hle⟩
  · obtain ⟨t, ht, -⟩ | ⟨other, hother, hrefused⟩ := ofBytes_cases data
    · rw [h] at ht
      cases ht
    · rw [h] at hother
      rwa [Except.error.inj hother]

end Transaction
end ChainScript
