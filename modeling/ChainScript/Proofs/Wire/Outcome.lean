import ChainScript.Proofs.Wire.ReadBack
import ChainScript.Proofs.Wire.Written

/-! What reading any data can come to. A decoder follows a relation between values and bytes if it
takes only bytes that stand for the value it gives, and if it reports missing data only where more
data would complete some value. -/
namespace ChainScript.Wire

theorem leBytes_leValue {width : Nat} {bytes : Bytes} (h : bytes.length = width) :
    leBytes width (leValue bytes) = bytes := by
  subst h
  induction bytes with
  | nil => rfl
  | cons b bytes ih =>
    have hvalue : leValue (b :: bytes) = b.toNat + 256 * leValue bytes := rfl
    have hb := b.toNat_lt
    have hlow : (b.toNat + 256 * leValue bytes).toUInt8 = b := by
      rw [← UInt8.toNat_inj]
      change (UInt8.ofNat _).toNat = _
      rw [UInt8.toNat_ofNat']
      omega
    have hhigh : (b.toNat + 256 * leValue bytes) / 256 = leValue bytes := by omega
    rw [hvalue, List.length_cons, leBytes, hlow, hhigh, ih]

theorem leValue_lt {width : Nat} {bytes : Bytes} (h : bytes.length = width) :
    leValue bytes < 256 ^ width := by
  rw [← leBytes_leValue h, leValue_leBytes]
  exact Nat.mod_lt _ (Nat.pow_pos (by decide))

namespace Decoder

/-- The result of reading at some place: a value whose bytes were taken, an end of the data within
bytes of some value, or something wrong with the data. -/
inductive Outcome (stands : α → Bytes → Prop) (wrong : Bytes → Fault → Prop) (input : Input) :
    EStateM.Result Fault Input α → Prop where
  | value {a} (front : Bytes) {back} : input.rest = front ++ back → stands a front →
      Outcome stands wrong input (.ok a ⟨input.pos + front.length, back⟩)
  | cut {wanted left last} (a : α) (more : Bytes) : left < wanted → more ≠ [] →
      stands a (input.rest ++ more) →
      Outcome stands wrong input (.error (.truncated wanted left) last)
  | wrong {fault last} : input.rest ≠ [] → wrong input.rest fault →
      Outcome stands wrong input (.error fault last)

def Follows (d : Decoder α) (stands : α → Bytes → Prop) (wrong : Bytes → Fault → Prop) : Prop :=
  ∀ input, Outcome stands wrong input (d input)

variable {stands : α → Bytes → Prop} {wrong : Bytes → Fault → Prop}

/-- Reading on behind some bytes. -/
theorem Outcome.behind {front back : Bytes} {input : Input}
    {result : EStateM.Result Fault Input α} (hrest : input.rest = front ++ back)
    (h : Outcome (fun a bytes => stands a (front ++ bytes)) (fun bytes => wrong (front ++ bytes))
      ⟨input.pos + front.length, back⟩ result) : Outcome stands wrong input result := by
  cases h with
  | @value a taken rest hback ha =>
    have hback : back = taken ++ rest := hback
    rw [hback, ← List.append_assoc] at hrest
    rw [Nat.add_assoc, ← List.length_append]
    exact .value (front ++ taken) hrest ha
  | cut a more hlt hmore ha =>
    rw [← List.append_assoc, ← hrest] at ha
    exact .cut a more hlt hmore ha
  | wrong hne hwrong =>
    rw [← hrest] at hwrong
    refine .wrong ?_ hwrong
    rw [hrest]
    exact List.append_ne_nil_of_right_ne_nil front hne

/-- What was read stood in front of what is left. -/
theorem Follows.of_ok {d : Decoder α} {input next : Input} {a : α} (h : d.Follows stands wrong)
    (ha : d input = .ok a next) :
    ∃ front, input.rest = front ++ next.rest ∧ next.pos = input.pos + front.length ∧
      stands a front := by
  have hinput := h input
  rw [ha] at hinput
  cases hinput with
  | value front hrest hstands => exact ⟨front, hrest, rfl, hstands⟩

/-- Some bytes stand for some value, for there is nothing wrong with no data. -/
theorem Follows.exists_stands {d : Decoder α} (h : d.Follows stands wrong) :
    ∃ a bytes, stands a bytes := by
  have hempty := h ⟨0, []⟩
  generalize d ⟨0, []⟩ = result at hempty
  cases hempty with
  | value front _ ha => exact ⟨_, front, ha⟩
  | cut a more _ _ ha => exact ⟨a, more, ha⟩
  | wrong hne _ => exact absurd rfl hne

theorem Follows.pure {a : α} (h : stands a []) : Follows (pure a) stands wrong :=
  fun _ => .value [] rfl h

theorem Follows.mono {d : Decoder α} {weaker : α → Bytes → Prop} {worse : Bytes → Fault → Prop}
    (h : d.Follows stands wrong) (hweaker : ∀ a bytes, stands a bytes → weaker a bytes)
    (hworse : ∀ bytes fault, wrong bytes fault → worse bytes fault) : d.Follows weaker worse := by
  intro input
  have h := h input
  generalize d input = result at h
  cases h with
  | value front hrest ha => exact .value front hrest (hweaker _ _ ha)
  | cut a more hlt hmore ha => exact .cut a more hlt hmore (hweaker _ _ ha)
  | wrong hne hwrong => exact .wrong hne (hworse _ _ hwrong)

theorem Follows.bind {d : Decoder α} {f : α → Decoder β} {whole : β → Bytes → Prop}
    (hd : d.Follows stands wrong)
    (hf : ∀ a front, stands a front →
      (f a).Follows (fun b back => whole b (front ++ back)) (fun back => wrong (front ++ back))) :
    Follows (d >>= f) whole wrong := by
  intro input
  have h := hd input
  change Outcome whole wrong input (EStateM.bind d f input)
  rw [EStateM.bind]
  generalize d input = result at h
  cases h with
  | value front hrest ha => exact Outcome.behind hrest (hf _ front ha _)
  | cut a more hlt hmore ha =>
    -- What is missing of the first part is followed by some second part.
    obtain ⟨b, back, hb⟩ := (hf _ _ ha).exists_stands
    rw [List.append_assoc] at hb
    exact .cut b _ hlt (List.append_ne_nil_of_left_ne_nil hmore back) hb
  | wrong hne hwrong => exact .wrong hne hwrong

theorem follows_take (n : Nat) :
    Follows (take n) (fun data bytes => bytes = data ∧ data.length = n) wrong := by
  intro input
  unfold take
  by_cases h : (input.rest.take n).length = n
  · rw [if_pos h, Input.advance]
    nth_rewrite 3 [← h]
    exact .value _ (List.take_append_drop n input.rest).symm ⟨rfl, h⟩
  · have hshort : input.rest.length < n := by simpa using h
    rw [if_neg h]
    refine .cut (input.rest ++ List.replicate (n - input.rest.length) 0)
      (List.replicate (n - input.rest.length) 0) hshort ?_ ⟨rfl, ?_⟩
    · simpa using Nat.sub_ne_zero_of_lt hshort
    · simp only [List.length_append, List.length_replicate]
      omega

theorem follows_byte : Follows byte (fun b bytes => bytes = [b]) wrong := by
  intro input
  unfold byte
  cases hrest : input.rest with
  | nil => exact .cut 0 [0] (by decide) (by decide) (by rw [hrest]; rfl)
  | cons b rest =>
    rw [Input.advance, hrest]
    exact .value [b] hrest rfl

/-- A byte that names an entry of a table is the entry's place in it. -/
theorem toUInt8_of_table {all : List α} {place : α → Nat}
    (hplaces : all.map place = List.range all.length) {b : UInt8} {a : α}
    (h : all[b.toNat]? = some a) : (place a).toUInt8 = b := by
  obtain ⟨hlt, -⟩ := List.getElem?_eq_some_iff.1 h
  have hplace : (all.map place)[b.toNat]? = some (place a) := by rw [List.getElem?_map, h]; rfl
  rw [hplaces, List.getElem?_range hlt] at hplace
  rw [← Option.some.inj hplace, Nat.toUInt8, UInt8.ofNat_toNat]

/-- A byte that stands for a value or for nothing. At the end of the data one that stands for a
value is missing. -/
theorem follows_tag {read : UInt8 → Decoder α} (known : UInt8) (entry : α)
    (hknown : stands entry [known])
    (hread : ∀ b, (∃ a, read b = pure a ∧ stands a [b]) ∨
      (read b = throw (.unknownTag b) ∧ ∀ rest, wrong (b :: rest) (.unknownTag b))) :
    Follows (byte >>= read) stands wrong := by
  intro input
  change Outcome stands wrong input (EStateM.bind byte read input)
  rw [EStateM.bind, byte]
  cases hrest : input.rest with
  | nil =>
    exact .cut entry [known] (by decide) (List.cons_ne_nil _ _) (by rwa [hrest])
  | cons b rest =>
    obtain ⟨a, ha, hstands⟩ | ⟨hb, hwrong⟩ := hread b
    · simp only [ha, Input.advance, hrest]
      exact .value [b] hrest hstands
    · have hne : input.rest ≠ [] := by simp [hrest]
      simp only [hb]
      exact .wrong hne (by rw [hrest]; exact hwrong rest)

theorem follows_u16 : Follows u16 (fun n bytes => bytes = leBytes 2 n.toNat) wrong := by
  refine (follows_take 2).bind fun data bytes ⟨hbytes, hlength⟩ => .pure ?_
  have hsame : (leValue data).toUInt16.toNat = leValue data :=
    UInt16.toNat_ofNat_of_lt (leValue_lt hlength)
  rw [hsame, leBytes_leValue hlength, hbytes, List.append_nil]

theorem follows_u32 : Follows u32 (fun n bytes => bytes = leBytes 4 n.toNat) wrong := by
  refine (follows_take 4).bind fun data bytes ⟨hbytes, hlength⟩ => .pure ?_
  have hsame : (leValue data).toUInt32.toNat = leValue data :=
    UInt32.toNat_ofNat_of_lt (leValue_lt hlength)
  rw [hsame, leBytes_leValue hlength, hbytes, List.append_nil]

theorem follows_u64 : Follows u64 (fun n bytes => bytes = leBytes 8 n.toNat) wrong := by
  refine (follows_take 8).bind fun data bytes ⟨hbytes, hlength⟩ => .pure ?_
  have hsame : (leValue data).toUInt64.toNat = leValue data :=
    UInt64.toNat_ofNat_of_lt (leValue_lt hlength)
  rw [hsame, leBytes_leValue hlength, hbytes, List.append_nil]

theorem follows_varInt : Follows VarInt.read (fun n => VarInt.Form n.toNat) wrong := by
  refine follows_byte.bind fun tag front hfront => ?_
  subst hfront
  split
  next htag =>
    subst htag
    refine follows_u16.bind fun n bytes hbytes => .pure ?_
    subst hbytes
    rw [List.append_nil, UInt16.toNat_toUInt64]
    exact .two (Nat.le_of_lt_succ n.toNat_lt)
  next h16 =>
    split
    next htag =>
      subst htag
      refine follows_u32.bind fun n bytes hbytes => .pure ?_
      subst hbytes
      rw [List.append_nil, UInt32.toNat_toUInt64]
      exact .four (Nat.le_of_lt_succ n.toNat_lt)
    next h32 =>
      split
      next htag =>
        subst htag
        refine follows_u64.mono (fun n bytes hbytes => ?_) fun _ _ h => h
        subst hbytes
        exact .eight (Nat.le_of_lt_succ n.toNat_lt)
      next h64 =>
        -- The tag is none of the three, so it is below all of them.
        have hne (other : UInt8) (h : ¬tag = other) : tag.toNat ≠ other.toNat :=
          fun heq => h (UInt8.toNat_inj.1 heq)
        have hsmall : tag.toNat < 0xFD := by
          have h253 := hne 0xFD h16
          have h254 := hne 0xFE h32
          have h255 := hne 0xFF h64
          have hlt := tag.toNat_lt
          simp only [UInt8.reduceToNat] at h253 h254 h255
          omega
        have hform := VarInt.Form.bare hsmall
        rw [Nat.toUInt8, UInt8.ofNat_toNat] at hform
        exact .pure (by rwa [List.append_nil, UInt8.toNat_toUInt64])

theorem follows_counted : Follows counted (Item.Counted VarInt.Form) wrong := by
  refine follows_varInt.bind fun n length hlength =>
    (follows_take n.toNat).mono (fun data bytes ⟨hbytes, hcount⟩ => ?_) fun _ _ h => h
  subst hbytes
  exact ⟨length, by rwa [hcount], rfl⟩

theorem follows_text :
    Follows text (fun s => (Item.text s).Written VarInt.Form) wrong := by
  refine follows_counted.bind fun data bytes hcounted => .pure ?_
  rw [List.append_nil]
  exact ⟨data, Text.SingleByte.encode_decode data, hcounted⟩

end Decoder
end ChainScript.Wire
