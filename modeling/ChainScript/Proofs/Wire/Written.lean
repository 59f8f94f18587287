import ChainScript.Proofs.Wire.Form
import ChainScript.Wire.Item

/-! Items as they may be written. Everything but the form of a VarInt is fixed by the item, so with
shortest forms alone there is one way to write items, and it is the way in which they are
encoded. -/
namespace ChainScript.Wire.Item

def Counted (form : Nat → Bytes → Prop) (data bytes : Bytes) : Prop :=
  ∃ length, form data.length length ∧ bytes = length ++ data

/-- The bytes are the item's, with its VarInt in one of the forms. -/
def Written (form : Nat → Bytes → Prop) (item : Item) (bytes : Bytes) : Prop :=
  match item with
  | .u8 n => bytes = [n]
  | .u16 n => bytes = leBytes 2 n.toNat
  | .u32 n => bytes = leBytes 4 n.toNat
  | .u64 n => bytes = leBytes 8 n.toNat
  | .varInt n => form n.toNat bytes
  | .raw data => bytes = data
  | .bytes data => Counted form data bytes
  | .text s => ∃ data, Text.SingleByte.encode s = .ok data ∧ Counted form data bytes
  | .natural n => Counted form (leDigits n) bytes

inductive WrittenAll (form : Nat → Bytes → Prop) : List Item → Bytes → Prop where
  | nil : WrittenAll form [] []
  | cons {item items front back} : item.Written form front → WrittenAll form items back →
      WrittenAll form (item :: items) (front ++ back)

def encodeAll : List Item → Except Char Bytes
  | [] => .ok []
  | item :: items => do return (← item.encode) ++ (← encodeAll items)

theorem encodeAll_cons {item : Item} {items : List Item} {front back : Bytes}
    (hitem : item.encode = .ok front) (hitems : encodeAll items = .ok back) :
    encodeAll (item :: items) = .ok (front ++ back) := by
  rw [encodeAll, hitem, hitems]
  rfl

theorem encodeAll_append {items more : List Item} {front back : Bytes}
    (hitems : encodeAll items = .ok front) (hmore : encodeAll more = .ok back) :
    encodeAll (items ++ more) = .ok (front ++ back) := by
  induction items generalizing front with
  | nil =>
    cases hitems
    exact hmore
  | cons item items ih =>
    cases hitem : item.encode with
    | error c => rw [encodeAll, hitem] at hitems; cases hitems
    | ok first =>
      cases hrest : encodeAll items with
      | error c => rw [encodeAll, hitem, hrest] at hitems; cases hitems
      | ok rest =>
        rw [encodeAll_cons hitem hrest] at hitems
        cases hitems
        rw [List.append_assoc]
        exact encodeAll_cons hitem (ih hrest)

namespace WrittenAll
variable {form : Nat → Bytes → Prop} {item : Item} {items more : List Item} {bytes : Bytes}

theorem of_cons (h : WrittenAll form (item :: items) bytes) :
    ∃ front back, bytes = front ++ back ∧ item.Written form front ∧ WrittenAll form items back := by
  cases h with
  | cons hitem hitems => exact ⟨_, _, rfl, hitem, hitems⟩

theorem byte (b : UInt8) (h : WrittenAll form items bytes) :
    WrittenAll form (.u8 b :: items) (b :: bytes) :=
  @cons form (.u8 b) items [b] bytes rfl h

theorem of_nil (h : WrittenAll form [] bytes) : bytes = [] := by
  cases h
  rfl

theorem append {front back : Bytes} (h : WrittenAll form items front)
    (hmore : WrittenAll form more back) : WrittenAll form (items ++ more) (front ++ back) := by
  induction h with
  | nil => exact hmore
  | cons hitem _ ih =>
    rw [List.append_assoc]
    exact .cons hitem ih

theorem of_append (h : WrittenAll form (items ++ more) bytes) :
    ∃ front back, bytes = front ++ back ∧ WrittenAll form items front ∧
      WrittenAll form more back := by
  induction items generalizing bytes with
  | nil => exact ⟨[], bytes, rfl, .nil, h⟩
  | cons item items ih =>
    obtain ⟨first, rest, rfl, hitem, hrest⟩ := h.of_cons
    obtain ⟨front, back, rfl, hfront, hback⟩ := ih hrest
    exact ⟨first ++ front, back, (List.append_assoc first front back).symm, .cons hitem hfront,
      hback⟩

end WrittenAll

/-- What is written in any forms can be written in shortest ones, and that takes no more bytes. -/
theorem Counted.shorten {data bytes : Bytes} (h : Counted VarInt.Form data bytes) :
    ∃ short, Counted VarInt.Shortest data short ∧ short.length ≤ bytes.length := by
  obtain ⟨length, hform, rfl⟩ := h
  have hshort := VarInt.shortest_encode hform.lt_size
  have hle := hshort.2 length hform
  exact ⟨_, ⟨_, hshort, rfl⟩, by simpa using hle⟩

theorem Written.shorten {item : Item} {bytes : Bytes} (h : item.Written VarInt.Form bytes) :
    ∃ short, item.Written VarInt.Shortest short ∧ short.length ≤ bytes.length := by
  cases item with
  | u8 | u16 | u32 | u64 | raw => exact ⟨bytes, h, Nat.le_refl _⟩
  | varInt n =>
    have hshort := VarInt.shortest_encode h.lt_size
    exact ⟨_, hshort, hshort.2 bytes h⟩
  | bytes | natural => exact Counted.shorten h
  | text s =>
    obtain ⟨data, hdata, hcounted⟩ := h
    obtain ⟨short, hshort, hle⟩ := hcounted.shorten
    exact ⟨short, ⟨data, hdata, hshort⟩, hle⟩

theorem WrittenAll.shorten {items : List Item} {bytes : Bytes}
    (h : WrittenAll VarInt.Form items bytes) :
    ∃ short, WrittenAll VarInt.Shortest items short ∧ short.length ≤ bytes.length := by
  induction h with
  | nil => exact ⟨[], .nil, Nat.le_refl 0⟩
  | cons hitem hitems ih =>
    obtain ⟨front, hfront, hfrontle⟩ := hitem.shorten
    obtain ⟨back, hback, hbackle⟩ := ih
    refine ⟨front ++ back, .cons hfront hback, ?_⟩
    simp only [List.length_append]
    omega

theorem Counted.eq_counted {data bytes : Bytes} (h : Counted VarInt.Shortest data bytes) :
    bytes = counted data := by
  obtain ⟨length, hlength, rfl⟩ := h
  rw [hlength.eq_encode, counted]

theorem Written.encode_eq {item : Item} {bytes : Bytes} (h : item.Written VarInt.Shortest bytes) :
    item.encode = .ok bytes := by
  cases item with
  | u8 | u16 | u32 | u64 | raw => exact congrArg Except.ok h.symm
  | varInt n =>
    have heq := VarInt.Shortest.eq_encode h
    rw [Nat.toUInt64, UInt64.ofNat_toNat] at heq
    exact congrArg Except.ok heq.symm
  | bytes | natural => exact congrArg Except.ok (Counted.eq_counted h).symm
  | text s =>
    obtain ⟨data, hdata, hcounted⟩ := h
    rw [encode, countedText, hdata, hcounted.eq_counted]
    rfl

/-- Items in shortest forms are their encoding. -/
theorem WrittenAll.encodeAll_eq {items : List Item} {bytes : Bytes}
    (h : WrittenAll VarInt.Shortest items bytes) : encodeAll items = .ok bytes := by
  induction h with
  | nil => rfl
  | cons hitem _ ih => exact encodeAll_cons hitem.encode_eq ih

/-- Any text in the item has bytes, and any length is one that a VarInt can say. -/
def Writable : Item → Prop
  | .bytes data => data.length < UInt64.size
  | .text s => ∃ data, Text.SingleByte.encode s = .ok data ∧ data.length < UInt64.size
  | .natural n => (leDigits n).length < UInt64.size
  | _ => True

theorem Writable.exists_written {item : Item} (h : item.Writable) :
    ∃ bytes, item.Written VarInt.Shortest bytes := by
  cases item with
  | u8 | u16 | u32 | u64 | raw => exact ⟨_, rfl⟩
  | varInt n => exact ⟨_, VarInt.shortest_encode n.toNat_lt⟩
  | bytes | natural => exact ⟨_, _, VarInt.shortest_encode h, rfl⟩
  | text s =>
    obtain ⟨data, hdata, hlength⟩ := h
    exact ⟨_, data, hdata, _, VarInt.shortest_encode hlength, rfl⟩

theorem exists_writtenAll {items : List Item} (h : ∀ item ∈ items, item.Writable) :
    ∃ bytes, WrittenAll VarInt.Shortest items bytes := by
  induction items with
  | nil => exact ⟨[], .nil⟩
  | cons item items ih =>
    obtain ⟨front, hfront⟩ := (h item List.mem_cons_self).exists_written
    obtain ⟨back, hback⟩ := ih fun other hother => h other (List.mem_cons_of_mem item hother)
    exact ⟨front ++ back, .cons hfront hback⟩

/-- What could be written could also be written in shortest forms. -/
theorem Written.writable {item : Item} {bytes : Bytes} (h : item.Written VarInt.Form bytes) :
    item.Writable := by
  cases item with
  | u8 | u16 | u32 | u64 | varInt | raw => trivial
  | bytes | natural =>
    obtain ⟨length, hlength, -⟩ := h
    exact hlength.lt_size
  | text s =>
    obtain ⟨data, hdata, length, hlength, -⟩ := h
    exact ⟨data, hdata, hlength.lt_size⟩

theorem WrittenAll.writable {items : List Item} {bytes : Bytes}
    (h : WrittenAll VarInt.Form items bytes) : ∀ item ∈ items, item.Writable := by
  induction h with
  | nil => simp
  | cons hitem _ ih => exact List.forall_mem_cons.2 ⟨hitem.writable, ih⟩

/-- Shortest forms are forms. -/
theorem Written.lenient {item : Item} {bytes : Bytes} (h : item.Written VarInt.Shortest bytes) :
    item.Written VarInt.Form bytes := by
  cases item with
  | u8 | u16 | u32 | u64 | raw => exact h
  | varInt n => exact h.1
  | bytes data | natural n =>
    obtain ⟨length, hlength, hbytes⟩ := h
    exact ⟨length, hlength.1, hbytes⟩
  | text s =>
    obtain ⟨data, hdata, length, hlength, hbytes⟩ := h
    exact ⟨data, hdata, length, hlength.1, hbytes⟩

theorem WrittenAll.lenient {items : List Item} {bytes : Bytes}
    (h : WrittenAll VarInt.Shortest items bytes) : WrittenAll VarInt.Form items bytes := by
  induction h with
  | nil => exact .nil
  | cons hitem _ ih => exact .cons hitem.lenient ih

end ChainScript.Wire.Item
