import ChainScript.Proofs.Wire.Outcome
import ChainScript.Wire.Forward

/-! Streams of items. Items that are written one behind the other are read back in their order, and
each read ends where the write of its item did. A refused text leaves nothing to be read. -/
namespace ChainScript.Wire

/-- No bytes for a number are fewer than its shortest ones. -/
theorem length_leDigits_le {bytes : Bytes} (h : bytes ≠ []) :
    (leDigits (leValue bytes)).length ≤ bytes.length := by
  induction bytes with
  | nil => exact absurd rfl h
  | cons b bytes ih =>
    have hvalue : leValue (b :: bytes) = b.toNat + 256 * leValue bytes := rfl
    have hb := b.toNat_lt
    rw [leDigits]
    split
    next => simp
    next hlarge =>
      have hhigh : leValue (b :: bytes) / 256 = leValue bytes := by omega
      have hne : bytes ≠ [] := by
        rintro rfl
        have hnil : leValue [] = 0 := rfl
        omega
      rw [hhigh]
      exact Nat.succ_le_succ (ih hne)

/-- The bytes that a number of any size is written as are the shortest it has, and no others are
as short. -/
theorem eq_leDigits_iff {n : Nat} {bytes : Bytes} :
    bytes = leDigits n ↔ bytes ≠ [] ∧ leValue bytes = n ∧
      ∀ other, other ≠ [] → leValue other = n → bytes.length ≤ other.length := by
  constructor
  · rintro rfl
    refine ⟨leDigits_ne_nil n, leValue_leDigits n, ?_⟩
    rintro other hother rfl
    exact length_leDigits_le hother
  · rintro ⟨hne, rfl, hleast⟩
    have hvalue := leValue_leDigits (leValue bytes)
    have hle := hleast _ (leDigits_ne_nil _) hvalue
    have hlength := Nat.le_antisymm hle (length_leDigits_le hne)
    have hdigits := leBytes_leValue hlength.symm
    rwa [hvalue, leBytes_leValue rfl] at hdigits

namespace Decoder

theorem ReadsItems.map {d : Decoder α} {items : List Item} {a : α} (g : α → β)
    (hd : d.ReadsItems items a) : ReadsItems (g <$> d) items (g a) :=
  fun bytes h => (hd bytes h).map g

theorem readsItems_u64 (n : UInt64) : ReadsItems u64 [.u64 n] n := .one fun _ h => h ▸ reads_u64 n

theorem readsItems_take (data : Bytes) : ReadsItems (take data.length) [.raw data] data :=
  .one fun _ h => h ▸ reads_take rfl

theorem readsItems_natural (n : Nat) : ReadsItems natural [.natural n] n := by
  refine .one fun bytes h => ?_
  obtain ⟨length, hlength, rfl⟩ := h
  have hread := (reads_counted hlength).map leValue
  rwa [leValue_leDigits] at hread

/-- The request for an item reads it from anything that it may be written as. -/
theorem readsItems_request (item : Item) : ReadsItems item.request.read [item] item := by
  cases item with
  | u8 n => exact (readsItems_byte n).map Item.u8
  | u16 n => exact (readsItems_u16 n).map Item.u16
  | u32 n => exact (readsItems_u32 n).map Item.u32
  | u64 n => exact (readsItems_u64 n).map Item.u64
  | varInt n => exact (readsItems_varInt n).map Item.varInt
  | raw data => exact (readsItems_take data).map Item.raw
  | bytes data => exact (readsItems_counted data).map Item.bytes
  | text s => exact (readsItems_text s).map Item.text
  | natural n => exact (readsItems_natural n).map Item.natural

end Decoder

def Request.readAll : List Request → Decoder (List (Item × Nat))
  | [] => pure []
  | r :: rs => do
    let item ← r.read
    let place ← get
    return (item, place.pos) :: (← readAll rs)

theorem Request.readAll_cons {r : Request} {rs : List Request} {input next last : Input}
    {item : Item} {found : List (Item × Nat)} (hr : r.read input = .ok item next)
    (hrs : readAll rs next = .ok found last) :
    readAll (r :: rs) input = .ok ((item, next.pos) :: found) last := by
  change EStateM.bind r.read _ input = _
  rw [EStateM.bind, hr]
  change EStateM.bind (readAll rs) _ next = _
  rw [EStateM.bind, hrs]
  rfl

namespace Item

def writeAll (items : List Item) (written : Bytes) : Bytes :=
  items.foldl (fun written item => Decoder.stop (item.write written)) written

/-- The items that are not refused, each with the length of the data once it is written. -/
def landings : List Item → Bytes → List (Item × Nat)
  | [], _ => []
  | item :: items, written =>
    match item.write written with
    | .ok _ after => (item, after.length) :: landings items after
    | .error _ after => landings items after

def payload : Item → Nat
  | .bytes data => data.length
  | .text s => s.length
  | .natural n => (leDigits n).length
  | _ => 0

theorem encode_eq_error_iff {item : Item} {c : Char} :
    item.encode = .error c ↔ ∃ s, item = .text s ∧ Text.SingleByte.encode s = .error c := by
  cases item with
  | text s =>
    simp only [encode, countedText, text.injEq, exists_eq_left']
    cases Text.SingleByte.encode s <;> simp [Functor.map, Except.map]
  | _ => simp [encode]

/-- What is refused is just a text with a character that has no byte. The refusal names the first
such character, and nothing is written. -/
theorem write_eq_error_iff {item : Item} {before after : Bytes} {c : Char} :
    item.write before = .error c after ↔
      after = before ∧ ∃ s front back, item = .text s ∧ s.toList = front ++ c :: back ∧
        (∀ d ∈ front, d.toNat ≤ 0xFF) ∧ 0xFF < c.toNat := by
  have hwrite : item.write before = .error c after ↔ after = before ∧ item.encode = .error c := by
    rw [write]
    cases item.encode <;> simp [eq_comm, and_comm]
  simp only [hwrite, encode_eq_error_iff, Text.SingleByte.encode_eq_error_iff, exists_and_left]

/-- What is encoded is written in shortest forms. -/
theorem written_of_encode {item : Item} {bytes : Bytes} (hsized : item.payload < UInt64.size)
    (h : item.encode = .ok bytes) : item.Written VarInt.Shortest bytes := by
  have hwritable : item.Writable := by
    cases item with
    | bytes | natural => exact hsized
    | text s =>
      cases hs : Text.SingleByte.encode s with
      | error c =>
        rw [encode, countedText, hs] at h
        cases h
      | ok data => exact ⟨data, hs, by rwa [Text.SingleByte.length_of_encode hs]⟩
    | _ => trivial
  obtain ⟨other, hother⟩ := hwritable.exists_written
  rw [hother.encode_eq] at h
  rwa [Except.ok.inj h] at hother

theorem read_of_encode {item : Item} {bytes : Bytes} (hsized : item.payload < UInt64.size)
    (h : item.encode = .ok bytes) : item.request.read.Reads bytes item := by
  have hitem := (written_of_encode hsized h).lenient
  have hread := Decoder.readsItems_request item (bytes ++ []) (.cons hitem .nil)
  rwa [List.append_nil] at hread

/-- By induction on the items, whatever was written before them. -/
theorem readAll_landings {items : List Item}
    (hsized : ∀ item ∈ items, item.payload < UInt64.size) (written : Bytes) :
    ∃ more, writeAll items written = written ++ more ∧
      ∀ tail, Request.readAll ((landings items written).map fun l => l.1.request)
          ⟨written.length, more ++ tail⟩ =
        .ok (landings items written) ⟨(written ++ more).length, tail⟩ := by
  induction items generalizing written with
  | nil => exact ⟨[], (List.append_nil written).symm, fun tail => by rw [List.append_nil]; rfl⟩
  | cons item items ih =>
    have hrest := fun other hother => hsized other (List.mem_cons_of_mem item hother)
    cases hencode : item.encode with
    | error c =>
      have hwrite : item.write written = .error c written := by rw [write, hencode]
      obtain ⟨more, hmore, hread⟩ := ih hrest written
      refine ⟨more, ?_, ?_⟩
      · rw [writeAll, List.foldl_cons, hwrite]
        exact hmore
      · rwa [landings, hwrite]
    | ok bytes =>
      have hwrite : item.write written = .ok () (written ++ bytes) := by rw [write, hencode]
      obtain ⟨more, hmore, hread⟩ := ih hrest (written ++ bytes)
      refine ⟨bytes ++ more, ?_, fun tail => ?_⟩
      · rw [writeAll, List.foldl_cons, hwrite, ← List.append_assoc]
        exact hmore
      · have hitem := read_of_encode (hsized item List.mem_cons_self) hencode
        have hfirst := hitem written.length (more ++ tail)
        rw [← List.length_append] at hfirst
        rw [landings, hwrite, List.append_assoc, ← List.append_assoc written]
        exact Request.readAll_cons hfirst (hread tail)

/-- Whatever items are written, the ones that are not refused are read back, in front of any data
and in their order, and every read ends where the write did. A write is refused for the first
character of a text that has no byte and then leaves the data as they were. A number of any size
has the shortest bytes there are. -/
theorem stream_read_back (items : List Item)
    (hsized : ∀ item ∈ items, item.payload < UInt64.size) :
    (∀ (item : Item) before c after, item.write before = .error c after ↔
      after = before ∧ ∃ s front back, item = .text s ∧ s.toList = front ++ c :: back ∧
        (∀ d ∈ front, d.toNat ≤ 0xFF) ∧ 0xFF < c.toNat) ∧
    (∀ n bytes, bytes = leDigits n ↔ bytes ≠ [] ∧ leValue bytes = n ∧
      ∀ other, other ≠ [] → leValue other = n → bytes.length ≤ other.length) ∧
    ∀ tail, Request.readAll ((landings items []).map fun l => l.1.request)
        (Input.ofBytes (writeAll items [] ++ tail)) =
      .ok (landings items []) ⟨(writeAll items []).length, tail⟩ := by
  obtain ⟨more, hmore, hread⟩ := readAll_landings hsized []
  refine ⟨fun _ _ _ _ => write_eq_error_iff, fun _ _ => eq_leDigits_iff, fun tail => ?_⟩
  rw [hmore]
  exact hread tail

def mixed : List Item :=
  [.u16 0x1234, .text "né", .text "a€b", .varInt 253, .natural 65536, .bytes [], .raw [0xFF]]

theorem mixed_read_back :
    (∀ item ∈ mixed, item.payload < UInt64.size) ∧
    writeAll mixed [] = [0x34, 0x12, 2, 110, 0xE9, 0xFD, 0xFD, 0, 3, 0, 0, 1, 0, 0xFF] ∧
    ∀ tail, Request.readAll [.u16, .text, .varInt, .natural, .bytes, .raw 1]
        (Input.ofBytes (writeAll mixed [] ++ tail)) =
      .ok [(.u16 0x1234, 2), (.text "né", 5), (.varInt 253, 8), (.natural 65536, 12), (.bytes [], 13),
        (.raw [0xFF], 14)] ⟨14, tail⟩ := by
  have hsized : ∀ item ∈ mixed, item.payload < UInt64.size := by decide +kernel
  have hwritten : writeAll mixed [] =
      [0x34, 0x12, 2, 110, 0xE9, 0xFD, 0xFD, 0, 3, 0, 0, 1, 0, 0xFF] := by decide +kernel
  have hlandings : landings mixed [] = [(.u16 0x1234, 2), (.text "né", 5), (.varInt 253, 8),
      (.natural 65536, 12), (.bytes [], 13), (.raw [0xFF], 14)] := by decide +kernel
  obtain ⟨-, -, hread⟩ := stream_read_back mixed hsized
  rw [hlandings, hwritten] at hread
  rw [hwritten]
  exact ⟨hsized, rfl, hread⟩

end Item
end ChainScript.Wire
