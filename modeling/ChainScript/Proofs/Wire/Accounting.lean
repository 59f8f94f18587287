import ChainScript.Proofs.Wire.Shortage
import ChainScript.Wire.Cursor
import ChainScript.Wire.Forward

/-! Reading from memory. As long as a cursor lies within data that a word can count, it reads what
the decoders read, so no step of it is ever outside of what words and memory allow. Every read keeps
the cursor there, also one that fails. -/
namespace ChainScript.Wire

namespace Decoder

theorem Forward.map {d : Decoder α} (g : α → β) (hd : d.Forward) : Forward (g <$> d) :=
  hd.bind fun a => .pure (g a)

theorem forward_request (q : Request) : q.read.Forward := by
  cases q with
  | peek => exact forward_peek.map _
  | u8 => exact forward_byte.map _
  | u16 => exact forward_u16.map _
  | u32 => exact forward_u32.map _
  | u64 => exact forward_u64.map _
  | varInt => exact forward_varInt.map _
  | raw n => exact (forward_take n).map _
  | bytes => exact forward_counted.map _
  | text => exact forward_text.map _
  | natural => exact forward_natural.map _

end Decoder

namespace Cursor

/-- A word counts the data, and the place is one of theirs or their end. -/
structure Sound (c : Cursor) : Prop where
  sized : c.data.length < UInt64.size
  within : c.pos.toNat ≤ c.data.length

def moveTo (c : Cursor) (place : Input) : Cursor := ⟨c.data, place.pos.toUInt64⟩

def carry (c : Cursor) : EStateM.Result Fault Input α → EStateM.Result Halt Cursor α
  | .ok a next => .ok a (c.moveTo next)
  | .error fault last => .error (.fault fault) (c.moveTo last)

variable {c : Cursor}

theorem moveTo_input (c : Cursor) : c.moveTo c.input = c := by
  simp [moveTo, input, Nat.toUInt64]

theorem carry_moveTo (c : Cursor) (place : Input) (r : EStateM.Result Fault Input α) :
    (c.moveTo place).carry r = c.carry r := by
  cases r <;> rfl

theorem length_rest_input (c : Cursor) :
    c.input.rest.length = c.data.length - c.pos.toNat := List.length_drop

theorem get_bind (f : Cursor → Reader α) : (get >>= f) c = f c c := rfl

theorem bind_of_ok {r : Reader α} {f : α → Reader β} {a : α} {next : Cursor}
    (h : r c = .ok a next) : (r >>= f) c = f a next := by
  change EStateM.bind r f c = _
  rw [EStateM.bind, h]

theorem bind_of_halt {r : Reader α} {f : α → Reader β} {halt : Halt} {last : Cursor}
    (h : r c = .error halt last) : (r >>= f) c = .error halt last := by
  change EStateM.bind r f c = _
  rw [EStateM.bind, h]

theorem sound_ofBytes {data : Bytes} (h : data.length < UInt64.size) : (ofBytes data).Sound :=
  ⟨h, Nat.zero_le _⟩

namespace Sound

theorem size_toNat (hc : c.Sound) : c.size.toNat = c.data.length :=
  UInt64.toNat_ofNat_of_lt hc.sized

theorem pos_le_size (hc : c.Sound) : c.pos ≤ c.size := by
  rw [UInt64.le_iff_toNat_le, hc.size_toNat]
  exact hc.within

/-- A place that reading reaches is within the same data. -/
theorem moveTo (hc : c.Sound) {place : Input} (h : c.input.Reaches place) :
    (c.moveTo place).Sound ∧ (c.moveTo place).input = place ∧
      (c.moveTo place).pos.toNat = place.pos ∧ c.pos.toNat ≤ place.pos := by
  obtain ⟨n, hn, rfl⟩ := h
  rw [length_rest_input] at hn
  have hwithin := hc.within
  have hsized := hc.sized
  have hpos : (c.input.advance n).pos.toUInt64.toNat = c.pos.toNat + n :=
    UInt64.toNat_ofNat_of_lt (by simp only [Input.advance, input]; omega)
  refine ⟨⟨hsized, ?_⟩, ?_, hpos, Nat.le_add_right _ _⟩
  · change (c.input.advance n).pos.toUInt64.toNat ≤ c.data.length
    omega
  · change Input.mk (c.input.advance n).pos.toUInt64.toNat
      (c.data.drop (c.input.advance n).pos.toUInt64.toNat) = _
    rw [hpos, ← List.drop_drop]
    rfl

theorem remaining_eq (hc : c.Sound) : remaining c = .ok (c.size - c.pos) c := by
  rw [remaining, get_bind, minus, if_pos hc.pos_le_size]
  rfl

theorem size_sub_toNat (hc : c.Sound) : (c.size - c.pos).toNat = c.input.rest.length := by
  rw [UInt64.toNat_sub_of_le _ _ hc.pos_le_size, hc.size_toNat, length_rest_input]

end Sound

theorem slice_eq {start stop : UInt64} (hstart : start ≤ stop) (hstop : stop ≤ c.size) :
    slice start stop c =
      .ok ((c.data.drop start.toNat).take (stop.toNat - start.toNat)) c := by
  rw [slice, get_bind, if_pos ⟨hstart, hstop⟩]
  rfl

theorem plus_eq {a b : UInt64} (h : a.toNat + b.toNat < UInt64.size) :
    plus a b c = .ok (a + b) c ∧ (a + b).toNat = a.toNat + b.toNat := by
  have hsum : (a + b).toNat = a.toNat + b.toNat := by
    rw [UInt64.toNat_add]
    exact Nat.mod_eq_of_lt h
  have hle : a ≤ a + b := by
    rw [UInt64.le_iff_toNat_le, hsum]
    exact Nat.le_add_right _ _
  rw [plus, if_pos hle]
  exact ⟨rfl, hsum⟩

theorem rest_eq (hc : c.Sound) : rest c = .ok c.input.rest c := by
  rw [Cursor.rest, get_bind, slice_eq hc.pos_le_size (UInt64.le_refl _), hc.size_toNat,
    ← length_rest_input]
  rw [show c.data.drop c.pos.toNat = c.input.rest from rfl, List.take_length]

/-- From any cursor within its data the reader does in memory what the decoder does. -/
def Agrees (r : Reader α) (d : Decoder α) : Prop :=
  ∀ ⦃c : Cursor⦄, c.Sound → r c = c.carry (d c.input)

namespace Agrees

theorem pure (a : α) : Agrees (pure a) (pure a) := fun c _ =>
  congrArg (EStateM.Result.ok a) (moveTo_input c).symm

theorem bind {r : Reader α} {d : Decoder α} {f : α → Reader β} {g : α → Decoder β}
    (hr : Agrees r d) (hd : d.Forward) (hf : ∀ a, Agrees (f a) (g a)) :
    Agrees (r >>= f) (d >>= g) := by
  intro c hc
  change EStateM.bind r f c = c.carry (EStateM.bind d g c.input)
  rw [EStateM.bind, EStateM.bind, hr hc]
  cases hresult : d c.input with
  | error fault last => rfl
  | ok a next =>
    have hreach : c.input.Reaches next := by
      have h := hd c.input
      rwa [hresult] at h
    obtain ⟨hsound, hinput, -⟩ := hc.moveTo hreach
    have hnext := hf a hsound
    rwa [hinput, carry_moveTo] at hnext

theorem map {r : Reader α} {d : Decoder α} (g : α → β) (hr : Agrees r d) (hd : d.Forward) :
    Agrees (g <$> r) (g <$> d) :=
  hr.bind hd fun a => .pure (g a)

end Agrees

open Decoder

theorem take_enough {n : Nat} {input : Input} (h : n ≤ input.rest.length) :
    Decoder.take n input = .ok (input.rest.take n) (input.advance n) := by
  rw [Decoder.take, if_pos (List.length_take_of_le h)]

/-- Where enough is left the sum fits into a word, since it counts bytes of the data. -/
theorem take_eq_ok {n : UInt64} (hc : c.Sound) (h : n.toNat ≤ c.input.rest.length) :
    take n c = .ok (c.input.rest.take n.toNat) ⟨c.data, c.pos + n⟩ ∧
      (c.pos + n).toNat = c.pos.toNat + n.toNat := by
  have hleft := hc.size_sub_toNat
  have hrest := length_rest_input c
  have hwithin := hc.within
  have hsized := hc.sized
  have hlong : ¬ c.size - c.pos < n := by
    rw [UInt64.lt_iff_toNat_lt, hleft]
    exact Nat.not_lt_of_le h
  obtain ⟨hplus, hstop⟩ := plus_eq (c := c) (a := c.pos) (b := n) (by omega)
  have hstart : c.pos ≤ c.pos + n := by
    rw [UInt64.le_iff_toNat_le, hstop]
    exact Nat.le_add_right _ _
  have hend : c.pos + n ≤ size ⟨c.data, c.pos + n⟩ := by
    have hsize : (size ⟨c.data, c.pos + n⟩).toNat = c.data.length := hc.size_toNat
    rw [UInt64.le_iff_toNat_le, hsize, hstop]
    omega
  refine ⟨?_, hstop⟩
  rw [take, bind_of_ok hc.remaining_eq, if_neg hlong, get_bind, bind_of_ok hplus]
  change slice c.pos (c.pos + n) ⟨c.data, c.pos + n⟩ = _
  rw [slice_eq hstart hend, hstop, Nat.add_sub_cancel_left]
  rfl

theorem agrees_take (n : UInt64) : Agrees (take n) (Decoder.take n.toNat) := by
  intro c hc
  by_cases h : n.toNat ≤ c.input.rest.length
  · obtain ⟨htake, hstop⟩ := take_eq_ok hc h
    have hword : (c.input.pos + n.toNat).toUInt64 = c.pos + n := by
      change (c.pos.toNat + n.toNat).toUInt64 = _
      rw [← hstop]
      exact UInt64.ofNat_toNat
    rw [htake, take_enough h, ← hword]
    rfl
  · have hleft := hc.size_sub_toNat
    have hshort : c.size - c.pos < n := by
      rw [UInt64.lt_iff_toNat_lt, hleft]
      exact Nat.lt_of_not_le h
    rw [take_short (Nat.lt_of_not_le h), ← hleft, take, bind_of_ok hc.remaining_eq, if_pos hshort]
    exact congrArg (EStateM.Result.error _) (moveTo_input c).symm

/-- What was taken fills the place that has room for as much. -/
theorem array_eq_take (hc : c.Sound) (n : UInt64) : array n c = take n c := by
  by_cases h : n.toNat ≤ c.input.rest.length
  · have htake := (take_eq_ok hc h).1
    rw [array, bind_of_ok htake, htake, if_pos (List.length_take_of_le h)]
    rfl
  · have htake := agrees_take n hc
    rw [take_short (Nat.lt_of_not_le h)] at htake
    exact (bind_of_halt htake).trans htake.symm

theorem agrees_array (n : UInt64) : Agrees (array n) (Decoder.take n.toNat) := fun _ hc =>
  (array_eq_take hc n).trans (agrees_take n hc)

theorem agrees_byte : Agrees byte Decoder.byte := by
  intro c hc
  change EStateM.bind (take 1) _ c = _
  rw [EStateM.bind, agrees_take 1 hc, Decoder.byte]
  cases hrest : c.input.rest with
  | nil =>
    rw [take_short (by rw [hrest]; decide), hrest]
    rfl
  | cons b rest =>
    rw [take_enough (by rw [hrest]; exact Nat.succ_le_succ (Nat.zero_le _)), hrest]
    rfl

theorem agrees_peek : Agrees peek Decoder.peek := by
  intro c hc
  have hhead : c.data[c.pos.toNat]? = c.input.rest.head? := List.head?_drop.symm
  rw [Cursor.peek, get_bind, hhead, Decoder.peek]
  cases hrest : c.input.rest with
  | nil => exact congrArg (EStateM.Result.error _) (moveTo_input c).symm
  | cons b rest => exact congrArg (EStateM.Result.ok b) (moveTo_input c).symm

theorem agrees_u16 : Agrees u16 Decoder.u16 := (agrees_array 2).map _ (forward_take 2)
theorem agrees_u32 : Agrees u32 Decoder.u32 := (agrees_array 4).map _ (forward_take 4)
theorem agrees_u64 : Agrees u64 Decoder.u64 := (agrees_array 8).map _ (forward_take 8)

theorem agrees_varInt : Agrees varInt VarInt.read := by
  refine agrees_byte.bind forward_byte fun tag => ?_
  split
  · exact agrees_u16.map _ forward_u16
  · split
    · exact agrees_u32.map _ forward_u32
    · split
      · exact agrees_u64
      · exact .pure _

theorem agrees_counted : Agrees counted Decoder.counted :=
  agrees_varInt.bind forward_varInt agrees_take

theorem agrees_text : Agrees text Decoder.text := agrees_counted.map _ forward_counted
theorem agrees_natural : Agrees natural Decoder.natural := agrees_counted.map _ forward_counted

end Cursor

def Request.Sized : Request → Prop
  | raw n => n < UInt64.size
  | _ => True

namespace Cursor
open Decoder

variable {c : Cursor} {q : Request}

theorem agrees_read (hq : q.Sized) : Agrees (read q) q.read := by
  cases q with
  | peek => exact agrees_peek.map _ forward_peek
  | u8 => exact agrees_byte.map _ forward_byte
  | u16 => exact agrees_u16.map _ forward_u16
  | u32 => exact agrees_u32.map _ forward_u32
  | u64 => exact agrees_u64.map _ forward_u64
  | varInt => exact agrees_varInt.map _ forward_varInt
  | raw n =>
    have hn : n.toUInt64.toNat = n := UInt64.toNat_ofNat_of_lt hq
    have htake := agrees_take n.toUInt64
    rw [hn] at htake
    exact htake.map _ (forward_take n)
  | bytes => exact agrees_counted.map _ forward_counted
  | text => exact agrees_text.map _ forward_text
  | natural => exact agrees_natural.map _ forward_natural

theorem stop_carry (c : Cursor) (r : EStateM.Result Fault Input α) :
    stop (c.carry r) = c.moveTo (stop r) := by
  cases r <;> rfl

/-- A read leaves the cursor in the same data, and no further to the front. -/
theorem Sound.read (hc : c.Sound) (hq : q.Sized) :
    (stop (read q c)).Sound ∧ (stop (read q c)).data = c.data ∧ c.pos ≤ (stop (read q c)).pos := by
  obtain ⟨hsound, -, hpos, hle⟩ := hc.moveTo (forward_request q c.input)
  rw [agrees_read hq hc, stop_carry]
  exact ⟨hsound, rfl, by rwa [UInt64.le_iff_toNat_le, hpos]⟩

/-- Where the cursor stands after some reads, whether they gave values or not. -/
def after (c : Cursor) (run : List Request) : Cursor :=
  run.foldl (fun c q => stop (Cursor.read q c)) c

theorem Sound.after {run : List Request} (hc : c.Sound) (hrun : ∀ q ∈ run, q.Sized) :
    (c.after run).Sound ∧ (c.after run).data = c.data := by
  induction run generalizing c with
  | nil => exact ⟨hc, rfl⟩
  | cons q run ih =>
    obtain ⟨hsound, hdata, -⟩ := hc.read (hrun q (by simp))
    have hrest := ih hsound fun q hq => hrun q (by simp [hq])
    rwa [hdata] at hrest

/-- The only way in which a read can fail is that the data are cut. -/
theorem read_eq_error_iff (hc : c.Sound) (hq : q.Sized) {halt : Halt} {last : Cursor} :
    read q c = .error halt last ↔ ∃ wanted moved, q.Cut (c.data.drop c.pos.toNat) wanted moved ∧
      last.data = c.data ∧ last.pos.toNat = c.pos.toNat + moved ∧
      c.data.length - last.pos.toNat < wanted ∧
      halt = .fault (.truncated wanted (c.data.length - last.pos.toNat)) := by
  have hrest := length_rest_input c
  have hplace {wanted moved} (hcut : q.Cut c.input.rest wanted moved) :
      (c.moveTo (c.input.advance moved)).pos.toNat = c.pos.toNat + moved :=
    (hc.moveTo ⟨moved, hcut.moved_le, rfl⟩).2.2.1
  have hleft {moved} : c.data.length - (c.pos.toNat + moved) = c.input.rest.length - moved := by
    omega
  rw [agrees_read hq hc]
  constructor
  · intro h
    cases hresult : q.read c.input with
    | ok item next => rw [hresult] at h; cases h
    | error fault place =>
      rw [hresult] at h
      obtain ⟨wanted, moved, hcut, rfl, rfl⟩ := Request.read_eq_error_iff.1 hresult
      cases h
      refine ⟨wanted, moved, hcut, rfl, hplace hcut, ?_, ?_⟩
      · rw [hplace hcut, hleft]
        exact hcut.lt_wanted
      · rw [hplace hcut, hleft]
  · rintro ⟨wanted, moved, hcut, hdata, hpos, -, rfl⟩
    have hlast : last = c.moveTo (c.input.advance moved) := by
      obtain ⟨data, pos⟩ := last
      obtain rfl : data = c.data := hdata
      have hword := UInt64.toNat_inj.1 (hpos.trans (hplace hcut).symm)
      exact congrArg _ hword
    rw [Request.read_eq_error_iff.2 ⟨wanted, moved, hcut, rfl, rfl⟩, hpos, hleft, hlast]
    rfl

theorem peek_eq (hc : c.Sound) :
    peek c = match byte c with
      | .ok b _ => .ok b c
      | .error halt _ => .error halt c := by
  rw [agrees_peek hc, agrees_byte hc, Decoder.peek, Decoder.byte]
  cases c.input.rest with
  | nil => exact congrArg (EStateM.Result.error _) (moveTo_input c)
  | cons b rest => exact congrArg (EStateM.Result.ok b) (moveTo_input c)

/-- What a cursor has to do with the data it was set on, and with all reads from where it is. -/
structure Accounts (data : Bytes) (c : Cursor) : Prop where
  same : c.data = data
  within : c.pos.toNat ≤ data.length
  left : ∃ n, remaining c = .ok n c ∧ c.pos.toNat + n.toNat = data.length
  rest : Cursor.rest c = .ok (data.drop c.pos.toNat) c
  peek : Cursor.peek c = match byte c with
    | .ok b _ => .ok b c
    | .error halt _ => .error halt c
  /-- Bytes for a place with room for them never fail to fill it. -/
  array : ∀ n, Cursor.array n c = take n c
  forward : ∀ q : Request, q.Sized → c.pos ≤ (stop (read q c)).pos
  agrees : ∀ q : Request, q.Sized → read q c = c.carry (q.read c.input)
  fails : ∀ q : Request, q.Sized → ∀ halt last, read q c = .error halt last ↔
    ∃ wanted moved, q.Cut (data.drop c.pos.toNat) wanted moved ∧ last.data = data ∧
      last.pos.toNat = c.pos.toNat + moved ∧ data.length - last.pos.toNat < wanted ∧
      halt = .fault (.truncated wanted (data.length - last.pos.toNat))

/-- However a cursor was used, and whatever failed on the way, it accounts for all of the data. -/
theorem accounts_after {data : Bytes} {run : List Request} (hdata : data.length < UInt64.size)
    (hrun : ∀ q ∈ run, q.Sized) : Accounts data ((ofBytes data).after run) := by
  obtain ⟨hsound, hsame⟩ := (sound_ofBytes hdata).after hrun
  generalize (ofBytes data).after run = c at hsound hsame
  obtain rfl : c.data = data := hsame
  exact {
    same := rfl
    within := hsound.within
    left := by
      refine ⟨_, hsound.remaining_eq, ?_⟩
      rw [hsound.size_sub_toNat, length_rest_input]
      exact Nat.add_sub_cancel' hsound.within
    rest := rest_eq hsound
    peek := peek_eq hsound
    array := array_eq_take hsound
    forward := fun _ hq => (hsound.read hq).2.2
    agrees := fun _ hq => agrees_read hq hsound
    fails := fun _ hq _ _ => read_eq_error_iff hsound hq }

/-- Two bytes under a length in a longer form than needed, of which one is missing. The largest
length there is stands behind that. -/
theorem accounts_cut_bytes :
    ([0xFD, 2, 0, 7] : Bytes).length < UInt64.size ∧
    (∀ q ∈ [Request.bytes, .u64], q.Sized) ∧
    (ofBytes [0xFD, 2, 0, 7]).after [.bytes, .u64] = ⟨[0xFD, 2, 0, 7], 3⟩ ∧
    Accounts [0xFD, 2, 0, 7] ⟨[0xFD, 2, 0, 7], 3⟩ ∧
    read (.raw 0xFFFFFFFFFFFFFFFF) ⟨[0xFD, 2, 0, 7], 3⟩ =
      .error (.fault (.truncated 0xFFFFFFFFFFFFFFFF 1)) ⟨[0xFD, 2, 0, 7], 3⟩ := by
  have hdata : ([0xFD, 2, 0, 7] : Bytes).length < UInt64.size := by decide
  have hrun : ∀ q ∈ [Request.bytes, .u64], q.Sized := by simp [Request.Sized]
  have hplace : (ofBytes [0xFD, 2, 0, 7]).after [.bytes, .u64] = ⟨[0xFD, 2, 0, 7], 3⟩ := by
    decide +kernel
  have haccounts := accounts_after hdata hrun
  rw [hplace] at haccounts
  have hcut : (Request.raw 0xFFFFFFFFFFFFFFFF).Cut [7] 0xFFFFFFFFFFFFFFFF 0 :=
    .atOnce (by decide)
  have hsized : (Request.raw 0xFFFFFFFFFFFFFFFF).Sized := by
    rw [Request.Sized, UInt64.size]
    decide
  exact ⟨hdata, hrun, hplace, haccounts,
    (haccounts.fails _ hsized _ _).2 ⟨_, _, hcut, rfl, rfl, by decide, rfl⟩⟩

end Cursor
end ChainScript.Wire
