import ChainScript.Proofs.Assembly.Structured
import ChainScript.Proofs.Machine.Replay
import ChainScript.Proofs.Text.Unambiguous

/-! How values come to a callee. Replaying the instructions that load a value leaves it in its
register, whatever its shape, with everything in lower registers as it was, so an array in the
making survives the loading of its items. Arguments end on the stack with the first on top. -/
namespace ChainScript
open Machine

namespace Value

def data? : Value → Option Bytes
  | text s | number s => (Text.SingleByte.encode s).toOption
  | bool b => some [if b then 1 else 0]
  | time t => some t.encode
  | bytes data => some data
  | enum n => some (Wire.leBytes 4 n.toNat)
  | array _ => none

def key (index : Nat) : Bytes := (toString index).toList.map fun c => c.toNat.toUInt8

mutual

/-- What a value is in a register. An array is a struct with its items under 0, 1, 2, … -/
def cell? : Value → Option Cell
  | array items => do return .struct (← fields? 0 items)
  | v => do return .datum v.type (← v.data?)

def fields? (index : Nat) : List Value → Option (List (Bytes × Cell))
  | [] => some []
  | v :: vs => do return (key index, ← cell? v) :: (← fields? (index + 1) vs)

end

theorem encode_toString (index : Nat) :
    Text.SingleByte.encode (toString index) = .ok (key index) := by
  refine Text.SingleByte.encode_eq_ok_iff.2 ⟨fun c hc => ?_, rfl⟩
  rw [Nat.toString_eq_repr, Nat.toList_repr] at hc
  have hdigit : c.isDigit := Nat.isDigit_of_mem_toDigits (by decide) (by decide) hc
  simp only [Char.isDigit, Bool.and_eq_true, decide_eq_true_eq] at hdigit
  have hle : c.toNat ≤ 57 := hdigit.2
  simp only [Text.SingleByte.fits, decide_eq_true_eq]
  omega

theorem key_injective {i j : Nat} (h : key i = key j) : i = j := by
  have hi := Text.SingleByte.decode_encode (encode_toString i)
  have hj := Text.SingleByte.decode_encode (encode_toString j)
  refine Text.repr_inj.1 ?_
  rw [← Nat.toString_eq_repr, ← Nat.toString_eq_repr, ← hi, ← hj, h]

end Value

def Piece.step (s : State) : Piece → Option State
  | .instr i => i.step s
  | _ => none

/-- Only what consists of instructions can be replayed. -/
theorem Piece.exists_instrs {ps : List Piece} {s s' : State}
    (h : ps.foldlM Piece.step s = some s') : ∃ is : List Instr, ps = is.map Piece.instr := by
  induction ps generalizing s with
  | nil => exact ⟨[], rfl⟩
  | cons p ps ih =>
    rw [List.foldlM_cons] at h
    obtain ⟨next, hnext, hrest⟩ := Option.bind_eq_some_iff.1 h
    obtain ⟨is, rfl⟩ := ih hrest
    cases p with
    | instr i => exact ⟨i :: is, rfl⟩
    | _ => cases hnext

namespace Emission

def replay (e : Emission) (s : State) : Option State := e.pieces.foldlM Piece.step s

theorem replay_append {a b : Emission} (h : a.refusal = none) (s : State) :
    (a ++ b).replay s = (a.replay s).bind b.replay := by
  rw [replay, pieces_append h]
  exact List.foldlM_append

theorem replay_of_instrs {e : Emission} {is : List Instr} (h : e.pieces = is.map Piece.instr)
    (s : State) : e.replay s = Machine.replay is s := by
  rw [replay, h]
  exact List.foldlM_map

theorem replay_instr (i : Instr) (s : State) : (instr i).replay s = i.step s := by
  change (i.step s).bind some = _
  cases i.step s <;> rfl

/-- A register gets its value. Lower registers and the stack stay as they were. -/
structure Loads (r : Reg) (c : Cell) (s s' : State) : Prop where
  result : s'.regs r = c
  below : ∀ q : Reg, q.toNat < r.toNat → s'.regs q = s.regs q
  stack : s'.stack = s.stack

theorem loads_set (r : Reg) (c : Cell) (s : State) : Loads r c s (s.set r c) where
  result := s.regs_set_self r c
  below _ hq := s.regs_set_of_ne (fun h => Nat.lt_irrefl _ (h ▸ hq)) c
  stack := rfl

theorem Loads.trans {r : Reg} {c c' : Cell} {s s' s'' : State} (h : Loads r c s s')
    (h' : Loads r c' s' s'') : Loads r c' s s'' where
  result := h'.result
  below q hq := (h'.below q hq).trans (h.below q hq)
  stack := h'.stack.trans h.stack

theorem loadBytes_eq {r : Reg} {data : Bytes} {ty : TypeTag}
    (h : (loadBytes r data ty).refusal = none) :
    loadBytes r data ty = instr (.load r ty data) := by
  rw [loadBytes] at h ⊢
  by_cases hlimit : data.length ≤ loadLimit
  · rw [if_pos hlimit]
  · rw [if_neg hlimit] at h
    cases h

theorem replay_loadBytes {r : Reg} {data : Bytes} {ty : TypeTag} (hr : r.toNat < registerCount)
    (h : (loadBytes r data ty).refusal = none) (s : State) :
    ∃ s', (loadBytes r data ty).replay s = some s' ∧ Loads r (.datum ty data) s s' := by
  refine ⟨s.set r (.datum ty data), ?_, loads_set r _ s⟩
  rw [loadBytes_eq h, replay_instr, Instr.step_load hr]

theorem replay_loadText {r : Reg} {text : String} (hr : r.toNat < registerCount)
    (h : (loadText r text).refusal = none) :
    ∃ data, Text.SingleByte.encode text = .ok data ∧
      ∀ s, ∃ s', (loadText r text).replay s = some s' ∧ Loads r (.datum .string data) s s' := by
  rw [loadText] at h ⊢
  cases hdata : Text.SingleByte.encode text with
  | error c =>
    rw [hdata] at h
    cases h
  | ok data =>
    rw [hdata] at h
    exact ⟨data, rfl, replay_loadBytes hr h⟩

def storeItem (r : Reg) (index : Nat) (v : Value) : Emission :=
  load (r + 1) v ++ (loadText (r + 2) (toString index) ++ instr (.put (r + 1) r (r + 2)))

theorem loadItems_cons (r : Reg) (index : Nat) (v : Value) (vs : List Value) :
    loadItems r index (v :: vs) = storeItem r index v ++ loadItems r (index + 1) vs := by
  rw [loadItems, storeItem, append_assoc, append_assoc]

theorem toNat_above {r n : Reg} (h : r.toNat + n.toNat < registerCount) :
    (r + n).toNat = r.toNat + n.toNat := by
  rw [UInt8.toNat_add]
  exact Nat.mod_eq_of_lt (Nat.lt_trans h (by decide))

/-- Loading the item keeps the struct, and loading its key keeps both. -/
theorem replay_storeItem {r : Reg} {index : Nat} {v : Value} {c : Cell}
    (hroom : r.toNat + 2 < registerCount) (h : (storeItem r index v).refusal = none)
    (hload : ∀ s, ∃ s', (load (r + 1) v).replay s = some s' ∧ Loads (r + 1) c s s')
    (s : State) {fields : List (Bytes × Cell)} (hstruct : s.regs r = .struct fields)
    (hfresh : ∀ field ∈ fields, field.1 ≠ Value.key index) :
    ∃ s', (storeItem r index v).replay s = some s' ∧
      Loads r (.struct (fields ++ [(Value.key index, c)])) s s' := by
  have habove : (r + 1).toNat = r.toNat + 1 := toNat_above (n := 1) (Nat.lt_of_succ_lt hroom)
  have hfurther : (r + 2).toNat = r.toNat + 2 := toNat_above (n := 2) hroom
  obtain ⟨hv, h⟩ := refusal_append_eq_none.1 h
  obtain ⟨hk, -⟩ := refusal_append_eq_none.1 h
  obtain ⟨data, hdata, hloadKey⟩ := replay_loadText (by omega) hk
  rw [Value.encode_toString] at hdata
  obtain rfl := Except.ok.inj hdata
  obtain ⟨s₁, hs₁, hvalue⟩ := hload s
  obtain ⟨s₂, hs₂, hname⟩ := hloadKey s₁
  have hkept : s₂.regs r = .struct fields := by
    rw [hname.below r (by omega), hvalue.below r (by omega), hstruct]
  have hput : (Instr.put (r + 1) r (r + 2)).step s₂ = _ :=
    Instr.step_put (by omega) (by omega) (by omega) hkept hname.result
  rw [hname.below (r + 1) (by omega), hvalue.result, Cell.store_of_fresh hfresh] at hput
  refine ⟨_, ?_, State.regs_set_self s₂ r _, fun q hq => ?_, ?_⟩
  · rw [storeItem, replay_append hv, hs₁, Option.bind_some, replay_append hk, hs₂,
      Option.bind_some, replay_instr, hput]
  · rw [(loads_set r _ s₂).below q hq, hname.below q (by omega), hvalue.below q (by omega)]
  · rw [State.stack_set, hname.stack, hvalue.stack]

mutual

theorem replay_load {r : Reg} (v : Value) (hr : r.toNat < registerCount)
    (h : (load r v).refusal = none) :
    ∃ c, v.cell? = some c ∧ ∀ s, ∃ s', (load r v).replay s = some s' ∧ Loads r c s s' := by
  cases v with
  | text text | number text =>
    obtain ⟨data, hdata, hreplay⟩ := replay_loadText hr h
    refine ⟨.datum .string data, ?_, hreplay⟩
    simp [Value.cell?, Value.data?, Value.type, hdata, Except.toOption]
  | bool | time | bytes | enum =>
    exact ⟨_, rfl, replay_loadBytes hr h⟩
  | array items =>
    rw [load] at h ⊢
    by_cases hroom : r.toNat + 2 < registerCount
    · rw [if_pos hroom] at h ⊢
      obtain ⟨-, hitems⟩ := refusal_append_eq_none.1 h
      obtain ⟨fields, hfields, hreplay⟩ := replay_loadItems 0 items hroom hitems
      refine ⟨.struct fields, by simp [Value.cell?, hfields], fun s => ?_⟩
      obtain ⟨s', hs', hloads⟩ :=
        hreplay (s.set r (.struct [])) (s.regs_set_self r (.struct [])) (by simp)
      refine ⟨s', ?_, (loads_set r _ s).trans hloads⟩
      rw [replay_append rfl, replay_instr, Instr.step_clear hr, Option.bind_some, hs']
    · rw [if_neg hroom] at h
      cases h

/-- Items go into the struct behind the fields that are there, as long as these have the keys of
smaller indices. -/
theorem replay_loadItems {r : Reg} (index : Nat) (items : List Value)
    (hroom : r.toNat + 2 < registerCount) (h : (loadItems r index items).refusal = none) :
    ∃ new, Value.fields? index items = some new ∧
      ∀ s {fields}, s.regs r = .struct fields →
        (∀ field ∈ fields, ∃ i, i < index ∧ field.1 = Value.key i) →
        ∃ s', (loadItems r index items).replay s = some s' ∧
          Loads r (.struct (fields ++ new)) s s' := by
  cases items with
  | nil =>
    refine ⟨[], rfl, fun s fields hstruct _ => ⟨s, rfl, ?_, fun _ _ => rfl, rfl⟩⟩
    rw [hstruct, List.append_nil]
  | cons v vs =>
    rw [loadItems_cons] at h ⊢
    obtain ⟨hitem, hvs⟩ := refusal_append_eq_none.1 h
    have hr : (r + 1).toNat < registerCount := by
      have habove : (r + 1).toNat = r.toNat + 1 := toNat_above (n := 1) (Nat.lt_of_succ_lt hroom)
      omega
    obtain ⟨c, hc, hload⟩ := replay_load v hr (refusal_append_eq_none.1 hitem).1
    obtain ⟨new, hnew, hreplay⟩ := replay_loadItems (index + 1) vs hroom hvs
    refine ⟨(Value.key index, c) :: new, by simp [Value.fields?, hc, hnew], ?_⟩
    intro s fields hstruct hkeys
    have hfresh : ∀ field ∈ fields, field.1 ≠ Value.key index := by
      intro field hfield he
      obtain ⟨i, hi, hfirst⟩ := hkeys field hfield
      have hsame : i = index := Value.key_injective (hfirst.symm.trans he)
      omega
    obtain ⟨s₁, hs₁, hstored⟩ := replay_storeItem hroom hitem hload s hstruct hfresh
    have hnext : ∀ field ∈ fields ++ [(Value.key index, c)],
        ∃ i, i < index + 1 ∧ field.1 = Value.key i := by
      intro field hfield
      rcases List.mem_append.1 hfield with hold | hlast
      · obtain ⟨i, hi, hfirst⟩ := hkeys field hold
        exact ⟨i, by omega, hfirst⟩
      · rw [List.mem_singleton.1 hlast]
        exact ⟨index, by omega, rfl⟩
    obtain ⟨s', hs', hloads⟩ := hreplay s₁ hstored.result hnext
    rw [List.append_assoc, List.singleton_append] at hloads
    refine ⟨s', ?_, hstored.trans hloads⟩
    rw [replay_append hitem, hs₁, Option.bind_some, hs']

end

/-- Each value ends on top of those that were pushed before it. -/
theorem replay_pushValues (vs : List Value) (h : (pushValues vs).refusal = none) :
    ∃ cells : List Cell, vs.map Value.cell? = cells.map some ∧
      ∀ s, ∃ s', (pushValues vs).replay s = some s' ∧ s'.stack = cells.reverse ++ s.stack := by
  induction vs with
  | nil => exact ⟨[], rfl, fun s => ⟨s, rfl, rfl⟩⟩
  | cons v vs ih =>
    obtain ⟨hpush, hrest⟩ := refusal_append_eq_none.1 h
    obtain ⟨hv, -⟩ := refusal_append_eq_none.1 hpush
    obtain ⟨c, hc, hload⟩ := replay_load (r := 0) v (by decide) hv
    obtain ⟨cells, hcells, hreplay⟩ := ih hrest
    refine ⟨c :: cells, by rw [List.map_cons, List.map_cons, hc, hcells], fun s => ?_⟩
    obtain ⟨s₁, hs₁, hloads⟩ := hload s
    obtain ⟨s', hs', hstack⟩ := hreplay (s₁.push (s₁.regs 0))
    refine ⟨s', ?_, ?_⟩
    · have hone : (pushValue v).replay s = some (s₁.push (s₁.regs 0)) := by
        rw [pushValue, replay_append hv, hs₁, Option.bind_some, replay_instr,
          Instr.step_push (by decide)]
      rw [pushValues, replay_append hpush, hone, Option.bind_some, hs']
    · rw [hstack, List.reverse_cons, List.append_assoc, List.singleton_append, State.push,
        hloads.result, hloads.stack]

theorem pushValues_append (vs ws : List Value) :
    pushValues (vs ++ ws) = pushValues vs ++ pushValues ws := by
  induction vs with
  | nil => rfl
  | cons v vs ih => rw [List.cons_append, pushValues, pushValues, ih, append_assoc]

end Emission

namespace Invocation

/-- What a callee finds on the stack, from the top. A contract gets the name of the method first. -/
def pushed : Invocation → List Value
  | contract _ method args => .text method :: args
  | interop _ args => args

def subject : Invocation → String
  | contract name _ _ => name
  | interop method _ => method

def entry : Invocation → List Instr
  | contract .. => [.ctx 0 1, .switch 1]
  | interop .. => [.extcall 0]

def prepared (i : Invocation) : Emission :=
  .pushValues i.pushed.reverse ++ .loadText 0 i.subject

theorem emission_eq (i : Invocation) :
    Emission.invoke i = i.prepared ++ ⟨i.entry.map Piece.instr, none⟩ := by
  rw [prepared, Emission.append_assoc]
  cases i with
  | contract name method args =>
    rw [pushed, List.reverse_cons, Emission.pushValues_append, Emission.pushValues,
      Emission.pushValue, Emission.append_assoc, Emission.append_assoc, Emission.append_assoc]
    rfl
  | interop method args => rfl

theorem replay_entry (i : Invocation) (s : State) : replay i.entry s = some s := by
  cases i <;> rfl

theorem replay_prepared {i : Invocation} (h : i.prepared.refusal = none) :
    ∃ (cells : List Cell) (named : Cell), i.pushed.map Value.cell? = cells.map some ∧
      (Value.text i.subject).cell? = some named ∧
      ∀ s, ∃ s', i.prepared.replay s = some s' ∧ s'.stack = cells ++ s.stack ∧
        s'.regs 0 = named := by
  obtain ⟨hpush, hname⟩ := Emission.refusal_append_eq_none.1 h
  obtain ⟨cells, hcells, hpushed⟩ := Emission.replay_pushValues _ hpush
  obtain ⟨named, hnamed, hload⟩ :=
    Emission.replay_load (r := 0) (.text i.subject) (by decide) hname
  refine ⟨cells.reverse, named, ?_, hnamed, fun s => ?_⟩
  · rw [List.map_reverse, ← hcells, List.map_reverse, List.reverse_reverse]
  · obtain ⟨s₁, hs₁, hstack⟩ := hpushed s
    obtain ⟨s', hs', hloads⟩ := hload s₁
    refine ⟨s', ?_, hloads.stack.trans hstack, hloads.result⟩
    rw [prepared, Emission.replay_append hpush, hs₁, Option.bind_some]
    exact hs'

/-- The calling convention. A call that is not refused makes a script that is read back as
instructions, of which the last enter the callee. From whatever state the machine starts, the
callee is entered with its arguments on the stack, the first on top (under the name of the method
for a contract), and with its own name in register 0. -/
theorem replay_disassembled {i : Invocation} {d : Draft}
    (h : Assembly.invoke i Draft.empty = .ok () d) :
    ∃ (code : Bytes) (listing : List (Nat × Instr)) (front : List Instr) (cells : List Cell)
      (named : Cell),
      d.link = .ok code ∧ disassemble code = .ok listing ∧
      listing.map Prod.snd = front ++ i.entry ∧
      i.pushed.map Value.cell? = cells.map some ∧ (Value.text i.subject).cell? = some named ∧
      ∀ s, ∃ s', replay front s = some s' ∧ replay i.entry s' = some s' ∧
        s'.stack = cells ++ s.stack ∧ s'.regs 0 = named := by
  rw [Assembly.emits_invoke i Draft.empty, Emission.outcome] at h
  cases hrefusal : (Emission.invoke i).refusal with
  | some refusal => simp [hrefusal] at h
  | none =>
    rw [hrefusal] at h
    obtain ⟨-, rfl⟩ := EStateM.Result.ok.inj h
    rw [emission_eq] at hrefusal
    obtain ⟨hprepared, -⟩ := Emission.refusal_append_eq_none.1 hrefusal
    obtain ⟨cells, named, hcells, hnamed, hreplay⟩ := replay_prepared hprepared
    obtain ⟨_, hsome, -⟩ := hreplay ⟨fun _ => .struct [], []⟩
    obtain ⟨front, hfront⟩ := Piece.exists_instrs hsome
    have hpieces : (Emission.invoke i).pieces = (front ++ i.entry).map Piece.instr := by
      rw [emission_eq, Emission.pieces_append hprepared, hfront, List.map_append]
    have hwell : ∀ j ∈ front ++ i.entry, j.WellFormed := fun j hj =>
      Emission.wellFormed_invoke i (.instr j) (hpieces ▸ List.mem_map_of_mem hj)
    refine ⟨_, _, front, cells, named, ?_, disassemble_encode hwell, Instr.map_snd_place 0 _,
      hcells, hnamed, fun s => ?_⟩
    · rw [Draft.link_extend, hpieces, TwoPass.assemble_instrs]
    · obtain ⟨s', hs', hstack, hname⟩ := hreplay s
      rw [Emission.replay_of_instrs hfront] at hs'
      exact ⟨s', hs', replay_entry i s', hstack, hname⟩

def mintCall : Invocation :=
  .contract "nft" "mint" [.text "me", .array [.bool true, .array [.enum 7, .bytes [0xCA]]]]

def mintCells : List Cell :=
  [.datum .string [109, 105, 110, 116], .datum .string [109, 101],
    .struct [([48], .datum .bool [1]),
      ([49], .struct [([48], .datum .enum [7, 0, 0, 0]), ([49], .datum .bytes [0xCA])])]]

theorem replay_mintCall : ∃ d, Assembly.invoke mintCall Draft.empty = .ok () d ∧
    ∃ code listing front, d.link = .ok code ∧ disassemble code = .ok listing ∧
      listing.map Prod.snd = front ++ [.ctx 0 1, .switch 1] ∧
      ∀ s, ∃ s', replay front s = some s' ∧ s'.stack = mintCells ++ s.stack ∧
        s'.regs 0 = .datum .string [110, 102, 116] := by
  obtain ⟨d, hd⟩ : ∃ d, Assembly.invoke mintCall Draft.empty = .ok () d := ⟨_, rfl⟩
  obtain ⟨code, listing, front, cells, named, hcode, hlisting, hsnd, hcells, hnamed, hreplay⟩ :=
    replay_disassembled hd
  have hpushed : mintCall.pushed.map Value.cell? = mintCells.map some := rfl
  have hsame : cells = mintCells :=
    (List.map_inj_right fun _ _ => Option.some.inj).1 (hcells.symm.trans hpushed)
  have hsubject : named = .datum .string [110, 102, 116] := Option.some.inj hnamed.symm
  subst hsame hsubject
  refine ⟨d, hd, code, listing, front, hcode, hlisting, hsnd, fun s => ?_⟩
  obtain ⟨s', hs', -, hstack, hname⟩ := hreplay s
  exact ⟨s', hs', hstack, hname⟩

end Invocation
end ChainScript
