import ChainScript.Proofs.Assembly.TwoPass
import ChainScript.Proofs.Machine.Disassembly

/-! Scripts written by whole instructions. As long as no bare bytes go into a script, its pieces are
instructions also where a call was refused half-way, and disassembling finds just them. -/
namespace ChainScript
open Machine

namespace Piece

def instr? (d : Draft) : Piece → Option Instr
  | raw _ => none
  | instr i => some i
  | label _ => some .nop
  | branch b name =>
    match d.target name with
    | .ok target => some (b.instr target)
    | .error _ => none

def WellFormed : Piece → Prop
  | raw _ => False
  | instr i => i.WellFormed
  | label _ | branch .. => True

theorem labelOffset?_of_target {d : Draft} {name : String} {target : UInt16}
    (h : d.target name = .ok target) : d.labelOffset? name = some target.toNat := by
  rw [Draft.target] at h
  cases hname : d.labelOffset? name with
  | none => simp [hname] at h
  | some offset =>
    by_cases hle : offset ≤ targetLimit
    · simp only [hname, hle, if_true, Except.ok.injEq] at h
      rw [← h, Draft.toNat_toUInt16 hle]
    · simp [hname, hle] at h

theorem image_of_instr? {d : Draft} {p : Piece} {i : Instr} (h : p.instr? d = some i) :
    TwoPass.image d.labelOffset? p = i.encode := by
  cases p with
  | raw bytes => cases h
  | instr j =>
    cases h
    rfl
  | label name =>
    cases h
    rfl
  | branch b name =>
    unfold instr? at h
    cases htarget : d.target name with
    | error refusal => simp [htarget] at h
    | ok target =>
      simp only [htarget, Option.some.injEq] at h
      rw [← h, Branch.encode_instr, TwoPass.image, labelOffset?_of_target htarget, Option.getD_some]

theorem length_encode {d : Draft} {p : Piece} {i : Instr} (h : p.instr? d = some i) :
    i.encode.length = p.size := by
  rw [← image_of_instr? h, TwoPass.length_image]

theorem exists_instr? {d : Draft} {p : Piece} (hp : p.WellFormed)
    (hfault : TwoPass.fault? d.labelOffset? p = none) :
    ∃ i, p.instr? d = some i ∧ i.WellFormed := by
  cases p with
  | raw bytes => exact hp.elim
  | instr i => exact ⟨i, rfl, hp⟩
  | label name => exact ⟨.nop, rfl, Instr.wellFormed_of_bare⟩
  | branch b name =>
    have htarget := d.target_eq name
    have hnone : TwoPass.unresolved? d.labelOffset? name = none := hfault
    rw [hnone] at htarget
    refine ⟨b.instr _, by rw [instr?, htarget], ?_⟩
    cases b <;> exact Instr.wellFormed_of_bare

/-- Every piece is an instruction of the finished draft, in the order of the list. -/
def Resolved (d : Draft) (ps : List Piece) (is : List Instr) : Prop :=
  ps.map (instr? d) = is.map some

theorem exists_resolved {d : Draft} {ps : List Piece} (hps : ∀ p ∈ ps, p.WellFormed)
    (hfault : ∀ p ∈ ps, TwoPass.fault? d.labelOffset? p = none) :
    ∃ is, Resolved d ps is ∧ ∀ i ∈ is, i.WellFormed := by
  induction ps with
  | nil => exact ⟨[], rfl, by simp⟩
  | cons p ps ih =>
    obtain ⟨i, hi, hwell⟩ := exists_instr? (hps p List.mem_cons_self) (hfault p List.mem_cons_self)
    obtain ⟨is, his, hwells⟩ := ih (fun q hq => hps q (List.mem_cons_of_mem p hq))
      (fun q hq => hfault q (List.mem_cons_of_mem p hq))
    refine ⟨i :: is, ?_, ?_⟩
    · rw [Resolved, List.map_cons, List.map_cons, hi, his]
    · intro j hj
      rcases List.mem_cons.1 hj with rfl | hj
      · exact hwell
      · exact hwells j hj

theorem Resolved.append {d : Draft} {ps qs : List Piece} {is js : List Instr}
    (hp : Resolved d ps is) (hq : Resolved d qs js) : Resolved d (ps ++ qs) (is ++ js) := by
  rw [Resolved, List.map_append, List.map_append, hp, hq]

theorem Resolved.unique {d : Draft} {ps : List Piece} {is js : List Instr}
    (hi : Resolved d ps is) (hj : Resolved d ps js) : is = js :=
  (List.map_inj_right fun _ _ => Option.some.inj).1 (hi.symm.trans hj)

theorem Resolved.of_append {d : Draft} {ps qs : List Piece} {is : List Instr}
    (h : Resolved d (ps ++ qs) is) :
    ∃ front back, is = front ++ back ∧ Resolved d ps front ∧ Resolved d qs back := by
  rw [Resolved, List.map_append] at h
  obtain ⟨front, back, rfl, hfront, hback⟩ := List.map_eq_append_iff.1 h.symm
  exact ⟨front, back, rfl, hfront.symm, hback.symm⟩

theorem Resolved.of_cons {d : Draft} {p : Piece} {ps : List Piece} {is : List Instr}
    (h : Resolved d (p :: ps) is) :
    ∃ i back, is = i :: back ∧ p.instr? d = some i ∧ Resolved d ps back := by
  rw [Resolved, List.map_cons] at h
  obtain ⟨i, back, rfl, hi, hback⟩ := List.map_eq_cons_iff.1 h.symm
  exact ⟨i, back, rfl, hi.symm, hback.symm⟩

theorem Resolved.flatMap_image {d : Draft} {ps : List Piece} {is : List Instr}
    (h : Resolved d ps is) :
    ps.flatMap (TwoPass.image d.labelOffset?) = is.flatMap Instr.encode := by
  induction ps generalizing is with
  | nil =>
    have hnil : is = [] := List.map_eq_nil_iff.1 h.symm
    subst hnil
    rfl
  | cons p ps ih =>
    obtain ⟨i, back, rfl, hi, hback⟩ := h.of_cons
    rw [List.flatMap_cons, List.flatMap_cons, image_of_instr? hi, ih hback]

/-- What assembling writes for instructions that can be decoded again is their encoding. -/
theorem exists_resolved_of_assemble {ps : List Piece} {code : Bytes}
    (hps : ∀ p ∈ ps, p.WellFormed) (h : TwoPass.assemble ps = .ok code) :
    ∃ is, Resolved (Draft.empty.extend ps) ps is ∧ (∀ i ∈ is, i.WellFormed) ∧
      code = is.flatMap Instr.encode := by
  obtain ⟨hfault, rfl⟩ := TwoPass.assemble_eq_ok_iff.1 h
  rw [← Draft.labelOffset?_extend_empty] at hfault ⊢
  obtain ⟨is, hall, hwell⟩ := exists_resolved hps hfault
  exact ⟨is, hall, hwell, hall.flatMap_image⟩

theorem Resolved.of_finished {d : Draft} {ps : List Piece} {is : List Instr}
    (h : Resolved d (ps ++ [.instr .ret]) is) :
    ∃ instrs, is = instrs ++ [.ret] ∧ Resolved d ps instrs := by
  obtain ⟨instrs, last, rfl, hinstrs, hlast⟩ := h.of_append
  obtain ⟨i, back, rfl, hi, hback⟩ := hlast.of_cons
  have hret : i = .ret := (Option.some.inj hi).symm
  have hend : back = [] := List.map_eq_nil_iff.1 hback.symm
  subst hret hend
  exact ⟨instrs, rfl, hinstrs⟩

theorem Resolved.length_flatMap {d : Draft} {ps : List Piece} {is : List Instr}
    (h : Resolved d ps is) : (is.flatMap Instr.encode).length = total ps := by
  rw [← h.flatMap_image, TwoPass.length_flatMap_image]

end Piece

namespace Draft

def offsets (d : Draft) : List Piece → List Nat
  | [] => []
  | p :: ps => d.offset :: (d.add p).offsets ps

theorem offsets_append (d : Draft) (ps qs : List Piece) :
    d.offsets (ps ++ qs) = d.offsets ps ++ (d.extend ps).offsets qs := by
  induction ps generalizing d with
  | nil => rfl
  | cons p ps ih => exact congrArg (d.offset :: ·) (ih (d.add p))

theorem map_fst_place {d e : Draft} {ps : List Piece} {is : List Instr}
    (h : Piece.Resolved d ps is) : (Instr.place e.offset is).map Prod.fst = e.offsets ps := by
  induction ps generalizing e is with
  | nil =>
    have hnil : is = [] := List.map_eq_nil_iff.1 h.symm
    subst hnil
    rfl
  | cons p ps ih =>
    obtain ⟨i, back, rfl, hi, hback⟩ := h.of_cons
    have hnext := ih hback (e := e.add p)
    rw [offset_add] at hnext
    rw [Instr.place, List.map_cons, Piece.length_encode hi, hnext, offsets]

end Draft

namespace Emission

def WellFormed (e : Emission) : Prop := ∀ p ∈ e.pieces, p.WellFormed

theorem wellFormed_nothing : nothing.WellFormed := by simp [WellFormed, nothing]

theorem wellFormed_refused (refusal : Refusal) : (refused refusal).WellFormed := by
  simp [WellFormed, refused]

theorem wellFormed_one {p : Piece} (h : p.WellFormed) : (one p).WellFormed := by
  simpa [WellFormed, one] using h

theorem wellFormed_instr {i : Instr} (h : i.WellFormed) : (instr i).WellFormed := wellFormed_one h

theorem wellFormed_bare {i : Instr} (hfits : i.Fits := by rfl) (hbare : i.payload = [] := by rfl) :
    (instr i).WellFormed := wellFormed_instr (Instr.wellFormed_of_bare hfits hbare)

theorem WellFormed.append {a b : Emission} (ha : a.WellFormed) (hb : b.WellFormed) :
    (a ++ b).WellFormed := by
  intro p hp
  cases hrefusal : a.refusal with
  | none =>
    rw [pieces_append hrefusal] at hp
    exact (List.mem_append.1 hp).elim (ha p) (hb p)
  | some refusal =>
    rw [append_of_refused hrefusal] at hp
    exact ha p hp

theorem wellFormed_short {i : Instr} (h : i.WellFormed) (ns : List UInt64) :
    (short i ns).WellFormed := by
  induction ns with
  | nil => exact wellFormed_instr h
  | cons n ns ih =>
    rw [short]
    split
    · exact ih
    · exact wellFormed_refused _

theorem wellFormed_jump (o : Opcode) (name : String) (r : Reg) : (jump o name r).WellFormed := by
  rw [jump]
  split
  · exact wellFormed_one trivial
  · exact wellFormed_refused _

theorem wellFormed_conditionalJump (o : Opcode) (r : Reg) (name : String) :
    (conditionalJump o r name).WellFormed := by
  rw [conditionalJump]
  split
  · exact wellFormed_refused _
  · exact wellFormed_jump o name r

theorem wellFormed_call (name : String) (count : UInt8) : (call name count).WellFormed := by
  rw [call]
  split
  · exact wellFormed_one trivial
  · exact wellFormed_refused _

theorem wellFormed_loadBytes (r : Reg) (data : Bytes) (ty : TypeTag) :
    (loadBytes r data ty).WellFormed := by
  rw [loadBytes]
  split
  next h =>
    have hlimit : data.length ≤ 65535 := h
    exact wellFormed_instr ⟨rfl, Nat.lt_of_le_of_lt hlimit (by decide)⟩
  next => exact wellFormed_refused _

theorem wellFormed_loadText (r : Reg) (s : String) : (loadText r s).WellFormed := by
  rw [loadText]
  split
  · exact wellFormed_loadBytes r _ _
  · exact wellFormed_refused _

mutual

theorem wellFormed_load (r : Reg) (v : Value) : (load r v).WellFormed := by
  cases v with
  | text s | number s => exact wellFormed_loadText r s
  | bool | time | bytes | enum => exact wellFormed_loadBytes r _ _
  | array items =>
    rw [load]
    split
    · exact .append wellFormed_bare (wellFormed_loadItems r 0 items)
    · exact wellFormed_refused _

theorem wellFormed_loadItems (r : Reg) (index : Nat) (items : List Value) :
    (loadItems r index items).WellFormed := by
  cases items with
  | nil => exact wellFormed_nothing
  | cons v vs =>
    rw [loadItems]
    exact (wellFormed_load (r + 1) v).append ((wellFormed_loadText (r + 2) _).append
      (.append wellFormed_bare (wellFormed_loadItems r (index + 1) vs)))

end

theorem wellFormed_pushValues (vs : List Value) : (pushValues vs).WellFormed := by
  induction vs with
  | nil => exact wellFormed_nothing
  | cons v vs ih =>
    exact ((wellFormed_load 0 v).append wellFormed_bare).append ih

theorem wellFormed_extcall (method : String) (r : Reg) : (extcall method r).WellFormed :=
  (wellFormed_loadText r method).append wellFormed_bare

theorem wellFormed_invoke (i : Invocation) : (invoke i).WellFormed := by
  cases i with
  | contract name method args =>
    exact (wellFormed_pushValues args.reverse).append ((wellFormed_loadText 0 method).append
      (.append wellFormed_bare ((wellFormed_loadText 0 name).append
        (.append wellFormed_bare wellFormed_bare))))
  | interop method args =>
    exact (wellFormed_pushValues args.reverse).append (wellFormed_extcall method 0)

end Emission

namespace Piece

/-- A label stands at the offset of an instruction that has a `nop` right in front of it. The
`ret` at the end is there for a label that stands behind everything else. -/
theorem Resolved.exists_landing {d : Draft} {ps : List Piece} {is : List Instr} {name : String}
    {offset : Nat} (h : Resolved d (ps ++ [.instr .ret]) is)
    (hname : TwoPass.symbols (ps ++ [.instr .ret]) name = some offset) :
    ∃ stop i front back, Instr.place 0 is = front ++ (stop, .nop) :: (offset, i) :: back ∧
      stop + 1 = offset := by
  obtain ⟨before, after, hsplit, -, rfl⟩ := TwoPass.symbols_eq_some_iff.1 hname
  rw [hsplit] at h
  cases after with
  | nil =>
    have hlast := congrArg List.getLast? hsplit
    simp at hlast
  | cons q rest =>
    obtain ⟨front, back, rfl, hfront, hback⟩ := h.of_append
    obtain ⟨i, back, rfl, hi, hback⟩ := hback.of_cons
    obtain ⟨j, back, rfl, hj, hback⟩ := hback.of_cons
    have hnop : i = .nop := (Option.some.inj hi).symm
    subst hnop
    refine ⟨total before, j, Instr.place 0 front,
      Instr.place (total before + 1 + j.encode.length) back, ?_, rfl⟩
    rw [Instr.place_append, hfront.length_flatMap, Nat.zero_add]
    rfl

/-- Every reference of a finished draft has a target, and control lands there. -/
theorem Resolved.exists_target {ps : List Piece} {is : List Instr} {code : Bytes}
    (h : Resolved (Draft.empty.extend (ps ++ [.instr .ret])) (ps ++ [.instr .ret]) is)
    (hcode : TwoPass.assemble (ps ++ [.instr .ret]) = .ok code) {b : Branch} {name : String}
    (hmem : Piece.branch b name ∈ ps) :
    ∃ target, (Draft.empty.extend (ps ++ [.instr .ret])).target name = .ok target ∧
      ∃ stop i front back,
        Instr.place 0 is = front ++ (stop, .nop) :: (target.toNat, i) :: back ∧
        stop + 1 = target.toNat := by
  obtain ⟨hfault, -⟩ := TwoPass.assemble_eq_ok_iff.1 hcode
  have hgood : TwoPass.unresolved? (TwoPass.symbols (ps ++ [.instr .ret])) name = none :=
    hfault (.branch b name) (List.mem_append_left _ hmem)
  obtain ⟨offset, hoffset, hle⟩ := TwoPass.unresolved?_eq_none_iff.1 hgood
  have htarget := Draft.target_eq (Draft.empty.extend (ps ++ [.instr .ret])) name
  rw [Draft.labelOffset?_extend_empty, hgood, hoffset] at htarget
  have hnat : offset.toUInt16.toNat = offset := Draft.toNat_toUInt16 hle
  refine ⟨offset.toUInt16, htarget, ?_⟩
  rw [hnat]
  exact h.exists_landing hoffset

end Piece

namespace Call

/-- The calls that write nothing but whole instructions. -/
def Structured : Call → Prop
  | op o operands => (o = .nop ∨ o = .ret) ∧ operands = []
  | instr i => i.WellFormed
  | throw data => data.length < UInt64.size
  | raw _ | varInt _ | hex _ => False
  | _ => True

theorem structured_of_named {i : Instr} (h : i.Named) : (instr i).Structured := h.wellFormed

open Emission in
theorem Structured.wellFormed {c : Call} (h : c.Structured) : c.emission.WellFormed := by
  cases c with
  | begin => exact wellFormed_nothing
  | op o operands =>
    obtain ⟨rfl | rfl, rfl⟩ := h
    · exact wellFormed_bare
    · exact wellFormed_bare
  | instr i => exact wellFormed_instr h
  | throw data => exact wellFormed_instr ⟨rfl, h⟩
  | raw | varInt | hex => exact h.elim
  | left | right | substr => exact wellFormed_short Instr.wellFormed_of_bare _
  | loadBytes r data ty => exact wellFormed_loadBytes r data ty
  | load r v => exact wellFormed_load r v
  | extcall method r => exact wellFormed_extcall method r
  | label name => exact wellFormed_one trivial
  | jump o name r => exact wellFormed_jump o name r
  | conditionalJump o r name => exact wellFormed_conditionalJump o r name
  | call name count => exact wellFormed_call name count
  | arguments args => exact wellFormed_pushValues args.reverse
  | invoke i => exact wellFormed_invoke i
  | readToken symbol id dst => exact (wellFormed_invoke _).append wellFormed_bare
  | finish => exact wellFormed_bare

theorem wellFormed_written {calls : List Call} (h : ∀ c ∈ calls, c.Structured) :
    ∀ p ∈ written calls, p.WellFormed := by
  have hrun (ps : List Piece) (hps : ∀ p ∈ ps, p.WellFormed) :
      ∀ p ∈ calls.foldl after ps, p.WellFormed := by
    induction calls generalizing ps with
    | nil => exact hps
    | cons c calls ih =>
      refine ih (fun c' hc' => h c' (List.mem_cons_of_mem c hc')) _ ?_
      have hc := (h c List.mem_cons_self).wellFormed
      by_cases hbegin : c = begin
      · subst hbegin
        simp [after]
      · rw [after_of_ne hbegin]
        exact fun p hp => (List.mem_append.1 hp).elim (hps p) (hc p)
  exact hrun [] (by simp)

/-- Ending a script succeeds if the pieces can be assembled with a `ret` behind them. -/
theorem finish_eq_ok {calls : List Call} {code : Bytes} {d : Draft}
    (h : Assembly.finish (run calls Draft.empty) = .ok code d) :
    d = Draft.empty.extend (written calls ++ [.instr .ret]) ∧
      TwoPass.assemble (written calls ++ [.instr .ret]) = .ok code := by
  have hd : (run calls Draft.empty).add (.instr .ret) =
      Draft.empty.extend (written calls ++ [.instr .ret]) := by
    rw [run_empty, Draft.extend_append]
    rfl
  rw [Assembly.finish_apply, hd, Draft.link_extend] at h
  cases hlink : TwoPass.assemble (written calls ++ [.instr .ret]) with
  | error refusal => simp [hlink] at h
  | ok linked =>
    rw [hlink] at h
    obtain ⟨rfl, rfl⟩ := EStateM.Result.ok.inj h
    exact ⟨rfl, rfl⟩

/-- A script that whole instructions were written into, by calls of which any may have been refused,
is the encoding of these instructions and of the `ret` that ends it, each label standing for its
last offset. Disassembling finds them at the offsets where they were written, and every label that
is jumped to or called has a `nop` right in front of it. -/
theorem disassemble_finish {calls : List Call} {code : Bytes} {d : Draft}
    (hcalls : ∀ c ∈ calls, c.Structured)
    (hfinish : Assembly.finish (run calls Draft.empty) = .ok code d) :
    run calls Draft.empty = Draft.empty.extend (written calls) ∧
    ∃ instrs listing,
      (written calls).map (Piece.instr? d) = instrs.map some ∧
      code = (instrs ++ [.ret]).flatMap Instr.encode ∧
      disassemble code = .ok listing ∧
      listing.map Prod.snd = instrs ++ [.ret] ∧
      listing.map Prod.fst =
        Draft.empty.offsets (written calls) ++ [(run calls Draft.empty).offset] ∧
      ∀ b name, Piece.branch b name ∈ written calls →
        ∃ target stop i front back, d.target name = .ok target ∧
          d.labelOffset? name = some target.toNat ∧
          listing = front ++ (stop, .nop) :: (target.toNat, i) :: back ∧
          stop + 1 = target.toNat := by
  obtain ⟨rfl, hcode⟩ := finish_eq_ok hfinish
  have hpieces : ∀ p ∈ written calls ++ [.instr .ret], p.WellFormed := fun p hp =>
    (List.mem_append.1 hp).elim (wellFormed_written hcalls p) fun hret =>
      List.mem_singleton.1 hret ▸ Instr.wellFormed_of_bare
  obtain ⟨is, hall, hwell, rfl⟩ := Piece.exists_resolved_of_assemble hpieces hcode
  obtain ⟨instrs, rfl, hinstrs⟩ := hall.of_finished
  have hplaces := Draft.map_fst_place (e := Draft.empty) hall
  rw [Draft.offsets_append, ← run_empty] at hplaces
  refine ⟨run_empty calls, instrs, Instr.place 0 (instrs ++ [Instr.ret]), hinstrs, rfl,
    disassemble_encode hwell, Instr.map_snd_place 0 _, hplaces, ?_⟩
  intro b name hmem
  obtain ⟨target, htarget, stop, i, front, back, hplace, hstop⟩ := hall.exists_target hcode hmem
  exact ⟨target, stop, i, front, back, htarget, Piece.labelOffset?_of_target htarget, hplace, hstop⟩

/-- A jump over an array that is refused at its second item, and a call back. -/
def brokenArray : List Call :=
  [.jump .jmp "end" 0, .load 4 (.array [.bool true, .text "☃"]), .label "end", .call "end" 3]

theorem disassemble_brokenArray :
    (∀ c ∈ brokenArray, c.Structured) ∧
    ∃ code d instrs listing, Assembly.finish (run brokenArray Draft.empty) = .ok code d ∧
      (written brokenArray).map (Piece.instr? d) = instrs.map some ∧
      code = (instrs ++ [.ret]).flatMap Instr.encode ∧
      disassemble code = .ok listing ∧ listing.map Prod.snd = instrs ++ [.ret] := by
  have hcalls : ∀ c ∈ brokenArray, c.Structured := by simp [brokenArray, Structured]
  have hfinish : Assembly.finish (run brokenArray Draft.empty) =
      .ok [8, 22, 0, 14, 4, 4, 0, 13, 5, 6, 1, 1, 13, 6, 4, 1, 48, 47, 5, 4, 6, 0, 6, 3, 22, 0, 11]
        ⟨[8, 0, 0, 14, 4, 4, 0, 13, 5, 6, 1, 1, 13, 6, 4, 1, 48, 47, 5, 4, 6, 0, 6, 3, 0, 0, 11],
          [("end", 22)], [⟨1, "end"⟩, ⟨24, "end"⟩]⟩ := rfl
  obtain ⟨-, instrs, listing, hinstrs, hcode, hlisting, hsnd, -⟩ :=
    disassemble_finish hcalls hfinish
  exact ⟨hcalls, _, _, instrs, listing, hfinish, hinstrs, hcode, hlisting, hsnd⟩

end Call
end ChainScript
