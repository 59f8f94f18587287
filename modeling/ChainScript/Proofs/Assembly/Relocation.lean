import ChainScript.Proofs.Assembly.TwoPass
import ChainScript.Proofs.Wire.ReadBack

/-! One script behind another. Where the two parts share no label and neither refers to a label of
the other, each keeps its bytes, but for the targets in the slots of the second part. These move by
the length of the first. -/
namespace ChainScript
open Machine

namespace Wire.Slot

def value (data : Bytes) (offset : Nat) : Nat := leValue ((data.drop offset).take 2)

theorem value_append_left {data : Bytes} {offset : Nat} (h : offset + 2 ≤ data.length)
    (more : Bytes) : value (data ++ more) offset = value data offset := by
  have hdrop : 2 ≤ (data.drop offset).length := by rw [List.length_drop]; omega
  rw [value, List.drop_append_of_le_length (by omega), List.take_append_of_le_length hdrop, value]

theorem value_append_right (front data : Bytes) (offset : Nat) :
    value (front ++ data) (front.length + offset) = value data offset := by
  rw [value, ← List.drop_drop, List.drop_left, value]

theorem value_leBytes {n : Nat} (h : n ≤ targetLimit) (front : Bytes) :
    value (front ++ leBytes 2 n) front.length = n := by
  have hn : n < 256 ^ 2 := Nat.lt_succ_of_le h
  rw [value, List.drop_left, List.take_of_length_le (by simp), leValue_leBytes_of_lt hn]

end Wire.Slot

/-- Code that was moved: the targets in its slots have grown by the shift, and no other byte is
different. -/
structure Relocated (shift : Nat) (slots : List Nat) (code moved : Bytes) : Prop where
  length : moved.length = code.length
  inside : ∀ s ∈ slots, s + 2 ≤ code.length
  slot : ∀ s ∈ slots, Wire.Slot.value moved s = Wire.Slot.value code s + shift
  rest : ∀ i, (∀ s ∈ slots, i ≠ s ∧ i ≠ s + 1) → moved[i]? = code[i]?

namespace Relocated

theorem same (shift : Nat) (code : Bytes) : Relocated shift [] code code where
  length := rfl
  inside := by simp
  slot := by simp
  rest := fun _ _ => rfl

theorem target {shift n : Nat} (h : shift + n ≤ targetLimit) (lead : Bytes) :
    Relocated shift [lead.length] (lead ++ Wire.leBytes 2 n)
      (lead ++ Wire.leBytes 2 (shift + n)) where
  length := by simp
  inside := by simp
  slot := by
    have hn : n ≤ targetLimit := Nat.le_trans (Nat.le_add_left n shift) h
    simp [Wire.Slot.value_leBytes h, Wire.Slot.value_leBytes hn, Nat.add_comm]
  rest := fun i hi => by
    obtain ⟨hlow, hhigh⟩ := hi lead.length List.mem_cons_self
    by_cases hlead : i < lead.length
    · rw [List.getElem?_append_left hlead, List.getElem?_append_left hlead]
    · rw [List.getElem?_eq_none (by simp; omega), List.getElem?_eq_none (by simp; omega)]

theorem append {shift : Nat} {slots slots' : List Nat} {code moved code' moved' : Bytes}
    (h : Relocated shift slots code moved) (h' : Relocated shift slots' code' moved') :
    Relocated shift (slots ++ slots'.map (code.length + ·)) (code ++ code') (moved ++ moved') where
  length := by rw [List.length_append, List.length_append, h.length, h'.length]
  inside := by
    intro s hs
    rw [List.length_append]
    obtain hs | hs := List.mem_append.1 hs
    · exact Nat.le_add_right_of_le (h.inside s hs)
    · obtain ⟨t, ht, rfl⟩ := List.mem_map.1 hs
      have := h'.inside t ht
      omega
  slot := by
    intro s hs
    obtain hs | hs := List.mem_append.1 hs
    · -- the slot lies wholly in the first part, so what follows does not reach it
      have hinside := h.inside s hs
      rw [Wire.Slot.value_append_left hinside,
        Wire.Slot.value_append_left (h.length.symm ▸ hinside), h.slot s hs]
    · obtain ⟨t, ht, rfl⟩ := List.mem_map.1 hs
      rw [Wire.Slot.value_append_right, ← h.length, Wire.Slot.value_append_right, h'.slot t ht]
  rest := by
    intro i hi
    by_cases hfront : i < code.length
    · rw [List.getElem?_append_left hfront, List.getElem?_append_left (h.length.symm ▸ hfront)]
      exact h.rest i fun s hs => hi s (List.mem_append_left _ hs)
    · -- counted from where the second part starts, the index misses its slots too
      have hback : code.length ≤ i := Nat.le_of_not_lt hfront
      rw [List.getElem?_append_right hback, List.getElem?_append_right (h.length.symm ▸ hback),
        h.length]
      refine h'.rest _ fun s hs => ?_
      have := hi _ (List.mem_append_right _ (List.mem_map_of_mem hs))
      omega

end Relocated

namespace TwoPass

/-- Behind other pieces a label stands that much further on. -/
theorem symbols_append (ps qs : List Piece) (name : String) :
    symbols (ps ++ qs) name =
      ((symbols qs name).map (Piece.total ps + ·)).or (symbols ps name) := by
  cases h : symbols qs name with
  | none =>
    rw [symbols, bind_append]
    exact bind_of_notMem (symbols_eq_none_iff.1 h) _ _
  | some offset =>
    obtain ⟨before, after, rfl, hlast, rfl⟩ := symbols_eq_some_iff.1 h
    rw [← List.append_assoc, symbols_of_last hlast, Piece.total_append, Nat.add_assoc]
    rfl

/-- Every label that the pieces refer to stands where a target can name it. -/
def Bound (symbols : String → Option Nat) (ps : List Piece) : Prop :=
  ∀ b name, .branch b name ∈ ps → ∃ offset, symbols name = some offset ∧ offset ≤ targetLimit

theorem assemble_eq_ok_iff_bound {ps : List Piece} {code : Bytes} :
    assemble ps = .ok code ↔ Bound (symbols ps) ps ∧ code = ps.flatMap (image (symbols ps)) := by
  rw [assemble_eq_ok_iff]
  refine and_congr_left fun _ => ⟨fun h b name hmem => ?_, fun h p hp => ?_⟩
  · exact unresolved?_eq_none_iff.1 (h _ hmem)
  · cases p with
    | branch b name => exact unresolved?_eq_none_iff.2 (h b name hp)
    | _ => rfl

theorem flatMap_image_congr {symbols symbols' : String → Option Nat} {ps : List Piece}
    (h : ∀ b name, .branch b name ∈ ps → symbols name = symbols' name) :
    ps.flatMap (image symbols) = ps.flatMap (image symbols') := by
  have hall : ∀ p ∈ ps, image symbols p = image symbols' p := by
    intro p hp
    cases p with
    | branch b name => rw [image, image, h b name hp]
    | _ => rfl
  rw [List.flatMap, List.flatMap, List.map_congr_left hall]

end TwoPass

namespace Draft

theorem forall_referencesFrom {ps : List Piece} {offset : Nat} {P : String → Prop} :
    (∀ r ∈ referencesFrom offset ps, P r.label) ↔ ∀ b name, .branch b name ∈ ps → P name := by
  induction ps generalizing offset with
  | nil => simp [referencesFrom]
  | cons p ps ih => cases p <;> simp [referencesFrom, ih, or_imp, forall_and]

theorem referencesFrom_cons (offset : Nat) (p : Piece) (ps : List Piece) :
    referencesFrom offset (p :: ps) =
      referencesFrom offset [p] ++ referencesFrom (offset + p.size) ps := by
  cases p <;> rfl

theorem slots_referencesFrom (offset : Nat) (ps : List Piece) :
    (referencesFrom offset ps).map Reference.slot =
      ((referencesFrom 0 ps).map Reference.slot).map (offset + ·) := by
  induction ps generalizing offset with
  | nil => rfl
  | cons p ps ih =>
    rw [referencesFrom_cons, referencesFrom_cons 0, List.map_append, List.map_append,
      List.map_append, ih, ih (0 + p.size)]
    cases p <;> simp [referencesFrom, Nat.add_assoc]

/-- The bytes of a piece whose label, if it has one, has moved by the shift. -/
theorem relocated_image {symbols moved : String → Option Nat} {shift : Nat} {p : Piece}
    (h : ∀ b name, p = .branch b name → ∃ target,
      symbols name = some target ∧ moved name = some (shift + target) ∧
        shift + target ≤ targetLimit) :
    Relocated shift ((referencesFrom 0 [p]).map Reference.slot)
      (TwoPass.image symbols p) (TwoPass.image moved p) := by
  cases p with
  | branch b name =>
    obtain ⟨target, hsymbols, hmoved, hle⟩ := h b name rfl
    rw [TwoPass.image, TwoPass.image, hsymbols, hmoved]
    have hone := Relocated.target hle b.lead
    rw [← Nat.zero_add b.lead.length] at hone
    exact hone
  | _ => exact .same shift _

theorem relocated_images {symbols moved : String → Option Nat} {shift : Nat} {ps : List Piece}
    (h : ∀ b name, .branch b name ∈ ps → ∃ target,
      symbols name = some target ∧ moved name = some (shift + target) ∧
        shift + target ≤ targetLimit) :
    Relocated shift ((referencesFrom 0 ps).map Reference.slot)
      (ps.flatMap (TwoPass.image symbols)) (ps.flatMap (TwoPass.image moved)) := by
  induction ps with
  | nil => exact .same shift []
  | cons p ps ih =>
    have hp := relocated_image (p := p) fun b name he => h b name (he ▸ List.mem_cons_self)
    have hps := ih fun b name hmem => h b name (List.mem_cons_of_mem p hmem)
    rw [referencesFrom_cons, List.map_append, slots_referencesFrom (0 + p.size), Nat.zero_add,
      ← TwoPass.length_image symbols]
    exact hp.append hps

end Draft

namespace TwoPass
variable {ps qs : List Piece}

/-- Every label that the pieces refer to stands among them. -/
def Closed (ps : List Piece) : Prop :=
  ∀ b name, .branch b name ∈ ps → ∃ offset, symbols ps name = some offset

theorem exists_assemble_iff : (∃ code, assemble ps = .ok code) ↔ Bound (symbols ps) ps := by
  simp [assemble_eq_ok_iff_bound]

/-- The labels of the first part stand where they stood without the second. -/
theorem Closed.symbols_front (hps : Closed ps)
    (hapart : ∀ name, symbols ps name = none ∨ symbols qs name = none) {b : Branch} {name : String}
    (hmem : .branch b name ∈ ps) : symbols (ps ++ qs) name = symbols ps name := by
  obtain ⟨offset, hoffset⟩ := hps b name hmem
  -- the last placement counts, so the second part must not place the name again
  have hnone : symbols qs name = none := (hapart name).resolve_left (by simp [hoffset])
  rw [symbols_append, hnone]
  rfl

theorem Closed.symbols_back (hqs : Closed qs) (ps : List Piece) {b : Branch} {name : String}
    (hmem : .branch b name ∈ qs) :
    ∃ offset, symbols qs name = some offset ∧
      symbols (ps ++ qs) name = some (Piece.total ps + offset) := by
  obtain ⟨offset, hoffset⟩ := hqs b name hmem
  refine ⟨offset, hoffset, ?_⟩
  rw [symbols_append, hoffset]
  rfl

theorem bound_append (hps : Closed ps) (hqs : Closed qs)
    (hapart : ∀ name, symbols ps name = none ∨ symbols qs name = none) :
    Bound (symbols (ps ++ qs)) (ps ++ qs) ↔
      Bound (symbols ps) ps ∧ ∀ b name, .branch b name ∈ qs → ∃ offset,
        symbols qs name = some offset ∧ Piece.total ps + offset ≤ targetLimit := by
  constructor
  · intro h
    refine ⟨fun b name hmem => ?_, fun b name hmem => ?_⟩
    · rw [← hps.symbols_front hapart hmem]
      exact h b name (List.mem_append_left _ hmem)
    · obtain ⟨offset, hoffset, hmoved⟩ := hqs.symbols_back ps hmem
      obtain ⟨moved, hsome, hle⟩ := h b name (List.mem_append_right _ hmem)
      obtain rfl := Option.some.inj (hmoved.symm.trans hsome)
      exact ⟨offset, hoffset, hle⟩
  · rintro ⟨hfront, hback⟩ b name hmem
    obtain hmem | hmem := List.mem_append.1 hmem
    · rw [hps.symbols_front hapart hmem]
      exact hfront b name hmem
    · obtain ⟨offset, hoffset, hle⟩ := hback b name hmem
      refine ⟨Piece.total ps + offset, ?_, hle⟩
      rw [symbols_append, hoffset]
      rfl

theorem assemble_append (hps : Closed ps) (hqs : Closed qs)
    (hapart : ∀ name, symbols ps name = none ∨ symbols qs name = none) {code : Bytes}
    (h : assemble (ps ++ qs) = .ok code) :
    ∃ first second moved, assemble ps = .ok first ∧ assemble qs = .ok second ∧
      code = first ++ moved ∧
      Relocated (Piece.total ps) ((Draft.referencesFrom 0 qs).map Reference.slot) second moved := by
  obtain ⟨hbound, rfl⟩ := assemble_eq_ok_iff_bound.1 h
  obtain ⟨hfront, hback⟩ := (bound_append hps hqs hapart).1 hbound
  have halone : Bound (symbols qs) qs := fun b name hmem => by
    obtain ⟨offset, hoffset, hle⟩ := hback b name hmem
    exact ⟨offset, hoffset, by omega⟩
  refine ⟨_, _, qs.flatMap (image (symbols (ps ++ qs))), assemble_eq_ok_iff_bound.2 ⟨hfront, rfl⟩,
    assemble_eq_ok_iff_bound.2 ⟨halone, rfl⟩, ?_, Draft.relocated_images fun b name hmem => ?_⟩
  · rw [List.flatMap_append, flatMap_image_congr fun b name hmem => hps.symbols_front hapart hmem]
  · obtain ⟨offset, hoffset, hle⟩ := hback b name hmem
    obtain ⟨_, hsame, hmoved⟩ := hqs.symbols_back ps hmem
    obtain rfl := Option.some.inj (hoffset.symm.trans hsame)
    exact ⟨offset, hoffset, hmoved, hle⟩

end TwoPass

namespace Draft

def Closed (d : Draft) : Prop :=
  ∀ r ∈ d.references, ∃ offset, d.labelOffset? r.label = some offset

theorem closed_extend_empty {ps : List Piece} : (empty.extend ps).Closed ↔ TwoPass.Closed ps := by
  rw [Closed, references_extend_empty, labelOffset?_extend_empty]
  exact forall_referencesFrom (P := fun name => ∃ offset, TwoPass.symbols ps name = some offset)

end Draft

namespace Call

theorem written_append {front back : List Call} (h : begin ∉ back) :
    written (front ++ back) = written front ++ written back := by
  have hrun (ps : List Piece) : back.foldl after ps = ps ++ back.foldl after [] := by
    induction back generalizing ps with
    | nil => simp
    | cons c back ih =>
      have hback := ih fun hmem => h (List.mem_cons_of_mem c hmem)
      have hc : c ≠ begin := by
        rintro rfl
        exact h List.mem_cons_self
      rw [List.foldl_cons, List.foldl_cons, after_of_ne hc, after_of_ne hc, hback,
        hback ([] ++ _), List.nil_append, List.append_assoc]
  rw [written, List.foldl_append]
  exact hrun _

/-- Two runs of calls, the second of which does not start over, whose scripts refer to their own
labels only and share none. One behind the other they can be linked if and only if the first can and
every label that the second refers to stays in reach behind the first. The result is the first
script and the second one with its targets moved by the length of the first. -/
theorem link_append {front back : List Call} (hback : begin ∉ back)
    (hfrontClosed : (run front Draft.empty).Closed) (hbackClosed : (run back Draft.empty).Closed)
    (hapart : ∀ name, (run front Draft.empty).labelOffset? name = none ∨
      (run back Draft.empty).labelOffset? name = none) :
    ((∃ code, (run (front ++ back) Draft.empty).link = .ok code) ↔
      (∃ first, (run front Draft.empty).link = .ok first) ∧
      ∀ r ∈ (run back Draft.empty).references, ∃ offset,
        (run back Draft.empty).labelOffset? r.label = some offset ∧
        (run front Draft.empty).offset + offset ≤ targetLimit) ∧
    ∀ code, (run (front ++ back) Draft.empty).link = .ok code →
      ∃ first second moved, (run front Draft.empty).link = .ok first ∧
        (run back Draft.empty).link = .ok second ∧ code = first ++ moved ∧
        Relocated (run front Draft.empty).offset
          ((run back Draft.empty).references.map Reference.slot) second moved := by
  simp only [run_empty, Draft.closed_extend_empty, Draft.labelOffset?_extend_empty,
    Draft.references_extend_empty, Draft.offset_extend_empty, Draft.link_extend,
    written_append hback] at *
  refine ⟨?_, fun code => TwoPass.assemble_append hfrontClosed hbackClosed hapart⟩
  rw [TwoPass.exists_assemble_iff, TwoPass.exists_assemble_iff,
    TwoPass.bound_append hfrontClosed hbackClosed hapart]
  exact and_congr_right fun _ => (Draft.forall_referencesFrom (P := fun name => ∃ offset,
    TwoPass.symbols (written back) name = some offset ∧
      Piece.total (written front) + offset ≤ targetLimit)).symm

def skip : List Call := [.jump .jmp "out" 0, .jump .nop "lost" 0, .label "out"]

def arrayLoop : List Call :=
  [.label "loop", .load 4 (.array [.bool true, .text "☃"]), .jump .jmpif "loop" 1, .call "tail" 3,
    .label "tail"]

theorem link_skip_arrayLoop :
    (begin ∉ arrayLoop ∧ (run skip Draft.empty).Closed ∧ (run arrayLoop Draft.empty).Closed ∧
      ∀ name, (run skip Draft.empty).labelOffset? name = none ∨
        (run arrayLoop Draft.empty).labelOffset? name = none) ∧
    ∃ second moved, (run arrayLoop Draft.empty).link = .ok second ∧
      (run (skip ++ arrayLoop) Draft.empty).link = .ok ([8, 4, 0, 0] ++ moved) ∧
      Relocated 4 [21, 25] second moved := by
  have hskip : run skip Draft.empty = ⟨[8, 0, 0, 0], [("out", 4)], [⟨1, "out"⟩]⟩ := rfl
  have hloop : run arrayLoop Draft.empty =
      ⟨[0, 14, 4, 4, 0, 13, 5, 6, 1, 1, 13, 6, 4, 1, 48, 47, 5, 4, 6, 9, 1, 0, 0, 6, 3, 0, 0, 0],
        [("tail", 28), ("loop", 1)], [⟨21, "loop"⟩, ⟨25, "tail"⟩]⟩ := rfl
  have hbegin : begin ∉ arrayLoop := by simp [arrayLoop]
  have hskipClosed : (run skip Draft.empty).Closed := by
    simp [hskip, Draft.Closed, Draft.labelOffset?]
  have hloopClosed : (run arrayLoop Draft.empty).Closed := by
    simp [hloop, Draft.Closed, Draft.labelOffset?, List.lookup_cons]
  have hapart (name : String) : (run skip Draft.empty).labelOffset? name = none ∨
      (run arrayLoop Draft.empty).labelOffset? name = none := by
    by_cases hname : name = "out"
    · exact .inr (by simp [hloop, hname, Draft.labelOffset?, List.lookup_cons])
    · exact .inl (by simp [hskip, beq_false_of_ne hname, Draft.labelOffset?, List.lookup_cons])
  obtain ⟨hlinks, hparts⟩ := link_append hbegin hskipClosed hloopClosed hapart
  obtain ⟨code, hcode⟩ := hlinks.2 ⟨⟨[8, 4, 0, 0], by rw [hskip]; rfl⟩, by
    simp [hskip, hloop, Draft.labelOffset?, Draft.offset, List.lookup_cons, targetLimit]⟩
  obtain ⟨first, second, moved, hfirst, hsecond, rfl, hmoved⟩ := hparts code hcode
  have hjump : (run skip Draft.empty).link = .ok [8, 4, 0, 0] := rfl
  obtain rfl := Except.ok.inj (hfirst.symm.trans hjump)
  rw [hloop] at hmoved
  exact ⟨⟨hbegin, hskipClosed, hloopClosed, hapart⟩, second, moved, hsecond, hcode, hmoved⟩

end Call
end ChainScript
