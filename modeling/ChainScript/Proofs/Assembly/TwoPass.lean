import ChainScript.Proofs.Assembly.Emission

/-! Back-patching and two-pass assembly. An assembler that sees all pieces at once first finds where
each label stands and then writes the bytes with every target in place. The slots that a draft fills
when it is linked give the same bytes, and the same refusal where a label is missing or too far. -/
namespace ChainScript
open Machine

namespace TwoPass

/-- The first pass from an offset on: a label is bound to the offset right behind its `nop`, in
place of what its name was bound to before. -/
def bind (symbols : String → Option Nat) (offset : Nat) : List Piece → String → Option Nat
  | [] => symbols
  | p :: ps =>
    match p with
    | .label name =>
      bind (fun s => if s = name then some (offset + p.size) else symbols s) (offset + p.size) ps
    | _ => bind symbols (offset + p.size) ps

def symbols (ps : List Piece) : String → Option Nat := bind (fun _ => none) 0 ps

def unresolved? (symbols : String → Option Nat) (label : String) : Option Refusal :=
  match symbols label with
  | none => some (.undefinedLabel label)
  | some offset => if offset ≤ targetLimit then none else some (.outOfRange offset targetLimit)

def fault? (symbols : String → Option Nat) : Piece → Option Refusal
  | .branch _ label => unresolved? symbols label
  | _ => none

def image (symbols : String → Option Nat) : Piece → Bytes
  | .branch b label => b.lead ++ Wire.leBytes 2 ((symbols label).getD 0)
  | p => p.blank

/-- The second pass, unless some reference is bad: then the first that is decides. -/
def assemble (ps : List Piece) : Except Refusal Bytes :=
  match ps.findSome? (fault? (symbols ps)) with
  | some refusal => .error refusal
  | none => .ok (ps.flatMap (image (symbols ps)))

theorem length_image (symbols : String → Option Nat) (p : Piece) :
    (image symbols p).length = p.size := by
  cases p <;> simp [image, Piece.size, Piece.blank]

theorem length_flatMap_image (symbols : String → Option Nat) (ps : List Piece) :
    (ps.flatMap (image symbols)).length = Piece.total ps := by
  induction ps with
  | nil => rfl
  | cons p ps ih =>
    rw [List.flatMap_cons, List.length_append, length_image, ih, Piece.total]

theorem unresolved?_eq_none_iff {symbols : String → Option Nat} {label : String} :
    unresolved? symbols label = none ↔
      ∃ offset, symbols label = some offset ∧ offset ≤ targetLimit := by
  rw [unresolved?]
  cases symbols label with
  | none => simp
  | some offset => by_cases h : offset ≤ targetLimit <;> simp [h]

theorem unresolved?_eq_some_iff {symbols : String → Option Nat} {label : String}
    {refusal : Refusal} :
    unresolved? symbols label = some refusal ↔
      symbols label = none ∧ refusal = .undefinedLabel label ∨
        ∃ offset, symbols label = some offset ∧ targetLimit < offset ∧
          refusal = .outOfRange offset targetLimit := by
  rw [unresolved?]
  cases symbols label with
  | none => simp [eq_comm]
  | some offset =>
    by_cases h : offset ≤ targetLimit
    · simp [h, Nat.not_lt_of_le h]
    · simp [h, Nat.lt_of_not_le h, eq_comm]

theorem bind_append (symbols : String → Option Nat) (offset : Nat) (ps qs : List Piece) :
    bind symbols offset (ps ++ qs) =
      bind (bind symbols offset ps) (offset + Piece.total ps) qs := by
  induction ps generalizing symbols offset with
  | nil => rfl
  | cons p ps ih =>
    have htotal : offset + Piece.total (p :: ps) = offset + p.size + Piece.total ps := by
      simp [Piece.total, Nat.add_assoc]
    rw [htotal]
    cases p <;> exact ih _ _

/-- A name that no piece places keeps what it was bound to. -/
theorem bind_of_notMem {ps : List Piece} {name : String} (h : Piece.label name ∉ ps)
    (symbols : String → Option Nat) (offset : Nat) :
    bind symbols offset ps name = symbols name := by
  induction ps generalizing symbols offset with
  | nil => rfl
  | cons p ps ih =>
    have hps : Piece.label name ∉ ps := fun hmem => h (List.mem_cons_of_mem p hmem)
    cases p with
    | label other =>
      have hne : name ≠ other := fun he => h (he ▸ List.mem_cons_self)
      exact (ih hps _ _).trans (if_neg hne)
    | _ => exact ih hps _ _

/-- A label stands behind its last `nop`. -/
theorem symbols_of_last {before after : List Piece} {name : String}
    (h : Piece.label name ∉ after) :
    symbols (before ++ .label name :: after) name = some (Piece.total before + 1) := by
  rw [symbols, bind_append, Nat.zero_add]
  exact (bind_of_notMem h _ _).trans (if_pos rfl)

theorem exists_last {α : Type} {list : List α} {a : α} (h : a ∈ list) :
    ∃ before after, list = before ++ a :: after ∧ a ∉ after := by
  obtain ⟨after, before, hsplit, hnew⟩ := List.eq_append_cons_of_mem (List.mem_reverse.2 h)
  refine ⟨before.reverse, after.reverse, ?_, fun hmem => hnew (List.mem_reverse.1 hmem)⟩
  rw [← List.reverse_reverse list, hsplit]
  simp

theorem symbols_eq_none_iff {ps : List Piece} {name : String} :
    symbols ps name = none ↔ Piece.label name ∉ ps := by
  constructor
  · intro h hmem
    obtain ⟨before, after, rfl, hnew⟩ := exists_last hmem
    rw [symbols_of_last hnew] at h
    cases h
  · exact fun h => bind_of_notMem h _ _

theorem symbols_eq_some_iff {ps : List Piece} {name : String} {offset : Nat} :
    symbols ps name = some offset ↔
      ∃ before after, ps = before ++ .label name :: after ∧ Piece.label name ∉ after ∧
        offset = Piece.total before + 1 := by
  constructor
  · intro h
    by_cases hmem : Piece.label name ∈ ps
    · obtain ⟨before, after, rfl, hnew⟩ := exists_last hmem
      rw [symbols_of_last hnew] at h
      exact ⟨before, after, rfl, hnew, (Option.some.inj h).symm⟩
    · rw [symbols_eq_none_iff.2 hmem] at h
      cases h
  · rintro ⟨before, after, rfl, hnew, rfl⟩
    exact symbols_of_last hnew

theorem assemble_eq_ok_iff {ps : List Piece} {code : Bytes} :
    assemble ps = .ok code ↔
      (∀ p ∈ ps, fault? (symbols ps) p = none) ∧ code = ps.flatMap (image (symbols ps)) := by
  rw [← List.findSome?_eq_none_iff, assemble]
  cases ps.findSome? (fault? (symbols ps)) <;> simp [eq_comm]

/-- The refusal is that of the first piece whose reference is bad. -/
theorem assemble_eq_error_iff {ps : List Piece} {refusal : Refusal} :
    assemble ps = .error refusal ↔
      ∃ before b name after, ps = before ++ .branch b name :: after ∧
        (∀ p ∈ before, fault? (symbols ps) p = none) ∧
        unresolved? (symbols ps) name = some refusal := by
  have hfind : assemble ps = .error refusal ↔
      ps.findSome? (fault? (symbols ps)) = some refusal := by
    rw [assemble]
    cases ps.findSome? (fault? (symbols ps)) <;> simp
  rw [hfind, List.findSome?_eq_some_iff]
  constructor
  · rintro ⟨before, p, after, hsplit, hp, hbefore⟩
    cases p with
    | branch b name => exact ⟨before, b, name, after, hsplit, hbefore, hp⟩
    | _ => cases hp
  · rintro ⟨before, b, name, after, hsplit, hbefore, hname⟩
    exact ⟨before, .branch b name, after, hsplit, hname, hbefore⟩

/-- Instructions need no labels, so assembling them writes them one after the other. -/
theorem assemble_instrs (is : List Instr) :
    assemble (is.map Piece.instr) = .ok (is.flatMap Instr.encode) := by
  refine assemble_eq_ok_iff.2 ⟨fun p hp => ?_, ?_⟩
  · obtain ⟨i, -, rfl⟩ := List.mem_map.1 hp
    rfl
  · rw [List.flatMap_map]
    rfl

end TwoPass

namespace Draft

def referencesFrom (offset : Nat) : List Piece → List Reference
  | [] => []
  | p :: ps =>
    match p with
    | .branch b label => ⟨offset + b.lead.length, label⟩ :: referencesFrom (offset + p.size) ps
    | _ => referencesFrom (offset + p.size) ps

theorem references_extend (d : Draft) (ps : List Piece) :
    (d.extend ps).references = d.references ++ referencesFrom d.offset ps := by
  induction ps generalizing d with
  | nil => simp [extend, referencesFrom]
  | cons p ps ih =>
    have h := ih (d.add p)
    rw [offset_add] at h
    cases p with
    | branch b label =>
      simp only [add, List.append_assoc, List.cons_append, List.nil_append] at h
      exact h
    | _ => exact h

theorem labelOffset?_extend (d : Draft) (ps : List Piece) :
    (d.extend ps).labelOffset? = TwoPass.bind d.labelOffset? d.offset ps := by
  induction ps generalizing d with
  | nil => rfl
  | cons p ps ih =>
    have h := ih (d.add p)
    rw [offset_add] at h
    cases p with
    | label name =>
      have hlabels : (d.add (.label name)).labelOffset? =
          fun s => if s = name then some (d.offset + (Piece.label name).size)
            else d.labelOffset? s := by
        funext s
        by_cases hs : s = name
        · subst hs
          simp [labelOffset?, add, Piece.size, Piece.blank, Instr.encode, Instr.operands]
        · have hne : (s == name) = false := by simpa using hs
          simp [labelOffset?, add, List.lookup_cons, hs, hne]
      rw [hlabels] at h
      exact h
    | _ => exact h

theorem references_extend_empty (ps : List Piece) :
    (empty.extend ps).references = referencesFrom 0 ps := references_extend empty ps

theorem labelOffset?_extend_empty (ps : List Piece) :
    (empty.extend ps).labelOffset? = TwoPass.symbols ps := labelOffset?_extend empty ps

/-- Filling a slot changes its two bytes and no other. -/
theorem fill_slot (front lead back : Bytes) (value : UInt16) :
    Wire.Slot.fill (front ++ (lead ++ [0, 0]) ++ back) (front.length + lead.length) value =
      some (front ++ (lead ++ Wire.leBytes 2 value.toNat) ++ back) := by
  have hdata : front ++ (lead ++ [0, 0]) ++ back = (front ++ lead) ++ ([0, 0] ++ back) := by
    simp only [List.append_assoc]
  have hlength : front.length + lead.length = (front ++ lead).length := List.length_append.symm
  have htail : ((front ++ lead) ++ ([0, 0] ++ back)).drop ((front ++ lead).length + 2) = back := by
    rw [← List.drop_drop, List.drop_left]
    rfl
  rw [Wire.Slot.fill, hdata, hlength, if_pos (by simp; omega), List.take_left, htail]
  simp only [List.append_assoc]

theorem target_eq (d : Draft) (label : String) :
    d.target label = match TwoPass.unresolved? d.labelOffset? label with
      | some refusal => .error refusal
      | none => .ok ((d.labelOffset? label).getD 0).toUInt16 := by
  rw [target, TwoPass.unresolved?]
  cases d.labelOffset? label with
  | none => rfl
  | some offset => by_cases h : offset ≤ targetLimit <;> simp [h]

theorem toNat_toUInt16 {offset : Nat} (h : offset ≤ targetLimit) : offset.toUInt16.toNat = offset :=
  UInt16.toNat_ofNat_of_lt (Nat.lt_succ_of_le h)

theorem patch_slot (d : Draft) (front back : Bytes) (b : Branch) (label : String) :
    d.patch (front ++ ((Piece.branch b label).blank ++ back))
        ⟨front.length + b.lead.length, label⟩ =
      match TwoPass.unresolved? d.labelOffset? label with
      | some refusal => .error refusal
      | none => .ok (front ++ (TwoPass.image d.labelOffset? (.branch b label) ++ back)) := by
  rw [patch, target_eq]
  cases hfault : TwoPass.unresolved? d.labelOffset? label with
  | some refusal => rfl
  | none =>
    obtain ⟨offset, hoffset, hle⟩ := TwoPass.unresolved?_eq_none_iff.1 hfault
    change Except.ok ((Wire.Slot.fill _ _ _).getD _) = _
    rw [Piece.blank, ← List.append_assoc front, fill_slot]
    simp only [TwoPass.image, hoffset, Option.getD_some, toNat_toUInt16 hle, List.append_assoc]

/-- The slots are filled from the front on, so what stands in front of a slot is final when its
turn comes. -/
theorem foldlM_patch (d : Draft) (front : Bytes) (ps : List Piece) :
    (referencesFrom front.length ps).foldlM d.patch (front ++ ps.flatMap Piece.blank) =
      match ps.findSome? (TwoPass.fault? d.labelOffset?) with
      | some refusal => .error refusal
      | none => .ok (front ++ ps.flatMap (TwoPass.image d.labelOffset?)) := by
  induction ps generalizing front with
  | nil => rfl
  | cons p ps ih =>
    have hnext (bytes : Bytes) (hsize : bytes.length = p.size) :
        (referencesFrom (front.length + p.size) ps).foldlM d.patch
            (front ++ (bytes ++ ps.flatMap Piece.blank)) =
          match ps.findSome? (TwoPass.fault? d.labelOffset?) with
          | some refusal => .error refusal
          | none => .ok (front ++ (bytes ++ ps.flatMap (TwoPass.image d.labelOffset?))) := by
      rw [← hsize, ← List.length_append, ← List.append_assoc, ← List.append_assoc]
      exact ih (front ++ bytes)
    cases p with
    | branch b label =>
      change List.foldlM d.patch _
        (⟨front.length + b.lead.length, label⟩ :: referencesFrom _ ps) = _
      rw [List.foldlM_cons, List.flatMap_cons, List.flatMap_cons, patch_slot, List.findSome?_cons,
        TwoPass.fault?]
      cases TwoPass.unresolved? d.labelOffset? label with
      | some refusal => rfl
      | none => exact hnext _ (by simp [TwoPass.image, Piece.size, Piece.blank])
    | _ => exact hnext _ rfl

/-- Linking what pieces leave in an empty draft is assembling the pieces in two passes. -/
theorem link_extend (ps : List Piece) : (empty.extend ps).link = TwoPass.assemble ps := by
  have h := foldlM_patch (empty.extend ps) [] ps
  rw [labelOffset?_extend_empty] at h
  rw [link, references_extend, code_extend]
  exact h

end Draft

namespace Call

/-- Whatever the calls and however many of them are refused, linking gives what two passes over the
written pieces give. A label stands behind the last `nop` that was written for it, also for
references before it, and the first reference to a missing or too distant label decides. -/
theorem link_run_eq_assemble (calls : List Call) :
    (run calls Draft.empty).code = (written calls).flatMap Piece.blank ∧
    (run calls Draft.empty).link = TwoPass.assemble (written calls) ∧
    (∀ name offset, TwoPass.symbols (written calls) name = some offset ↔
      ∃ before after, written calls = before ++ .label name :: after ∧ Piece.label name ∉ after ∧
        offset = Piece.total before + 1) ∧
    ∀ refusal, (run calls Draft.empty).link = .error refusal ↔
      ∃ before b name after, written calls = before ++ .branch b name :: after ∧
        (∀ p ∈ before, TwoPass.fault? (TwoPass.symbols (written calls)) p = none) ∧
        (Piece.label name ∉ written calls ∧ refusal = .undefinedLabel name ∨
          ∃ target, TwoPass.symbols (written calls) name = some target ∧ targetLimit < target ∧
            refusal = .outOfRange target targetLimit) := by
  have hlink : (run calls Draft.empty).link = TwoPass.assemble (written calls) := by
    rw [run_empty, Draft.link_extend]
  refine ⟨?_, hlink, fun name offset => TwoPass.symbols_eq_some_iff, fun refusal => ?_⟩
  · rw [run_empty, Draft.code_extend]
    rfl
  · rw [hlink, TwoPass.assemble_eq_error_iff]
    simp only [TwoPass.unresolved?_eq_some_iff, TwoPass.symbols_eq_none_iff]

end Call
end ChainScript
