import ChainScript.Proofs.Assembly.Plan

/-! Which values can be loaded, and what loading them writes. A value that is nested is loaded as
many registers above the outermost as there are arrays around it. -/
namespace ChainScript
open Machine

namespace Value

/-- `v.Holds level u` if `u` is in `v` with that many arrays around it, `v` itself with none. -/
inductive Holds : Value → Nat → Value → Prop where
  | self (v : Value) : Holds v 0 v
  | item {items v level u} : v ∈ items → Holds v level u → Holds (array items) (level + 1) u

/-- The value can be loaded into a register, its items apart. -/
def Fits (r : Nat) : Value → Prop
  | text s | number s => (∀ c ∈ s.toList, c.toNat ≤ 0xFF) ∧ s.length ≤ loadLimit
  | bool _ | time _ | enum _ => True
  | bytes data => data.length ≤ loadLimit
  | array _ => r + 2 ≤ 31

theorem holds_array {items : List Value} {level : Nat} {u : Value} :
    (array items).Holds level u ↔
      level = 0 ∧ u = array items ∨ ∃ v ∈ items, ∃ below, level = below + 1 ∧ v.Holds below u := by
  constructor
  · intro h
    cases h with
    | self => exact .inl ⟨rfl, rfl⟩
    | item hv hu => exact .inr ⟨_, hv, _, rfl, hu⟩
  · rintro (⟨rfl, rfl⟩ | ⟨v, hv, below, rfl, hu⟩)
    · exact .self _
    · exact .item hv hu

theorem holds_plain {v : Value} (h : v.Plain) {level : Nat} {u : Value} :
    v.Holds level u ↔ level = 0 ∧ u = v := by
  constructor
  · intro hu
    cases hu with
    | self => exact ⟨rfl, rfl⟩
    | item => exact h.elim
  · rintro ⟨rfl, rfl⟩
    exact .self _

theorem oversized?_eq_none {length : Nat} : oversized? length = none ↔ length ≤ loadLimit := by
  rw [oversized?]
  split <;> simp_all

theorem fault?_eq_none (r : Nat) (v : Value) : v.fault? r = none ↔ v.Fits r := by
  cases v with
  | text s | number s =>
    rw [fault?, Fits]
    split
    next c hc =>
      have hbad := List.find?_some hc
      simp only [decide_eq_true_eq] at hbad
      simp only [reduceCtorEq, false_iff, not_and]
      intro hall
      have hgood := hall c (List.mem_of_find?_eq_some hc)
      omega
    next hnone =>
      have hall : ∀ c ∈ s.toList, c.toNat ≤ 0xFF := by simpa using hnone
      rw [oversized?_eq_none]
      exact ⟨fun h => ⟨hall, h⟩, And.right⟩
  | bool | time | enum => exact ⟨fun _ => trivial, fun _ => rfl⟩
  | bytes data => exact oversized?_eq_none
  | array items =>
    rw [fault?, Fits]
    have hregs : r + 2 < registerCount ↔ r + 2 ≤ 31 := Nat.lt_succ_iff
    by_cases h : r + 2 < registerCount
    · simp [h, hregs.1 h]
    · simp [h, mt hregs.2 h]

/-- A list that memory can hold has no index with many digits. -/
theorem fault?_index (r : Nat) {index : Nat} (h : index < UInt64.size) :
    (text (toString index)).fault? r = none := by
  obtain ⟨hfits, -⟩ := Text.SingleByte.encode_eq_ok_iff.1 (encode_toString index)
  have hsmall : ∀ c ∈ (toString index).toList, c.toNat ≤ 0xFF := fun c hc => by
    have hc := hfits c hc
    simp only [Text.SingleByte.fits, decide_eq_true_eq] at hc
    omega
  have hshort : (toString index).length ≤ 20 := by
    rw [← String.length_toList, Nat.toString_eq_repr, Nat.toList_repr,
      Nat.length_toDigits_le_iff (by decide) (by decide)]
    exact Nat.lt_trans h (by decide)
  rw [fault?_eq_none]
  exact ⟨hsmall, Nat.le_trans hshort (by decide)⟩

open Step

/-- No array in the value has more items than memory can hold. -/
def Bounded (v : Value) : Prop :=
  ∀ level items, v.Holds level (array items) → items.length < UInt64.size

theorem Bounded.of_mem {items : List Value} (h : Bounded (array items)) {v : Value}
    (hv : v ∈ items) : v.Bounded :=
  fun level inner hinner => h (level + 1) inner (.item hv hinner)

theorem bounded_of_plain {v : Value} (h : v.Plain) : v.Bounded := by
  intro level items hitems
  obtain ⟨-, rfl⟩ := (holds_plain h).1 hitems
  exact h.elim

theorem bounded_array {items : List Value} (hcount : items.length < UInt64.size)
    (hitems : ∀ v ∈ items, v.Bounded) : (array items).Bounded := by
  intro level inner hinner
  obtain ⟨-, he⟩ | ⟨v, hv, below, -, hbelow⟩ := holds_array.1 hinner
  · cases he
    exact hcount
  · exact hitems v hv below inner hbelow

/-- Every value in this one can be loaded into the register that it is due to. -/
def Loadable (r : Nat) (v : Value) : Prop := ∀ level u, v.Holds level u → u.Fits (r + level)

theorem fault?_of_sound {r : Reg} {v : Value} (h : Sound (v.plan r)) : v.fault? r.toNat = none := by
  obtain ⟨i, rest, hplan, -⟩ := exists_plan_eq_cons r v
  rw [hplan] at h
  exact (sound_cons.1 h).1

theorem sound_items {r : Reg} {index : Nat} {items : List Value}
    (h : Sound (planItems r index items)) : ∀ v ∈ items, Sound (v.plan (r + 1)) := by
  induction items generalizing index with
  | nil => exact fun v hv => absurd hv List.not_mem_nil
  | cons v vs ih =>
    rw [planItems, sound_append, sound_cons, sound_cons] at h
    obtain ⟨hv, -, -, hvs⟩ := h
    exact List.forall_mem_cons.2 ⟨hv, ih hvs⟩

/-- Two registers are above an array that is loaded, so that no register number wraps around. -/
theorem sound_array {r : Reg} {items : List Value} (h : Sound ((array items).plan r)) :
    (r + 1).toNat = r.toNat + 1 ∧ (r + 2).toNat = r.toNat + 2 ∧ r.toNat + 2 < registerCount ∧
      ∀ v ∈ items, Sound (v.plan (r + 1)) := by
  have hfits : r.toNat + 2 ≤ 31 := (fault?_eq_none _ _).1 (fault?_of_sound h)
  have hroom : r.toNat + 2 < registerCount := Nat.lt_succ_of_le hfits
  rw [plan] at h
  exact ⟨Emission.toNat_above (n := 1) (Nat.lt_of_succ_lt hroom),
    Emission.toNat_above (n := 2) hroom, hroom, sound_items (sound_cons.1 h).2⟩

theorem loadable_of_sound {r : Reg} {v : Value} (h : Sound (v.plan r)) : v.Loadable r.toNat := by
  intro level u hu
  induction hu generalizing r with
  | self v => exact (fault?_eq_none _ _).1 (fault?_of_sound h)
  | @item items v level u hv hu ih =>
    obtain ⟨habove, -, -, hitems⟩ := sound_array h
    have hfits := ih (hitems v hv)
    rwa [habove, Nat.add_assoc, Nat.add_comm 1] at hfits

mutual

/-- The first fault of a plan is one of a value in the register that this value is due to. -/
theorem exists_holds_of_fault (r : Reg) (v : Value) (hbounded : v.Bounded) {refusal : Refusal}
    (h : (v.plan r).findSome? fault = some refusal) :
    ∃ level u, v.Holds level u ∧ u.fault? (r.toNat + level) = some refusal := by
  by_cases hplain : v.Plain
  · rw [plan_of_plain hplain, List.findSome?_singleton] at h
    exact ⟨0, v, .self v, h⟩
  · cases v with
    | array items =>
      rw [plan, List.findSome?_cons] at h
      cases hroom : (array items).fault? r.toNat with
      | some other =>
        simp only [hroom] at h
        cases h
        exact ⟨0, _, .self _, hroom⟩
      | none =>
        simp only [hroom] at h
        have hroom : r.toNat + 2 ≤ 31 := (fault?_eq_none _ _).1 hroom
        have hcount : 0 + items.length ≤ UInt64.size := by
          rw [Nat.zero_add]
          exact Nat.le_of_lt (hbounded 0 items (.self _))
        obtain ⟨v, hv, level, u, hu, hfault⟩ := exists_mem_of_fault r 0 items
          (Nat.lt_succ_of_le hroom) (fun v => hbounded.of_mem) hcount h
        refine ⟨level + 1, u, .item hv hu, ?_⟩
        rwa [Nat.add_comm level, ← Nat.add_assoc]
    | _ => exact absurd trivial hplain

theorem exists_mem_of_fault (r : Reg) (index : Nat) (items : List Value)
    (hroom : r.toNat + 2 < registerCount) (hbounded : ∀ v ∈ items, v.Bounded)
    (hcount : index + items.length ≤ UInt64.size) {refusal : Refusal}
    (h : (planItems r index items).findSome? fault = some refusal) :
    ∃ v ∈ items, ∃ level u, v.Holds level u ∧ u.fault? (r.toNat + 1 + level) = some refusal := by
  cases items with
  | nil => cases h
  | cons v vs =>
    have habove : (r + 1).toNat = r.toNat + 1 :=
      Emission.toNat_above (n := 1) (Nat.lt_of_succ_lt hroom)
    rw [List.length_cons] at hcount
    have hkey : (text (toString index)).fault? (r + 2).toNat = none := fault?_index _ (by omega)
    rw [planItems, List.findSome?_append, List.findSome?_cons, List.findSome?_cons] at h
    simp only [hkey] at h
    obtain hv | ⟨-, hvs⟩ := Option.or_eq_some_iff.1 h
    · obtain ⟨level, u, hu, hfault⟩ :=
        exists_holds_of_fault (r + 1) v (hbounded v List.mem_cons_self) hv
      rw [habove] at hfault
      exact ⟨v, List.mem_cons_self, level, u, hu, hfault⟩
    · obtain ⟨w, hw, hrest⟩ := exists_mem_of_fault r (index + 1) vs hroom
        (fun u hu => hbounded u (List.mem_cons_of_mem v hu)) (by omega) hvs
      exact ⟨w, List.mem_cons_of_mem v hw, hrest⟩

end

/-- A plan for a value has a fault just if something in the value cannot be loaded. -/
theorem sound_plan_iff (r : Reg) (v : Value) (hbounded : v.Bounded) :
    Sound (v.plan r) ↔ v.Loadable r.toNat := by
  refine ⟨loadable_of_sound, fun h => ?_⟩
  obtain hsound | ⟨front, refusal, hbreaks⟩ := sound_or_breaks (v.plan r)
  · exact hsound
  · obtain ⟨level, u, hu, hfault⟩ := exists_holds_of_fault r v hbounded hbreaks.findSome?
    rw [(fault?_eq_none _ _).2 (h level u hu)] at hfault
    cases hfault

end Value

namespace Assembly
open Step

/-- A value is loaded just if every text in it has only characters of one byte, no data in it are
too long, and every array finds two registers above its own. Then the compiled instructions are
written, and else those in front of the first that has a fault. -/
theorem load_exact {v : Value} (hbounded : v.Bounded) (r : Reg) (d : Draft) :
    ((∃ d', load r v d = .ok () d') ↔ ∀ level u, v.Holds level u → u.Fits (r.toNat + level)) ∧
    (∀ d', load r v d = .ok () d' →
      d' = { d with code := d.code ++ (v.compile r).flatMap Instr.encode }) ∧
    (∀ refusal d', load r v d = .error refusal d' ↔
      ∃ front, Breaks (v.plan r) front refusal ∧
        d' = { d with code := d.code ++ (instrs front).flatMap Instr.encode }) ∧
    ∀ refusal d', load r v d = .error refusal d' →
      ∃ level u, v.Holds level u ∧ u.fault? (r.toNat + level) = some refusal := by
  have hfollows := follows_load r v
  refine ⟨?_, fun d' h => (hfollows.eq_ok_iff.1 h).2, fun refusal d' => hfollows.eq_error_iff,
    fun refusal d' h => ?_⟩
  · simp only [hfollows.eq_ok_iff, exists_and_left, exists_eq, and_true]
    exact Value.sound_plan_iff r v hbounded
  · obtain ⟨front, hbreaks, -⟩ := hfollows.eq_error_iff.1 h
    exact Value.exists_holds_of_fault r v hbounded hbreaks.findSome?

def pairs : Value := .array [.text "é", .array [.enum 7, .bytes []]]

/-- The last four registers are enough for it, and the last three are not. -/
theorem load_pairs_last :
    pairs.Bounded ∧ (∀ level u, pairs.Holds level u → u.Fits (28 + level)) ∧
      ∃ d, load 29 pairs Draft.empty = .error (.outOfRange 32 31) d ∧
        d.code = [14, 29, 29, 0, 13, 30, 4, 1, 0xE9, 13, 31, 4, 1, 48, 47, 30, 29, 31] ∧
        ∃ level u, pairs.Holds level u ∧ u.fault? (29 + level) = some (.outOfRange 32 31) := by
  have hinner : (Value.array [.enum 7, .bytes []]).Bounded :=
    Value.bounded_array (by decide)
      (by simpa using ⟨Value.bounded_of_plain trivial, Value.bounded_of_plain trivial⟩)
  have hbounded : pairs.Bounded :=
    Value.bounded_array (by decide) (by simpa using ⟨Value.bounded_of_plain trivial, hinner⟩)
  obtain ⟨hfits, -⟩ := load_exact hbounded 28 Draft.empty
  obtain ⟨-, -, -, hfault⟩ := load_exact hbounded 29 Draft.empty
  have hbroken : load 29 pairs Draft.empty = .error (.outOfRange 32 31)
      ⟨[14, 29, 29, 0, 13, 30, 4, 1, 0xE9, 13, 31, 4, 1, 48, 47, 30, 29, 31], [], []⟩ := rfl
  exact ⟨hbounded, hfits.1 ⟨_, rfl⟩, _, hbroken, rfl, hfault _ _ hbroken⟩

end Assembly
end ChainScript
