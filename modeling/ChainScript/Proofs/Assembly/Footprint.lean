import ChainScript.Proofs.Assembly.Loading
import ChainScript.Proofs.Assembly.Refused

/-! Which registers the loading of values overwrites. An array with items takes two registers above
its own, and since items are loaded one register higher, each array around it adds one. Two
registers are enough only where no array has an array with items among its own. -/
namespace ChainScript
open Machine Step

namespace Value
variable {r q : Reg} {v : Value} {items : List Value}

/-- The registers that a value needs: its own, and from there two above that of every array with
items. -/
def Reaches (r : Reg) (v : Value) (q : Reg) : Prop :=
  q = r ∨ ∃ level items, v.Holds level (array items) ∧ items ≠ [] ∧
    r.toNat ≤ q.toNat ∧ q.toNat ≤ r.toNat + level + 2

/-- No array in the value has an array with items among its own. -/
def Shallow (v : Value) : Prop := ∀ level items, v.Holds (level + 1) (array items) → items = []

theorem reaches_plain (h : v.Plain) : v.Reaches r q ↔ q = r := by
  refine ⟨?_, .inl⟩
  rintro (rfl | ⟨level, items, hitems, -⟩)
  · rfl
  · obtain ⟨-, rfl⟩ := (holds_plain h).1 hitems
    exact h.elim

theorem writes_compile_plain (h : v.Plain) : Writes (v.compile r) q ↔ q = r := by
  rw [compile, plan_of_plain h]
  simp [Writes, instrs, Instr.target?, eq_comm]

theorem writes_items (index : Nat) :
    Writes (instrs (planItems r index items)) q ↔
      ∃ v ∈ items, q = r ∨ q = r + 2 ∨ Writes (v.compile (r + 1)) q := by
  induction items generalizing index with
  | nil => simp [planItems, instrs, writes_nil]
  | cons v vs ih =>
    have hhead : instrs (planItems r index (v :: vs)) =
        v.compile (r + 1) ++ .load (r + 2) .string (key index) ::
          .put (r + 1) r (r + 2) :: instrs (planItems r (index + 1) vs) := List.map_append
    have hload : (Instr.load (r + 2) .string (key index)).target? = some q ↔ q = r + 2 := by
      simp [Instr.target?, eq_comm]
    have hput : (Instr.put (r + 1) r (r + 2)).target? = some q ↔ q = r := by
      simp [Instr.target?, eq_comm]
    rw [hhead, writes_append, writes_cons, writes_cons, hload, hput, ih]
    simp only [List.mem_cons, or_and_right, exists_or, exists_eq_left]
    grind only

theorem writes_compile_array :
    Writes ((array items).compile r) q ↔
      q = r ∨ ∃ v ∈ items, q = r ∨ q = r + 2 ∨ Writes (v.compile (r + 1)) q := by
  have hcast : (Instr.cast r r .none).target? = some q ↔ q = r := by
    simp [Instr.target?, eq_comm]
  rw [← writes_items 0, ← hcast, ← writes_cons, compile, plan]
  rfl

theorem writes_compile_self (r : Reg) (v : Value) : Writes (v.compile r) r := by
  obtain ⟨i, rest, hplan, htarget⟩ := exists_plan_eq_cons r v
  rw [compile, hplan]
  exact writes_cons.2 (.inl htarget)

theorem reaches_of_writes {r q : Reg} {v : Value} (h : Sound (v.plan r))
    (hq : Writes (v.compile r) q) : v.Reaches r q := by
  by_cases hplain : v.Plain
  · exact .inl ((writes_compile_plain hplain).1 hq)
  · cases v with
    | array items =>
      obtain ⟨habove, hfurther, -, hsound⟩ := sound_array h
      obtain rfl | ⟨v, hv, hq⟩ := writes_compile_array.1 hq
      · exact .inl rfl
      · have hitems : items ≠ [] := List.ne_nil_of_mem hv
        obtain rfl | rfl | hq := hq
        · exact .inl rfl
        · exact .inr ⟨0, items, .self _, hitems, by omega, by omega⟩
        · obtain rfl | ⟨level, inner, hinner, hne, hlow, hhigh⟩ :=
            reaches_of_writes (hsound v hv) hq
          · exact .inr ⟨0, items, .self _, hitems, by omega, by omega⟩
          · exact .inr ⟨level + 1, inner, .item hv hinner, hne, by omega, by omega⟩
    | _ => exact absurd trivial hplain
termination_by v

/-- Along the arrays around the one that goes highest, each of which writes its own register. -/
theorem writes_of_holds {level : Nat} (hholds : v.Holds level (array items)) (hitems : items ≠ [])
    (h : Sound (v.plan r)) (hlow : r.toNat ≤ q.toNat) (hhigh : q.toNat ≤ r.toNat + level + 2) :
    Writes (v.compile r) q := by
  obtain he | hne := eq_or_ne q r
  · exact he ▸ writes_compile_self r v
  replace hlow : r.toNat < q.toNat :=
    Nat.lt_of_le_of_ne hlow fun he => hne (UInt8.toNat_inj.1 he.symm)
  generalize hu : array items = u at hholds
  induction hholds generalizing r with
  | self v =>
    subst hu
    obtain ⟨w, hw⟩ := List.exists_mem_of_ne_nil items hitems
    obtain ⟨habove, hfurther, -⟩ := sound_array h
    refine writes_compile_array.2 (.inr ⟨w, hw, .inr ?_⟩)
    obtain he | he : q.toNat = (r + 1).toNat ∨ q.toNat = (r + 2).toNat := by omega
    · rw [UInt8.toNat_inj.1 he]
      exact .inr (writes_compile_self (r + 1) w)
    · exact .inl (UInt8.toNat_inj.1 he)
  | @item inner w level u hw hbelow ih =>
    obtain ⟨habove, -, -, hsound⟩ := sound_array h
    refine writes_compile_array.2 (.inr ⟨w, hw, .inr (.inr ?_)⟩)
    obtain he | hne := eq_or_ne q (r + 1)
    · exact he ▸ writes_compile_self (r + 1) w
    · have habove' : q.toNat ≠ (r + 1).toNat := fun he => hne (UInt8.toNat_inj.1 he)
      exact ih (hsound w hw) (by omega) hne (by omega) hu

theorem writes_compile_iff (h : Sound (v.plan r)) : Writes (v.compile r) q ↔ v.Reaches r q := by
  refine ⟨reaches_of_writes h, ?_⟩
  rintro (rfl | ⟨level, items, hholds, hitems, hlow, hhigh⟩)
  · exact writes_compile_self q v
  · exact writes_of_holds hholds hitems h hlow hhigh

/-- The third register above is the first that is too high, and a deeper array goes there. -/
theorem shallow_iff (h : Sound (v.plan r)) :
    v.Shallow ↔ ∀ q, v.Reaches r q → q.toNat ≤ r.toNat + 2 := by
  constructor
  · rintro hshallow q (rfl | ⟨level, items, hholds, hitems, -, hhigh⟩)
    · omega
    · cases level with
      | zero => exact hhigh
      | succ level => exact absurd (hshallow level items hholds) hitems
  · intro hbound level items hholds
    by_contra hitems
    cases v with
    | array outer =>
      obtain ⟨-, -, hroom, -⟩ := sound_array h
      have hroom : r.toNat + 2 < 32 := hroom
      have hthird : (r + 3).toNat = r.toNat + 3 := by
        rw [UInt8.toNat_add]
        exact Nat.mod_eq_of_lt (by change r.toNat + 3 < 256; omega)
      have hle := hbound (r + 3) (.inr ⟨_, items, hholds, hitems, by omega, by omega⟩)
      omega
    | _ => nomatch hholds

end Value

namespace Call
variable {c : Call} {r : Reg} {vs : List Value} {d d' : Draft}

def loaded? : Call → Option (Reg × List Value)
  | load r v => some (r, [v])
  | arguments args => some (0, args)
  | _ => none

/-- Pushing writes no register, and so it makes no difference in which order values are pushed. -/
theorem writes_arguments {q : Reg} {args : List Value} :
    Writes (instrs (Invocation.planArguments args)) q ↔ ∃ v ∈ args, Writes (v.compile 0) q := by
  have hpush : (Instr.push 0).target? = none := rfl
  simp only [Invocation.planArguments, instrs, Writes, Value.compile, List.mem_map,
    List.mem_flatMap, List.mem_reverse, List.mem_append, List.mem_singleton]
  constructor
  · rintro ⟨i, ⟨s, ⟨v, hv, hs | rfl⟩, rfl⟩, hq⟩
    · exact ⟨v, hv, s.instr, ⟨s, hs, rfl⟩, hq⟩
    · rw [hpush] at hq
      cases hq
  · rintro ⟨v, hv, i, ⟨s, hs, rfl⟩, hq⟩
    exact ⟨s.instr, ⟨s, ⟨v, hv, .inl hs⟩, rfl⟩, hq⟩

/-- A plan without faults can be followed if what carries it out can be when it is not refused. -/
theorem exists_replay_of_eq_follow {e : Emission} {plan : List Step} (he : e = .follow plan)
    (h : Sound plan) {s : State} (hreplay : e.refusal = none → ∃ s', e.replay s = some s') :
    ∃ s', replay (instrs plan) s = some s' := by
  rw [Emission.follow_sound h] at he
  have hpieces : e.pieces = (instrs plan).map .instr := congrArg Emission.pieces he
  have hnone : e.refusal = none := congrArg Emission.refusal he
  rw [← Emission.replay_of_instrs hpieces]
  exact hreplay hnone

theorem exists_replay_load {v : Value} (hr : r.toNat < registerCount) (h : Sound (v.plan r))
    (s : State) : ∃ s', replay (v.compile r) s = some s' := by
  refine exists_replay_of_eq_follow (Emission.load_eq_follow r v) h fun hnone => ?_
  obtain ⟨_, -, hreplay⟩ := Emission.replay_load v hr hnone
  obtain ⟨s', hs', -⟩ := hreplay s
  exact ⟨s', hs'⟩

theorem exists_replay_arguments {args : List Value} (h : Sound (Invocation.planArguments args))
    (s : State) : ∃ s', replay (instrs (Invocation.planArguments args)) s = some s' := by
  refine exists_replay_of_eq_follow (Emission.pushValues_eq_follow args.reverse) h fun hnone => ?_
  obtain ⟨_, -, hreplay⟩ := Emission.replay_pushValues args.reverse hnone
  obtain ⟨s', hs', -⟩ := hreplay s
  exact ⟨s', hs'⟩

theorem exists_plan_of_loaded (hc : c.loaded? = some (r, vs)) :
    ∃ plan, c.plan? = some plan ∧ (Sound plan → ∀ v ∈ vs, Sound (v.plan r)) ∧
      (∀ q, Writes (instrs plan) q ↔ ∃ v ∈ vs, Writes (v.compile r) q) ∧
      (r.toNat < registerCount → Sound plan → ∀ s, ∃ s', replay (instrs plan) s = some s') := by
  cases c with
  | load r v =>
    cases hc
    refine ⟨_, rfl, fun h => List.forall_mem_singleton.2 h, fun q => ?_, exists_replay_load⟩
    simp only [List.mem_singleton, exists_eq_left]
    rfl
  | arguments args =>
    cases hc
    refine ⟨_, rfl, fun h v hv s hs => h s ?_, fun q => writes_arguments,
      fun _ => exists_replay_arguments⟩
    exact List.mem_flatMap.2 ⟨v, List.mem_reverse.2 hv, List.mem_append_left _ hs⟩
  | _ => cases hc

/-- Loading values into a register writes this register, and with every array that has items the
registers up to two above its own, however deep it is. So two registers above are enough just if no
array has an array with items among its own. All other registers are as they were. -/
theorem footprint (hc : c.loaded? = some (r, vs)) (h : c.outcome d = (d', none)) :
    ∃ plan, c.plan? = some plan ∧ d' = d.write (instrs plan) ∧
      (∀ q, Writes (instrs plan) q ↔ ∃ v ∈ vs, v.Reaches r q) ∧
      ((∀ v ∈ vs, v.Plain) → ∀ q, Writes (instrs plan) q → q = r) ∧
      ((∀ q, Writes (instrs plan) q → q.toNat ≤ r.toNat + 2) ↔ ∀ v ∈ vs, v.Shallow) ∧
      (r.toNat < registerCount → ∀ s, ∃ s', replay (instrs plan) s = some s' ∧
        ∀ q, (∀ v ∈ vs, ¬ v.Reaches r q) → s'.regs q = s.regs q) := by
  obtain ⟨plan, hplan, hsound, hwrites, hreplay⟩ := exists_plan_of_loaded hc
  obtain ⟨hfaultless, hafter⟩ := (follows_perform hplan).eq_ok_iff.1 (perform_of_outcome_none h)
  replace hsound := hsound hfaultless
  have hreaches : ∀ q, Writes (instrs plan) q ↔ ∃ v ∈ vs, v.Reaches r q := fun q => by
    rw [hwrites]
    exact exists_congr fun v => and_congr_right fun hv => Value.writes_compile_iff (hsound v hv)
  refine ⟨plan, hplan, hafter, hreaches, fun hplain q hq => ?_, ?_, fun hr s => ?_⟩
  · obtain ⟨v, hv, hq⟩ := (hreaches q).1 hq
    exact (Value.reaches_plain (hplain v hv)).1 hq
  · simp only [hreaches]
    constructor
    · intro hbound v hv
      exact (Value.shallow_iff (hsound v hv)).2 fun q hq => hbound q ⟨v, hv, hq⟩
    · rintro hshallow q ⟨v, hv, hq⟩
      exact (Value.shallow_iff (hsound v hv)).1 (hshallow v hv) q hq
  · obtain ⟨s', hs'⟩ := hreplay hr hfaultless s
    refine ⟨s', hs', fun q hq => regs_of_replay hs' fun hwritten => ?_⟩
    obtain ⟨v, hv, hv'⟩ := (hreaches q).1 hwritten
    exact hq v hv hv'

def nested : Value := .array [.array [.bool true]]

theorem reaches_nested {q : Reg} : nested.Reaches 0 q ↔ q.toNat ≤ 3 := by
  constructor
  · rintro (rfl | ⟨level, items, hholds, -, -, hhigh⟩)
    · decide
    · have hlevel : level = 0 ∨ level = 1 := by
        simp [nested, Value.holds_array, Value.holds_plain (v := .bool true) trivial] at hholds
        exact hholds.imp And.left And.left
      have hhigh : q.toNat ≤ 0 + level + 2 := hhigh
      omega
  · intro hq
    have hinner : nested.Holds 1 (.array [.bool true]) := .item List.mem_cons_self (.self _)
    exact .inr ⟨1, _, hinner, List.cons_ne_nil _ _, Nat.zero_le _, hq⟩

/-- As an argument it leaves everything above register 3 as it was. -/
theorem footprint_nested :
    ∃ d plan, (arguments [.text "me", nested]).outcome Draft.empty = (d, none) ∧
      d = Draft.empty.write (instrs plan) ∧ Writes (instrs plan) 3 ∧
      ∀ s, ∃ s', replay (instrs plan) s = some s' ∧
        ∀ q : Reg, 3 < q.toNat → s'.regs q = s.regs q := by
  obtain ⟨d, hd⟩ : ∃ d, (arguments [.text "me", nested]).outcome Draft.empty = (d, none) :=
    ⟨_, rfl⟩
  obtain ⟨plan, -, hafter, hwrites, -, -, hreplay⟩ := footprint rfl hd
  refine ⟨d, plan, hd, hafter, ?_, fun s => ?_⟩
  · exact (hwrites 3).2 ⟨nested, by simp, reaches_nested.2 (by decide)⟩
  · obtain ⟨s', hs', hkept⟩ := hreplay (by decide) s
    refine ⟨s', hs', fun q hq => hkept q ?_⟩
    have htext : ¬ (Value.text "me").Reaches 0 q := by
      rw [Value.reaches_plain (v := .text "me") trivial]
      rintro rfl
      cases hq
    have hnested : ¬ nested.Reaches 0 q := mt reaches_nested.1 (Nat.not_le.2 hq)
    simp [htext, hnested]

/-- Two registers are not enough for it: as an argument it leaves the key of its item's item in
register 3. -/
theorem nested_overwrites : ∃ is d, (arguments [nested]).outcome Draft.empty = (d, none) ∧
    d = Draft.empty.write is ∧ .load 3 .string [48] ∈ is ∧
      ∀ s, ∃ s', replay is s = some s' ∧ s'.regs 3 = .datum .string [48] :=
  ⟨[.cast 0 0 .none, .cast 1 1 .none, .load 2 .bool [1], .load 3 .string [48], .put 2 1 3,
    .load 2 .string [48], .put 1 0 2, .push 0], _, rfl, rfl, by decide, fun s => ⟨_, rfl, rfl⟩⟩

end Call
end ChainScript
