import ChainScript.Proofs.Assembly.Plan

/-! What a refused call leaves behind. Most calls write nothing before all that they check has been
checked. Those that load several values keep the instructions in front of the first load that is
refused, and ending a script keeps its `ret`. Labels and references stay as they were. -/
namespace ChainScript
open Machine Step

namespace Emission

/-- Nothing is written if the step is refused. -/
def Atomic (e : Emission) : Prop := e.refusal = none ∨ e.pieces = []

/-- What comes behind a check may be written only if it is not refused itself. -/
theorem Atomic.append {a b : Emission} (ha : a.Atomic) (hb : b.refusal = none) :
    (a ++ b).Atomic := by
  cases hrefusal : a.refusal with
  | none => exact .inl (refusal_append_eq_none.2 ⟨hrefusal, hb⟩)
  | some refusal => rwa [append_of_refused hrefusal]

end Emission

namespace Call
variable {c : Call} {d d' : Draft} {refusal : Refusal}

/-- The calls that write one thing, if anything. -/
def Whole : Call → Prop
  | load _ v => v.Plain
  | arguments _ | invoke _ | readToken .. | finish => False
  | _ => True

def plan? : Call → Option (List Step)
  | load r v => some (v.plan r)
  | arguments args => some (Invocation.planArguments args)
  | invoke i => some i.plan
  | readToken symbol id dst =>
    some ((Invocation.readToken symbol id).plan ++ [⟨.pop dst, none⟩])
  | _ => none

theorem follows_perform {plan : List Step} (h : c.plan? = some plan) :
    Assembly.Follows c.perform plan := by
  cases c with
  | load r v =>
    cases h
    exact Assembly.follows_load r v
  | arguments args =>
    cases h
    exact Assembly.follows_arguments args
  | invoke i =>
    cases h
    exact Assembly.follows_invoke i
  | readToken symbol id dst =>
    cases h
    rw [Assembly.Follows, Emission.follow_append, ← Emission.invoke_eq_follow]
    exact (Assembly.emits_invoke _).bind (Assembly.emits_instr _)
  | _ => cases h

theorem perform_of_outcome_none (h : c.outcome d = (d', none)) : c.perform d = .ok () d' := by
  rw [outcome] at h
  split at h
  next hperform =>
    cases h
    exact hperform
  next => cases h

end Call
end ChainScript
