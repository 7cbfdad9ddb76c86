/-
Runs of a labelled transition system and the invariant rule.

`Run start step` relates a history, newest label first, to the states that can
be reached by it.  Every safety theorem of the development is proved through
`Run.invariant`: the start states have the property and one step keeps it.
-/
import Mathlib.Tactic.Common

namespace RvMos
namespace Lib

/-- The states reached from `start` by `step`, with the labels of the steps
taken, newest first. -/
inductive Run {σ ι : Type} (start : σ → Prop) (step : σ → ι → σ → Prop) :
    List ι → σ → Prop
  | start {s : σ} : start s → Run start step [] s
  | next {ls : List ι} {s s' : σ} {l : ι} :
      Run start step ls s → step s l s' → Run start step (l :: ls) s'

namespace Run

variable {σ ι : Type} {start : σ → Prop} {step : σ → ι → σ → Prop}

/-- The invariant rule.  The invariant may mention the history. -/
theorem invariant {I : List ι → σ → Prop} (h0 : ∀ s, start s → I [] s)
    (hstep : ∀ ls s l s', I ls s → step s l s' → I (l :: ls) s')
    {ls : List ι} {s : σ} (h : Run start step ls s) : I ls s := by
  induction h with
  | start hs => exact h0 _ hs
  | next _ hs ih => exact hstep _ _ _ _ ih hs

theorem mono {step' : σ → ι → σ → Prop} (hstep : ∀ s l s', step s l s' → step' s l s')
    {ls : List ι} {s : σ} (h : Run start step ls s) : Run start step' ls s := by
  induction h with
  | start hs => exact .start hs
  | next _ hs ih => exact ih.next (hstep _ _ _ hs)

/-- A run computed by a function of the label, oldest label first. -/
def follow (f : ι → σ → Option σ) : List ι → σ → Option σ
  | [], s => some s
  | l :: ls, s => (f l s).bind (follow f ls)

theorem of_follow {f : ι → σ → Option σ} (hf : ∀ l s s', f l s = some s' → step s l s')
    {ls h : List ι} {s s' : σ} (hrun : Run start step h s) (hs : follow f ls s = some s') :
    Run start step (ls.reverse ++ h) s' := by
  induction ls generalizing h s with
  | nil => exact Option.some.inj hs ▸ hrun
  | cons l ls ih =>
    obtain ⟨s₁, h₁, h₂⟩ := Option.bind_eq_some_iff.mp hs
    have hnext := ih (hrun.next (hf l s s₁ h₁)) h₂
    rwa [List.reverse_cons, List.append_assoc]

end Run

end Lib
end RvMos
