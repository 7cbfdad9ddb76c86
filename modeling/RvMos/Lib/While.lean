/-
Loops with a bound on their turns and the rule of total correctness.

A loop that has not stopped within its fuel gives nothing, and so does one whose test
or body gives nothing.  The invariant of the rule mentions a number that every turn
lowers; a fuel above the number then suffices.
-/
import Mathlib.Tactic.Common

namespace RvMos
namespace Lib

variable {σ : Type}

/-- `while (test) body`. -/
def whileLoop (test : σ → Option Bool) (body : σ → Option σ) : ℕ → σ → Option σ
  | 0, _ => none
  | fuel + 1, s =>
    (test s).bind fun b => if b then (body s).bind (whileLoop test body fuel) else some s

section Rule

variable {test : σ → Option Bool} {body : σ → Option σ} {fuel : ℕ} {s s' : σ}

theorem whileLoop_stop (h : test s = some false) : whileLoop test body (fuel + 1) s = some s := by
  simp only [whileLoop, h, Option.bind_some, Bool.false_eq_true, if_false]

theorem whileLoop_turn (h : test s = some true) (hb : body s = some s') :
    whileLoop test body (fuel + 1) s = whileLoop test body fuel s' := by
  simp only [whileLoop, h, hb, Option.bind_some, if_true]

/-- The rule for a loop: an invariant of the body, with a number that the body lowers. -/
theorem whileLoop_total {I : ℕ → σ → Prop} {k : ℕ}
    (hI : ∀ k s, I k s → test s = some false ∨
      test s = some true ∧ ∃ s', body s = some s' ∧ ∃ k' < k, I k' s')
    (hs : I k s) (hfuel : k < fuel) :
    ∃ t, whileLoop test body fuel s = some t ∧ test t = some false ∧ ∃ k', I k' t := by
  induction fuel generalizing s k with
  | zero => exact absurd hfuel (Nat.not_lt_zero k)
  | succ fuel ih =>
    rcases hI k s hs with hstop | ⟨hgo, s', hb, k', hless, hs'⟩
    · exact ⟨s, whileLoop_stop hstop, hstop, k, hs⟩
    · rw [whileLoop_turn hgo hb]
      exact ih hs' (by omega)

/-- A loop that goes along a sequence of states, `d` places a turn. -/
theorem whileLoop_along {r : ℕ → σ} {P g : ℕ → Prop} [DecidablePred g] {i n d : ℕ} (hd : 0 < d)
    (htest : ∀ i ≤ n, test (r i) = some (decide (g i)))
    (hbody : ∀ i ≤ n, P i → g i → body (r i) = some (r (i + d)) ∧ i + d ≤ n ∧ P (i + d))
    (hi : i ≤ n) (hP : P i) (hfuel : n - i < fuel) :
    ∃ j ≤ n, whileLoop test body fuel (r i) = some (r j) ∧ P j ∧ ¬g j := by
  have hI : ∀ k s, (∃ j, j + k = n ∧ s = r j ∧ P j) → test s = some false ∨
      test s = some true ∧ ∃ s', body s = some s' ∧ ∃ k' < k, ∃ j, j + k' = n ∧ s' = r j ∧ P j := by
    rintro k s ⟨j, hj, rfl, hPj⟩
    rw [htest j (by omega)]
    by_cases hg : g j
    · obtain ⟨hb, hle, hP'⟩ := hbody j (by omega) hPj hg
      refine .inr ⟨by rw [decide_eq_true hg], r (j + d), hb, n - (j + d), by omega, j + d, ?_⟩
      exact ⟨by omega, rfl, hP'⟩
    · exact .inl (by rw [decide_eq_false hg])
  obtain ⟨t, hrun, hstop, k, j, hj, rfl, hPj⟩ :=
    whileLoop_total hI ⟨i, by omega, rfl, hP⟩ hfuel
  rw [htest j (by omega)] at hstop
  exact ⟨j, by omega, hrun, hPj, of_decide_eq_false (Option.some.inj hstop)⟩

end Rule

end Lib
end RvMos
