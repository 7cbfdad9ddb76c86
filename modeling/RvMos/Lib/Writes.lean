/-
Loops that write places of a map, one after the other.

What a place holds in the end was written there last, or stood there before.  Where the
places are different, the order of the loop does not matter.
-/
import Mathlib.Logic.Function.Basic
import Mathlib.Tactic.Common

namespace RvMos
namespace Lib

variable {ι κ α : Type} [DecidableEq κ]

/-- `for (i : l) m[f(i)] = g(i);` -/
def writes (f : ι → κ) (g : ι → α) (l : List ι) (m : κ → α) : κ → α :=
  l.foldl (fun m i => Function.update m (f i) (g i)) m

section Writes

variable {f : ι → κ} {g : ι → α} {l : List ι} {m : κ → α} {a : κ} {i : ι}

theorem writes_cons (m : κ → α) : writes f g (i :: l) m = writes f g l (Function.update m (f i) (g i)) := rfl

theorem writes_apart (h : ∀ i ∈ l, f i ≠ a) : writes f g l m a = m a := by
  induction l generalizing m with
  | nil => rfl
  | cons j l ih =>
    rw [writes_cons, ih fun i hi => h i (List.mem_cons_of_mem _ hi),
      Function.update_of_ne (h j (List.mem_cons_self ..)).symm]

theorem writes_at (hinj : ∀ i ∈ l, ∀ j ∈ l, f i = f j → i = j) (hi : i ∈ l) : writes f g l m (f i) = g i := by
  induction l generalizing m with
  | nil => exact absurd hi List.not_mem_nil
  | cons j l ih =>
    rw [writes_cons]
    by_cases hmem : i ∈ l
    · exact ih (fun a ha b hb => hinj a (List.mem_cons_of_mem _ ha) b (List.mem_cons_of_mem _ hb)) hmem
    · obtain rfl : i = j := (List.mem_cons.mp hi).resolve_right hmem
      rw [writes_apart fun b hb he => hmem (hinj b (List.mem_cons_of_mem _ hb) i (List.mem_cons_self ..) he ▸ hb),
        Function.update_self]

end Writes

end Lib
end RvMos
