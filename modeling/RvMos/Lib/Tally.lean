/-
Reference tallies.

A table of references is a map from slots to optional targets.  `tally m f` is
the number of slots that hold `f`.  Filling or clearing one slot moves the tally
of one target by one, and every bookkeeping argument about reference counters
is an instance of these two laws.
-/
import Mathlib.Data.Fintype.Card
import Mathlib.Data.Fintype.Prod
import Mathlib.Logic.Function.Basic
import Mathlib.Tactic.Common

namespace RvMos
namespace Lib

/-- The number of slots of `m` that refer to `f`. -/
def tally {ι φ : Type} [Fintype ι] [DecidableEq φ] (m : ι → Option φ) (f : φ) : Nat :=
  (Finset.univ.filter fun x => m x = some f).card

section Tally

variable {ι φ : Type} [Fintype ι] [DecidableEq φ] {m m' : ι → Option φ} {f g : φ} {x : ι}

theorem tally_eq_zero : tally m f = 0 ↔ ∀ x, m x ≠ some f := by
  simp [tally, Finset.filter_eq_empty_iff]

theorem tally_pos_of_holds (h : m x = some f) : 0 < tally m f := by
  refine Nat.pos_of_ne_zero fun h0 => ?_
  exact tally_eq_zero.mp h0 x h

/-- A slot that changes from empty to `f` adds one reference to `f` and none to
anything else. -/
theorem tally_fill [DecidableEq ι] (hx : m x = none)
    (hm : m' = Function.update m x (some f)) (g : φ) :
    tally m' g = tally m g + if f = g then 1 else 0 := by
  subst hm
  by_cases h : f = g
  · subst h
    have hset : (Finset.univ.filter fun y => Function.update m x (some f) y = some f) =
        insert x (Finset.univ.filter fun y => m y = some f) := by
      ext y
      by_cases hy : y = x
      · subst hy; simp
      · simp [hy]
    rw [if_pos rfl, tally, tally, hset]
    exact Finset.card_insert_of_notMem (by simp [hx])
  · have hset : (Finset.univ.filter fun y => Function.update m x (some f) y = some g) =
        Finset.univ.filter fun y => m y = some g := by
      ext y
      by_cases hy : y = x
      · subst hy; simp [hx, h]
      · simp [hy]
    rw [if_neg h, Nat.add_zero, tally, tally, hset]

/-- A slot that changes from `f` to empty takes one reference from `f`. -/
theorem tally_clear [DecidableEq ι] (hx : m x = some f)
    (hm : m' = Function.update m x none) (g : φ) :
    tally m' g + (if f = g then 1 else 0) = tally m g := by
  have hback : m = Function.update m' x (some f) := by
    subst hm
    rw [Function.update_idem, ← hx, Function.update_eq_self]
  exact (tally_fill (by rw [hm, Function.update_self]) hback g).symm

/-- Counting the members of a finite set that are matched one to one with the
slots that hold `f`. -/
theorem card_eq_tally {κ : Type} {A : Finset κ} {P : κ → Prop} [DecidablePred P] (g : κ → ι)
    (hg : ∀ a ∈ A, P a → m (g a) = some f)
    (hinj : ∀ a ∈ A, P a → ∀ b ∈ A, P b → g a = g b → a = b)
    (hsurj : ∀ x, m x = some f → ∃ a ∈ A, P a ∧ g a = x) :
    (A.filter P).card = tally m f := by
  unfold tally
  refine Finset.card_bij (fun a _ => g a) ?_ ?_ ?_
  · intro a ha
    obtain ⟨hA, hP⟩ := Finset.mem_filter.mp ha
    simpa using hg a hA hP
  · intro a ha b hb heq
    obtain ⟨hA, hP⟩ := Finset.mem_filter.mp ha
    obtain ⟨hB, hQ⟩ := Finset.mem_filter.mp hb
    exact hinj a hA hP b hB hQ heq
  · intro x hx
    obtain ⟨a, hA, hP, hax⟩ := hsurj x (by simpa using hx)
    exact ⟨a, Finset.mem_filter.mpr ⟨hA, hP⟩, hax⟩

theorem tally_congr (h : ∀ x, m' x = some f ↔ m x = some f) : tally m' f = tally m f := by
  unfold tally
  simp only [h]

theorem tally_eq_one (hx : m x = some f) (hu : ∀ y, m y = some f → y = x) : tally m f = 1 := by
  unfold tally
  rw [Finset.card_eq_one]
  refine ⟨x, Finset.eq_singleton_iff_unique_mem.mpr ⟨by simpa using hx, fun y hy => ?_⟩⟩
  exact hu y (by simpa using hy)

/-- Different slots that hold `f` are counted apart. -/
theorem card_le_tally {κ : Type} {A : Finset κ} (g : κ → ι) (hg : ∀ a ∈ A, m (g a) = some f)
    (hinj : ∀ a ∈ A, ∀ b ∈ A, g a = g b → a = b) : A.card ≤ tally m f := by
  refine Finset.card_le_card_of_injOn g ?_ fun a ha b hb heq => hinj a ha b hb heq
  intro a ha
  have hga := hg a ha
  simpa using hga

/-- The slots that hold one of two targets all hold `h` in another table. -/
theorem tally_add_le [DecidableEq ι] {ψ : Type} [DecidableEq ψ] {n : ι → Option ψ} {h : ψ} (hne : f ≠ g)
    (hf : ∀ x, m x = some f → n x = some h) (hg : ∀ x, m x = some g → n x = some h) :
    tally m f + tally m g ≤ tally n h := by
  unfold tally
  rw [← Finset.card_union_of_disjoint]
  · refine Finset.card_le_card fun x hx => ?_
    simp only [Finset.mem_union, Finset.mem_filter, Finset.mem_univ, true_and] at hx ⊢
    rcases hx with hx | hx
    · exact hf x hx
    · exact hg x hx
  · refine Finset.disjoint_filter.mpr fun x _ hx hx' => hne ?_
    exact Option.some.inj (hx.symm.trans hx')

/-- The slots inside a set and the slots outside. -/
theorem tally_split (P : ι → Prop) [DecidablePred P] (m : ι → Option φ) (f : φ) :
    tally m f = tally (fun x => if P x then m x else none) f +
      tally (fun x => if P x then none else m x) f := by
  unfold tally
  rw [← Finset.card_filter_add_card_filter_not P, Finset.filter_filter, Finset.filter_filter]
  congr 2
  · ext x
    by_cases hx : P x
    · simp [hx]
    · simp [hx]
  · ext x
    by_cases hx : P x
    · simp [hx]
    · simp [hx]

theorem tally_le_card (m : ι → Option φ) (f : φ) : tally m f ≤ Fintype.card ι :=
  Finset.card_le_univ _

/-- A slot that changes moves one reference. -/
theorem tally_update [DecidableEq ι] (m : ι → Option φ) (x : ι) (v : Option φ) (g : φ) :
    tally (Function.update m x v) g + (if m x = some g then 1 else 0) =
      tally m g + if v = some g then 1 else 0 := by
  have hclear : tally (Function.update m x none) g + (if m x = some g then 1 else 0) =
      tally m g := by
    cases hx : m x with
    | none =>
      rw [if_neg (by simp), Nat.add_zero, ← hx, Function.update_eq_self]
    | some f =>
      have h := tally_clear hx rfl g
      simpa only [Option.some.injEq] using h
  cases v with
  | none =>
    rw [hclear, if_neg (by simp), Nat.add_zero]
  | some f =>
    have hfill := tally_fill (m := Function.update m x none) (f := f) (Function.update_self ..)
      rfl g
    rw [Function.update_idem] at hfill
    simp only [Option.some.injEq]
    omega

end Tally

/-! ## Tables with counters -/

/-- A table of references that keeps a counter of `w` bits for every target. -/
structure RefTable (ι φ : Type) [Fintype ι] [DecidableEq φ] (w : Nat) where
  slots : ι → Option φ
  count : φ → BitVec w
  counted : ∀ f, count f = BitVec.ofNat w (tally slots f)

namespace RefTable

variable {ι φ : Type} [Fintype ι] [DecidableEq ι] [DecidableEq φ] {w : Nat}

def empty : RefTable ι φ w where
  slots := fun _ => none
  count := fun _ => BitVec.ofNat w 0
  counted := fun f => by rw [tally_eq_zero.mpr (fun _ => by simp)]

/-- The old target of the slot loses a reference and the new one gains one. -/
def set (t : RefTable ι φ w) (x : ι) (v : Option φ) : RefTable ι φ w where
  slots := Function.update t.slots x v
  count := fun f =>
    t.count f - (if t.slots x = some f then BitVec.ofNat w 1 else BitVec.ofNat w 0) +
      if v = some f then BitVec.ofNat w 1 else BitVec.ofNat w 0
  counted := fun f => by
    have h := congrArg (BitVec.ofNat w) (tally_update t.slots x v f)
    simp only [BitVec.ofNat_add, ← t.counted, apply_ite (BitVec.ofNat w)] at h
    grind

omit [DecidableEq ι] in
/-- With fewer slots than the counters can count, they do not wrap. -/
theorem count_toNat (t : RefTable ι φ w) (h : Fintype.card ι < 2 ^ w) (f : φ) :
    (t.count f).toNat = tally t.slots f := by
  rw [t.counted, BitVec.toNat_ofNat]
  exact Nat.mod_eq_of_lt (Nat.lt_of_le_of_lt (tally_le_card t.slots f) h)

end RefTable

end Lib
end RvMos
