/-
Arrays with checked accesses and the loops that move their cells.

An array is the list of its cells.  `put` gives nothing when the index lies
outside, so that a loop with a result has stayed inside the array.  Each loop has
one rule, which says what becomes of an array cut at the places the loop touches.
-/
import Mathlib.Data.List.Induction
import Mathlib.Tactic.Common

namespace RvMos
namespace Lib
namespace Buffer

variable {α : Type}

/-- `b[i] = x`. -/
def put (b : List α) (i : ℕ) (x : α) : Option (List α) :=
  if i < b.length then some (b.set i x) else none

theorem get_at {l r : List α} {x : α} {i : ℕ} (hi : i = l.length) :
    (l ++ x :: r)[i]? = some x := by
  subst hi
  simp

theorem put_at {l r : List α} {x y : α} {i : ℕ} (hi : i = l.length) :
    put (l ++ x :: r) i y = some (l ++ y :: r) := by
  subst hi
  simp [put]

/-- The `k` cells from `i` on. -/
def slice (b : List α) (i k : ℕ) : Option (List α) :=
  if i + k ≤ b.length then some ((b.drop i).take k) else none

theorem slice_at {l m r : List α} {i k : ℕ} (hi : i = l.length) (hk : k = m.length) :
    slice (l ++ m ++ r) i k = some m := by
  subst hi hk
  simp [slice]

/-- `for (…; i < i + k; i++) b[i] = x`. -/
def fill (b : List α) (i : ℕ) (x : α) : ℕ → Option (List α)
  | 0 => some b
  | k + 1 => (put b i x).bind fun b => fill b (i + 1) x k

theorem fill_at {l m r : List α} {x : α} {i : ℕ} (hi : i = l.length) :
    fill (l ++ m ++ r) i x m.length =
      some (l ++ List.replicate m.length x ++ r) := by
  induction m generalizing l i with
  | nil => simp [fill]
  | cons w m ih =>
    have hput : put (l ++ w :: m ++ r) i x = some ((l ++ [x]) ++ m ++ r) := by
      rw [List.append_assoc, List.cons_append, put_at hi]
      simp
    rw [List.length_cons, fill, hput, Option.bind_some, ih (by simp [hi])]
    simp [List.replicate_succ]

/-- The cells from `i` on become those of a list. -/
def copy (b : List α) (i : ℕ) : List α → Option (List α)
  | [] => some b
  | c :: cs => (put b i c).bind fun b => copy b (i + 1) cs

theorem copy_at {l m r cs : List α} {i : ℕ} (hi : i = l.length)
    (hlen : m.length = cs.length) :
    copy (l ++ m ++ r) i cs = some (l ++ cs ++ r) := by
  induction cs generalizing l m i with
  | nil => simp [copy, List.length_eq_zero_iff.mp hlen]
  | cons c cs ih =>
    obtain ⟨w, m, rfl⟩ := List.exists_cons_of_length_eq_add_one hlen
    have hput : put (l ++ w :: m ++ r) i c = some ((l ++ [c]) ++ m ++ r) := by
      rw [List.append_assoc, List.cons_append, put_at hi]
      simp
    rw [copy, hput, Option.bind_some, ih (by simp [hi]) (by simpa using hlen)]
    simp

theorem copy_eq {b cs : List α} {i : ℕ} (h : i + cs.length ≤ b.length) :
    copy b i cs = some (b.take i ++ cs ++ b.drop (i + cs.length)) := by
  have hcut : b = b.take i ++ (b.drop i).take cs.length ++ b.drop (i + cs.length) := by
    rw [List.append_assoc, ← List.drop_drop, List.take_append_drop, List.take_append_drop]
  have hi : i = (b.take i).length := by
    rw [List.length_take]
    omega
  have hlen : ((b.drop i).take cs.length).length = cs.length := by
    rw [List.length_take, List.length_drop]
    omega
  have hcopy : copy (b.take i ++ (b.drop i).take cs.length ++ b.drop (i + cs.length)) i cs =
      some (b.take i ++ cs ++ b.drop (i + cs.length)) := copy_at hi hlen
  rwa [← hcut] at hcopy

/-- `while (j > i) { swap b[i] and b[j]; i++; j--; }`. -/
def swapEnds (b : List α) (i : ℕ) : ℕ → Option (List α)
  | 0 => some b
  | j + 1 =>
    if i < j + 1 then do
      let x ← b[i]?
      let y ← b[j + 1]?
      let b ← put b i y
      let b ← put b (j + 1) x
      swapEnds b (i + 1) j
    else some b

/-- The loop reverses what lies between its two indices. -/
theorem swapEnds_at {l m r : List α} {i j : ℕ} (hi : i = l.length)
    (hj : j + 1 = l.length + m.length) :
    swapEnds (l ++ m ++ r) i j = some (l ++ m.reverse ++ r) := by
  induction m using List.bidirectionalRec generalizing l r i j with
  | nil =>
    have hstop : ¬i < j := by simp at hj; omega
    cases j with
    | zero => simp [swapEnds]
    | succ j => simp [swapEnds, hstop]
  | singleton w =>
    have hstop : ¬i < j := by simp at hj; omega
    cases j with
    | zero => simp [swapEnds]
    | succ j => simp [swapEnds, hstop]
  | cons_append w m v ih =>
    simp only [List.length_cons, List.length_append, List.length_nil] at hj
    obtain ⟨j, rfl⟩ : ∃ k, j = k + 1 := ⟨j - 1, by omega⟩
    have hcut : ∀ x y : α, l ++ x :: (m ++ [y]) ++ r = (l ++ x :: m) ++ y :: r := by simp
    have hcons : ∀ x y : α, l ++ x :: (m ++ [y]) ++ r = l ++ x :: (m ++ y :: r) := by simp
    have hx : (l ++ w :: (m ++ [v]) ++ r)[i]? = some w := by rw [hcons, get_at hi]
    have hy : (l ++ w :: (m ++ [v]) ++ r)[j + 1]? = some v := by
      rw [hcut, get_at (by simp; omega)]
    have hputx : put (l ++ w :: (m ++ [v]) ++ r) i v =
        some (l ++ v :: (m ++ [v]) ++ r) := by
      rw [hcons, put_at hi, hcons]
    have hputy : put (l ++ v :: (m ++ [v]) ++ r) (j + 1) w =
        some ((l ++ [v]) ++ m ++ w :: r) := by
      rw [hcut, put_at (by simp; omega)]
      simp
    simp only [swapEnds, if_pos (show i < j + 1 by omega), hx, hy, hputx, hputy,
      Option.bind_eq_bind, Option.bind_some]
    rw [ih (by simp [hi]) (by simp; omega)]
    simp

/-- `for (…; i < i + k; i++) b[i] = b[i + 1]`. -/
def shiftDown (b : List α) (i : ℕ) : ℕ → Option (List α)
  | 0 => some b
  | k + 1 => do
    let x ← b[i + 1]?
    let b ← put b i x
    shiftDown b (i + 1) k

/-- One cell goes; the last one is left behind as it was. -/
theorem shiftDown_at {l m r : List α} {x : α} {i : ℕ} (hi : i = l.length) :
    ∃ z, shiftDown (l ++ x :: m ++ r) i m.length = some (l ++ m ++ z :: r) := by
  induction m generalizing l x i with
  | nil => exact ⟨x, by simp [shiftDown]⟩
  | cons w m ih =>
    obtain ⟨z, hz⟩ := ih (l := l ++ [w]) (x := w) (i := i + 1) (by simp [hi])
    refine ⟨z, ?_⟩
    have hget : (l ++ x :: w :: m ++ r)[i + 1]? = some w := by
      have hcut : l ++ x :: w :: m ++ r = (l ++ [x]) ++ w :: (m ++ r) := by simp
      rw [hcut, get_at (by simp [hi])]
    have hput : put (l ++ x :: w :: m ++ r) i w = some ((l ++ [w]) ++ w :: m ++ r) := by
      rw [List.append_assoc, List.cons_append, put_at hi]
      simp
    simp only [List.length_cons, shiftDown, hget, hput, Option.bind_eq_bind, Option.bind_some, hz]
    simp

/-- `for (j = i + k; j > i; j--) b[j] = b[j - 1]`. -/
def shiftUp (b : List α) (i : ℕ) : ℕ → Option (List α)
  | 0 => some b
  | k + 1 => do
    let x ← b[i + k]?
    let b ← put b (i + k + 1) x
    shiftUp b i k

/-- The cells move up by one; the first place keeps what it had. -/
theorem shiftUp_at {l m r : List α} {y : α} {i : ℕ} (hi : i = l.length) :
    ∃ z, shiftUp (l ++ m ++ y :: r) i m.length = some (l ++ z :: m ++ r) := by
  induction m using List.reverseRecOn generalizing y r with
  | nil => exact ⟨y, by simp [shiftUp]⟩
  | append_singleton m v ih =>
    obtain ⟨z, hz⟩ := ih (y := v) (r := v :: r)
    refine ⟨z, ?_⟩
    have hget : (l ++ (m ++ [v]) ++ y :: r)[i + m.length]? = some v := by
      have hcut : l ++ (m ++ [v]) ++ y :: r = (l ++ m) ++ v :: (y :: r) := by simp
      rw [hcut, get_at (by simp [hi])]
    have hput : put (l ++ (m ++ [v]) ++ y :: r) (i + m.length + 1) v =
        some (l ++ m ++ v :: (v :: r)) := by
      rw [put_at (by simp [hi]; omega)]
      simp
    simp only [List.length_append, List.length_singleton, shiftUp, hget, hput,
      Option.bind_eq_bind, Option.bind_some, hz]
    simp

end Buffer
end Lib
end RvMos
