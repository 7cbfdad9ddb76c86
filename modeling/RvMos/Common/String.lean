/-
`memcpy` and `memset` (`lib/string.c`).

Both go over the destination in three loops: bytes up to the first address that is a
multiple of 4, then words, then the bytes that are left.  A word access at any other
address has no result here.  The loops are the same for the two functions but for what
one turn does, so that they are written once, over a cursor and the address it has
reached.
-/
import RvMos.Lib.Riscv
import RvMos.Lib.While
import RvMos.Kern.Mmu

namespace RvMos

open Lib

open Riscv (Mem loadWord storeWord)

namespace Common

/-! ## The three loops -/

section Loops

variable {σ : Type} (dst : σ → Word) (max : Word)

/-- `while (dst < max)`. -/
def bytesLoop (byte : σ → Option σ) : ℕ → σ → Option σ :=
  whileLoop (fun s => some (decide (dst s < max))) byte

/-- `while (((u_long)dst & 3) && dst < max)`. -/
def headLoop (byte : σ → Option σ) : ℕ → σ → Option σ :=
  whileLoop (fun s => some (decide (dst s &&& 3#32 ≠ 0#32 ∧ dst s < max))) byte

/-- `while (dst + 4 <= max)`. -/
def wordsLoop (word : σ → Option σ) : ℕ → σ → Option σ :=
  whileLoop (fun s => some (decide (dst s + 4#32 ≤ max))) word

end Loops

/-! ## The functions -/

/-- The memory and the two pointers of `memcpy`. -/
structure Copy where
  mem : Mem
  dst : Word
  src : Word

namespace Copy

/-- `*(char *)dst++ = *(char *)src++`. -/
def byte (c : Copy) : Option Copy :=
  some ⟨Function.update c.mem c.dst (c.mem c.src), c.dst + 1#32, c.src + 1#32⟩

/-- `*(uint32_t *)dst = *(uint32_t *)src; dst += 4; src += 4`. -/
def word (c : Copy) : Option Copy :=
  if c.dst &&& 3#32 = 0#32 ∧ c.src &&& 3#32 = 0#32 then
    some ⟨storeWord c.mem c.dst (loadWord c.mem c.src), c.dst + 4#32, c.src + 4#32⟩
  else none

end Copy

def memcpy (mem : Mem) (dst src n : Word) : Option (Word × Mem) := do
  let dstaddr := dst
  let max := dst + n
  let fuel := n.toNat + 1
  if src &&& 3#32 ≠ dst &&& 3#32 then
    let c ← bytesLoop Copy.dst max Copy.byte fuel ⟨mem, dst, src⟩
    some (dstaddr, c.mem)
  else
    let c ← headLoop Copy.dst max Copy.byte fuel ⟨mem, dst, src⟩
    let c ← wordsLoop Copy.dst max Copy.word fuel c
    let c ← bytesLoop Copy.dst max Copy.byte fuel c
    some (dstaddr, c.mem)

/-- The memory and the pointer of `memset`. -/
structure Fill where
  mem : Mem
  dst : Word

namespace Fill

/-- `*(u_char *)dst++ = byte`. -/
def byte (b : Riscv.Byte) (f : Fill) : Option Fill :=
  some ⟨Function.update f.mem f.dst b, f.dst + 1#32⟩

/-- `*(uint32_t *)dst = word; dst += 4`. -/
def word (w : Word) (f : Fill) : Option Fill :=
  if f.dst &&& 3#32 = 0#32 then some ⟨storeWord f.mem f.dst w, f.dst + 4#32⟩ else none

end Fill

/-- `byte | byte << 8 | byte << 16 | byte << 24`. -/
def fourTimes (b : Riscv.Byte) : Word :=
  let b := b.setWidth 32
  b ||| b <<< 8 ||| b <<< 16 ||| b <<< 24

def memset (mem : Mem) (dst c n : Word) : Option (Word × Mem) := do
  let dstaddr := dst
  let max := dst + n
  let fuel := n.toNat + 1
  let byte : Riscv.Byte := (c &&& 0xff#32).setWidth 8
  let word := fourTimes byte
  let f ← headLoop Fill.dst max (Fill.byte byte) fuel ⟨mem, dst⟩
  let f ← wordsLoop Fill.dst max (Fill.word word) fuel f
  let f ← bytesLoop Fill.dst max (Fill.byte byte) fuel f
  some (dstaddr, f.mem)

/-! ## The byte loops -/

/-- Byte `i` is copied, for `i` from 0 up to `n`. -/
def copyBytes (mem : Mem) (dst src : Word) : ℕ → Mem
  | 0 => mem
  | i + 1 =>
    let mem := copyBytes mem dst src i
    Function.update mem (dst + BitVec.ofNat 32 i) (mem (src + BitVec.ofNat 32 i))

def fillBytes (mem : Mem) (dst : Word) (b : Riscv.Byte) : ℕ → Mem
  | 0 => mem
  | i + 1 => Function.update (fillBytes mem dst b i) (dst + BitVec.ofNat 32 i) b

/-! ## The three loops together -/

section Walk

variable {σ : Type} {dst : σ → Word} {byte word : σ → Option σ} {a n : Word} {r : ℕ → σ} {i : ℕ}

/-- State `r i` has reached byte `i` from `a` on, and a turn goes on by a byte. -/
structure Bytewise (dst : σ → Word) (byte : σ → Option σ) (a : Word) (r : ℕ → σ) : Prop where
  reach : ∀ i, dst (r i) = a + BitVec.ofNat 32 i
  byte : ∀ i, byte (r i) = some (r (i + 1))

/-- Also by a word, where that is aligned. -/
structure Walk (dst : σ → Word) (byte word : σ → Option σ) (a : Word) (r : ℕ → σ) : Prop
    extends Bytewise dst byte a r where
  word : ∀ i, (a + BitVec.ofNat 32 i) &&& 3#32 = 0#32 → word (r i) = some (r (i + 4))

theorem lt_max_iff (hroom : a.toNat + n.toNat + 4 < 2 ^ 32) (hi : i ≤ n.toNat) :
    a + BitVec.ofNat 32 i < a + n ↔ i < n.toNat := by
  rw [BitVec.lt_def, BitVec.toNat_add, BitVec.toNat_add, BitVec.toNat_ofNat]
  omega

theorem word_le_max_iff (hroom : a.toNat + n.toNat + 4 < 2 ^ 32) (hi : i ≤ n.toNat) :
    a + BitVec.ofNat 32 i + 4#32 ≤ a + n ↔ i + 4 ≤ n.toNat := by
  rw [BitVec.le_def, BitVec.toNat_add, BitVec.toNat_add, BitVec.toNat_add, BitVec.toNat_ofNat,
    BitVec.toNat_ofNat]
  omega

variable {fuel : ℕ}

theorem headLoop_walk (h : Bytewise dst byte a r) (hroom : a.toNat + n.toNat + 4 < 2 ^ 32)
    (hfuel : n.toNat < fuel) :
    ∃ i ≤ n.toNat, headLoop dst (a + n) byte fuel (r 0) = some (r i) ∧
      ((a + BitVec.ofNat 32 i) &&& 3#32 = 0#32 ∨ i = n.toNat) := by
  have hloop : ∃ i ≤ n.toNat, headLoop dst (a + n) byte fuel (r 0) = some (r i) ∧ True ∧
      ¬((a + BitVec.ofNat 32 i) &&& 3#32 ≠ 0#32 ∧ i < n.toNat) := by
    refine whileLoop_along (d := 1) Nat.one_pos (fun i hi => ?_) (fun i hi _ hg => ?_)
      (Nat.zero_le _) trivial hfuel
    · simp only [h.reach i, lt_max_iff hroom hi]
    · exact ⟨h.byte i, hg.2, trivial⟩
  obtain ⟨i, hi, hrun, -, hstop⟩ := hloop
  refine ⟨i, hi, hrun, ?_⟩
  by_cases hal : (a + BitVec.ofNat 32 i) &&& 3#32 = 0#32
  · exact .inl hal
  · exact .inr (by_contra fun hne => hstop ⟨hal, by omega⟩)

theorem and_three_toNat (x : Word) : (x &&& 3#32).toNat = x.toNat % 4 := by
  rw [BitVec.toNat_and]
  exact Nat.and_two_pow_sub_one_eq_mod x.toNat 2

theorem and_three_eq_iff {x y : Word} : x &&& 3#32 = y &&& 3#32 ↔ x.toNat % 4 = y.toNat % 4 := by
  rw [← BitVec.toNat_inj, and_three_toNat, and_three_toNat]

theorem and_three_add_four (x : Word) : (x + 4#32) &&& 3#32 = x &&& 3#32 := by
  rw [and_three_eq_iff, BitVec.toNat_add, BitVec.toNat_ofNat]
  omega

theorem wordsLoop_walk (h : Walk dst byte word a r) (hroom : a.toNat + n.toNat + 4 < 2 ^ 32)
    (hi : i ≤ n.toNat) (hal : (a + BitVec.ofNat 32 i) &&& 3#32 = 0#32 ∨ i = n.toNat)
    (hfuel : n.toNat < fuel) :
    ∃ j ≤ n.toNat, wordsLoop dst (a + n) word fuel (r i) = some (r j) := by
  have hloop : ∃ j ≤ n.toNat, wordsLoop dst (a + n) word fuel (r i) = some (r j) ∧
      ((a + BitVec.ofNat 32 j) &&& 3#32 = 0#32 ∨ j = n.toNat) ∧ ¬j + 4 ≤ n.toNat := by
    refine whileLoop_along (d := 4) (by omega) (fun j hj => ?_) (fun j hj hal hg => ?_) hi hal
      (by omega)
    · simp only [h.reach j, word_le_max_iff hroom hj]
    · have hal : (a + BitVec.ofNat 32 j) &&& 3#32 = 0#32 := hal.resolve_right (by omega)
      refine ⟨h.word j hal, hg, .inl ?_⟩
      rw [BitVec.ofNat_add, ← BitVec.add_assoc, and_three_add_four, hal]
  obtain ⟨j, hj, hrun, -⟩ := hloop
  exact ⟨j, hj, hrun⟩

theorem bytesLoop_walk (h : Bytewise dst byte a r) (hroom : a.toNat + n.toNat + 4 < 2 ^ 32)
    (hi : i ≤ n.toNat) (hfuel : n.toNat < fuel) :
    bytesLoop dst (a + n) byte fuel (r i) = some (r n.toNat) := by
  have hloop : ∃ j ≤ n.toNat, bytesLoop dst (a + n) byte fuel (r i) = some (r j) ∧ True ∧
      ¬j < n.toNat := by
    refine whileLoop_along (d := 1) Nat.one_pos (fun j hj => ?_) (fun j hj _ hg => ?_) hi trivial
      (by omega)
    · simp only [h.reach j, lt_max_iff hroom hj]
    · exact ⟨h.byte j, hg, trivial⟩
  obtain ⟨j, hj, hrun, -, hstop⟩ := hloop
  rw [hrun, Nat.le_antisymm hj (not_lt.mp hstop)]

/-- The three loops, one after the other. -/
theorem loops_walk {β : Type} (h : Walk dst byte word a r) (hroom : a.toNat + n.toNat + 4 < 2 ^ 32)
    (f : σ → Option β) :
    ((headLoop dst (a + n) byte (n.toNat + 1) (r 0)).bind fun s =>
      (wordsLoop dst (a + n) word (n.toNat + 1) s).bind fun s =>
        (bytesLoop dst (a + n) byte (n.toNat + 1) s).bind f) = f (r n.toNat) := by
  have hfuel := Nat.lt_succ_self n.toNat
  obtain ⟨i, hi, hhead, hal⟩ := headLoop_walk h.toBytewise hroom hfuel
  obtain ⟨j, hj, hwords⟩ := wordsLoop_walk h hroom hi hal hfuel
  have htail := bytesLoop_walk h.toBytewise hroom hj hfuel
  rw [hhead, Option.bind_some, hwords, Option.bind_some, htail, Option.bind_some]

end Walk

/-! ## A word is four bytes -/

section Bytes

variable {m : Mem} {a b : Word} {v : Riscv.Byte} {i j : ℕ}

theorem add_ofNat_add (a : Word) (i j : ℕ) :
    a + BitVec.ofNat 32 i + BitVec.ofNat 32 j = a + BitVec.ofNat 32 (i + j) := by
  rw [BitVec.add_assoc, ← BitVec.ofNat_add]

theorem copyBytes_add (m : Mem) (a b : Word) (i j : ℕ) :
    copyBytes m a b (i + j) =
      copyBytes (copyBytes m a b i) (a + BitVec.ofNat 32 i) (b + BitVec.ofNat 32 i) j := by
  induction j with
  | zero => rfl
  | succ j ih =>
    rw [← Nat.add_assoc, copyBytes, copyBytes, ih, add_ofNat_add, add_ofNat_add]

theorem fillBytes_add (m : Mem) (a : Word) (v : Riscv.Byte) (i j : ℕ) :
    fillBytes m a v (i + j) = fillBytes (fillBytes m a v i) (a + BitVec.ofNat 32 i) v j := by
  induction j with
  | zero => rfl
  | succ j ih =>
    rw [← Nat.add_assoc, fillBytes, fillBytes, ih, add_ofNat_add]

/-- One more byte of an area that starts at `a`. -/
theorem ite_next_byte (f : Word → Riscv.Byte) (y : Riscv.Byte) {x : Word} (hi : i < 2 ^ 32) :
    (if x = a + BitVec.ofNat 32 i then f (BitVec.ofNat 32 i)
      else if (x - a).toNat < i then f (x - a) else y) =
      if (x - a).toNat < i + 1 then f (x - a) else y := by
  by_cases hx : x = a + BitVec.ofNat 32 i
  · have hsub : x - a = BitVec.ofNat 32 i := by
      rw [hx, BitVec.add_comm, BitVec.add_sub_cancel]
    rw [if_pos hx, hsub, if_pos (by rw [BitVec.toNat_ofNat]; omega)]
  · have hne : (x - a).toNat ≠ i := by
      rw [← BitVec.toNat_inj] at hx
      bv_omega
    rw [if_neg hx]
    exact if_congr (by omega) rfl rfl

/-- The byte that is copied last has not been written by the copies before it. -/
theorem copyBytes_apply (hsame : b.toNat % 4 = a.toNat % 4) (hi : i ≤ 4) (x : Word) :
    copyBytes m a b i x = if (x - a).toNat < i then m (b + (x - a)) else m x := by
  induction i generalizing x with
  | zero => rfl
  | succ i ih =>
    have hsrc : ¬(b + BitVec.ofNat 32 i - a).toNat < i := by bv_omega
    rw [copyBytes, Function.update_apply, ih (by omega), ih (by omega), if_neg hsrc]
    exact ite_next_byte (fun o => m (b + o)) (m x) (by omega)

theorem fillBytes_apply (hi : i < 2 ^ 32) (x : Word) :
    fillBytes m a v i x = if (x - a).toNat < i then v else m x := by
  induction i generalizing x with
  | zero => rfl
  | succ i ih =>
    rw [fillBytes, Function.update_apply, ih (by omega)]
    exact ite_next_byte (fun _ => v) (m x) (by omega)

/-- Between addresses of one alignment a word is copied as its bytes are, one by one. -/
theorem storeWord_loadWord (hsame : b.toNat % 4 = a.toNat % 4) :
    storeWord m a (loadWord m b) = copyBytes m a b 4 := by
  funext x
  rw [copyBytes_apply hsame le_rfl, storeWord]
  by_cases hx : (x - a).toNat < 4
  · rw [if_pos hx, if_pos hx, Riscv.extract_loadWord hx, BitVec.ofNat_toNat, BitVec.setWidth_eq]
  · rw [if_neg hx, if_neg hx]

theorem fourTimes_eq : ∀ v, fourTimes v = v ++ v ++ v ++ v := by decide +kernel

theorem storeWord_fourTimes : storeWord m a (fourTimes v) = fillBytes m a v 4 := by
  have hword : fourTimes v = loadWord (fun _ => v) a := fourTimes_eq v
  funext x
  rw [fillBytes_apply (by omega), storeWord, hword]
  by_cases hx : (x - a).toNat < 4
  · rw [if_pos hx, if_pos hx, Riscv.extract_loadWord hx]
  · rw [if_neg hx, if_neg hx]

end Bytes

/-! ## The functions and their byte loops -/

section Functions

variable {m : Mem} {dst src n : Word}

/-- `memcpy` after `i` bytes. -/
def copied (m : Mem) (dst src : Word) (i : ℕ) : Copy :=
  ⟨copyBytes m dst src i, dst + BitVec.ofNat 32 i, src + BitVec.ofNat 32 i⟩

theorem bytewise_copied : Bytewise Copy.dst Copy.byte dst (copied m dst src) := by
  refine ⟨fun i => rfl, fun i => ?_⟩
  unfold copied
  rw [← add_ofNat_add dst i 1, ← add_ofNat_add src i 1]
  rfl

theorem walk_copied (hsame : src &&& 3#32 = dst &&& 3#32) :
    Walk Copy.dst Copy.byte Copy.word dst (copied m dst src) := by
  refine ⟨bytewise_copied, fun i hal => ?_⟩
  have hmod := and_three_eq_iff.mp hsame
  have hmod' : (src + BitVec.ofNat 32 i).toNat % 4 = (dst + BitVec.ofNat 32 i).toNat % 4 := by
    bv_omega
  have hsrc : (src + BitVec.ofNat 32 i) &&& 3#32 = 0#32 := by
    rw [and_three_eq_iff.mpr hmod', hal]
  unfold copied Copy.word
  rw [if_pos ⟨hal, hsrc⟩]
  simp only
  rw [storeWord_loadWord hmod', ← copyBytes_add, add_ofNat_add dst i 4, add_ofNat_add src i 4]

theorem copied_zero : copied m dst src 0 = ⟨m, dst, src⟩ := by
  unfold copied
  rw [BitVec.add_zero, BitVec.add_zero]
  rfl

theorem memcpy_eq (hroom : dst.toNat + n.toNat + 4 < 2 ^ 32) :
    memcpy m dst src n = some (dst, copyBytes m dst src n.toNat) := by
  unfold memcpy
  simp only [← copied_zero]
  by_cases hsame : src &&& 3#32 = dst &&& 3#32
  · rw [if_neg (not_not.mpr hsame)]
    exact loops_walk (walk_copied hsame) hroom fun c => some (dst, c.mem)
  · have hbytes : bytesLoop Copy.dst (dst + n) Copy.byte (n.toNat + 1) (copied m dst src 0) =
        some (copied m dst src n.toNat) :=
      bytesLoop_walk bytewise_copied hroom (Nat.zero_le _) (Nat.lt_succ_self n.toNat)
    rw [if_pos hsame, hbytes]
    rfl

/-- `memset` after `i` bytes. -/
def filled (m : Mem) (dst : Word) (v : Riscv.Byte) (i : ℕ) : Fill :=
  ⟨fillBytes m dst v i, dst + BitVec.ofNat 32 i⟩

theorem walk_filled {v : Riscv.Byte} :
    Walk Fill.dst (Fill.byte v) (Fill.word (fourTimes v)) dst (filled m dst v) := by
  refine ⟨⟨fun i => rfl, fun i => ?_⟩, fun i hal => ?_⟩
  · unfold filled
    rw [← add_ofNat_add dst i 1]
    rfl
  · unfold filled Fill.word
    rw [if_pos hal]
    simp only
    rw [storeWord_fourTimes, ← fillBytes_add, add_ofNat_add dst i 4]

theorem filled_zero {v : Riscv.Byte} : filled m dst v 0 = ⟨m, dst⟩ := by
  unfold filled
  rw [BitVec.add_zero]
  rfl

theorem memset_eq (hroom : dst.toNat + n.toNat + 4 < 2 ^ 32) (c : Word) :
    memset m dst c n = some (dst, fillBytes m dst ((c &&& 0xff#32).setWidth 8) n.toNat) := by
  unfold memset
  simp only [← filled_zero (v := (c &&& 0xff#32).setWidth 8)]
  exact loops_walk walk_filled hroom fun f => some (dst, f.mem)

/-- The two functions do what the loops over the single bytes do, also where the areas
overlap, and `memset` writes the `n` bytes from `dst` on and no others. -/
theorem memcpy_memset (m : Mem) (dst src n c : Word)
    (hroom : dst.toNat + n.toNat + 4 < 2 ^ 32) :
    memcpy m dst src n = some (dst, copyBytes m dst src n.toNat) ∧
      ∃ m', memset m dst c n = some (dst, m') ∧
        m' = fillBytes m dst ((c &&& 0xff#32).setWidth 8) n.toNat ∧
        ∀ x, m' x = if dst.toNat ≤ x.toNat ∧ x.toNat < dst.toNat + n.toNat
          then (c &&& 0xff#32).setWidth 8 else m x := by
  refine ⟨memcpy_eq hroom, _, memset_eq hroom c, rfl, fun x => ?_⟩
  rw [fillBytes_apply n.isLt]
  exact if_congr (by bv_omega) rfl rfl

/-- Two areas that overlap, neither of them aligned. -/
theorem memcpy_memset_overlap :
    memcpy (fun x => x.setWidth 8) 7#32 3#32 9#32 =
        some (7#32, copyBytes (fun x => x.setWidth 8) 7#32 3#32 (9#32 : Word).toNat) ∧
      ∃ m', memset (fun x => x.setWidth 8) 7#32 321#32 9#32 = some (7#32, m') ∧
        m' = fillBytes (fun x => x.setWidth 8) 7#32 (((321#32 : Word) &&& 0xff#32).setWidth 8)
          (9#32 : Word).toNat ∧
        ∀ x : Word, m' x = if (7#32 : Word).toNat ≤ x.toNat ∧
          x.toNat < (7#32 : Word).toNat + (9#32 : Word).toNat
          then ((321#32 : Word) &&& 0xff#32).setWidth 8 else x.setWidth 8 :=
  memcpy_memset (fun x => x.setWidth 8) 7#32 3#32 9#32 321#32 (by decide)

end Functions

end Common
end RvMos
