/-
Straight-line RV32 code: registers, control registers and byte memory.

A `Machine` executes a block of instructions in which branches only go forward,
so `exec` recurses on the block and a branch taken is a number of instructions
to skip.  Memory holds bytes; `loadWord` and `storeWord` are little-endian.  An
area of words at an address is read as a whole by `words`, and the lemmas on
`stores` and `loads` give the effect of a block of `sw` or `lw` instructions
through one base register on such an area.
-/
import Mathlib.Data.Fintype.Basic
import Mathlib.Logic.Function.Basic
import Mathlib.Tactic.Common

namespace RvMos
namespace Lib
namespace Riscv

/-! ## Memory -/

abbrev Byte := BitVec 8

abbrev Mem := BitVec 32 → Byte

def loadWord (m : Mem) (a : BitVec 32) : BitVec 32 :=
  m (a + 3#32) ++ m (a + 2#32) ++ m (a + 1#32) ++ m a

def storeWord (m : Mem) (a w : BitVec 32) : Mem := fun x =>
  if (x - a).toNat < 4 then w.extractLsb' (8 * (x - a).toNat) 8 else m x

theorem append_bytes (w : BitVec 32) :
    w.extractLsb' 24 8 ++ w.extractLsb' 16 8 ++ w.extractLsb' 8 8 ++ w.extractLsb' 0 8 = w := by
  ext i hi
  simp only [BitVec.getElem_append, BitVec.getElem_extractLsb']
  rw [← BitVec.getLsbD_eq_getElem]
  split
  · rw [Nat.zero_add]
  · split
    · congr 1
      omega
    · split
      · congr 1
        omega
      · congr 1
        omega

theorem loadWord_storeWord (m : Mem) (a w : BitVec 32) :
    loadWord (storeWord m a w) a = w := by
  have h : ∀ i : Nat, i < 4 → (a + BitVec.ofNat 32 i - a).toNat = i := by
    intro i hi
    rw [BitVec.add_comm, BitVec.add_sub_cancel, BitVec.toNat_ofNat]
    omega
  have h0 : (a - a).toNat = 0 := by simp
  have h1 := h 1 (by omega)
  have h2 := h 2 (by omega)
  have h3 := h 3 (by omega)
  unfold loadWord storeWord
  simp only [h0, h1, h2, h3]
  exact append_bytes w

theorem loadWord_congr {m m' : Mem} {a : BitVec 32}
    (h : ∀ i < 4, m (a + BitVec.ofNat 32 i) = m' (a + BitVec.ofNat 32 i)) :
    loadWord m a = loadWord m' a := by
  have h0 := h 0 (by omega)
  have h1 := h 1 (by omega)
  have h2 := h 2 (by omega)
  have h3 := h 3 (by omega)
  rw [BitVec.add_zero] at h0
  unfold loadWord
  rw [h0, h1, h2, h3]

/-- The bytes of a word that has been loaded. -/
theorem extract_loadWord {m : Mem} {a : BitVec 32} {i : ℕ} (hi : i < 4) :
    (loadWord m a).extractLsb' (8 * i) 8 = m (a + BitVec.ofNat 32 i) := by
  have hall : i = 0 ∨ i = 1 ∨ i = 2 ∨ i = 3 := by omega
  unfold loadWord
  ext k hk
  simp only [BitVec.getElem_extractLsb', BitVec.getLsbD_append]
  rcases hall with rfl | rfl | rfl | rfl
  · rw [if_pos (by omega), Nat.mul_zero, Nat.zero_add, BitVec.add_zero]
    exact BitVec.getLsbD_eq_getElem hk
  · have h : 8 * 1 + k - 8 = k := by omega
    rw [if_neg (by omega), if_pos (by omega), h]
    exact BitVec.getLsbD_eq_getElem hk
  · have h : 8 * 2 + k - 8 - 8 = k := by omega
    rw [if_neg (by omega), if_neg (by omega), if_pos (by omega), h]
    exact BitVec.getLsbD_eq_getElem hk
  · have h : 8 * 3 + k - 8 - 8 - 8 = k := by omega
    rw [if_neg (by omega), if_neg (by omega), if_neg (by omega), h]
    exact BitVec.getLsbD_eq_getElem hk

theorem loadWord_storeWord_of_apart (m : Mem) {a b : BitVec 32} (w : BitVec 32)
    (hab : 4 ≤ (a - b).toNat) (hba : 4 ≤ (b - a).toNat) :
    loadWord (storeWord m a w) b = loadWord m b := by
  apply loadWord_congr
  intro i hi
  have hne : ¬ (b + BitVec.ofNat 32 i - a).toNat < 4 := by bv_omega
  simp only [storeWord, if_neg hne]

/-! ## Areas of words -/

/-- The address of word `i` of the area at `a`. -/
def slot (a : BitVec 32) (i : Nat) : BitVec 32 := a + BitVec.ofNat 32 (4 * i)

/-- Two areas of `n` words have no byte in common. -/
def Apart (n : Nat) (a b : BitVec 32) : Prop :=
  4 * n ≤ (a - b).toNat ∧ 4 * n ≤ (b - a).toNat

theorem Apart.symm {n : Nat} {a b : BitVec 32} (h : Apart n a b) : Apart n b a := ⟨h.2, h.1⟩

theorem loadWord_slot_same {n i j : Nat} (hn : n ≤ 256) (hi : i < n) (hj : j < n) (m : Mem)
    (a w : BitVec 32) :
    loadWord (storeWord m (slot a i) w) (slot a j) =
      if i = j then w else loadWord m (slot a j) := by
  by_cases h : i = j
  · rw [h, loadWord_storeWord, if_pos rfl]
  · rw [if_neg h]
    apply loadWord_storeWord_of_apart
    · unfold slot
      bv_omega
    · unfold slot
      bv_omega

theorem loadWord_slot_apart {n i j : Nat} (hn : n ≤ 256) (hi : i < n) (hj : j < n) (m : Mem)
    {a b : BitVec 32} (w : BitVec 32) (h : Apart n a b) :
    loadWord (storeWord m (slot a i) w) (slot b j) = loadWord m (slot b j) := by
  obtain ⟨h₁, h₂⟩ := h
  apply loadWord_storeWord_of_apart
  · unfold slot
    bv_omega
  · unfold slot
    bv_omega

/-- The area of `n` words at `a`. -/
def words (n : Nat) (m : Mem) (a : BitVec 32) : Fin n → BitVec 32 := fun i =>
  loadWord m (slot a i)

/-- The words `f i`, for `i` in `l`, are stored into the area at `a`. -/
def storeWords {n : Nat} (m : Mem) (a : BitVec 32) (f : Fin n → BitVec 32) (l : List (Fin n)) :
    Mem :=
  l.foldl (fun m (i : Fin n) => storeWord m (slot a i) (f i)) m

theorem words_storeWords {n : Nat} (hn : n ≤ 256) (m : Mem) (a : BitVec 32)
    (f : Fin n → BitVec 32) (l : List (Fin n)) (j : Fin n) :
    words n (storeWords m a f l) a j = if j ∈ l then f j else words n m a j := by
  -- The last store to a slot wins, and every store to slot `j` stores `f j`.
  induction l generalizing m with
  | nil => rfl
  | cons i l ih =>
    rw [storeWords, List.foldl_cons, ← storeWords, ih]
    have hi := loadWord_slot_same hn i.isLt j.isLt m a (f i)
    by_cases hj : j ∈ l
    · rw [if_pos hj, if_pos (List.mem_cons_of_mem _ hj)]
    · rw [if_neg hj, words, hi]
      by_cases hij : i = j
      · rw [if_pos (congrArg Fin.val hij), if_pos (List.mem_cons.mpr (.inl hij.symm)), hij]
      · rw [if_neg (fun h => hij (Fin.ext h)), if_neg, words]
        rw [List.mem_cons]
        rintro (h | h)
        · exact hij h.symm
        · exact hj h

theorem words_storeWords_apart {n : Nat} (hn : n ≤ 256) (m : Mem) {a b : BitVec 32}
    (f : Fin n → BitVec 32) (l : List (Fin n)) (h : Apart n a b) :
    words n (storeWords m a f l) b = words n m b := by
  induction l generalizing m with
  | nil => rfl
  | cons i l ih =>
    rw [storeWords, List.foldl_cons, ← storeWords, ih]
    funext j
    exact loadWord_slot_apart hn i.isLt j.isLt m (f i) h

/-- A byte outside the area keeps its value. -/
theorem storeWords_outside {n : Nat} (hn : n ≤ 256) (m : Mem) {a x : BitVec 32}
    (f : Fin n → BitVec 32) (l : List (Fin n)) (h : 4 * n ≤ (x - a).toNat) :
    storeWords m a f l x = m x := by
  induction l generalizing m with
  | nil => rfl
  | cons i l ih =>
    rw [storeWords, List.foldl_cons, ← storeWords, ih, storeWord, if_neg]
    have hi := i.isLt
    unfold slot
    bv_omega

theorem words_congr {n : Nat} (hn : n ≤ 256) {m m' : Mem} {a : BitVec 32}
    (h : ∀ x, (x - a).toNat < 4 * n → m x = m' x) : words n m a = words n m' a := by
  funext i
  apply loadWord_congr
  intro j hj
  apply h
  have hi := i.isLt
  unfold slot
  bv_omega

/-! ## Machines -/

abbrev Reg := Fin 32

inductive Csr where
  | sstatus | sepc | stval | scause | sscratch
  deriving DecidableEq, Repr

structure Machine where
  regs : Reg → BitVec 32
  csr : Csr → BitVec 32
  mem : Mem
  /-- the privilege mode is U, not S -/
  user : Bool

namespace Machine

/-- `x0` reads as zero. -/
def reg (m : Machine) (r : Reg) : BitVec 32 := if r = 0 then 0#32 else m.regs r

def setReg (m : Machine) (r : Reg) (w : BitVec 32) : Machine :=
  { m with regs := Function.update m.regs r w }

def setCsr (m : Machine) (c : Csr) (w : BitVec 32) : Machine :=
  { m with csr := Function.update m.csr c w }

@[simp] theorem setReg_csr (m : Machine) (r : Reg) (w : BitVec 32) :
    (m.setReg r w).csr = m.csr := by
  simp only [setReg]

@[simp] theorem setReg_mem (m : Machine) (r : Reg) (w : BitVec 32) :
    (m.setReg r w).mem = m.mem := by
  simp only [setReg]

@[simp] theorem setReg_user (m : Machine) (r : Reg) (w : BitVec 32) :
    (m.setReg r w).user = m.user := by
  simp only [setReg]

@[simp] theorem setCsr_mem (m : Machine) (c : Csr) (w : BitVec 32) :
    (m.setCsr c w).mem = m.mem := by
  simp only [setCsr]

@[simp] theorem setCsr_user (m : Machine) (c : Csr) (w : BitVec 32) :
    (m.setCsr c w).user = m.user := by
  simp only [setCsr]

@[simp] theorem reg_setCsr (m : Machine) (c : Csr) (w : BitVec 32) (r : Reg) :
    (m.setCsr c w).reg r = m.reg r := by
  simp only [setCsr, reg]

theorem reg_setReg (m : Machine) {r : Reg} (hr : r ≠ 0) (w : BitVec 32) (x : Reg) :
    (m.setReg r w).reg x = if x = r then w else m.reg x := by
  simp only [reg, setReg]
  by_cases hx : x = r
  · rw [if_pos hx, hx, if_neg hr, Function.update_self]
  · rw [if_neg hx, Function.update_of_ne hx]

@[simp] theorem setReg_setReg (m : Machine) (r : Reg) (v w : BitVec 32) :
    (m.setReg r v).setReg r w = m.setReg r w := by
  simp only [setReg, Function.update_idem]

theorem csr_setCsr (m : Machine) (c : Csr) (w : BitVec 32) (x : Csr) :
    (m.setCsr c w).csr x = if x = c then w else m.csr x := by
  simp only [setCsr, Function.update_apply]

end Machine

/-- Offsets and immediates are given sign-extended; a branch skips the next `n`
instructions.  `li` is any of the sequences that load a constant. -/
inductive Instr where
  | lw (rd : Reg) (off : BitVec 32) (rs : Reg)
  | sw (rs₂ : Reg) (off : BitVec 32) (rs₁ : Reg)
  | addi (rd rs : Reg) (imm : BitVec 32)
  | andi (rd rs : Reg) (imm : BitVec 32)
  | add (rd rs₁ rs₂ : Reg)
  | slli (rd rs : Reg) (n : Nat)
  | srli (rd rs : Reg) (n : Nat)
  | li (rd : Reg) (w : BitVec 32)
  | csrrw (rd : Reg) (c : Csr) (rs : Reg)
  | csrr (rd : Reg) (c : Csr)
  | csrw (c : Csr) (rs : Reg)
  | bnez (rs : Reg) (n : Nat)
  | beqz (rs : Reg) (n : Nat)
  deriving DecidableEq, Repr

namespace Instr

def run (m : Machine) : Instr → Machine
  | lw rd off rs => m.setReg rd (loadWord m.mem (m.reg rs + off))
  | sw rs₂ off rs₁ => { m with mem := storeWord m.mem (m.reg rs₁ + off) (m.reg rs₂) }
  | addi rd rs imm => m.setReg rd (m.reg rs + imm)
  | andi rd rs imm => m.setReg rd (m.reg rs &&& imm)
  | add rd rs₁ rs₂ => m.setReg rd (m.reg rs₁ + m.reg rs₂)
  | slli rd rs n => m.setReg rd (m.reg rs <<< n)
  | srli rd rs n => m.setReg rd (m.reg rs >>> n)
  | li rd w => m.setReg rd w
  | csrrw rd c rs => (m.setCsr c (m.reg rs)).setReg rd (m.csr c)
  | csrr rd c => m.setReg rd (m.csr c)
  | csrw c rs => m.setCsr c (m.reg rs)
  | bnez _ _ | beqz _ _ => m

/-- The number of instructions skipped after this one. -/
def jump (m : Machine) : Instr → Nat
  | bnez rs n => if m.reg rs = 0#32 then 0 else n
  | beqz rs n => if m.reg rs = 0#32 then n else 0
  | _ => 0

def Straight : Instr → Prop
  | bnez _ _ | beqz _ _ => False
  | _ => True

theorem Straight.jump {i : Instr} (h : i.Straight) (m : Machine) : i.jump m = 0 := by
  cases i with
  | bnez rs n => exact h.elim
  | beqz rs n => exact h.elim
  | _ => rfl

end Instr

/-- Execute a block, of which the first `n` instructions are skipped. -/
def exec : Nat → List Instr → Machine → Machine
  | _, [], m => m
  | 0, i :: is, m => exec (i.jump m) is (i.run m)
  | n + 1, _ :: is, m => exec n is m

theorem exec_straight {is : List Instr} (h : ∀ i ∈ is, i.Straight) (js : List Instr)
    (m : Machine) : exec 0 (is ++ js) m = exec 0 js (is.foldl Instr.run m) := by
  induction is generalizing m with
  | nil => rfl
  | cons i is ih =>
    obtain ⟨hi, his⟩ := List.forall_mem_cons.mp h
    rw [List.cons_append, exec, hi.jump, List.foldl_cons]
    exact ih his (i.run m)

/-! ## Blocks of stores and loads -/

/-- The register `src i` goes to slot `i` of the area at `rb`, for `i` in `l`. -/
def stores {n : Nat} (rb : Reg) (src : Fin n → Reg) (l : List (Fin n)) : List Instr :=
  l.map fun i => .sw (src i) (BitVec.ofNat 32 (4 * i)) rb

theorem straight_stores {n : Nat} (rb : Reg) (src : Fin n → Reg) (l : List (Fin n)) :
    ∀ i ∈ stores rb src l, i.Straight := by
  intro i hi
  obtain ⟨j, -, rfl⟩ := List.mem_map.mp hi
  exact trivial

theorem run_stores {n : Nat} (rb : Reg) (src : Fin n → Reg) (l : List (Fin n)) (m : Machine) :
    (stores rb src l).foldl Instr.run m =
      { m with mem := storeWords m.mem (m.reg rb) (fun i => m.reg (src i)) l } := by
  induction l generalizing m with
  | nil => rfl
  | cons i l ih =>
    rw [stores, List.map_cons, List.foldl_cons, ← stores, ih]
    rfl

/-- Slot `r` of the area at `rb` goes to register `r`, for `r` in `l`. -/
def loads (rb : Reg) (l : List Reg) : List Instr :=
  l.map fun r => .lw r (BitVec.ofNat 32 (4 * r)) rb

theorem straight_loads (rb : Reg) (l : List Reg) : ∀ i ∈ loads rb l, i.Straight := by
  intro i hi
  obtain ⟨j, -, rfl⟩ := List.mem_map.mp hi
  exact trivial

/-- The base register keeps its value, so every load reads the same area. -/
theorem run_loads {rb : Reg} {l : List Reg} (hrb : rb ∉ l) (h0 : 0 ∉ l) (m : Machine) :
    let m' := (loads rb l).foldl Instr.run m
    m'.csr = m.csr ∧ m'.mem = m.mem ∧ m'.user = m.user ∧
      ∀ r, m'.reg r = if r ∈ l then loadWord m.mem (slot (m.reg rb) r) else m.reg r := by
  induction l generalizing m with
  | nil => exact ⟨rfl, rfl, rfl, fun r => rfl⟩
  | cons x l ih =>
    obtain ⟨hx, hrb⟩ := not_or.mp (mt List.mem_cons.mpr hrb)
    obtain ⟨hx0, h0⟩ := not_or.mp (mt List.mem_cons.mpr h0)
    let m₁ := m.setReg x (loadWord m.mem (slot (m.reg rb) x))
    have hm₁ : (loads rb (x :: l)).foldl Instr.run m = (loads rb l).foldl Instr.run m₁ := rfl
    have hreg : ∀ r, m₁.reg r = if r = x then loadWord m.mem (slot (m.reg rb) x) else m.reg r :=
      m.reg_setReg (Ne.symm hx0) _
    obtain ⟨hcsr, hmem, huser, hregs⟩ := ih hrb h0 m₁
    rw [hm₁]
    refine ⟨hcsr, hmem, huser, fun r => ?_⟩
    rw [hregs r]
    have hb : m₁.reg rb = m.reg rb := by
      rw [hreg, if_neg hx]
    by_cases hr : r ∈ l
    · rw [if_pos hr, if_pos (List.mem_cons_of_mem _ hr), hb]
      rfl
    · rw [if_neg hr, hreg]
      by_cases hrx : r = x
      · rw [if_pos hrx, if_pos (List.mem_cons.mpr (.inl hrx)), hrx]
      · rw [if_neg hrx, if_neg]
        rw [List.mem_cons]
        exact not_or.mpr ⟨hrx, hr⟩

/-! ## Privilege -/

/-- `SPP`, `SPIE` and `SIE` of `sstatus`. -/
def spp : BitVec 32 := 1#32 <<< 8
def spie : BitVec 32 := 1#32 <<< 5
def sie : BitVec 32 := 1#32 <<< 1

/-- `sret`: the mode comes from `SPP` and `SIE` from `SPIE`. -/
def Machine.sret (m : Machine) : Machine :=
  let st := m.csr .sstatus
  { m.setCsr .sstatus (((st &&& ~~~(spp ||| sie)) ||| ((st &&& spie) >>> 4)) ||| spie) with
    user := decide (st &&& spp = 0#32) }

end Riscv
end Lib
end RvMos
