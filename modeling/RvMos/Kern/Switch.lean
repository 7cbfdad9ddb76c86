/-
Context switches (`include/stackframe.h`, `include/trap.h`, `kern/genex.S`,
`kern/env_asm.S`, `env_run` in `kern/env.c`).

The assembly is executed here on the machine of `Lib.Riscv`: a trap enters
through `saveAll`, a handler that returns leaves through `restoreAll`, and
`env_run` leaves through `envPopTf`.  The C code between them is compiled, so
what it leaves in the registers and on its part of the stack is an argument of
every step; it keeps the trap frame and the `envs` array, apart from the
assignments of the source, which are made here.  The address `base` of `envs` is
chosen by the linker.

`State.ctx` is not part of the machine: it records what every environment is to
resume with, which is the frame of its last trap with the system call's own
changes, or the frame it was given by `e_set_trapframe`.
-/
import RvMos.Kern.Messages
import RvMos.Kern.Traps
import RvMos.Lib.Riscv

namespace RvMos
namespace Switch

open Lib Lib.Riscv

/-! ## The frame in memory -/

def sp : Reg := 2
def s0 : Reg := 8
def s1 : Reg := 9
def a0 : Reg := 10
def s2 : Reg := 18
def s3 : Reg := 19
def s4 : Reg := 20
def t0 : Reg := 5

/-- The words of `struct Trapframe`: `regs[32]`, `sstatus`, `sepc`, `stval`,
`scause` and `sscratch`. -/
abbrev Slot := Fin 37

def regStatus : Slot := 32
def regSepc : Slot := 33
def regStval : Slot := 34
def regScause : Slot := 35
def regSscratch : Slot := 36

/-- The byte offset of a slot. -/
def off (i : Slot) : Word := BitVec.ofNat 32 (4 * i)

def slotOf (r : Reg) : Slot := r.castLE (by decide)

theorem add_off_slotOf (a : Word) (r : Reg) : a + off (slotOf r) = slot a r := rfl

def readTf (m : Mem) (a : Word) : Trapframe :=
  let w := words 37 m a
  ⟨fun r => w (slotOf r), w regStatus, w regSepc, w regStval, w regScause, w regSscratch⟩

theorem readTf_regs (m : Mem) (a : Word) (r : Reg) :
    (readTf m a).regs r = loadWord m (slot a r) := rfl

def tfWord (tf : Trapframe) (i : Slot) : Word :=
  if h : i.val < 32 then tf.regs ⟨i, h⟩
  else if i = regStatus then tf.sstatus
  else if i = regSepc then tf.sepc
  else if i = regStval then tf.stval
  else if i = regScause then tf.scause
  else tf.sscratch

/-- `*(struct Trapframe*)a = tf`. -/
def writeTf (m : Mem) (a : Word) (tf : Trapframe) : Mem :=
  storeWords m a (tfWord tf) (List.finRange 37)

/-- The registers that `sret` returns with: `x1` to `x31`, `sstatus` and
`sepc`. -/
def Agrees (tf tf' : Trapframe) : Prop :=
  (∀ r, r ≠ 0 → tf.regs r = tf'.regs r) ∧ tf.sstatus = tf'.sstatus ∧ tf.sepc = tf'.sepc

theorem Agrees.refl (tf : Trapframe) : Agrees tf tf := ⟨fun _ _ => rfl, rfl, rfl⟩

theorem Agrees.symm {tf tf' : Trapframe} (h : Agrees tf tf') : Agrees tf' tf :=
  ⟨fun r hr => (h.1 r hr).symm, h.2.1.symm, h.2.2.symm⟩

theorem Agrees.trans {tf tf₁ tf₂ : Trapframe} (h : Agrees tf tf₁) (h' : Agrees tf₁ tf₂) :
    Agrees tf tf₂ :=
  ⟨fun r hr => (h.1 r hr).trans (h'.1 r hr), h.2.1.trans h'.2.1, h.2.2.trans h'.2.2⟩

theorem readTf_congr {m m' : Mem} {a b : Word} (h : words 37 m a = words 37 m' b) :
    readTf m a = readTf m' b := by
  unfold readTf
  rw [h]

theorem words_writeTf (m : Mem) (a : Word) (tf : Trapframe) :
    words 37 (writeTf m a tf) a = tfWord tf := by
  funext i
  rw [writeTf, words_storeWords (by decide), if_pos (List.mem_finRange i)]

theorem readTf_writeTf (m : Mem) (a : Word) (tf : Trapframe) :
    readTf (writeTf m a tf) a = tf := by
  unfold readTf
  rw [words_writeTf]
  simp [tfWord, slotOf, regStatus, regSepc, regStval, regScause, regSscratch]

/-- A frame elsewhere does not see changes inside the area at `a`. -/
theorem readTf_outside {m m' : Mem} {a b : Word} (hb : Apart 37 a b)
    (h : ∀ x, 4 * 37 ≤ (x - a).toNat → m' x = m x) : readTf m' b = readTf m b := by
  apply readTf_congr
  refine words_congr (by decide) fun x hx => h x ?_
  obtain ⟨h₁, h₂⟩ := hb
  bv_omega

theorem readTf_writeTf_apart (m : Mem) {a b : Word} (tf : Trapframe) (h : Apart 37 a b) :
    readTf (writeTf m a tf) b = readTf m b :=
  readTf_congr (words_storeWords_apart (by decide) m _ _ h)

/-! ## The assembly -/

/-- `zero`, `ra`, `gp`, `tp`, `t0` and so on to `t6`: every register but `sp`, in
the order of `SAVE_ALL`. -/
def saved : List Slot :=
  [0, 1, 3, 4, 5, 6, 7, 8, 9, 10, 11, 12, 13, 14, 15, 16, 17, 18, 19, 20, 21, 22, 23, 24, 25,
    26, 27, 28, 29, 30, 31]

/-- The register that `SAVE_ALL` stores to a slot of `saved`. -/
def gpr (i : Slot) : Reg := Fin.ofNat 32 i

/-- `REG_SP`, `REG_STATUS`, `REG_SEPC`, `REG_STVAL` and `REG_SCAUSE`. -/
def savedLate : List Slot := [2, regStatus, regSepc, regStval, regScause]

def late (i : Slot) : Reg :=
  if i = 2 then s0 else if i = regStatus then s1 else if i = regSepc then s2
  else if i = regStval then s3 else s4

/-- The first four instructions of `SAVE_ALL`, which choose the stack. -/
def saveStack : List Instr :=
  [.csrrw sp .sscratch sp,
   .bnez sp 1,
   .csrr sp .sscratch,
   .addi sp sp (-Kern.tfSize)]

def saveCsrs : List Instr :=
  [.csrrw s0 .sscratch sp,
   .csrr s1 .sstatus,
   .csrr s2 .sepc,
   .csrr s3 .stval,
   .csrr s4 .scause]

/-- `SAVE_ALL`.  Nothing is stored to `REG_SSCRATCH`. -/
def saveAll : List Instr :=
  saveStack ++ (stores sp gpr saved ++ (saveCsrs ++ stores sp late savedLate))

/-- `ra`, `gp`, `tp`, `t0` and so on to `t6`. -/
def restored : List Reg :=
  [1, 3, 4, 5, 6, 7, 8, 9, 10, 11, 12, 13, 14, 15, 16, 17, 18, 19, 20, 21, 22, 23, 24, 25, 26,
    27, 28, 29, 30, 31]

def loadStatus : List Instr :=
  [.lw s1 (off regStatus) sp,
   .lw s2 (off regSepc) sp,
   .andi s0 s1 (1#32 <<< 8)]

/-- `sscratch` is the end of the frame on the way back to user mode. -/
def restoreScratch : List Instr :=
  [.bnez s0 2,
   .addi s0 sp Kern.tfSize,
   .csrw .sscratch s0]

def restoreCsrs : List Instr :=
  [.csrw .sstatus s1,
   .csrw .sepc s2]

/-- `RESTORE_ALL`. -/
def restoreAll : List Instr :=
  loadStatus ++ (restoreScratch ++ (restoreCsrs ++
    (loads sp restored ++ [.lw sp (off (slotOf sp)) sp])))

/-- The loads of `env_pop_tf` before those of the general registers. -/
def popCsrs : List Instr :=
  [.lw t0 (off regSscratch) sp,
   .csrw .sscratch t0,
   .lw s1 (off regStatus) sp,
   .lw s2 (off regSepc) sp,
   .csrw .sstatus s1,
   .csrw .sepc s2]

/-- `env_pop_tf` up to its `sret`.  The argument register is not read. -/
def envPopTf : List Instr := popCsrs ++ (loads sp restored ++ [.lw sp (off (slotOf sp)) sp])

/-! ## What the assembly does -/

/-- The end of the frame that `SAVE_ALL` fills: `sscratch`, or the stack pointer
of the interrupted code where that is zero. -/
def frameTop (m : Machine) : Word :=
  if m.csr .sscratch = 0#32 then m.reg sp else m.csr .sscratch

theorem add_neg_word (x y : Word) : x + -y = x - y := (BitVec.sub_eq_add_neg x y).symm

/-- The stack pointer after the exchange with `sscratch`: the branch is taken
where it is not zero. -/
theorem exec_saveBranch {m m₁ : Machine} (is : List Instr) (hsp : m₁.reg sp = m.csr .sscratch)
    (hscratch : m₁.csr .sscratch = m.reg sp) :
    exec ((Instr.bnez sp 1).jump m₁) ([.csrr sp .sscratch, .addi sp sp (-Kern.tfSize)] ++ is) m₁ =
      exec 0 is (m₁.setReg sp (frameTop m - Kern.tfSize)) := by
  rw [Instr.jump, hsp, frameTop]
  by_cases hz : m.csr .sscratch = 0#32
  · rw [if_pos hz, if_pos hz]
    simp only [List.cons_append, List.nil_append, exec, Instr.jump, Instr.run]
    rw [Machine.reg_setReg _ (by decide), if_pos rfl, Machine.setReg_setReg, hscratch,
      add_neg_word]
  · rw [if_neg hz, if_neg hz]
    simp only [List.cons_append, List.nil_append, exec, Instr.jump, Instr.run]
    rw [hsp, add_neg_word]

theorem exec_saveStack (m : Machine) (is : List Instr) :
    exec 0 (saveStack ++ is) m =
      exec 0 is ((m.setCsr .sscratch (m.reg sp)).setReg sp (frameTop m - Kern.tfSize)) := by
  have hfirst : exec 0 (saveStack ++ is) m =
      exec ((Instr.bnez sp 1).jump ((m.setCsr .sscratch (m.reg sp)).setReg sp (m.csr .sscratch)))
        ([.csrr sp .sscratch, .addi sp sp (-Kern.tfSize)] ++ is)
        ((m.setCsr .sscratch (m.reg sp)).setReg sp (m.csr .sscratch)) := by
    simp only [saveStack, List.cons_append, List.nil_append, exec, Instr.jump, Instr.run]
  rw [hfirst, exec_saveBranch is (m := m), Machine.setReg_setReg]
  · rw [Machine.reg_setReg _ (by decide), if_pos rfl]
  · rw [Machine.setReg_csr, Machine.csr_setCsr, if_pos rfl]

/-- The registers of the interrupted code as a frame with `x` in the slot that
`SAVE_ALL` leaves alone. -/
def frame (m : Machine) (x : Word) : Trapframe :=
  ⟨m.reg, m.csr .sstatus, m.csr .sepc, m.csr .stval, m.csr .scause, x⟩

/-- The control registers go to `s0` to `s4`, the stack pointer of the interrupted
code among them. -/
theorem run_saveCsrs (m : Machine) :
    let m' := saveCsrs.foldl Instr.run m
    m'.mem = m.mem ∧ m'.user = m.user ∧
      (∀ c, m'.csr c = if c = .sscratch then m.reg sp else m.csr c) ∧ m'.reg sp = m.reg sp ∧
      m'.reg s0 = m.csr .sscratch ∧ m'.reg s1 = m.csr .sstatus ∧ m'.reg s2 = m.csr .sepc ∧
      m'.reg s3 = m.csr .stval ∧ m'.reg s4 = m.csr .scause := by
  simp only [saveCsrs, List.foldl_cons, List.foldl_nil, Instr.run, Machine.setReg_csr,
    Machine.setReg_mem, Machine.setReg_user, Machine.setCsr_mem, Machine.setCsr_user]
  have h : ∀ (n : Machine) {r : Reg} (w : Word) (x : Reg), r ≠ 0 →
      (n.setReg r w).reg x = if x = r then w else n.reg x :=
    fun n _ w x hr => n.reg_setReg hr w x
  refine ⟨trivial, trivial, fun c => m.csr_setCsr _ _ c, ?_, ?_, ?_, ?_, ?_, ?_⟩ <;>
    simp +decide [h, Machine.csr_setCsr]

theorem straight_saveCsrs : ∀ i ∈ saveCsrs, i.Straight := by
  simp [saveCsrs, Instr.Straight]

theorem slotOf_savedLate : ∀ r : Reg, slotOf r ∈ savedLate ↔ r = sp := by decide

theorem slotOf_saved : ∀ r : Reg, r ≠ sp → slotOf r ∈ saved := by decide

theorem gpr_slotOf : ∀ r : Reg, gpr (slotOf r) = r := by decide

/-- `SAVE_ALL` from the choice of the stack on: the frame is filled at `sp`, and
`sscratch` holds what becomes the saved stack pointer. -/
theorem exec_saveFrame {m : Machine} {a : Word} (hsp : m.reg sp = a) :
    let m' := exec 0 (stores sp gpr saved ++ (saveCsrs ++ stores sp late savedLate)) m
    m'.reg sp = a ∧ m'.user = m.user ∧
      (∀ c, m'.csr c = if c = .sscratch then a else m.csr c) ∧
      readTf m'.mem a =
        ⟨fun r => if r = sp then m.csr .sscratch else m.reg r, m.csr .sstatus, m.csr .sepc,
          m.csr .stval, m.csr .scause, words 37 m.mem a regSscratch⟩ ∧
      ∀ x, 4 * 37 ≤ (x - a).toNat → m'.mem x = m.mem x := by
  intro m'
  obtain ⟨m₂, hm₂⟩ : ∃ m₂ : Machine,
      m₂ = { m with mem := storeWords m.mem a (fun i => m.reg (gpr i)) saved } := ⟨_, rfl⟩
  have hreg₂ : m₂.reg = m.reg := by
    rw [hm₂]
    rfl
  have hcsr₂ : m₂.csr = m.csr := by rw [hm₂]
  obtain ⟨hmem, huser, hcsr, hsp₃, hs0, hs1, hs2, hs3, hs4⟩ := run_saveCsrs m₂
  generalize hm₃ : saveCsrs.foldl Instr.run m₂ = m₃ at *
  rw [hreg₂, hsp] at hsp₃ hcsr
  rw [hcsr₂] at hcsr hs0 hs1 hs2 hs3 hs4
  have hexec : m' = { m₃ with mem := storeWords m₃.mem a (fun i => m₃.reg (late i)) savedLate } := by
    simp only [m']
    rw [exec_straight (straight_stores _ _ _), run_stores, hsp, ← hm₂,
      exec_straight straight_saveCsrs, hm₃, ← List.append_nil (stores sp late savedLate),
      exec_straight (straight_stores _ _ _), run_stores, hsp₃, exec]
  have hslots : ∀ i, words 37 m'.mem a i =
      if i ∈ savedLate then m₃.reg (late i)
      else if i ∈ saved then m.reg (gpr i) else words 37 m.mem a i := by
    intro i
    rw [hexec, words_storeWords (by decide), hmem, hm₂, words_storeWords (by decide)]
  refine ⟨?_, ?_, ?_, ?_, ?_⟩
  · rw [hexec]
    exact hsp₃
  · rw [hexec, ← congrArg Machine.user hm₂]
    exact huser
  · rw [hexec]
    exact hcsr
  · have hregs : ∀ r : Reg, words 37 m'.mem a (slotOf r) =
        if r = sp then m.csr .sscratch else m.reg r := by
      intro r
      rw [hslots]
      by_cases hr : r = sp
      · rw [if_pos ((slotOf_savedLate r).mpr hr), if_pos hr, hr]
        exact hs0
      · rw [if_neg (mt (slotOf_savedLate r).mp hr), if_pos (slotOf_saved r hr), if_neg hr,
          gpr_slotOf]
    have hlast : words 37 m'.mem a regSscratch = words 37 m.mem a regSscratch := by
      rw [hslots, if_neg (by decide), if_neg (by decide)]
    have hlate : ∀ i ∈ savedLate, words 37 m'.mem a i = m₃.reg (late i) := by
      intro i hi
      rw [hslots, if_pos hi]
    unfold readTf
    simp only [hregs, hlast]
    rw [hlate regStatus (by decide), hlate regSepc (by decide), hlate regStval (by decide),
      hlate regScause (by decide), ← hs1, ← hs2, ← hs3, ← hs4]
    rfl
  · intro x hx
    rw [hexec]
    dsimp only
    rw [storeWords_outside (by decide) _ _ _ hx, hmem, hm₂]
    exact storeWords_outside (by decide) _ _ _ hx

/-- What `SAVE_ALL` leaves: the frame of the interrupted code below `frameTop`,
and its address in `sp` and in `sscratch`. -/
theorem exec_saveAll (m : Machine) :
    let a := frameTop m - Kern.tfSize
    let m' := exec 0 saveAll m
    m'.reg sp = a ∧ m'.user = m.user ∧
      (∀ c, m'.csr c = if c = .sscratch then a else m.csr c) ∧
      readTf m'.mem a = frame m (words 37 m.mem a regSscratch) ∧
      ∀ x, 4 * 37 ≤ (x - a).toNat → m'.mem x = m.mem x := by
  intro a m'
  obtain ⟨m₁, hm₁⟩ : ∃ m₁, m₁ = (m.setCsr .sscratch (m.reg sp)).setReg sp a := ⟨_, rfl⟩
  have hreg : ∀ r, m₁.reg r = if r = sp then a else m.reg r := by
    intro r
    rw [hm₁, Machine.reg_setReg _ (by decide), Machine.reg_setCsr]
  have hcsr : ∀ c, m₁.csr c = if c = .sscratch then m.reg sp else m.csr c := by
    intro c
    rw [hm₁]
    exact m.csr_setCsr _ _ c
  have hexec : m' = exec 0 (stores sp gpr saved ++ (saveCsrs ++ stores sp late savedLate)) m₁ := by
    simp only [m', saveAll]
    rw [exec_saveStack, hm₁]
  obtain ⟨hsp, huser, hcsr', htf, hrest⟩ := exec_saveFrame (m := m₁) ((hreg sp).trans (if_pos rfl))
  rw [← hexec] at hsp huser hcsr' htf hrest
  refine ⟨hsp, ?_, ?_, ?_, ?_⟩
  · rw [huser, hm₁]
    rfl
  · intro c
    rw [hcsr' c, hcsr c]
    split
    · rfl
    · rfl
  · have hregs : (fun r => if r = sp then m₁.csr .sscratch else m₁.reg r) = m.reg := by
      funext r
      rw [hcsr, hreg]
      split
      · rename_i hr
        rw [if_pos rfl, hr]
      · rfl
    rw [htf, hregs, frame, hcsr, hcsr, hcsr, hcsr, hm₁]
    rfl
  · intro x hx
    rw [hrest x hx, hm₁]
    rfl

theorem mem_restored : ∀ r : Reg, r ≠ 0 → r ≠ sp → r ∈ restored := by decide

/-- The general registers are loaded from the frame at `sp`, `sp` itself last. -/
theorem exec_loadRegs {m m' : Machine}
    (h : exec 0 (loads sp restored ++ [.lw sp (off (slotOf sp)) sp]) m = m') :
    m'.csr = m.csr ∧ m'.mem = m.mem ∧ m'.user = m.user ∧
      ∀ r, r ≠ 0 → m'.reg r = (readTf m.mem (m.reg sp)).regs r := by
  obtain ⟨hcsr, hmem, huser, hreg⟩ := @run_loads sp restored (by decide) (by decide) m
  rw [exec_straight (straight_loads _ _)] at h
  generalize (loads sp restored).foldl Instr.run m = m₁ at *
  have hsp : m₁.reg sp = m.reg sp := by rw [hreg, if_neg (by decide)]
  simp only [exec, Instr.run, hsp, hmem, add_off_slotOf] at h
  rw [← h, Machine.setReg_csr, Machine.setReg_mem, Machine.setReg_user]
  refine ⟨hcsr, hmem, huser, fun r hr => ?_⟩
  rw [Machine.reg_setReg _ (by decide), readTf_regs]
  by_cases hrsp : r = sp
  · rw [if_pos hrsp, hrsp]
  · rw [if_neg hrsp, hreg, if_pos (mem_restored r hr hrsp)]

theorem straight_popCsrs : ∀ i ∈ popCsrs, i.Straight := by
  simp [popCsrs, Instr.Straight]

theorem run_popCsrs {m m' : Machine} (h : popCsrs.foldl Instr.run m = m') :
    m'.mem = m.mem ∧ m'.user = m.user ∧ m'.reg sp = m.reg sp ∧
      m'.csr .sscratch = (readTf m.mem (m.reg sp)).sscratch ∧
      m'.csr .sstatus = (readTf m.mem (m.reg sp)).sstatus ∧
      m'.csr .sepc = (readTf m.mem (m.reg sp)).sepc := by
  have hreg : ∀ (n : Machine) {r : Reg} (w : Word) (x : Reg), r ≠ 0 →
      (n.setReg r w).reg x = if x = r then w else n.reg x :=
    fun n _ w x hr => n.reg_setReg hr w x
  simp only [popCsrs, List.foldl_cons, List.foldl_nil, Instr.run, Machine.setReg_mem,
    Machine.setCsr_mem] at h
  subst h
  refine ⟨rfl, rfl, ?_, ?_, ?_, ?_⟩ <;>
    simp +decide [hreg, Machine.csr_setCsr, readTf, words, slot, off]

/-- What `env_pop_tf` loads: the frame at `sp`. -/
theorem exec_envPopTf {m m' : Machine} (h : exec 0 envPopTf m = m') :
    m'.mem = m.mem ∧ m'.user = m.user ∧
      (∀ r, r ≠ 0 → m'.reg r = (readTf m.mem (m.reg sp)).regs r) ∧
      m'.csr .sscratch = (readTf m.mem (m.reg sp)).sscratch ∧
      m'.csr .sstatus = (readTf m.mem (m.reg sp)).sstatus ∧
      m'.csr .sepc = (readTf m.mem (m.reg sp)).sepc := by
  rw [envPopTf, exec_straight straight_popCsrs] at h
  obtain ⟨hmem, huser, hsp, hscratch, hstatus, hsepc⟩ := run_popCsrs rfl
  obtain ⟨hcsr', hmem', huser', hreg'⟩ := exec_loadRegs h
  rw [hmem, hsp] at hreg'
  refine ⟨hmem'.trans hmem, huser'.trans huser, hreg', ?_, ?_, ?_⟩
  · rw [hcsr', hscratch]
  · rw [hcsr', hstatus]
  · rw [hcsr', hsepc]

theorem exec_restoreScratch (m : Machine) (is : List Instr) :
    exec 0 (restoreScratch ++ is) m =
      exec 0 is (if m.reg s0 = 0#32 then
        (m.setReg s0 (m.reg sp + Kern.tfSize)).setCsr .sscratch (m.reg sp + Kern.tfSize)
      else m) := by
  have hfirst : exec 0 (restoreScratch ++ is) m =
      exec ((Instr.bnez s0 2).jump m) ([.addi s0 sp Kern.tfSize, .csrw .sscratch s0] ++ is) m := by
    simp only [restoreScratch, List.cons_append, List.nil_append, exec, Instr.run]
  rw [hfirst, Instr.jump]
  by_cases hz : m.reg s0 = 0#32
  · rw [if_pos hz, if_pos hz]
    simp only [List.cons_append, List.nil_append, exec, Instr.jump, Instr.run]
    rw [Machine.reg_setReg _ (by decide), if_pos rfl]
  · rw [if_neg hz, if_neg hz]
    simp only [List.cons_append, List.nil_append, exec]

theorem straight_loadStatus : ∀ i ∈ loadStatus, i.Straight := by
  simp [loadStatus, Instr.Straight]

theorem straight_restoreCsrs : ∀ i ∈ restoreCsrs, i.Straight := by
  simp [restoreCsrs, Instr.Straight]

theorem run_loadStatus {m m' : Machine} (h : loadStatus.foldl Instr.run m = m') :
    m'.mem = m.mem ∧ m'.user = m.user ∧ m'.csr = m.csr ∧ m'.reg sp = m.reg sp ∧
      m'.reg s1 = (readTf m.mem (m.reg sp)).sstatus ∧
      m'.reg s2 = (readTf m.mem (m.reg sp)).sepc ∧
      m'.reg s0 = (readTf m.mem (m.reg sp)).sstatus &&& Riscv.spp := by
  have hreg : ∀ (n : Machine) {r : Reg} (w : Word) (x : Reg), r ≠ 0 →
      (n.setReg r w).reg x = if x = r then w else n.reg x :=
    fun n _ w x hr => n.reg_setReg hr w x
  simp only [loadStatus, List.foldl_cons, List.foldl_nil, Instr.run, Machine.setReg_mem] at h
  subst h
  refine ⟨rfl, rfl, rfl, ?_, ?_, ?_, ?_⟩ <;>
    simp +decide [hreg, readTf, words, slot, off, Riscv.spp]

/-- What `RESTORE_ALL` leaves: the frame, except that `sscratch` gets the end of
the frame, and only where `SPP` is clear. -/
theorem exec_restoreAll {m m' : Machine} (h : exec 0 restoreAll m = m') :
    m'.mem = m.mem ∧ m'.csr .sstatus = (readTf m.mem (m.reg sp)).sstatus ∧
      m'.csr .sscratch = (if (readTf m.mem (m.reg sp)).sstatus &&& Riscv.spp = 0#32 then
        m.reg sp + Kern.tfSize else m.csr .sscratch) ∧
      m'.csr .sepc = (readTf m.mem (m.reg sp)).sepc ∧ m'.user = m.user ∧
      ∀ r, r ≠ 0 → m'.reg r = (readTf m.mem (m.reg sp)).regs r := by
  rw [restoreAll, exec_straight straight_loadStatus, exec_restoreScratch,
    exec_straight straight_restoreCsrs] at h
  obtain ⟨hmem, huser, hcsr, hsp, hs1, hs2, hs0⟩ := run_loadStatus (m := m) rfl
  generalize loadStatus.foldl Instr.run m = m₁ at *
  obtain ⟨m₂, hm₂⟩ : ∃ m₂, m₂ = if m₁.reg s0 = 0#32 then
      (m₁.setReg s0 (m₁.reg sp + Kern.tfSize)).setCsr .sscratch (m₁.reg sp + Kern.tfSize)
    else m₁ := ⟨_, rfl⟩
  rw [← hm₂] at h
  have hmem₂ : m₂.mem = m₁.mem := by
    rw [hm₂]
    split
    · rfl
    · rfl
  have hreg₂ : ∀ r, r ≠ s0 → m₂.reg r = m₁.reg r := by
    intro r hr
    rw [hm₂]
    split
    · rw [Machine.reg_setCsr, Machine.reg_setReg _ (by decide), if_neg hr]
    · rfl
  have huser₂ : m₂.user = m₁.user := by
    rw [hm₂]
    split
    · rfl
    · rfl
  obtain ⟨hcsr', hmem', huser', hreg'⟩ := exec_loadRegs h
  have hrun : restoreCsrs.foldl Instr.run m₂ =
      (m₂.setCsr .sstatus (m₂.reg s1)).setCsr .sepc (m₂.reg s2) := rfl
  rw [hrun] at hcsr' hmem' huser' hreg'
  rw [Machine.setCsr_mem, Machine.setCsr_mem] at hmem' hreg'
  refine ⟨?_, ?_, ?_, ?_, ?_, fun r hr => ?_⟩
  · rw [hmem', hmem₂, hmem]
  · rw [hcsr', Machine.csr_setCsr, if_neg (by decide), Machine.csr_setCsr, if_pos rfl,
      hreg₂ s1 (by decide), hs1]
  · rw [hcsr', Machine.csr_setCsr, if_neg (by decide), Machine.csr_setCsr, if_neg (by decide), hm₂,
      hs0]
    split
    · rw [Machine.csr_setCsr, if_pos rfl, hsp]
    · rw [hcsr]
  · rw [hcsr', Machine.csr_setCsr, if_pos rfl, hreg₂ s2 (by decide), hs2]
  · rw [huser', Machine.setCsr_user, Machine.setCsr_user, huser₂, huser]
  · rw [hreg' r hr, hmem₂, hmem, Machine.reg_setCsr, Machine.reg_setCsr, hreg₂ sp (by decide), hsp]

/-! ## Traps and switches -/

/-- `sizeof(struct Env)`; the frame is its first field. -/
def envSize : Nat := 216

def tfAddr (base : Word) (e : EnvIdx) : Word := base + BitVec.ofNat 32 (envSize * e)

/-- The `envs` array lies in the kernel image, below the kernel stack. -/
def Placed (base : Word) : Prop :=
  ulim.toNat ≤ base.toNat ∧ base.toNat + envSize * 1024 ≤ kernend.toNat - 3 * 4096

structure State where
  m : Machine
  cur : Option EnvIdx
  ctx : EnvIdx → Trapframe

/-- A trap out of user mode: the registers at that point and what the user code
has left in its part of memory. -/
structure Arrival where
  regs : Reg → Word
  mem : Mem
  sstatus : Word
  sepc : Word
  stval : Word
  scause : Word

/-- What compiled C code leaves behind. -/
structure Residue where
  regs : Reg → Word
  mem : Mem

/-- The hardware's part of the trap; `SPP` is clear, since the trap comes from
user mode. -/
def Arrival.enter (t : Arrival) (m : Machine) : Machine where
  regs := t.regs
  csr
    | .sstatus => t.sstatus &&& ~~~Riscv.spp
    | .sepc => t.sepc
    | .stval => t.stval
    | .scause => t.scause
    | .sscratch => m.csr .sscratch
  mem := fun x => if x < ulim then t.mem x else m.mem x
  user := false

/-- The frame at `a` and the `envs` array. -/
def kept (base a x : Word) : Prop :=
  (x - a).toNat < 4 * 37 ∨ (x - base).toNat < envSize * 1024

instance (base a x : Word) : Decidable (kept base a x) :=
  inferInstanceAs (Decidable (_ ∨ _))

def Residue.mix (c : Residue) (base a : Word) (m : Mem) : Mem := fun x =>
  if kept base a x then m x else c.mem x

def setGpr (tf : Trapframe) (r : Reg) (w : Word) : Trapframe :=
  { tf with regs := Function.update tf.regs r w }

/-- `tf->sepc += 4`, as `do_ecall_from_u` does before it calls the function. -/
def skipEcall (tf : Trapframe) : Trapframe := { tf with sepc := tf.sepc + 4#32 }

/-- The handlers that return: a page fault, a system call with its result, one
with a number out of range, `e_set_trapframe` and the copy-on-write upcall. -/
inductive Handled where
  | fault
  | ret (v : Word)
  | badEcall
  | setTrapframe (e : EnvIdx) (tf : Trapframe)
  | cowUpcall (entry : Word)

/-- What the handler makes of the frame it was called with. -/
def Handled.edit (cur : Option EnvIdx) (tf : Trapframe) : Handled → Trapframe
  | fault => tf
  | ret v => setGpr (skipEcall tf) a0 v
  | badEcall => setGpr tf 1 (Kern.retWord (.error .noE))
  | setTrapframe e g =>
    if cur = some e then setGpr g a0 (g.regs 1) else setGpr (skipEcall tf) a0 0#32
  | cowUpcall entry =>
    let s := Kern.upcallSp tf - 2#32 * Kern.tfSize
    { setGpr (setGpr tf sp s) a0 s with sepc := entry }

/-- The frame that `e_set_trapframe` stores for another environment. -/
def Handled.given (cur : Option EnvIdx) : Handled → Option (EnvIdx × Trapframe)
  | setTrapframe e g => if cur = some e then none else some (e, g)
  | _ => none

/-- The ways to `schedule` that do not come back: the timer, `e_yield`,
`e_ipc_recv`, and `e_env_destroy` of the running environment. -/
inductive Leave where
  | timer
  | yield
  | ipcRecv
  | destroy
  deriving DecidableEq, Repr

def Leave.edit (tf : Trapframe) : Leave → Trapframe
  | timer => tf
  | yield => skipEcall tf
  | ipcRecv => setGpr (skipEcall tf) a0 0#32
  | destroy => skipEcall tf

inductive Act where
  /-- `env_run` with no current environment -/
  | start (e : EnvIdx) (c : Residue)
  | trap (t : Arrival) (h : Handled) (c : Residue)
  | switch (t : Arrival) (w : Leave) (e : EnvIdx) (c : Residue)

namespace State

variable (base : Word)

/-- The C code of a trap, up to the changes to frames: the memory with the frame
at `sscratch`. -/
def inKernel (s : State) (t : Arrival) (c : Residue) : Machine :=
  let m := exec 0 saveAll (t.enter s.m)
  { m with mem := c.mix base (m.csr .sscratch) m.mem }

/-- A trap whose handler returns. -/
def resume (s : State) (t : Arrival) (h : Handled) (c : Residue) : State :=
  let m := s.inKernel base t c
  let a := m.csr .sscratch
  let mem := writeTf m.mem a (h.edit s.cur (readTf m.mem a))
  match h.given s.cur with
  | none =>
    { s with m := (exec 0 restoreAll { m with regs := Function.update c.regs sp a, mem := mem }).sret }
  | some (e, g) =>
    { m := (exec 0 restoreAll
        { m with regs := Function.update c.regs sp a, mem := writeTf mem (tfAddr base e) g }).sret
      cur := s.cur
      ctx := Function.update s.ctx e g }

/-- `env_run` up to the call of `env_pop_tf`: the frame at `sscratch` is copied to
the current environment, if there is one. -/
def leave (s : State) (t : Arrival) (w : Leave) (c : Residue) : State :=
  let m := s.inKernel base t c
  let a := m.csr .sscratch
  let mem := writeTf m.mem a (w.edit (readTf m.mem a))
  match w, s.cur with
  | .destroy, _ => { m := { m with mem := mem }.setCsr .sscratch kernend, cur := none, ctx := s.ctx }
  | _, none => { s with m := { m with mem := mem } }
  | w, some k =>
    { m := { m with mem := writeTf mem (tfAddr base k) (readTf mem a) }
      cur := some k
      ctx := Function.update s.ctx k (w.edit (frame (t.enter s.m) 0#32)) }

/-- The call `env_pop_tf(&curenv->env_tf)`. -/
def call (s : State) (e : EnvIdx) (c : Residue) : State :=
  { s with
    m := { s.m with regs := Function.update c.regs a0 (tfAddr base e) }
    cur := some e }

/-- The state in which `env_pop_tf` is entered. -/
def entry (s : State) : Act → Option State
  | .start e c => some ({ s with m := { s.m with mem := c.mix base base s.m.mem } }.call base e c)
  | .trap _ _ _ => none
  | .switch t w e c => some ((s.leave base t w c).call base e c)

/-- `env_pop_tf`. -/
def pop (s : State) : State := { s with m := (exec 0 envPopTf s.m).sret }

def step (s : State) (a : Act) : State :=
  match s.entry base a, a with
  | some p, _ => p.pop
  | none, .trap t h c => s.resume base t h c
  | none, _ => s

end State

/-! ## Where the frames are -/

variable {base : Word}

theorem tfAddr_toNat (hb : Placed base) (e : EnvIdx) :
    (tfAddr base e).toNat = base.toNat + envSize * e := by
  obtain ⟨-, h⟩ := hb
  have he := e.isLt
  have hk : kernend.toNat = 0x80600000 := rfl
  unfold tfAddr envSize at *
  rw [BitVec.toNat_add, BitVec.toNat_ofNat]
  omega

theorem apart_of_toNat {a b : Word} (h : a.toNat + 148 ≤ b.toNat) (hb : b.toNat + 148 ≤ 2 ^ 32) :
    Apart 37 a b := by
  unfold Apart
  rw [BitVec.toNat_sub, BitVec.toNat_sub]
  omega

theorem toNat_of_sub_lt {x a : Word} {n : Nat} (h : (x - a).toNat < n)
    (ha : a.toNat + n ≤ 2 ^ 32) : x.toNat = a.toNat + (x - a).toNat := by
  have hx : x = a + (x - a) := by
    rw [BitVec.add_comm, BitVec.sub_add_cancel]
  rw [← Nat.mod_eq_of_lt (by omega : a.toNat + (x - a).toNat < 2 ^ 32), ← BitVec.toNat_add, ← hx]

/-- The frame on the kernel stack is apart from that of every environment. -/
theorem apart_stack (hb : Placed base) (e : EnvIdx) :
    Apart 37 (kernend - Kern.tfSize) (tfAddr base e) := by
  have he := e.isLt
  have ha := tfAddr_toNat hb e
  obtain ⟨-, h⟩ := hb
  have hk : kernend.toNat = 0x80600000 := rfl
  have hs : (kernend - Kern.tfSize).toNat = 0x80600000 - 148 := rfl
  unfold envSize at *
  apply Apart.symm
  apply apart_of_toNat
  · omega
  · omega

theorem apart_envs (hb : Placed base) {e e' : EnvIdx} (h : e ≠ e') :
    Apart 37 (tfAddr base e) (tfAddr base e') := by
  have he := e.isLt
  have he' := e'.isLt
  have ha := tfAddr_toNat hb e
  have ha' := tfAddr_toNat hb e'
  have hne : e.val ≠ e'.val := fun h' => h (Fin.ext h')
  obtain ⟨-, hb⟩ := hb
  have hk : kernend.toNat = 0x80600000 := rfl
  unfold envSize at *
  rcases Nat.lt_or_gt_of_ne hne with hlt | hlt
  · apply apart_of_toNat
    · omega
    · omega
  · apply Apart.symm
    apply apart_of_toNat
    · omega
    · omega

theorem readTf_enter (hb : Placed base) (t : Arrival) (m : Machine) (e : EnvIdx) :
    readTf (t.enter m).mem (tfAddr base e) = readTf m.mem (tfAddr base e) := by
  apply readTf_congr
  apply words_congr (by decide)
  intro x hx
  have hlt : ¬ x < ulim := by
    have he := e.isLt
    have ha := tfAddr_toNat hb e
    obtain ⟨hlo, hhi⟩ := hb
    have hk : kernend.toNat = 0x80600000 := rfl
    rw [BitVec.lt_def, toNat_of_sub_lt hx]
    · omega
    · unfold envSize at *
      omega
  simp only [Arrival.enter, if_neg hlt]

theorem readTf_mix_self (c : Residue) (base a : Word) (m : Mem) :
    readTf (c.mix base a m) a = readTf m a := by
  apply readTf_congr
  apply words_congr (by decide)
  intro x hx
  exact if_pos (.inl hx)

theorem readTf_mix (c : Residue) (a : Word) (m : Mem) (e : EnvIdx) :
    readTf (c.mix base a m) (tfAddr base e) = readTf m (tfAddr base e) := by
  apply readTf_congr
  apply words_congr (by decide)
  intro x hx
  refine if_pos (.inr ?_)
  have he := e.isLt
  have hsplit : x - base = BitVec.ofNat 32 (envSize * e) + (x - tfAddr base e) := by
    unfold tfAddr
    bv_omega
  unfold envSize at *
  rw [hsplit, BitVec.toNat_add, BitVec.toNat_ofNat, Nat.mod_eq_of_lt (by omega : 216 * e.val < 2 ^ 32),
    Nat.mod_eq_of_lt (by omega)]
  omega

/-! ## The invariant -/

/-- Where `sscratch` is the top of the kernel stack, the trap's frame is below
it, and the saved frames stay as they are. -/
theorem inKernel_spec (hb : Placed base) {s : State} (hs : s.m.csr .sscratch = kernend)
    (t : Arrival) (c : Residue) :
    (s.inKernel base t c).csr .sscratch = kernend - Kern.tfSize ∧
      Agrees (readTf (s.inKernel base t c).mem (kernend - Kern.tfSize))
        (frame (t.enter s.m) 0#32) ∧
      ∀ e, readTf (s.inKernel base t c).mem (tfAddr base e) = readTf s.m.mem (tfAddr base e) := by
  have htop : frameTop (t.enter s.m) = kernend := by
    unfold frameTop
    rw [if_neg]
    · exact hs
    · rw [show (t.enter s.m).csr .sscratch = kernend from hs]
      decide
  obtain ⟨-, -, hcsr, htf, hrest⟩ := exec_saveAll (t.enter s.m)
  rw [htop] at hcsr htf hrest
  have hscratch := (hcsr .sscratch).trans (if_pos rfl)
  unfold State.inKernel
  simp only [hscratch]
  refine ⟨trivial, ?_, fun e => ?_⟩
  · rw [readTf_mix_self, htf]
    exact ⟨fun _ _ => rfl, rfl, rfl⟩
  · rw [readTf_mix, readTf_outside (apart_stack hb e) hrest, readTf_enter hb]

/-- The frame stored for every environment is the one it is to resume with. -/
def Stored (base : Word) (s : State) : Prop :=
  ∀ e, Agrees (readTf s.m.mem (tfAddr base e)) (s.ctx e)

structure Inv (base : Word) (s : State) : Prop where
  stored : Stored base s
  /-- user code runs with `sscratch` at the top of the kernel stack -/
  scratch : s.cur ≠ none → s.m.user = true → s.m.csr .sscratch = kernend

/-- The acts that can come next: `env_run` by itself while nothing is running,
and traps out of user mode. -/
def State.Ready (s : State) : Act → Prop
  | .start _ _ => s.cur = none
  | .trap _ _ _ => s.cur ≠ none ∧ s.m.user = true
  | .switch _ _ _ _ => s.cur ≠ none ∧ s.m.user = true

theorem sret_user {m : Machine} : m.sret.user = true ↔ m.csr .sstatus &&& Riscv.spp = 0#32 := by
  simp [Machine.sret]

@[simp] theorem sret_mem (m : Machine) : m.sret.mem = m.mem := rfl

@[simp] theorem sret_scratch (m : Machine) : m.sret.csr .sscratch = m.csr .sscratch := by
  simp [Machine.sret, Machine.csr_setCsr]

/-- A frame stored for one environment leaves those of the others. -/
theorem Stored.update (hb : Placed base) {s : State} (h : Stored base s) {mem : Mem}
    {ctx : EnvIdx → Trapframe} {e : EnvIdx} {tf tf' : Trapframe} (hc : ctx = Function.update s.ctx e tf')
    (hm : ∀ x, readTf mem (tfAddr base x) = readTf s.m.mem (tfAddr base x))
    (htf : Agrees tf tf') (x : EnvIdx) :
    Agrees (readTf (writeTf mem (tfAddr base e) tf) (tfAddr base x)) (ctx x) := by
  rw [hc]
  by_cases hx : x = e
  · rw [hx, readTf_writeTf, Function.update_self]
    exact htf
  · rw [readTf_writeTf_apart _ _ (apart_envs hb (Ne.symm hx)), Function.update_of_ne hx, hm]
    exact h x

/-- `RESTORE_ALL` from the frame at the top of the kernel stack. -/
theorem Inv.restored {m : Machine} {cur : Option EnvIdx} {ctx : EnvIdx → Trapframe}
    (hsp : m.reg sp = kernend - Kern.tfSize)
    (h : ∀ e, Agrees (readTf m.mem (tfAddr base e)) (ctx e)) :
    Inv base ⟨(exec 0 restoreAll m).sret, cur, ctx⟩ := by
  obtain ⟨hmem, hstatus, hscratch, -⟩ := exec_restoreAll (m := m) rfl
  refine ⟨fun e => ?_, fun _ huser => ?_⟩
  · rw [sret_mem, hmem]
    exact h e
  · have hspp := sret_user.mp huser
    rw [hstatus] at hspp
    rw [sret_scratch, hscratch, if_pos hspp, hsp]
    decide

theorem Inv.resume (hb : Placed base) {s : State} (h : Inv base s) (hcur : s.cur ≠ none)
    (huser : s.m.user = true) (t : Arrival) (d : Handled) (c : Residue) :
    Inv base (s.resume base t d c) := by
  obtain ⟨hscratch, -, henvs⟩ := inKernel_spec hb (h.scratch hcur huser) t c
  generalize hm : s.inKernel base t c = m at *
  have hmem : ∀ e, readTf (writeTf m.mem (kernend - Kern.tfSize)
      (d.edit s.cur (readTf m.mem (kernend - Kern.tfSize)))) (tfAddr base e) =
      readTf s.m.mem (tfAddr base e) := by
    intro e
    rw [readTf_writeTf_apart _ _ (apart_stack hb e), henvs]
  have hreg : ∀ mem : Mem, Machine.reg { m with
      regs := Function.update c.regs sp (kernend - Kern.tfSize), mem := mem } sp =
      kernend - Kern.tfSize := by
    intro mem
    simp +decide [Machine.reg]
  unfold State.resume
  simp only [hm, hscratch]
  split
  · refine Inv.restored (hreg _) fun e => ?_
    simp only [hmem]
    exact h.stored e
  · exact Inv.restored (hreg _) (h.stored.update hb rfl hmem (Agrees.refl _))

theorem Agrees.skipEcall {tf tf' : Trapframe} (h : Agrees tf tf') :
    Agrees (skipEcall tf) (skipEcall tf') :=
  ⟨h.1, h.2.1, congrArg (· + 4#32) h.2.2⟩

theorem Agrees.setGpr {tf tf' : Trapframe} (h : Agrees tf tf') (r : Reg) (w : Word) :
    Agrees (setGpr tf r w) (setGpr tf' r w) := by
  refine ⟨fun x hx => ?_, h.2⟩
  simp only [Switch.setGpr, Function.update_apply]
  rw [h.1 x hx]

theorem Agrees.leave {tf tf' : Trapframe} (h : Agrees tf tf') (w : Leave) :
    Agrees (w.edit tf) (w.edit tf') := by
  cases w with
  | timer => exact h
  | yield => exact h.skipEcall
  | ipcRecv => exact h.skipEcall.setGpr _ _
  | destroy => exact h.skipEcall

/-- `env_run` stores the frame of the trap for the environment that leaves. -/
theorem Inv.leave (hb : Placed base) {s : State} (h : Inv base s) (hcur : s.cur ≠ none)
    (huser : s.m.user = true) (t : Arrival) (w : Leave) (c : Residue) :
    Stored base (s.leave base t w c) := by
  obtain ⟨hscratch, htf, henvs⟩ := inKernel_spec hb (h.scratch hcur huser) t c
  generalize hm : s.inKernel base t c = m at *
  have hmem : ∀ e, readTf (writeTf m.mem (kernend - Kern.tfSize)
      (w.edit (readTf m.mem (kernend - Kern.tfSize)))) (tfAddr base e) =
      readTf s.m.mem (tfAddr base e) := by
    intro e
    rw [readTf_writeTf_apart _ _ (apart_stack hb e), henvs]
  intro e
  unfold State.leave
  simp only [hm, hscratch]
  split
  · rw [Machine.setCsr_mem, hmem]
    exact h.stored e
  · rw [hmem]
    exact h.stored e
  · rw [readTf_writeTf]
    exact h.stored.update hb rfl hmem (htf.leave _) e

/-- The argument of `env_pop_tf` is the frame of the environment that is to run,
and every stored frame is right. -/
structure Entered (base : Word) (p : State) (e : EnvIdx) : Prop where
  cur : p.cur = some e
  arg : p.m.reg a0 = tfAddr base e
  stored : Stored base p

theorem Entered.call {s : State} (h : Stored base s) (e : EnvIdx) (c : Residue) :
    Entered base (s.call base e c) e where
  cur := rfl
  arg := by simp +decide [State.call, Machine.reg]
  stored := h

theorem Inv.entry (hb : Placed base) {s p : State} (h : Inv base s) {a : Act} (hr : s.Ready a)
    (hp : s.entry base a = some p) : ∃ e, Entered base p e := by
  cases a with
  | start e c =>
    rw [State.entry, Option.some.injEq] at hp
    rw [← hp]
    refine ⟨e, Entered.call (fun x => ?_) e c⟩
    simp only [readTf_mix]
    exact h.stored x
  | trap t d c => cases hp
  | switch t w e c =>
    rw [State.entry, Option.some.injEq] at hp
    rw [← hp]
    exact ⟨e, Entered.call (h.leave hb hr.1 hr.2 t w c) e c⟩

/-! ## Faithful switches -/

def Loads (m : Machine) (tf : Trapframe) : Prop :=
  (∀ r, r ≠ 0 → m.reg r = tf.regs r) ∧ m.csr .sstatus = tf.sstatus ∧ m.csr .sepc = tf.sepc

/-- The transfer of control that `env_pop_tf` makes from `p` is what `env_run`
asked for. -/
structure Faithful (base : Word) (p : State) : Prop where
  /-- the registers come from the argument -/
  loads : Loads (exec 0 envPopTf p.m) (readTf p.m.mem (p.m.reg a0))
  /-- the argument is the frame the environment is to resume with -/
  arg : ∃ e, p.cur = some e ∧ p.m.reg a0 = tfAddr base e ∧
    Agrees (readTf p.m.mem (p.m.reg a0)) (p.ctx e)
  scratch : (exec 0 envPopTf p.m).csr .sscratch = kernend
  /-- the next trap saves its frame on the kernel stack -/
  next : ∀ t : Arrival, (exec 0 saveAll (t.enter p.pop.m)).reg sp = kernend - Kern.tfSize

/-- At the stack pointer stands a copy of the argument, with the top of the
kernel stack in its `sscratch`. -/
def Handed (m : Machine) : Prop :=
  Agrees (readTf m.mem (m.reg sp)) (readTf m.mem (m.reg a0)) ∧
    (readTf m.mem (m.reg sp)).sscratch = kernend

theorem loads_iff {m : Machine} {tf : Trapframe} :
    Loads (exec 0 envPopTf m) tf ↔ Agrees (readTf m.mem (m.reg sp)) tf := by
  obtain ⟨-, -, hreg, -, hstatus, hsepc⟩ := exec_envPopTf (m := m) rfl
  unfold Loads Agrees
  rw [hstatus, hsepc]
  constructor
  · rintro ⟨h, h'⟩
    exact ⟨fun r hr => (hreg r hr).symm.trans (h r hr), h'⟩
  · rintro ⟨h, h'⟩
    exact ⟨fun r hr => (hreg r hr).trans (h r hr), h'⟩

theorem pop_scratch (p : State) :
    p.pop.m.csr .sscratch = (readTf p.m.mem (p.m.reg sp)).sscratch := by
  obtain ⟨-, -, -, hscratch, -, -⟩ := exec_envPopTf (m := p.m) rfl
  unfold State.pop
  rw [sret_scratch, hscratch]

theorem Entered.faithful_iff {p : State} {e : EnvIdx} (h : Entered base p e) :
    Faithful base p ↔ Handed p.m := by
  obtain ⟨-, -, -, hscratch, -, -⟩ := exec_envPopTf (m := p.m) rfl
  constructor
  · intro hf
    exact ⟨loads_iff.mp hf.loads, hscratch.symm.trans hf.scratch⟩
  · rintro ⟨hagree, hslot⟩
    refine ⟨loads_iff.mpr hagree, ⟨e, h.cur, h.arg, ?_⟩, hscratch.trans hslot, fun t => ?_⟩
    · rw [h.arg]
      exact h.stored e
    · have hpop : p.pop.m.csr .sscratch = kernend := (pop_scratch p).trans hslot
      obtain ⟨hsp, -⟩ := exec_saveAll (t.enter p.pop.m)
      have htop : frameTop (t.enter p.pop.m) = kernend := by
        unfold frameTop
        rw [show (t.enter p.pop.m).csr .sscratch = kernend from hpop, if_neg (by decide)]
      rw [hsp, htop]

theorem Entered.pop {p : State} {e : EnvIdx} (h : Entered base p e) (hh : Handed p.m) :
    Inv base p.pop := by
  obtain ⟨hmem, -⟩ := exec_envPopTf (m := p.m) rfl
  refine ⟨fun x => ?_, fun _ _ => (pop_scratch p).trans hh.2⟩
  unfold State.pop
  rw [sret_mem, hmem]
  exact h.stored x

/-- One act keeps the invariant if `env_pop_tf`, where it is called, finds at the
stack pointer what it was handed. -/
theorem Inv.step (hb : Placed base) {s : State} (h : Inv base s) {a : Act} (hr : s.Ready a)
    (hh : ∀ p, s.entry base a = some p → Handed p.m) : Inv base (s.step base a) := by
  unfold State.step
  split
  · rename_i p hp
    obtain ⟨e, he⟩ := h.entry hb hr hp
    exact he.pop (hh p hp)
  · exact h.resume hb hr.1 hr.2 _ _ _
  · exact h

namespace State

variable (base : Word)

/-- Nothing is running yet. -/
def boot (m : Machine) : State := ⟨m, none, fun e => readTf m.mem (tfAddr base e)⟩

def Runs : State → List Act → Prop
  | _, [] => True
  | s, a :: as => s.Ready a ∧ Runs (s.step base a) as

/-- `P` holds of every state of the run in which `env_pop_tf` is entered. -/
def Transfers (P : State → Prop) : State → List Act → Prop
  | _, [] => True
  | s, a :: as => (∀ p, s.entry base a = some p → P p) ∧ Transfers P (s.step base a) as

end State

theorem Inv.transfers_iff (hb : Placed base) {s : State} (h : Inv base s) {as : List Act}
    (hrun : s.Runs base as) :
    s.Transfers base (Faithful base) as ↔ s.Transfers base (fun p => Handed p.m) as := by
  -- Either side says that the first transfer was handed over, so the invariant
  -- holds after it.
  induction as generalizing s with
  | nil => exact Iff.rfl
  | cons a as ih =>
    obtain ⟨hr, hrun⟩ := hrun
    have hfirst : (∀ p, s.entry base a = some p → Faithful base p) ↔
        ∀ p, s.entry base a = some p → Handed p.m := by
      refine forall_congr' fun p => forall_congr' fun hp => ?_
      obtain ⟨e, he⟩ := h.entry hb hr hp
      exact he.faithful_iff
    constructor
    · rintro ⟨hf, hrest⟩
      have hh := hfirst.mp hf
      exact ⟨hh, (ih (h.step hb hr hh) hrun).mp hrest⟩
    · rintro ⟨hh, hrest⟩
      exact ⟨hfirst.mpr hh, (ih (h.step hb hr hh) hrun).mpr hrest⟩

theorem boot_inv (m : Machine) : Inv base (State.boot base m) :=
  ⟨fun _ => Agrees.refl _, fun h _ => (h rfl).elim⟩

/-- In a run of traps out of user mode, every transfer of control by `env_run` is
faithful exactly if, whenever `env_pop_tf` is entered, a copy of the frame it is
passed stands at the stack pointer, with the top of the kernel stack in its
`sscratch`. -/
theorem transfers_faithful (base : Word) (hb : Placed base) (m : Machine) (as : List Act)
    (hrun : (State.boot base m).Runs base as) :
    (State.boot base m).Transfers base (Faithful base) as ↔
      (State.boot base m).Transfers base (fun p => Handed p.m) as :=
  (boot_inv m).transfers_iff hb hrun

/-- Two environments whose frames have the top of the kernel stack in their
`sscratch`; the first starts at `0x400000`. -/
def twoFrames : Machine where
  regs := fun _ => 0#32
  csr := fun _ => 0#32
  mem :=
    storeWord (storeWord (storeWord (fun _ => 0#8) 0x80300084#32 0x400000#32)
      0x80300090#32 kernend) 0x80300168#32 kernend
  user := false

/-- C code that leaves `w` in the registers and zeros on its stack. -/
def leaving (w : Word) : Residue := ⟨fun _ => w, fun _ => 0#8⟩

def timerTick : Arrival := ⟨fun _ => 7#32, fun _ => 0#8, 0#32, 0x400010#32, 0#32, 0x80000005#32⟩

theorem placed_image : Placed 0x80300000#32 := by
  unfold Placed
  decide

/-- The first environment is started and the timer hands over to the second, both
times with the stack pointer at the frame. -/
theorem transfers_faithful_two :
    (State.boot 0x80300000#32 twoFrames).Transfers 0x80300000#32 (Faithful 0x80300000#32)
      [.start 0 (leaving 0x80300000#32), .switch timerTick .timer 1 (leaving 0x803000d8#32)] := by
  have hsame : ∀ {m : Machine}, m.reg sp = m.reg a0 →
      (readTf m.mem (m.reg sp)).sscratch = kernend → Handed m := by
    intro m h h'
    refine ⟨?_, h'⟩
    rw [h]
    exact Agrees.refl _
  refine (transfers_faithful 0x80300000#32 placed_image twoFrames _ ?_).mpr ?_
  · refine ⟨rfl, ⟨by simp [State.step, State.entry, State.pop, State.call], ?_⟩, trivial⟩
    decide +kernel
  · refine ⟨?_, ?_, trivial⟩
    · rintro p ⟨⟩
      exact hsame (by decide +kernel) (by decide +kernel)
    · rintro p ⟨⟩
      exact hsame (by decide +kernel) (by decide +kernel)

/-- With the stack pointer on the kernel stack the environment is not started at
its `sepc` but at what stands there. -/
theorem transfers_unfaithful :
    Placed 0x80300000#32 ∧
      (State.boot 0x80300000#32 twoFrames).Runs 0x80300000#32 [.start 0 (leaving 0x805fff00#32)] ∧
      ¬ (State.boot 0x80300000#32 twoFrames).Transfers 0x80300000#32 (Faithful 0x80300000#32)
        [.start 0 (leaving 0x805fff00#32)] := by
  refine ⟨placed_image, ⟨rfl, trivial⟩, fun h => ?_⟩
  have hsepc := (loads_iff.mp (h.1 _ rfl).loads).2.2
  revert hsepc
  decide +kernel

/-! ## The kernel of the other modules -/

/-- The kernel has the frames that the environments are to resume with. -/
def Tracks (s : State) (k : Kernel) : Prop :=
  s.cur = k.curenv ∧ ∀ e, Agrees (s.ctx e) (k.envs e).tf

theorem leave_ctx {s : State} {x : EnvIdx} (hx : s.cur = some x) {w : Leave} (hw : w ≠ .destroy)
    (t : Arrival) (c : Residue) :
    (s.leave base t w c).ctx = Function.update s.ctx x (w.edit (frame (t.enter s.m) 0#32)) := by
  unfold State.leave
  rw [hx]
  cases w with
  | destroy => exact (hw rfl).elim
  | timer => rfl
  | yield => rfl
  | ipcRecv => rfl

/-- A switch of the machine is `env_run` of the kernel. -/
theorem Tracks.ran {s : State} {k : Kernel} (h : Tracks s k) {x : EnvIdx} (hx : s.cur = some x)
    {w : Leave} (hw : w ≠ .destroy) {t : Arrival}
    (hact : Agrees (w.edit (frame (t.enter s.m) 0#32)) k.active) (e : EnvIdx) (c : Residue) :
    Tracks ((s.leave base t w c).call base e c) (Kern.ran k e) := by
  refine ⟨rfl, fun y => ?_⟩
  obtain ⟨n, hn⟩ := Kern.ran_envs k e y
  have hk : k.curenv = some x := h.1.symm.trans hx
  show Agrees ((s.leave base t w c).ctx y) _
  rw [hn, leave_ctx hx hw, hk]
  by_cases hy : y = x
  · rw [hy, Function.update_self, if_pos rfl]
    exact hact
  · rw [Function.update_of_ne hy, if_neg (fun h' => hy (Option.some.inj h').symm)]
    exact h.2 y

/-- After a faithful switch the machine has the registers that the kernel's
active frame holds. -/
theorem Faithful.loads_active {p : State} (h : Faithful base p) {k : Kernel} {e : EnvIdx}
    (hk : Tracks p (Kern.ran k e)) : Loads (exec 0 envPopTf p.m) (Kern.ran k e).active := by
  obtain ⟨x, hx, -, hctx⟩ := h.arg
  have hxe : x = e := Option.some.inj (hx.symm.trans hk.1)
  rw [hxe] at hctx
  have htf := hctx.trans (hk.2 e)
  rw [Kern.ran_active]
  exact ⟨fun r hr => (h.loads.1 r hr).trans (htf.1 r hr), h.loads.2.1.trans htf.2.1,
    h.loads.2.2.trans htf.2.2⟩

end Switch
end RvMos
