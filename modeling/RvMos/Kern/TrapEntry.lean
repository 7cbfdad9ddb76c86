/-
The way into a handler and back (`kern/entry.S`, `kern/genex.S`).

`exc_gen_entry` saves a frame, looks the cause up in `exception_handlers` and
jumps; `ret_from_exception` loads the frame again.  The handlers in between are
C code: they come back with `sp` as it was and do not write `sscratch`.  The
address of the table is chosen by the linker.
-/
import RvMos.Kern.Switch

namespace RvMos
namespace Switch

open Lib Lib.Riscv

/-! ## The assembly -/

def t1 : Reg := 6

/-- The interrupt bit of `scause` goes to `t1`. -/
def causeBit : List Instr :=
  [.csrr t0 .scause,
   .srli t1 t0 31,
   .andi t1 t1 1#32]

/-- `is_interrupt`: the bit is dropped, and the index moves to the second half. -/
def isInterrupt : List Instr :=
  [.slli t0 t0 1,
   .srli t0 t0 1,
   .addi t0 t0 16#32]

/-- `not_interrupt`. -/
def notInterrupt (handlers : Word) : List Instr :=
  [.addi t1 t0 0#32,
   .li t0 handlers,
   .slli t1 t1 2,
   .add t0 t1 t0,
   .lw t0 0#32 t0]

/-- `exc_gen_entry` between `SAVE_ALL` and `jr t0`. -/
def dispatch (handlers : Word) : List Instr :=
  causeBit ++ (.beqz t1 3 :: (isInterrupt ++ notInterrupt handlers))

/-- `exc_gen_entry` up to its last instruction, which jumps to `t0`. -/
def excGenEntry (handlers : Word) : List Instr := saveAll ++ dispatch handlers

/-- `ret_from_exception`. -/
def retFromException (m : Machine) : Machine := (exec 0 restoreAll m).sret

/-- `scause` for a cause with or without the interrupt bit. -/
def scauseOf (intr : Bool) (cause : Fin 16) : Word :=
  (if intr then 0x80000000#32 else 0#32) ||| BitVec.ofNat 32 cause

/-- The entry of `exception_handlers` for a cause. -/
def handlerOf (intr : Bool) (cause : Fin 16) : ℕ := if intr then cause + 16 else cause

/-! ## What it does -/

section Dispatch

variable {m : Machine}

theorem reg_set (n : Machine) {r : Reg} (w : Word) (x : Reg) (hr : r ≠ 0) :
    (n.setReg r w).reg x = if x = r then w else n.reg x := n.reg_setReg hr w x

/-- `m'` is `m` with other values in `t0` and `t1`. -/
def Scratched (m m' : Machine) : Prop :=
  m'.mem = m.mem ∧ m'.csr = m.csr ∧ m'.user = m.user ∧ m'.reg sp = m.reg sp

theorem Scratched.trans {m₁ m₂ : Machine} (h : Scratched m m₁) (h' : Scratched m₁ m₂) :
    Scratched m m₂ :=
  ⟨h'.1.trans h.1, h'.2.1.trans h.2.1, h'.2.2.1.trans h.2.2.1, h'.2.2.2.trans h.2.2.2⟩

theorem run_causeBit (m : Machine) :
    let m' := causeBit.foldl Instr.run m
    Scratched m m' ∧ m'.reg t0 = m.csr .scause ∧ m'.reg t1 = (m.csr .scause >>> 31) &&& 1#32 := by
  simp only [causeBit, List.foldl_cons, List.foldl_nil, Instr.run]
  refine ⟨⟨rfl, rfl, rfl, ?_⟩, ?_, ?_⟩ <;> simp +decide [reg_set]

theorem run_isInterrupt (m : Machine) :
    let m' := isInterrupt.foldl Instr.run m
    Scratched m m' ∧ m'.reg t0 = ((m.reg t0 <<< 1) >>> 1) + 16#32 := by
  simp only [isInterrupt, List.foldl_cons, List.foldl_nil, Instr.run]
  refine ⟨⟨rfl, rfl, rfl, ?_⟩, ?_⟩ <;> simp +decide [reg_set]

theorem run_notInterrupt (handlers : Word) (m : Machine) :
    let m' := (notInterrupt handlers).foldl Instr.run m
    Scratched m m' ∧ m'.reg t0 = loadWord m.mem (handlers + (m.reg t0 <<< 2)) := by
  simp only [notInterrupt, List.foldl_cons, List.foldl_nil, Instr.run]
  refine ⟨⟨rfl, rfl, rfl, ?_⟩, ?_⟩
  · simp +decide [reg_set]
  · simp +decide [reg_set, BitVec.add_comm]

theorem straight_causeBit : ∀ i ∈ causeBit, i.Straight := by
  simp [causeBit, Instr.Straight]

theorem straight_isInterrupt : ∀ i ∈ isInterrupt, i.Straight := by
  simp [isInterrupt, Instr.Straight]

theorem straight_notInterrupt (handlers : Word) : ∀ i ∈ notInterrupt handlers, i.Straight := by
  simp [notInterrupt, Instr.Straight]

/-- The branch over `is_interrupt`. -/
theorem exec_isInterrupt (is : List Instr) (m : Machine) :
    exec 0 (.beqz t1 3 :: (isInterrupt ++ is)) m =
      exec 0 is (if m.reg t1 = 0#32 then m else isInterrupt.foldl Instr.run m) := by
  rw [exec, Instr.jump, Instr.run]
  by_cases hz : m.reg t1 = 0#32
  · rw [if_pos hz, if_pos hz]
    rfl
  · rw [if_neg hz, if_neg hz]
    exact exec_straight straight_isInterrupt is m

theorem scause_bit : ∀ intr cause, (scauseOf intr cause >>> 31) &&& 1#32 =
    if intr then 1#32 else 0#32 := by
  decide

theorem scause_index : ∀ intr cause,
    (if intr then (scauseOf intr cause <<< 1 >>> 1) + 16#32 else scauseOf intr cause : Word) <<< 2 =
      BitVec.ofNat 32 (4 * handlerOf intr cause) := by
  decide

/-- The dispatch loads the entry of `exception_handlers` for the cause. -/
theorem exec_dispatch (handlers : Word) {intr : Bool} {cause : Fin 16}
    (hcause : m.csr .scause = scauseOf intr cause) :
    let m' := exec 0 (dispatch handlers) m
    Scratched m m' ∧ m'.reg t0 = loadWord m.mem (slot handlers (handlerOf intr cause)) := by
  obtain ⟨hs₁, ht0, ht1⟩ := run_causeBit m
  rw [dispatch, exec_straight straight_causeBit, exec_isInterrupt,
    ← List.append_nil (notInterrupt handlers), exec_straight (straight_notInterrupt handlers), exec]
  generalize causeBit.foldl Instr.run m = m₁ at *
  rw [hcause] at ht0 ht1
  rw [scause_bit] at ht1
  obtain ⟨m₂, hm₂, hs₂, hidx⟩ : ∃ m₂, m₂ = (if m₁.reg t1 = 0#32 then m₁ else
      isInterrupt.foldl Instr.run m₁) ∧ Scratched m₁ m₂ ∧
      m₂.reg t0 <<< 2 = BitVec.ofNat 32 (4 * handlerOf intr cause) := by
    refine ⟨_, rfl, ?_⟩
    have hi := scause_index intr cause
    cases intr with
    | false =>
      rw [if_neg (by decide)] at ht1 hi
      rw [if_pos ht1, ht0]
      exact ⟨⟨rfl, rfl, rfl, rfl⟩, hi⟩
    | true =>
      rw [if_pos rfl] at ht1 hi
      rw [ht1, if_neg (by decide)]
      obtain ⟨hs, ht⟩ := run_isInterrupt m₁
      rw [ht, ht0]
      exact ⟨hs, hi⟩
  rw [← hm₂]
  obtain ⟨hs₃, ht₃⟩ := run_notInterrupt handlers m₂
  refine ⟨(hs₁.trans hs₂).trans hs₃, ?_⟩
  rw [ht₃, hidx, hs₂.1, hs₁.1]
  rfl

end Dispatch

/-- `SAVE_ALL` falls through to what follows it. -/
theorem exec_saveAll_append (is : List Instr) (m : Machine) :
    exec 0 (saveAll ++ is) m = exec 0 is (exec 0 saveAll m) := by
  have hrest : ∀ i ∈ stores sp gpr saved ++ (saveCsrs ++ stores sp late savedLate), i.Straight := by
    intro i hi
    rcases List.mem_append.mp hi with hi | hi
    · exact straight_stores _ _ _ i hi
    · rcases List.mem_append.mp hi with hi | hi
      · exact straight_saveCsrs i hi
      · exact straight_stores _ _ _ i hi
  have hend : ∀ n : Machine, exec 0 (stores sp gpr saved ++ (saveCsrs ++ stores sp late savedLate)) n =
      (stores sp gpr saved ++ (saveCsrs ++ stores sp late savedLate)).foldl Instr.run n := by
    intro n
    have h := exec_straight hrest [] n
    rwa [List.append_nil, exec] at h
  rw [saveAll, List.append_assoc, exec_saveStack, exec_saveStack, exec_straight hrest, hend]

/-- What `exc_gen_entry` leaves: the frame of the interrupted code below
`frameTop` and nothing else in memory, its address in `sp` and `sscratch`. -/
theorem exec_excGenEntry (handlers : Word) (m : Machine) {intr : Bool} {cause : Fin 16}
    (hcause : m.csr .scause = scauseOf intr cause) :
    let a := frameTop m - Kern.tfSize
    let m' := exec 0 (excGenEntry handlers) m
    m'.reg sp = a ∧ m'.csr .sscratch = a ∧ m'.user = m.user ∧
      readTf m'.mem a = frame m (words 37 m.mem a regSscratch) ∧
      (∀ x, 4 * 37 ≤ (x - a).toNat → m'.mem x = m.mem x) ∧
      m'.reg t0 = loadWord m'.mem (slot handlers (handlerOf intr cause)) := by
  intro a m'
  obtain ⟨hsp, huser, hcsr, htf, hrest⟩ := exec_saveAll m
  have hm' : m' = exec 0 (dispatch handlers) (exec 0 saveAll m) := exec_saveAll_append _ m
  have hc : (exec 0 saveAll m).csr .scause = scauseOf intr cause :=
    ((hcsr .scause).trans (if_neg (by decide))).trans hcause
  obtain ⟨⟨hmem, hcsr', huser', hsp'⟩, ht0⟩ := exec_dispatch handlers hc
  rw [← hm'] at hmem hcsr' huser' hsp' ht0
  rw [hmem]
  refine ⟨hsp'.trans hsp, ?_, huser'.trans huser, htf, hrest, ht0⟩
  rw [hcsr', hcsr, if_pos rfl]

/-! ## Traps out of user mode -/

theorem frameTop_of_scratch {m : Machine} {w : Word} (h : m.csr .sscratch = w) (hw : w ≠ 0#32) :
    frameTop m = w := by
  rw [frameTop, h, if_neg hw]

/-- A trap out of user mode with `sscratch` at the top of the kernel stack: its
frame is filled there, the handler of the cause is jumped to, and wherever the
handler leaves the frame as it is, the registers come back. -/
theorem user_trap_preserves (handlers : Word) (intr : Bool) (cause : Fin 16) (m : Machine)
    (hspp : m.csr .sstatus &&& Riscv.spp = 0#32) (hscratch : m.csr .sscratch = kernend)
    (hcause : m.csr .scause = scauseOf intr cause) :
    let a := kernend - Kern.tfSize
    let m₁ := exec 0 (excGenEntry handlers) m
    (readTf m₁.mem a).regs = m.reg ∧ (readTf m₁.mem a).sstatus = m.csr .sstatus ∧
      (readTf m₁.mem a).sepc = m.csr .sepc ∧ (readTf m₁.mem a).stval = m.csr .stval ∧
      (readTf m₁.mem a).scause = m.csr .scause ∧
      (∀ x, 4 * 37 ≤ (x - a).toNat → m₁.mem x = m.mem x) ∧
      m₁.reg t0 = loadWord m₁.mem (slot handlers (handlerOf intr cause)) ∧ m₁.reg sp = a ∧
      ∀ m₂ : Machine, m₂.reg sp = a → readTf m₂.mem a = readTf m₁.mem a →
        (exec 0 restoreAll m₂).csr .sstatus = m.csr .sstatus ∧
        (∀ r, (retFromException m₂).reg r = m.reg r) ∧
        (retFromException m₂).csr .sepc = m.csr .sepc ∧
        (retFromException m₂).csr .sscratch = kernend ∧ (retFromException m₂).user = true := by
  intro a m₁
  obtain ⟨hsp, -, -, htf, hmem, ht0⟩ := exec_excGenEntry handlers m hcause
  rw [frameTop_of_scratch hscratch (by decide)] at hsp htf hmem
  refine ⟨by rw [htf, frame], by rw [htf, frame], by rw [htf, frame], by rw [htf, frame],
    by rw [htf, frame], hmem, ht0, hsp, fun m₂ hsp₂ hkeep => ?_⟩
  obtain ⟨-, hstatus, hscratch', hsepc, -, hregs⟩ := exec_restoreAll (m := m₂) rfl
  rw [hsp₂, hkeep, htf] at hstatus hscratch' hsepc hregs
  refine ⟨hstatus, fun r => ?_, ?_, ?_, ?_⟩
  · by_cases hr : r = 0
    · rw [hr]
      rfl
    · exact hregs r hr
  · exact hsepc
  · have hend := hscratch'.trans (if_pos hspp)
    exact hend.trans (by decide)
  · refine sret_user.mpr ?_
    rw [hstatus]
    exact hspp

/-- A machine at its first timer interrupt. -/
def ticking : Machine where
  regs r := BitVec.ofNat 32 r
  csr
    | .sepc => 0x400000#32
    | .scause => 0x80000005#32
    | .sscratch => kernend
    | _ => 0#32
  mem _ := 0#8
  user := false

/-- The timer is entry 21 of `exception_handlers`. -/
theorem user_trap_preserves_timer :
    (readTf (exec 0 (excGenEntry 0x80210000#32) ticking).mem (kernend - Kern.tfSize)).regs 10 =
        10#32 ∧
      (exec 0 (excGenEntry 0x80210000#32) ticking).reg t0 =
        loadWord (exec 0 (excGenEntry 0x80210000#32) ticking).mem (slot 0x80210000#32 21) := by
  obtain ⟨hregs, -, -, -, -, -, ht0, -⟩ :=
    user_trap_preserves 0x80210000#32 true 5 ticking (by decide) rfl (by decide)
  exact ⟨congrFun hregs 10, ht0⟩

/-! ## Traps out of the kernel -/

/-- The entry of a trap out of a handler for a trap from user mode: `SAVE_ALL` has
run for the outer trap, and the handler, which is somewhere below that frame on the
stack, has not written `sscratch`. -/
structure InHandler (m : Machine) : Prop where
  outer : ∃ m₀ : Machine, m₀.csr .sscratch = kernend ∧ m₀.csr .sstatus &&& Riscv.spp = 0#32 ∧
    m.csr .sscratch = (exec 0 saveAll m₀).csr .sscratch ∧
    m.reg sp ≤ (exec 0 saveAll m₀).reg sp
  super : m.csr .sstatus &&& Riscv.spp ≠ 0#32
  cause : ∃ intr cause, m.csr .scause = scauseOf intr cause

/-- The nested trap stays below the stack pointer `s` of the kernel, and wherever
its handler leaves the frame as it is, the kernel goes on as before. -/
structure Undamaged (handlers : Word) (m : Machine) : Prop where
  below : ((exec 0 (excGenEntry handlers) m).reg sp).toNat + 4 * 37 ≤ (m.reg sp).toNat
  kept : ∀ x, m.reg sp ≤ x → (exec 0 (excGenEntry handlers) m).mem x = m.mem x
  resumes : ∀ m₂ : Machine, m₂.reg sp = (exec 0 (excGenEntry handlers) m).reg sp →
    m₂.csr .sscratch = (exec 0 (excGenEntry handlers) m).csr .sscratch →
    readTf m₂.mem (m₂.reg sp) = readTf (exec 0 (excGenEntry handlers) m).mem (m₂.reg sp) →
    (exec 0 restoreAll m₂).csr .sstatus = m.csr .sstatus ∧
      (∀ r, (retFromException m₂).reg r = m.reg r) ∧
      (retFromException m₂).csr .sepc = m.csr .sepc ∧
      (retFromException m₂).csr .sscratch = m.csr .sscratch

theorem InHandler.scratch {m : Machine} (h : InHandler m) :
    m.csr .sscratch = kernend - Kern.tfSize := by
  obtain ⟨m₀, hk, -, hs, -⟩ := h.outer
  obtain ⟨-, -, hcsr, -⟩ := exec_saveAll m₀
  rw [hs, hcsr, if_pos rfl, frameTop_of_scratch hk (by decide)]

/-- `sscratch` is not zero inside a handler, so the nested frame goes below the
outer one, wherever the kernel's stack pointer is, and its address stays in
`sscratch` on the way back to the kernel. -/
theorem InHandler.nested {m : Machine} (h : InHandler m) (handlers : Word) :
    let m₁ := exec 0 (excGenEntry handlers) m
    m₁.reg sp = kernend - 2#32 * Kern.tfSize ∧
      (retFromException m₁).csr .sscratch = kernend - 2#32 * Kern.tfSize := by
  intro m₁
  obtain ⟨intr, cause, hcause⟩ := h.cause
  obtain ⟨hsp, hscratch, -, htf, -⟩ := exec_excGenEntry handlers m hcause
  have htop := frameTop_of_scratch h.scratch (by decide)
  have ha : kernend - Kern.tfSize - Kern.tfSize = kernend - 2#32 * Kern.tfSize := by decide
  rw [htop, ha] at hsp hscratch htf
  obtain ⟨-, -, hscratch', -⟩ := exec_restoreAll (m := m₁) rfl
  refine ⟨hsp, ?_⟩
  show (exec 0 restoreAll m₁).csr .sscratch = _
  rw [hscratch', hsp, htf, if_neg]
  · exact hscratch
  · exact h.super

/-- No trap out of a handler leaves the kernel as it was. -/
theorem nested_trap_damages (handlers : Word) (m : Machine) (h : InHandler m) :
    ¬Undamaged handlers m := by
  intro hu
  obtain ⟨-, hlost⟩ := h.nested handlers
  obtain ⟨-, -, -, hsame⟩ := hu.resumes (exec 0 (excGenEntry handlers) m) rfl rfl rfl
  rw [hlost, h.scratch] at hsame
  exact absurd hsame (by decide)

/-- A load fault in `do_ecall_from_u`, with 64 bytes of the kernel's on the stack. -/
def faulting : Machine where
  regs := Function.update (fun _ => 0#32) sp (kernend - Kern.tfSize - 64#32)
  csr
    | .sstatus => Riscv.spp
    | .sepc => 0x80201000#32
    | .stval => 0x400000#32
    | .scause => 13#32
    | .sscratch => kernend - Kern.tfSize
  mem _ := 0#8
  user := false

theorem faulting_inHandler : InHandler faulting := by
  refine ⟨⟨ticking, rfl, by decide, ?_, ?_⟩, by decide, false, 13, by decide⟩
  · obtain ⟨-, -, hcsr, -⟩ := exec_saveAll ticking
    rw [hcsr, if_pos rfl, frameTop_of_scratch (w := kernend) rfl (by decide)]
    rfl
  · obtain ⟨hsp, -⟩ := exec_saveAll ticking
    rw [hsp, frameTop_of_scratch (w := kernend) rfl (by decide)]
    decide

theorem nested_trap_damages_load : ¬Undamaged 0x80210000#32 faulting :=
  nested_trap_damages 0x80210000#32 faulting faulting_inHandler

/-- The nested frame of that fault is written over the 64 bytes. -/
theorem nested_trap_undamaged_fails :
    ¬∀ (handlers : Word) (m : Machine), InHandler m → Undamaged handlers m := by
  intro hall
  have hbelow := (hall 0x80210000#32 faulting faulting_inHandler).below
  obtain ⟨hsp, -⟩ := faulting_inHandler.nested 0x80210000#32
  rw [hsp] at hbelow
  exact absurd hbelow (by decide)

end Switch
end RvMos
