/-
Trap handlers (`kern/traps.c`).

`handle tf t` is one trap of the running environment: `SAVE_ALL` stores the
frame `tf`, the handler of the cause runs, and control returns through the
active frame.  `do_load_page` reads `*pte1` also where `page_lookup` found
nothing and left `pte1` unset; the word it finds there is an argument, and
`none` is a pointer that leads nowhere.
-/
import RvMos.Kern.Ecall

namespace RvMos

open Lib

namespace Kern

open Sys

/-- `if (f(..) != 0) panic(msg)`. -/
def orPanic {α : Type} (m : Kern α) (msg : String) : Kern α := do
  match ← attempt m with
  | .error _ => halt (.panic msg)
  | .ok a => pure a

/-! ## Load faults -/

/-- The frame at `stval` with the word that `*pte1` reads; a new frame where
nothing is mapped. -/
def loadTarget (junk : Option Word) (pgdir : Option Frame) (stval : Word) :
    Kern (Frame × Word) := do
  match ← pageLookup pgdir stval with
  | some (pp, p) => pure (pp, (← get).pmap.deref p)
  | none => do
    let pp ← orPanic pageAlloc "load page : alloc failed!\n"
    match junk with
    | none => halt .wild
    | some w => pure (pp, w)

/-- The branches of `do_load_page` below `UVPT` and from `ULIM` on. -/
def loadMapped (junk : Option Word) (stval : Word) : Kern Unit := do
  let c ← curenv
  let pgdir := ((← get).envs c).pgdir
  let (pp, pte) ← loadTarget junk pgdir stval
  orPanic (pageInsert pgdir pp (rounddown stval) (pte ||| pteR ||| pteU))
    "insert page failed!\n"

/-- `page_alloc` of a page table that goes into entry `i` of a directory. -/
def newTable (d : Frame) (i : Index) (msg : String) : Kern Frame := do
  let pp ← orPanic pageAlloc msg
  modify fun k => k.setPmap ((k.pmap.incRef pp).store ⟨d, i⟩ (page2ptx pp ||| pteV))
  pure pp

/-- The address in the `UVPT` window of table `i`. -/
def vptAddr (i : Index) : Word := uvpt + (BitVec.ofNat 32 i.val <<< pgshift)

/-- The page table of entry `i`, which is allocated where it is missing. -/
def vptTable (d : Frame) (i : Index) : Kern Frame := do
  let pt := paddr (pteAddr ((← get).pmap.mem d i))
  if pt = 0#32 then newTable d i "used all pages!\n"
  else
    match addr2page pt with
    | none => halt (.panic "pa2page called with invalid ahdress: %x")
    | some pp => pure pp

/-- Round `i` of the loop that fills the `UVPT` window. -/
def vptRound (d : Frame) (i : Index) : Kern Unit := do
  let pp ← vptTable d i
  let _ ← attempt (pageInsert (some d) pp (vptAddr i) (pteR ||| pteU))
  pure ()

/-- The loop over all entries of the directory. -/
def fillVpt (d : Frame) : Kern Unit := each (vptRound d) (List.finRange 1024)

/-- `*pd` is given a table where it has none. -/
def ensureVpt (d : Frame) : Kern Unit := do
  if (← get).pmap.mem d (pdx uvpt) = 0#32 then
    let _ ← newTable d (pdx uvpt) "load vpt used all pages!\n"
    pure ()
  else pure ()

/-- The branch of `do_load_page` for the `UVPT` window. -/
def loadVpt : Kern Unit := do
  let c ← curenv
  let d ← dirOf ((← get).envs c).pgdir
  ensureVpt d
  fillVpt d
  let _ ← attempt (pageInsert (some d) d (vptAddr (pdx uvpt)) (pteR ||| pteU))
  pure ()

def doLoadPage (junk : Option Word) : Kern Unit := do
  let stval := (← get).active.stval
  if stval < utemp then halt (.panic "load illegal page!\n")
  else if stval < uvpt then loadMapped junk stval
  else if stval < ulim then loadVpt
  else loadMapped junk stval

/-! ## Store faults -/

/-- The bytes of a frame in memory order. -/
def tfBytes (tf : Trapframe) : List (BitVec 8) :=
  ((List.finRange 32).map tf.regs ++ [tf.sstatus, tf.sepc, tf.stval, tf.scause,
    tf.sscratch]).flatMap wordBytes

/-- Where the upcall frames start: the interrupted stack pointer if it is on the
exception stack. -/
def upcallSp (tf : Trapframe) : Word :=
  if tf.regs 2 < ustacktop ∨ uxstacktop ≤ tf.regs 2 then uxstacktop else tf.regs 2

/-- The upcall of a write to a copy-on-write page: the frame is copied to the
exception stack and control goes to `env_cow_entry`. -/
def cowUpcall : Kern Unit := do
  let tf := (← get).active
  kernelStore (uxstacktop - tfSize) (tfBytes tf)
  let sp := upcallSp tf - 2#32 * tfSize
  setReg 2 sp
  kernelStore sp (tfBytes (← get).active)
  let c ← curenv
  let entry := ((← get).envs c).cowEntry
  if entry ≠ 0#32 then
    setReg 10 sp
    modify fun k => { k with active := { k.active with sepc := entry } }
  else halt (.panic "COW doesn't have cow_entry!\n")

def doStorePage : Kern Unit := do
  let stval := (← get).active.stval
  match ← pageLookup (← get).curPgdir stval with
  | some (pp, p) => do
    let pte := (← get).pmap.deref p
    if pte &&& pteCow = pteCow then cowUpcall
    else
      let c ← curenv
      orPanic (pageInsert ((← get).envs c).pgdir pp (rounddown stval) (pte ||| pteW))
        "ccccccccccccccccccc do _store"
  | none => do
    let pp ← orPanic pageAlloc "alloc page failed!\n"
    let c ← curenv
    orPanic (pageInsert ((← get).envs c).pgdir pp (rounddown stval) (pteR ||| pteW ||| pteU))
      "insert page failed!\n"

/-! ## Dispatch -/

/-- The causes of `exception_handlers`. -/
inductive Trap where
  | ecall (c : Ecall)
  | badEcall
  | timer
  | software
  | loadPage (junk : Option Word)
  | storePage
  | instructionPage
  | reserved

def handler : Trap → Kern Unit
  | .ecall c => doEcallFromU c
  | .badEcall => badEcall
  | .timer => schedule false
  | .software => pure ()
  | .loadPage junk => doLoadPage junk
  | .storePage => doStorePage
  | .instructionPage => halt (.panic "Instruction Page Fault!\n")
  | .reserved => halt (.panic "Unknown ExcCode %08x")

def handle (tf : Trapframe) (t : Trap) : Kern Unit := do
  modify fun k => { k with active := tf }
  handler t

end Kern

/-! ## Steps -/

/-- What happens to the kernel: a program is loaded, or the processor traps. -/
inductive Event where
  | create (prog : Kern.Program) (priority : Word)
  | trap (tf : Trapframe) (t : Kern.Trap)

namespace Kernel

/-- A timer interrupt may find no environment; every other trap is one of the
running environment. -/
def Enabled (k : Kernel) : Event → Prop
  | .trap _ .timer => True
  | .trap _ _ => k.curenv ≠ none
  | .create _ _ => True

instance (k : Kernel) (ev : Event) : Decidable (k.Enabled ev) := by
  unfold Enabled
  split
  · exact .isTrue trivial
  · exact inferInstanceAs (Decidable (k.curenv ≠ none))
  · exact .isTrue trivial

def exec : Event → Kern Unit
  | .create prog priority => do
    let _ ← Kern.envCreate prog priority
    pure ()
  | .trap tf t => Kern.handle tf t

/-- One event that the kernel survives. -/
def Step (k : Kernel) (ev : Event) (k' : Kernel) : Prop :=
  k.Enabled ev ∧ ∃ r, exec ev k = .ok (r, k')

/-- The state after an event, where there is one. -/
def next (ev : Event) (k : Kernel) : Option Kernel :=
  if k.Enabled ev then
    match exec ev k with
    | .ok (_, k') => some k'
    | .error _ => none
  else none

theorem step_of_next (ev : Event) (k k' : Kernel) (h : next ev k = some k') : k.Step ev k' := by
  unfold next at h
  split at h
  · rename_i hen
    refine ⟨hen, ?_⟩
    cases he : exec ev k with
    | error c => rw [he] at h; exact absurd h (by simp)
    | ok x =>
      rw [he] at h
      exact ⟨x.1, by rw [← Option.some.inj h]⟩
  · exact absurd h (by simp)

end Kernel
end RvMos
