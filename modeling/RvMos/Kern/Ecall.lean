/-
System calls (`kern/ecall_all.c`) and their dispatch (`do_ecall_from_u`).

The calls keep the source's names and orders of checks.  A call of the source
either returns a word that goes to `a0` of the caller's frame, or passes control
to another environment and never comes back; `Ret` tells the two apart.

`*tf` in `e_set_trapframe` and the sectors that `e_read_disk` reads are
arguments, since the calls only copy them.  The calls that write through a
pointer of the caller go through the current page table.  A page fault inside
the kernel would save its frame over the running stack, and the memory above
`UTOP` belongs to the kernel itself: what such a store does is left out, and both
are stops.  The caller's frame is a part of the state, not of a page, so that it
does not see the new kernel stack that `env_setup_vm` puts in its place.
`Kern/EcallFrame.lean` follows the frame where it lies.
-/
import RvMos.Kern.Env

namespace RvMos

open Lib

/-- How a system call ends: with the word for `a0`, or in another environment. -/
inductive Ret where
  | value (v : Word)
  | switched

namespace Kern

open Sys

def isIllegalVa (va : Word) : Bool := va < utemp || utop ≤ va

def isIllegalVaRange (va len : Word) : Bool :=
  if len = 0#32 then false else va + len < va || va < utemp || utop < va + len

/-- `sizeof(struct Trapframe)`. -/
def tfSize : Word := 148#32

/-! ## Memory -/

def eMemAlloc (envid va perm : Word) : Kern Unit := do
  if isIllegalVa va then throw .inval
  else
    let e ← envid2env envid true
    let pp ← pageAlloc
    pageInsert ((← get).envs e).pgdir pp va perm

def eMemMap (srcid srcva dstid dstva perm : Word) : Kern Unit := do
  if isIllegalVa srcva || isIllegalVa dstva then throw .inval
  else
    let src ← envid2env srcid true
    let dst ← envid2env dstid false
    match ← pageLookup ((← get).envs src).pgdir srcva with
    | none => throw .inval
    | some (pp, _) => pageInsert ((← get).envs dst).pgdir pp dstva perm

def eMemUnmap (envid va : Word) : Kern Unit := do
  if isIllegalVa va then throw .inval
  else
    let e ← envid2env envid true
    pageRemove ((← get).envs e).pgdir va

/-! ## Environments -/

def eYield : Kern Unit := schedule true

/-- The result says that control went to another environment. -/
def eEnvDestroy (envid : Word) : Kern Bool := do
  let e ← envid2env envid true
  envDestroy e

def eExofork : Kern Word := do
  let c ← curenv
  let e ← envAlloc ((← get).envs c).id
  modify fun k => k.setEnv e fun v =>
    { v with
      tf := { k.active with regs := Function.update k.active.regs 10 0#32 }
      status := .notRunnable
      pri := (k.envs c).pri }
  pure ((← get).envs e).id

/-- `ENV_RUNNABLE` and `ENV_NOT_RUNNABLE` as arguments. -/
def statusOf (status : Word) : Option EnvStatus :=
  if status = 1#32 then some .runnable
  else if status = 2#32 then some .notRunnable
  else none

/-- What a change of status from `old` to `st` does to the queue. -/
def requeue (e : EnvIdx) (old st : EnvStatus) : Kern Unit :=
  if old = .runnable ∧ st = .notRunnable then schedRemove e
  else if old = .notRunnable ∧ st = .runnable then schedInsertTail e
  else pure ()

def eSetEnvStatus (envid status : Word) : Kern Unit := do
  match statusOf status with
  | none => throw .inval
  | some st => do
    let e ← envid2env envid true
    requeue e ((← get).envs e).status st
    setEnv e fun v => { v with status := st }

/-- `e_set_trapframe`, where `tf` is what the pointer `va` leads to. -/
def eSetTrapframe (envid va : Word) (tf : Trapframe) : Kern Word := do
  if isIllegalVaRange va tfSize then throw .inval
  else
    let e ← envid2env envid true
    if (← get).curenv = some e then
      modify fun k => { k with active := tf }
      pure (tf.regs 1)
    else
      setEnv e fun v => { v with tf := tf }
      pure 0#32

def eSetEnvCowEntry (envid cowEntry : Word) : Kern Unit := do
  let e ← envid2env envid true
  setEnv e fun v => { v with cowEntry := cowEntry }

/-! ## Messages -/

def eIpcRecv (dstva : Word) : Kern Unit := do
  if dstva ≠ 0#32 ∧ isIllegalVa dstva = true then throw .inval
  else
    let c ← curenv
    setEnv c fun v =>
      { v with
        ipcRecving := 1#32
        ipcDstva := dstva
        status := .notRunnable }
    schedRemove c
    modify fun k =>
      { k with active := { k.active with regs := Function.update k.active.regs 10 0#32 } }
    schedule true

def eIpcTrySend (envid value srcva perm : Word) : Kern Unit := do
  if srcva ≠ 0#32 ∧ isIllegalVa srcva = true then throw .inval
  else
    let e ← envid2env envid false
    if ((← get).envs e).ipcRecving = 0#32 then throw .ipcNotRecv
    else
      let c ← curenv
      modify fun k => k.setEnv e fun v =>
        { v with
          ipcValue := value
          ipcFrom := (k.envs c).id
          ipcPerm := pteV ||| perm
          ipcRecving := 0#32
          status := .runnable }
      schedInsertTail e
      if srcva ≠ 0#32 then
        match ← pageLookup ((← get).envs c).pgdir srcva with
        | none => throw .inval
        | some (p, _) => do
          let v := (← get).envs e
          let _ ← attempt (pageInsert v.pgdir p v.ipcDstva perm)
          pure ()
      else pure ()

/-! ## Pointers of the caller -/

/-- A byte of a word replaced. -/
def setByte (w : Word) (lane : Nat) (b : BitVec 8) : Word :=
  (w &&& ~~~(0xff#32 <<< (8 * lane))) ||| (b.setWidth 32 <<< (8 * lane))

/-- A store of the kernel to an address of the running environment; one to the kernel's
own memory is left out. -/
def kernelStoreByte (va : Word) (b : BitVec 8) : Kern Unit := do
  if utop ≤ va then halt .wild
  else
    match ← pageLookup (← get).curPgdir va with
    | none => halt .wild
    | some (pp, p) =>
      if (← get).pmap.deref p &&& pteW = 0#32 then halt .wild
      else
        let i : Index := Fin.ofNat 1024 ((va >>> 2) &&& 0x3ff#32).toNat
        modify fun k => k.setPmap
          (k.pmap.store ⟨pp, i⟩ (setByte (k.pmap.deref ⟨pp, i⟩) (va &&& 3#32).toNat b))

/-- Consecutive bytes. -/
def kernelStore (va : Word) : List (BitVec 8) → Kern Unit
  | [] => pure ()
  | b :: bs => do
    kernelStoreByte va b
    kernelStore (va + 1#32) bs

/-- The four bytes of a word, low byte first. -/
def wordBytes (w : Word) : List (BitVec 8) :=
  [w.setWidth 8, (w >>> 8).setWidth 8, (w >>> 16).setWidth 8, (w >>> 24).setWidth 8]

def eGetPgdir (pde : Word) : Kern Unit := do
  match (← get).curenv with
  | none => throw .inval
  | some _ => do
    let d ← dirOf (← get).curPgdir
    kernelStore pde (wordBytes (page2addr d))

/-- `e_read_disk`, where `data` are the bytes of the sectors. -/
def eReadDisk (buf : Word) (data : List (BitVec 8)) : Kern Unit := kernelStore buf data

def eGetPgref (v : Word) : Kern Word := do
  match addr2page v with
  | none => halt (.panic "pa2page called with invalid ahdress: %x")
  | some pp => pure (((← get).pmap.ppRef pp).setWidth 32)

/-! ## Dispatch -/

/-- The calls of `ecall_table` with their arguments.  `device` stands for the
calls that only talk to the console or send sectors to the disk, and for the
two empty ones; its argument is the word they leave in `a0`. -/
inductive Ecall where
  | device (ret : Word)
  | getenvid
  | yield
  | envDestroy (envid : Word)
  | setEnvCowEntry (envid cowEntry : Word)
  | memAlloc (envid va perm : Word)
  | memMap (srcid srcva dstid dstva perm : Word)
  | memUnmap (envid va : Word)
  | exofork
  | setEnvStatus (envid status : Word)
  | setTrapframe (envid va : Word) (tf : Trapframe)
  | panic
  | ipcTrySend (envid value srcva perm : Word)
  | ipcRecv (dstva : Word)
  | getPgdir (pde : Word)
  | readDisk (buf : Word) (data : List (BitVec 8))
  | getPgref (v : Word)

/-- A call that returns 0. -/
def returnsZero (m : Kern Unit) : Kern Ret := do
  m
  pure (.value 0#32)

/-- A call that returns a word. -/
def returns (m : Kern Word) : Kern Ret := do
  pure (.value (← m))

/-- A call that ends in another environment. -/
def switches (m : Kern Unit) : Kern Ret := do
  m
  pure .switched

def ecall : Ecall → Kern Ret
  | .device ret => pure (.value ret)
  | .getenvid => do
    let c ← curenv
    pure (.value ((← get).envs c).id)
  | .yield => switches eYield
  | .envDestroy envid => do
    if ← eEnvDestroy envid then pure .switched else pure (.value 0#32)
  | .setEnvCowEntry envid cowEntry => returnsZero (eSetEnvCowEntry envid cowEntry)
  | .memAlloc envid va perm => returnsZero (eMemAlloc envid va perm)
  | .memMap srcid srcva dstid dstva perm => returnsZero (eMemMap srcid srcva dstid dstva perm)
  | .memUnmap envid va => returnsZero (eMemUnmap envid va)
  | .exofork => returns eExofork
  | .setEnvStatus envid status => returnsZero (eSetEnvStatus envid status)
  | .setTrapframe envid va tf => returns (eSetTrapframe envid va tf)
  | .panic => halt (.panic "%s")
  | .ipcTrySend envid value srcva perm => returnsZero (eIpcTrySend envid value srcva perm)
  | .ipcRecv dstva => switches (eIpcRecv dstva)
  | .getPgdir pde => returnsZero (eGetPgdir pde)
  | .readDisk buf data => returnsZero (eReadDisk buf data)
  | .getPgref v => returns (eGetPgref v)

/-- The word a call returns. -/
def retWord : Except Errno Word → Word
  | .ok v => v
  | .error e => BitVec.ofInt 32 e.code

theorem retWord_slt (e : Errno) : (retWord (.error e)).slt 0#32 = true := by
  cases e <;> decide

theorem retWord_ne (e : Errno) : retWord (.error e) ≠ 0#32 := by
  cases e <;> decide

def setReg (i : Fin 32) (v : Word) : Kern Unit := modify fun k =>
  { k with active := { k.active with regs := Function.update k.active.regs i v } }

/-- `do_ecall_from_u` on a number that is in the table. -/
def doEcallFromU (c : Ecall) : Kern Unit := do
  modify fun k => { k with active := { k.active with sepc := k.active.sepc + 4#32 } }
  match ← attempt (ecall c) with
  | .ok .switched => pure ()
  | .ok (.value v) => setReg 10 v
  | .error e => setReg 10 (retWord (.error e))

/-- `do_ecall_from_u` on a number that is not. -/
def badEcall : Kern Unit := setReg 1 (retWord (.error .noE))

end Kern
end RvMos
