/-
Environments (`kern/env.c`, `kern/sched.c`).

`Kernel` holds the globals of the kernel: the page structures, the `envs`
array, the two queues through it, the ASID bitmap, the current environment and
the two function-level statics.  `env_free_list` is a list, since the code only
takes its first element and inserts at its head; `env_sched_list` is the
intrusive queue itself, because `TAILQ_REMOVE` is also applied to environments
that are not on it.

A trap saves the registers in the frame that `sscratch` points to, here
`active`.  `env_run` does not return: it copies that frame to the old
environment and continues with the registers of the new one, which are then the
active frame.  `env_pop_tf` is taken at its C interface.
-/
import RvMos.Kern.Pmap
import RvMos.Lib.Sys
import RvMos.Lib.TailQueue

namespace RvMos

open Lib

/-! ## Data -/

/-- There is a register 0. -/
instance (priority := high) regNeZero : NeZero 32 := ⟨by decide⟩

structure Trapframe where
  regs : Fin 32 → Word
  sstatus : Word
  sepc : Word
  stval : Word
  scause : Word
  sscratch : Word

/-- `ENV_FREE`, `ENV_RUNNABLE` and `ENV_NOT_RUNNABLE`. -/
inductive EnvStatus where
  | free | runnable | notRunnable
  deriving DecidableEq, Repr

/-- `struct Env`, less its links; `none` is the null directory. -/
structure Env where
  tf : Trapframe
  id : Word
  asid : Fin 512
  parentId : Word
  status : EnvStatus
  pgdir : Option Frame
  pri : Word
  ipcValue : Word
  ipcFrom : Word
  ipcRecving : Word
  ipcDstva : Word
  ipcPerm : Word
  cowEntry : Word
  runs : Word

/-- `struct Env*`: an index into `envs`. -/
abbrev EnvIdx := Fin 1024

structure Kernel where
  pmap : Pmap
  envs : EnvIdx → Env
  envFreeList : List EnvIdx
  envSchedList : TailQueue EnvIdx
  asidBitmap : Fin 16 → Word
  basePgdir : Frame
  curenv : Option EnvIdx
  curPgdir : Option Frame
  /-- the static `i` of `mkenvid` -/
  idCount : Word
  /-- the static `count` of `schedule` -/
  schedCount : Word
  active : Trapframe

abbrev Kern := Sys Halt Errno Kernel

namespace Kernel

/-- Change one environment. -/
def setEnv (k : Kernel) (e : EnvIdx) (f : Env → Env) : Kernel :=
  { k with envs := Function.update k.envs e (f (k.envs e)) }

def setPmap (k : Kernel) (p : Pmap) : Kernel := { k with pmap := p }

@[simp] theorem setEnv_pmap (k : Kernel) (e : EnvIdx) (f : Env → Env) :
    (k.setEnv e f).pmap = k.pmap := rfl

theorem setEnv_self (k : Kernel) (e : EnvIdx) (f : Env → Env) :
    (k.setEnv e f).envs e = f (k.envs e) :=
  Function.update_self ..

theorem setEnv_of_ne {k : Kernel} {e c : EnvIdx} (f : Env → Env) (h : c ≠ e) :
    (k.setEnv e f).envs c = k.envs c :=
  Function.update_of_ne h ..

/-- What the change of one environment keeps there is kept everywhere. -/
theorem setEnv_keeps {α : Type} (k : Kernel) {e : EnvIdx} {f : Env → Env} (g : Env → α)
    (h : g (f (k.envs e)) = g (k.envs e)) (c : EnvIdx) :
    g ((k.setEnv e f).envs c) = g (k.envs c) := by
  by_cases hc : c = e
  · rw [hc, setEnv_self, h]
  · rw [setEnv_of_ne f hc]

/-- A round of the loop over `envs` in `env_init`. -/
def envInitRound (e : EnvIdx) (k : Kernel) : Kernel :=
  { k with
    envs := Function.update k.envs e { k.envs e with status := .free }
    envFreeList := e :: k.envFreeList }

/-- The start of `env_init`: the list heads and the loop, which runs from the
last environment to the first.  What follows there fills `base_pgdir` and
touches the page structures only. -/
def envInit (k : Kernel) : Kernel :=
  (List.finRange 1024).foldr envInitRound
    { k with envFreeList := [], envSchedList := k.envSchedList.init }

end Kernel

namespace Kern

open Sys

/-- A function of `pmap.c` as a procedure of the kernel. -/
def onPmap {α : Type} (f : Pmap → Except Halt (Except Errno α × Pmap)) : Kern α := fun k =>
  match f k.pmap with
  | .error h => .error h
  | .ok (r, p) => .ok (r, k.setPmap p)

/-- A procedure of `pmap.c` changes the page structures only. -/
theorem wp_onPmap {α : Type} {f : Pmap → Except Halt (Except Errno α × Pmap)}
    {Q : Except Errno α → Kernel → Prop} {E : Halt → Prop} {k : Kernel} :
    (onPmap f).wp Q E k ↔
      (∀ h, f k.pmap = .error h → E h) ∧ ∀ r p, f k.pmap = .ok (r, p) → Q r (k.setPmap p) := by
  unfold wp onPmap
  cases hf : f k.pmap with
  | error h => simp
  | ok x => simp [Prod.ext_iff]

def pageAlloc : Kern Frame := onPmap fun p =>
  match p.pageAlloc with
  | .error e => .ok (.error e, p)
  | .ok (pp, p') => .ok (.ok pp, p')

/-- A directory that is about to be read: the null pointer leads nowhere. -/
def dirOf (pgdir : Option Frame) : Kern Frame :=
  match pgdir with
  | none => halt .wild
  | some d => pure d

def pageInsert (pgdir : Option Frame) (pp : Frame) (va perm : Word) : Kern Unit := do
  let d ← dirOf pgdir
  onPmap fun p => p.pageInsert d pp va perm

def pageLookup (pgdir : Option Frame) (va : Word) : Kern (Option (Frame × PtePtr)) := do
  let d ← dirOf pgdir
  onPmap fun p => (p.pageLookup d va).map fun r => (.ok r, p)

def pageRemove (pgdir : Option Frame) (va : Word) : Kern Unit := do
  let d ← dirOf pgdir
  onPmap fun p => (p.pageRemove d va).map fun p' => (.ok (), p')

def setEnv (e : EnvIdx) (f : Env → Env) : Kern Unit := modify fun k => k.setEnv e f

/-- `curenv`, where the code follows it. -/
def curenv : Kern EnvIdx := do
  match (← get).curenv with
  | none => halt .wild
  | some c => pure c

/-! ## Queues -/

def schedInsertHead (e : EnvIdx) : Kern Unit :=
  modify fun k => { k with envSchedList := k.envSchedList.insertHead e }

def schedInsertTail (e : EnvIdx) : Kern Unit := fun k =>
  match k.envSchedList.insertTail e with
  | none => .error .wild
  | some q => .ok (.ok (), { k with envSchedList := q })

def schedRemove (e : EnvIdx) : Kern Unit := fun k =>
  match k.envSchedList.remove e with
  | none => .error .wild
  | some q => .ok (.ok (), { k with envSchedList := q })

/-! ## Identifiers -/

/-- The bitmap word and the bit of an ASID: `i >> 5` and `1 << (i & 31)`. -/
def asidWord (i : Fin 512) : Fin 16 := Fin.ofNat 16 (i.val >>> 5)

def asidMask (i : Fin 512) : Word := 1#32 <<< (i.val &&& 31)

def asidAlloc : Kern (Fin 512) := do
  let bm := (← get).asidBitmap
  match (List.finRange 512).find? fun i => bm (asidWord i) &&& asidMask i == 0#32 with
  | none => throw .noFreeEnv
  | some i => do
    modify fun k =>
      { k with asidBitmap := Function.update bm (asidWord i) (bm (asidWord i) ||| asidMask i) }
    pure i

def asidFree (i : Fin 512) : Kern Unit := modify fun k =>
  { k with
    asidBitmap :=
      Function.update k.asidBitmap (asidWord i) (k.asidBitmap (asidWord i) &&& ~~~asidMask i) }

def mkenvid (e : EnvIdx) : Kern Word := do
  modify fun k => { k with idCount := k.idCount + 1#32 }
  pure (((← get).idCount <<< 11) ||| BitVec.ofNat 32 e.val)

/-- `ENVX`. -/
def envx (envid : Word) : EnvIdx := Fin.ofNat 1024 (envid &&& 1023#32).toNat

def envid2env (envid : Word) (checkperm : Bool) : Kern EnvIdx := do
  if envid = 0#32 then curenv
  else
    let e := envx envid
    if checkperm then
      let c ← curenv
      let k ← get
      if e ≠ c ∧ (k.envs e).parentId ≠ (k.envs c).id then throw .badEnv
      else pure e
    else pure e

end Kern

/-- The environment that `envid2env` finds. -/
def Kernel.target (k : Kernel) (envid : Word) (checkperm : Bool) : Option EnvIdx :=
  if envid = 0#32 then k.curenv
  else if checkperm then
    k.curenv.bind fun c =>
      if Kern.envx envid ≠ c ∧ (k.envs (Kern.envx envid)).parentId ≠ (k.envs c).id then none
      else some (Kern.envx envid)
  else some (Kern.envx envid)

namespace Kern

open Sys

theorem curenv_spec (k : Kernel) :
    curenv.wp (fun r k' => k' = k ∧ ∃ c, r = .ok c ∧ k.curenv = some c) (· = .wild) k := by
  unfold curenv
  rw [wp_get_bind]
  cases hc : k.curenv with
  | none => exact wp_halt.mpr rfl
  | some c => exact wp_pure.mpr ⟨rfl, c, rfl, rfl⟩

/-- The lookup of an environment changes nothing. -/
theorem envid2env_spec (envid : Word) (checkperm : Bool) (k : Kernel) :
    (envid2env envid checkperm).wp
      (fun r k' => k' = k ∧ ∀ e, r = .ok e → k.target envid checkperm = some e)
      (· = .wild) k := by
  unfold envid2env Kernel.target
  rw [wp_ite]
  refine ⟨fun h0 => ?_, fun h0 => ?_⟩
  · refine wp_conseq (curenv_spec k) fun r k' hr => ?_
    obtain ⟨hk, c, rfl, hc⟩ := hr
    refine ⟨hk, fun e he => ?_⟩
    rw [if_pos h0, hc, Except.ok.inj he]
  · dsimp only
    rw [wp_ite]
    refine ⟨fun hp => ?_, fun hp => wp_pure.mpr ⟨rfl, fun e he => ?_⟩⟩
    · refine wp_seq (curenv_spec k) (fun c k' hr => ?_) fun _ _ hr => ?_
      · obtain ⟨rfl, c', hc', hc⟩ := hr
        obtain rfl := Except.ok.inj hc'
        rw [wp_get_bind, wp_ite]
        refine ⟨fun hbad => wp_throw.mpr ⟨rfl, fun e he => absurd he (by simp)⟩, fun hok => ?_⟩
        refine wp_pure.mpr ⟨rfl, fun e he => ?_⟩
        rw [if_neg h0, if_pos hp, hc, Option.bind_some, if_neg hok, Except.ok.inj he]
      · obtain ⟨-, c, hc, -⟩ := hr
        exact absurd hc (by simp)
    · rw [if_neg h0, if_neg hp, Except.ok.inj he]

/-! ## Creation -/

/-- The stack pages of a new environment: round `i` of the loop in
`env_setup_vm`, whose insertions are not checked. -/
def mapStacks (pgdir : Frame) (i : Nat) : Kern Unit := do
  let p ← pageAlloc
  let _ ← attempt (pageInsert (some pgdir) p (uxstacktop - BitVec.ofNat 32 ((i + 1) * 4096))
    (pteU ||| pteW ||| pteR))
  let p ← pageAlloc
  let _ ← attempt (pageInsert (some pgdir) p (kstacktop - BitVec.ofNat 32 ((i + 1) * 4096))
    (pteW ||| pteR))
  pure ()

def envSetupVm (e : EnvIdx) : Kern Unit := do
  let p ← pageAlloc
  modify fun k => (k.setPmap (k.pmap.incRef p)).setEnv e fun v => { v with pgdir := some p }
  modify fun k => k.setPmap
    { k.pmap with mem := Function.update k.pmap.mem p (k.pmap.mem k.basePgdir) }
  each (mapStacks p) [0, 1, 2]

/-- The registers that `env_alloc` sets in a new frame. -/
def freshTf (tf : Trapframe) : Trapframe :=
  { tf with
    sscratch := kernend
    sstatus := (1#32 <<< 1) ||| (1#32 <<< 18)
    regs := Function.update tf.regs 2 (ustacktop - 4#32 - 4#32) }

def envAlloc (parentId : Word) : Kern EnvIdx := do
  match (← get).envFreeList with
  | [] => throw .noFreeEnv
  | e :: _ => do
    envSetupVm e
    setEnv e fun v => { v with cowEntry := 0#32, runs := 0#32 }
    let id ← mkenvid e
    setEnv e fun v => { v with id := id }
    let asid ← asidAlloc
    setEnv e fun v => { v with asid := asid, parentId := parentId, tf := freshTf v.tf }
    modify fun k => { k with envFreeList := k.envFreeList.erase e }
    pure e

/-- A page of a program: what one call of `load_icode_mapper` leaves in the new
frame, and where it maps it. -/
structure ProgPage where
  va : Word
  perm : Word
  page : Page

/-- A binary: the mapper calls of its loadable segments in order, and its entry
point. -/
structure Program where
  pages : List ProgPage
  entry : Word

def loadIcodeMapper (e : EnvIdx) (pg : ProgPage) : Kern Unit := do
  let p ← pageAlloc
  modify fun k => k.setPmap { k.pmap with mem := Function.update k.pmap.mem p pg.page }
  pageInsert ((← get).envs e).pgdir p pg.va pg.perm

def loadIcode (e : EnvIdx) (prog : Program) : Kern Unit := do
  match ← attempt (each (loadIcodeMapper e) prog.pages) with
  | .error _ => halt (.panic "elf_load_seg(ph,binary + ph->p_offset, load_icode_mapper,e)")
  | .ok () => setEnv e fun v => { v with tf := { v.tf with sepc := prog.entry } }

/-- `env_create`.  It does not look at the result of `env_alloc`: after a
failure the pointer `e` was never set. -/
def envCreate (prog : Program) (priority : Word) : Kern EnvIdx := do
  match ← attempt (envAlloc 0#32) with
  | .error _ => halt .wild
  | .ok e => do
    setEnv e fun v => { v with pri := priority, status := .runnable }
    loadIcode e prog
    schedInsertHead e
    pure e

end Kern

/-! ## Destruction -/

namespace Pmap

/-- The inner loop of `env_free`: the entries of one page table.  The flag says
that an entry of a shared library page was met. -/
def freeEntries (pgdir pt : Frame) (pdeno : Index) :
    List Index → Bool → Pmap → Except Halt (Bool × Pmap)
  | [], flag, s => .ok (flag, s)
  | j :: js, flag, s =>
    if s.mem pt j &&& pteLibrary ≠ 0#32 then freeEntries pgdir pt pdeno js true s
    else if valid (s.mem pt j) then
      match s.pageRemove pgdir
        ((BitVec.ofNat 32 pdeno.val <<< 22) ||| (BitVec.ofNat 32 j.val <<< 12)) with
      | .error h => .error h
      | .ok s' => freeEntries pgdir pt pdeno js flag s'
    else freeEntries pgdir pt pdeno js flag s

/-- The directory entries that `env_free` leaves to the kernel. -/
def freeSkips (pdeno : Index) : Bool :=
  (pdx utop ≤ pdeno && pdeno < pdx uvpt) || (pdx ulim ≤ pdeno && pdeno < pdx 0x90000000#32)

/-- One round of the outer loop of `env_free`. -/
def freeTable (pgdir : Frame) (pdeno : Index) (s : Pmap) : Except Halt Pmap :=
  if freeSkips pdeno then .ok s
  else if valid (s.mem pgdir pdeno) then
    match addr2page (paddr (pteAddr (s.mem pgdir pdeno))) with
    | none => .error .wild
    | some pt =>
      match s.freeEntries pgdir pt pdeno (List.finRange 1024) false with
      | .error h => .error h
      | .ok (true, s') => .ok s'
      | .ok (false, s') => (s'.store ⟨pgdir, pdeno⟩ 0#32).pageDecref pt
  else .ok s

/-- The outer loop of `env_free`, which stops short of the last entry. -/
def freeTables (pgdir : Frame) : List Index → Pmap → Except Halt Pmap
  | [], s => .ok s
  | i :: is, s =>
    match s.freeTable pgdir i with
    | .error h => .error h
    | .ok s' => freeTables pgdir is s'

/-- What `env_free` does to the pages. -/
def freeSpace (pgdir : Frame) (s : Pmap) : Except Halt Pmap :=
  match s.freeTables pgdir ((List.finRange 1024).take 1023) with
  | .error h => .error h
  | .ok s' => s'.pageDecref pgdir

end Pmap

namespace Kern

open Sys

def envFree (e : EnvIdx) : Kern Unit := do
  let d ← dirOf ((← get).envs e).pgdir
  onPmap fun p => (p.freeSpace d).map fun p' => (.ok (), p')
  asidFree ((← get).envs e).asid
  setEnv e fun v => { v with status := .free }
  modify fun k => { k with envFreeList := e :: k.envFreeList }
  schedRemove e

/-! ## Scheduling -/

/-- `if (curenv) curenv->env_tf = *((struct Trapframe*)RD_SSCRATCH())`. -/
def saveTf : Kern Unit := do
  match (← get).curenv with
  | none => pure ()
  | some c => modify fun k => k.setEnv c fun v => { v with tf := k.active }

def envRun (e : EnvIdx) : Kern Unit := do
  if ((← get).envs e).status ≠ .runnable then halt (.assert "e->env_status == ENV_RUNNABLE")
  else
    saveTf
    modify fun k => { k with curenv := some e }
    setEnv e fun v => { v with runs := v.runs + 1#32 }
    modify fun k =>
      { k with
        curPgdir := (k.envs e).pgdir
        active := (k.envs e).tf }

/-- The environment `schedule` chooses, `none` for the null pointer. -/
def pick (yield : Bool) : Kern (Option EnvIdx) := do
  let k ← get
  match k.curenv with
  | none => pure k.envSchedList.first
  | some c =>
    if (k.envs c).status ≠ .runnable then pure k.envSchedList.first
    else if yield = true ∨ k.schedCount.sle 0#32 = true then do
      schedRemove c
      schedInsertTail c
      pure (← get).envSchedList.first
    else pure (some c)

def schedule (yield : Bool) : Kern Unit := do
  modify fun k => { k with schedCount := k.schedCount - 1#32 }
  match ← pick yield with
  | none => halt (.panic "schedule : e is null !\n")
  | some e => do
    modify fun k => { k with schedCount := (k.envs e).pri }
    envRun e

/-- `env_destroy`; the result says that control went to another environment. -/
def envDestroy (e : EnvIdx) : Kern Bool := do
  envFree e
  if (← get).curenv = some e then
    modify fun k => { k with curenv := none }
    schedule true
    pure true
  else pure false

end Kern
end RvMos
