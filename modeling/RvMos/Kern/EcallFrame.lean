/-
What a system call does to the frame of its caller (`do_ecall_from_u`).

The call's number is in `a0` of the frame and its arguments are in `a1` to `a5`;
`Extern` has what a call reads elsewhere.  The frame itself is in the kernel's
memory, at the end of the stack.  `e_get_pgdir` and `e_read_disk` store through a
pointer that they do not check, which may lead there, and `env_setup_vm` puts
another page in the place of the one with the frame; `ecallAt` also knows where
the frame is.  The caller's frame is followed until the caller goes on, at once or
after others have run.
-/
import RvMos.Kern.Privilege
import RvMos.Kern.Creation

namespace RvMos

open Lib

/-! ## The call that a frame asks for -/

/-- What calls read besides the frame: the word that a device call returns, the
frame behind the pointer of `e_set_trapframe`, the sectors of `e_read_disk`. -/
structure Extern where
  ret : Word
  tf : Trapframe
  data : List (BitVec 8)

/-- `ecall_table`; `none` is a number outside `0..MAX_ENO-1`. -/
def Trapframe.ecall (tf : Trapframe) (x : Extern) : Option Kern.Ecall :=
  let a := tf.regs
  match (a 10).toNat with
  | 0 => some (.device x.ret) -- ECALL_putchar
  | 1 => some (.device x.ret) -- ECALL_getchar
  | 2 => some (.device x.ret) -- ECALL_print_cons
  | 3 => some .getenvid
  | 4 => some .yield
  | 5 => some (.envDestroy (a 11))
  | 6 => some (.setEnvCowEntry (a 11) (a 12))
  | 7 => some (.memAlloc (a 11) (a 12) (a 13))
  | 8 => some (.memMap (a 11) (a 12) (a 13) (a 14) (a 15))
  | 9 => some (.memUnmap (a 11) (a 12))
  | 10 => some .exofork
  | 11 => some (.setEnvStatus (a 11) (a 12))
  | 12 => some (.setTrapframe (a 11) (a 12) x.tf)
  | 13 => some .panic
  | 14 => some (.ipcTrySend (a 11) (a 12) (a 13) (a 14))
  | 15 => some (.ipcRecv (a 11))
  | 16 => some (.device x.ret) -- ECALL_cgetc
  | 17 => some (.getPgdir (a 11))
  | 18 => some (.device 0#32) -- ECALL_write_dev
  | 19 => some (.device 0#32) -- ECALL_read_dev
  | 20 => some (.readDisk (a 13) x.data)
  | 21 => some (.device x.ret) -- ECALL_write_disk
  | 22 => some (.getPgref (a 11))
  | _ => none

/-! ## The frame in memory -/

/-- The words of `struct Trapframe` in order. -/
def Trapframe.word (tf : Trapframe) (i : Nat) : Word :=
  if h : i < 32 then tf.regs ⟨i, h⟩
  else if i = 32 then tf.sstatus
  else if i = 33 then tf.sepc
  else if i = 34 then tf.stval
  else if i = 35 then tf.scause
  else tf.sscratch

def Trapframe.setWord (tf : Trapframe) (i : Nat) (w : Word) : Trapframe :=
  if h : i < 32 then { tf with regs := Function.update tf.regs ⟨i, h⟩ w }
  else if i = 32 then { tf with sstatus := w }
  else if i = 33 then { tf with sepc := w }
  else if i = 34 then { tf with stval := w }
  else if i = 35 then { tf with scause := w }
  else { tf with sscratch := w }

/-- The frame with these words. -/
def Trapframe.ofWords (w : Nat → Word) : Trapframe where
  regs r := w r.val
  sstatus := w 32
  sepc := w 33
  stval := w 34
  scause := w 35
  sscratch := w 36

/-- Bytes stored from byte `n` of the frame on. -/
def Trapframe.storeBytes (tf : Trapframe) (n : Nat) : List (BitVec 8) → Trapframe
  | [] => tf
  | b :: bs =>
    (tf.setWord (n / 4) (Kern.setByte (tf.word (n / 4)) (n % 4) b)).storeBytes (n + 1) bs

/-- `tf->sepc += 4`. -/
def Trapframe.skip (tf : Trapframe) : Trapframe := { tf with sepc := tf.sepc + 4#32 }

/-- The page that has the frame. -/
def Kernel.framePage (k : Kernel) : Option Frame :=
  k.curPgdir.bind fun d => entryFrame (k.pmap.pteOf d (kstacktop - 4096#32))

/-- The words at the end of a page. -/
def Kernel.frameIn (k : Kernel) (f : Frame) : Trapframe :=
  .ofWords fun i => k.pmap.mem f (Fin.ofNat 1024 (987 + i))

namespace Kern

open Sys

/-- The place of `len` bytes in the caller's frame, which `SAVE_ALL` has put at the end
of the kernel stack. -/
def frameOffset (va : Word) (len : Nat) : Option Nat :=
  let n := (va - (kstacktop - tfSize)).toNat
  if n + len ≤ 148 then some n else none

/-- Stores of the kernel, where the pointer may lead into the frame. -/
def kernelStoreAt (va : Word) (bs : List (BitVec 8)) : Kern Unit :=
  match frameOffset va bs.length with
  | none => kernelStore va bs
  | some n => modify fun k => { k with active := k.active.storeBytes n bs }

def eGetPgdirAt (pde : Word) : Kern Unit := do
  match (← get).curenv with
  | none => throw .inval
  | some _ => do
    let d ← dirOf (← get).curPgdir
    kernelStoreAt pde (wordBytes (page2addr d))

def eReadDiskAt (buf : Word) (data : List (BitVec 8)) : Kern Unit := kernelStoreAt buf data

/-- What is at the place of the frame, if the page there is no longer `f`. -/
def reloadFrame (f : Option Frame) : Kern Unit := modify fun k =>
  match k.framePage with
  | none => k
  | some f' => if f = some f' then k else { k with active := k.frameIn f' }

/-- `e_exofork`; `env_setup_vm` inserts the kernel stack of the new environment into the
table that all directories share. -/
def eExoforkAt : Kern Word := do
  let c ← curenv
  let k ← get
  let r ← attempt (envAlloc (k.envs c).id)
  reloadFrame k.framePage
  match r with
  | .error x => throw x
  | .ok e => do
    modify fun k => k.setEnv e fun v =>
      { v with
        tf := { k.active with regs := Function.update k.active.regs 10 0#32 }
        status := .notRunnable
        pri := (k.envs c).pri }
    pure ((← get).envs e).id

def ecallAt : Ecall → Kern Ret
  | .getPgdir pde => returnsZero (eGetPgdirAt pde)
  | .readDisk buf data => returnsZero (eReadDiskAt buf data)
  | .exofork => returns eExoforkAt
  | c => ecall c

/-- `do_ecall_from_u` around a function of the table. -/
def doEcall (m : Kern Ret) : Kern Unit := do
  modify fun k => { k with active := k.active.skip }
  match ← attempt m with
  | .ok .switched => pure ()
  | .ok (.value v) => setReg 10 v
  | .error e => setReg 10 (retWord (.error e))

/-- The word that a call leaves for its caller; `e_yield` has none, and
`e_ipc_recv` leaves 0 for the time when the caller goes on. -/
def Ecall.result (c : Ecall) : Except Errno Ret → Option Word
  | .ok (.value v) => some v
  | .error e => some (retWord (.error e))
  | .ok .switched =>
    match c with
    | .ipcRecv _ => some 0#32
    | _ => none

end Kern

/-! ## The convention -/

/-- `tf'` is the frame `tf` after a call with result `v`. -/
structure Resumes (tf tf' : Trapframe) (v : Option Word) : Prop where
  sepc : tf'.sepc = tf.sepc + 4#32
  a0 : ∀ w, v = some w → tf'.regs 10 = w
  regs : ∀ r, r ≠ 10 → tf'.regs r = tf.regs r
  sstatus : tf'.sstatus = tf.sstatus
  stval : tf'.stval = tf.stval

/-- Wherever the call comes to an end and does not end its caller `c`, the caller
goes on with its frame moved past the call and the result in `a0`. -/
def Kernel.Conventional (k : Kernel) (c : EnvIdx) (tf : Trapframe) : Option Kern.Ecall → Prop
  | none => ∀ r k', Kern.handle tf .badEcall k = .ok (r, k') →
      Resumes tf (k'.restored c) (some (Kern.retWord (.error .noE)))
  | some f => ∀ y k₁, Kern.ecallAt f { k with active := tf.skip } = .ok (y, k₁) →
      ∀ r k', Kern.doEcall (Kern.ecallAt f) { k with active := tf } = .ok (r, k') →
        k'.Live c → Resumes tf (k'.restored c) (f.result y)

/-- The words of the frame are those of `tf`, `a0`, `scause` and `sscratch` apart. -/
def Trapframe.Keeps (tf g : Trapframe) : Prop := ∀ i < 35, i ≠ 10 → g.word i = tf.word i

/-- A byte that the kernel stores without a fault, and not in its own memory. -/
def Kernel.CanStore (k : Kernel) (va : Word) : Prop :=
  va < utop ∧ ∃ d, k.curPgdir = some d ∧ k.pmap.pteOf d va &&& pteV ≠ 0#32 ∧
    k.pmap.pteOf d va &&& pteW ≠ 0#32 ∧ k.pmap.pteOf d va &&& pteDirty = 0#32

/-- The call stores into pages of its caller only, or into the frame. -/
def Kernel.Reaches (k : Kernel) : Option Kern.Ecall → Prop
  | some (.getPgdir pde) => Kern.frameOffset pde 4 ≠ none ∨
      ∀ j < 4, k.CanStore (pde + BitVec.ofNat 32 j)
  | some (.readDisk buf data) => Kern.frameOffset buf data.length ≠ none ∨
      ∀ j < data.length, k.CanStore (buf + BitVec.ofNat 32 j)
  | _ => True

/-- The call is in the table, and neither what it stores nor a new kernel stack changes
the frame. -/
def Kernel.InTable (k : Kernel) (tf : Trapframe) : Option Kern.Ecall → Prop
  | none => False
  | some (.getPgdir pde) => ∀ n d, Kern.frameOffset pde 4 = some n → k.curPgdir = some d →
      tf.skip.Keeps (tf.skip.storeBytes n (Kern.wordBytes (page2addr d)))
  | some (.readDisk buf data) => ∀ n, Kern.frameOffset buf data.length = some n →
      tf.skip.Keeps (tf.skip.storeBytes n data)
  | some .exofork => k.envFreeList = [] ∨ k.pmap.pageFreeList.length < 4 ∨
      tf.skip.Keeps (.ofWords fun _ => 0#32)
  | some _ => True

/-! ## What leaves the frame alone -/

/-- The active frame and whose it is. -/
def SameActive (k k' : Kernel) : Prop := k'.active = k.active ∧ k'.curenv = k.curenv

instance : IsPreorder Kernel SameActive where
  refl _ := ⟨rfl, rfl⟩
  trans _ _ _ h h' := ⟨h'.1.trans h.1, h'.2.trans h.2⟩

/-- A procedure that leaves the active frame alone. -/
def KeepsActive {α : Type} (m : Kern α) : Prop := Sys.Keeps SameActive (fun _ => True) m

theorem OnlyPages.keepsActive {α : Type} {m : Kern α} (h : OnlyPages m) : KeepsActive m := by
  refine Sys.keeps_mono (fun k k' hk => ?_) (fun _ _ => trivial) h
  obtain ⟨p, rfl⟩ := hk
  exact ⟨rfl, rfl⟩

namespace Kern

open Sys

variable {k : Kernel} {c : EnvIdx}

theorem active_modify {f : Kernel → Kernel} (h : ∀ k, SameActive k (f k)) :
    KeepsActive (modify f : Kern Unit) := keeps_modify h

theorem active_setEnv (e : EnvIdx) (f : Env → Env) : KeepsActive (setEnv e f) :=
  active_modify fun _ => ⟨rfl, rfl⟩

theorem active_schedRemove (e : EnvIdx) : KeepsActive (schedRemove e) := by
  refine fun k => wp_of (fun r k' hm => ?_) fun _ _ => trivial
  unfold schedRemove at hm
  split at hm
  · exact absurd hm (by simp)
  · obtain ⟨-, rfl⟩ := Prod.mk.inj (Except.ok.inj hm)
    exact ⟨rfl, rfl⟩

theorem active_schedInsertTail (e : EnvIdx) : KeepsActive (schedInsertTail e) := by
  refine fun k => wp_of (fun r k' hm => ?_) fun _ _ => trivial
  unfold schedInsertTail at hm
  split at hm
  · exact absurd hm (by simp)
  · obtain ⟨-, rfl⟩ := Prod.mk.inj (Except.ok.inj hm)
    exact ⟨rfl, rfl⟩

theorem active_asidAlloc : KeepsActive asidAlloc := by
  refine keeps_bind keeps_get fun k => ?_
  dsimp only
  split
  · exact keeps_throw _
  · exact keeps_bind (active_modify fun _ => ⟨rfl, rfl⟩) fun _ => keeps_pure _

theorem active_envAlloc (parentId : Word) : KeepsActive (envAlloc parentId) := by
  refine keeps_bind keeps_get fun k => ?_
  split
  · exact keeps_throw _
  · rename_i e rest _
    have hsetup : KeepsActive (envSetupVm e) := by
      refine keeps_bind pages_pageAlloc.keepsActive fun p => ?_
      refine keeps_bind (active_modify fun _ => ⟨rfl, rfl⟩) fun _ => ?_
      refine keeps_bind (active_modify fun _ => ⟨rfl, rfl⟩) fun _ => ?_
      exact keeps_each (fun i => (pages_mapStacks p i).keepsActive) _
    have hid : KeepsActive (mkenvid e) := by
      refine keeps_bind (active_modify fun _ => ⟨rfl, rfl⟩) fun _ => ?_
      exact keeps_bind keeps_get fun _ => keeps_pure _
    refine keeps_bind hsetup fun _ => keeps_bind (active_setEnv _ _) fun _ => ?_
    refine keeps_bind hid fun id => keeps_bind (active_setEnv _ _) fun _ => ?_
    refine keeps_bind active_asidAlloc fun asid => keeps_bind (active_setEnv _ _) fun _ => ?_
    exact keeps_bind (active_modify fun _ => ⟨rfl, rfl⟩) fun _ => keeps_pure _

theorem active_eExofork : KeepsActive eExofork := by
  refine keeps_bind pages_curenv.keepsActive fun c => keeps_bind keeps_get fun k => ?_
  refine keeps_bind (active_envAlloc _) fun e => ?_
  refine keeps_bind (active_modify fun _ => ⟨rfl, rfl⟩) fun _ => ?_
  exact keeps_bind keeps_get fun _ => keeps_pure _

theorem active_requeue (e : EnvIdx) (old st : EnvStatus) : KeepsActive (requeue e old st) :=
  keeps_ite (active_schedRemove e) (keeps_ite (active_schedInsertTail e) (keeps_pure _))

theorem active_eSetEnvStatus (envid status : Word) : KeepsActive (eSetEnvStatus envid status) := by
  unfold eSetEnvStatus
  split
  · exact keeps_throw _
  · refine keeps_bind (pages_envid2env _ _).keepsActive fun e => keeps_bind keeps_get fun k => ?_
    exact keeps_bind (active_requeue _ _ _) fun _ => active_setEnv _ _

theorem active_eSetEnvCowEntry (envid cowEntry : Word) :
    KeepsActive (eSetEnvCowEntry envid cowEntry) :=
  keeps_bind (pages_envid2env _ _).keepsActive fun _ => active_setEnv _ _

theorem active_eIpcTrySend (envid value srcva perm : Word) :
    KeepsActive (eIpcTrySend envid value srcva perm) := by
  refine keeps_ite (keeps_throw _) ?_
  refine keeps_bind (pages_envid2env _ _).keepsActive fun e => keeps_bind keeps_get fun k => ?_
  refine keeps_ite (keeps_throw _) ?_
  refine keeps_bind pages_curenv.keepsActive fun c => ?_
  refine keeps_bind (active_modify fun _ => ⟨rfl, rfl⟩) fun _ => ?_
  refine keeps_bind (active_schedInsertTail e) fun _ => keeps_ite ?_ (keeps_pure _)
  refine keeps_bind keeps_get fun k => keeps_bind (pages_pageLookup _ _).keepsActive fun r => ?_
  split
  · exact keeps_throw _
  · refine keeps_bind keeps_get fun k => ?_
    exact keeps_bind (keeps_attempt (pages_pageInsert _ _ _ _).keepsActive) fun _ => keeps_pure _

/-- `env_free` leaves the environment free. -/
theorem envFree_frees (e : EnvIdx) (k : Kernel) :
    (envFree e).wp (fun r k' => SameActive k k' ∧ (r = .ok () → (k'.envs e).status = .free))
      (fun _ => True) k := by
  unfold envFree
  rw [wp_get_bind]
  refine wp_seq ((pages_dirOf _).keepsActive k) (fun d k₁ h₁ => ?_) fun _ _ h => ⟨h, by simp⟩
  have hfree : KeepsActive (onPmap fun p => (p.freeSpace d).map fun p' => (.ok (), p')) :=
    (pages_onPmap fun _ _ h => Pmap.freeSpace_stop (error_of_map h)).keepsActive
  refine wp_seq (hfree k₁) (fun _ k₂ h₂ => ?_) fun _ k₂ h₂ => ⟨trans_of SameActive h₁ h₂, by simp⟩
  rw [wp_get_bind]
  unfold asidFree setEnv
  rw [wp_modify_bind, wp_modify_bind, wp_modify_bind]
  refine wp_of (fun r k' hm => ?_) fun _ _ => trivial
  unfold schedRemove at hm
  split at hm
  · exact absurd hm (by simp)
  · obtain ⟨-, rfl⟩ := Prod.mk.inj (Except.ok.inj hm)
    refine ⟨trans_of SameActive h₁ (trans_of SameActive h₂ ⟨rfl, rfl⟩), fun _ => ?_⟩
    rw [Kernel.setEnv_self]

/-- `env_destroy` leaves the active frame alone or ends the running environment. -/
theorem envDestroy_frame (e : EnvIdx) (k : Kernel) :
    (envDestroy e).wp (fun _ k' => SameActive k k' ∨ k.curenv = some e ∧ ¬k'.Live e)
      (fun _ => True) k := by
  unfold envDestroy
  refine wp_seq (envFree_frees e k) (fun _ k₁ h₁ => ?_) fun _ _ h => .inl h.1
  obtain ⟨hsame, hfree⟩ := h₁
  rw [wp_get_bind, wp_ite]
  refine ⟨fun hcur => ?_, fun _ => wp_pure.mpr (.inl hsame)⟩
  rw [wp_modify_bind]
  refine wp_seq (wp_mono (schedule_ran true _) (fun _ _ h => h) fun _ _ => trivial)
    (fun _ k₂ h₂ => ?_) fun _ _ h => absurd h.1 (by simp)
  obtain ⟨-, q, n, e', -, rfl⟩ := h₂
  refine wp_pure.mpr (.inr ⟨hsame.2.symm.trans hcur, ?_⟩)
  obtain ⟨m, hm⟩ := ran_envs { k₁ with curenv := none, envSchedList := q, schedCount := n } e' e
  unfold Kernel.Live
  rw [hm]
  exact not_not.mpr (hfree rfl)

end Kern

/-! ## How a call leaves its caller -/

/-- The state between the call and the store of its result. -/
structure Left (c : EnvIdx) (f : Kern.Ecall) (tf : Trapframe) (y : Except Errno Ret)
    (k : Kernel) : Prop where
  value : y ≠ .ok .switched → k.curenv = some c ∧ Resumes tf k.active none
  switched : y = .ok .switched → Resumes tf (k.restored c) (f.result y)

theorem Resumes.skip (tf : Trapframe) : Resumes tf tf.skip none :=
  ⟨rfl, fun _ h => absurd h (by simp), fun _ _ => rfl, rfl, rfl⟩

theorem Resumes.setA0 {tf tf' : Trapframe} {v : Option Word} (h : Resumes tf tf' v) (w : Word) :
    Resumes tf { tf' with regs := Function.update tf'.regs 10 w } (some w) where
  sepc := h.sepc
  a0 := fun _ hu => (Function.update_self (10 : Fin 32) w tf'.regs).trans (Option.some.inj hu)
  regs := fun r hr => (Function.update_of_ne hr w tf'.regs).trans (h.regs r hr)
  sstatus := h.sstatus
  stval := h.stval

theorem Resumes.drop {tf tf' : Trapframe} {v : Option Word} (h : Resumes tf tf' v) :
    Resumes tf tf' none := { h with a0 := fun _ hv => absurd hv (by simp) }

theorem Kernel.restored_current {k : Kernel} {c : EnvIdx} (hc : k.curenv = some c) :
    k.restored c = k.active := if_pos hc

theorem Resumes.current {k : Kernel} {c : EnvIdx} {tf : Trapframe} {v : Option Word}
    (hc : k.curenv = some c) (h : Resumes tf k.active v) : Resumes tf (k.restored c) v :=
  (Kernel.restored_current hc).symm ▸ h

namespace Kern

open Sys

variable {k : Kernel} {c : EnvIdx} {tf : Trapframe}

/-- An environment that loses the processor keeps its frame. -/
theorem restored_ran (hc : k.curenv = some c) (e : EnvIdx) : (ran k e).restored c = k.active := by
  have htf : ((ran k e).envs c).tf = k.active := by
    obtain ⟨n, hn⟩ := ran_envs k e c
    rw [hn]
    exact if_pos hc
  unfold Kernel.restored
  split
  · rename_i he
    obtain rfl : e = c := Option.some.inj he
    exact (ran_active k e).trans htf
  · exact htf

theorem schedule_resumes {v : Option Word} (hc : k.curenv = some c) (h : Resumes tf k.active v)
    (yield : Bool) :
    (schedule yield).wp (fun r k' => r = .ok () ∧ Resumes tf (k'.restored c) v)
      (fun _ => True) k := by
  refine wp_mono (schedule_ran yield k) (fun r k' hr => ?_) fun _ _ => trivial
  obtain ⟨rfl, q, n, e, -, rfl⟩ := hr
  have hres := restored_ran (k := { k with envSchedList := q, schedCount := n }) hc e
  refine ⟨rfl, ?_⟩
  rw [hres]
  exact h

theorem left_of_same {f : Ecall} {y : Except Errno Ret} {k₁ : Kernel}
    (hr : ∀ va, f = .ipcRecv va → y ≠ .ok .switched) (hc : k.curenv = some c)
    (ha : k.active = tf.skip) (h : SameActive k k₁) : Left c f tf y k₁ := by
  have hcur : k₁.curenv = some c := h.2.trans hc
  have hact : Resumes tf k₁.active none := (h.1.trans ha) ▸ Resumes.skip tf
  refine ⟨fun _ => ⟨hcur, hact⟩, fun hy => ?_⟩
  have hnone : f.result y = none := by
    subst hy
    cases f with
    | ipcRecv va => exact absurd rfl (hr va rfl)
    | _ => rfl
  rw [hnone]
  exact hact.current hcur

/-- A call that ends in another environment passes the frame through `env_tf`. -/
theorem switch_left {f : Ecall} (hc : k.curenv = some c)
    (h : Resumes tf k.active (f.result (.ok .switched))) :
    (switches (schedule true)).wp (Left c f tf) (fun _ => True) k := by
  refine wp_seq (schedule_resumes hc h true) (fun _ k₁ h => ?_) fun _ _ h => absurd h.1 (by simp)
  exact wp_pure.mpr ⟨fun hy => absurd rfl hy, fun _ => h.2⟩

/-- `e_ipc_recv` stores its result before it switches. -/
theorem ipcRecv_left (hc : k.curenv = some c) (ha : k.active = tf.skip) (va : Word) :
    (ecall (.ipcRecv va)).wp (Left c (.ipcRecv va) tf) (fun _ => True) k := by
  have hfail : ∀ x k₁, SameActive k k₁ → Left c (.ipcRecv va) tf (.error x) k₁ :=
    fun x k₁ => left_of_same (fun _ _ => by simp) hc ha
  have hrefl := refl_of SameActive k
  show (switches (eIpcRecv va)).wp _ _ k
  unfold switches eIpcRecv
  rw [wp_bind, wp_ite]
  refine ⟨fun _ => wp_throw.mpr (hfail _ k hrefl), fun _ => ?_⟩
  refine wp_seq (pages_curenv.keepsActive k) (fun e k₁ h₁ => ?_) fun _ _ h => hfail _ _ h
  refine wp_seq (active_setEnv e _ k₁) (fun _ k₂ h₂ => ?_) fun _ _ h =>
    hfail _ _ (trans_of SameActive h₁ h)
  refine wp_seq (active_schedRemove e k₂) (fun _ k₃ h₃ => ?_) fun _ _ h =>
    hfail _ _ (trans_of SameActive h₁ (trans_of SameActive h₂ h))
  have hsame := trans_of SameActive h₁ (trans_of SameActive h₂ h₃)
  have hact : Resumes tf k₃.active none := (hsame.1.trans ha) ▸ Resumes.skip tf
  rw [wp_modify_bind]
  refine wp_bind.mp (switch_left ?_ ?_)
  · exact hsame.2.trans hc
  · exact hact.setA0 0#32

/-- Every other call leaves the frame alone or ends its caller. -/
theorem ecall_left {f : Ecall} (hset : ∀ e va g, f ≠ .setTrapframe e va g)
    (hc : k.curenv = some c) (ha : k.active = tf.skip) :
    (ecall f).wp (fun y k₁ => k₁.Live c → Left c f tf y k₁) (fun _ => True) k := by
  have hkeep : ∀ {m : Kern Ret}, (∀ va, f ≠ .ipcRecv va) → KeepsActive m →
      m.wp (fun y k₁ => k₁.Live c → Left c f tf y k₁) (fun _ => True) k :=
    fun hr hm => wp_conseq (hm k) fun y k₁ h _ =>
      left_of_same (fun va hva => absurd hva (hr va)) hc ha h
  have hzero : ∀ {m : Kern Unit}, KeepsActive m → KeepsActive (returnsZero m) :=
    fun hm => keeps_bind hm fun _ => keeps_pure _
  have hword : ∀ {m : Kern Word}, KeepsActive m → KeepsActive (returns m) :=
    fun hm => keeps_bind hm fun _ => keeps_pure _
  cases f with
  | device v => exact hkeep (by simp) (keeps_pure _)
  | getenvid =>
    exact hkeep (by simp) (keeps_bind pages_curenv.keepsActive fun c =>
      keeps_bind keeps_get fun k => keeps_pure _)
  | yield => exact wp_conseq (switch_left hc (ha ▸ Resumes.skip tf)) fun _ _ h _ => h
  | envDestroy envid =>
    have hsame : ∀ y k₁, SameActive k k₁ → Left c (.envDestroy envid) tf y k₁ :=
      fun y k₁ => left_of_same (fun _ h => absurd h (by simp)) hc ha
    show ((do if ← eEnvDestroy envid then pure .switched else pure (.value 0#32) :
      Kern Ret)).wp _ _ k
    unfold eEnvDestroy
    rw [wp_bind, wp_bind]
    refine wp_conseq ((pages_envid2env envid true).keepsActive k) fun r k₁ h₁ => ?_
    cases r with
    | error x => exact fun _ => hsame _ _ h₁
    | ok e =>
      refine wp_conseq (envDestroy_frame e k₁) fun r k₂ h₂ => ?_
      have hend : ∀ y, k₂.Live c → Left c (.envDestroy envid) tf y k₂ := by
        intro y hlive
        rcases h₂ with h₂ | ⟨hcur, hdead⟩
        · exact hsame y k₂ (trans_of SameActive h₁ h₂)
        · obtain rfl := Option.some.inj (hc.symm.trans (h₁.2.symm.trans hcur))
          exact absurd hlive hdead
      cases r with
      | error x => exact hend _
      | ok b =>
        simp only
        rw [wp_ite]
        exact ⟨fun _ => wp_pure.mpr (hend _), fun _ => wp_pure.mpr (hend _)⟩
  | setEnvCowEntry envid entry =>
    exact hkeep (by simp) (hzero (active_eSetEnvCowEntry envid entry))
  | memAlloc envid va perm =>
    exact hkeep (by simp) (hzero (pages_eMemAlloc envid va perm).keepsActive)
  | memMap srcid srcva dstid dstva perm =>
    exact hkeep (by simp) (hzero (pages_eMemMap srcid srcva dstid dstva perm).keepsActive)
  | memUnmap envid va => exact hkeep (by simp) (hzero (pages_eMemUnmap envid va).keepsActive)
  | exofork => exact hkeep (by simp) (hword active_eExofork)
  | setEnvStatus envid status =>
    exact hkeep (by simp) (hzero (active_eSetEnvStatus envid status))
  | setTrapframe e va g => exact absurd rfl (hset e va g)
  | panic => exact hkeep (by simp) (keeps_halt trivial)
  | ipcTrySend envid value srcva perm =>
    exact hkeep (by simp) (hzero (active_eIpcTrySend envid value srcva perm))
  | ipcRecv va => exact wp_conseq (ipcRecv_left hc ha va) fun _ _ h _ => h
  | getPgdir pde => exact hkeep (by simp) (hzero (pages_eGetPgdir pde).keepsActive)
  | readDisk buf data => exact hkeep (by simp) (hzero (pages_kernelStore buf data).keepsActive)
  | getPgref v => exact hkeep (by simp) (hword (pages_eGetPgref v).keepsActive)

/-! ## The words of the frame -/

theorem word_reg (tf : Trapframe) (r : Fin 32) : tf.word r = tf.regs r := by
  unfold Trapframe.word
  rw [dif_pos r.isLt]

/-- A frame whose words are those of `tf.skip`, `a0` and the last two apart. -/
theorem resumes_iff_keeps {g : Trapframe} : Resumes tf g none ↔ tf.skip.Keeps g := by
  refine ⟨fun h i hi hne => ?_, fun h => ⟨h 33 (by decide) (by decide), fun _ hw => absurd hw
    (by simp), fun r hr => ?_, h 32 (by decide) (by decide), h 34 (by decide) (by decide)⟩⟩
  · by_cases hreg : i < 32
    · have hr : (⟨i, hreg⟩ : Fin 32) ≠ 10 := fun hr => hne (congrArg Fin.val hr)
      exact (word_reg g ⟨i, hreg⟩).trans ((h.regs _ hr).trans (word_reg tf.skip ⟨i, hreg⟩).symm)
    · obtain rfl | rfl | rfl : i = 32 ∨ i = 33 ∨ i = 34 := by omega
      · exact h.sstatus
      · exact h.sepc
      · exact h.stval
  · have hne : r.val ≠ 10 := fun hv => hr (Fin.ext hv)
    exact (word_reg g r).symm.trans ((h r (by omega) hne).trans (word_reg tf.skip r))

theorem left_of_keeps {f : Ecall} {y : Except Errno Ret} {k₁ : Kernel} (hy : y ≠ .ok .switched)
    (hc : k₁.curenv = some c) (h : tf.skip.Keeps k₁.active) : Left c f tf y k₁ :=
  ⟨fun _ => ⟨hc, resumes_iff_keeps.mpr h⟩, fun he => absurd he hy⟩

/-! ## Stores into the frame -/

theorem kernelStoreAt_out {va : Word} {bs : List (BitVec 8)} (h : frameOffset va bs.length = none) :
    kernelStoreAt va bs = kernelStore va bs := by
  unfold kernelStoreAt
  rw [h]

theorem ecallAt_getPgdir {pde : Word} {n : Nat} (hn : frameOffset pde 4 = some n)
    (hc : k.curenv = some c) :
    (ecallAt (.getPgdir pde)).wp (fun y k₁ => y = .ok (.value 0#32) ∧ ∃ d, k.curPgdir = some d ∧
        k₁ = { k with active := k.active.storeBytes n (wordBytes (page2addr d)) })
      (fun _ => k.curPgdir = none) k := by
  show (returnsZero (eGetPgdirAt pde)).wp _ _ k
  unfold returnsZero eGetPgdirAt
  rw [wp_bind, wp_get_bind, hc, wp_get_bind]
  cases hd : k.curPgdir with
  | none => exact wp_bind.mpr (wp_halt.mpr rfl)
  | some d =>
    rw [wp_bind]
    apply wp_pure.mpr
    simp only
    unfold kernelStoreAt
    rw [show (wordBytes (page2addr d)).length = 4 from rfl, hn]
    exact wp_modify.mpr (wp_pure.mpr ⟨rfl, d, rfl, by rw [← hc, ← hd]⟩)

theorem ecallAt_readDisk {buf : Word} {data : List (BitVec 8)} {n : Nat} {E : Halt → Prop}
    (hn : frameOffset buf data.length = some n) :
    (ecallAt (.readDisk buf data)).wp (fun y k₁ => y = .ok (.value 0#32) ∧
      k₁ = { k with active := k.active.storeBytes n data }) E k := by
  show (returnsZero (kernelStoreAt buf data)).wp _ _ k
  unfold returnsZero kernelStoreAt
  rw [hn, wp_bind]
  exact wp_modify.mpr (wp_pure.mpr ⟨rfl, rfl⟩)

/-! ## Another page in the place of the frame -/

/-- `env_alloc` fails before it comes to the kernel stack, or the frame is in a clear page
afterwards. -/
theorem envAlloc_framePage (hset : Settled k) (hc : k.curenv = some c) (parentId : Word)
    {E : Halt → Prop} :
    (envAlloc parentId).wp (fun _ k' => SameLive k k' ∧
      (k.envFreeList = [] ∨ k.pmap.pageFreeList.length < 4 → k'.framePage = k.framePage) ∧
      (¬(k.envFreeList = [] ∨ k.pmap.pageFreeList.length < 4) → ∃ q, k'.framePage = some q ∧
        k.framePage ≠ some q ∧ ∀ i, k'.pmap.mem q i = 0#32)) E k := by
  obtain ⟨L, hL, hno⟩ := hset.spaces
  obtain ⟨hlive, hpg⟩ := hL.cur c hc
  obtain ⟨d, hd, hdir, -⟩ := hL.dir c hlive
  obtain ⟨hdk, hk⟩ := hL.kstack hno hlive hd
  have hpages : (envAlloc parentId).wp (fun _ k' =>
      (k.envFreeList = [] ∨ k.pmap.pageFreeList.length < 4 →
        ∀ f, f ∉ k.pmap.pageFreeList → k'.pmap.mem f = k.pmap.mem f) ∧
      (¬(k.envFreeList = [] ∨ k.pmap.pageFreeList.length < 4) → k.NewStack k'.pmap)) E k := by
    apply wp_envAlloc_pages (P := fun s =>
      (k.envFreeList = [] ∨ k.pmap.pageFreeList.length < 4 →
        ∀ f, f ∉ k.pmap.pageFreeList → s.mem f = k.pmap.mem f) ∧
      (¬(k.envFreeList = [] ∨ k.pmap.pageFreeList.length < 4) → k.NewStack s))
    · exact fun hnil => ⟨fun _ _ _ => rfl, fun h => absurd (.inl hnil) h⟩
    · intro e he
      have hne : k.envFreeList ≠ [] := fun h => absurd (h ▸ he) List.not_mem_nil
      by_cases hlen : k.pmap.pageFreeList.length < 4
      · exact wp_conseq (envSetupVm_short hL (hset.not_live e he) hlen) fun _ _ h =>
          ⟨fun _ => h, fun hn => absurd (.inr hlen) hn⟩
      · exact wp_conseq (envSetupVm_stamps hL (hset.not_live e he) hk (Nat.not_lt.mp hlen))
          fun _ _ h => ⟨fun hs => absurd hs (not_or.mpr ⟨hne, hlen⟩), fun _ => h⟩
  apply wp_conseq (wp_and (envAlloc_newborn hL hset.not_live parentId) hpages)
  rintro r k' ⟨⟨hsame, hres⟩, hshort, hlong⟩
  have hcur' : k'.curenv = some c := hsame.curenv.trans hc
  have hpg' : k'.curPgdir = some d := by
    rw [← hd, ← hsame.envs c hlive]
    cases r with
    | ok e =>
      obtain ⟨_, _, -, hnew⟩ := hres
      exact (hnew.spaces.cur c hcur').2
    | error x =>
      obtain ⟨_, -, hL'⟩ := hres
      exact (hL'.cur c hcur').2
  have hpage : k.framePage = entryFrame (k.pmap.pteOf d (kstacktop - 4096#32)) := by
    unfold Kernel.framePage
    rw [hpg, hd]
    rfl
  have hpage' : k'.framePage = entryFrame (k'.pmap.pteOf d (kstacktop - 4096#32)) := by
    unfold Kernel.framePage
    rw [hpg']
    rfl
  refine ⟨hsame, fun hs => ?_, fun hn => ?_⟩
  · rw [hpage, hpage']
    exact congrArg entryFrame
      ((undisturbed_of_mem hL hsame (hshort hs) c d hlive hd).2 (kstacktop - 4096#32)).1
  · obtain ⟨q, hq, hclear, hstamp⟩ := hlong hn
    refine ⟨q, ?_, fun he => ?_, hclear⟩
    · rw [hpage', hstamp c d hlive hd hdk]
      exact entryFrame_mkPte q (by decide)
    · exact (Pmap.not_free_of_mapped hL.inv hdir (hL.kstack_counted hdk) (hpage ▸ he)).1 hq

theorem live_setEnv {e : EnvIdx} {g : Env → Env} (hg : ∀ v, (g v).status ≠ .free) (hl : k.Live c) :
    (k.setEnv e g).Live c := by
  show (Function.update k.envs e (g (k.envs e)) c).status ≠ .free
  by_cases he : c = e
  · subst he
    rw [Function.update_self]
    exact hg _
  · rw [Function.update_of_ne he]
    exact hl

/-- After `e_exofork` the frame is as before, or clear. -/
theorem wp_eExoforkAt (hset : Settled k) (hc : k.curenv = some c) {E : Halt → Prop} :
    eExoforkAt.wp (fun _ k' => k'.curenv = some c ∧ k'.Live c ∧ k'.active =
      if k.envFreeList = [] ∨ k.pmap.pageFreeList.length < 4 then k.active
      else .ofWords fun _ => 0#32) E k := by
  obtain ⟨L, hL, -⟩ := hset.spaces
  have hlive := (hL.cur c hc).1
  unfold eExoforkAt curenv
  rw [wp_bind, wp_get_bind, hc]
  apply wp_pure.mpr
  simp only
  rw [wp_get_bind]
  apply wp_attempt_seq (envAlloc_framePage hset hc (k.envs c).id)
  rintro r k' ⟨hsame, hshort, hlong⟩
  unfold reloadFrame
  rw [wp_modify_bind]
  obtain ⟨k₂, hk₂⟩ : ∃ k₂ : Kernel, k₂ = (match k'.framePage with
    | none => k'
    | some f' => if k.framePage = some f' then k' else { k' with active := k'.frameIn f' }) := ⟨_, rfl⟩
  rw [← hk₂]
  have hreload : k₂.curenv = some c ∧ k₂.Live c ∧ k₂.active =
      if k.envFreeList = [] ∨ k.pmap.pageFreeList.length < 4 then k.active
      else .ofWords fun _ => 0#32 := by
    by_cases hs : k.envFreeList = [] ∨ k.pmap.pageFreeList.length < 4
    · have hsk : k₂ = k' := by
        rw [hk₂, hshort hs]
        cases k.framePage with
        | none => rfl
        | some f' => exact if_pos rfl
      rw [if_pos hs, hsk]
      exact ⟨hsame.curenv.trans hc, (hsame.live c).mpr hlive, hsame.active⟩
    · obtain ⟨q, hq, hne, hclear⟩ := hlong hs
      have hsk : k₂ = { k' with active := k'.frameIn q } := by
        rw [hk₂, hq]
        exact if_neg hne
      rw [if_neg hs, hsk]
      refine ⟨hsame.curenv.trans hc, (hsame.live c).mpr hlive, ?_⟩
      show Trapframe.ofWords (fun i => k'.pmap.mem q (Fin.ofNat 1024 (987 + i))) = _
      simp only [hclear]
  cases r with
  | error x => exact wp_throw.mpr hreload
  | ok e =>
    rw [wp_modify_bind, wp_get_bind]
    obtain ⟨hcur, hl, hact⟩ := hreload
    exact wp_pure.mpr ⟨hcur, live_setEnv (fun _ => by simp) hl, hact⟩

theorem ecallAt_exofork (hset : Settled k) (hc : k.curenv = some c) {E : Halt → Prop} :
    (ecallAt .exofork).wp (fun y k' => y ≠ .ok .switched ∧ k'.curenv = some c ∧ k'.Live c ∧
      k'.active = if k.envFreeList = [] ∨ k.pmap.pageFreeList.length < 4 then k.active
        else .ofWords fun _ => 0#32) E k := by
  show (returns eExoforkAt).wp _ _ k
  unfold returns
  apply wp_seq (wp_eExoforkAt hset hc)
  · exact fun v k' h => wp_pure.mpr ⟨by simp, h⟩
  · exact fun x k' h => ⟨by simp, h⟩

/-- A call in the table leaves its caller's frame as the convention has it. -/
theorem ecallAt_left {f : Ecall} (hset : ∀ e va g, f ≠ .setTrapframe e va g)
    (hin : k.InTable tf (some f)) (hsettled : f = .exofork → Settled k) (hc : k.curenv = some c)
    (ha : k.active = tf.skip) :
    (ecallAt f).wp (fun y k₁ => k₁.Live c → Left c f tf y k₁) (fun _ => True) k := by
  cases f with
  | getPgdir pde =>
    cases hn : frameOffset pde 4 with
    | none =>
      have hsame : ecallAt (.getPgdir pde) = ecall (.getPgdir pde) := by
        show returnsZero (eGetPgdirAt pde) = returnsZero (eGetPgdir pde)
        have hout : ∀ d, kernelStoreAt pde (wordBytes (page2addr d)) =
            kernelStore pde (wordBytes (page2addr d)) := fun d => kernelStoreAt_out hn
        unfold eGetPgdirAt
        simp only [hout]
        rfl
      rw [hsame]
      exact ecall_left hset hc ha
    | some n =>
      apply wp_mono (ecallAt_getPgdir hn hc)
      · rintro y k₁ ⟨rfl, d, hd, rfl⟩ -
        have hkeeps : tf.skip.Keeps (k.active.storeBytes n (wordBytes (page2addr d))) := by
          rw [ha]
          exact hin n d hn hd
        exact left_of_keeps (by simp) hc hkeeps
      · exact fun _ _ => trivial
  | readDisk buf data =>
    cases hn : frameOffset buf data.length with
    | none =>
      have hsame : ecallAt (.readDisk buf data) = ecall (.readDisk buf data) := by
        show returnsZero (kernelStoreAt buf data) = returnsZero (kernelStore buf data)
        rw [kernelStoreAt_out hn]
      rw [hsame]
      exact ecall_left hset hc ha
    | some n =>
      apply wp_conseq (ecallAt_readDisk hn)
      rintro y k₁ ⟨rfl, rfl⟩ -
      have hkeeps : tf.skip.Keeps (k.active.storeBytes n data) := by
        rw [ha]
        exact hin n hn
      exact left_of_keeps (by simp) hc hkeeps
  | exofork =>
    apply wp_conseq (ecallAt_exofork (hsettled rfl) hc)
    rintro y k₁ ⟨hy, hcur, -, hact⟩ -
    apply left_of_keeps hy hcur
    rw [hact]
    split_ifs with hs
    · rw [ha]
      exact fun _ _ _ => rfl
    · exact (hin.resolve_left fun h => hs (.inl h)).resolve_left fun h => hs (.inr h)
  | _ => exact ecall_left hset hc ha

/-- Words other than `a0` do not see a store to `a0`. -/
theorem word_setA0 (g : Trapframe) (v : Word) {i : Nat} (hne : i ≠ 10) :
    ({ g with regs := Function.update g.regs 10 v } : Trapframe).word i = g.word i := by
  unfold Trapframe.word
  by_cases hreg : i < 32
  · have hr : (⟨i, hreg⟩ : Fin 32) ≠ 10 := fun h => hne (congrArg Fin.val h)
    rw [dif_pos hreg, dif_pos hreg]
    exact Function.update_of_ne hr v g.regs
  · rw [dif_neg hreg, dif_neg hreg]

/-- A call that goes back to its caller stores a word in `a0`. -/
theorem doEcall_value {m : Kern Ret} {y : Except Errno Ret} {k₁ : Kernel}
    (hm : m { k with active := k.active.skip } = .ok (y, k₁)) (hy : y ≠ .ok .switched) :
    ∃ v, doEcall m k = .ok (.ok (), { k₁ with
      active := { k₁.active with regs := Function.update k₁.active.regs 10 v } }) := by
  have hrun : doEcall m k = _ := (bind_of_ok (t := { k with active := k.active.skip }) rfl).trans
    (bind_of_ok (attempt_of_ok hm))
  rcases y with x | v | _
  · exact ⟨retWord (.error x), hrun⟩
  · exact ⟨v, hrun⟩
  · exact absurd rfl hy

theorem keeps_of_conventional {f : Ecall} {y : Except Errno Ret} {k₁ : Kernel}
    (h : k.Conventional c tf (some f)) (hrun : ecallAt f { k with active := tf.skip } = .ok (y, k₁))
    (hy : y ≠ .ok .switched) (hc : k₁.curenv = some c) (hl : k₁.Live c) :
    tf.skip.Keeps k₁.active := by
  have hm : ecallAt f { ({ k with active := tf } : Kernel) with active := tf.skip } = .ok (y, k₁) := hrun
  obtain ⟨v, hend⟩ := doEcall_value hm hy
  have hres := h y k₁ hrun _ _ hend hl
  rw [Kernel.restored_current (by exact hc)] at hres
  have hkeeps := resumes_iff_keeps.mp hres.drop
  intro i hi hne
  rw [← hkeeps i hi hne]
  exact (word_setA0 k₁.active v hne).symm

/-- The store of the result. -/
theorem doEcall_resumes {f : Ecall} {m : Kern Ret} {y : Except Errno Ret} {k₁ : Kernel}
    (hm : m { k with active := k.active.skip } = .ok (y, k₁))
    (hl : k₁.Live c → Left c f tf y k₁) :
    (doEcall m).wp (fun _ k' => k'.Live c → Resumes tf (k'.restored c) (f.result y))
      (fun _ => True) k := by
  have hrun : m.wp (fun r k' => r = y ∧ k' = k₁) (fun _ => True)
      { k with active := k.active.skip } := by
    refine wp_of (fun r k' hr => ?_) fun _ _ => trivial
    obtain ⟨rfl, rfl⟩ := Prod.mk.inj (Except.ok.inj (hm.symm.trans hr))
    exact ⟨rfl, rfl⟩
  unfold doEcall
  rw [wp_modify_bind]
  refine wp_attempt_seq hrun fun r k' hr => ?_
  obtain ⟨rfl, rfl⟩ := hr
  have hset : ∀ w, (r ≠ .ok .switched) → (setReg 10 w).wp
      (fun _ k'' => k''.Live c → Resumes tf (k''.restored c) (some w)) (fun _ => True) k' := by
    intro w hr
    refine wp_modify.mpr fun hlive => ?_
    obtain ⟨hc, hres⟩ := (hl hlive).value hr
    exact Resumes.current hc (hres.setA0 w)
  rcases r with x | v | _
  · exact hset _ (by simp)
  · exact hset v (by simp)
  · exact wp_pure.mpr fun hlive => (hl hlive).switched rfl

end Kern

/-! ## The register convention -/

/-- One running environment. -/
def callingEnv : Kernel :=
  { zeroKernel with
    envs := Function.update zeroKernel.envs 0 { zeroKernel.envs 0 with status := .runnable }
    curenv := some 0 }

/-- A frame with a number in `a0`. -/
def numberTf (eno : Word) : Trapframe :=
  { zeroTf with regs := Function.update zeroTf.regs 10 eno }

def noExtern : Extern := ⟨0#32, zeroTf, []⟩

end RvMos
