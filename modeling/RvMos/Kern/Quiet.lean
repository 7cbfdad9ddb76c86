/-
What most of the kernel leaves alone.

Memory management touches the page structures only (`OnlyPages`), and the store
fault also writes registers of the active frame (`OnlyRegs`).  So neither comes
near the status words, the queues, the receiving flags or the ASIDs: `Quiet`
says this of a procedure, together with the fact that it never fails the
assertion of `env_run`.  All three are proved along the code by the frame rules.
-/
import RvMos.Kern.Traps

namespace RvMos

open Lib

/-! ## Stops of the page functions -/

/-- The stops of `pmap.c`. -/
def PmapStop (h : Halt) : Prop :=
  h = .wild ∨ (∃ m, h = .panic m) ∨ h = .assert "pp->pp_ref == 0" ∨ h = .assert "pp->pp_ref > 0"

/-- Any stop but the assertion of `env_run`. -/
def NotRunAssert (h : Halt) : Prop := h ≠ .assert "e->env_status == ENV_RUNNABLE"

theorem PmapStop.notRunAssert {h : Halt} (hs : PmapStop h) : NotRunAssert h := by
  rcases hs with rfl | ⟨m, rfl⟩ | rfl | rfl
  · exact fun e => by injection e
  · exact fun e => by injection e
  · unfold NotRunAssert; decide
  · unfold NotRunAssert; decide

theorem notRunAssert_wild : NotRunAssert .wild := fun e => by injection e

theorem notRunAssert_panic (m : String) : NotRunAssert (.panic m) := fun e => by injection e

namespace Pmap

variable {s s' : Pmap} {d pp : Frame} {va perm : Word} {h : Halt}

theorem pageDecref_stop (e : s.pageDecref pp = .error h) : PmapStop h := by
  unfold pageDecref pageFree at e
  split at e
  · exact Or.inr (Or.inr (Or.inr (Except.error.inj e).symm))
  · simp only at e
    split at e
    · simp at e
    · simp at e

theorem tableEntry_stop {p : PtePtr} (e : s.tableEntry p va = .error h) : PmapStop h := by
  unfold tableEntry at e
  split at e
  · exact Or.inl (Except.error.inj e).symm
  · simp at e

theorem pgdirWalk_stop {create : Bool} (e : s.pgdirWalk d va create = .error h) :
    PmapStop h := by
  have hmap : ∀ {s₁ : Pmap} {p : PtePtr} {β : Type} {f : PtePtr → β},
      (s₁.tableEntry p va).map f = .error h → PmapStop h := by
    intro s₁ p β f hm
    cases ht : s₁.tableEntry p va with
    | error h' =>
      rw [ht] at hm
      exact tableEntry_stop (ht.trans (by rw [Except.error.inj hm]))
    | ok q => rw [ht] at hm; exact absurd hm (by simp [Except.map])
  unfold pgdirWalk at e
  simp only at e
  split at e
  · exact hmap e
  · split at e
    · split at e
      · simp at e
      · exact hmap e
    · simp at e

theorem pageLookup_stop (e : s.pageLookup d va = .error h) : PmapStop h := by
  unfold pageLookup at e
  split at e
  · rename_i hw
    exact pgdirWalk_stop (hw.trans (by rw [Except.error.inj e]))
  · split at e
    · split at e
      · exact Or.inr (Or.inl ⟨_, (Except.error.inj e).symm⟩)
      · simp at e
    · simp at e
  · simp at e

theorem pageRemove_stop (e : s.pageRemove d va = .error h) : PmapStop h := by
  unfold pageRemove at e
  split at e
  · rename_i hw
    exact pageLookup_stop (hw.trans (by rw [Except.error.inj e]))
  · simp at e
  · rename_i qq p hl
    cases hd : s.pageDecref qq with
    | error h' =>
      rw [hd] at e
      exact pageDecref_stop (hd.trans (by rw [Except.error.inj e]))
    | ok q => rw [hd] at e; exact absurd e (by simp [Except.map])

theorem pageInsertNew_stop (e : s.pageInsertNew d pp va perm = .error h) : PmapStop h := by
  unfold pageInsertNew at e
  split at e
  · rename_i hw
    exact pgdirWalk_stop (hw.trans (by rw [Except.error.inj e]))
  · simp at e
  · exact Or.inl (Except.error.inj e).symm
  · simp at e

theorem pageInsert_stop (e : s.pageInsert d pp va perm = .error h) : PmapStop h := by
  unfold pageInsert at e
  split at e
  · rename_i hw
    exact pgdirWalk_stop (hw.trans (by rw [Except.error.inj e]))
  · split at e
    · split at e
      · exact Or.inr (Or.inl ⟨_, (Except.error.inj e).symm⟩)
      · split at e
        · split at e
          · rename_i hr
            exact pageRemove_stop (hr.trans (by rw [Except.error.inj e]))
          · exact pageInsertNew_stop e
        · simp at e
    · exact pageInsertNew_stop e
  · exact pageInsertNew_stop e

theorem freeEntries_stop {pt : Frame} {i : Index} (js : List Index) {flag : Bool}
    (e : s.freeEntries d pt i js flag = .error h) : PmapStop h := by
  induction js generalizing s flag with
  | nil => simp [freeEntries] at e
  | cons j js ih =>
    unfold freeEntries at e
    split at e
    · exact ih e
    · split at e
      · split at e
        · rename_i hr
          exact pageRemove_stop (hr.trans (by rw [Except.error.inj e]))
        · exact ih e
      · exact ih e

theorem freeTable_stop {i : Index} (e : s.freeTable d i = .error h) : PmapStop h := by
  unfold freeTable at e
  split at e
  · simp at e
  · split at e
    · split at e
      · exact Or.inl (Except.error.inj e).symm
      · split at e
        · rename_i hr
          exact freeEntries_stop _ (hr.trans (by rw [Except.error.inj e]))
        · simp at e
        · exact pageDecref_stop e
    · simp at e

theorem freeTables_stop (is : List Index) (e : s.freeTables d is = .error h) : PmapStop h := by
  induction is generalizing s with
  | nil => simp [freeTables] at e
  | cons i is ih =>
    unfold freeTables at e
    split at e
    · rename_i hr
      exact freeTable_stop (hr.trans (by rw [Except.error.inj e]))
    · exact ih e

theorem freeSpace_stop (e : s.freeSpace d = .error h) : PmapStop h := by
  unfold freeSpace at e
  split at e
  · rename_i hr
    exact freeTables_stop _ (hr.trans (by rw [Except.error.inj e]))
  · exact pageDecref_stop e

end Pmap

/-! ## Procedures on pages -/

/-- The two states differ in the page structures only. -/
def SameButPages (k k' : Kernel) : Prop := ∃ p, k' = k.setPmap p

instance : IsPreorder Kernel SameButPages where
  refl k := ⟨k.pmap, rfl⟩
  trans := by
    rintro k _ _ ⟨p, rfl⟩ ⟨p', rfl⟩
    exact ⟨p', rfl⟩

/-- A procedure that changes the page structures only, and never reaches the
assertion of `env_run`. -/
def OnlyPages {α : Type} (m : Kern α) : Prop := Sys.Keeps SameButPages NotRunAssert m

namespace Kern

open Sys

theorem pages_setPmap (f : Kernel → Pmap) :
    OnlyPages (modify fun k => k.setPmap (f k) : Kern Unit) :=
  keeps_modify fun k => ⟨f k, rfl⟩

theorem pages_onPmap {α : Type} {f : Pmap → Except Halt (Except Errno α × Pmap)}
    (hf : ∀ p h, f p = .error h → PmapStop h) : OnlyPages (onPmap f) := by
  intro k
  exact wp_onPmap.mpr ⟨fun h e => (hf k.pmap h e).notRunAssert, fun _ p _ => ⟨p, rfl⟩⟩

theorem pages_pageAlloc : OnlyPages pageAlloc := by
  refine pages_onPmap fun p h e => ?_
  cases hp : p.pageAlloc with
  | error _ => simp [hp] at e
  | ok _ => simp [hp] at e

theorem pages_dirOf (d : Option Frame) : OnlyPages (dirOf d) := by
  cases d with
  | none => exact keeps_halt notRunAssert_wild
  | some d => exact keeps_pure d

theorem pages_pageInsert (d : Option Frame) (pp : Frame) (va perm : Word) :
    OnlyPages (pageInsert d pp va perm) :=
  keeps_bind (pages_dirOf d) fun _ => pages_onPmap fun _ _ e => Pmap.pageInsert_stop e

/-- The error of a mapped computation is the error of the computation. -/
theorem error_of_map {β γ : Type} {x : Except Halt β} {f : β → γ} {h : Halt}
    (e : x.map f = .error h) : x = .error h := by
  cases x with
  | error h' => exact congrArg Except.error (Except.error.inj e)
  | ok b => exact absurd e (by simp [Except.map])

theorem pages_pageLookup (d : Option Frame) (va : Word) : OnlyPages (pageLookup d va) :=
  keeps_bind (pages_dirOf d) fun _ =>
    pages_onPmap fun _ _ e => Pmap.pageLookup_stop (error_of_map e)

theorem pages_pageRemove (d : Option Frame) (va : Word) : OnlyPages (pageRemove d va) :=
  keeps_bind (pages_dirOf d) fun _ =>
    pages_onPmap fun _ _ e => Pmap.pageRemove_stop (error_of_map e)

theorem pages_curenv : OnlyPages curenv := by
  refine keeps_bind keeps_get fun k => ?_
  cases k.curenv with
  | none => exact keeps_halt notRunAssert_wild
  | some c => exact keeps_pure c

theorem pages_envid2env (envid : Word) (checkperm : Bool) :
    OnlyPages (envid2env envid checkperm) := by
  unfold envid2env
  refine keeps_ite pages_curenv (keeps_ite ?_ (keeps_pure _))
  refine keeps_bind pages_curenv fun c => keeps_bind keeps_get fun k => ?_
  exact keeps_ite (keeps_throw _) (keeps_pure _)

theorem pages_mapStacks (d : Frame) (i : Nat) : OnlyPages (mapStacks d i) := by
  refine keeps_bind pages_pageAlloc fun p => ?_
  refine keeps_bind (keeps_attempt (pages_pageInsert _ _ _ _)) fun _ => ?_
  refine keeps_bind pages_pageAlloc fun p => ?_
  exact keeps_bind (keeps_attempt (pages_pageInsert _ _ _ _)) fun _ => keeps_pure _

theorem pages_loadPages (e : EnvIdx) (pages : List ProgPage) :
    OnlyPages (each (loadIcodeMapper e) pages) := by
  refine keeps_each (fun pg => ?_) pages
  refine keeps_bind pages_pageAlloc fun p => ?_
  refine keeps_bind (pages_setPmap _) fun _ => ?_
  exact keeps_bind keeps_get fun k => pages_pageInsert _ _ _ _

/-! ### System calls -/

theorem pages_eMemAlloc (envid va perm : Word) : OnlyPages (eMemAlloc envid va perm) := by
  refine keeps_ite (keeps_throw _) ?_
  refine keeps_bind (pages_envid2env _ _) fun e => ?_
  refine keeps_bind pages_pageAlloc fun pp => ?_
  exact keeps_bind keeps_get fun k => pages_pageInsert _ _ _ _

theorem pages_eMemMap (srcid srcva dstid dstva perm : Word) :
    OnlyPages (eMemMap srcid srcva dstid dstva perm) := by
  refine keeps_ite (keeps_throw _) ?_
  refine keeps_bind (pages_envid2env _ _) fun src => ?_
  refine keeps_bind (pages_envid2env _ _) fun dst => ?_
  refine keeps_bind keeps_get fun k => ?_
  refine keeps_bind (pages_pageLookup _ _) fun r => ?_
  cases r with
  | none => exact keeps_throw _
  | some x => exact keeps_bind keeps_get fun k => pages_pageInsert _ _ _ _

theorem pages_eMemUnmap (envid va : Word) : OnlyPages (eMemUnmap envid va) := by
  refine keeps_ite (keeps_throw _) ?_
  refine keeps_bind (pages_envid2env _ _) fun e => ?_
  exact keeps_bind keeps_get fun k => pages_pageRemove _ _

theorem pages_kernelStoreByte (va : Word) (b : BitVec 8) : OnlyPages (kernelStoreByte va b) := by
  refine keeps_ite (keeps_halt notRunAssert_wild) ?_
  refine keeps_bind keeps_get fun k => keeps_bind (pages_pageLookup _ _) fun r => ?_
  cases r with
  | none => exact keeps_halt notRunAssert_wild
  | some x =>
    refine keeps_bind keeps_get fun k => keeps_ite (keeps_halt notRunAssert_wild) ?_
    exact pages_setPmap _

theorem pages_kernelStore (va : Word) (bs : List (BitVec 8)) :
    OnlyPages (kernelStore va bs) := by
  induction bs generalizing va with
  | nil => exact keeps_pure _
  | cons b bs ih => exact keeps_bind (pages_kernelStoreByte va b) fun _ => ih _

theorem pages_eGetPgdir (pde : Word) : OnlyPages (eGetPgdir pde) := by
  refine keeps_bind keeps_get fun k => ?_
  cases k.curenv with
  | none => exact keeps_throw _
  | some c =>
    refine keeps_bind keeps_get fun k => keeps_bind (pages_dirOf _) fun d => ?_
    exact pages_kernelStore _ _

theorem pages_eGetPgref (v : Word) : OnlyPages (eGetPgref v) := by
  unfold eGetPgref
  cases addr2page v with
  | none => exact keeps_halt (notRunAssert_panic _)
  | some pp => exact keeps_bind keeps_get fun k => keeps_pure _

/-! ### Load faults -/

theorem pages_orPanic {α : Type} {m : Kern α} (hm : OnlyPages m) (msg : String) :
    OnlyPages (orPanic m msg) := by
  refine keeps_bind (keeps_attempt hm) fun r => ?_
  cases r with
  | error _ => exact keeps_halt (notRunAssert_panic _)
  | ok a => exact keeps_pure a

theorem pages_loadTarget (junk : Option Word) (d : Option Frame) (stval : Word) :
    OnlyPages (loadTarget junk d stval) := by
  refine keeps_bind (pages_pageLookup _ _) fun r => ?_
  cases r with
  | some x => exact keeps_bind keeps_get fun k => keeps_pure _
  | none =>
    refine keeps_bind (pages_orPanic pages_pageAlloc _) fun pp => ?_
    cases junk with
    | none => exact keeps_halt notRunAssert_wild
    | some w => exact keeps_pure _

theorem pages_loadMapped (junk : Option Word) (stval : Word) :
    OnlyPages (loadMapped junk stval) := by
  refine keeps_bind pages_curenv fun c => keeps_bind keeps_get fun k => ?_
  exact keeps_bind (pages_loadTarget _ _ _) fun x => pages_orPanic (pages_pageInsert _ _ _ _) _

theorem pages_newTable (d : Frame) (i : Index) (msg : String) : OnlyPages (newTable d i msg) :=
  keeps_bind (pages_orPanic pages_pageAlloc _) fun _ =>
    keeps_bind (pages_setPmap _) fun _ => keeps_pure _

theorem pages_vptTable (d : Frame) (i : Index) : OnlyPages (vptTable d i) := by
  refine keeps_bind keeps_get fun k => keeps_ite (pages_newTable _ _ _) ?_
  cases addr2page (paddr (pteAddr (k.pmap.mem d i))) with
  | none => exact keeps_halt (notRunAssert_panic _)
  | some pp => exact keeps_pure _

theorem pages_vptRound (d : Frame) (i : Index) : OnlyPages (vptRound d i) :=
  keeps_bind (pages_vptTable d i) fun _ =>
    keeps_bind (keeps_attempt (pages_pageInsert _ _ _ _)) fun _ => keeps_pure _

theorem pages_ensureVpt (d : Frame) : OnlyPages (ensureVpt d) := by
  refine keeps_bind keeps_get fun k => keeps_ite ?_ (keeps_pure _)
  exact keeps_bind (pages_newTable d (pdx uvpt) _) fun _ => keeps_pure _

theorem pages_loadVpt : OnlyPages loadVpt := by
  refine keeps_bind pages_curenv fun c => keeps_bind keeps_get fun k => ?_
  refine keeps_bind (pages_dirOf _) fun d => keeps_bind (pages_ensureVpt d) fun _ => ?_
  refine keeps_bind (keeps_each (pages_vptRound d) _ : OnlyPages (fillVpt d)) fun _ => ?_
  exact keeps_bind (keeps_attempt (pages_pageInsert _ _ _ _)) fun _ => keeps_pure _

theorem pages_doLoadPage (junk : Option Word) : OnlyPages (doLoadPage junk) := by
  refine keeps_bind keeps_get fun k => ?_
  refine keeps_ite (keeps_halt (notRunAssert_panic _)) ?_
  refine keeps_ite (pages_loadMapped _ _) ?_
  exact keeps_ite pages_loadVpt (pages_loadMapped _ _)

end Kern

/-! ## System calls as traps -/

namespace Kern

open Sys

/-- The frame of the caller is of no account for what does not look at it. -/
theorem wp_handle_ecall {P : Kernel → Prop} {E : Halt → Prop} {k : Kernel} {c : Ecall}
    (tf : Trapframe) (hP : ∀ k a, P k → P { k with active := a })
    (h : ∀ a, (ecall c).wp (fun _ k' => P k') E { k with active := a }) :
    (handle tf (.ecall c)).wp (fun _ k' => P k') E k := by
  unfold handle
  rw [wp_modify_bind]
  show (doEcallFromU c).wp _ _ _
  unfold doEcallFromU
  rw [wp_modify_bind]
  refine wp_attempt_seq (h _) fun r k' hk' => ?_
  rcases r with e | v | _
  · exact wp_modify.mpr (hP k' _ hk')
  · exact wp_modify.mpr (hP k' _ hk')
  · exact wp_pure.mpr hk'

end Kern

/-! ## Procedures on the active frame -/

/-- The two states differ in the page structures, the general registers and the
program counter of the active frame. -/
def SameButRegs (k k' : Kernel) : Prop :=
  ∃ p regs sepc, k' = { k with pmap := p, active := { k.active with regs := regs, sepc := sepc } }

instance : IsPreorder Kernel SameButRegs where
  refl k := ⟨k.pmap, k.active.regs, k.active.sepc, rfl⟩
  trans := by
    rintro k _ _ ⟨p, r, n, rfl⟩ ⟨p', r', n', rfl⟩
    exact ⟨p', r', n', rfl⟩

def OnlyRegs {α : Type} (m : Kern α) : Prop := Sys.Keeps SameButRegs NotRunAssert m

theorem SameButPages.regs {k k' : Kernel} (h : SameButPages k k') : SameButRegs k k' := by
  obtain ⟨p, rfl⟩ := h
  exact ⟨p, k.active.regs, k.active.sepc, rfl⟩

theorem OnlyPages.regs {α : Type} {m : Kern α} (h : OnlyPages m) : OnlyRegs m :=
  Sys.keeps_mono (fun _ _ => SameButPages.regs) (fun _ => id) h

namespace Kern

open Sys

theorem regs_setReg (i : Fin 32) (v : Word) : OnlyRegs (setReg i v) :=
  keeps_modify fun k => ⟨k.pmap, _, k.active.sepc, rfl⟩

theorem regs_setSepc (f : Kernel → Word) :
    OnlyRegs (modify fun k => { k with active := { k.active with sepc := f k } } : Kern Unit) :=
  keeps_modify fun k => ⟨k.pmap, k.active.regs, _, rfl⟩

theorem regs_cowUpcall : OnlyRegs cowUpcall := by
  refine keeps_bind keeps_get fun k => keeps_bind (pages_kernelStore _ _).regs fun _ => ?_
  refine keeps_bind (regs_setReg _ _) fun _ => ?_
  refine keeps_bind keeps_get fun k => keeps_bind (pages_kernelStore _ _).regs fun _ => ?_
  refine keeps_bind pages_curenv.regs fun c => keeps_bind keeps_get fun k => ?_
  refine keeps_ite ?_ (keeps_halt (notRunAssert_panic _))
  exact keeps_bind (regs_setReg _ _) fun _ => regs_setSepc _

theorem regs_doStorePage : OnlyRegs doStorePage := by
  refine keeps_bind keeps_get fun k => keeps_bind keeps_get fun k => ?_
  refine keeps_bind (pages_pageLookup _ _).regs fun r => ?_
  cases r with
  | some x =>
    refine keeps_bind keeps_get fun k => keeps_ite regs_cowUpcall ?_
    refine keeps_bind pages_curenv.regs fun c => keeps_bind keeps_get fun k => ?_
    exact (pages_orPanic (pages_pageInsert _ _ _ _) _).regs
  | none =>
    refine keeps_bind (pages_orPanic pages_pageAlloc _).regs fun pp => ?_
    refine keeps_bind pages_curenv.regs fun c => keeps_bind keeps_get fun k => ?_
    exact (pages_orPanic (pages_pageInsert _ _ _ _) _).regs

end Kern

/-! ## Procedures that leave the life cycle alone -/

/-- The two states agree on status, flags, ASIDs and queues. -/
structure SameLife (k k' : Kernel) : Prop where
  status : ∀ e, (k'.envs e).status = (k.envs e).status
  recving : ∀ e, (k'.envs e).ipcRecving = (k.envs e).ipcRecving
  asid : ∀ e, (k'.envs e).asid = (k.envs e).asid
  free : k'.envFreeList = k.envFreeList
  sched : k'.envSchedList = k.envSchedList
  bitmap : k'.asidBitmap = k.asidBitmap

instance : IsPreorder Kernel SameLife where
  refl _ := ⟨fun _ => rfl, fun _ => rfl, fun _ => rfl, rfl, rfl, rfl⟩
  trans _ _ _ h h' := ⟨fun e => (h'.status e).trans (h.status e),
    fun e => (h'.recving e).trans (h.recving e), fun e => (h'.asid e).trans (h.asid e),
    h'.free.trans h.free, h'.sched.trans h.sched, h'.bitmap.trans h.bitmap⟩

theorem SameLife.of_envs {k k' : Kernel} (he : k'.envs = k.envs)
    (hf : k'.envFreeList = k.envFreeList) (hs : k'.envSchedList = k.envSchedList)
    (hb : k'.asidBitmap = k.asidBitmap) : SameLife k k' :=
  ⟨fun e => by rw [he], fun e => by rw [he], fun e => by rw [he], hf, hs, hb⟩

theorem SameButRegs.sameLife {k k' : Kernel} (h : SameButRegs k k') : SameLife k k' := by
  obtain ⟨p, r, n, rfl⟩ := h
  exact .of_envs rfl rfl rfl rfl

theorem SameLife.setEnv (k : Kernel) (e : EnvIdx) {f : Env → Env}
    (hs : ∀ v, (f v).status = v.status) (hr : ∀ v, (f v).ipcRecving = v.ipcRecving)
    (ha : ∀ v, (f v).asid = v.asid) : SameLife k (k.setEnv e f) :=
  ⟨k.setEnv_keeps _ (hs _), k.setEnv_keeps _ (hr _), k.setEnv_keeps _ (ha _), rfl, rfl, rfl⟩

/-- A procedure that leaves the life cycle alone and never reaches the assertion
of `env_run`. -/
def Quiet {α : Type} (m : Kern α) : Prop := Sys.Keeps SameLife NotRunAssert m

theorem OnlyRegs.quiet {α : Type} {m : Kern α} (h : OnlyRegs m) : Quiet m :=
  Sys.keeps_mono (fun _ _ => SameButRegs.sameLife) (fun _ => id) h

theorem OnlyPages.quiet {α : Type} {m : Kern α} (h : OnlyPages m) : Quiet m := h.regs.quiet

namespace Kern

open Sys

theorem quiet_setActive (f : Kernel → Trapframe) :
    Quiet (modify fun k => { k with active := f k } : Kern Unit) :=
  keeps_modify fun _ => SameLife.of_envs rfl rfl rfl rfl

theorem quiet_setEnv {e : EnvIdx} {f : Env → Env} (hs : ∀ v, (f v).status = v.status)
    (hr : ∀ v, (f v).ipcRecving = v.ipcRecving) (ha : ∀ v, (f v).asid = v.asid) :
    Quiet (setEnv e f) :=
  keeps_modify fun k => SameLife.setEnv k e hs hr ha

theorem quiet_envSetupVm (e : EnvIdx) : Quiet (envSetupVm e) := by
  refine keeps_bind pages_pageAlloc.quiet fun p => ?_
  refine keeps_bind (keeps_modify fun k => ?_) fun _ => ?_
  · have hp : SameLife k (k.setPmap (k.pmap.incRef p)) := SameLife.of_envs rfl rfl rfl rfl
    refine trans_of SameLife hp (SameLife.setEnv _ e ?_ ?_ ?_)
    · exact fun _ => rfl
    · exact fun _ => rfl
    · exact fun _ => rfl
  · exact keeps_bind (pages_setPmap _).quiet fun _ =>
      keeps_each (fun i => (pages_mapStacks p i).quiet) _

theorem quiet_eSetTrapframe (envid va : Word) (tf : Trapframe) :
    Quiet (eSetTrapframe envid va tf) := by
  refine keeps_ite (keeps_throw _) ?_
  refine keeps_bind (pages_envid2env _ _).quiet fun e => ?_
  refine keeps_bind keeps_get fun k => keeps_ite ?_ ?_
  · exact keeps_bind (quiet_setActive _) fun _ => keeps_pure _
  · exact keeps_bind (quiet_setEnv (fun _ => rfl) (fun _ => rfl) fun _ => rfl)
      fun _ => keeps_pure _

theorem quiet_eSetEnvCowEntry (envid cowEntry : Word) :
    Quiet (eSetEnvCowEntry envid cowEntry) :=
  keeps_bind (pages_envid2env _ _).quiet fun _ =>
    quiet_setEnv (fun _ => rfl) (fun _ => rfl) fun _ => rfl

end Kern

end RvMos
