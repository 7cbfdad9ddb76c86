/-
The privilege that environments return to.

`sret` takes the mode from bit `SPP` of the `sstatus` word in the frame that is
restored: the active frame for the running environment and `env_tf` for every
other one.  The words move through `env_run`, `e_exofork` and the upcall of a
store fault, and come from outside in two places: a trap stores the mode it
interrupted, and `e_set_trapframe` copies a frame of the caller.
-/
import RvMos.Kern.Messages

namespace RvMos

open Lib

/-- `1 << 8` of `sstatus`: the mode `sret` returns to. -/
def spp : Word := 1#32 <<< 8

/-- The frame returns to user mode. -/
def Trapframe.User (tf : Trapframe) : Prop := tf.sstatus &&& spp = 0#32

instance (tf : Trapframe) : Decidable tf.User :=
  inferInstanceAs (Decidable (tf.sstatus &&& spp = 0#32))

/-- The frame that will be restored for an environment. -/
def Kernel.restored (k : Kernel) (e : EnvIdx) : Trapframe :=
  if k.curenv = some e then k.active else (k.envs e).tf

/-- Every live environment returns to user mode. -/
def Kernel.UserMode (k : Kernel) : Prop :=
  ∀ e, (k.envs e).status ≠ .free → (k.restored e).User

/-- The invariant, which does not look at the status. -/
structure UserFrames (k : Kernel) : Prop where
  saved : ∀ e, (k.envs e).tf.User
  active : k.curenv ≠ none → k.active.User

theorem UserFrames.userMode {k : Kernel} (h : UserFrames k) : k.UserMode := by
  intro e _
  unfold Kernel.restored
  split
  · rename_i hc
    exact h.active (by rw [hc]; simp)
  · exact h.saved e

theorem UserFrames.congr {k k' : Kernel} (h : UserFrames k) (he : k'.envs = k.envs)
    (hc : k'.curenv = k.curenv) (ha : k'.active.sstatus = k.active.sstatus) : UserFrames k' := by
  refine ⟨fun e => by rw [he]; exact h.saved e, fun hne => ?_⟩
  unfold Trapframe.User
  rw [ha]
  exact h.active (hc ▸ hne)

theorem UserFrames.setEnv {k : Kernel} (h : UserFrames k) (e : EnvIdx) {f : Env → Env}
    (hf : (f (k.envs e)).tf.User) : UserFrames (k.setEnv e f) := by
  refine ⟨fun c => ?_, h.active⟩
  by_cases hc : c = e
  · rw [hc, Kernel.setEnv_self]
    exact hf
  · rw [Kernel.setEnv_of_ne f hc]
    exact h.saved c

/-! ## Procedures -/

/-- From user frames to user frames, in the same environment. -/
def StaysUser (k k' : Kernel) : Prop := (UserFrames k → UserFrames k') ∧ k'.curenv = k.curenv

instance : IsPreorder Kernel StaysUser where
  refl _ := ⟨id, rfl⟩
  trans _ _ _ h h' := ⟨h'.1 ∘ h.1, h'.2.trans h.2⟩

/-- A procedure that does not switch and makes no frame privileged. -/
abbrev KeepsUser {α : Type} (m : Kern α) : Prop := Sys.Keeps StaysUser (fun _ => True) m

theorem OnlyRegs.user {α : Type} {m : Kern α} (h : OnlyRegs m) : KeepsUser m := by
  refine Sys.keeps_mono ?_ (fun _ _ => trivial) h
  rintro k _ ⟨p, r, n, rfl⟩
  exact ⟨fun hu => hu.congr rfl rfl rfl, rfl⟩

theorem OnlyPages.user {α : Type} {m : Kern α} (h : OnlyPages m) : KeepsUser m :=
  h.regs.user

namespace Kern

open Sys

theorem user_setEnv {e : EnvIdx} {f : Env → Env} (hf : ∀ v, v.tf.User → (f v).tf.User) :
    KeepsUser (setEnv e f) :=
  keeps_modify fun _ => ⟨fun hu => hu.setEnv e (hf _ (hu.saved e)), rfl⟩

theorem user_modify {f : Kernel → Kernel} (he : ∀ k, (f k).envs = k.envs)
    (hc : ∀ k, (f k).curenv = k.curenv) (ha : ∀ k, (f k).active = k.active) :
    KeepsUser (modify f : Kern Unit) :=
  keeps_modify fun k => ⟨fun hu => hu.congr (he k) (hc k) (congrArg _ (ha k)), hc k⟩

theorem user_schedRemove (e : EnvIdx) : KeepsUser (schedRemove e) := by
  intro k
  refine wp_of (fun r k' hm => ?_) fun _ _ => trivial
  unfold schedRemove at hm
  split at hm
  · exact absurd hm (by simp)
  · obtain ⟨-, rfl⟩ := Prod.mk.inj (Except.ok.inj hm)
    exact ⟨fun hu => hu.congr rfl rfl rfl, rfl⟩

theorem user_schedInsertTail (e : EnvIdx) : KeepsUser (schedInsertTail e) := by
  intro k
  refine wp_of (fun r k' hm => ?_) fun _ _ => trivial
  unfold schedInsertTail at hm
  split at hm
  · exact absurd hm (by simp)
  · obtain ⟨-, rfl⟩ := Prod.mk.inj (Except.ok.inj hm)
    exact ⟨fun hu => hu.congr rfl rfl rfl, rfl⟩

theorem freshTf_user (tf : Trapframe) : (freshTf tf).User := by
  show ((1#32 <<< 1) ||| (1#32 <<< 18)) &&& spp = 0#32
  decide

theorem user_envSetupVm (e : EnvIdx) : KeepsUser (envSetupVm e) := by
  refine keeps_bind pages_pageAlloc.user fun p => ?_
  refine keeps_bind (keeps_modify fun k => ⟨fun hu => ?_, rfl⟩) fun _ => ?_
  · have hp : UserFrames (k.setPmap (k.pmap.incRef p)) := hu.congr rfl rfl rfl
    exact hp.setEnv e (hu.saved e)
  · refine keeps_bind (pages_setPmap _).user fun _ => ?_
    exact keeps_each (fun i => (pages_mapStacks p i).user) _

theorem user_asidAlloc : KeepsUser asidAlloc := by
  refine keeps_bind keeps_get fun k => ?_
  dsimp only
  split
  · exact keeps_throw _
  · exact keeps_bind (user_modify (fun _ => rfl) (fun _ => rfl) fun _ => rfl) fun _ => keeps_pure _

theorem user_envAlloc (parentId : Word) : KeepsUser (envAlloc parentId) := by
  refine keeps_bind keeps_get fun k => ?_
  cases k.envFreeList with
  | nil => exact keeps_throw _
  | cons e _ =>
    refine keeps_bind (user_envSetupVm e) fun _ => ?_
    refine keeps_bind (user_setEnv fun _ => id) fun _ => ?_
    refine keeps_bind (keeps_bind (user_modify (fun _ => rfl) (fun _ => rfl) fun _ => rfl)
      fun _ => keeps_bind keeps_get fun _ => keeps_pure _) fun id => ?_
    refine keeps_bind (user_setEnv fun _ h => h) fun _ => ?_
    refine keeps_bind user_asidAlloc fun i => ?_
    refine keeps_bind (user_setEnv fun v _ => freshTf_user v.tf) fun _ => ?_
    exact keeps_bind (user_modify (fun _ => rfl) (fun _ => rfl) fun _ => rfl) fun _ => keeps_pure _

theorem user_envCreate (prog : Program) (priority : Word) :
    KeepsUser (envCreate prog priority) := by
  refine keeps_bind (keeps_attempt (user_envAlloc _)) fun r => ?_
  cases r with
  | error _ => exact keeps_halt trivial
  | ok e =>
    refine keeps_bind (user_setEnv fun _ => id) fun _ => ?_
    refine keeps_bind (keeps_bind (keeps_attempt (pages_loadPages e _).user)
      fun r => ?_) fun _ => ?_
    · cases r with
      | error _ => exact keeps_halt trivial
      | ok _ => exact user_setEnv fun _ => id
    · exact keeps_bind (user_modify (fun _ => rfl) (fun _ => rfl) fun _ => rfl)
        fun _ => keeps_pure _

theorem user_envFree (e : EnvIdx) : KeepsUser (envFree e) := by
  refine keeps_bind keeps_get fun k => ?_
  refine keeps_bind (pages_dirOf _).user fun d => ?_
  refine keeps_bind (pages_onPmap fun _ _ hm =>
    Pmap.freeSpace_stop (error_of_map hm)).user fun _ => ?_
  refine keeps_bind keeps_get fun k => ?_
  refine keeps_bind (user_modify (fun _ => rfl) (fun _ => rfl) fun _ => rfl) fun _ => ?_
  refine keeps_bind (user_setEnv fun _ => id) fun _ => ?_
  refine keeps_bind (user_modify (fun _ => rfl) (fun _ => rfl) fun _ => rfl) fun _ => ?_
  exact user_schedRemove e

/-! ### Switches -/

variable {k : Kernel}

/-- `env_run` saves the active frame and restores a saved one. -/
theorem UserFrames.ran (h : UserFrames k) (e : EnvIdx) : UserFrames (ran k e) := by
  have hsaved : ∀ c, ((Kern.ran k e).envs c).tf.User := by
    intro c
    obtain ⟨n, hn⟩ := ran_envs k e c
    rw [hn]
    dsimp only
    split
    · rename_i hc
      exact h.active (by rw [hc]; simp)
    · exact h.saved c
  exact ⟨hsaved, fun _ => hsaved e⟩

theorem user_schedule (h : UserFrames k) (yield : Bool) :
    (schedule yield).wp (fun _ k' => UserFrames k') (fun _ => True) k := by
  refine wp_mono (schedule_ran yield k) (fun r k' hr => ?_) fun _ _ => trivial
  obtain ⟨-, q, n, e, -, rfl⟩ := hr
  refine UserFrames.ran ?_ e
  exact h.congr rfl rfl rfl

theorem user_envDestroy (h : UserFrames k) (e : EnvIdx) :
    (envDestroy e).wp (fun _ k' => UserFrames k') (fun _ => True) k := by
  unfold envDestroy
  refine wp_seq (user_envFree e k) (fun _ k₁ hk₁ => ?_) fun _ _ hk₁ => hk₁.1 h
  have h₁ := hk₁.1 h
  rw [wp_get_bind, wp_ite]
  refine ⟨fun _ => ?_, fun _ => wp_pure.mpr h₁⟩
  rw [wp_modify_bind]
  have h₂ : UserFrames { k₁ with curenv := none } := ⟨h₁.saved, fun hne => absurd rfl hne⟩
  exact wp_seq (user_schedule h₂ true) (fun _ _ h₃ => wp_pure.mpr h₃) fun _ _ h₃ => h₃

/-! ### System calls -/

/-- The child gets a copy of the active frame. -/
theorem user_eExofork (h : UserFrames k) :
    eExofork.wp (fun _ k' => UserFrames k') (fun _ => True) k := by
  unfold eExofork
  refine wp_seq (wp_mono (curenv_spec k) (fun _ _ hr => hr) fun _ _ => trivial)
    (fun c k₁ hk₁ => ?_) fun _ _ hk₁ => hk₁.1 ▸ h
  obtain ⟨rfl, c', -, hc⟩ := hk₁
  rw [wp_get_bind]
  refine wp_seq (user_envAlloc _ k₁) (fun e k₂ hk₂ => ?_) fun _ _ hk₂ => hk₂.1 h
  have h₂ := hk₂.1 h
  rw [wp_modify_bind, wp_get_bind, wp_pure]
  refine h₂.setEnv e ?_
  exact h₂.active (by rw [hk₂.2, hc]; simp)

theorem user_eSetEnvStatus (envid status : Word) : KeepsUser (eSetEnvStatus envid status) := by
  unfold eSetEnvStatus
  cases statusOf status with
  | none => exact keeps_throw _
  | some st =>
    refine keeps_bind (pages_envid2env _ _).user fun e => ?_
    refine keeps_bind keeps_get fun k => ?_
    refine keeps_bind ?_ fun _ => user_setEnv fun _ => id
    exact keeps_ite (user_schedRemove e) (keeps_ite (user_schedInsertTail e) (keeps_pure _))

theorem user_eSetEnvCowEntry (envid cowEntry : Word) :
    KeepsUser (eSetEnvCowEntry envid cowEntry) :=
  keeps_bind (pages_envid2env _ _).user fun _ => user_setEnv fun _ => id

/-- The frame of the caller must not be privileged. -/
theorem user_eSetTrapframe (h : UserFrames k) {envid va : Word} {tf : Trapframe}
    (htf : isIllegalVaRange va tfSize = false → k.target envid true ≠ none → tf.User) :
    (eSetTrapframe envid va tf).wp (fun _ k' => UserFrames k') (fun _ => True) k := by
  unfold eSetTrapframe
  rw [wp_ite]
  refine ⟨fun _ => wp_throw.mpr h, fun hva => ?_⟩
  refine wp_seq (wp_mono (envid2env_spec envid true k) (fun _ _ hr => hr) fun _ _ => trivial)
    (fun e k₁ hk₁ => ?_) fun _ _ hk₁ => hk₁.1 ▸ h
  obtain ⟨rfl, hres⟩ := hk₁
  have hu : tf.User := htf (Bool.eq_false_iff.mpr hva) (by rw [hres e rfl]; simp)
  rw [wp_get_bind, wp_ite]
  refine ⟨fun _ => ?_, fun _ => ?_⟩
  · rw [wp_modify_bind, wp_pure]
    exact ⟨h.saved, fun _ => hu⟩
  · simp only [setEnv, wp_modify_bind, wp_pure]
    exact h.setEnv e hu

theorem user_eIpcRecv (h : UserFrames k) (dstva : Word) :
    (eIpcRecv dstva).wp (fun _ k' => UserFrames k') (fun _ => True) k := by
  unfold eIpcRecv
  rw [wp_ite]
  refine ⟨fun _ => wp_throw.mpr h, fun _ => ?_⟩
  refine wp_seq (pages_curenv.user k) (fun c k₁ hk₁ => ?_) fun _ _ hk₁ => hk₁.1 h
  refine wp_seq (R := fun _ k₂ => StaysUser k₁ k₂) (user_setEnv (by simp) k₁)
    (fun _ k₂ hk₂ => ?_) fun _ _ hk₂ => hk₂.1 (hk₁.1 h)
  refine wp_seq (user_schedRemove c k₂) (fun _ k₃ hk₃ => ?_) fun _ _ hk₃ =>
    hk₃.1 (hk₂.1 (hk₁.1 h))
  rw [wp_modify_bind]
  refine user_schedule ?_ true
  exact (hk₃.1 (hk₂.1 (hk₁.1 h))).congr rfl rfl rfl

theorem user_eIpcTrySend (envid value srcva perm : Word) :
    KeepsUser (eIpcTrySend envid value srcva perm) := by
  refine keeps_ite (keeps_throw _) ?_
  refine keeps_bind (pages_envid2env _ _).user fun e => ?_
  refine keeps_bind keeps_get fun k => keeps_ite (keeps_throw _) ?_
  refine keeps_bind pages_curenv.user fun c => ?_
  refine keeps_bind (keeps_modify fun k => ⟨fun hu => hu.setEnv e (hu.saved e), rfl⟩) fun _ => ?_
  refine keeps_bind (user_schedInsertTail e) fun _ => keeps_ite ?_ (keeps_pure _)
  refine keeps_bind keeps_get fun k => ?_
  refine keeps_bind (pages_pageLookup _ _).user fun r => ?_
  cases r with
  | none => exact keeps_throw _
  | some x =>
    refine keeps_bind keeps_get fun k => ?_
    exact keeps_bind (keeps_attempt (pages_pageInsert _ _ _ _).user)
      fun _ => keeps_pure _

end Kern

/-! ## Events -/

/-- The bytes from `va` on are addresses below `UTOP`. -/
def UserRange (va : Word) (n : Nat) : Prop := ∀ i < n, va + BitVec.ofNat 32 i < utop

/-- No call hands the kernel a privileged frame, or a kernel address to write
through. -/
def Kernel.Unprivileged (k : Kernel) : Event → Prop
  | .trap _ (.ecall (.setTrapframe envid va tf)) =>
    Kern.isIllegalVaRange va Kern.tfSize = false → k.target envid true ≠ none → tf.User
  | .trap _ (.ecall (.getPgdir pde)) => UserRange pde 4
  | .trap _ (.ecall (.readDisk buf data)) => UserRange buf data.length
  | _ => True

/-- A trap of an environment stores the mode that the environment runs in, which
`sret` took from the frame that was restored for it. -/
def Kernel.TrapsFrom (k : Kernel) : Event → Prop
  | .trap tf _ => k.curenv ≠ none → tf.sstatus &&& spp = k.active.sstatus &&& spp
  | .create _ _ => True

namespace Kern

open Sys

variable {k : Kernel}

theorem wp_user_bind {α β : Type} {m : Kern α} {f : α → Kern β}
    (hm : m.wp (fun _ k' => UserFrames k') (fun _ => True) k) (hf : ∀ a, KeepsUser (f a)) :
    (m >>= f).wp (fun _ k' => UserFrames k') (fun _ => True) k :=
  wp_seq hm (fun a k₁ h => wp_conseq (hf a k₁) fun _ _ h' => h'.1 h) fun _ _ h => h

theorem wp_user {α : Type} {m : Kern α} (hm : KeepsUser m) (h : UserFrames k) :
    m.wp (fun _ k' => UserFrames k') (fun _ => True) k :=
  wp_conseq (hm k) fun _ _ h' => h'.1 h

theorem ecall_user {tf : Trapframe} {c : Ecall}
    (hgive : k.Unprivileged (.trap tf (.ecall c))) {a : Trapframe}
    (h' : UserFrames { k with active := a }) :
    (ecall c).wp (fun _ k' => UserFrames k') (fun _ => True) { k with active := a } := by
  cases c with
  | device ret => exact wp_user (keeps_pure _) h'
  | getenvid =>
    exact wp_user (keeps_bind pages_curenv.user fun _ => keeps_bind keeps_get fun _ =>
      keeps_pure _) h'
  | yield => exact wp_user_bind (user_schedule h' true) fun _ => keeps_pure _
  | envDestroy envid =>
    refine wp_user_bind ?_ fun b => keeps_ite (keeps_pure _) (keeps_pure _)
    refine wp_seq ((pages_envid2env envid true).user _) (fun e k₁ h₁ => ?_) fun _ _ h₁ => h₁.1 h'
    exact user_envDestroy (h₁.1 h') e
  | setEnvCowEntry envid cowEntry =>
    exact wp_user_bind (wp_user (user_eSetEnvCowEntry _ _) h') fun _ => keeps_pure _
  | memAlloc envid va perm =>
    exact wp_user_bind (wp_user (pages_eMemAlloc _ _ _).user h') fun _ => keeps_pure _
  | memMap srcid srcva dstid dstva perm =>
    exact wp_user_bind (wp_user (pages_eMemMap _ _ _ _ _).user h') fun _ => keeps_pure _
  | memUnmap envid va =>
    exact wp_user_bind (wp_user (pages_eMemUnmap _ _).user h') fun _ => keeps_pure _
  | exofork => exact wp_user_bind (user_eExofork h') fun _ => keeps_pure _
  | setEnvStatus envid status =>
    exact wp_user_bind (wp_user (user_eSetEnvStatus _ _) h') fun _ => keeps_pure _
  | setTrapframe envid va tf =>
    exact wp_user_bind (user_eSetTrapframe h' hgive) fun _ => keeps_pure _
  | panic => exact wp_halt.mpr trivial
  | ipcTrySend envid value srcva perm =>
    exact wp_user_bind (wp_user (user_eIpcTrySend _ _ _ _) h') fun _ => keeps_pure _
  | ipcRecv dstva => exact wp_user_bind (user_eIpcRecv h' dstva) fun _ => keeps_pure _
  | getPgdir pde => exact wp_user_bind (wp_user (pages_eGetPgdir _).user h') fun _ => keeps_pure _
  | readDisk buf data =>
    exact wp_user_bind (wp_user (pages_kernelStore _ _).user h') fun _ => keeps_pure _
  | getPgref v => exact wp_user_bind (wp_user (pages_eGetPgref _).user h') fun _ => keeps_pure _

theorem handle_user (h : UserFrames k) {tf : Trapframe} {t : Trap}
    (hgive : k.Unprivileged (.trap tf t)) (hfrom : k.TrapsFrom (.trap tf t)) :
    (handle tf t).wp (fun _ k' => UserFrames k') (fun _ => True) k := by
  have hany : ∀ a : Trapframe, a.sstatus = tf.sstatus → UserFrames { k with active := a } := by
    intro a ha
    refine ⟨h.saved, fun hne => ?_⟩
    show a.sstatus &&& spp = 0#32
    rw [ha, hfrom hne]
    exact h.active hne
  have h' : UserFrames { k with active := tf } := hany tf rfl
  unfold handle
  rw [wp_modify_bind]
  cases t with
  | ecall c =>
    show (doEcallFromU c).wp _ _ _
    unfold doEcallFromU
    rw [wp_modify_bind]
    refine wp_attempt_seq (ecall_user hgive (hany _ rfl)) fun r k₁ h₁ => ?_
    rcases r with e | v | _
    · exact wp_user (regs_setReg _ _).user h₁
    · exact wp_user (regs_setReg _ _).user h₁
    · exact wp_pure.mpr h₁
  | badEcall => exact wp_user (regs_setReg _ _).user h'
  | timer => exact user_schedule h' false
  | software => exact wp_pure.mpr h'
  | loadPage junk => exact wp_user (pages_doLoadPage junk).user h'
  | storePage => exact wp_user regs_doStorePage.user h'
  | instructionPage => exact wp_halt.mpr trivial
  | reserved => exact wp_halt.mpr trivial

end Kern

theorem exec_user {k : Kernel} {ev : Event} (h : UserFrames k) (hgive : k.Unprivileged ev)
    (hfrom : k.TrapsFrom ev) :
    (Kernel.exec ev).wp (fun _ k' => UserFrames k') (fun _ => True) k := by
  cases ev with
  | create prog priority =>
    exact Kern.wp_user_bind (Kern.wp_user (Kern.user_envCreate prog priority) h)
      fun _ => Sys.keeps_pure _
  | trap tf t => exact Kern.handle_user h hgive hfrom

/-! ## Runs -/

/-- The state after `env_init`, on static data that is all zero. -/
def PowerOn (k : Kernel) : Prop :=
  ∃ k₀ : Kernel, (∀ e, (k₀.envs e).tf = zeroTf) ∧ k₀.curenv = none ∧ k = k₀.envInit

theorem envInit_userFrames {k : Kernel} (h : UserFrames k) (es : List EnvIdx) :
    UserFrames (es.foldr Kernel.envInitRound k) := by
  induction es with
  | nil => exact h
  | cons e es ih =>
    rw [List.foldr_cons]
    refine ⟨fun c => ?_, ih.active⟩
    by_cases hc : c = e
    · simp only [Kernel.envInitRound, hc, Function.update_self]
      exact ih.saved e
    · simp only [Kernel.envInitRound, Function.update_of_ne hc]
      exact ih.saved c

theorem PowerOn.userFrames {k : Kernel} (h : PowerOn k) : UserFrames k := by
  obtain ⟨k₀, htf, hcur, hk⟩ := h
  rw [hk, Kernel.envInit]
  generalize List.finRange 1024 = es
  refine envInit_userFrames ?_ es
  refine ⟨fun e => ?_, fun hne => absurd hcur hne⟩
  show (k₀.envs e).tf.User
  rw [htf e]
  decide

/-- Programs are loaded, started and copy frames over their own; only user frames
where `low` is set. -/
def copiesOnly (low : Bool) (ev : Event) (k : Kernel) : Option Kernel :=
  match ev with
  | .create _ _ | .trap _ .timer => if k.curenv = none then Kernel.next ev k else none
  | .trap a (.ecall (.setTrapframe _ _ b)) =>
    if (low → b.User) ∧ a.sstatus &&& spp = k.active.sstatus &&& spp then Kernel.next ev k
    else none
  | _ => none

theorem trapsFrom_of_copiesOnly {low : Bool} (ev : Event) (k k' : Kernel)
    (h : copiesOnly low ev k = some k') :
    (low → k.Unprivileged ev) ∧ k.TrapsFrom ev ∧ k.Step ev k' := by
  unfold copiesOnly at h
  split at h
  · split at h
    · exact ⟨fun _ => trivial, trivial, Kernel.step_of_next _ k k' h⟩
    · exact absurd h (by simp)
  · split at h
    · rename_i hc
      exact ⟨fun _ => trivial, fun hne => absurd hc hne, Kernel.step_of_next _ k k' h⟩
    · exact absurd h (by simp)
  · split at h
    · rename_i hc
      exact ⟨fun hlow _ _ => hc.1 hlow, fun _ => hc.2, Kernel.step_of_next _ k k' h⟩
    · exact absurd h (by simp)
  · exact absurd h (by simp)

end RvMos
