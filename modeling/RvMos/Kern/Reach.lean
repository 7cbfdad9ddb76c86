/-
Orderly runs.

A run is orderly when its programs fit below `UTOP`, its calls name live
environments, map frames with permission words that have no stray address bit
and do not overflow a counter, and its page faults bring in pages below `UTOP`
only.  All events of the kernel are allowed, those that create and destroy
environments included, and `Run.orderly` says that the page structures of such a
run are those of a forest with one directory for each live environment.

The condition on a step is a condition on the state before it and on the
arguments of the event.  Runs that are not orderly reach the defects of the
kernel: an identifier that names no live environment, a counter of sixteen bits,
a fault above `UTOP`, an address bit in a permission word.
-/
import RvMos.Kern.Destroy
import RvMos.Kern.Counters

namespace RvMos

open Lib

/-! ## Orderly events -/

/-- A load fault of an environment with directory `d`: a page is there, or one is
brought in below `UTOP` with flags for its permissions; and when the window on the
page tables is filled, the counters of the tables have room. -/
def Kernel.OrderlyLoad (k : Kernel) (d : Frame) (va : Word) (junk : Option Word) : Prop :=
  if va < uvpt ∨ ulim ≤ va then
    entryFrame (k.pmap.pteOf d va) = none → va < utop ∧ ∀ w, junk = some w → FlagOnly w
  else
    (∀ i t, k.pmap.tableOf d i = some t → (k.pmap.ppRef t).toNat ≤ 64000) ∧
      (k.pmap.ppRef d).toNat ≤ 64000

def Kernel.Orderly (k : Kernel) : Event → Prop
  | .create prog _ => Kern.Program.Fits prog
  | .trap tf (.ecall (.memAlloc envid va perm)) =>
    k.Countable (.trap tf (.ecall (.memAlloc envid va perm))) ∧
      ∀ pp ∈ k.pmap.pageFreeList.head?, NoStray perm pp
  | .trap tf (.ecall (.memMap srcid srcva dstid dstva perm)) =>
    k.Countable (.trap tf (.ecall (.memMap srcid srcva dstid dstva perm))) ∧
      ∀ src d pp, k.target srcid true = some src → (k.envs src).pgdir = some d →
        entryFrame (k.pmap.pteOf d srcva) = some pp → NoStray perm pp
  | .trap tf (.ecall (.ipcTrySend envid value srcva perm)) =>
    k.Countable (.trap tf (.ecall (.ipcTrySend envid value srcva perm))) ∧
      ∀ e c d pp, k.target envid false = some e → (k.envs e).ipcRecving ≠ 0#32 →
        k.curenv = some c → (k.envs c).pgdir = some d →
        entryFrame (k.pmap.pteOf d srcva) = some pp → NoStray perm pp
  | .trap tf (.loadPage junk) => ∀ c d, k.curenv = some c → (k.envs c).pgdir = some d →
    k.OrderlyLoad d tf.stval junk
  | .trap tf .storePage => ∀ c d, k.curenv = some c → (k.envs c).pgdir = some d →
    entryFrame (k.pmap.pteOf d tf.stval) = none → tf.stval < utop
  | ev => k.Countable ev

/-- The kernel as an orderly run leaves it. -/
structure Ordered (k : Kernel) : Prop where
  life : LifeInv k
  spaces : Consistent k

theorem Ordered.not_live {k : Kernel} (h : Ordered k) : ∀ e ∈ k.envFreeList, ¬k.Live e :=
  fun e he hl => hl ((h.life.mem_free e).mp he)

theorem Consistent.active {k : Kernel} (h : Consistent k) (a : Trapframe) :
    Consistent { k with active := a } :=
  h.imp fun _ hL => hL.congr rfl rfl rfl rfl rfl

/-- The page structures of `k'` are those of a forest in which directories have
come and gone. -/
def Kernel.Continues (k : Kernel) (L : Layout) (k' : Kernel) : Prop :=
  ∃ L', k.Grown L L' ∧ Spaces L' k'

theorem Kernel.Continues.same {L : Layout} {k k' : Kernel} (h : Spaces L k') : k.Continues L k' :=
  ⟨L, fun _ _ => .inl, h⟩

theorem Kernel.Continues.active {L : Layout} {k k' : Kernel} (h : k.Continues L k')
    (a : Trapframe) : k.Continues L { k' with active := a } := by
  obtain ⟨L', hg, hL'⟩ := h
  exact ⟨L', hg, hL'.congr rfl rfl rfl rfl rfl⟩

namespace Kern

open Sys

section Faults

variable {L : Layout} {k : Kernel} {c : EnvIdx} {d : Frame}

theorem doLoadPage_spaces (h : Spaces L k) (hc : k.curenv = some c)
    (hd : (k.envs c).pgdir = some d) {junk : Option Word}
    (hok : k.OrderlyLoad d k.active.stval junk) :
    (doLoadPage junk).wp (fun _ k' => Spaces L k') (fun _ => True) k := by
  have hlive := (h.cur c hc).1
  obtain ⟨d', hd', hdir, huser⟩ := h.dir c hlive
  obtain rfl := Option.some.inj (hd.symm.trans hd')
  unfold doLoadPage
  rw [wp_get_bind]
  generalize k.active.stval = va at hok ⊢
  unfold Kernel.OrderlyLoad at hok
  have hmapped : va < uvpt ∨ ulim ≤ va →
      (loadMapped junk va).wp (fun _ k' => Spaces L k') (fun _ => True) k := by
    intro hva
    rw [if_pos hva] at hok
    refine wp_conseq (loadMapped_change h hc hd hok) ?_
    rintro _ _ ⟨p, rfl, hre | ⟨hlt, hed⟩⟩
    · exact h.setPmap (Pmap.kept_reflag h.inv hdir huser (by decide) (by decide) hre)
    · exact h.setPmap (hed.kept h.inv hdir (huser.own _ (personal_of_lt (rounddown_lt hlt))))
  rw [wp_ite]
  refine ⟨fun _ => wp_halt.mpr trivial, fun _ => ?_⟩
  rw [wp_ite]
  refine ⟨fun hlow => hmapped (.inl hlow), fun hhigh => ?_⟩
  rw [wp_ite]
  refine ⟨fun hul => ?_, fun hul => hmapped (.inr (BitVec.not_lt.mp hul))⟩
  rw [if_neg (not_or.mpr ⟨hhigh, BitVec.not_le.mpr hul⟩)] at hok
  refine wp_conseq (loadVpt_window h hc hd (huser.own _ (.inr rfl)) hok.1 hok.2) ?_
  rintro _ _ ⟨p, n, rfl, hw⟩
  exact h.setPmap hw.kept

theorem doStorePage_spaces (h : Spaces L k) (hc : k.curenv = some c)
    (hd : (k.envs c).pgdir = some d)
    (hok : entryFrame (k.pmap.pteOf d k.active.stval) = none → k.active.stval < utop) :
    doStorePage.wp (fun _ k' => Spaces L k') (fun _ => True) k := by
  obtain ⟨d', hd', hdir, huser⟩ := h.dir c (h.cur c hc).1
  obtain rfl := Option.some.inj (hd.symm.trans hd')
  have hframe : ∀ {p : Pmap} (a : Trapframe), Pmap.Kept L k.pmap p → Spaces L (k.faulted p a) :=
    fun a hk => (h.setPmap hk).congr rfl rfl rfl rfl rfl
  refine wp_conseq (doStorePage_change h hc hd hok) ?_
  rintro _ _ ⟨p, a, rfl, hw | ⟨-, hre⟩ | ⟨hlt, hed⟩⟩
  · exact hframe a hw.kept
  · exact hframe a (Pmap.kept_reflag h.inv hdir huser (by decide) (by decide) hre)
  · exact hframe a (hed.kept h.inv hdir (huser.own _ (personal_of_lt (rounddown_lt hlt))))

/-- Bytes that the kernel writes for the running environment. -/
theorem kernelStore_spaces (h : Spaces L k) (hc : k.curenv = some c) (va : Word)
    (bs : List (BitVec 8)) :
    (kernelStore va bs).wp (fun _ k' => Spaces L k') (fun _ => True) k := by
  refine wp_conseq (kernelStore_written bs h hc va) ?_
  rintro _ _ ⟨p, rfl, hw⟩
  exact h.setPmap hw.kept

end Faults

section Calls

variable {L : Layout} {k : Kernel} {e : EnvIdx}

theorem schedRemove_queue (e : EnvIdx) (k : Kernel) :
    (schedRemove e).wp (fun _ k' => SameButQueue k k') (fun _ => True) k := by
  refine wp_of (fun r k' hm => ?_) fun _ _ => trivial
  unfold schedRemove at hm
  split at hm
  · exact absurd hm (by simp)
  · exact ⟨_, (Prod.mk.inj (Except.ok.inj hm)).2.symm⟩

theorem schedInsertTail_queue (e : EnvIdx) (k : Kernel) :
    (schedInsertTail e).wp (fun _ k' => SameButQueue k k') (fun _ => True) k := by
  refine wp_of (fun r k' hm => ?_) fun _ _ => trivial
  unfold schedInsertTail at hm
  split at hm
  · exact absurd hm (by simp)
  · exact ⟨_, (Prod.mk.inj (Except.ok.inj hm)).2.symm⟩

theorem requeue_queue (e : EnvIdx) (old st : EnvStatus) (k : Kernel) :
    (requeue e old st).wp (fun _ k' => SameButQueue k k') (fun _ => True) k := by
  unfold requeue
  rw [wp_ite, wp_ite]
  exact ⟨fun _ => schedRemove_queue e k, fun _ => ⟨fun _ => schedInsertTail_queue e k, fun _ =>
    wp_pure.mpr ⟨k.envSchedList, rfl⟩⟩⟩

theorem statusOf_ne_free {status : Word} {st : EnvStatus} (h : statusOf status = some st) :
    st ≠ .free := by
  unfold statusOf at h
  split at h
  · rw [← Option.some.inj h]
    simp
  · split at h
    · rw [← Option.some.inj h]
      simp
    · exact absurd h (by simp)

theorem eSetEnvStatus_spaces (h : Spaces L k) {envid status : Word}
    (hlive : ∀ st, statusOf status = some st → ∀ e, k.target envid true = some e → k.Live e) :
    (eSetEnvStatus envid status).wp (fun _ k' => Spaces L k') (fun _ => True) k := by
  unfold eSetEnvStatus
  cases hst : statusOf status with
  | none => exact wp_throw.mpr h
  | some st =>
    refine wp_seq (wp_mono (wp_target (Q := fun r k' => k' = k ∧
      ∀ e, r = .ok e → k.target envid true = some e)
      (fun e he => ⟨rfl, fun e' he' => Except.ok.inj he' ▸ he⟩)
      fun _ => ⟨rfl, fun _ he => absurd he (by simp)⟩) (fun _ _ hr => hr) fun _ _ => trivial)
      (fun e k₁ h₁ => ?_) fun _ _ h₁ => h₁.1 ▸ h
    obtain ⟨rfl, he⟩ := h₁
    have hle := hlive st hst e (he e rfl)
    rw [wp_get_bind]
    have hqueue : ∀ q, Spaces L { k₁ with envSchedList := q } := fun q =>
      h.congr rfl rfl rfl rfl rfl
    refine wp_seq (requeue_queue e _ st k₁) (fun _ k₂ h₂ => ?_) fun _ _ h₂ => ?_
    · obtain ⟨q, rfl⟩ := h₂
      exact wp_modify.mpr ((hqueue q).setEnv e rfl ⟨fun _ => hle, fun _ => statusOf_ne_free hst⟩
        fun hr => (hqueue q).recv e hr)
    · obtain ⟨q, rfl⟩ := h₂
      exact hqueue q

/-- A change of one environment that its address space does not see. -/
theorem setEnv_spaces (h : Spaces L k) {f : Env → Env} (hd : ∀ v, (f v).pgdir = v.pgdir)
    (hst : ∀ v, (f v).status = v.status) (hr : ∀ v, (f v).ipcRecving = v.ipcRecving)
    (hdst : ∀ v, (f v).ipcDstva = v.ipcDstva) : Spaces L (k.setEnv e f) := by
  refine h.setEnv e (hd _) ?_ fun hrecv => ?_
  · rw [hst]
    exact Iff.rfl
  · rw [hr] at hrecv
    rw [hdst]
    exact h.recv e hrecv

theorem eSetEnvCowEntry_spaces (h : Spaces L k) (envid cowEntry : Word) :
    (eSetEnvCowEntry envid cowEntry).wp (fun _ k' => Spaces L k') (fun _ => True) k := by
  unfold eSetEnvCowEntry
  rw [wp_bind]
  refine wp_mono (wp_target (fun e _ => ?_) fun _ => h) (fun _ _ hr => hr) fun _ _ => trivial
  exact wp_modify.mpr (setEnv_spaces h (fun _ => rfl) (fun _ => rfl) (fun _ => rfl) fun _ => rfl)

theorem eSetTrapframe_spaces (h : Spaces L k) (envid va : Word) (tf : Trapframe) :
    (eSetTrapframe envid va tf).wp (fun _ k' => Spaces L k') (fun _ => True) k := by
  unfold eSetTrapframe
  rw [wp_ite]
  refine ⟨fun _ => wp_throw.mpr h, fun _ => ?_⟩
  rw [wp_bind]
  refine wp_mono (wp_target (fun e _ => ?_) fun _ => h) (fun _ _ hr => hr) fun _ _ => trivial
  simp only
  rw [wp_get_bind, wp_ite]
  refine ⟨fun _ => ?_, fun _ => ?_⟩
  · exact wp_modify_bind.mpr (wp_pure.mpr (h.congr rfl rfl rfl rfl rfl))
  · exact wp_modify_bind.mpr (wp_pure.mpr
      (setEnv_spaces h (fun _ => rfl) (fun _ => rfl) (fun _ => rfl) fun _ => rfl))

theorem eGetPgdir_spaces (h : Spaces L k) (pde : Word) :
    (eGetPgdir pde).wp (fun _ k' => Spaces L k') (fun _ => True) k := by
  unfold eGetPgdir
  rw [wp_get_bind]
  cases hc : k.curenv with
  | none => exact wp_throw.mpr h
  | some c =>
    rw [wp_get_bind]
    unfold dirOf
    cases k.curPgdir with
    | none => exact wp_halt.mpr trivial
    | some d => exact kernelStore_spaces h hc _ _

end Calls

end Kern

/-! ## All events -/

namespace Kern

open Sys

section Calls

variable {L : Layout} {k : Kernel}

/-- A call keeps the forest, up to the directory that it adds or gives back. -/
theorem wp_continues {α : Type} {m : Kern α} {f : α → Kern Ret} {E : Halt → Prop} {k₀ : Kernel}
    (hm : m.wp (fun _ k' => Spaces L k') E k) (hf : ∀ a k, ∃ r, f a k = .ok (.ok r, k)) :
    (m >>= f).wp (fun _ k' => k₀.Continues L k') (fun _ => True) k := by
  refine wp_seq (wp_mono hm (fun _ _ hk => hk) fun _ _ => trivial) (fun a k' hk => ?_)
    fun _ _ hk => .same hk
  refine wp_of (fun r k'' hr => ?_) fun _ _ => trivial
  obtain ⟨r', hr'⟩ := hf a k'
  rw [hr'] at hr
  rw [← (Prod.mk.inj (Except.ok.inj hr)).2]
  exact .same hk

theorem ecall_orderly (h : Ordered k) (hL : Spaces L k) {tf : Trapframe} {c : Ecall}
    (hcur : k.curenv ≠ none) (hcare : k.Careful (.trap tf (.ecall c)))
    (hord : k.Orderly (.trap tf (.ecall c))) (a : Trapframe) :
    (ecall c).wp (fun _ k' => k.Continues L k') (fun _ => True) { k with active := a } := by
  have h' : Spaces L { k with active := a } := hL.congr rfl rfl rfl rfl rfl
  have hret : ∀ {α : Type} (g : α → Ret) (x : α) (k : Kernel),
      ∃ r, (pure (g x) : Kern Ret) k = .ok (.ok r, k) := fun g x _ => ⟨g x, rfl⟩
  cases c with
  | device ret => exact wp_pure.mpr (.same h')
  | getenvid =>
    refine wp_continues (wp_conseq (curenv_spec _) fun _ _ hk => hk.1 ▸ h') fun c k => ?_
    exact ⟨_, rfl⟩
  | yield => exact wp_continues (schedule_spaces h' true) (hret _)
  | envDestroy envid =>
    refine wp_seq (R := fun _ k' => k.Continues L k') ?_ (fun b k' hk => ?_) fun _ _ hk => hk
    · unfold eEnvDestroy
      rw [wp_bind]
      refine wp_mono (wp_target (fun e he => ?_) fun _ => .same h') (fun _ _ hk => hk)
        fun _ _ => trivial
      have hrun : (k.envs e).status = .runnable := hcare e he
      have hlive : k.Live e := Kernel.live_of_status hrun (by simp)
      have hrecv : (k.envs e).ipcRecving = 0#32 := by
        by_contra hne
        have hst := h.life.recving e hne
        exact absurd (hrun.symm.trans hst) (by simp)
      exact wp_mono (envDestroy_spaces h' hlive hrecv) (fun _ _ hk => hk) fun _ _ => trivial
    · exact wp_ite.mpr ⟨fun _ => wp_pure.mpr hk, fun _ => wp_pure.mpr hk⟩
  | setEnvCowEntry envid cowEntry =>
    exact wp_continues (eSetEnvCowEntry_spaces h' _ _) (hret _)
  | memAlloc envid va perm =>
    refine wp_continues (L := L) (E := (· = .wild)) (wp_conseq (eMemAlloc_edit h' hord.2 hord.1) ?_) (hret _)
    exact fun _ _ hk => hk.spaces h'
  | memMap srcid srcva dstid dstva perm =>
    refine wp_continues (L := L) (E := (· = .wild)) (wp_conseq
      (eMemMap_edit h' hord.2 hord.1.1 hord.1.2.1 hord.1.2.2) ?_) (hret _)
    exact fun _ _ hk => hk.spaces h'
  | memUnmap envid va =>
    refine wp_continues (L := L) (E := (· = .wild)) (wp_conseq (eMemUnmap_edit h' hord) ?_) (hret _)
    exact fun _ _ hk => hk.spaces h'
  | exofork =>
    refine wp_seq (R := fun _ k' => k.Continues L k') ?_ (fun b k' hk => wp_pure.mpr hk)
      fun _ _ hk => hk
    exact wp_mono (eExofork_spaces h' h.not_live) (fun _ _ hk => hk.1) fun _ _ => trivial
  | setEnvStatus envid status =>
    refine wp_continues (eSetEnvStatus_spaces h' fun st hst e he => ?_) (hret _)
    exact (hcare st hst e he).1
  | setTrapframe envid va tf => exact wp_continues (eSetTrapframe_spaces h' _ _ _) (hret _)
  | panic => exact wp_halt.mpr trivial
  | ipcTrySend envid value srcva perm =>
    refine wp_continues (L := L) (E := (· = .wild)) (wp_conseq (eIpcTrySend_edit h' hord.2 hord.1)
      fun _ k' hk' => ?_) (hret _)
    rcases hk' with rfl | ⟨e, c, q, -, -, -, hsp, hed⟩
    · exact h'
    · exact hed.spaces hsp
  | ipcRecv dstva => exact wp_continues (eIpcRecv_spaces h' dstva) (hret _)
  | getPgdir pde => exact wp_continues (eGetPgdir_spaces h' pde) (hret _)
  | readDisk buf data =>
    obtain ⟨c, hc⟩ := Option.ne_none_iff_exists'.mp hcur
    exact wp_continues (kernelStore_spaces h' hc buf data) (hret _)
  | getPgref v =>
    refine wp_seq (R := fun _ k' => k.Continues L k') ?_ (fun b k' hk => wp_pure.mpr hk)
      fun _ _ hk => hk
    unfold eGetPgref
    cases addr2page v with
    | none => exact wp_halt.mpr trivial
    | some pp =>
      simp only
      rw [wp_get_bind]
      exact wp_pure.mpr (.same h')

end Calls

end Kern

theorem exec_orderly {L : Layout} {k : Kernel} {ev : Event} (h : Ordered k) (hL : Spaces L k)
    (hen : k.Enabled ev)
    (hcare : k.Careful ev) (hord : k.Orderly ev) :
    (Kernel.exec ev).wp (fun _ k' => k.Continues L k') (fun _ => True) k := by
  have hany : ∀ a, Spaces L { k with active := a } := fun a => hL.congr rfl rfl rfl rfl rfl
  cases ev with
  | create prog priority =>
    refine Sys.wp_seq (R := fun _ k' => k.Continues L k') ?_ (fun _ _ hk => Sys.wp_pure.mpr hk)
      fun _ _ hk => hk
    exact Sys.wp_mono (Kern.envCreate_spaces hL h.not_live hord priority) (fun _ _ hk => hk.1)
      fun _ _ => trivial
  | trap tf t =>
    cases t with
    | ecall c =>
      exact Kern.wp_handle_ecall tf (fun _ a h => h.active a)
        (Kern.ecall_orderly h hL hen hcare hord)
    | badEcall =>
      refine Sys.wp_modify_bind.mpr (Sys.wp_modify.mpr ?_)
      exact .same (hL.congr rfl rfl rfl rfl rfl)
    | timer =>
      refine Sys.wp_modify_bind.mpr (Sys.wp_mono (Kern.schedule_spaces (hany tf) false)
        (fun _ _ hk => .same hk) fun _ _ => trivial)
    | software => exact Sys.wp_modify_bind.mpr (Sys.wp_pure.mpr (.same (hany tf)))
    | loadPage junk =>
      obtain ⟨c, hc⟩ := Option.ne_none_iff_exists'.mp hen
      obtain ⟨d, hd, -⟩ := hL.dir c (hL.cur c hc).1
      refine Sys.wp_modify_bind.mpr (Sys.wp_conseq (Kern.doLoadPage_spaces (hany tf) hc hd
        (hord c d hc hd)) fun _ _ hk => .same hk)
    | storePage =>
      obtain ⟨c, hc⟩ := Option.ne_none_iff_exists'.mp hen
      obtain ⟨d, hd, -⟩ := hL.dir c (hL.cur c hc).1
      refine Sys.wp_modify_bind.mpr (Sys.wp_conseq (Kern.doStorePage_spaces (hany tf) hc hd
        (hord c d hc hd)) fun _ _ hk => .same hk)
    | instructionPage => exact Sys.wp_modify_bind.mpr (Sys.wp_halt.mpr trivial)
    | reserved => exact Sys.wp_modify_bind.mpr (Sys.wp_halt.mpr trivial)

/-! ## Runs -/

/-- What the boot code leaves: the page structures are those of a forest without
directories of environments, `base_pgdir` is a template in it, and the rest is
static data. -/
def Started (k : Kernel) : Prop :=
  ∃ (k₀ : Kernel) (L : Layout), k₀.pmap.Inv L ∧ Template L k₀.pmap k₀.basePgdir ∧
    (∀ e, (k₀.envs e).ipcRecving = 0#32) ∧ (∀ e, (k₀.envs e).id = 0#32) ∧
    k₀.idCount = 0#32 ∧ k₀.curenv = none ∧ k = k₀.envInit

/-- An event that the kernel survives, under the conditions above. -/
def Kernel.OrderlyStep (k : Kernel) (ev : Event) (k' : Kernel) : Prop :=
  k.Careful ev ∧ k.Orderly ev ∧ k.Step ev k'

theorem Started.ordered {k : Kernel} (h : Started k) : Ordered k := by
  obtain ⟨k₀, L, hI, ht, hrec, -, -, hcur, hk⟩ := h
  have hboot : Booted k₀.envInit := ⟨k₀, hrec, rfl⟩
  rw [hk]
  exact ⟨hboot.life, L, Spaces.envInit hI ht hrec hcur⟩

theorem Ordered.step {k k' : Kernel} {ev : Event} (h : Ordered k) (hs : k.OrderlyStep ev k') :
    Ordered k' := by
  obtain ⟨hcare, hord, hen, r, hr⟩ := hs
  obtain ⟨L, hL⟩ := h.spaces
  obtain ⟨L', -, hL'⟩ := Sys.wp_ok (exec_orderly h hL hen hcare hord) hr
  exact ⟨Sys.wp_ok (exec_life h.life hcare) hr, L', hL'⟩

/-- In every orderly run the kernel is consistent. -/
theorem Ordered.of_run {h : List Event} {k : Kernel}
    (hrun : Run Started Kernel.OrderlyStep h k) : Ordered k :=
  Run.invariant (I := fun _ k => Ordered k) (fun _ h0 => h0.ordered)
    (fun _ _ _ _ hk hs => hk.step hs) hrun

/-! ## Orderly runs that compute -/

/-- All environments that an identifier may name are live. -/
def Kernel.allLive (k : Kernel) (envid : Word) (checkperm : Bool) : Bool :=
  (k.target envid checkperm).all fun e => (k.envs e).status ≠ .free

theorem Kernel.live_of_allLive {k : Kernel} {envid : Word} {checkperm : Bool}
    (h : k.allLive envid checkperm = true) :
    ∀ e, k.target envid checkperm = some e → k.Live e := by
  intro e he
  unfold allLive at h
  rw [he, Option.all_some] at h
  have hst : (k.envs e).status ≠ .free := of_decide_eq_true h
  exact hst

/-- The frame at an address of an environment has a counter with room. -/
def Kernel.roomAt (k : Kernel) (e : Option EnvIdx) (va : Word) : Bool :=
  ((e.bind fun e => (k.envs e).pgdir).bind fun d => entryFrame (k.pmap.pteOf d va)).all fun pp =>
    (k.pmap.ppRef pp).toNat < 65535

theorem Kernel.room_of_roomAt {k : Kernel} {e : EnvIdx} {va : Word} {d pp : Frame}
    (h : k.roomAt (some e) va = true) (hd : (k.envs e).pgdir = some d)
    (hpp : entryFrame (k.pmap.pteOf d va) = some pp) (pgdir : Option Frame) (va' : Word) :
    k.pmap.Room pgdir pp va' := by
  intro _ _ _
  unfold roomAt at h
  rw [Option.bind_some, hd, Option.bind_some, hpp, Option.all_some] at h
  exact of_decide_eq_true h

/-- Events for which the conditions can be computed. -/
def Kernel.orderly (k : Kernel) : Event → Bool
  | .create prog _ => prog.pages.all fun pg => pg.va < utop ∧ FlagOnly pg.perm
  | .trap _ (.ecall (.memAlloc envid _ perm)) => FlagOnly perm && k.allLive envid true
  | .trap _ (.ecall (.memMap srcid srcva dstid _ perm)) =>
    FlagOnly perm && k.allLive srcid true && k.allLive dstid false &&
      k.roomAt (k.target srcid true) srcva
  | .trap _ (.ecall (.memUnmap envid _)) => k.allLive envid true
  | .trap _ (.ecall (.ipcTrySend _ _ srcva perm)) => FlagOnly perm && k.roomAt k.curenv srcva
  | .trap _ (.ecall (.ipcRecv _)) => k.curenv.all fun c => (k.envs c).status = .runnable
  | .trap _ (.ecall (.envDestroy envid)) =>
    (k.target envid true).all fun e => (k.envs e).status = .runnable
  | .trap _ (.ecall (.setEnvStatus envid _)) =>
    (k.target envid true).all fun e => (k.envs e).status ≠ .free ∧ (k.envs e).ipcRecving = 0#32
  | .trap _ (.loadPage _) => false
  | .trap tf .storePage => tf.stval < utop
  | _ => true

def Kernel.orderlyNext (ev : Event) (k : Kernel) : Option Kernel :=
  if k.orderly ev then Kernel.next ev k else none

theorem Kernel.orderly_sound {k : Kernel} {ev : Event} (h : k.orderly ev = true) :
    k.Careful ev ∧ k.Orderly ev := by
  cases ev with
  | create prog priority =>
    exact ⟨trivial, fun pg hpg => of_decide_eq_true (List.all_eq_true.mp h pg hpg)⟩
  | trap tf t =>
    cases t with
    | ecall c =>
      cases c with
      | memAlloc envid va perm =>
        obtain ⟨hfl, hl⟩ := Bool.and_eq_true_iff.mp h
        exact ⟨trivial, live_of_allLive hl, fun pp _ => FlagOnly.noStray (of_decide_eq_true hfl) pp⟩
      | memMap srcid srcva dstid dstva perm =>
        obtain ⟨h, hroom⟩ := Bool.and_eq_true_iff.mp h
        obtain ⟨h, hdst⟩ := Bool.and_eq_true_iff.mp h
        obtain ⟨hfl, hsrc⟩ := Bool.and_eq_true_iff.mp h
        refine ⟨trivial, ⟨live_of_allLive hsrc, live_of_allLive hdst,
          fun src dst d pp hs _ hd hf => ?_⟩,
          fun _ _ pp _ _ _ => FlagOnly.noStray (of_decide_eq_true hfl) pp⟩
        rw [hs] at hroom
        exact room_of_roomAt hroom hd hf _ _
      | memUnmap envid va => exact ⟨trivial, live_of_allLive h⟩
      | ipcTrySend envid value srcva perm =>
        obtain ⟨hfl, hroom⟩ := Bool.and_eq_true_iff.mp h
        refine ⟨trivial, fun e c d pp _ _ hc hd hf => ?_, fun _ _ _ pp _ _ _ _ _ =>
          FlagOnly.noStray (of_decide_eq_true hfl) pp⟩
        rw [hc] at hroom
        exact room_of_roomAt hroom hd hf _ _
      | ipcRecv dstva =>
        refine ⟨fun _ c hc => ?_, trivial⟩
        have h : (k.curenv.all fun c => (k.envs c).status = .runnable) = true := h
        rw [hc, Option.all_some] at h
        exact of_decide_eq_true h
      | envDestroy envid =>
        refine ⟨fun e he => ?_, trivial⟩
        have h : ((k.target envid true).all fun e => (k.envs e).status = .runnable) = true := h
        rw [he, Option.all_some] at h
        exact of_decide_eq_true h
      | setEnvStatus envid status =>
        refine ⟨fun _ _ e he => ?_, trivial⟩
        have h : ((k.target envid true).all fun e =>
          (k.envs e).status ≠ .free ∧ (k.envs e).ipcRecving = 0#32) = true := h
        rw [he, Option.all_some] at h
        have hboth := of_decide_eq_true h
        exact ⟨hboth.1, fun _ => hboth.2⟩
      | _ => exact ⟨trivial, trivial⟩
    | loadPage junk => exact absurd h (by simp [orderly])
    | storePage => exact ⟨trivial, fun _ _ _ _ _ => of_decide_eq_true h⟩
    | _ => exact ⟨trivial, trivial⟩

theorem Kernel.orderlyStep_of_next (ev : Event) (k k' : Kernel)
    (h : Kernel.orderlyNext ev k = some k') : k.OrderlyStep ev k' := by
  unfold orderlyNext at h
  split at h
  · rename_i hord
    obtain ⟨hcare, hord⟩ := orderly_sound hord
    exact ⟨hcare, hord, step_of_next ev k k' h⟩
  · exact absurd h (by simp)

/-- The word that a call returns, with the state after it. -/
def Kern.returned (c : Kern.Ecall) (k : Kernel) : Option (Word × Kernel) :=
  match Kern.ecall c k with
  | .ok (.ok (.value v), k') => some (v, k')
  | _ => none

theorem Kern.ecall_of_returned {c : Kern.Ecall} {k k' : Kernel} {v : Word}
    (h : Kern.returned c k = some (v, k')) : Kern.ecall c k = .ok (.ok (.value v), k') := by
  unfold returned at h
  split at h
  · rename_i hr
    obtain ⟨rfl, rfl⟩ := Prod.mk.inj (Option.some.inj h)
    exact hr
  · exact absurd h (by simp)

/-- The page that `page_lookup` finds. -/
def Pmap.pageFound (s : Pmap) (d : Frame) (va : Word) : Option (Frame × PtePtr) :=
  (s.pageLookup d va).toOption.bind id

theorem Pmap.pageLookup_of_found {s : Pmap} {d : Frame} {va : Word} {x : Frame × PtePtr}
    (h : s.pageFound d va = some x) : s.pageLookup d va = .ok (some x) := by
  unfold pageFound at h
  cases hl : s.pageLookup d va with
  | error c =>
    rw [hl] at h
    exact absurd h (by simp [Except.toOption])
  | ok y =>
    rw [hl] at h
    exact congrArg Except.ok h

theorem zeroKernel_started : Started zeroKernel.envInit := by
  have hstart := @zeroKernel_start ∅ fun d hd => absurd hd (Finset.notMem_empty d)
  exact ⟨zeroKernel, _, hstart.histInv.inv, zeroKernel_template (Finset.notMem_empty _),
    fun _ => rfl, fun _ => rfl, rfl, rfl, rfl⟩

end RvMos
