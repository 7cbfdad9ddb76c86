/-
What the scheduler and the two calls for messages do to mailboxes.

The mailbox of an environment is the three `env_ipc` words of its `struct Env`.
A context switch touches neither the mailboxes nor the word that a waiting
system call will find in `a0`: that word moves between the active frame and the
saved one.
-/
import RvMos.Kern.LifeCycle

namespace RvMos

open Lib

/-- What a receiver reads from its mailbox. -/
structure Msg where
  sender : Word
  value : Word
  perm : Word
  deriving DecidableEq, Repr

def Env.message (v : Env) : Msg := ⟨v.ipcFrom, v.ipcValue, v.ipcPerm⟩

/-- The word an environment finds in `a0` when it next runs. -/
def Kernel.a0 (k : Kernel) (c : EnvIdx) : Word :=
  if k.curenv = some c then k.active.regs 10 else (k.envs c).tf.regs 10

/-- The environment that runs is runnable. -/
def Kernel.CurRunnable (k : Kernel) : Prop :=
  ∀ c, k.curenv = some c → (k.envs c).status = .runnable

/-- What other environments see of an environment is unchanged. -/
structure SameBox (v v' : Env) : Prop where
  id : v'.id = v.id
  status : v'.status = v.status
  recving : v'.ipcRecving = v.ipcRecving
  message : v'.message = v.message

/-- The two states agree on everything that the receivers of messages see. -/
structure SameMail (k k' : Kernel) : Prop where
  box : ∀ e, SameBox (k.envs e) (k'.envs e)
  a0 : ∀ e, k'.a0 e = k.a0 e

theorem SameBox.refl (v : Env) : SameBox v v := ⟨rfl, rfl, rfl, rfl⟩

theorem SameBox.trans {v v' v'' : Env} (h : SameBox v v') (h' : SameBox v' v'') :
    SameBox v v'' :=
  ⟨h'.id.trans h.id, h'.status.trans h.status, h'.recving.trans h.recving,
    h'.message.trans h.message⟩

instance : IsPreorder Kernel SameMail where
  refl k := ⟨fun e => .refl (k.envs e), fun _ => rfl⟩
  trans _ _ _ h h' := ⟨fun e => (h.box e).trans (h'.box e), fun e => (h'.a0 e).trans (h.a0 e)⟩

theorem SameMail.of_envs {k k' : Kernel} (he : k'.envs = k.envs) (hc : k'.curenv = k.curenv)
    (ha : k'.active = k.active) : SameMail k k' := by
  refine ⟨fun e => by rw [he]; exact .refl _, fun e => ?_⟩
  unfold Kernel.a0
  rw [he, hc, ha]

namespace Kern

open Sys

variable {k : Kernel} {e : EnvIdx}

/-! ## The scheduler -/

/-- `saveTf` as a function of the state. -/
def saved (k : Kernel) : Kernel :=
  match k.curenv with
  | none => k
  | some c => k.setEnv c fun v => { v with tf := k.active }

theorem wp_saveTf {Q : Except Errno Unit → Kernel → Prop} {E : Halt → Prop} :
    saveTf.wp Q E k ↔ Q (.ok ()) (saved k) := by
  unfold saveTf saved
  rw [wp_get_bind]
  cases k.curenv with
  | none => exact wp_pure
  | some c => exact wp_modify

/-- The saved frame of the current environment is the active one, and all others
are as they were. -/
theorem saved_tf (k : Kernel) (c : EnvIdx) :
    (saved k).envs c = { k.envs c with
      tf := if k.curenv = some c then k.active else (k.envs c).tf } := by
  unfold saved
  cases hc : k.curenv with
  | none => rfl
  | some d =>
    by_cases hd : c = d
    · rw [hd, if_pos rfl]
      exact Kernel.setEnv_self ..
    · rw [if_neg (by simpa using Ne.symm hd)]
      exact Kernel.setEnv_of_ne _ hd

/-- The state in which `env_run` gives the processor to `e`. -/
def ran (k : Kernel) (e : EnvIdx) : Kernel :=
  let k₁ := ({ saved k with curenv := some e } : Kernel).setEnv e fun v =>
    { v with runs := v.runs + 1#32 }
  { k₁ with curPgdir := (k₁.envs e).pgdir, active := (k₁.envs e).tf }

theorem ran_envs (k : Kernel) (e c : EnvIdx) : ∃ n,
    (ran k e).envs c = { k.envs c with
      tf := if k.curenv = some c then k.active else (k.envs c).tf
      runs := n } := by
  have hupd : (ran k e).envs c = Function.update (saved k).envs e
      { (saved k).envs e with runs := ((saved k).envs e).runs + 1#32 } c := rfl
  by_cases hc : c = e
  · refine ⟨((saved k).envs e).runs + 1#32, ?_⟩
    rw [hupd, hc, Function.update_self, saved_tf]
  · refine ⟨(k.envs c).runs, ?_⟩
    rw [hupd, Function.update_of_ne hc, saved_tf]

theorem ran_active (k : Kernel) (e : EnvIdx) : (ran k e).active = ((ran k e).envs e).tf := rfl

/-- `env_run` moves the words for `a0` with their environments. -/
theorem sameMail_ran (k : Kernel) (e : EnvIdx) : SameMail k (ran k e) := by
  refine ⟨fun c => ?_, fun c => ?_⟩
  · obtain ⟨n, hn⟩ := ran_envs k e c
    rw [hn]
    exact ⟨rfl, rfl, rfl, rfl⟩
  · have hsaved : (ran k e).a0 c = ((ran k e).envs c).tf.regs 10 := by
      unfold Kernel.a0
      split
      · rename_i heq
        obtain rfl : e = c := Option.some.inj heq
        rw [ran_active]
      · rfl
    obtain ⟨n, hn⟩ := ran_envs k e c
    rw [hsaved, hn]
    unfold Kernel.a0
    split
    · rfl
    · rfl

theorem envRun_ran {Q : Except Errno Unit → Kernel → Prop} {E : Halt → Prop}
    (he : (k.envs e).status = .runnable) (h : Q (.ok ()) (ran k e)) : (envRun e).wp Q E k := by
  unfold envRun
  rw [wp_get_bind, wp_ite]
  refine ⟨fun hne => absurd he hne, fun _ => ?_⟩
  rw [wp_bind, wp_saveTf]
  simp only [setEnv, wp_modify_bind, wp_modify]
  exact h

/-- The stops of the scheduler. -/
def SchedStop (h : Halt) : Prop :=
  h = .wild ∨ (∃ m, h = .panic m) ∨ h = .assert "e->env_status == ENV_RUNNABLE"

/-- The two states differ in the run queue only. -/
def SameButQueue (k k' : Kernel) : Prop := ∃ q, k' = { k with envSchedList := q }

/-- The choice of `schedule` moves the queue only. -/
theorem pick_queue (yield : Bool) (k : Kernel) :
    (pick yield).wp (fun r k' => (∃ o, r = .ok o) ∧ SameButQueue k k') SchedStop k := by
  have hsame : ∀ o : Option EnvIdx, (pure o : Kern (Option EnvIdx)).wp
      (fun r k' => (∃ o, r = .ok o) ∧ SameButQueue k k') SchedStop k :=
    fun o => wp_pure.mpr ⟨⟨o, rfl⟩, k.envSchedList, rfl⟩
  unfold pick
  rw [wp_get_bind]
  cases hc : k.curenv with
  | none => exact hsame _
  | some c =>
    simp only
    rw [wp_ite]
    refine ⟨fun _ => hsame _, fun _ => ?_⟩
    rw [wp_ite]
    refine ⟨fun _ => ?_, fun _ => hsame _⟩
    cases hq : k.envSchedList.remove c with
    | none =>
      refine wp_of (fun r k' hm => ?_) fun h hm => ?_
      · simp [bind, schedRemove, hq] at hm
      · simp only [bind, schedRemove, hq, Except.error.injEq] at hm
        exact .inl hm.symm
    | some q =>
      rw [wp_bind]
      refine wp_schedRemove hq ?_
      cases hq' : q.insertTail c with
      | none =>
        refine wp_of (fun r k' hm => ?_) fun h hm => ?_
        · simp [bind, schedInsertTail, hq'] at hm
        · simp only [bind, schedInsertTail, hq', Except.error.injEq] at hm
          exact .inl hm.symm
      | some q' =>
        rw [wp_bind]
        refine wp_schedInsertTail hq' ?_
        rw [wp_get_bind, wp_pure]
        exact ⟨⟨_, rfl⟩, q', rfl⟩

/-- What every call of the scheduler comes to: the queue and the count have
moved, and a runnable environment gets the processor. -/
theorem schedule_ran (yield : Bool) (k : Kernel) :
    (schedule yield).wp (fun r k' => r = .ok () ∧ ∃ q n e, (k.envs e).status = .runnable ∧
      k' = ran { k with envSchedList := q, schedCount := n } e) SchedStop k := by
  unfold schedule
  rw [wp_modify_bind]
  refine wp_seq (pick_queue yield _) (fun o k₁ hr => ?_) fun _ _ hr => ?_
  · obtain ⟨-, q, rfl⟩ := hr
    cases o with
    | none => exact wp_halt.mpr (.inr (.inl ⟨_, rfl⟩))
    | some e =>
      simp only
      rw [wp_modify_bind]
      by_cases he : (k.envs e).status = .runnable
      · exact envRun_ran he ⟨rfl, q, _, e, he, rfl⟩
      · unfold envRun
        rw [wp_get_bind, if_pos he]
        exact wp_halt.mpr (.inr (.inr rfl))
  · obtain ⟨⟨_, ho⟩, -⟩ := hr
    exact absurd ho (by simp)

/-- A call of the scheduler ends in a runnable environment; no mailbox and no
pending result changes. -/
theorem schedule_mail (h : LifeInv k) (yield : Bool) :
    (schedule yield).wp (fun r k' => r = .ok () ∧ LifeInv k' ∧ SameMail k k' ∧ k'.CurRunnable)
      NotRunAssert k := by
  refine wp_conseq (wp_and (schedule_spec h yield) (schedule_ran yield k)) fun r k' hr => ?_
  obtain ⟨hlife, rfl, q, n, e, he, rfl⟩ := hr
  have hqueue : SameMail k { k with envSchedList := q, schedCount := n } :=
    SameMail.of_envs rfl rfl rfl
  have hran := sameMail_ran { k with envSchedList := q, schedCount := n } e
  refine ⟨rfl, hlife, trans_of SameMail hqueue hran, fun c hc => ?_⟩
  obtain rfl : e = c := Option.some.inj hc
  exact (hran.box e).status.trans he

/-! ## Receiving -/

/-- The caller waits with an empty result; nobody else is touched. -/
structure Waits (c : EnvIdx) (k k' : Kernel) : Prop where
  recving : (k'.envs c).ipcRecving ≠ 0#32
  a0 : k'.a0 c = 0#32
  box : ∀ e, e ≠ c → SameBox (k.envs e) (k'.envs e)
  a0_of_ne : ∀ e, e ≠ c → k'.a0 e = k.a0 e

/-- The state in which `e_ipc_recv` calls the scheduler. -/
def blocked (k : Kernel) (c : EnvIdx) (dstva : Word) (q : TailQueue EnvIdx) : Kernel :=
  { k.setEnv c fun v =>
      { v with
        ipcRecving := 1#32
        ipcDstva := dstva
        status := .notRunnable } with
    envSchedList := q
    active := { k.active with regs := Function.update k.active.regs 10 0#32 } }

theorem waits_blocked {c : EnvIdx} (hc : k.curenv = some c) (dstva : Word)
    (q : TailQueue EnvIdx) : Waits c k (blocked k c dstva q) := by
  refine ⟨?_, ?_, fun e he => ?_, fun e he => ?_⟩
  · simp [blocked, Kernel.setEnv]
  · simp [blocked, Kernel.a0, Kernel.setEnv, hc]
  · simp only [blocked, Kernel.setEnv, Function.update_of_ne he]
    exact .refl _
  · simp [blocked, Kernel.a0, Kernel.setEnv, hc, Ne.symm he, Function.update_of_ne he]

theorem Waits.trans {c : EnvIdx} {k₁ k₂ : Kernel} (h : Waits c k k₁) (h' : SameMail k₁ k₂) :
    Waits c k k₂ := by
  refine ⟨?_, (h'.a0 c).trans h.a0, fun e he => (h.box e he).trans (h'.box e), fun e he =>
    (h'.a0 e).trans (h.a0_of_ne e he)⟩
  rw [(h'.box c).recving]
  exact h.recving

theorem eIpcRecv_mail (h : LifeInv k) (hcur : k.CurRunnable) (dstva : Word) :
    (eIpcRecv dstva).wp (fun r k' => match r with
      | .error e => e = .inval ∧ k' = k
      | .ok () => ∃ c, k.curenv = some c ∧ Waits c k k' ∧ k'.CurRunnable) NotRunAssert k := by
  unfold eIpcRecv
  rw [wp_ite]
  refine ⟨fun _ => wp_throw.mpr ⟨rfl, rfl⟩, fun _ => ?_⟩
  unfold curenv
  rw [wp_bind, wp_get_bind]
  cases hc : k.curenv with
  | none => exact wp_halt.mpr notRunAssert_wild
  | some c =>
    obtain ⟨q, hq, h₁⟩ := Life.dequeue h (hcur c hc)
    simp only [wp_pure, setEnv, wp_modify_bind]
    rw [wp_bind]
    refine wp_schedRemove (q := q) hq ?_
    rw [wp_modify_bind]
    show (schedule true).wp _ _ (blocked k c dstva q)
    have h₂ : LifeInv (blocked k c dstva q) := by
      refine LifeInv.congr (k := ({ k with envSchedList := q } : Kernel).setEnv c fun v =>
        { v with ipcRecving := 1#32, ipcDstva := dstva, status := .notRunnable }) ?_
        (SameLife.of_envs rfl rfl rfl rfl)
      exact h₁.setStatus (fun _ => rfl) (fun _ => rfl) fun _ => rfl
    refine wp_conseq (schedule_mail h₂ true) fun r k' hr => ?_
    obtain ⟨rfl, -, hmail, hrun⟩ := hr
    exact ⟨c, rfl, (waits_blocked hc dstva q).trans hmail, hrun⟩

/-! ## Sending -/

/-- The message of a sender is in the mailbox of a receiver that waited for it. -/
structure Delivers (m : Msg) (e : EnvIdx) (k k' : Kernel) : Prop where
  waited : (k.envs e).ipcRecving ≠ 0#32
  recving : (k'.envs e).ipcRecving = 0#32
  id : (k'.envs e).id = (k.envs e).id
  message : (k'.envs e).message = m
  status : (k'.envs e).status = .runnable
  tf : ∀ x, (k'.envs x).tf = (k.envs x).tf
  box : ∀ x, x ≠ e → SameBox (k.envs x) (k'.envs x)

/-- `srcva` is null or `page_lookup` finds a page there. -/
def SourceMapped (k : Kernel) (srcva : Word) : Prop :=
  srcva = 0#32 ∨ ∃ c d x, k.curenv = some c ∧ (k.envs c).pgdir = some d ∧
    k.pmap.pageLookup d srcva = .ok (some x)

theorem wp_pageLookup {d : Frame} {va : Word} {x : Option (Frame × PtePtr)}
    {Q : Except Errno (Option (Frame × PtePtr)) → Kernel → Prop} {E : Halt → Prop}
    (hx : k.pmap.pageLookup d va = .ok x) (h : Q (.ok x) k) :
    (pageLookup (some d) va).wp Q E k := by
  unfold pageLookup dirOf
  rw [wp_bind, wp_pure]
  refine wp_onPmap.mpr ⟨fun _ hm => ?_, fun r p hm => ?_⟩
  · rw [hx] at hm
    exact absurd hm (by simp [Except.map])
  · rw [hx] at hm
    obtain ⟨rfl, rfl⟩ := Prod.mk.inj (Except.ok.inj hm)
    exact h

/-- The state in which `e_ipc_try_send` has filled the mailbox. -/
def delivered (k : Kernel) (c e : EnvIdx) (value perm : Word) (q : TailQueue EnvIdx) : Kernel :=
  { k.setEnv e fun v =>
      { v with
        ipcValue := value
        ipcFrom := (k.envs c).id
        ipcPerm := pteV ||| perm
        ipcRecving := 0#32
        status := .runnable } with
    envSchedList := q }

theorem delivered_pgdir {c e : EnvIdx} {value perm : Word} {q : TailQueue EnvIdx} (x : EnvIdx) :
    ((delivered k c e value perm q).envs x).pgdir = (k.envs x).pgdir := by
  by_cases hx : x = e
  · simp [delivered, Kernel.setEnv, hx]
  · simp [delivered, Kernel.setEnv, Function.update_of_ne hx]

theorem delivered_dstva {c e : EnvIdx} {value perm : Word} {q : TailQueue EnvIdx} :
    ((delivered k c e value perm q).envs e).ipcDstva = (k.envs e).ipcDstva := by
  simp [delivered, Kernel.setEnv]

theorem delivers_delivered (c : EnvIdx) {e : EnvIdx} (he : (k.envs e).ipcRecving ≠ 0#32)
    (value perm : Word) (q : TailQueue EnvIdx) :
    Delivers ⟨(k.envs c).id, value, pteV ||| perm⟩ e k (delivered k c e value perm q) := by
  refine ⟨he, ?_, ?_, ?_, ?_, fun x => ?_, fun x hx => ?_⟩
  · simp [delivered, Kernel.setEnv]
  · simp [delivered, Kernel.setEnv]
  · simp [delivered, Kernel.setEnv, Env.message]
  · simp [delivered, Kernel.setEnv]
  · by_cases hx : x = e
    · simp [delivered, Kernel.setEnv, hx]
    · simp [delivered, Kernel.setEnv, Function.update_of_ne hx]
  · simp only [delivered, Kernel.setEnv, Function.update_of_ne hx]
    exact .refl _

/-- A call that fails has changed nothing, and one that returns zero has put the
message into the mailbox of the environment it names. -/
theorem eIpcTrySend_mail (h : LifeInv k) {srcva : Word} (hsrc : SourceMapped k srcva)
    (envid value perm : Word) :
    (eIpcTrySend envid value srcva perm).wp (fun r k' => match r with
      | .error _ => k' = k
      | .ok () => ∃ e c, k.target envid false = some e ∧ k.curenv = some c ∧
          Delivers ⟨(k.envs c).id, value, pteV ||| perm⟩ e k k' ∧ k'.curenv = k.curenv ∧
          k'.active = k.active) (fun _ => True) k := by
  unfold eIpcTrySend
  rw [wp_ite]
  refine ⟨fun _ => wp_throw.mpr rfl, fun _ => ?_⟩
  refine wp_seq (wp_mono (envid2env_spec envid false k) (fun _ _ h => h) fun _ _ => trivial)
    (fun e k₁ h₁ => ?_) fun _ _ h₁ => h₁.1
  obtain ⟨rfl, hres⟩ := h₁
  rw [wp_get_bind, wp_ite]
  refine ⟨fun _ => wp_throw.mpr rfl, fun hrecv => ?_⟩
  refine wp_seq (wp_mono (curenv_spec k₁) (fun _ _ h => h) fun _ _ => trivial)
    (fun c k₂ h₂ => ?_) fun _ _ h₂ => h₂.1
  obtain ⟨rfl, c', hc', hcur⟩ := h₂
  obtain rfl := Except.ok.inj hc'
  have hdel := fun q => delivers_delivered c hrecv value perm q
  -- the receiver waits, so it is not on the queue
  have hst : k₂.statuses e = .notRunnable := Life.recving h e hrecv
  have h₃ : Life k₂.statuses (k₂.setEnv e fun v =>
      { v with
        ipcValue := value
        ipcFrom := (k₂.envs c).id
        ipcPerm := pteV ||| perm
        ipcRecving := 0#32
        status := .runnable }) :=
    Life.setEnv h (fun hr => absurd rfl hr) fun _ => rfl
  obtain ⟨q, hq, -⟩ := h₃.enqueueTail hst (by rw [Kernel.setEnv_self])
  rw [wp_modify_bind, wp_bind]
  refine wp_schedInsertTail hq ?_
  show (if srcva ≠ 0#32 then _ else _ : Kern Unit).wp _ _ (delivered k₂ c e value perm q)
  rw [wp_ite]
  refine ⟨fun hne => ?_, fun _ => wp_pure.mpr ⟨e, c, hres e rfl, hcur, hdel q, rfl, rfl⟩⟩
  obtain h0 | ⟨c', d, x, hc', hd, hx⟩ := hsrc
  · exact absurd h0 hne
  · obtain rfl : c = c' := Option.some.inj (hcur.symm.trans hc')
    rw [wp_get_bind, wp_bind, delivered_pgdir, hd]
    refine wp_pageLookup (k := delivered k₂ c e value perm q) hx ?_
    simp only
    rw [wp_get_bind]
    refine wp_attempt_seq (wp_mono (pages_pageInsert _ _ _ _ _) (fun _ _ h => h) fun _ _ => trivial)
      fun r k' hk' => ?_
    obtain ⟨p, rfl⟩ := hk'
    exact wp_pure.mpr ⟨e, c, hres e rfl, hcur, ⟨(hdel q).1, (hdel q).2, (hdel q).3, (hdel q).4,
      (hdel q).5, (hdel q).6, (hdel q).7⟩, rfl, rfl⟩

/-! ## Traps -/

/-- A new active frame concerns the running environment only. -/
theorem a0_active {c e : EnvIdx} (hc : k.curenv = some c) (he : e ≠ c) (a : Trapframe) :
    Kernel.a0 { k with active := a } e = k.a0 e := by
  simp [Kernel.a0, hc, Ne.symm he]

theorem a0_active_self {c : EnvIdx} (hc : k.curenv = some c) (a : Trapframe) :
    Kernel.a0 { k with active := a } c = a.regs 10 := by
  simp [Kernel.a0, hc]

/-- `e_ipc_recv` as a trap: the caller waits, or it has the code of an error and
nothing else has changed. -/
theorem handle_recv {c : EnvIdx} (h : LifeInv k) (hcur : k.CurRunnable)
    (hc : k.curenv = some c) (tf : Trapframe) (dstva : Word) :
    (handle tf (.ecall (.ipcRecv dstva))).wp (fun _ k' => (Waits c k k' ∧ k'.CurRunnable) ∨
      (k'.a0 c ≠ 0#32 ∧ k' = { k with active := k'.active })) NotRunAssert k := by
  unfold handle
  rw [wp_modify_bind]
  show (doEcallFromU _).wp _ _ _
  unfold doEcallFromU
  rw [wp_modify_bind]
  generalize hk₁ : ({ k with active := { tf with sepc := tf.sepc + 4#32 } } : Kernel) = k₁
  have h₁ : LifeInv k₁ := hk₁ ▸ h.congr (SameLife.of_envs rfl rfl rfl rfl)
  have hcur₁ : k₁.CurRunnable := hk₁ ▸ hcur
  refine wp_attempt_seq (R := fun r k' => match r with
    | .error e => e = .inval ∧ k' = k₁
    | .ok v => v = .switched ∧ ∃ c, k₁.curenv = some c ∧ Waits c k₁ k' ∧ k'.CurRunnable) ?_
    fun r k' hr => ?_
  · refine wp_seq (eIpcRecv_mail h₁ hcur₁ dstva) (fun _ k' hr => wp_pure.mpr ⟨rfl, hr⟩)
      fun _ _ hr => hr
  · rcases r with e | v
    · obtain ⟨rfl, rfl⟩ := hr
      refine wp_modify.mpr (Or.inr ⟨?_, ?_⟩)
      · have hc' : k'.curenv = some c := hk₁ ▸ hc
        rw [a0_active_self hc']
        simp [retWord, Errno.code]
      · rw [← hk₁]
    · obtain ⟨rfl, c', hc', hw, hrun⟩ := hr
      refine wp_pure.mpr (Or.inl ⟨?_, hrun⟩)
      rw [← hk₁] at hc' hw
      obtain rfl : c = c' := Option.some.inj (hc.symm.trans hc')
      exact ⟨hw.recving, hw.a0, hw.box, fun e he => (hw.a0_of_ne e he).trans (a0_active hc he _)⟩

/-- `e_ipc_try_send` as a trap.  The word in `a0` tells whether the message is
in the mailbox. -/
theorem handle_trySend {c : EnvIdx} (h : LifeInv k) (hc : k.curenv = some c) {srcva : Word}
    (hsrc : SourceMapped k srcva) (tf : Trapframe) (envid value perm : Word) :
    (handle tf (.ecall (.ipcTrySend envid value srcva perm))).wp (fun _ k' =>
      k'.curenv = some c ∧
      ((k'.a0 c = 0#32 ∧ ∃ e, k.target envid false = some e ∧
          Delivers ⟨(k.envs c).id, value, pteV ||| perm⟩ e k k') ∨
        (k'.a0 c ≠ 0#32 ∧ k' = { k with active := k'.active }))) (fun _ => True) k := by
  unfold handle
  rw [wp_modify_bind]
  show (doEcallFromU _).wp _ _ _
  unfold doEcallFromU
  rw [wp_modify_bind]
  generalize hk₁ : ({ k with active := { tf with sepc := tf.sepc + 4#32 } } : Kernel) = k₁
  have h₁ : LifeInv k₁ := hk₁ ▸ h.congr (SameLife.of_envs rfl rfl rfl rfl)
  have hsrc₁ : SourceMapped k₁ srcva := hk₁ ▸ hsrc
  have hc₁ : k₁.curenv = some c := hk₁ ▸ hc
  refine wp_attempt_seq (R := fun r k' => match r with
    | .error _ => k' = k₁
    | .ok v => v = .value 0#32 ∧ ∃ e, k₁.target envid false = some e ∧
        Delivers ⟨(k₁.envs c).id, value, pteV ||| perm⟩ e k₁ k' ∧ k'.curenv = some c) ?_
    fun r k' hr => ?_
  · refine wp_seq (eIpcTrySend_mail h₁ hsrc₁ envid value perm) (fun _ k' hr => ?_)
      fun _ _ hr => hr
    obtain ⟨e, c', he, hc', hdel, hcur, -⟩ := hr
    obtain rfl : c = c' := Option.some.inj (hc₁.symm.trans hc')
    exact wp_pure.mpr ⟨rfl, e, he, hdel, hcur.trans hc₁⟩
  · rcases r with e | v
    · obtain rfl := hr
      refine wp_modify.mpr ⟨hc₁, Or.inr ⟨?_, ?_⟩⟩
      · rw [a0_active_self hc₁]
        cases e <;> simp [retWord, Errno.code]
      · rw [← hk₁]
    · obtain ⟨rfl, e, he, hdel, hcur⟩ := hr
      refine wp_modify.mpr ⟨hcur, Or.inl ⟨?_, e, ?_, ?_⟩⟩
      · rw [a0_active_self hcur]
        simp
      · rw [← hk₁] at he
        exact he
      · rw [← hk₁] at hdel
        exact ⟨hdel.1, hdel.2, hdel.3, hdel.4, hdel.5, hdel.6, hdel.7⟩

/-- A context switch as a trap: a timer tick or a yield. -/
theorem handle_switch {t : Trap} (ht : t = .timer ∨ t = .ecall .yield) (h : LifeInv k)
    (tf : Trapframe) :
    (handle tf t).wp (fun _ k' => (∃ n, SameMail { k with active := { tf with sepc := n } } k') ∧
      k'.CurRunnable) NotRunAssert k := by
  unfold handle
  rw [wp_modify_bind]
  rcases ht with rfl | rfl
  · have h₁ : LifeInv { k with active := tf } := h.congr (SameLife.of_envs rfl rfl rfl rfl)
    refine wp_conseq (schedule_mail h₁ false) fun _ k' hr => ?_
    exact ⟨⟨tf.sepc, hr.2.2.1⟩, hr.2.2.2⟩
  · show (doEcallFromU _).wp _ _ _
    unfold doEcallFromU
    rw [wp_modify_bind]
    have h₁ : LifeInv { k with active := { tf with sepc := tf.sepc + 4#32 } } :=
      h.congr (SameLife.of_envs rfl rfl rfl rfl)
    refine wp_attempt_seq (R := fun r k' => r = .ok .switched ∧
      SameMail { k with active := { tf with sepc := tf.sepc + 4#32 } } k' ∧ k'.CurRunnable) ?_
      fun r k' hr => ?_
    · refine wp_seq (schedule_mail h₁ true) (fun _ k' hr => ?_) fun _ _ hr => ?_
      · exact wp_pure.mpr ⟨rfl, hr.2.2⟩
      · exact absurd hr.1 (by simp)
    · obtain ⟨rfl, hmail, hrun⟩ := hr
      exact wp_pure.mpr ⟨⟨_, hmail⟩, hrun⟩

end Kern
end RvMos
