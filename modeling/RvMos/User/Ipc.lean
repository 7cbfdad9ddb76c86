/-
Messages between environments (`user/lib/ipc.c`).

`World` is the kernel together with the place every environment has reached in
`ipc_send` or `ipc_recv`.  One action is one system call, one timer tick, or one
piece of user code that reads the result of a call or a word of the mailbox, so
the timer may come between any two of them.  The two logs are not part of the
machine: `sent` grows when `ecall_ipc_try_send` returns 0, and `recvd` when
`ipc_recv` returns.

Both pointer arguments of `ipc_recv` are given, and the user code that follows a
panic is left out.
-/
import RvMos.Kern.Messages

namespace RvMos

open Lib

namespace Ipc

/-- The arguments of `ipc_send`. -/
structure Send where
  whom : Word
  value : Word
  srcva : Word
  perm : Word

/-- Where an environment is in `ipc.c`.  `tried` also keeps the word that the
kernel returned, to be compared with what is read from `a0`. -/
inductive Phase where
  | idle
  | sending (m : Send)
  | tried (m : Send) (ret : Word)
  | backing (m : Send)
  | receiving
  | gettingFrom
  | gettingPerm (sender : Word)
  | gettingValue (sender perm : Word)
  | panicked

/-- A system call has returned and its result is still in `a0`. -/
def Phase.pending : Phase → Bool
  | .tried _ _ => true
  | .receiving => true
  | _ => false

structure World where
  k : Kernel
  phase : EnvIdx → Phase
  sent : EnvIdx → List Msg
  recvd : EnvIdx → List Msg

inductive Act where
  | callSend (m : Send)
  | trySend (tf : Trapframe)
  | checkSend
  | backOff (tf : Trapframe)
  | yield (tf : Trapframe)
  | callRecv (tf : Trapframe) (dstva : Word)
  | checkRecv
  | readFrom
  | readPerm
  | readValue
  | tick (tf : Trapframe)

/-- `-E_IPC_NOT_RECV`. -/
def notRecv : Word := Kern.retWord (.error .ipcNotRecv)

/-- The loop condition of `ipc_send` and the assertion after it. -/
def afterSend (r : Word) (m : Send) : Phase :=
  if r = notRecv then .backing m else if r = 0#32 then .idle else .panicked

namespace World

def goto (w : World) (c : EnvIdx) (ph : Phase) : World :=
  { w with phase := Function.update w.phase c ph }

def logSent (w : World) (e : EnvIdx) (m : Msg) : World :=
  { w with sent := Function.update w.sent e (w.sent e ++ [m]) }

def logRecvd (w : World) (e : EnvIdx) (m : Msg) : World :=
  { w with recvd := Function.update w.recvd e (w.recvd e ++ [m]) }

/-- A trap, after which the world is `f k'`. -/
def trap (w : World) (tf : Trapframe) (t : Kern.Trap) (f : Kernel → World) : Option World :=
  (Kernel.next (.trap tf t) w.k).map f

/-- What is logged when `ecall_ipc_try_send` of `c` has led to `k'`. -/
def logTry (w : World) (c : EnvIdx) (m : Send) (k' : Kernel) : World :=
  if k'.active.regs 10 = 0#32 then
    match w.k.target m.whom false with
    | none => w
    | some e => w.logSent e ⟨(w.k.envs c).id, m.value, pteV ||| m.perm⟩
  else w

/-- An action of the running environment `c`. -/
def userStep (w : World) (c : EnvIdx) (a : Act) (ph : Phase) : Option World :=
  match a, ph with
  | .callSend m, .idle => some (w.goto c (.sending m))
  | .trySend tf, .sending m =>
    w.trap tf (.ecall (.ipcTrySend m.whom m.value m.srcva m.perm)) fun k' =>
      { (w.logTry c m k').goto c (.tried m (k'.active.regs 10)) with k := k' }
  | .checkSend, .tried m _ => some (w.goto c (afterSend (w.k.active.regs 10) m))
  | .backOff tf, .backing m =>
    w.trap tf (.ecall .yield) fun k' => { w.goto c (.sending m) with k := k' }
  | .yield tf, .idle => w.trap tf (.ecall .yield) fun k' => { w with k := k' }
  | .callRecv tf dstva, .idle =>
    w.trap tf (.ecall (.ipcRecv dstva)) fun k' => { w.goto c .receiving with k := k' }
  | .checkRecv, .receiving =>
    some (w.goto c (if w.k.active.regs 10 ≠ 0#32 then .panicked else .gettingFrom))
  | .readFrom, .gettingFrom => some (w.goto c (.gettingPerm (w.k.envs c).ipcFrom))
  | .readPerm, .gettingPerm sender =>
    some (w.goto c (.gettingValue sender (w.k.envs c).ipcPerm))
  | .readValue, .gettingValue sender perm =>
    some ((w.goto c .idle).logRecvd c ⟨sender, (w.k.envs c).ipcValue, perm⟩)
  | _, _ => none

/-- The frame that a timer tick saves still has the result of a call in `a0`. -/
def holdsA0 (w : World) (tf : Trapframe) : Bool :=
  match w.k.curenv with
  | none => true
  | some c => !(w.phase c).pending || tf.regs 10 == w.k.active.regs 10

def step (a : Act) (w : World) : Option World :=
  match a, w.k.curenv with
  | .tick tf, _ =>
    if w.holdsA0 tf then w.trap tf .timer fun k' => { w with k := k' } else none
  | _, none => none
  | a, some c => w.userStep c a (w.phase c)

/-- `ipc_send` is called with no page, or with a page that is mapped. -/
def SourcesMapped (w : World) (a : Act) : Prop :=
  ∀ tf c m, a = .trySend tf → w.k.curenv = some c → w.phase c = .sending m →
    Kern.SourceMapped w.k m.srcva

def Step (w : World) (a : Act) (w' : World) : Prop := w.SourcesMapped a ∧ step a w = some w'

/-- Environments have been created, nobody waits and nothing was sent. -/
structure Fresh (w : World) : Prop where
  life : LifeInv w.k
  running : w.k.CurRunnable
  recving : ∀ e, (w.k.envs e).ipcRecving = 0#32
  idle : ∀ e, w.phase e = .idle
  sent : ∀ e, w.sent e = []
  recvd : ∀ e, w.recvd e = []

end World

/-! ## The invariant -/

/-- Nothing is in the mailbox that was not read. -/
def Empty (k : Kernel) (c : EnvIdx) (sent recvd : List Msg) : Prop :=
  (k.envs c).ipcRecving = 0#32 ∧ sent = recvd

/-- The last message is in the mailbox. -/
def Full (k : Kernel) (c : EnvIdx) (sent recvd : List Msg) : Prop :=
  (k.envs c).ipcRecving = 0#32 ∧ sent = recvd ++ [(k.envs c).message]

/-- The mailbox and the logs of `c`, by the place of `c` in `ipc.c`. -/
def BoxInv (k : Kernel) (c : EnvIdx) (sent recvd : List Msg) : Phase → Prop
  | .tried _ ret => Empty k c sent recvd ∧ k.a0 c = ret
  | .receiving =>
    (k.a0 c = 0#32 ∧ (k.envs c).ipcRecving ≠ 0#32 ∧ sent = recvd) ∨
      (k.a0 c = 0#32 ∧ Full k c sent recvd) ∨ (k.a0 c ≠ 0#32 ∧ Empty k c sent recvd)
  | .gettingFrom => Full k c sent recvd
  | .gettingPerm sender => Full k c sent recvd ∧ sender = (k.envs c).ipcFrom
  | .gettingValue sender perm =>
    Full k c sent recvd ∧ sender = (k.envs c).ipcFrom ∧ perm = (k.envs c).ipcPerm
  | .idle | .sending _ | .backing _ | .panicked => Empty k c sent recvd

structure Inv (w : World) : Prop where
  life : LifeInv w.k
  running : w.k.CurRunnable
  box : ∀ c, BoxInv w.k c (w.sent c) (w.recvd c) (w.phase c)

section BoxInv

variable {k k' : Kernel} {c : EnvIdx} {sent recvd : List Msg} {ph : Phase}

theorem Empty.congr (h : Empty k c sent recvd) (hb : SameBox (k.envs c) (k'.envs c)) :
    Empty k' c sent recvd :=
  ⟨hb.recving.trans h.1, h.2⟩

theorem Full.congr (h : Full k c sent recvd) (hb : SameBox (k.envs c) (k'.envs c)) :
    Full k' c sent recvd :=
  ⟨hb.recving.trans h.1, by rw [hb.message]; exact h.2⟩

theorem BoxInv.congr (h : BoxInv k c sent recvd ph) (hb : SameBox (k.envs c) (k'.envs c))
    (ha : ph.pending = true → k'.a0 c = k.a0 c) : BoxInv k' c sent recvd ph := by
  have hfrom : (k'.envs c).ipcFrom = (k.envs c).ipcFrom := congrArg Msg.sender hb.message
  have hperm : (k'.envs c).ipcPerm = (k.envs c).ipcPerm := congrArg Msg.perm hb.message
  cases ph with
  | idle => exact Empty.congr h hb
  | sending m => exact Empty.congr h hb
  | tried m ret => exact ⟨h.1.congr hb, (ha rfl).trans h.2⟩
  | backing m => exact Empty.congr h hb
  | receiving =>
    unfold BoxInv at h ⊢
    rw [ha rfl, hb.recving]
    exact Or.imp_right (Or.imp (And.imp_right fun h => h.congr hb)
      (And.imp_right fun h => h.congr hb)) h
  | gettingFrom => exact Full.congr h hb
  | gettingPerm sender => exact ⟨h.1.congr hb, h.2.trans hfrom.symm⟩
  | gettingValue sender perm =>
    exact ⟨h.1.congr hb, h.2.1.trans hfrom.symm, h.2.2.trans hperm.symm⟩
  | panicked => exact Empty.congr h hb

/-- Only a waiting environment can be sent a message. -/
theorem BoxInv.of_recving (h : BoxInv k c sent recvd ph) (hr : (k.envs c).ipcRecving ≠ 0#32) :
    ph = .receiving ∧ k.a0 c = 0#32 ∧ sent = recvd := by
  cases ph with
  | idle => exact absurd h.1 hr
  | sending m => exact absurd h.1 hr
  | tried m ret => exact absurd h.1.1 hr
  | backing m => exact absurd h.1 hr
  | receiving =>
    obtain ⟨h0, -, hs⟩ | ⟨-, hf⟩ | ⟨-, he⟩ := h
    · exact ⟨rfl, h0, hs⟩
    · exact absurd hf.1 hr
    · exact absurd he.1 hr
  | gettingFrom => exact absurd h.1 hr
  | gettingPerm sender => exact absurd h.1.1 hr
  | gettingValue sender perm => exact absurd h.1.1 hr
  | panicked => exact absurd h.1 hr

end BoxInv

/-! ## Steps -/

namespace World

variable {w w' : World} {c : EnvIdx}

theorem trap_cases {tf : Trapframe} {t : Kern.Trap} {f : Kernel → World}
    (h : w.trap tf t f = some w') :
    ∃ r k', Kern.handle tf t w.k = .ok (r, k') ∧ w' = f k' := by
  obtain ⟨k', hk', rfl⟩ := Option.map_eq_some_iff.mp h
  obtain ⟨-, r, hr⟩ := Kernel.step_of_next _ _ _ hk'
  exact ⟨r, k', hr, rfl⟩

/-- A move of the running environment that leaves the kernel alone. -/
theorem inv_goto (h : Inv w) {ph : Phase} (hbox : BoxInv w.k c (w.sent c) (w.recvd c) ph) :
    Inv (w.goto c ph) := by
  refine ⟨h.life, h.running, fun e => ?_⟩
  by_cases he : e = c
  · subst he
    simpa [goto] using hbox
  · simpa [goto, Function.update_of_ne he] using h.box e

/-- A trap after which `c` is at `ph`: what is left to show is the mailbox of
every environment. -/
theorem inv_trap {k' : Kernel} {ph : Phase} (hlife : LifeInv k') (hrun : k'.CurRunnable)
    (hself : BoxInv k' c (w.sent c) (w.recvd c) ph)
    (hother : ∀ e, e ≠ c → BoxInv k' e (w.sent e) (w.recvd e) (w.phase e)) :
    Inv { w.goto c ph with k := k' } := by
  refine ⟨hlife, hrun, fun e => ?_⟩
  by_cases he : e = c
  · subst he
    simpa [goto] using hself
  · simpa [goto, Function.update_of_ne he] using hother e he

/-- A context switch while `c` runs. -/
theorem inv_switch (h : Inv w) (hc : w.k.curenv = some c) {t : Kern.Trap} {tf : Trapframe}
    (ht : t = .timer ∨ t = .ecall .yield) {r : Except Errno Unit} {k' : Kernel}
    (hk' : Kern.handle tf t w.k = .ok (r, k'))
    (ph : Phase) (hbox : BoxInv w.k c (w.sent c) (w.recvd c) ph)
    (ha : ph.pending = true → tf.regs 10 = w.k.a0 c) :
    Inv { w.goto c ph with k := k' } := by
  have hcare : w.k.Careful (.trap tf t) := by rcases ht with rfl | rfl <;> exact trivial
  have hlife : LifeInv k' := Sys.wp_ok (Kern.handler_life h.life hcare) hk'
  obtain ⟨⟨n, hmail⟩, hrun⟩ := Sys.wp_ok (Kern.handle_switch ht h.life tf) hk'
  refine inv_trap hlife hrun ?_ fun e he => ?_
  · refine hbox.congr (hmail.box c) fun hp => ?_
    rw [hmail.a0 c, Kern.a0_active_self hc, ← ha hp]
  · refine (h.box e).congr (hmail.box e) fun _ => ?_
    rw [hmail.a0 e, Kern.a0_active hc he]

/-- The call of `e_ipc_try_send`.  The receiver, if there is one, was waiting
with an empty mailbox. -/
theorem inv_trySend (h : Inv w) (hc : w.k.curenv = some c) {m : Send} (hph : w.phase c = .sending m)
    (hsrc : Kern.SourceMapped w.k m.srcva) {tf : Trapframe} {r : Except Errno Unit} {k' : Kernel}
    (hk' : Kern.handle tf (.ecall (.ipcTrySend m.whom m.value m.srcva m.perm)) w.k = .ok (r, k')) :
    Inv { (w.logTry c m k').goto c (.tried m (k'.active.regs 10)) with k := k' } := by
  have hcare : w.k.Careful
      (.trap tf (.ecall (.ipcTrySend m.whom m.value m.srcva m.perm))) := trivial
  have hlife : LifeInv k' := Sys.wp_ok (Kern.handler_life h.life hcare) hk'
  have hempty : Empty w.k c (w.sent c) (w.recvd c) := by
    have := h.box c
    rwa [hph] at this
  obtain ⟨hcur, hres⟩ := Sys.wp_ok (Kern.handle_trySend h.life hc hsrc tf m.whom m.value m.perm) hk'
  have ha0 : k'.a0 c = k'.active.regs 10 := by simp [Kernel.a0, hcur]
  rcases hres with ⟨hzero, e, he, hdel⟩ | ⟨hne, hsame⟩
  · -- the message went to `e`, which is not the sender
    have hlog : w.logTry c m k' = w.logSent e ⟨(w.k.envs c).id, m.value, pteV ||| m.perm⟩ := by
      unfold logTry
      rw [← ha0, if_pos hzero, he]
    obtain ⟨hphe, hae, hse⟩ := (h.box e).of_recving hdel.waited
    have hce : c ≠ e := by
      rintro rfl
      rw [hph] at hphe
      exact absurd hphe (by simp)
    have htf : ∀ x, x ≠ c → k'.a0 x = w.k.a0 x := by
      intro x hx
      simp [Kernel.a0, hcur, hc, Ne.symm hx, hdel.tf x]
    rw [hlog]
    refine inv_trap hlife ?_ ?_ fun x hx => ?_
    · intro x hx
      rw [hcur] at hx
      obtain rfl := Option.some.inj hx
      rw [(hdel.box c hce).status]
      exact h.running c hc
    · simp only [logSent, Function.update_of_ne hce]
      exact ⟨hempty.congr (hdel.box c hce), ha0⟩
    · by_cases hxe : x = e
      · subst hxe
        simp only [logSent, Function.update_self, hphe]
        refine Or.inr (Or.inl ⟨(htf x hx).trans hae, hdel.recving, ?_⟩)
        rw [hdel.message, hse]
      · simp only [logSent, Function.update_of_ne hxe]
        exact (h.box x).congr (hdel.box x hxe) fun _ => htf x hx
  · have hlog : w.logTry c m k' = w := by
      unfold logTry
      rw [← ha0, if_neg hne]
    rw [hlog]
    have hbox : ∀ x, SameBox (w.k.envs x) (k'.envs x) := by
      intro x
      rw [hsame]
      exact .refl _
    refine inv_trap hlife ?_ ⟨hempty.congr (hbox c), ha0⟩ fun x hx => ?_
    · rw [hsame]
      exact h.running
    · refine (h.box x).congr (hbox x) fun _ => ?_
      rw [hsame]
      exact Kern.a0_active hc hx _

/-- The call of `e_ipc_recv`. -/
theorem inv_recv (h : Inv w) (hc : w.k.curenv = some c) (hph : w.phase c = .idle)
    {tf : Trapframe} {dstva : Word} {r : Except Errno Unit} {k' : Kernel}
    (hk' : Kern.handle tf (.ecall (.ipcRecv dstva)) w.k = .ok (r, k')) :
    Inv { w.goto c .receiving with k := k' } := by
  have hcare : w.k.Careful (.trap tf (.ecall (.ipcRecv dstva))) := fun _ => h.running
  have hlife : LifeInv k' := Sys.wp_ok (Kern.handler_life h.life hcare) hk'
  have hempty : Empty w.k c (w.sent c) (w.recvd c) := by
    have := h.box c
    rwa [hph] at this
  obtain ⟨hwait, hrun⟩ | ⟨hne, hsame⟩ :=
    Sys.wp_ok (Kern.handle_recv h.life h.running hc tf dstva) hk'
  · refine inv_trap hlife hrun (Or.inl ⟨hwait.a0, hwait.recving, hempty.2⟩) fun x hx => ?_
    exact (h.box x).congr (hwait.box x hx) fun _ => hwait.a0_of_ne x hx
  · have hbox : ∀ x, SameBox (w.k.envs x) (k'.envs x) := by
      intro x
      rw [hsame]
      exact .refl _
    refine inv_trap hlife ?_ (Or.inr (Or.inr ⟨hne, hempty.congr (hbox c)⟩)) fun x hx => ?_
    · rw [hsame]
      exact h.running
    · refine (h.box x).congr (hbox x) fun _ => ?_
      rw [hsame]
      exact Kern.a0_active hc hx _

theorem goto_phase (w : World) (c : EnvIdx) : w.goto c (w.phase c) = w := by
  simp [goto]

theorem inv_tick (h : Inv w) {tf : Trapframe} (ha : w.holdsA0 tf = true)
    {r : Except Errno Unit} {k' : Kernel} (hk' : Kern.handle tf .timer w.k = .ok (r, k')) :
    Inv { w with k := k' } := by
  cases hc : w.k.curenv with
  | none =>
    have hcare : w.k.Careful (.trap tf .timer) := trivial
    have hlife : LifeInv k' := Sys.wp_ok (Kern.handler_life h.life hcare) hk'
    obtain ⟨⟨n, hmail⟩, hrun⟩ := Sys.wp_ok (Kern.handle_switch (.inl rfl) h.life tf) hk'
    refine ⟨hlife, hrun, fun e => (h.box e).congr (hmail.box e) fun _ => ?_⟩
    rw [hmail.a0 e]
    simp [Kernel.a0, hc]
  | some c =>
    have hstep := inv_switch h hc (.inl rfl) hk' _ (h.box c) fun hp => ?_
    · rwa [goto_phase] at hstep
    · simp only [holdsA0, hc, hp, Bool.not_true, Bool.false_or, beq_iff_eq] at ha
      rw [ha]
      simp [Kernel.a0, hc]

/-- What the result of a try leads to. -/
theorem boxInv_afterSend {k : Kernel} {sent recvd : List Msg} (h : Empty k c sent recvd)
    (r : Word) (m : Send) : BoxInv k c sent recvd (afterSend r m) := by
  unfold afterSend
  split
  · exact h
  · split
    · exact h
    · exact h

theorem inv_userStep (h : Inv w) (hc : w.k.curenv = some c) {a : Act} (hsrc : w.SourcesMapped a)
    (hstep : w.userStep c a (w.phase c) = some w') : Inv w' := by
  have hbox := h.box c
  have ha0 : w.k.a0 c = w.k.active.regs 10 := by simp [Kernel.a0, hc]
  unfold userStep at hstep
  split at hstep
  · rename_i m hph
    rw [hph] at hbox
    obtain rfl := Option.some.inj hstep
    exact inv_goto h hbox
  · rename_i tf m hph
    obtain ⟨r, k', hk', rfl⟩ := trap_cases hstep
    exact inv_trySend h hc hph (hsrc tf c m rfl hc hph) hk'
  · rename_i m ret hph
    rw [hph] at hbox
    obtain rfl := Option.some.inj hstep
    exact inv_goto h (boxInv_afterSend hbox.1 _ m)
  · rename_i tf m hph
    rw [hph] at hbox
    obtain ⟨r, k', hk', rfl⟩ := trap_cases hstep
    exact inv_switch h hc (.inr rfl) hk' (.sending m) hbox
      fun hp => absurd hp (by simp [Phase.pending])
  · rename_i tf hph
    rw [hph] at hbox
    obtain ⟨r, k', hk', rfl⟩ := trap_cases hstep
    have hsw := inv_switch h hc (.inr rfl) hk' .idle hbox
      fun hp => absurd hp (by simp [Phase.pending])
    rwa [← hph, goto_phase] at hsw
  · rename_i tf dstva hph
    obtain ⟨r, k', hk', rfl⟩ := trap_cases hstep
    exact inv_recv h hc hph hk'
  · rename_i hph
    rw [hph] at hbox
    obtain rfl := Option.some.inj hstep
    refine inv_goto h ?_
    rw [← ha0]
    -- the environment runs, so it is not waiting any more
    have hrecv : (w.k.envs c).ipcRecving = 0#32 :=
      h.life.recving_zero (show w.k.statuses c ≠ _ by
        rw [show w.k.statuses c = .runnable from h.running c hc]; simp)
    obtain ⟨-, hr, -⟩ | ⟨h0, hfull⟩ | ⟨hne, hempty⟩ := hbox
    · exact absurd hrecv hr
    · rw [if_neg (not_not.mpr h0)]
      exact hfull
    · rw [if_pos hne]
      exact hempty
  · rename_i hph
    rw [hph] at hbox
    obtain rfl := Option.some.inj hstep
    exact inv_goto h ⟨hbox, rfl⟩
  · rename_i sender hph
    rw [hph] at hbox
    obtain rfl := Option.some.inj hstep
    exact inv_goto h ⟨hbox.1, hbox.2, rfl⟩
  · rename_i sender perm hph
    rw [hph] at hbox
    obtain ⟨⟨hrecv, hsent⟩, rfl, rfl⟩ := hbox
    obtain rfl := Option.some.inj hstep
    refine ⟨h.life, h.running, fun e => ?_⟩
    by_cases he : e = c
    · subst he
      simp only [goto, logRecvd, Function.update_self]
      exact ⟨hrecv, hsent⟩
    · simpa [goto, logRecvd, Function.update_of_ne he] using h.box e
  · exact absurd hstep (by simp)

theorem inv_step (h : Inv w) {a : Act} (hstep : Step w a w') : Inv w' := by
  obtain ⟨hsrc, hs⟩ := hstep
  unfold step at hs
  split at hs
  · split at hs
    · rename_i ha
      obtain ⟨r, k', hk', rfl⟩ := trap_cases hs
      exact inv_tick h ha hk'
    · exact absurd hs (by simp)
  · exact absurd hs (by simp)
  · rename_i c _ hc
    exact inv_userStep h hc hsrc hs

theorem Fresh.inv (h : Fresh w) : Inv w := by
  refine ⟨h.life, h.running, fun c => ?_⟩
  rw [h.idle c, h.sent c, h.recvd c]
  exact ⟨h.recving c, rfl⟩

theorem inv_of_run {h : List Act} (hrun : Run Fresh Step h w) : Inv w :=
  Run.invariant (I := fun _ w => Inv w) (fun _ h0 => h0.inv) (fun _ _ _ _ hi hs => inv_step hi hs)
    hrun

end World

/-! ## Loaded programs -/

/-- The receiving flags and the running environment are the same. -/
def SameWaiting (k k' : Kernel) : Prop :=
  (∀ e, (k'.envs e).ipcRecving = (k.envs e).ipcRecving) ∧ k'.curenv = k.curenv

instance : IsPreorder Kernel SameWaiting where
  refl _ := ⟨fun _ => rfl, rfl⟩
  trans _ _ _ h h' := ⟨fun e => (h'.1 e).trans (h.1 e), h'.2.trans h.2⟩

section Load

open Sys Kern

/-- A procedure that keeps the flags. -/
abbrev KeepsWaiting {α : Type} (m : Kern α) : Prop := Keeps SameWaiting (fun _ => True) m

theorem keeps_setEnv {e : EnvIdx} {f : Env → Env} (hf : ∀ v, (f v).ipcRecving = v.ipcRecving) :
    KeepsWaiting (Kern.setEnv e f) :=
  keeps_modify fun k => ⟨k.setEnv_keeps Env.ipcRecving (hf _), rfl⟩

theorem keeps_modify_rest {f : Kernel → Kernel} (he : ∀ k, (f k).envs = k.envs)
    (hc : ∀ k, (f k).curenv = k.curenv) : KeepsWaiting (modify f : Kern Unit) :=
  keeps_modify fun k => ⟨fun e => by rw [he], hc k⟩

theorem keeps_pages {α : Type} {m : Kern α} (h : OnlyPages m) : KeepsWaiting m := by
  refine keeps_mono ?_ (fun _ _ => trivial) h
  rintro k _ ⟨p, rfl⟩
  exact ⟨fun _ => rfl, rfl⟩

theorem keeps_envSetupVm (e : EnvIdx) : KeepsWaiting (envSetupVm e) := by
  refine keeps_bind (keeps_pages pages_pageAlloc) fun p => ?_
  refine keeps_bind (keeps_modify fun k =>
    ⟨(k.setPmap (k.pmap.incRef p)).setEnv_keeps Env.ipcRecving rfl, rfl⟩) fun _ => ?_
  refine keeps_bind (keeps_pages (pages_setPmap _)) fun _ => ?_
  exact keeps_each (fun i => keeps_pages (pages_mapStacks p i)) _

theorem keeps_asidAlloc : KeepsWaiting asidAlloc := by
  refine keeps_bind keeps_get fun k => ?_
  dsimp only
  split
  · exact keeps_throw _
  · exact keeps_bind (keeps_modify_rest (fun _ => rfl) fun _ => rfl) fun _ => keeps_pure _

theorem keeps_envAlloc (parentId : Word) : KeepsWaiting (envAlloc parentId) := by
  refine keeps_bind keeps_get fun k => ?_
  cases k.envFreeList with
  | nil => exact keeps_throw _
  | cons e _ =>
    refine keeps_bind (keeps_envSetupVm e) fun _ => ?_
    refine keeps_bind (keeps_setEnv fun _ => rfl) fun _ => ?_
    refine keeps_bind (keeps_bind (keeps_modify_rest (fun _ => rfl) fun _ => rfl) fun _ =>
      keeps_bind keeps_get fun _ => keeps_pure _) fun id => ?_
    refine keeps_bind (keeps_setEnv fun _ => rfl) fun _ => ?_
    refine keeps_bind keeps_asidAlloc fun i => ?_
    refine keeps_bind (keeps_setEnv fun _ => rfl) fun _ => ?_
    exact keeps_bind (keeps_modify_rest (fun _ => rfl) fun _ => rfl) fun _ => keeps_pure _

theorem keeps_envCreate (prog : Kern.Program) (priority : Word) :
    KeepsWaiting (envCreate prog priority) := by
  refine keeps_bind (keeps_attempt (keeps_envAlloc _)) fun r => ?_
  cases r with
  | error _ => exact keeps_halt trivial
  | ok e =>
    refine keeps_bind (keeps_setEnv fun _ => rfl) fun _ => ?_
    refine keeps_bind (keeps_bind (keeps_attempt (keeps_pages (pages_loadPages e _)))
      fun r => ?_) fun _ => ?_
    · cases r with
      | error _ => exact keeps_halt trivial
      | ok _ => exact keeps_setEnv fun _ => rfl
    · exact keeps_bind (keeps_modify_rest (fun _ => rfl) fun _ => rfl) fun _ => keeps_pure _

end Load

/-- Programs are loaded into a kernel that runs none. -/
def Loads (k : Kernel) (ev : Event) (k' : Kernel) : Prop :=
  (∃ prog priority, ev = .create prog priority) ∧ k.Step ev k'

/-- The world in which programs start after `env_init` and any `env_create`
calls. -/
theorem World.fresh_of_loads (k₀ : Kernel) {k : Kernel} (hr₀ : ∀ e, (k₀.envs e).ipcRecving = 0#32)
    (hcur₀ : k₀.curenv = none) {evs : List Event} (hrun : Run (· = k₀.envInit) Loads evs k) :
    Fresh ⟨k, fun _ => .idle, fun _ => [], fun _ => []⟩ := by
  obtain ⟨hlife, hrecv, hcur⟩ : LifeInv k ∧ (∀ e, (k.envs e).ipcRecving = 0#32) ∧
      k.curenv = none := by
    refine Run.invariant (I := fun _ k => LifeInv k ∧ (∀ e, (k.envs e).ipcRecving = 0#32) ∧
      k.curenv = none) ?_ ?_ hrun
    · intro k hk
      refine ⟨Booted.life ⟨k₀, hr₀, hk⟩, ?_⟩
      rw [hk, Kernel.envInit, (envInit_rest _ _).2.2.1]
      generalize List.finRange 1024 = es
      obtain ⟨-, -, hr, -⟩ := envInit_loop
        { k₀ with envFreeList := [], envSchedList := k₀.envSchedList.init } es
      exact ⟨fun e => (hr e).trans (hr₀ e), hcur₀⟩
    · rintro _ k _ k' ⟨hl, hr, hc⟩ ⟨⟨prog, priority, rfl⟩, -, r, hk'⟩
      have hcare : k.Careful (.create prog priority) := trivial
      refine ⟨Sys.wp_ok (exec_life hl hcare) hk', ?_⟩
      obtain ⟨hr', hc'⟩ := Sys.wp_ok ((Sys.keeps_bind (keeps_envCreate prog priority) fun _ =>
        Sys.keeps_pure ()) k) hk'
      exact ⟨fun e => (hr' e).trans (hr e), hc'.trans hc⟩
  exact ⟨hlife, fun c hc => absurd (hcur.symm.trans hc) (by simp), hrecv, fun _ => rfl,
    fun _ => rfl, fun _ => rfl⟩

/-! ## Delivery -/

/-- A message was delivered to `c` that the call of `ipc_recv` it is in has not
returned yet. -/
def World.Unread (w : World) (c : EnvIdx) : Prop :=
  (w.k.envs c).ipcRecving = 0#32 ∧
    (w.phase c = .receiving ∨ w.phase c = .gettingFrom ∨ (∃ s, w.phase c = .gettingPerm s) ∨
      ∃ s p, w.phase c = .gettingValue s p)

/-- What has been sent is what has been received, but for the message that is in
the mailbox of `c`. -/
theorem BoxInv.sent_eq {w : World} {c : EnvIdx}
    (h : BoxInv w.k c (w.sent c) (w.recvd c) (w.phase c)) :
    w.sent c = w.recvd c ∨
      (w.Unread c ∧ w.sent c = w.recvd c ++ [(w.k.envs c).message]) := by
  cases hph : w.phase c with
  | idle => rw [hph] at h; exact .inl h.2
  | sending m => rw [hph] at h; exact .inl h.2
  | tried m ret => rw [hph] at h; exact .inl h.1.2
  | backing m => rw [hph] at h; exact .inl h.2
  | receiving =>
    rw [hph] at h
    obtain ⟨-, -, hs⟩ | ⟨-, hf⟩ | ⟨-, he⟩ := h
    · exact .inl hs
    · exact .inr ⟨⟨hf.1, .inl hph⟩, hf.2⟩
    · exact .inl he.2
  | gettingFrom =>
    rw [hph] at h
    exact .inr ⟨⟨h.1, .inr (.inl hph)⟩, h.2⟩
  | gettingPerm s =>
    rw [hph] at h
    exact .inr ⟨⟨h.1.1, .inr (.inr (.inl ⟨s, hph⟩))⟩, h.1.2⟩
  | gettingValue s p =>
    rw [hph] at h
    exact .inr ⟨⟨h.1.1, .inr (.inr (.inr ⟨s, p, hph⟩))⟩, h.1.2⟩
  | panicked => rw [hph] at h; exact .inl h.2

/-- A try that returns `-E_IPC_NOT_RECV` leaves the kernel as it was, but for the
frame of the caller. -/
theorem World.notRecv_nothing {w w' : World} (h : Inv w) {tf : Trapframe}
    (hstep : World.Step w (.trySend tf) w') (hr : w'.k.active.regs 10 = notRecv) :
    w'.sent = w.sent ∧ w'.k = { w.k with active := w'.k.active } := by
  obtain ⟨hsrc, hs⟩ := hstep
  unfold World.step at hs
  cases hc : w.k.curenv with
  | none => simp [hc] at hs
  | some c =>
    simp only [hc] at hs
    unfold World.userStep at hs
    split at hs
    case h_2 tf' m hact hph =>
      obtain ⟨r, k', hk', rfl⟩ := World.trap_cases hs
      have hmap := hsrc tf c m rfl hc hph
      have hne : k'.active.regs 10 ≠ 0#32 := by
        rw [hr]
        decide
      injection hact with htf
      subst htf
      obtain ⟨hcur, ⟨hzero, -⟩ | ⟨-, hsame⟩⟩ :=
        Sys.wp_ok (Kern.handle_trySend h.life hc hmap tf m.whom m.value m.perm) hk'
      · exact absurd (by simpa [Kernel.a0, hcur] using hzero) hne
      · refine ⟨?_, hsame⟩
        simp only [World.goto, World.logTry, if_neg hne]
    all_goals simp_all

/-- Over every run: each message that was sent is received once and in order, a
try that is turned away delivers nothing, the caller sees what the kernel
returned, and the queue holds each runnable environment once. -/
theorem ipc_exactly_once {h : List Act} {w : World} (hrun : Run World.Fresh World.Step h w) :
    (∀ c, w.sent c = w.recvd c ∨
      (w.Unread c ∧ w.sent c = w.recvd c ++ [(w.k.envs c).message])) ∧
    (∀ tf w', w.Step (.trySend tf) w' → w'.k.active.regs 10 = notRecv →
      w'.sent = w.sent ∧ w'.k = { w.k with active := w'.k.active }) ∧
    (∀ c m ret, w.phase c = .tried m ret → w.k.a0 c = ret) ∧
    ∃ xs, w.k.envSchedList.Rep xs ∧
      ∀ e, xs.count e = if (w.k.envs e).status = .runnable then 1 else 0 := by
  have hinv := World.inv_of_run hrun
  refine ⟨fun c => (hinv.box c).sent_eq, fun tf w' => World.notRecv_nothing hinv, ?_,
    hinv.life.inStep.sched⟩
  intro c m ret hph
  have hbox := hinv.box c
  rw [hph] at hbox
  exact hbox.2

/-- Two programs are loaded; the second waits, and the first sends it a word. -/
theorem ipc_exactly_once_word : ∃ h w, Run World.Fresh World.Step h w ∧
    w.recvd 1 = [⟨2048#32, 7#32, pteV⟩] ∧
      (w.sent 1 = w.recvd 1 ∨ (w.Unread 1 ∧ w.sent 1 = w.recvd 1 ++ [(w.k.envs 1).message])) := by
  let load : Event → Kernel → Option Kernel := fun ev k => match ev with
    | .create _ _ => Kernel.next ev k
    | _ => none
  have hload : ∀ ev k k', load ev k = some k' → Loads k ev k' := by
    intro ev k k' h
    simp only [load] at h
    split at h
    · exact ⟨⟨_, _, rfl⟩, Kernel.step_of_next _ k k' h⟩
    · exact absurd h (by simp)
  let move : Act → World → Option World := fun a w => match a with
    | .trySend _ => match w.k.curenv with
      | none => none
      | some c => match w.phase c with
        | .sending m => if m.srcva = 0#32 then World.step a w else none
        | _ => none
    | _ => World.step a w
  have hmove : ∀ a w w', move a w = some w' → w.Step a w' := by
    intro a w w' h
    refine ⟨fun tf c m ha hc hph => ?_, ?_⟩
    · subst ha
      simp only [move, hc, hph] at h
      split at h
      · rename_i h0
        exact .inl h0
      · exact absurd h (by simp)
    · simp only [move] at h
      split at h
      · split at h
        · exact absurd h (by simp)
        · split at h
          · split at h
            · exact h
            · exact absurd h (by simp)
          · exact absurd h (by simp)
      · exact h
  have hend : ((Run.follow load [.create ⟨[], 0#32⟩ 1#32, .create ⟨[], 0#32⟩ 1#32]
      zeroKernel.envInit).map fun k =>
        (Run.follow move [.tick zeroTf, .callRecv zeroTf 0#32,
          .callSend ⟨4097#32, 7#32, 0#32, 0#32⟩, .trySend zeroTf, .checkSend, .yield zeroTf,
          .checkRecv, .readFrom, .readPerm, .readValue]
          ⟨k, fun _ => .idle, fun _ => [], fun _ => []⟩).map fun w => w.recvd 1) =
      some (some [⟨2048#32, 7#32, pteV⟩]) := by
    decide +kernel
  obtain ⟨k, hk, heq⟩ := Option.map_eq_some_iff.mp hend
  obtain ⟨w, hw, hlog⟩ := Option.map_eq_some_iff.mp heq
  have hfresh := World.fresh_of_loads zeroKernel (fun _ => rfl) rfl
    (Run.of_follow hload (.start rfl) hk)
  have hrun := Run.of_follow hmove (.start hfresh) hw
  exact ⟨_, w, hrun, hlog, (ipc_exactly_once hrun).1 1⟩

end Ipc
end RvMos
