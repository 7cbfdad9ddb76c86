/-
A message that is sent entirely or not at all.

`e_ipc_try_send` fills the mailbox, wakes the receiver and only then looks for the
page.  So a call that fails at the page has delivered a message all the same, a
call that cannot insert the page returns 0, and `PTE_V` in `env_ipc_perm` does not
tell whether a page came with the message.  The theorem of this file says when the
call is all or nothing: where it fails before the mailbox, and where a page is
sent, found, asked for and inserted.
-/
import RvMos.Kern.Perms

namespace RvMos

open Lib

/-! ## All or nothing -/

/-- What a call that returned 0 has done. -/
structure Kernel.Sent (k : Kernel) (c e : EnvIdx) (value srcva : Word) (k' : Kernel) : Prop where
  status : (k'.envs e).status = .runnable
  recving : (k'.envs e).ipcRecving = 0#32
  value : (k'.envs e).ipcValue = value
  sender : (k'.envs e).ipcFrom = (k.envs c).id
  page : srcva ≠ 0#32 → (k.envs e).ipcDstva ≠ 0#32 → ∃ ds d pp p p', (k.envs c).pgdir = some ds ∧
    (k.envs e).pgdir = some d ∧ k.pmap.pageLookup ds srcva = .ok (some (pp, p)) ∧
    k'.pmap.pageLookup d (k.envs e).ipcDstva = .ok (some (pp, p'))
  none : srcva = 0#32 ∨ (k.envs e).ipcDstva = 0#32 → k'.pmap = k.pmap
  perm : (k'.envs e).ipcPerm &&& pteV ≠ 0#32 ↔ srcva ≠ 0#32 ∧ (k.envs e).ipcDstva ≠ 0#32

/-- The call returns an error and has done nothing, or returns 0 and has sent the
whole message. -/
def Kernel.AllOrNothing (k : Kernel) (envid value srcva perm : Word) : Prop :=
  (∀ x k', Kern.eIpcTrySend envid value srcva perm k = .ok (.error x, k') → k' = k) ∧
    ∀ k', Kern.eIpcTrySend envid value srcva perm k = .ok (.ok (), k') →
      ∃ c e, k.curenv = some c ∧ k.target envid false = some e ∧ k.Sent c e value srcva k'

/-- The call fails before it fills the mailbox, or the message is with a page: the
sender has one, the receiver asked for one, it can be inserted, and the permission
word has no stray bit. -/
def Kernel.Sendable (k : Kernel) (envid srcva perm : Word) : Prop :=
  (srcva ≠ 0#32 ∧ Kern.isIllegalVa srcva = true) ∨
  (∃ e, k.target envid false = some e ∧ (k.envs e).ipcRecving = 0#32) ∨
  srcva ≠ 0#32 ∧ ∃ c e ds d pp p, k.curenv = some c ∧ k.target envid false = some e ∧
    (k.envs c).pgdir = some ds ∧ (k.envs e).pgdir = some d ∧ (k.envs e).ipcDstva ≠ 0#32 ∧
    k.pmap.pageLookup ds srcva = .ok (some (pp, p)) ∧ NoStray perm pp ∧
    (k.pmap.tableOf d (pdx (k.envs e).ipcDstva) ≠ none ∨ k.pmap.pageFreeList ≠ [])

namespace Kern

open Sys

section TrySend

variable {L : Layout} {k : Kernel} {c e : EnvIdx} {envid value srcva perm : Word}

theorem target_of_cur (hc : k.curenv = some c) (envid : Word) :
    ∃ e, k.target envid false = some e := by
  unfold Kernel.target
  by_cases h0 : envid = 0#32
  · rw [if_pos h0, hc]
    exact ⟨c, rfl⟩
  · rw [if_neg h0, if_neg (by simp)]
    exact ⟨_, rfl⟩

theorem delivered_self (k : Kernel) (c e : EnvIdx) (value perm : Word) (q : TailQueue EnvIdx) :
    (delivered k c e value perm q).envs e =
      { k.envs e with
        ipcValue := value
        ipcFrom := (k.envs c).id
        ipcPerm := pteV ||| perm
        ipcRecving := 0#32
        status := .runnable } :=
  Function.update_self ..

/-- The mailbox is filled in any case, so `PTE_V` is always set. -/
theorem perm_valid (perm : Word) : (pteV ||| perm) &&& pteV ≠ 0#32 := by
  have hv := valid_or_pteV perm
  rw [BitVec.or_comm] at hv
  simpa [valid] using hv

/-- The insertion of the page succeeds exactly when its table is there or can be
allocated. -/
theorem pageInsert_fails_iff {s : Pmap} {d f : Frame} {va p : Word} (hI : s.Inv L)
    (hd : s.Dir L d) (hc : s.Counted L d va) :
    (∃ s', s.pageInsert d f va p = .ok (.ok (), s')) ↔
      s.tableOf d (pdx va) ≠ none ∨ s.pageFreeList ≠ [] := by
  rcases Pmap.pageInsert_outcome hI hd f p hc with ⟨hok, hr⟩ | ⟨htab, hnil, hr⟩
  · exact ⟨fun _ => hok, fun _ => hr⟩
  · constructor
    · rintro ⟨s', hs'⟩
      rw [hr] at hs'
      exact absurd hs' (by simp)
    · rintro (ht | hf)
      · exact absurd htab ht
      · exact absurd hnil hf

/-- With a page: everything hangs on where it goes and whether it gets there. -/
theorem allOrNothing_page (h : LifeInv k) (hL : Spaces L k) (hc : k.curenv = some c)
    (he : k.target envid false = some e) (hrecv : (k.envs e).ipcRecving ≠ 0#32)
    (h0 : srcva ≠ 0#32) (hva : isIllegalVa srcva = false) {ds d pp : Frame} {p : PtePtr}
    (hds : (k.envs c).pgdir = some ds) (hd : (k.envs e).pgdir = some d)
    (hl : k.pmap.pageLookup ds srcva = .ok (some (pp, p))) :
    k.AllOrNothing envid value srcva perm ↔ (k.envs e).ipcDstva ≠ 0#32 ∧ NoStray perm pp ∧
      (k.pmap.tableOf d (pdx (k.envs e).ipcDstva) ≠ none ∨ k.pmap.pageFreeList ≠ []) := by
  obtain ⟨q, hq⟩ := receiver_queued h hrecv
  obtain ⟨hle, hlt⟩ := hL.recv e hrecv
  obtain ⟨d', hd', hdir, -, hcnt⟩ := hL.own hle hlt
  obtain rfl := Option.some.inj (hd.symm.trans hd')
  obtain ⟨r, s, hi⟩ := Pmap.pageInsert_total hL.inv hdir pp perm hcnt
  have hcall : eIpcTrySend envid value srcva perm k =
      .ok (.ok (), (delivered k c e value perm q).setPmap s) :=
    eIpcTrySend_page hva h0 he hrecv hc hq hds hd hl hi
  have hself : ((delivered k c e value perm q).setPmap s).envs e = _ :=
    delivered_self k c e value perm q
  constructor
  · rintro ⟨-, hok⟩
    obtain ⟨c', e', hc', he', hsent⟩ := hok _ hcall
    obtain rfl := Option.some.inj (hc.symm.trans hc')
    obtain rfl := Option.some.inj (he.symm.trans he')
    have hperm := hsent.perm
    rw [hself] at hperm
    have hdst := (hperm.mp (perm_valid perm)).2
    obtain ⟨ds', d', pp', p₁, p₂, hds', hd', hl', hl''⟩ := hsent.page h0 hdst
    obtain rfl := Option.some.inj (hds.symm.trans hds')
    obtain rfl := Option.some.inj (hd.symm.trans hd')
    obtain ⟨rfl, -⟩ := Prod.mk.inj (Option.some.inj (Except.ok.inj (hl.symm.trans hl')))
    -- the receiver finds the page, so the insertion went well
    have hins : r = .ok () := by
      rcases Pmap.pageInsert_cases hL.inv hdir pp perm hcnt with
        ⟨t, -, -, -, -, hr⟩ | ⟨t, old, -, -, -, -, -, hr⟩ | ⟨t, -, -, -, -, hr⟩ |
        ⟨t, s₁, -, -, -, hr⟩ | ⟨-, hz, -, hr⟩ <;> rw [hr] at hi
      · exact (Prod.mk.inj (Except.ok.inj hi)).1.symm
      · exact (Prod.mk.inj (Except.ok.inj hi)).1.symm
      · exact (Prod.mk.inj (Except.ok.inj hi)).1.symm
      · exact (Prod.mk.inj (Except.ok.inj hi)).1.symm
      · have hs : k.pmap = s := (Prod.mk.inj (Except.ok.inj hi)).2
        have hnone : s.pageLookup d (k.envs e).ipcDstva = .ok none := by
          rw [← hs]
          exact Pmap.pageLookup_clear hz
        rw [show ((delivered k c e value perm q).setPmap s).pmap = s from rfl, hnone] at hl''
        exact absurd hl'' (by simp)
    rw [hins] at hi
    obtain ⟨t, hm, hw⟩ := Pmap.pageInsert_entry hL.inv hdir hcnt hi
    exact ⟨hdst, (Pmap.pageLookup_mkPte hm hw).mp ⟨p₂, hl''⟩,
      (pageInsert_fails_iff hL.inv hdir hcnt).mp ⟨s, hi⟩⟩
  · rintro ⟨hdst, hst, htab⟩
    obtain ⟨s', hi'⟩ := (pageInsert_fails_iff (f := pp) (p := perm) hL.inv hdir hcnt).mpr htab
    rw [hi'] at hi
    obtain ⟨rfl, rfl⟩ := Prod.mk.inj (Except.ok.inj hi)
    obtain ⟨t, hm, hw⟩ := Pmap.pageInsert_entry hL.inv hdir hcnt hi'
    obtain ⟨p', hp'⟩ := (Pmap.pageLookup_mkPte hm hw).mpr hst
    refine ⟨fun x k' hx => ?_, fun k' hk' => ⟨c, e, hc, he, ?_⟩⟩
    · rw [hcall] at hx
      exact absurd hx (by simp)
    · rw [hcall] at hk'
      obtain ⟨-, rfl⟩ := Prod.mk.inj (Except.ok.inj hk')
      refine ⟨?_, ?_, ?_, ?_, fun _ _ => ⟨ds, d, pp, p, p', hds, hd, hl, hp'⟩, ?_, ?_⟩
      · rw [hself]
      · rw [hself]
      · rw [hself]
      · rw [hself]
      · rintro (hz | hz)
        · exact absurd hz h0
        · exact absurd hz hdst
      · rw [hself]
        exact ⟨fun _ => ⟨h0, hdst⟩, fun _ => perm_valid perm⟩

theorem allOrNothing_iff (h : LifeInv k) (hL : Spaces L k) (hc : k.curenv = some c)
    (envid value srcva perm : Word) :
    k.AllOrNothing envid value srcva perm ↔ k.Sendable envid srcva perm := by
  obtain ⟨e, he⟩ := target_of_cur hc envid
  -- a call that fails before the mailbox has changed nothing
  have hearly : ∀ {x : Errno}, eIpcTrySend envid value srcva perm k = .ok (.error x, k) →
      k.AllOrNothing envid value srcva perm := by
    intro x hx
    refine ⟨fun y k' hy => ?_, fun k' hk' => ?_⟩
    · rw [hx] at hy
      exact (Prod.mk.inj (Except.ok.inj hy)).2.symm
    · rw [hx] at hk'
      exact absurd hk' (by simp)
  by_cases hill : srcva ≠ 0#32 ∧ isIllegalVa srcva = true
  · exact ⟨fun _ => .inl hill, fun _ => hearly (eIpcTrySend_illegal hill)⟩
  by_cases hrecv : (k.envs e).ipcRecving = 0#32
  · exact ⟨fun _ => .inr (.inl ⟨e, he, hrecv⟩), fun _ => hearly (eIpcTrySend_deaf hill he hrecv)⟩
  obtain ⟨q, hq⟩ := receiver_queued h hrecv
  have hnot : k.Sendable envid srcva perm → srcva ≠ 0#32 ∧ ∃ ds d pp p,
      (k.envs c).pgdir = some ds ∧ (k.envs e).pgdir = some d ∧ (k.envs e).ipcDstva ≠ 0#32 ∧
      k.pmap.pageLookup ds srcva = .ok (some (pp, p)) ∧ NoStray perm pp ∧
      (k.pmap.tableOf d (pdx (k.envs e).ipcDstva) ≠ none ∨ k.pmap.pageFreeList ≠ []) := by
    rintro (hi | ⟨e', he', hz⟩ | ⟨h0, c', e', ds, d, pp, p, hc', he', hrest⟩)
    · exact absurd hi hill
    · rw [← Option.some.inj (he.symm.trans he')] at hz
      exact absurd hz hrecv
    · obtain rfl := Option.some.inj (hc.symm.trans hc')
      obtain rfl := Option.some.inj (he.symm.trans he')
      exact ⟨h0, ds, d, pp, p, hrest⟩
  by_cases h0 : srcva = 0#32
  · -- the flag says that there is a page
    subst h0
    refine ⟨fun hall => ?_, fun hs => absurd rfl (hnot hs).1⟩
    obtain ⟨c', e', hc', he', hsent⟩ := hall.2 _ (eIpcTrySend_null he hrecv hc hq)
    obtain rfl := Option.some.inj (he.symm.trans he')
    have hperm := hsent.perm
    rw [delivered_self] at hperm
    exact absurd rfl (hperm.mp (perm_valid perm)).1
  · have hva : isIllegalVa srcva = false := Bool.eq_false_iff.mpr fun hi => hill ⟨h0, hi⟩
    have hlc := (hL.cur c hc).1
    obtain ⟨ds, hds, hdir, -, hcnt⟩ := hL.own hlc (lt_utop_of_legal hva)
    obtain ⟨d, hd, -⟩ := hL.dir e (hL.recv e hrecv).1
    cases hlook : k.pmap.pageLookup ds srcva with
    | error x =>
      rw [Pmap.pageLookup_eq hL.inv.toForest hdir hcnt] at hlook
      exact absurd hlook (by simp)
    | ok o =>
      cases o with
      | none =>
        -- the receiver has been woken already
        refine ⟨fun hall => ?_, fun hs => ?_⟩
        · have hsame := hall.1 _ _ (eIpcTrySend_unmapped hva h0 he hrecv hc hq hds hlook)
          have hr := congrArg (fun k => (k.envs e).ipcRecving) hsame
          simp only [delivered_self] at hr
          exact absurd hr.symm hrecv
        · obtain ⟨-, ds', d', pp, p, hds', -, -, hl, -⟩ := hnot hs
          obtain rfl := Option.some.inj (hds.symm.trans hds')
          rw [hlook] at hl
          exact absurd hl (by simp)
      | some x =>
        obtain ⟨pp, p⟩ := x
        rw [allOrNothing_page h hL hc he hrecv h0 hva hds hd hlook]
        refine ⟨fun ⟨hdst, hst, htab⟩ => .inr (.inr ⟨h0, c, e, ds, d, pp, p, hc, he, hds, hd, hdst,
          hlook, hst, htab⟩), fun hs => ?_⟩
        obtain ⟨-, ds', d', pp', p', hds', hd', hdst, hl, hst, htab⟩ := hnot hs
        obtain rfl := Option.some.inj (hds.symm.trans hds')
        obtain rfl := Option.some.inj (hd.symm.trans hd')
        obtain ⟨rfl, -⟩ := Prod.mk.inj (Option.some.inj (Except.ok.inj (hlook.symm.trans hl)))
        exact ⟨hdst, hst, htab⟩

end TrySend

end Kern

/-- In every orderly run and for all arguments, `e_ipc_try_send` is all or nothing
exactly when it fails before the mailbox or sends a page that arrives. -/
theorem try_send_all_or_nothing {h : List Event} {k : Kernel}
    (hrun : Run Started Kernel.OrderlyStep h k) (hcur : k.curenv ≠ none) (a : Trapframe)
    (envid value srcva perm : Word) :
    Kernel.AllOrNothing { k with active := a } envid value srcva perm ↔
      k.Sendable envid srcva perm := by
  have hord := Ordered.of_run hrun
  obtain ⟨L, hL⟩ := hord.spaces
  obtain ⟨c, hc⟩ := Option.ne_none_iff_exists'.mp hcur
  exact Kern.allOrNothing_iff (k := { k with active := a }) (hord.life.congr (SameLife.of_envs rfl rfl rfl rfl))
    (Spaces.congr hL rfl rfl rfl rfl rfl) hc envid value srcva perm

/-- A program forks; the child waits for a message with a page at the first
address, and the parent allocates a page there. -/
def waitForPage : List Event :=
  [.create ⟨[], 0#32⟩ 1#32, .trap zeroTf .timer, .trap zeroTf (.ecall .exofork),
    .trap zeroTf (.ecall (.setEnvStatus 4097#32 1#32)), .trap zeroTf (.ecall .yield),
    .trap zeroTf (.ecall (.ipcRecv (pageAddr 0))),
    .trap zeroTf (.ecall (.memAlloc 0#32 (pageAddr 0) (pteW ||| pteU)))]

theorem waitForPage_run : ∃ h k, Run Started Kernel.OrderlyStep h k ∧
    Run.follow Kernel.orderlyNext waitForPage zeroKernel.envInit = some k ∧
    k.curenv = some 0 ∧ (k.envs 1).ipcRecving = 1#32 := by
  have hend : ((Run.follow Kernel.orderlyNext waitForPage zeroKernel.envInit).map fun k =>
      (k.curenv, (k.envs 1).ipcRecving)) = some (some 0, 1#32) := by
    decide +kernel
  obtain ⟨k, hk, heq⟩ := Option.map_eq_some_iff.mp hend
  obtain ⟨hcur, hrecv⟩ := Prod.mk.inj heq
  exact ⟨_, k, Run.of_follow Kernel.orderlyStep_of_next (.start zeroKernel_started) hk, hk, hcur,
    hrecv⟩

/-- The parent sends the page to the child. -/
theorem try_send_all_or_nothing_page : ∃ h k, Run Started Kernel.OrderlyStep h k ∧
    (k.envs 1).ipcRecving = 1#32 ∧
    k.AllOrNothing 4097#32 7#32 (pageAddr 0) (pteW ||| pteU) := by
  obtain ⟨h, k, hrun, hk, hcur, hrecv⟩ := waitForPage_run
  have hend : ((Run.follow Kernel.orderlyNext waitForPage zeroKernel.envInit).bind fun k =>
      (k.envs 0).pgdir.bind fun ds => (k.envs 1).pgdir.bind fun d =>
        (k.pmap.pageFound ds (pageAddr 0)).map fun x => (k.target 4097#32 false,
          (k.envs 1).ipcDstva, decide (NoStray (pteW ||| pteU) x.1), d,
          k.pmap.pageFreeList.isEmpty)) = some (some 1, pageAddr 0, true, 10, false) := by
    decide +kernel
  rw [hk, Option.bind_some] at hend
  obtain ⟨ds, hds, hend⟩ := Option.bind_eq_some_iff.mp hend
  obtain ⟨d, hd, hend⟩ := Option.bind_eq_some_iff.mp hend
  obtain ⟨x, hl, heq⟩ := Option.map_eq_some_iff.mp hend
  simp only [Prod.mk.injEq] at heq
  obtain ⟨htgt, hdst, hst, -, hfree⟩ := heq
  refine ⟨h, k, hrun, hrecv, (try_send_all_or_nothing hrun (by rw [hcur]; simp) k.active 4097#32
    7#32 (pageAddr 0) (pteW ||| pteU)).mpr (.inr (.inr ⟨by decide, 0, 1, ds, d, x.1, x.2, hcur,
      htgt, hds, hd, ?_, Pmap.pageLookup_of_found hl, of_decide_eq_true hst, .inr ?_⟩))⟩
  · rw [hdst]
    decide
  · intro hnil
    rw [hnil] at hfree
    exact absurd hfree (by simp)

/-- The parent names an address where it has no page: the call fails, and the child
has been woken with the value. -/
theorem try_send_all_or_nothing_fails : ¬∀ (h : List Event) (k : Kernel),
    Run Started Kernel.Step h k → k.curenv ≠ none →
    ∀ envid value srcva perm, k.AllOrNothing envid value srcva perm := by
  intro hall
  obtain ⟨h, k, hrun, hk, hcur, hrecv⟩ := waitForPage_run
  have hend : ((Run.follow Kernel.orderlyNext waitForPage zeroKernel.envInit).bind fun k =>
      (Sys.refused (Kern.eIpcTrySend 4097#32 7#32 (pageAddr 1) (pteW ||| pteU) k)).map fun k' =>
        (k'.envs 1).ipcRecving) = some 0#32 := by
    decide +kernel
  rw [hk, Option.bind_some] at hend
  obtain ⟨k', href, hzero⟩ := Option.map_eq_some_iff.mp hend
  obtain ⟨x, hcall⟩ := Sys.refused_eq_some.mp href
  have hsame := (hall h k (hrun.mono fun _ _ _ hs => hs.2.2) (by rw [hcur]; simp) 4097#32 7#32
    (pageAddr 1) (pteW ||| pteU)).1 x k' hcall
  rw [hsame, hrecv] at hzero
  exact absurd hzero (by decide)

end RvMos
