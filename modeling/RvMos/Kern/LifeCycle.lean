/-
The life cycle of environments.

`Life st k` says that the free list, the run queue, the receiving flags and the
ASIDs of `k` agree with a status `st` for every environment.  Between two traps
`st` is the status word itself; inside a handler the two differ while an
environment is being built or taken apart, and each queue operation moves `st`
at one place.

What is not quiet are `env_alloc`, `env_free`, the scheduler and three system
calls.  Each has one lemma that says how it moves the invariant.
-/
import RvMos.Kern.Quiet
import RvMos.Lib.Run

namespace RvMos

open Lib

/-! ## The ASID bitmap -/

/-- The bit of an ASID is set. -/
def Marked (bm : Fin 16 → Word) (i : Fin 512) : Prop :=
  bm (Kern.asidWord i) &&& Kern.asidMask i ≠ 0#32

section Asid

open Kern

theorem one_shift_bit {n : Nat} (hn : n < 32) (i : Nat) :
    (1#32 <<< n).getLsbD i = decide (i = n) := by
  rw [BitVec.getLsbD_shiftLeft, BitVec.getLsbD_one]
  by_cases h : i = n
  · simp [h, hn]
  · by_cases hl : i < n
    · simp [hl, h]
    · have h0 : i - n ≠ 0 := by omega
      simp [h0, h]

theorem and_bit_ne_zero (x : Word) {n : Nat} (hn : n < 32) :
    x &&& (1#32 <<< n) ≠ 0#32 ↔ x.getLsbD n = true := by
  constructor
  · intro h
    by_contra hf
    refine h (BitVec.eq_of_getLsbD_eq fun i _ => ?_)
    rw [BitVec.getLsbD_and, one_shift_bit hn, BitVec.getLsbD_zero]
    by_cases hin : i = n
    · rw [hin, Bool.eq_false_iff.mpr hf, Bool.false_and]
    · simp [hin]
  · intro hb h0
    have hbit := congrArg (fun w => BitVec.getLsbD w n) h0
    simp only [BitVec.getLsbD_and, one_shift_bit hn, hb, BitVec.getLsbD_zero] at hbit
    exact absurd hbit (by simp)

theorem asid_index (i : Fin 512) : (asidWord i).val = i.val / 32 := by
  have hi : i.val < 512 := i.isLt
  simp only [asidWord, Fin.ofNat, Nat.shiftRight_eq_div_pow]
  omega

theorem marked_iff (bm : Fin 16 → Word) (i : Fin 512) :
    Marked bm i ↔ (bm (asidWord i)).getLsbD (i.val % 32) = true := by
  have hm : i.val &&& 31 = i.val % 32 := Nat.and_two_pow_sub_one_eq_mod i.val 5
  unfold Marked asidMask
  rw [hm]
  exact and_bit_ne_zero _ (Nat.mod_lt _ (by omega))

theorem asidMask_bit (i : Fin 512) (n : Nat) :
    (asidMask i).getLsbD n = decide (n = i.val % 32) := by
  have hm : i.val &&& 31 = i.val % 32 := Nat.and_two_pow_sub_one_eq_mod i.val 5
  unfold asidMask
  rw [hm]
  exact one_shift_bit (Nat.mod_lt _ (by omega)) n

/-- Two ASIDs with the same word and the same bit are the same. -/
theorem asid_ext {i j : Fin 512} (hw : asidWord i = asidWord j) (hb : i.val % 32 = j.val % 32) :
    i = j := by
  have h := congrArg Fin.val hw
  rw [asid_index, asid_index] at h
  exact Fin.ext (by omega)

theorem marked_set (bm : Fin 16 → Word) (i j : Fin 512) :
    Marked (Function.update bm (asidWord i) (bm (asidWord i) ||| asidMask i)) j ↔
      Marked bm j ∨ i = j := by
  rw [marked_iff, marked_iff]
  by_cases hw : asidWord j = asidWord i
  · rw [hw, Function.update_self, BitVec.getLsbD_or, asidMask_bit, Bool.or_eq_true,
      decide_eq_true_iff]
    exact or_congr_right ⟨fun h => asid_ext hw.symm h.symm, fun h => by rw [h]⟩
  · rw [Function.update_of_ne hw]
    exact ⟨Or.inl, fun h => h.resolve_right fun e => hw (by rw [e])⟩

theorem marked_clear (bm : Fin 16 → Word) (i j : Fin 512) :
    Marked (Function.update bm (asidWord i) (bm (asidWord i) &&& ~~~asidMask i)) j ↔
      Marked bm j ∧ i ≠ j := by
  rw [marked_iff, marked_iff]
  by_cases hw : asidWord j = asidWord i
  · have hlt : j.val % 32 < 32 := Nat.mod_lt _ (by omega)
    rw [hw, Function.update_self, BitVec.getLsbD_and, BitVec.getLsbD_not, asidMask_bit]
    simp only [Bool.and_eq_true, decide_eq_true_iff, Bool.not_eq_true', decide_eq_false_iff_not,
      hlt, true_and]
    exact and_congr_right fun _ => not_congr
      ⟨fun h => asid_ext hw.symm h.symm, fun h => by rw [h]⟩
  · rw [Function.update_of_ne hw]
    exact ⟨fun h => ⟨h, fun e => hw (by rw [e])⟩, fun h => h.1⟩

end Asid

/-! ## The invariant -/

/-- Queues, flags and ASIDs agree with the status `st`. -/
structure Life (st : EnvIdx → EnvStatus) (k : Kernel) : Prop where
  free_nodup : k.envFreeList.Nodup
  mem_free : ∀ e, e ∈ k.envFreeList ↔ st e = .free
  sched : ∃ xs, k.envSchedList.Rep xs ∧ ∀ e, e ∈ xs ↔ st e = .runnable
  recving : ∀ e, (k.envs e).ipcRecving ≠ 0#32 → st e = .notRunnable
  asid_inj : ∀ e c, st e ≠ .free → st c ≠ .free → (k.envs e).asid = (k.envs c).asid → e = c
  marked : ∀ e, st e ≠ .free → Marked k.asidBitmap (k.envs e).asid

/-- The status words. -/
def Kernel.statuses (k : Kernel) : EnvIdx → EnvStatus := fun e => (k.envs e).status

/-- The invariant between two traps. -/
def LifeInv (k : Kernel) : Prop := Life k.statuses k

section Life

variable {st : EnvIdx → EnvStatus} {k k' : Kernel} {e : EnvIdx}

theorem Life.congr (h : Life st k) (hs : SameLife k k') : Life st k' := by
  refine ⟨hs.free ▸ h.free_nodup, fun e => hs.free ▸ h.mem_free e, hs.sched ▸ h.sched, ?_, ?_, ?_⟩
  · intro e
    rw [hs.recving e]
    exact h.recving e
  · intro e c
    rw [hs.asid e, hs.asid c]
    exact h.asid_inj e c
  · intro e
    rw [hs.asid e, hs.bitmap]
    exact h.marked e

theorem SameLife.statuses (hs : SameLife k k') : k'.statuses = k.statuses :=
  funext fun e => hs.status e

theorem LifeInv.congr (h : LifeInv k) (hs : SameLife k k') : LifeInv k' := by
  unfold LifeInv
  rw [hs.statuses]
  exact Life.congr h hs

/-- A change of one environment that the queues do not see.  Its receiving flag
may be set where it waits. -/
theorem Life.setEnv (h : Life st k) {f : Env → Env}
    (hr : (f (k.envs e)).ipcRecving ≠ 0#32 → st e = .notRunnable)
    (ha : ∀ v, (f v).asid = v.asid) : Life st (k.setEnv e f) := by
  have hasid : ∀ c, ((k.setEnv e f).envs c).asid = (k.envs c).asid :=
    k.setEnv_keeps Env.asid (ha _)
  refine ⟨h.free_nodup, h.mem_free, h.sched, ?_, ?_, ?_⟩
  · intro c
    by_cases hc : c = e
    · rw [hc, Kernel.setEnv_self]
      exact hr
    · rw [Kernel.setEnv_of_ne f hc]
      exact h.recving c
  · intro c c'
    rw [hasid c, hasid c']
    exact h.asid_inj c c'
  · intro c
    rw [hasid c]
    exact h.marked c

theorem statuses_setEnv (k : Kernel) (e : EnvIdx) {f : Env → Env} {s : EnvStatus}
    (hs : ∀ v, (f v).status = s) :
    (k.setEnv e f).statuses = Function.update k.statuses e s := by
  funext c
  by_cases hc : c = e
  · rw [hc, Function.update_self]
    exact (congrArg Env.status (Kernel.setEnv_self k e f)).trans (hs _)
  · rw [Function.update_of_ne hc]
    exact congrArg Env.status (Kernel.setEnv_of_ne f hc)

/-- The status word catches up with the queues. -/
theorem Life.setStatus {f : Env → Env} {s : EnvStatus}
    (h : Life (Function.update k.statuses e s) k) (hs : ∀ v, (f v).status = s)
    (hr : (f (k.envs e)).ipcRecving ≠ 0#32 → s = .notRunnable)
    (ha : ∀ v, (f v).asid = v.asid) : LifeInv (k.setEnv e f) := by
  unfold LifeInv
  rw [statuses_setEnv k e hs]
  exact h.setEnv (fun hf => (Function.update_self ..).trans (hr hf)) ha

/-- The receiving flag as it is. -/
theorem Life.recving_update {s : EnvStatus} (h : Life (Function.update st e s) k)
    (hr : (k.envs e).ipcRecving ≠ 0#32) : s = .notRunnable := by
  have := h.recving e hr
  rwa [Function.update_self] at this

theorem Life.recving_zero (h : Life st k) (he : st e ≠ .notRunnable) :
    (k.envs e).ipcRecving = 0#32 := by
  by_contra hr
  exact he (h.recving e hr)

/-- A runnable environment is taken off the queue. -/
theorem Life.dequeue (h : Life st k) (he : st e = .runnable) :
    ∃ q, k.envSchedList.remove e = some q ∧
      Life (Function.update st e .notRunnable) { k with envSchedList := q } := by
  obtain ⟨xs, hrep, hmem⟩ := h.sched
  obtain ⟨q, hq, hrep'⟩ := hrep.remove ((hmem e).mpr he)
  have hne : ∀ c, Function.update st e .notRunnable c ≠ .free → st c ≠ .free := by
    intro c hc
    by_cases hce : c = e
    · rw [hce, he]
      simp
    · rwa [Function.update_of_ne hce] at hc
  refine ⟨q, hq, h.free_nodup, ?_, ⟨xs.erase e, hrep', ?_⟩, ?_, ?_, ?_⟩
  · intro c
    rw [h.mem_free c]
    by_cases hce : c = e
    · subst hce
      rw [Function.update_self, he]
      simp
    · rw [Function.update_of_ne hce]
  · intro c
    rw [hrep.nodup.mem_erase_iff, hmem c]
    by_cases hce : c = e
    · subst hce
      rw [Function.update_self]
      simp
    · rw [Function.update_of_ne hce]
      exact and_iff_right hce
  · intro c hr
    by_cases hce : c = e
    · rw [hce, Function.update_self]
    · rw [Function.update_of_ne hce]
      exact h.recving c hr
  · intro c c' hc hc'
    exact h.asid_inj c c' (hne c hc) (hne c' hc')
  · intro c hc
    exact h.marked c (hne c hc)

/-- What any insertion of a waiting environment into the queue gives. -/
theorem Life.enqueue (h : Life st k) (he : st e = .notRunnable)
    (hr : (k.envs e).ipcRecving = 0#32) {q : TailQueue EnvIdx} {xs : List EnvIdx}
    (hrep : q.Rep xs) (hmem : ∀ c, c ∈ xs ↔ c = e ∨ st c = .runnable) :
    Life (Function.update st e .runnable) { k with envSchedList := q } := by
  have hne : ∀ c, Function.update st e .runnable c ≠ .free → st c ≠ .free := by
    intro c hc
    by_cases hce : c = e
    · rw [hce, he]
      simp
    · rwa [Function.update_of_ne hce] at hc
  refine ⟨h.free_nodup, ?_, ⟨xs, hrep, ?_⟩, ?_, ?_, ?_⟩
  · intro c
    rw [h.mem_free c]
    by_cases hce : c = e
    · subst hce
      rw [Function.update_self, he]
      simp
    · rw [Function.update_of_ne hce]
  · intro c
    rw [hmem c]
    by_cases hce : c = e
    · subst hce
      rw [Function.update_self]
      simp
    · rw [Function.update_of_ne hce]
      exact or_iff_right hce
  · intro c hrc
    by_cases hce : c = e
    · subst hce
      exact absurd hr hrc
    · rw [Function.update_of_ne hce]
      exact h.recving c hrc
  · intro c c' hc hc'
    exact h.asid_inj c c' (hne c hc) (hne c' hc')
  · intro c hc
    exact h.marked c (hne c hc)

theorem Life.enqueueTail (h : Life st k) (he : st e = .notRunnable)
    (hr : (k.envs e).ipcRecving = 0#32) :
    ∃ q, k.envSchedList.insertTail e = some q ∧
      Life (Function.update st e .runnable) { k with envSchedList := q } := by
  obtain ⟨xs, hrep, hmem⟩ := h.sched
  have hnot : e ∉ xs := fun hx => by
    have := (hmem e).mp hx
    rw [he] at this
    exact absurd this (by simp)
  obtain ⟨q, hq, hrep'⟩ := hrep.insertTail hnot
  refine ⟨q, hq, h.enqueue he hr hrep' fun c => ?_⟩
  rw [List.mem_append, List.mem_singleton, hmem c, or_comm]

theorem Life.enqueueHead (h : Life st k) (he : st e = .notRunnable)
    (hr : (k.envs e).ipcRecving = 0#32) :
    Life (Function.update st e .runnable)
      { k with envSchedList := k.envSchedList.insertHead e } := by
  obtain ⟨xs, hrep, hmem⟩ := h.sched
  have hnot : e ∉ xs := fun hx => by
    have := (hmem e).mp hx
    rw [he] at this
    exact absurd this (by simp)
  refine h.enqueue he hr (hrep.insertHead hnot) fun c => ?_
  rw [List.mem_cons, hmem c]

/-- The queue only offers runnable environments. -/
theorem Life.first_runnable (h : Life st k) (he : k.envSchedList.first = some e) :
    st e = .runnable := by
  obtain ⟨xs, hrep, hmem⟩ := h.sched
  rw [hrep.first_eq] at he
  exact (hmem e).mp (List.mem_of_mem_head? he)

end Life

/-! ## Procedures -/

namespace Kern

open Sys

section Specs

variable {α : Type} {k : Kernel} {e : EnvIdx}

theorem wp_schedRemove {q : TailQueue EnvIdx} {Q : Except Errno Unit → Kernel → Prop}
    {E : Halt → Prop} (hq : k.envSchedList.remove e = some q)
    (h : Q (.ok ()) { k with envSchedList := q }) : (schedRemove e).wp Q E k := by
  refine wp_of ?_ ?_
  · intro r k' hm
    simp only [schedRemove, hq, Except.ok.injEq, Prod.mk.injEq] at hm
    obtain ⟨rfl, rfl⟩ := hm
    exact h
  · intro c hm
    simp [schedRemove, hq] at hm

theorem wp_schedInsertTail {q : TailQueue EnvIdx} {Q : Except Errno Unit → Kernel → Prop}
    {E : Halt → Prop} (hq : k.envSchedList.insertTail e = some q)
    (h : Q (.ok ()) { k with envSchedList := q }) : (schedInsertTail e).wp Q E k := by
  refine wp_of ?_ ?_
  · intro r k' hm
    simp only [schedInsertTail, hq, Except.ok.injEq, Prod.mk.injEq] at hm
    obtain ⟨rfl, rfl⟩ := hm
    exact h
  · intro c hm
    simp [schedInsertTail, hq] at hm

theorem wp_quiet {m : Kern α} (hm : Quiet m) (h : LifeInv k) :
    m.wp (fun _ k' => LifeInv k' ∧ SameLife k k') NotRunAssert k :=
  wp_conseq (hm k) fun _ _ hs => ⟨h.congr hs, hs⟩

theorem quiet_saveTf : Quiet saveTf := by
  refine keeps_bind keeps_get fun k => ?_
  cases k.curenv with
  | none => exact keeps_pure _
  | some c =>
    exact keeps_modify fun k => SameLife.setEnv k c (fun _ => rfl) (fun _ => rfl) fun _ => rfl

theorem quiet_envRun (he : (k.envs e).status = .runnable) :
    (envRun e).wp (fun _ k' => SameLife k k') NotRunAssert k := by
  unfold envRun
  rw [wp_get_bind, wp_ite]
  refine ⟨fun hne => absurd he hne, fun _ => ?_⟩
  have hrest : Quiet (do
      saveTf
      modify fun k => { k with curenv := some e }
      setEnv e fun v => { v with runs := v.runs + 1#32 }
      modify fun k => { k with curPgdir := (k.envs e).pgdir, active := (k.envs e).tf } :
      Kern Unit) := by
    refine keeps_bind quiet_saveTf fun _ => ?_
    refine keeps_bind (keeps_modify fun _ => SameLife.of_envs rfl rfl rfl rfl) fun _ => ?_
    refine keeps_bind (quiet_setEnv (fun _ => rfl) (fun _ => rfl) fun _ => rfl) fun _ => ?_
    exact keeps_modify fun _ => SameLife.of_envs rfl rfl rfl rfl
  exact hrest k

/-- The choice of `schedule` is runnable. -/
theorem pick_spec (h : LifeInv k) (yield : Bool) :
    (pick yield).wp (fun r k' => LifeInv k' ∧
      ∀ e, r = .ok (some e) → (k'.envs e).status = .runnable) NotRunAssert k := by
  have hfirst : ∀ {k₁ : Kernel} {e : EnvIdx}, LifeInv k₁ →
      (Except.ok k₁.envSchedList.first : Except Errno (Option EnvIdx)) = .ok (some e) →
      (k₁.envs e).status = .runnable := by
    intro k₁ e h₁ he
    exact Life.first_runnable h₁ (Except.ok.inj he)
  unfold pick
  rw [wp_get_bind]
  cases hc : k.curenv with
  | none => exact wp_pure.mpr ⟨h, fun e => hfirst h⟩
  | some c =>
    simp only
    rw [wp_ite]
    refine ⟨fun _ => wp_pure.mpr ⟨h, fun e => hfirst h⟩, fun hrun => ?_⟩
    have hst : k.statuses c = .runnable := not_not.mp hrun
    rw [wp_ite]
    refine ⟨fun _ => ?_, fun _ => wp_pure.mpr ⟨h, ?_⟩⟩
    · -- the environment goes from its place to the end
      obtain ⟨q₁, hq₁, h₁⟩ := Life.dequeue h hst
      have hr : (k.envs c).ipcRecving = 0#32 := h.recving_zero (by rw [hst]; simp)
      obtain ⟨q₂, hq₂, h₂⟩ := h₁.enqueueTail (e := c) (Function.update_self ..) hr
      rw [Function.update_idem, ← hst, Function.update_eq_self] at h₂
      rw [wp_bind]
      refine wp_schedRemove hq₁ ?_
      rw [wp_bind]
      refine wp_schedInsertTail hq₂ ?_
      rw [wp_get_bind, wp_pure]
      exact ⟨h₂, fun e => hfirst h₂⟩
    · intro e he
      obtain rfl := Option.some.inj (Except.ok.inj he)
      exact hst

theorem schedule_spec (h : LifeInv k) (yield : Bool) :
    (schedule yield).wp (fun _ k' => LifeInv k') NotRunAssert k := by
  have h₀ : LifeInv { k with schedCount := k.schedCount - 1#32 } :=
    h.congr (SameLife.of_envs rfl rfl rfl rfl)
  unfold schedule
  rw [wp_modify_bind]
  refine wp_seq (pick_spec h₀ yield) (fun r k₁ hr => ?_) fun _ _ hr => hr.1
  obtain ⟨h₁, hpick⟩ := hr
  cases r with
  | none => exact wp_halt.mpr (notRunAssert_panic _)
  | some e =>
    simp only
    rw [wp_modify_bind]
    have h₂ : LifeInv { k₁ with schedCount := (k₁.envs e).pri } :=
      h₁.congr (SameLife.of_envs rfl rfl rfl rfl)
    exact wp_conseq (quiet_envRun (k := { k₁ with schedCount := (k₁.envs e).pri })
      (hpick e rfl)) fun _ _ hs => h₂.congr hs

/-- A fresh ASID and the head of the free list. -/
theorem Life.take (h : LifeInv k) {i : Fin 512} (he : e ∈ k.envFreeList)
    (hi : ¬Marked k.asidBitmap i) {f : Env → Env} {k' : Kernel}
    (hf : ∀ v, (f v).status = v.status) (hr : ∀ v, (f v).ipcRecving = v.ipcRecving)
    (ha : ∀ v, (f v).asid = i) (henvs : k'.envs = (k.setEnv e f).envs)
    (hfree : k'.envFreeList = k.envFreeList.erase e)
    (hsched : k'.envSchedList = k.envSchedList)
    (hbm : k'.asidBitmap = Function.update k.asidBitmap (asidWord i)
      (k.asidBitmap (asidWord i) ||| asidMask i)) :
    Life (Function.update k'.statuses e .notRunnable) k' ∧ (k'.envs e).ipcRecving = 0#32 := by
  have hest : k.statuses e = .free := (h.mem_free e).mp he
  have hne : ∀ c, c ≠ e → k'.envs c = k.envs c := fun c hc => by
    rw [henvs, Kernel.setEnv_of_ne f hc]
  have hself : k'.envs e = f (k.envs e) := by rw [henvs, Kernel.setEnv_self]
  have hst : k'.statuses = k.statuses := by
    funext c
    by_cases hc : c = e
    · rw [hc]
      exact (congrArg Env.status hself).trans (hf _)
    · exact congrArg Env.status (hne c hc)
  have hold : ∀ c, c ≠ e → Function.update k'.statuses e .notRunnable c = k.statuses c := by
    intro c hc
    rw [Function.update_of_ne hc, hst]
  refine ⟨⟨?_, ?_, ?_, ?_, ?_, ?_⟩, ?_⟩
  · rw [hfree]
    exact h.free_nodup.erase e
  · intro c
    rw [hfree, h.free_nodup.mem_erase_iff, h.mem_free c]
    by_cases hc : c = e
    · rw [hc, Function.update_self]
      simp
    · rw [hold c hc]
      exact and_iff_right hc
  · obtain ⟨xs, hrep, hmem⟩ := h.sched
    refine ⟨xs, hsched ▸ hrep, fun c => ?_⟩
    rw [hmem c]
    by_cases hc : c = e
    · rw [hc, hest, Function.update_self]
      simp
    · rw [hold c hc]
  · intro c hrc
    by_cases hc : c = e
    · rw [hc, Function.update_self]
    · rw [hold c hc]
      rw [hne c hc] at hrc
      exact h.recving c hrc
  · -- the new ASID was not marked, so nobody has it
    have hnew : ∀ c, c ≠ e → Function.update k'.statuses e .notRunnable c ≠ .free →
        (k'.envs c).asid ≠ i := by
      intro c hc hfr heq
      rw [hold c hc] at hfr
      have hm := h.marked c hfr
      rw [hne c hc] at heq
      rw [heq] at hm
      exact hi hm
    intro c c' hc hc' heq
    by_cases hce : c = e
    · by_cases hce' : c' = e
      · rw [hce, hce']
      · rw [hce, hself, ha] at heq
        exact absurd heq.symm (hnew c' hce' hc')
    · by_cases hce' : c' = e
      · rw [hce', hself, ha] at heq
        exact absurd heq (hnew c hce hc)
      · rw [hold c hce] at hc
        rw [hold c' hce'] at hc'
        rw [hne c hce, hne c' hce'] at heq
        exact h.asid_inj c c' hc hc' heq
  · intro c hc
    rw [hbm, marked_set]
    by_cases hce : c = e
    · rw [hce, hself, ha]
      exact Or.inr rfl
    · rw [hold c hce] at hc
      rw [hne c hce]
      exact Or.inl (h.marked c hc)
  · rw [hself, hr]
    exact Life.recving_zero h (by rw [hest]; simp)

/-- `asid_alloc` marks an ASID that was not marked, or all are. -/
theorem asidAlloc_spec {E : Halt → Prop} :
    asidAlloc.wp (fun r k' => match r with
      | .ok i => ¬Marked k.asidBitmap i ∧
          k' = { k with
            asidBitmap := Function.update k.asidBitmap (asidWord i)
              (k.asidBitmap (asidWord i) ||| asidMask i) }
      | .error x => x = .noFreeEnv ∧ k' = k ∧ ∀ i, Marked k.asidBitmap i) E k := by
  unfold asidAlloc
  rw [wp_get_bind]
  dsimp only
  split
  · rename_i hnone
    refine wp_throw.mpr ⟨rfl, rfl, fun i => ?_⟩
    have hi := List.find?_eq_none.mp hnone i (List.mem_finRange i)
    unfold Marked
    simpa using hi
  · rename_i i hi
    rw [wp_modify_bind, wp_pure]
    refine ⟨?_, rfl⟩
    have hfound := List.find?_some hi
    unfold Marked
    simpa using hfound

theorem quiet_mkenvid (e : EnvIdx) : Quiet (mkenvid e) :=
  keeps_bind (keeps_modify fun _ => SameLife.of_envs rfl rfl rfl rfl) fun _ =>
    keeps_bind keeps_get fun _ => keeps_pure _

/-- `env_alloc` prepares the first free environment, which is then on no list;
on failure nothing of the life cycle has changed. -/
theorem envAlloc_spec (h : LifeInv k) (parentId : Word) :
    (envAlloc parentId).wp (fun r k' => match r with
      | .ok e => Life (Function.update k'.statuses e .notRunnable) k' ∧
          (k'.envs e).ipcRecving = 0#32
      | .error _ => LifeInv k') NotRunAssert k := by
  unfold envAlloc
  rw [wp_get_bind]
  cases hfree : k.envFreeList with
  | nil => exact wp_throw.mpr h
  | cons e rest =>
    have hin : e ∈ k.envFreeList := by rw [hfree]; exact List.mem_cons_self
    simp only
    refine wp_seq (wp_quiet (quiet_envSetupVm e) h) (fun _ k₁ h₁ => ?_) fun _ _ h₁ => h₁.1
    refine wp_seq (R := fun _ k₂ => SameLife k₁ k₂)
      (quiet_setEnv (by simp) (by simp) (by simp) k₁)
      (fun _ k₂ h₂ => ?_) fun _ _ h₂ => h₁.1.congr h₂
    refine wp_seq (quiet_mkenvid e k₂) (fun id k₃ h₃ => ?_) fun _ _ h₃ =>
      (h₁.1.congr h₂).congr h₃
    refine wp_seq (R := fun _ k₄ => SameLife k₃ k₄)
      (quiet_setEnv (by simp) (by simp) (by simp) k₃)
      (fun _ k₄ h₄ => ?_) fun _ _ h₄ => ((h₁.1.congr h₂).congr h₃).congr h₄
    have hsame := trans_of SameLife h₁.2 (trans_of SameLife h₂ (trans_of SameLife h₃ h₄))
    have hlife := h.congr hsame
    refine wp_seq asidAlloc_spec (fun i k₅ h₅ => ?_) fun _ _ h₅ => ?_
    · obtain ⟨hclear, rfl⟩ := h₅
      simp only [setEnv, wp_modify_bind, wp_pure]
      refine Life.take hlife ?_ hclear
        (f := fun v => { v with asid := i, parentId := parentId, tf := freshTf v.tf })
        (fun _ => rfl) (fun _ => rfl) (fun _ => rfl) rfl rfl rfl rfl
      rw [hsame.free]
      exact hin
    · rw [h₅.2.1]
      exact hlife

/-- `load_icode` returns, or it stops. -/
theorem loadIcode_spec (e : EnvIdx) (prog : Program) (k : Kernel) :
    (loadIcode e prog).wp (fun r k' => r = .ok () ∧ SameLife k k') NotRunAssert k := by
  unfold loadIcode
  refine wp_attempt_seq ((pages_loadPages e prog.pages).quiet k) fun r k₁ h₁ => ?_
  cases r with
  | error _ => exact wp_halt.mpr (notRunAssert_panic _)
  | ok _ =>
    simp only [setEnv, wp_modify]
    refine ⟨trivial, trans_of SameLife h₁ (SameLife.setEnv k₁ e ?_ ?_ ?_)⟩
    · exact fun _ => rfl
    · exact fun _ => rfl
    · exact fun _ => rfl

theorem envCreate_spec (h : LifeInv k) (prog : Program) (priority : Word) :
    (envCreate prog priority).wp (fun _ k' => LifeInv k') NotRunAssert k := by
  unfold envCreate
  refine wp_attempt_seq (envAlloc_spec h 0#32) fun r k₁ hr => ?_
  cases r with
  | error _ => exact wp_halt.mpr notRunAssert_wild
  | ok e =>
    obtain ⟨h₁, hr₁⟩ := hr
    -- the status word says runnable before the environment is queued
    have h₂ := h₁.setEnv (f := fun v => { v with pri := priority, status := .runnable })
      (h₁.recving e) fun _ => rfl
    have hst := statuses_setEnv k₁ e (s := .runnable)
      (f := fun v => { v with pri := priority, status := .runnable }) fun _ => rfl
    simp only [setEnv, wp_modify_bind]
    refine wp_seq (loadIcode_spec e prog _) (fun _ k₃ h₃ => ?_) fun _ k₃ h₃ =>
      absurd h₃.1 (by simp)
    simp only [schedInsertHead, wp_modify_bind, wp_pure]
    have h₄ := (h₂.congr h₃.2).enqueueHead (e := e) (Function.update_self ..)
      (by rw [h₃.2.recving, Kernel.setEnv_self, hr₁])
    rw [Function.update_idem, ← hst, ← h₃.2.statuses] at h₄
    exact h₄

/-- A runnable environment leaves the queue for the free list. -/
theorem Life.release (h : LifeInv k) (he : k.statuses e = .runnable) {k' : Kernel}
    (henvs : k'.envs = (k.setEnv e fun v => { v with status := .free }).envs)
    (hfree : k'.envFreeList = e :: k.envFreeList)
    (hsched : k.envSchedList.remove e = some k'.envSchedList)
    (hbm : k'.asidBitmap = Function.update k.asidBitmap (asidWord (k.envs e).asid)
      (k.asidBitmap (asidWord (k.envs e).asid) &&& ~~~asidMask (k.envs e).asid)) :
    LifeInv k' := by
  have hst : k'.statuses = Function.update k.statuses e .free := by
    have hset := statuses_setEnv k e (f := fun v => { v with status := .free })
      (s := .free) fun _ => rfl
    rw [← hset]
    funext c
    exact congrArg (fun envs => Env.status (envs c)) henvs
  have hne : ∀ c, c ≠ e → k'.envs c = k.envs c := fun c hc => by
    rw [henvs, Kernel.setEnv_of_ne _ hc]
  have hnotfree : e ∉ k.envFreeList := fun hm => by
    have := (h.mem_free e).mp hm
    rw [he] at this
    exact absurd this (by simp)
  have hlive : ∀ c, Function.update k.statuses e .free c ≠ .free →
      c ≠ e ∧ k.statuses c ≠ .free := by
    intro c hc
    by_cases hce : c = e
    · rw [hce, Function.update_self] at hc
      exact absurd rfl hc
    · rw [Function.update_of_ne hce] at hc
      exact ⟨hce, hc⟩
  unfold LifeInv
  rw [hst]
  refine ⟨?_, ?_, ?_, ?_, ?_, ?_⟩
  · rw [hfree]
    exact List.nodup_cons.mpr ⟨hnotfree, h.free_nodup⟩
  · intro c
    rw [hfree, List.mem_cons, h.mem_free c]
    by_cases hce : c = e
    · rw [hce, Function.update_self]
      simp
    · rw [Function.update_of_ne hce]
      exact or_iff_right hce
  · obtain ⟨xs, hrep, hmem⟩ := h.sched
    obtain ⟨q, hq, hrep'⟩ := hrep.remove ((hmem e).mpr he)
    obtain rfl : q = k'.envSchedList := Option.some.inj (hq.symm.trans hsched)
    refine ⟨xs.erase e, hrep', fun c => ?_⟩
    rw [hrep.nodup.mem_erase_iff, hmem c]
    by_cases hce : c = e
    · rw [hce, Function.update_self]
      simp
    · rw [Function.update_of_ne hce]
      exact and_iff_right hce
  · intro c hr
    by_cases hce : c = e
    · have hz : (k'.envs e).ipcRecving = 0#32 := by
        rw [henvs, Kernel.setEnv_self]
        exact Life.recving_zero h (by rw [he]; simp)
      rw [hce] at hr
      exact absurd hz hr
    · rw [hne c hce] at hr
      rw [Function.update_of_ne hce]
      exact h.recving c hr
  · intro c c' hc hc' heq
    obtain ⟨hce, hc⟩ := hlive c hc
    obtain ⟨hce', hc'⟩ := hlive c' hc'
    rw [hne c hce, hne c' hce'] at heq
    exact h.asid_inj c c' hc hc' heq
  · intro c hc
    obtain ⟨hce, hc⟩ := hlive c hc
    rw [hbm, marked_clear, hne c hce]
    refine ⟨h.marked c hc, fun heq => hce ?_⟩
    exact (h.asid_inj e c (by rw [he]; simp) hc heq).symm

/-- `env_free` on a runnable environment. -/
theorem envFree_spec (h : LifeInv k) (he : (k.envs e).status = .runnable) :
    (envFree e).wp (fun _ k' => LifeInv k') NotRunAssert k := by
  unfold envFree
  rw [wp_get_bind]
  refine wp_seq (wp_quiet (pages_dirOf _).quiet h) (fun d k₁ h₁ => ?_) fun _ _ h₁ => h₁.1
  refine wp_seq (wp_quiet (pages_onPmap fun p _ hm => Pmap.freeSpace_stop (error_of_map hm)).quiet
    h₁.1) (fun _ k₂ h₂ => ?_) fun _ _ h₂ => h₂.1
  have hst : k₂.statuses e = .runnable := by
    rw [h₂.2.statuses, h₁.2.statuses]
    exact he
  obtain ⟨q, hq, -⟩ := Life.dequeue h₂.1 hst
  simp only [asidFree, setEnv, wp_get_bind, wp_modify_bind]
  refine wp_schedRemove hq ?_
  exact Life.release h₂.1 hst rfl rfl hq rfl

theorem envDestroy_spec (h : LifeInv k) (he : (k.envs e).status = .runnable) :
    (envDestroy e).wp (fun _ k' => LifeInv k') NotRunAssert k := by
  unfold envDestroy
  refine wp_seq (envFree_spec h he) (fun _ k₁ h₁ => ?_) fun _ _ h₁ => h₁
  rw [wp_get_bind, wp_ite]
  refine ⟨fun _ => ?_, fun _ => wp_pure.mpr h₁⟩
  rw [wp_modify_bind]
  have h₂ : LifeInv { k₁ with curenv := none } := h₁.congr (SameLife.of_envs rfl rfl rfl rfl)
  exact wp_seq (schedule_spec h₂ true) (fun _ _ h₃ => wp_pure.mpr h₃) fun _ _ h₃ => h₃

/-! ### System calls -/

theorem eExofork_spec (h : LifeInv k) :
    eExofork.wp (fun _ k' => LifeInv k') NotRunAssert k := by
  unfold eExofork
  refine wp_seq (wp_quiet pages_curenv.quiet h) (fun c k₁ h₁ => ?_) fun _ _ h₁ => h₁.1
  rw [wp_get_bind]
  refine wp_seq (envAlloc_spec h₁.1 _) (fun e k₂ h₂ => ?_) fun _ _ h₂ => h₂
  rw [wp_modify_bind, wp_get_bind, wp_pure]
  exact Life.setStatus h₂.1 (fun _ => rfl) (fun _ => rfl) fun _ => rfl

theorem envid2env_life (envid : Word) (checkperm : Bool) (k : Kernel) :
    (envid2env envid checkperm).wp
      (fun r k' => k' = k ∧ ∀ e, r = .ok e → k.target envid checkperm = some e) NotRunAssert k :=
  wp_mono (envid2env_spec envid checkperm k) (fun _ _ h => h) fun _ h => h ▸ notRunAssert_wild

/-- `e_set_env_status` on an environment that is not free, and that is not woken
while it waits for a message. -/
theorem eSetEnvStatus_spec (h : LifeInv k) {envid status : Word}
    (hcare : ∀ st, statusOf status = some st → ∀ e, k.target envid true = some e →
      (k.envs e).status ≠ .free ∧ (st = .runnable → (k.envs e).ipcRecving = 0#32)) :
    (eSetEnvStatus envid status).wp (fun _ k' => LifeInv k') NotRunAssert k := by
  unfold eSetEnvStatus
  cases hs : statusOf status with
  | none => exact wp_throw.mpr h
  | some st =>
    have hst : st = .runnable ∨ st = .notRunnable := by
      unfold statusOf at hs
      split at hs
      · exact Or.inl (Option.some.inj hs).symm
      · split at hs
        · exact Or.inr (Option.some.inj hs).symm
        · exact absurd hs (by simp)
    simp only
    refine wp_seq (envid2env_life envid true k) (fun e k₁ h₁ => ?_) fun _ _ h₁ => h₁.1 ▸ h
    obtain ⟨rfl, hres⟩ := h₁
    obtain ⟨hlive, hwake⟩ := hcare st hs e (hres e rfl)
    have hend : ∀ k₂, Life (Function.update k₂.statuses e st) k₂ →
        (setEnv e fun v => { v with status := st }).wp (fun _ k' => LifeInv k') NotRunAssert k₂ :=
      fun k₂ h₂ => wp_modify.mpr (h₂.setStatus (fun _ => rfl) h₂.recving_update fun _ => rfl)
    rw [wp_get_bind, wp_bind]
    unfold requeue
    cases hold : (k₁.envs e).status with
    | free => exact absurd hold hlive
    | runnable =>
      rcases hst with rfl | rfl
      · refine (wp_pure.mpr ?_ : (pure () : Kern Unit).wp _ _ _)
        refine hend k₁ ?_
        rw [show Function.update k₁.statuses e .runnable = k₁.statuses from by
          rw [← hold]; exact Function.update_eq_self ..]
        exact h
      · obtain ⟨q, hq, h₂⟩ := Life.dequeue h hold
        exact wp_schedRemove hq (hend _ h₂)
    | notRunnable =>
      rcases hst with rfl | rfl
      · obtain ⟨q, hq, h₂⟩ := Life.enqueueTail h hold (hwake rfl)
        exact wp_schedInsertTail hq (hend _ h₂)
      · refine (wp_pure.mpr ?_ : (pure () : Kern Unit).wp _ _ _)
        refine hend k₁ ?_
        rw [show Function.update k₁.statuses e .notRunnable = k₁.statuses from by
          rw [← hold]; exact Function.update_eq_self ..]
        exact h

/-- `e_ipc_recv` of a runnable environment. -/
theorem eIpcRecv_spec (h : LifeInv k) {dstva : Word}
    (hcare : ¬(dstva ≠ 0#32 ∧ isIllegalVa dstva = true) →
      ∀ c, k.curenv = some c → (k.envs c).status = .runnable) :
    (eIpcRecv dstva).wp (fun _ k' => LifeInv k') NotRunAssert k := by
  unfold eIpcRecv
  rw [wp_ite]
  refine ⟨fun _ => wp_throw.mpr h, fun hlegal => ?_⟩
  unfold curenv
  rw [wp_bind, wp_get_bind]
  cases hc : k.curenv with
  | none => exact wp_halt.mpr notRunAssert_wild
  | some c =>
    have hst : k.statuses c = .runnable := hcare hlegal c hc
    obtain ⟨q, hq, h₁⟩ := Life.dequeue h hst
    simp only [wp_pure, setEnv, wp_modify_bind]
    rw [wp_bind]
    refine wp_schedRemove (q := q) hq ?_
    rw [wp_modify_bind]
    refine schedule_spec ?_ true
    -- the flag and the status change together
    refine LifeInv.congr (k := ({ k with envSchedList := q } : Kernel).setEnv c fun v =>
      { v with ipcRecving := 1#32, ipcDstva := dstva, status := .notRunnable }) ?_
      (SameLife.of_envs rfl rfl rfl rfl)
    exact h₁.setStatus (fun _ => rfl) (fun _ => rfl) fun _ => rfl

/-- `e_ipc_try_send` wakes a receiver, which is not runnable. -/
theorem eIpcTrySend_spec (h : LifeInv k) (envid value srcva perm : Word) :
    (eIpcTrySend envid value srcva perm).wp (fun _ k' => LifeInv k') NotRunAssert k := by
  unfold eIpcTrySend
  rw [wp_ite]
  refine ⟨fun _ => wp_throw.mpr h, fun _ => ?_⟩
  refine wp_seq (envid2env_life envid false k) (fun e k₁ h₁ => ?_) fun _ _ h₁ => h₁.1 ▸ h
  obtain ⟨rfl, -⟩ := h₁
  rw [wp_get_bind, wp_ite]
  refine ⟨fun _ => wp_throw.mpr h, fun hrecv => ?_⟩
  refine wp_seq (wp_quiet pages_curenv.quiet h) (fun c k₂ h₂ => ?_) fun _ _ h₂ => h₂.1
  rw [wp_modify_bind]
  have hst : k₂.statuses e = .notRunnable :=
    Life.recving h₂.1 e (by rw [h₂.2.recving]; exact hrecv)
  let f : Env → Env := fun v =>
    { v with
      ipcValue := value
      ipcFrom := (k₂.envs c).id
      ipcPerm := pteV ||| perm
      ipcRecving := 0#32
      status := .runnable }
  have h₃ : Life k₂.statuses (k₂.setEnv e f) :=
    Life.setEnv h₂.1 (fun hr => absurd rfl hr) fun _ => rfl
  obtain ⟨q, hq, h₄⟩ := h₃.enqueueTail hst (by rw [Kernel.setEnv_self])
  have h₅ : LifeInv { k₂.setEnv e f with envSchedList := q } := by
    unfold LifeInv
    rw [show Kernel.statuses { k₂.setEnv e f with envSchedList := q } =
      Function.update k₂.statuses e .runnable from statuses_setEnv k₂ e fun _ => rfl]
    exact h₄
  rw [wp_bind]
  refine wp_schedInsertTail hq ?_
  -- what remains is the page of the message
  refine wp_conseq (wp_quiet (keeps_ite ?_ (keeps_pure _)) h₅) fun _ _ h₆ => h₆.1
  refine keeps_bind keeps_get fun k => keeps_bind (pages_pageLookup _ _).quiet fun r => ?_
  cases r with
  | none => exact keeps_throw _
  | some x =>
    refine keeps_bind keeps_get fun k => ?_
    exact keeps_bind (keeps_attempt (pages_pageInsert _ _ _ _).quiet) fun _ => keeps_pure _


end Specs

/-! ## Traps -/

section Traps

variable {α : Type} {k : Kernel}

theorem wp_life_bind {m : Kern α} {β : Type} {f : α → Kern β}
    (hm : m.wp (fun _ k' => LifeInv k') NotRunAssert k) (hf : ∀ a, Quiet (f a)) :
    (m >>= f).wp (fun _ k' => LifeInv k') NotRunAssert k :=
  wp_seq hm (fun a _ h => wp_conseq (wp_quiet (hf a) h) fun _ _ h' => h'.1) fun _ _ h => h

theorem wp_life_quiet {m : Kern α} (hm : Quiet m) (h : LifeInv k) :
    m.wp (fun _ k' => LifeInv k') NotRunAssert k :=
  wp_conseq (wp_quiet hm h) fun _ _ h' => h'.1

end Traps

end Kern

/-- The calls that keep the life cycle in step.  `env_free` takes its argument
off the queue without asking whether it is there, `e_set_env_status` does not
look for free and for receiving environments, and `e_ipc_recv` takes the caller
off the queue even after it has stopped itself. -/
def Kernel.Careful (k : Kernel) : Event → Prop
  | .trap _ (.ecall (.envDestroy envid)) =>
    ∀ e, k.target envid true = some e → (k.envs e).status = .runnable
  | .trap _ (.ecall (.setEnvStatus envid status)) =>
    ∀ st, Kern.statusOf status = some st → ∀ e, k.target envid true = some e →
      (k.envs e).status ≠ .free ∧ (st = .runnable → (k.envs e).ipcRecving = 0#32)
  | .trap _ (.ecall (.ipcRecv dstva)) =>
    ¬(dstva ≠ 0#32 ∧ Kern.isIllegalVa dstva = true) →
      ∀ c, k.curenv = some c → (k.envs c).status = .runnable
  | _ => True

namespace Kern

open Sys

section Traps

variable {k : Kernel}

/-- One system call; the frame is of no account. -/
theorem ecall_life (h : LifeInv k) {tf : Trapframe} {c : Ecall}
    (hcare : k.Careful (.trap tf (.ecall c))) (a : Trapframe) :
    (ecall c).wp (fun _ k' => LifeInv k') NotRunAssert { k with active := a } := by
  have h' : LifeInv { k with active := a } := h.congr (SameLife.of_envs rfl rfl rfl rfl)
  cases c with
  | device ret => exact wp_life_quiet (keeps_pure _) h'
  | getenvid =>
    exact wp_life_quiet (keeps_bind pages_curenv.quiet fun _ => keeps_bind keeps_get fun _ =>
      keeps_pure _) h'
  | yield => exact wp_life_bind (schedule_spec h' true) fun _ => keeps_pure _
  | envDestroy envid =>
    refine wp_life_bind ?_ fun b => keeps_ite (keeps_pure _) (keeps_pure _)
    refine wp_seq (envid2env_life envid true _) (fun e k₁ h₁ => ?_) fun _ _ h₁ => h₁.1 ▸ h'
    obtain ⟨rfl, hres⟩ := h₁
    exact envDestroy_spec h' (hcare e (hres e rfl))
  | setEnvCowEntry envid cowEntry =>
    exact wp_life_bind (wp_life_quiet (quiet_eSetEnvCowEntry _ _) h') fun _ => keeps_pure _
  | memAlloc envid va perm =>
    exact wp_life_bind (wp_life_quiet (pages_eMemAlloc _ _ _).quiet h') fun _ => keeps_pure _
  | memMap srcid srcva dstid dstva perm =>
    exact wp_life_bind (wp_life_quiet (pages_eMemMap _ _ _ _ _).quiet h') fun _ => keeps_pure _
  | memUnmap envid va =>
    exact wp_life_bind (wp_life_quiet (pages_eMemUnmap _ _).quiet h') fun _ => keeps_pure _
  | exofork => exact wp_life_bind (eExofork_spec h') fun _ => keeps_pure _
  | setEnvStatus envid status =>
    exact wp_life_bind (eSetEnvStatus_spec h' hcare) fun _ => keeps_pure _
  | setTrapframe envid va tf =>
    exact wp_life_bind (wp_life_quiet (quiet_eSetTrapframe _ _ _) h') fun _ => keeps_pure _
  | panic => exact wp_halt.mpr (notRunAssert_panic _)
  | ipcTrySend envid value srcva perm =>
    exact wp_life_bind (eIpcTrySend_spec h' _ _ _ _) fun _ => keeps_pure _
  | ipcRecv dstva => exact wp_life_bind (eIpcRecv_spec h' hcare) fun _ => keeps_pure _
  | getPgdir pde =>
    exact wp_life_bind (wp_life_quiet (pages_eGetPgdir _).quiet h') fun _ => keeps_pure _
  | readDisk buf data =>
    exact wp_life_bind (wp_life_quiet (pages_kernelStore _ _).quiet h') fun _ => keeps_pure _
  | getPgref v => exact wp_life_bind (wp_life_quiet (pages_eGetPgref _).quiet h') fun _ => keeps_pure _

theorem handler_life (h : LifeInv k) {tf : Trapframe} {t : Trap}
    (hcare : k.Careful (.trap tf t)) :
    (handle tf t).wp (fun _ k' => LifeInv k') NotRunAssert k := by
  have hany : ∀ k a, LifeInv k → LifeInv { k with active := a } := fun _ _ h =>
    h.congr (SameLife.of_envs rfl rfl rfl rfl)
  have h' : LifeInv { k with active := tf } := hany k tf h
  cases t with
  | ecall c => exact wp_handle_ecall tf hany (ecall_life h hcare)
  | badEcall => exact wp_modify_bind.mpr (wp_life_quiet (regs_setReg _ _).quiet h')
  | timer => exact wp_modify_bind.mpr (schedule_spec h' false)
  | software => exact wp_modify_bind.mpr (wp_pure.mpr h')
  | loadPage junk => exact wp_modify_bind.mpr (wp_life_quiet (pages_doLoadPage junk).quiet h')
  | storePage => exact wp_modify_bind.mpr (wp_life_quiet regs_doStorePage.quiet h')
  | instructionPage => exact wp_modify_bind.mpr (wp_halt.mpr (notRunAssert_panic _))
  | reserved => exact wp_modify_bind.mpr (wp_halt.mpr (notRunAssert_panic _))

end Traps

end Kern

/-- One careful event keeps the invariant and does not fail the assertion of
`env_run`. -/
theorem exec_life {k : Kernel} {ev : Event} (h : LifeInv k) (hcare : k.Careful ev) :
    (Kernel.exec ev).wp (fun _ k' => LifeInv k') NotRunAssert k := by
  cases ev with
  | create prog priority =>
    exact Kern.wp_life_bind (Kern.envCreate_spec h prog priority) fun _ => Sys.keeps_pure _
  | trap tf t => exact Kern.handler_life h hcare

/-! ## Runs -/

/-- The state `env_init` leaves: `ipc_recving` is zero as all static data, and
the page structures are whatever memory management made of them. -/
def Booted (k : Kernel) : Prop :=
  ∃ k₀ : Kernel, (∀ e, (k₀.envs e).ipcRecving = 0#32) ∧ k = k₀.envInit

/-- The loop of `env_init` over the environments of a list. -/
theorem envInit_loop (k : Kernel) (es : List EnvIdx) :
    (es.foldr Kernel.envInitRound k).envFreeList = es ++ k.envFreeList ∧
      (es.foldr Kernel.envInitRound k).envSchedList = k.envSchedList ∧
      (∀ e, ((es.foldr Kernel.envInitRound k).envs e).ipcRecving = (k.envs e).ipcRecving) ∧
      ∀ e ∈ es, ((es.foldr Kernel.envInitRound k).envs e).status = .free := by
  induction es with
  | nil => exact ⟨rfl, rfl, fun _ => rfl, fun e he => absurd he (by simp)⟩
  | cons a es ih =>
    obtain ⟨hf, hs, hr, hst⟩ := ih
    rw [List.foldr_cons]
    refine ⟨congrArg (a :: ·) hf, hs, fun e => ?_, fun e he => ?_⟩
    · by_cases hea : e = a
      · subst hea
        simp only [Kernel.envInitRound, Function.update_self]
        exact hr e
      · simp only [Kernel.envInitRound, Function.update_of_ne hea]
        exact hr e
    · by_cases hea : e = a
      · subst hea
        simp only [Kernel.envInitRound, Function.update_self]
      · simp only [Kernel.envInitRound, Function.update_of_ne hea]
        exact hst e ((List.mem_cons.mp he).resolve_left hea)

theorem envInit_rest (k : Kernel) (es : List EnvIdx) :
    (es.foldr Kernel.envInitRound k).pmap = k.pmap ∧
      (es.foldr Kernel.envInitRound k).basePgdir = k.basePgdir ∧
      (es.foldr Kernel.envInitRound k).curenv = k.curenv ∧
      (es.foldr Kernel.envInitRound k).idCount = k.idCount := by
  induction es with
  | nil => exact ⟨rfl, rfl, rfl, rfl⟩
  | cons a es ih => exact ih

theorem envInit_life {k₀ : Kernel} (hr₀ : ∀ e, (k₀.envs e).ipcRecving = 0#32)
    {es : List EnvIdx} (hnd : es.Nodup) (hall : ∀ e, e ∈ es) :
    LifeInv (es.foldr Kernel.envInitRound
      { k₀ with envFreeList := [], envSchedList := k₀.envSchedList.init }) := by
  obtain ⟨hf, hs, hr, hst⟩ := envInit_loop
    { k₀ with envFreeList := [], envSchedList := k₀.envSchedList.init } es
  generalize es.foldr Kernel.envInitRound
    { k₀ with envFreeList := [], envSchedList := k₀.envSchedList.init } = k at *
  have hfree : ∀ e, k.statuses e = .free := fun e => hst e (hall e)
  have hlist : k.envFreeList = es := hf.trans (List.append_nil _)
  refine ⟨?_, ?_, ⟨[], ?_, ?_⟩, ?_, ?_, ?_⟩
  · rw [hlist]
    exact hnd
  · intro e
    rw [hlist]
    exact ⟨fun _ => hfree e, fun _ => hall e⟩
  · rw [hs]
    exact TailQueue.Rep.init _
  · intro e
    rw [hfree e]
    simp
  · intro e hre
    exact absurd ((hr e).trans (hr₀ e)) hre
  · intro e _ he
    exact absurd (hfree e) he
  · intro e he
    exact absurd (hfree e) he

theorem Booted.life {k : Kernel} (h : Booted k) : LifeInv k := by
  obtain ⟨k₀, hr₀, hk⟩ := h
  rw [hk, Kernel.envInit]
  exact envInit_life hr₀ (List.nodup_finRange 1024) List.mem_finRange

/-- Status words, queues, flags and ASIDs are in step. -/
structure InStep (k : Kernel) : Prop where
  free : ∀ e, k.envFreeList.count e = if (k.envs e).status = .free then 1 else 0
  sched : ∃ xs, k.envSchedList.Rep xs ∧
    ∀ e, xs.count e = if (k.envs e).status = .runnable then 1 else 0
  recving : ∀ e, (k.envs e).ipcRecving = 1#32 → (k.envs e).status = .notRunnable
  asid_ne : ∀ e c, (k.envs e).status ≠ .free → (k.envs c).status ≠ .free → e ≠ c →
    (k.envs e).asid ≠ (k.envs c).asid
  marked : ∀ e, (k.envs e).status ≠ .free → Marked k.asidBitmap (k.envs e).asid

theorem LifeInv.inStep {k : Kernel} (h : LifeInv k) : InStep k := by
  have hcount : ∀ {l : List EnvIdx} {p : EnvIdx → Prop} [DecidablePred p], l.Nodup →
      (∀ e, e ∈ l ↔ p e) → ∀ e, l.count e = if p e then 1 else 0 := by
    intro l p _ hnd hmem e
    by_cases hp : p e
    · rw [if_pos hp]
      exact List.count_eq_one_of_mem hnd ((hmem e).mpr hp)
    · rw [if_neg hp]
      exact List.count_eq_zero.mpr fun he => hp ((hmem e).mp he)
  obtain ⟨xs, hrep, hmem⟩ := h.sched
  refine ⟨hcount h.free_nodup h.mem_free, ⟨xs, hrep, hcount hrep.nodup hmem⟩, ?_, ?_, h.marked⟩
  · intro e he
    exact h.recving e (by rw [he]; decide)
  · intro e c he hc hne heq
    exact hne (h.asid_inj e c he hc heq)

/-- The event runs `env_free` on this environment. -/
def Kernel.Frees (k : Kernel) (ev : Event) (e : EnvIdx) : Prop :=
  match ev with
  | .trap _ (.ecall (.envDestroy envid)) => k.target envid true = some e
  | _ => False

theorem life_of_run {h : List Event} {k : Kernel}
    (hrun : Run Booted (fun k ev k' => k.Careful ev ∧ k.Step ev k') h k) : LifeInv k := by
  refine Run.invariant (I := fun _ k => LifeInv k) (fun _ h0 => h0.life) ?_ hrun
  rintro _ k ev k' hk ⟨hcare, -, r, hr⟩
  exact Sys.wp_ok (exec_life hk hcare) hr

/-- All registers zero. -/
def zeroTf : Trapframe := ⟨fun _ => 0#32, 0#32, 0#32, 0#32, 0#32, 0#32⟩

/-- Static data before `env_init`, with an empty `base_pgdir` in the first frame
and a hundred free frames after it. -/
def zeroKernel : Kernel where
  pmap :=
    { ppRef := fun f => if 1 ≤ f.val ∧ f.val ≤ 100 then 0 else 1
      pageFreeList := (List.range 100).map fun i => Fin.ofNat npage (i + 1)
      mem := fun _ _ => 0#32 }
  envs _ :=
    { tf := zeroTf, id := 0#32, asid := 0, parentId := 0#32, status := .free, pgdir := none,
      pri := 0#32, ipcValue := 0#32, ipcFrom := 0#32, ipcRecving := 0#32, ipcDstva := 0#32,
      ipcPerm := 0#32, cowEntry := 0#32, runs := 0#32 }
  envFreeList := []
  envSchedList := ⟨none, none, fun _ => none, fun _ => none⟩
  asidBitmap _ := 0#32
  basePgdir := 0
  curenv := none
  curPgdir := none
  idCount := 0#32
  schedCount := 0#32
  active := zeroTf

/-- In every careful run all structures agree with the status words, `env_free`
is not run on a free environment and the assertion of `env_run` holds. -/
theorem env_life_cycle {h : List Event} {k : Kernel}
    (hrun : Run Booted (fun k ev k' => k.Careful ev ∧ k.Step ev k') h k) :
    InStep k ∧ ∀ ev, k.Careful ev →
      (∀ e, k.Frees ev e → (k.envs e).status ≠ .free) ∧
      Kernel.exec ev k ≠ .error (.assert "e->env_status == ENV_RUNNABLE") := by
  have hlife := life_of_run hrun
  refine ⟨hlife.inStep, fun ev hcare => ⟨fun e he => ?_, fun hstop => ?_⟩⟩
  · unfold Kernel.Frees at he
    split at he
    · rw [hcare e he]
      simp
    · exact he.elim
  · exact Sys.wp_error (exec_life hlife hcare) hstop rfl

/-- Programs are loaded, get the processor and fork, and nothing else happens. -/
def forksOnly (ev : Event) (k : Kernel) : Option Kernel :=
  match ev with
  | .create _ _ | .trap _ .timer | .trap _ (.ecall .exofork) => Kernel.next ev k
  | _ => none

theorem careful_of_forksOnly (ev : Event) (k k' : Kernel) (h : forksOnly ev k = some k') :
    k.Careful ev ∧ k.Step ev k' := by
  unfold forksOnly at h
  split at h
  · exact ⟨trivial, Kernel.step_of_next _ k k' h⟩
  · exact ⟨trivial, Kernel.step_of_next _ k k' h⟩
  · exact ⟨trivial, Kernel.step_of_next _ k k' h⟩
  · exact absurd h (by simp)

/-- A program is loaded, gets the processor and forks. -/
theorem env_life_cycle_fork : ∃ h k,
    Run Booted (fun k ev k' => k.Careful ev ∧ k.Step ev k') h k ∧
      (k.envs 0).status = .runnable ∧ (k.envs 1).status = .notRunnable ∧ InStep k := by
  have hend : ((Run.follow forksOnly [.create ⟨[], 0#32⟩ 1#32, .trap zeroTf .timer,
      .trap zeroTf (.ecall .exofork)] zeroKernel.envInit).map fun k =>
      ((k.envs 0).status, (k.envs 1).status)) = some (.runnable, .notRunnable) := by
    decide +kernel
  obtain ⟨k, hk, heq⟩ := Option.map_eq_some_iff.mp hend
  obtain ⟨hst0, hst1⟩ := Prod.mk.inj heq
  have hboot : Booted zeroKernel.envInit := ⟨zeroKernel, fun _ => rfl, rfl⟩
  have hrun := Run.of_follow careful_of_forksOnly (.start hboot) hk
  exact ⟨_, k, hrun, hst0, hst1, (env_life_cycle hrun).1⟩

/-- A program without pages is loaded and started; it forks a child, makes it
runnable and yields; the child waits for a message; the parent makes it runnable
again. -/
def wakeReceiver : List Event :=
  [.create ⟨[], 0#32⟩ 1#32, .trap zeroTf .timer, .trap zeroTf (.ecall .exofork),
    .trap zeroTf (.ecall (.setEnvStatus 4097#32 1#32)), .trap zeroTf (.ecall .yield),
    .trap zeroTf (.ecall (.ipcRecv 0#32)), .trap zeroTf (.ecall (.setEnvStatus 4097#32 1#32))]

/-- `e_set_env_status` makes an environment runnable that waits for a message. -/
theorem env_life_cycle_fails : ¬∀ h k, Run Booted Kernel.Step h k → InStep k := by
  intro hall
  have hstart : Run Booted Kernel.Step [] zeroKernel.envInit :=
    .start ⟨zeroKernel, fun _ => rfl, rfl⟩
  have hend : ((Run.follow Kernel.next wakeReceiver zeroKernel.envInit).map fun k =>
      ((k.envs 1).status, (k.envs 1).ipcRecving)) = some (.runnable, 1#32) := by
    decide +kernel
  obtain ⟨k, hk, heq⟩ := Option.map_eq_some_iff.mp hend
  obtain ⟨hst, hrec⟩ := Prod.mk.inj heq
  have hstep := (hall _ k (Run.of_follow Kernel.step_of_next hstart hk)).recving 1 hrec
  rw [hst] at hstep
  exact absurd hstep (by simp)

end RvMos
