/-
The calls on memory and messages in closed form.

Each equation gives the result and the state of a call, a stop included, in terms
of the functions of `pmap.c` that it makes use of.  Nothing is asked of the page
structures, so the equations also cover what a call does to a broken state.
-/
import RvMos.Kern.Spaces

namespace RvMos

open Lib

namespace Kern

open Sys

variable {k : Kernel}

/-! ## Names of environments -/

theorem curenv_eq {c : EnvIdx} (hc : k.curenv = some c) : curenv k = .ok (.ok c, k) := by
  unfold curenv
  rw [bind_of_ok (b := k) (t := k) rfl, hc]
  rfl

theorem envid2env_eq {envid : Word} {checkperm : Bool} {e : EnvIdx}
    (he : k.target envid checkperm = some e) : envid2env envid checkperm k = .ok (.ok e, k) := by
  obtain ⟨r, k', hrun, rfl, rfl⟩ := wp_run (wp_envid2env
    (Q := fun r k' => r = .ok e ∧ k' = k) (E := fun _ => False) he ⟨rfl, rfl⟩)
  exact hrun

theorem envid2env_none {envid : Word} {checkperm : Bool} {c : EnvIdx} (hc : k.curenv = some c)
    (he : k.target envid checkperm = none) :
    envid2env envid checkperm k = .ok (.error .badEnv, k) := by
  unfold Kernel.target at he
  unfold envid2env
  by_cases h0 : envid = 0#32
  · rw [if_pos h0, hc] at he
    exact absurd he (by simp)
  · rw [if_neg h0] at he ⊢
    cases checkperm with
    | false => exact absurd he (by simp)
    | true =>
      rw [if_pos rfl, hc, Option.bind_some] at he
      simp only [if_pos]
      rw [bind_of_ok (curenv_eq hc), bind_of_ok (b := k) (t := k) rfl]
      split at he
      · rename_i hbad
        rw [if_pos hbad]
        rfl
      · exact absurd he (by simp)

/-! ## Pages -/

theorem onPmap_ok {α : Type} {f : Pmap → Except Halt (Except Errno α × Pmap)}
    {r : Except Errno α} {s : Pmap} (h : f k.pmap = .ok (r, s)) :
    onPmap f k = .ok (r, k.setPmap s) := by
  unfold onPmap
  rw [h]

theorem dirOf_eq (d : Frame) : dirOf (some d) k = .ok (.ok d, k) := rfl

theorem pageAlloc_ok {pp : Frame} {s : Pmap} (h : k.pmap.pageAlloc = .ok (pp, s)) :
    pageAlloc k = .ok (.ok pp, k.setPmap s) := by
  unfold pageAlloc
  exact onPmap_ok (by rw [h])

theorem pageAlloc_nil (h : k.pmap.pageFreeList = []) : pageAlloc k = .ok (.error .noMem, k) := by
  unfold pageAlloc
  refine onPmap_ok (s := k.pmap) ?_
  unfold Pmap.pageAlloc
  rw [h]

theorem pageInsert_ok {d pp : Frame} {va perm : Word} {r : Except Errno Unit} {s : Pmap}
    (h : k.pmap.pageInsert d pp va perm = .ok (r, s)) :
    pageInsert (some d) pp va perm k = .ok (r, k.setPmap s) := by
  unfold pageInsert
  rw [bind_of_ok (dirOf_eq d), onPmap_ok h]

theorem pageLookup_ok {d : Frame} {va : Word} {x : Option (Frame × PtePtr)}
    (h : k.pmap.pageLookup d va = .ok x) : pageLookup (some d) va k = .ok (.ok x, k) := by
  unfold pageLookup
  rw [bind_of_ok (dirOf_eq d)]
  exact onPmap_ok (s := k.pmap) (by rw [h]; rfl)

theorem pageRemove_ok {d : Frame} {va : Word} {s : Pmap} (h : k.pmap.pageRemove d va = .ok s) :
    pageRemove (some d) va k = .ok (.ok (), k.setPmap s) := by
  unfold pageRemove
  rw [bind_of_ok (dirOf_eq d)]
  exact onPmap_ok (by rw [h]; rfl)

/-! ## Calls on memory -/

section MemAlloc

variable {envid va perm : Word} {e : EnvIdx} {d : Frame}

theorem eMemAlloc_illegal (hva : isIllegalVa va = true) :
    eMemAlloc envid va perm k = .ok (.error .inval, k) := by
  unfold eMemAlloc
  rw [if_pos hva]
  rfl

theorem eMemAlloc_nil (hva : isIllegalVa va = false) (he : k.target envid true = some e)
    (hnil : k.pmap.pageFreeList = []) : eMemAlloc envid va perm k = .ok (.error .noMem, k) := by
  unfold eMemAlloc
  rw [if_neg (by rw [hva]; simp), bind_of_ok (envid2env_eq he), bind_of_error (pageAlloc_nil hnil)]

theorem eMemAlloc_ok (hva : isIllegalVa va = false) (he : k.target envid true = some e)
    (hd : (k.envs e).pgdir = some d) {pp : Frame} {s s' : Pmap} {r : Except Errno Unit}
    (ha : k.pmap.pageAlloc = .ok (pp, s)) (hi : s.pageInsert d pp va perm = .ok (r, s')) :
    eMemAlloc envid va perm k = .ok (r, k.setPmap s') := by
  unfold eMemAlloc
  rw [if_neg (by rw [hva]; simp), bind_of_ok (envid2env_eq he), bind_of_ok (pageAlloc_ok ha),
    bind_of_ok (b := k.setPmap s) (t := k.setPmap s) rfl,
    show ((k.setPmap s).envs e).pgdir = some d from hd]
  exact pageInsert_ok hi

end MemAlloc

section MemMap

variable {srcid srcva dstid dstva perm : Word} {src dst : EnvIdx} {ds d : Frame}

theorem eMemMap_illegal (hva : (isIllegalVa srcva || isIllegalVa dstva) = true) :
    eMemMap srcid srcva dstid dstva perm k = .ok (.error .inval, k) := by
  unfold eMemMap
  rw [if_pos hva]
  rfl

theorem eMemMap_ok (hs : isIllegalVa srcva = false) (ht : isIllegalVa dstva = false)
    (hsrc : k.target srcid true = some src) (hdst : k.target dstid false = some dst)
    (hds : (k.envs src).pgdir = some ds) (hd : (k.envs dst).pgdir = some d) {pp : Frame}
    {p : PtePtr} {r : Except Errno Unit} {s : Pmap}
    (hl : k.pmap.pageLookup ds srcva = .ok (some (pp, p)))
    (hi : k.pmap.pageInsert d pp dstva perm = .ok (r, s)) :
    eMemMap srcid srcva dstid dstva perm k = .ok (r, k.setPmap s) := by
  unfold eMemMap
  rw [if_neg (by rw [hs, ht]; simp), bind_of_ok (envid2env_eq hsrc),
    bind_of_ok (envid2env_eq hdst), bind_of_ok (b := k) (t := k) rfl, hds,
    bind_of_ok (pageLookup_ok hl)]
  simp only
  rw [bind_of_ok (b := k) (t := k) rfl, hd]
  exact pageInsert_ok hi

end MemMap

/-! ## Messages -/

section TrySend

variable {envid value srcva perm : Word} {c e : EnvIdx} {q : TailQueue EnvIdx}

theorem eIpcTrySend_illegal (hva : srcva ≠ 0#32 ∧ isIllegalVa srcva = true) :
    eIpcTrySend envid value srcva perm k = .ok (.error .inval, k) := by
  unfold eIpcTrySend
  rw [if_pos hva]
  rfl

theorem eIpcTrySend_deaf (hva : ¬(srcva ≠ 0#32 ∧ isIllegalVa srcva = true))
    (he : k.target envid false = some e) (hrecv : (k.envs e).ipcRecving = 0#32) :
    eIpcTrySend envid value srcva perm k = .ok (.error .ipcNotRecv, k) := by
  unfold eIpcTrySend
  rw [if_neg hva, bind_of_ok (envid2env_eq he), bind_of_ok (b := k) (t := k) rfl, if_pos hrecv]
  rfl

theorem schedInsertTail_ok (hq : k.envSchedList.insertTail e = some q) :
    schedInsertTail e k = .ok (.ok (), { k with envSchedList := q }) := by
  unfold schedInsertTail
  rw [hq]

/-- The call once the mailbox is filled. -/
theorem eIpcTrySend_eq (hva : ¬(srcva ≠ 0#32 ∧ isIllegalVa srcva = true))
    (he : k.target envid false = some e) (hrecv : (k.envs e).ipcRecving ≠ 0#32)
    (hc : k.curenv = some c) (hq : k.envSchedList.insertTail e = some q) :
    eIpcTrySend envid value srcva perm k =
      (if srcva ≠ 0#32 then do
        match ← pageLookup ((← get).envs c).pgdir srcva with
        | none => throw .inval
        | some (p, _) => do
          let v := (← get).envs e
          let _ ← attempt (pageInsert v.pgdir p v.ipcDstva perm)
          pure ()
      else pure () : Kern Unit) (delivered k c e value perm q) := by
  have hin : schedInsertTail e (k.setEnv e fun v =>
      { v with
        ipcValue := value
        ipcFrom := (k.envs c).id
        ipcPerm := pteV ||| perm
        ipcRecving := 0#32
        status := .runnable }) = .ok (.ok (), delivered k c e value perm q) :=
    schedInsertTail_ok hq
  unfold eIpcTrySend
  rw [if_neg hva, bind_of_ok (envid2env_eq he), bind_of_ok (b := k) (t := k) rfl,
    if_neg hrecv, bind_of_ok (curenv_eq hc)]
  refine (bind_of_ok (b := ()) (t := k.setEnv e fun v =>
      { v with
        ipcValue := value
        ipcFrom := (k.envs c).id
        ipcPerm := pteV ||| perm
        ipcRecving := 0#32
        status := .runnable }) rfl).trans ?_
  exact bind_of_ok hin

/-- Without a page the call ends there. -/
theorem eIpcTrySend_null (he : k.target envid false = some e)
    (hrecv : (k.envs e).ipcRecving ≠ 0#32) (hc : k.curenv = some c)
    (hq : k.envSchedList.insertTail e = some q) :
    eIpcTrySend envid value 0#32 perm k = .ok (.ok (), delivered k c e value perm q) := by
  rw [eIpcTrySend_eq (by simp) he hrecv hc hq, if_neg (by simp)]
  rfl

/-- With a page that is not mapped it fails after the mailbox is filled. -/
theorem eIpcTrySend_unmapped (hva : isIllegalVa srcva = false) (h0 : srcva ≠ 0#32)
    (he : k.target envid false = some e) (hrecv : (k.envs e).ipcRecving ≠ 0#32)
    (hc : k.curenv = some c) (hq : k.envSchedList.insertTail e = some q) {ds : Frame}
    (hds : (k.envs c).pgdir = some ds) (hl : k.pmap.pageLookup ds srcva = .ok none) :
    eIpcTrySend envid value srcva perm k =
      .ok (.error .inval, delivered k c e value perm q) := by
  rw [eIpcTrySend_eq (by simp [hva]) he hrecv hc hq, if_pos h0,
    bind_of_ok (b := delivered k c e value perm q) (t := delivered k c e value perm q) rfl,
    delivered_pgdir, hds, bind_of_ok (pageLookup_ok (k := delivered k c e value perm q) hl)]
  rfl

/-- With a page it inserts it, and does not look at the result. -/
theorem eIpcTrySend_page (hva : isIllegalVa srcva = false) (h0 : srcva ≠ 0#32)
    (he : k.target envid false = some e) (hrecv : (k.envs e).ipcRecving ≠ 0#32)
    (hc : k.curenv = some c) (hq : k.envSchedList.insertTail e = some q) {ds d pp : Frame}
    (hds : (k.envs c).pgdir = some ds) (hd : (k.envs e).pgdir = some d) {p : PtePtr}
    {r : Except Errno Unit} {s : Pmap}
    (hl : k.pmap.pageLookup ds srcva = .ok (some (pp, p)))
    (hi : k.pmap.pageInsert d pp (k.envs e).ipcDstva perm = .ok (r, s)) :
    eIpcTrySend envid value srcva perm k =
      .ok (.ok (), (delivered k c e value perm q).setPmap s) := by
  have hins : (pageInsert (some d) pp (k.envs e).ipcDstva perm).attempt
      (delivered k c e value perm q) = .ok (.ok r, (delivered k c e value perm q).setPmap s) :=
    attempt_of_ok (pageInsert_ok (k := delivered k c e value perm q) hi)
  rw [eIpcTrySend_eq (by simp [hva]) he hrecv hc hq, if_pos h0,
    bind_of_ok (b := delivered k c e value perm q) (t := delivered k c e value perm q) rfl,
    delivered_pgdir, hds, bind_of_ok (pageLookup_ok (k := delivered k c e value perm q) hl)]
  simp only
  rw [bind_of_ok (b := delivered k c e value perm q) (t := delivered k c e value perm q) rfl]
  simp only [delivered_pgdir, delivered_dstva, hd]
  rw [bind_of_ok hins]
  rfl

end TrySend

end Kern
end RvMos
