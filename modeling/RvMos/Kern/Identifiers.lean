/-
The identifiers of environments.

`mkenvid` packs a count that it increments with the number of the slot, and
`envid2env` looks at the slot only.  An event of the kernel either leaves all
identifiers alone, or gives the next one to the first free slot (`exec_ids`).
So the identifier of a live environment names its slot in every run, and
identifiers stay positive and distinct until the count reaches bit 20.
-/
import RvMos.Kern.Reach
import RvMos.Kern.Calls

namespace RvMos

open Lib

/-- The identifier that `mkenvid` makes next for slot `e`. -/
def Kernel.nextId (k : Kernel) (e : EnvIdx) : Word :=
  ((k.idCount + 1#32) <<< 11) ||| BitVec.ofNat 32 e.val

/-! ## Events that assign no identifier -/

/-- No identifier is assigned from `k` to `k'`, and no slot is taken. -/
structure SameIds (k k' : Kernel) : Prop where
  id : ∀ e, (k'.envs e).id = (k.envs e).id
  count : k'.idCount = k.idCount
  free : ∀ e ∈ k.envFreeList, e ∈ k'.envFreeList

instance : IsPreorder Kernel SameIds where
  refl _ := ⟨fun _ => rfl, rfl, fun _ => id⟩
  trans _ _ _ h h' := ⟨fun e => (h'.id e).trans (h.id e), h'.count.trans h.count,
    fun e he => h'.free e (h.free e he)⟩

theorem SameIds.of_envs {k k' : Kernel} (he : k'.envs = k.envs) (hc : k'.idCount = k.idCount)
    (hf : k'.envFreeList = k.envFreeList) : SameIds k k' :=
  ⟨fun e => by rw [he], hc, fun e he => by rw [hf]; exact he⟩

theorem SameIds.setEnv (k : Kernel) (e : EnvIdx) {f : Env → Env} (hf : ∀ v, (f v).id = v.id) :
    SameIds k (k.setEnv e f) :=
  ⟨k.setEnv_keeps Env.id (hf _), rfl, fun _ he => he⟩

namespace Kern

open Sys

/-- A procedure that assigns no identifier. -/
def KeepsIds {α : Type} (m : Kern α) : Prop := Keeps SameIds (fun _ => True) m

theorem OnlyRegs.ids {α : Type} {m : Kern α} (h : OnlyRegs m) : KeepsIds m :=
  keeps_mono (fun k k' ⟨p, r, n, hp⟩ => by rw [hp]; exact .of_envs rfl rfl rfl) (fun _ _ => trivial) h

theorem OnlyPages.ids {α : Type} {m : Kern α} (h : OnlyPages m) : KeepsIds m :=
  OnlyRegs.ids (OnlyPages.regs h)

theorem ids_setEnv (e : EnvIdx) {f : Env → Env} (hf : ∀ v, (f v).id = v.id) :
    KeepsIds (setEnv e f) :=
  keeps_modify fun k => SameIds.setEnv k e hf

theorem ids_modify {f : Kernel → Kernel} (he : ∀ k, (f k).envs = k.envs)
    (hc : ∀ k, (f k).idCount = k.idCount) (hf : ∀ k, (f k).envFreeList = k.envFreeList) :
    KeepsIds (modify f : Kern Unit) :=
  keeps_modify fun k => .of_envs (he k) (hc k) (hf k)

theorem ids_schedRemove (e : EnvIdx) : KeepsIds (schedRemove e) := fun k =>
  wp_conseq (schedRemove_queue e k) fun _ _ ⟨_, hq⟩ => by rw [hq]; exact .of_envs rfl rfl rfl

theorem ids_schedInsertTail (e : EnvIdx) : KeepsIds (schedInsertTail e) := fun k =>
  wp_conseq (schedInsertTail_queue e k) fun _ _ ⟨_, hq⟩ => by rw [hq]; exact .of_envs rfl rfl rfl

theorem ids_schedule (yield : Bool) : KeepsIds (schedule yield) := by
  refine fun k => wp_mono (schedule_ran yield k) (fun r k' hr => ?_) fun _ _ => trivial
  obtain ⟨-, q, n, e, -, rfl⟩ := hr
  refine ⟨fun c => ?_, ?_, fun c hc => ?_⟩
  · obtain ⟨m, hm⟩ := ran_envs { k with envSchedList := q, schedCount := n } e c
    rw [hm]
  · unfold ran saved
    cases k.curenv <;> rfl
  · unfold ran saved
    cases k.curenv <;> exact hc

theorem ids_envFree (e : EnvIdx) : KeepsIds (envFree e) := by
  have hpages : ∀ d : Frame, KeepsIds
      (onPmap fun p => (p.freeSpace d).map fun p' => (.ok (), p') : Kern Unit) := fun d k =>
    wp_onPmap.mpr ⟨fun _ _ => trivial, fun _ _ _ => .of_envs rfl rfl rfl⟩
  refine keeps_bind keeps_get fun _ => keeps_bind (OnlyPages.ids (pages_dirOf _)) fun d => ?_
  refine keeps_bind (hpages d) fun _ => keeps_bind keeps_get fun _ => ?_
  refine keeps_bind (ids_modify (fun _ => rfl) (fun _ => rfl) fun _ => rfl) fun _ => ?_
  refine keeps_bind (ids_setEnv e fun _ => rfl) fun _ => ?_
  refine keeps_bind (keeps_modify fun k => ?_) fun _ => ids_schedRemove e
  exact ⟨fun _ => rfl, rfl, fun _ hc => List.mem_cons_of_mem _ hc⟩

theorem ids_envDestroy (e : EnvIdx) : KeepsIds (envDestroy e) := by
  refine keeps_bind (ids_envFree e) fun _ => keeps_bind keeps_get fun _ => keeps_ite ?_ (keeps_pure _)
  refine keeps_bind (ids_modify (fun _ => rfl) (fun _ => rfl) fun _ => rfl) fun _ => ?_
  exact keeps_bind (ids_schedule true) fun _ => keeps_pure _

theorem ids_eSetEnvStatus (envid status : Word) : KeepsIds (eSetEnvStatus envid status) := by
  unfold eSetEnvStatus
  split
  · exact keeps_throw _
  · refine keeps_bind (OnlyPages.ids (pages_envid2env _ _)) fun e => ?_
    refine keeps_bind keeps_get fun _ => keeps_bind ?_ fun _ => ids_setEnv e fun _ => rfl
    exact keeps_ite (ids_schedRemove e) (keeps_ite (ids_schedInsertTail e) (keeps_pure _))

theorem ids_eSetTrapframe (envid va : Word) (tf : Trapframe) :
    KeepsIds (eSetTrapframe envid va tf) := by
  refine keeps_ite (keeps_throw _) (keeps_bind (OnlyPages.ids (pages_envid2env _ _)) fun e => ?_)
  refine keeps_bind keeps_get fun _ => keeps_ite ?_ ?_
  · exact keeps_bind (ids_modify (fun _ => rfl) (fun _ => rfl) fun _ => rfl) fun _ => keeps_pure _
  · exact keeps_bind (ids_setEnv e fun _ => rfl) fun _ => keeps_pure _

theorem ids_eIpcRecv (dstva : Word) : KeepsIds (eIpcRecv dstva) := by
  refine keeps_ite (keeps_throw _) (keeps_bind (OnlyPages.ids pages_curenv) fun c => ?_)
  refine keeps_bind (ids_setEnv c fun _ => rfl) fun _ => keeps_bind (ids_schedRemove c) fun _ => ?_
  exact keeps_bind (ids_modify (fun _ => rfl) (fun _ => rfl) fun _ => rfl) fun _ => ids_schedule true

theorem ids_eIpcTrySend (envid value srcva perm : Word) :
    KeepsIds (eIpcTrySend envid value srcva perm) := by
  refine keeps_ite (keeps_throw _) (keeps_bind (OnlyPages.ids (pages_envid2env _ _)) fun e => ?_)
  refine keeps_bind keeps_get fun _ => keeps_ite (keeps_throw _) ?_
  refine keeps_bind (OnlyPages.ids pages_curenv) fun c => ?_
  refine keeps_bind (keeps_modify fun k => SameIds.setEnv k e fun _ => rfl) fun _ => ?_
  refine keeps_bind (ids_schedInsertTail e) fun _ => keeps_ite ?_ (keeps_pure _)
  refine keeps_bind keeps_get fun _ => keeps_bind (OnlyPages.ids (pages_pageLookup _ _)) fun r => ?_
  cases r with
  | none => exact keeps_throw _
  | some x =>
    refine keeps_bind keeps_get fun _ => ?_
    exact keeps_bind (keeps_attempt (OnlyPages.ids (pages_pageInsert _ _ _ _))) fun _ =>
      keeps_pure _

/-- Every call but `e_exofork` leaves the identifiers alone. -/
theorem ecall_ids {c : Ecall} (hc : c ≠ .exofork) : KeepsIds (ecall c) := by
  cases c with
  | device ret => exact keeps_pure _
  | getenvid =>
    exact keeps_bind (OnlyPages.ids pages_curenv) fun _ => keeps_bind keeps_get fun _ => keeps_pure _
  | yield => exact keeps_bind (ids_schedule true) fun _ => keeps_pure _
  | envDestroy envid =>
    refine keeps_bind (keeps_bind (OnlyPages.ids (pages_envid2env _ _)) fun e => ids_envDestroy e)
      fun b => ?_
    exact keeps_ite (keeps_pure _) (keeps_pure _)
  | setEnvCowEntry envid cowEntry =>
    exact keeps_bind (keeps_bind (OnlyPages.ids (pages_envid2env _ _)) fun e =>
      ids_setEnv e fun _ => rfl) fun _ => keeps_pure _
  | memAlloc envid va perm =>
    exact keeps_bind (OnlyPages.ids (pages_eMemAlloc _ _ _)) fun _ => keeps_pure _
  | memMap srcid srcva dstid dstva perm =>
    exact keeps_bind (OnlyPages.ids (pages_eMemMap _ _ _ _ _)) fun _ => keeps_pure _
  | memUnmap envid va =>
    exact keeps_bind (OnlyPages.ids (pages_eMemUnmap _ _)) fun _ => keeps_pure _
  | exofork => exact absurd rfl hc
  | setEnvStatus envid status => exact keeps_bind (ids_eSetEnvStatus _ _) fun _ => keeps_pure _
  | setTrapframe envid va tf => exact keeps_bind (ids_eSetTrapframe _ _ _) fun _ => keeps_pure _
  | panic => exact keeps_halt trivial
  | ipcTrySend envid value srcva perm =>
    exact keeps_bind (ids_eIpcTrySend _ _ _ _) fun _ => keeps_pure _
  | ipcRecv dstva => exact keeps_bind (ids_eIpcRecv _) fun _ => keeps_pure _
  | getPgdir pde => exact keeps_bind (OnlyPages.ids (pages_eGetPgdir _)) fun _ => keeps_pure _
  | readDisk buf data =>
    exact keeps_bind (OnlyPages.ids (pages_kernelStore _ _)) fun _ => keeps_pure _
  | getPgref v => exact keeps_bind (OnlyPages.ids (pages_eGetPgref v)) fun _ => keeps_pure _

end Kern

/-! ## Events that assign one -/

/-- The next identifier goes to slot `e`, which is free no more. -/
structure Assigned (k : Kernel) (e : EnvIdx) (k' : Kernel) : Prop where
  id : (k'.envs e).id = k.nextId e
  other : ∀ c, c ≠ e → (k'.envs c).id = (k.envs c).id
  count : k'.idCount = k.idCount + 1#32
  free : ∀ c ∈ k.envFreeList, c ≠ e → c ∈ k'.envFreeList

theorem Assigned.same {k k₁ k₂ : Kernel} {e : EnvIdx} (h : Assigned k e k₁) (h' : SameIds k₁ k₂) :
    Assigned k e k₂ :=
  ⟨(h'.id e).trans h.id, fun c hc => (h'.id c).trans (h.other c hc), h'.count.trans h.count,
    fun c hc hce => h'.free c (h.free c hc hce)⟩

/-- What happens to the identifiers: nothing, or the first free slot gets the next
one. -/
def Kernel.Assigns (k k' : Kernel) : Prop :=
  SameIds k k' ∨ ∃ e rest, k.envFreeList = e :: rest ∧ Assigned k e k'

theorem Kernel.Assigns.same {k k₁ k₂ : Kernel} (h : k.Assigns k₁) (h' : SameIds k₁ k₂) :
    k.Assigns k₂ := by
  rcases h with h | ⟨e, rest, hl, ha⟩
  · exact .inl (trans_of SameIds h h')
  · exact .inr ⟨e, rest, hl, ha.same h'⟩

namespace Kern

open Sys

variable {k : Kernel}

theorem ids_envSetupVm (e : EnvIdx) : KeepsIds (envSetupVm e) := by
  refine keeps_bind (OnlyPages.ids pages_pageAlloc) fun p => ?_
  refine keeps_bind (keeps_modify fun k => ?_) fun _ => ?_
  · have hp : SameIds k (k.setPmap (k.pmap.incRef p)) := .of_envs rfl rfl rfl
    refine trans_of SameIds hp (SameIds.setEnv _ e ?_)
    exact fun _ => rfl
  · exact keeps_bind (OnlyPages.ids (pages_setPmap _)) fun _ =>
      keeps_each (fun i => OnlyPages.ids (pages_mapStacks p i)) _

theorem ids_asidAlloc : KeepsIds asidAlloc := by
  refine keeps_bind keeps_get fun k => ?_
  dsimp only
  split
  · exact keeps_throw _
  · exact keeps_bind (ids_modify (fun _ => rfl) (fun _ => rfl) fun _ => rfl) fun _ => keeps_pure _

theorem envAlloc_ids (parentId : Word) (k : Kernel) :
    (envAlloc parentId).wp (fun r k' => k.Assigns k' ∧ ∀ e, r = .ok e →
      ∃ rest, k.envFreeList = e :: rest ∧ Assigned k e k') (fun _ => True) k := by
  unfold envAlloc
  rw [wp_get_bind]
  cases hl : k.envFreeList with
  | nil => exact wp_throw.mpr ⟨.inl (refl_of SameIds k), fun e he => absurd he (by simp)⟩
  | cons e rest =>
    simp only
    refine wp_seq (ids_envSetupVm e k) (fun _ k₁ h₁ => ?_) fun _ k₁ h₁ =>
      ⟨.inl h₁, fun e he => absurd he (by simp)⟩
    unfold setEnv mkenvid
    rw [wp_modify_bind]
    simp only [wp_bind, wp_modify, wp_get, wp_pure]
    have hassigned : Assigned k e ((({ (k₁.setEnv e fun v => { v with cowEntry := 0#32, runs := 0#32 })
        with idCount := k₁.idCount + 1#32 } : Kernel)).setEnv e
          fun v => { v with id := (k₁.idCount + 1#32) <<< 11 ||| BitVec.ofNat 32 e.val }) := by
      refine ⟨?_, fun c hc => ?_, ?_, fun c hc _ => h₁.free c hc⟩
      · rw [Kernel.setEnv_self, Kernel.nextId, h₁.count]
      · rw [Kernel.setEnv_of_ne _ hc]
        exact ((SameIds.setEnv k₁ e (f := fun v => { v with cowEntry := 0#32, runs := 0#32 })
          fun _ => rfl).id c).trans (h₁.id c)
      · exact congrArg (· + 1#32) h₁.count
    refine wp_conseq (ids_asidAlloc _) fun r k₂ h₂ => ?_
    have h₂ := hassigned.same h₂
    cases r with
    | error x => exact ⟨.inr ⟨e, rest, hl, h₂⟩, fun e he => absurd he (by simp)⟩
    | ok i =>
      have h₃ : Assigned k e { (k₂.setEnv e fun v =>
          { v with asid := i, parentId := parentId, tf := freshTf v.tf }) with
          envFreeList := k₂.envFreeList.erase e } := by
        have hset := h₂.same (SameIds.setEnv k₂ e (f := fun v =>
          { v with asid := i, parentId := parentId, tf := freshTf v.tf }) fun _ => rfl)
        exact ⟨hset.id, hset.other, hset.count, fun c hc hce =>
          (List.mem_erase_of_ne hce).mpr (h₂.free c hc hce)⟩
      refine ⟨.inr ⟨e, rest, hl, h₃⟩, fun e' he' => ?_⟩
      obtain rfl := Except.ok.inj he'
      exact ⟨rest, rfl, h₃⟩

theorem eExofork_ids (k : Kernel) :
    eExofork.wp (fun _ k' => k.Assigns k') (fun _ => True) k := by
  unfold eExofork
  refine wp_seq (wp_mono (curenv_spec k) (fun _ _ h => h) fun _ _ => trivial) (fun c k₁ h₁ => ?_)
    fun _ _ h₁ => ?_
  · obtain ⟨rfl, -⟩ := h₁
    rw [wp_get_bind]
    refine wp_seq (envAlloc_ids _ k₁) (fun e k₂ h₂ => ?_) fun _ _ h₂ => h₂.1
    rw [wp_modify_bind, wp_get_bind, wp_pure]
    exact h₂.1.same (SameIds.setEnv k₂ e fun _ => rfl)
  · obtain ⟨-, c, hc, -⟩ := h₁
    exact absurd hc (by simp)

theorem envCreate_ids (prog : Program) (priority : Word) (k : Kernel) :
    (envCreate prog priority).wp (fun _ k' => k.Assigns k') (fun _ => True) k := by
  unfold envCreate
  refine wp_attempt_seq (envAlloc_ids 0#32 k) fun r k₁ h₁ => ?_
  cases r with
  | error x => exact wp_halt.mpr trivial
  | ok e =>
    have hload : KeepsIds (loadIcode e prog) := by
      refine keeps_bind (keeps_attempt (OnlyPages.ids (pages_loadPages e _))) fun r => ?_
      cases r with
      | error x => exact keeps_halt trivial
      | ok u => exact ids_setEnv e fun _ => rfl
    have hrest : KeepsIds (do
        setEnv e fun v => { v with pri := priority, status := .runnable }
        loadIcode e prog
        schedInsertHead e
        pure e : Kern EnvIdx) := by
      refine keeps_bind (ids_setEnv e fun _ => rfl) fun _ => keeps_bind hload fun _ => ?_
      exact keeps_bind (ids_modify (fun _ => rfl) (fun _ => rfl) fun _ => rfl) fun _ => keeps_pure _
    exact wp_conseq (hrest k₁) fun _ _ h₂ => h₁.1.same h₂

end Kern

/-- An event leaves the identifiers alone, or gives the next one to the first free
slot. -/
theorem exec_ids (ev : Event) (k : Kernel) :
    (Kernel.exec ev).wp (fun _ k' => k.Assigns k') (fun _ => True) k := by
  have hkeep : ∀ {m : Kern Unit} {a : Trapframe}, Kern.KeepsIds m →
      m.wp (fun _ k' => k.Assigns k') (fun _ => True) { k with active := a } := fun hm =>
    Sys.wp_conseq (hm _) fun _ _ h => .inl ⟨h.id, h.count, h.free⟩
  cases ev with
  | create prog priority =>
    exact Sys.wp_seq (Kern.envCreate_ids prog priority k) (fun _ _ h => Sys.wp_pure.mpr h)
      fun _ _ h => h
  | trap tf t =>
    cases t with
    | ecall c =>
      refine Kern.wp_handle_ecall tf (fun k' a h => h.same (.of_envs rfl rfl rfl)) fun a => ?_
      by_cases hc : c = .exofork
      · rw [hc]
        refine Sys.wp_seq (R := fun _ k' => k.Assigns k') (Sys.wp_conseq
          (Kern.eExofork_ids { k with active := a }) fun _ k' h => ?_)
          (fun _ _ h => Sys.wp_pure.mpr h) fun _ _ h => h
        rcases h with h | ⟨e, rest, hl, h⟩
        · exact .inl ⟨h.id, h.count, h.free⟩
        · exact .inr ⟨e, rest, hl, h.id, h.other, h.count, h.free⟩
      · exact Sys.wp_conseq (Kern.ecall_ids hc { k with active := a }) fun _ _ h =>
          .inl ⟨h.id, h.count, h.free⟩
    | badEcall => exact Sys.wp_modify_bind.mpr (hkeep (Kern.OnlyRegs.ids (Kern.regs_setReg _ _)))
    | timer => exact Sys.wp_modify_bind.mpr (hkeep (Kern.ids_schedule false))
    | software => exact Sys.wp_modify_bind.mpr (hkeep (Sys.keeps_pure _))
    | loadPage junk =>
      exact Sys.wp_modify_bind.mpr (hkeep (Kern.OnlyPages.ids (Kern.pages_doLoadPage junk)))
    | storePage =>
      exact Sys.wp_modify_bind.mpr (hkeep (Kern.OnlyRegs.ids Kern.regs_doStorePage))
    | instructionPage => exact Sys.wp_modify_bind.mpr (Sys.wp_halt.mpr trivial)
    | reserved => exact Sys.wp_modify_bind.mpr (Sys.wp_halt.mpr trivial)

/-! ## The slot in an identifier -/

theorem Kern.envx_nextId (k : Kernel) (e : EnvIdx) : Kern.envx (k.nextId e) = e := by
  have he : (BitVec.ofNat 32 e.val).toNat = e.val := by
    rw [BitVec.toNat_ofNat]
    omega
  have hmask : k.nextId e &&& 1023#32 = BitVec.ofNat 32 e.val := by
    refine BitVec.eq_of_getLsbD_eq fun i hi => ?_
    have h1023 : (1023#32).getLsbD i = decide (i < 10) := by
      have hall : ∀ i < 32, (1023#32).getLsbD i = decide (i < 10) := by decide
      exact hall i hi
    rw [BitVec.getLsbD_and, Kernel.nextId, BitVec.getLsbD_or, BitVec.getLsbD_shiftLeft, h1023]
    by_cases h10 : i < 10
    · simp [h10, show i < 11 by omega]
    · have hbit : (BitVec.ofNat 32 e.val).getLsbD i = false := by
        rw [BitVec.getLsbD, he]
        refine Nat.testBit_lt_two_pow (Nat.lt_of_lt_of_le e.isLt ?_)
        calc 1024 = 2 ^ 10 := rfl
          _ ≤ 2 ^ i := Nat.pow_le_pow_right (by decide) (by omega)
      simp [h10, hbit]
  unfold Kern.envx
  rw [hmask, he]
  exact Fin.ofNat_val_eq_self e

/-- Every slot that is taken holds an identifier that names it. -/
def Named (k : Kernel) : Prop := ∀ e, e ∉ k.envFreeList → Kern.envx (k.envs e).id = e

theorem Named.assigns {k k' : Kernel} (h : Named k) (ha : k.Assigns k') : Named k' := by
  intro c hc
  rcases ha with hs | ⟨e, rest, hl, ha⟩
  · rw [hs.id]
    exact h c fun hf => hc (hs.free c hf)
  · by_cases hce : c = e
    · rw [hce, ha.id]
      exact Kern.envx_nextId k e
    · rw [ha.other c hce]
      exact h c fun hf => hc (ha.free c hf hce)

theorem Started.named {k : Kernel} (h : Started k) : Named k := by
  obtain ⟨k₀, -, -, -, -, -, -, -, hk⟩ := h
  intro e he
  have hall := List.mem_finRange e
  rw [hk, Kernel.envInit] at he
  generalize List.finRange 1024 = es at he hall
  rw [(envInit_loop _ es).1] at he
  exact absurd (List.mem_append_left _ hall) he

/-! ## Identifiers of a run -/

/-- The identifier that an event assigned on its way from `k` to `k'`. -/
def Kernel.assigned (k k' : Kernel) : Option Word :=
  if k'.idCount = k.idCount then none else k.envFreeList.head?.map fun e => (k'.envs e).id

/-- A kernel with the identifiers that `mkenvid` has assigned so far, newest first. -/
abbrev Register := Kernel × List Word

def Register.Start (s : Register) : Prop := Started s.1 ∧ s.2 = []

def Register.Step (s : Register) (ev : Event) (s' : Register) : Prop :=
  s.1.Step ev s'.1 ∧ s'.2 = (s.1.assigned s'.1).toList ++ s.2

/-- Nobody can take one of the identifiers for an error code or for zero, and none
was assigned twice. -/
def Distinct (ids : List Word) : Prop :=
  ids.Nodup ∧ ∀ id ∈ ids, id ≠ 0#32 ∧ id.msb = false

/-- The identifiers carry their place in the list. -/
def Numbered : List Word → Prop
  | [] => True
  | id :: ids => (∃ e : EnvIdx, id = (BitVec.ofNat 32 (ids.length + 1) <<< 11) |||
      BitVec.ofNat 32 e.val) ∧ Numbered ids

section Numbered

variable {ids : List Word}

theorem packed_toNat {n : Nat} (hn : n < 2 ^ 20) (e : EnvIdx) :
    ((BitVec.ofNat 32 n <<< 11) ||| BitVec.ofNat 32 e.val).toNat = 2048 * n + e.val := by
  have he : e.val < 1024 := e.isLt
  rw [BitVec.toNat_or, BitVec.toNat_shiftLeft, BitVec.toNat_ofNat, BitVec.toNat_ofNat,
    Nat.mod_eq_of_lt (show n < 2 ^ 32 by omega), Nat.mod_eq_of_lt (show e.val < 2 ^ 32 by omega),
    Nat.shiftLeft_eq, Nat.mod_eq_of_lt (show n * 2 ^ 11 < 2 ^ 32 by omega), Nat.mul_comm n,
    ← Nat.two_pow_add_eq_or_of_lt (show e.val < 2 ^ 11 by omega)]

theorem Numbered.mem (h : Numbered ids) {id : Word} (hid : id ∈ ids) :
    ∃ n e, 1 ≤ n ∧ n ≤ ids.length ∧
      id = (BitVec.ofNat 32 n <<< 11) ||| BitVec.ofNat 32 (e : EnvIdx).val := by
  induction ids with
  | nil => exact absurd hid List.not_mem_nil
  | cons a ids ih =>
    obtain ⟨⟨e, he⟩, h⟩ := h
    rcases List.mem_cons.mp hid with rfl | hid
    · exact ⟨ids.length + 1, e, by omega, le_rfl, he⟩
    · obtain ⟨n, e, h1, hn, heq⟩ := ih h hid
      exact ⟨n, e, h1, Nat.le_succ_of_le hn, heq⟩

theorem Numbered.at (h : Numbered ids) {n : Nat} (h1 : 1 ≤ n) (hn : n ≤ ids.length) :
    ∃ e : EnvIdx, (BitVec.ofNat 32 n <<< 11) ||| BitVec.ofNat 32 e.val ∈ ids := by
  induction ids with
  | nil => exact absurd (h1.trans hn) (by simp)
  | cons a ids ih =>
    obtain ⟨⟨e, he⟩, h⟩ := h
    by_cases hlast : n = ids.length + 1
    · exact ⟨e, by rw [hlast, ← he]; exact List.mem_cons_self⟩
    · rw [List.length_cons] at hn
      obtain ⟨e, he⟩ := ih h (by omega)
      exact ⟨e, List.mem_cons_of_mem _ he⟩

theorem Numbered.nodup (h : Numbered ids) (hlen : ids.length < 2 ^ 20) : ids.Nodup := by
  induction ids with
  | nil => exact List.nodup_nil
  | cons a ids ih =>
    obtain ⟨⟨e, he⟩, h⟩ := h
    rw [List.length_cons] at hlen
    refine List.nodup_cons.mpr ⟨fun hmem => ?_, ih h (by omega)⟩
    -- an older identifier has a smaller number
    obtain ⟨n, e', -, hn, heq⟩ := h.mem hmem
    have hnat := congrArg BitVec.toNat (he.symm.trans heq)
    rw [packed_toNat hlen, packed_toNat (by omega)] at hnat
    have he : e.val < 1024 := e.isLt
    have he' : e'.val < 1024 := e'.isLt
    omega

/-- Numbered identifiers are distinct and positive up to number `2 ^ 20 - 1`. -/
theorem Numbered.distinct_iff (h : Numbered ids) : Distinct ids ↔ ids.length < 2 ^ 20 := by
  constructor
  · rintro ⟨-, hpos⟩
    by_contra hlen
    obtain ⟨e, he⟩ := h.at (n := 2 ^ 20) (by decide) (by omega)
    have hneg : ((BitVec.ofNat 32 (2 ^ 20) <<< 11) ||| BitVec.ofNat 32 e.val).msb = true := by
      rw [BitVec.msb_or, show (BitVec.ofNat 32 (2 ^ 20) <<< 11).msb = true by decide,
        Bool.true_or]
    exact absurd (hneg.symm.trans (hpos _ he).2) (by simp)
  · intro hlen
    refine ⟨h.nodup hlen, fun id hid => ?_⟩
    obtain ⟨n, e, h1, hn, rfl⟩ := h.mem hid
    have hnat := packed_toNat (show n < 2 ^ 20 by omega) e
    have he : e.val < 1024 := e.isLt
    refine ⟨fun h0 => ?_, ?_⟩
    · rw [h0, BitVec.toNat_ofNat] at hnat
      omega
    · rw [BitVec.msb_eq_false_iff_two_mul_lt, hnat]
      omega

end Numbered

/-- In every run the identifiers are numbered, and the count is their number. -/
theorem Register.numbered {h : List Event} {s : Register}
    (hrun : Run Register.Start Register.Step h s) :
    s.1.idCount = BitVec.ofNat 32 s.2.length ∧ Numbered s.2 := by
  refine Run.invariant (I := fun _ (s : Register) => s.1.idCount = BitVec.ofNat 32 s.2.length ∧
    Numbered s.2) ?_ ?_ hrun
  · rintro ⟨k, ids⟩ ⟨hstart, rfl⟩
    obtain ⟨k₀, -, -, -, -, -, hcount, -, hk⟩ := hstart
    refine ⟨?_, trivial⟩
    rw [show (⟨k, []⟩ : Register).1 = k₀.envInit from hk, Kernel.envInit]
    generalize List.finRange 1024 = es
    rw [(envInit_rest _ es).2.2.2]
    exact hcount
  · rintro _ ⟨k, ids⟩ ev ⟨k', ids'⟩ ⟨hcount, hnum⟩ ⟨⟨-, r, hr⟩, hids⟩
    have hids : ids' = (k.assigned k').toList ++ ids := hids
    have hcount : k.idCount = BitVec.ofNat 32 ids.length := hcount
    show k'.idCount = BitVec.ofNat 32 ids'.length ∧ Numbered ids'
    rcases Sys.wp_ok (exec_ids ev k) hr with hs | ⟨e, rest, hl, ha⟩
    · rw [hids, Kernel.assigned, if_pos hs.count, hs.count]
      exact ⟨hcount, hnum⟩
    · have hne : k'.idCount ≠ k.idCount := by
        rw [ha.count]
        exact fun h => absurd (BitVec.add_right_eq_self.mp h) (by decide)
      have hnext : k.idCount + 1#32 = BitVec.ofNat 32 (ids.length + 1) := by
        rw [hcount]
        exact (BitVec.ofNat_add ids.length 1).symm
      rw [hids, Kernel.assigned, if_neg hne, hl, List.head?_cons, Option.map_some, ha.count]
      refine ⟨hnext, ⟨e, ?_⟩, hnum⟩
      rw [ha.id, Kernel.nextId, hnext]
      rfl

/-! ## `envid2env` -/

/-- What an identifier should mean: the running environment for zero, the live
environment that has it else; and with `checkperm` only the caller and its
children. -/
def Kernel.Denotes (k : Kernel) (envid : Word) (checkperm : Bool) (e : EnvIdx) : Prop :=
  ((envid = 0#32 ∧ k.curenv = some e) ∨ (k.Live e ∧ (k.envs e).id = envid)) ∧
    (checkperm = true → ∃ c, k.curenv = some c ∧ (e = c ∨ (k.envs e).parentId = (k.envs c).id))

/-- `envid2env` returns what the identifier means, and `-E_BAD_ENV` where it means
nothing. -/
def Kernel.NamesExactly (k : Kernel) (envid : Word) (checkperm : Bool) : Prop :=
  (∀ e, Kern.envid2env envid checkperm k = .ok (.ok e, k) ↔ k.Denotes envid checkperm e) ∧
    ((∀ e, ¬k.Denotes envid checkperm e) →
      Kern.envid2env envid checkperm k = .ok (.error .badEnv, k))

/-- The slot of the identifier holds it, or belongs to somebody else and the caller
asks for permission; zero is nobody's identifier. -/
def Kernel.TrueName (k : Kernel) (c : EnvIdx) (envid : Word) (checkperm : Bool) : Prop :=
  if envid = 0#32 then
    ∀ e, k.Live e → (k.envs e).id = 0#32 →
      (checkperm = true → e = c ∨ (k.envs e).parentId = (k.envs c).id) → e = c
  else
    (checkperm = true ∧ Kern.envx envid ≠ c ∧
      (k.envs (Kern.envx envid)).parentId ≠ (k.envs c).id) ∨
    (k.Live (Kern.envx envid) ∧ (k.envs (Kern.envx envid)).id = envid)

section NamesExactly

variable {k : Kernel} {c : EnvIdx} {envid : Word} {checkperm : Bool}

/-- `envid2env` as a function of the state. -/
theorem Kern.envid2env_run (hc : k.curenv = some c) :
    Kern.envid2env envid checkperm k =
      .ok (if envid = 0#32 then .ok c
        else if checkperm = true ∧ Kern.envx envid ≠ c ∧
          (k.envs (Kern.envx envid)).parentId ≠ (k.envs c).id then .error .badEnv
        else .ok (Kern.envx envid), k) := by
  by_cases h0 : envid = 0#32
  · rw [if_pos h0]
    refine Kern.envid2env_eq ?_
    rw [Kernel.target, if_pos h0, hc]
  · rw [if_neg h0]
    by_cases hbad : checkperm = true ∧ Kern.envx envid ≠ c ∧
        (k.envs (Kern.envx envid)).parentId ≠ (k.envs c).id
    · rw [if_pos hbad]
      refine Kern.envid2env_none hc ?_
      rw [Kernel.target, if_neg h0, if_pos hbad.1, hc, Option.bind_some, if_pos hbad.2]
    · rw [if_neg hbad]
      refine Kern.envid2env_eq ?_
      rw [Kernel.target, if_neg h0]
      by_cases hp : checkperm = true
      · rw [if_pos hp, hc, Option.bind_some, if_neg fun h => hbad ⟨hp, h⟩]
      · rw [if_neg hp]

theorem denotes_iff (hc : k.curenv = some c) (e : EnvIdx) :
    k.Denotes envid checkperm e ↔
      ((envid = 0#32 ∧ e = c) ∨ (k.Live e ∧ (k.envs e).id = envid)) ∧
        (checkperm = true → e = c ∨ (k.envs e).parentId = (k.envs c).id) := by
  unfold Kernel.Denotes
  rw [hc]
  simp only [Option.some.injEq, eq_comm (a := c), exists_eq_left]

theorem namesExactly_iff (hnamed : ∀ e, k.Live e → Kern.envx (k.envs e).id = e)
    (hc : k.curenv = some c) : k.NamesExactly envid checkperm ↔ k.TrueName c envid checkperm := by
  unfold Kernel.NamesExactly Kernel.TrueName
  rw [Kern.envid2env_run hc]
  by_cases h0 : envid = 0#32
  · simp only [if_pos h0, denotes_iff hc]
    constructor
    · rintro ⟨hall, -⟩ e hl hid hp
      have hr := (hall e).mpr ⟨.inr ⟨hl, hid.trans h0.symm⟩, hp⟩
      exact (Except.ok.inj (Prod.mk.inj (Except.ok.inj hr)).1).symm
    · intro hzero
      refine ⟨fun e => ⟨fun hr => ?_, fun hd => ?_⟩, fun hno => ?_⟩
      · obtain rfl := Except.ok.inj (Prod.mk.inj (Except.ok.inj hr)).1
        exact ⟨.inl ⟨h0, rfl⟩, fun _ => .inl rfl⟩
      · obtain ⟨⟨-, he⟩ | ⟨hl, hid⟩, hp⟩ := hd
        · rw [he]
        · rw [hzero e hl (hid.trans h0) hp]
      · exact absurd ⟨.inl ⟨h0, rfl⟩, fun _ => .inl rfl⟩ (hno c)
  · -- only the slot of the identifier may be meant
    have hslot : ∀ e, k.Denotes envid checkperm e ↔ e = Kern.envx envid ∧
        (k.Live (Kern.envx envid) ∧ (k.envs (Kern.envx envid)).id = envid) ∧
        ¬(checkperm = true ∧ Kern.envx envid ≠ c ∧
          (k.envs (Kern.envx envid)).parentId ≠ (k.envs c).id) := by
      intro e
      rw [denotes_iff hc]
      constructor
      · rintro ⟨⟨h, -⟩ | ⟨hl, hid⟩, hp⟩
        · exact absurd h h0
        · have he : e = Kern.envx envid := by rw [← hid, hnamed e hl]
          subst he
          refine ⟨rfl, ⟨hl, hid⟩, fun ⟨hcp, hne, hpar⟩ => ?_⟩
          rcases hp hcp with h | h
          · exact hne h
          · exact hpar h
      · rintro ⟨rfl, hl, hnot⟩
        refine ⟨.inr hl, fun hcp => ?_⟩
        by_contra hno
        exact hnot ⟨hcp, not_or.mp hno⟩
    simp only [if_neg h0, hslot]
    by_cases hbad : checkperm = true ∧ Kern.envx envid ≠ c ∧
        (k.envs (Kern.envx envid)).parentId ≠ (k.envs c).id
    · simp only [if_pos hbad]
      refine ⟨fun _ => .inl hbad, fun _ => ⟨fun e => ⟨fun hr => ?_, fun hd => ?_⟩, fun _ => trivial⟩⟩
      · exact absurd (Prod.mk.inj (Except.ok.inj hr)).1 (by simp)
      · exact absurd hbad hd.2.2
    · simp only [if_neg hbad]
      constructor
      · rintro ⟨hall, -⟩
        exact .inr ((hall _).mp rfl).2.1
      · rintro (hb | hl)
        · exact absurd hb hbad
        · refine ⟨fun e => ⟨fun hr => ?_, fun hd => ?_⟩, fun hno => ?_⟩
          · exact ⟨(Except.ok.inj (Prod.mk.inj (Except.ok.inj hr)).1).symm, hl, hbad⟩
          · rw [hd.1]
          · exact absurd ⟨rfl, hl, hbad⟩ (hno _)

end NamesExactly

/-! ## Calls that name an environment -/

/-- The identifiers that a call is given, with the flag for the check. -/
def Kern.Ecall.names : Kern.Ecall → List (Word × Bool)
  | .envDestroy envid => [(envid, true)]
  | .setEnvCowEntry envid _ => [(envid, true)]
  | .memAlloc envid _ _ => [(envid, true)]
  | .memMap srcid _ dstid _ _ => [(srcid, true), (dstid, false)]
  | .memUnmap envid _ => [(envid, true)]
  | .setEnvStatus envid _ => [(envid, true)]
  | .setTrapframe envid _ _ => [(envid, true)]
  | .ipcTrySend envid _ _ _ => [(envid, false)]
  | _ => []

section Refused

open Sys Kern

variable {k : Kernel} {c : EnvIdx} {envid : Word} {checkperm : Bool}

/-- A call fails without effect where `envid2env` refuses one of its names. -/
theorem ecall_refused {call : Ecall} (hc : k.curenv = some c)
    (hn : (envid, checkperm) ∈ call.names)
    (hbad : envid2env envid checkperm k = .ok (.error .badEnv, k)) :
    ∃ x, ecall call k = .ok (.error x, k) := by
  have hzero : ∀ {m : Kern Unit} {x : Errno}, m k = .ok (.error x, k) →
      returnsZero m k = .ok (.error x, k) := fun h => bind_of_error h
  -- without the check the lookup never fails
  have hchecked : checkperm = true := by
    by_contra hcp
    rw [envid2env_run hc] at hbad
    have h := (Prod.mk.inj (Except.ok.inj hbad)).1
    rw [if_neg (c := checkperm = true ∧ _) fun hp => hcp hp.1] at h
    split at h
    · exact absurd h (by simp)
    · exact absurd h (by simp)
  subst hchecked
  cases call with
  | envDestroy id =>
    obtain ⟨rfl, -⟩ := Prod.mk.inj (List.mem_singleton.mp hn)
    exact ⟨.badEnv, bind_of_error (bind_of_error hbad)⟩
  | setEnvCowEntry id cowEntry =>
    obtain ⟨rfl, -⟩ := Prod.mk.inj (List.mem_singleton.mp hn)
    exact ⟨.badEnv, hzero (bind_of_error hbad)⟩
  | memAlloc id va perm =>
    obtain ⟨rfl, -⟩ := Prod.mk.inj (List.mem_singleton.mp hn)
    by_cases hva : isIllegalVa va = true
    · exact ⟨.inval, hzero (eMemAlloc_illegal hva)⟩
    · refine ⟨.badEnv, hzero ?_⟩
      unfold eMemAlloc
      rw [if_neg hva, bind_of_error hbad]
  | memMap srcid srcva dstid dstva perm =>
    have hsrc : envid = srcid := by
      rcases List.mem_cons.mp hn with h | h
      · exact (Prod.mk.inj h).1
      · exact absurd (Prod.mk.inj (List.mem_singleton.mp h)).2 (by simp)
    subst hsrc
    by_cases hva : (isIllegalVa srcva || isIllegalVa dstva) = true
    · exact ⟨.inval, hzero (eMemMap_illegal hva)⟩
    · refine ⟨.badEnv, hzero ?_⟩
      unfold eMemMap
      rw [if_neg hva, bind_of_error hbad]
  | memUnmap id va =>
    obtain ⟨rfl, -⟩ := Prod.mk.inj (List.mem_singleton.mp hn)
    by_cases hva : isIllegalVa va = true
    · refine ⟨.inval, hzero ?_⟩
      unfold eMemUnmap
      rw [if_pos hva]
      rfl
    · refine ⟨.badEnv, hzero ?_⟩
      unfold eMemUnmap
      rw [if_neg hva, bind_of_error hbad]
  | setEnvStatus id status =>
    obtain ⟨rfl, -⟩ := Prod.mk.inj (List.mem_singleton.mp hn)
    cases hst : statusOf status with
    | none =>
      refine ⟨.inval, hzero ?_⟩
      unfold eSetEnvStatus
      rw [hst]
      rfl
    | some st =>
      refine ⟨.badEnv, hzero ?_⟩
      unfold eSetEnvStatus
      rw [hst]
      exact bind_of_error hbad
  | setTrapframe id va tf =>
    obtain ⟨rfl, -⟩ := Prod.mk.inj (List.mem_singleton.mp hn)
    by_cases hva : isIllegalVaRange va tfSize = true
    · refine ⟨.inval, bind_of_error ?_⟩
      unfold eSetTrapframe
      rw [if_pos hva]
      rfl
    · refine ⟨.badEnv, bind_of_error ?_⟩
      unfold eSetTrapframe
      rw [if_neg hva, bind_of_error hbad]
  | ipcTrySend id value srcva perm =>
    exact absurd (Prod.mk.inj (List.mem_singleton.mp hn)).2 (by simp)
  | _ => exact absurd hn List.not_mem_nil

end Refused

/-- An event that the kernel survives and that names live environments where the
life cycle depends on it. -/
def Kernel.CarefulStep (k : Kernel) (ev : Event) (k' : Kernel) : Prop :=
  k.Careful ev ∧ k.Step ev k'

/-- Between two events every identifier of a live environment names its slot. -/
theorem named_of_run {h : List Event} {k : Kernel} (hrun : Run Started Kernel.CarefulStep h k) :
    ∀ e, k.Live e → Kern.envx (k.envs e).id = e := by
  have hinv : LifeInv k ∧ Named k := by
    refine Run.invariant (I := fun _ k => LifeInv k ∧ Named k)
      (fun _ h0 => ⟨h0.ordered.life, h0.named⟩) ?_ hrun
    rintro _ k ev k' ⟨hl, hn⟩ ⟨hcare, hen, r, hr⟩
    exact ⟨Sys.wp_ok (exec_life hl hcare) hr, hn.assigns (Sys.wp_ok (exec_ids ev k) hr)⟩
  exact fun e he => hinv.2 e fun hf => he ((hinv.1.mem_free e).mp hf)

/-- In every run, `envid2env` finds what the identifier means exactly when the slot
holds the identifier or the check refuses the slot; and where it does, a call with
an identifier that means nothing fails and changes nothing. -/
theorem envid_names_exactly {h : List Event} {k : Kernel} {c : EnvIdx}
    (hrun : Run Started Kernel.CarefulStep h k) (hc : k.curenv = some c) :
    (∀ envid checkperm, k.NamesExactly envid checkperm ↔ k.TrueName c envid checkperm) ∧
    ∀ (call : Kern.Ecall) envid checkperm a, (envid, checkperm) ∈ call.names →
      k.TrueName c envid checkperm → (∀ e, ¬k.Denotes envid checkperm e) →
      ∃ x, Kern.ecall call { k with active := a } = .ok (.error x, { k with active := a }) := by
  have hnamed := named_of_run hrun
  refine ⟨fun envid checkperm => namesExactly_iff hnamed hc, fun call envid checkperm a hn ht hno => ?_⟩
  have hexact : Kernel.NamesExactly { k with active := a } envid checkperm :=
    (namesExactly_iff (k := { k with active := a }) hnamed hc).mpr ht
  exact ecall_refused hc hn (hexact.2 hno)

theorem Run.careful {h : List Event} {k : Kernel} (hrun : Run Started Kernel.OrderlyStep h k) :
    Run Started Kernel.CarefulStep h k :=
  hrun.mono fun _ _ _ hs => ⟨hs.1, hs.2.2⟩

/-- The first environment has identifier 2048. -/
theorem envid_names_exactly_first : ∃ h k, Run Started Kernel.CarefulStep h k ∧
    k.curenv = some 0 ∧ k.NamesExactly 2048#32 false := by
  have hend : ((Run.follow Kernel.orderlyNext [.create ⟨[], 0#32⟩ 1#32, .trap zeroTf .timer]
      zeroKernel.envInit).map fun k => (k.curenv, (k.envs 0).status, (k.envs 0).id)) =
      some (some 0, .runnable, 2048#32) := by
    decide +kernel
  obtain ⟨k, hk, heq⟩ := Option.map_eq_some_iff.mp hend
  simp only [Prod.mk.injEq] at heq
  obtain ⟨hcur, hst, hid⟩ := heq
  have hrun := Run.careful (Run.of_follow Kernel.orderlyStep_of_next (.start zeroKernel_started) hk)
  have hlive : k.Live 0 := Kernel.live_of_status hst (by simp)
  refine ⟨_, k, hrun, hcur, ((envid_names_exactly hrun hcur).1 2048#32 false).mpr ?_⟩
  unfold Kernel.TrueName
  rw [if_neg (by decide)]
  exact .inr ⟨hlive, hid⟩

/-- A child is destroyed, and its identifier still leads to its slot. -/
theorem envid_names_exactly_fails : ¬∀ (h : List Event) (k : Kernel),
    Run Started Kernel.Step h k → k.curenv ≠ none →
    ∀ envid checkperm, k.NamesExactly envid checkperm := by
  intro hall
  have hend : ((Run.follow Kernel.orderlyNext [.create ⟨[], 0#32⟩ 1#32, .trap zeroTf .timer,
      .trap zeroTf (.ecall .exofork), .trap zeroTf (.ecall (.setEnvStatus 4097#32 1#32)),
      .trap zeroTf (.ecall (.envDestroy 4097#32))] zeroKernel.envInit).bind fun k =>
      (Sys.accepted (Kern.envid2env 4097#32 true k)).map fun x =>
        (k.curenv, x.1, (k.envs 1).status)) = some (some 0, 1, .free) := by
    decide +kernel
  obtain ⟨k, hk, hend⟩ := Option.bind_eq_some_iff.mp hend
  have hrun := Run.of_follow Kernel.orderlyStep_of_next (.start zeroKernel_started) hk
  obtain ⟨⟨e, k'⟩, hacc, heq⟩ := Option.map_eq_some_iff.mp hend
  have hcall := Sys.accepted_eq_some.mp hacc
  simp only [Prod.mk.injEq] at heq
  obtain ⟨hcur, rfl, hfree⟩ := heq
  have hsame : k' = k := by
    rw [Kern.envid2env_run hcur] at hcall
    exact (Prod.mk.inj (Except.ok.inj hcall)).2.symm
  subst hsame
  have hexact := hall _ k' (hrun.mono fun _ _ _ hs => hs.2.2) (by rw [hcur]; simp) 4097#32 true
  obtain ⟨⟨h0, -⟩ | ⟨hlive, -⟩, -⟩ := (hexact.1 1).mp hcall
  · exact absurd h0 (by decide)
  · exact hlive hfree

end RvMos
