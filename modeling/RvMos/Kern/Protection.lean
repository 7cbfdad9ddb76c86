/-
Kernel memory stays protected.

The handlers of page faults add flags on demand and do not look where.  A load
from a page of the kernel makes it a page of the user, and a store to one of the
read-only windows makes it writable.  `Contained` names the faults that do no
such thing; in runs of these, and of calls on memory, the protection holds.
-/
import RvMos.Kern.Faults

namespace RvMos

open Lib

/-! ## Protected entries -/

/-- What the entry of `va` may carry: from `ULIM` on it is not for the user, and
in the windows from `UTOP` on it is not for the user and writable. -/
def Guard (va w : Word) : Prop :=
  (ulim ≤ va → w &&& pteU = 0#32) ∧
    (utop ≤ va → va < ulim → w &&& (pteU ||| pteW) ≠ pteU ||| pteW)

def Kernel.Protected (k : Kernel) : Prop :=
  ∀ e d, k.Live e → (k.envs e).pgdir = some d → ∀ va, Guard va (k.pmap.pteOf d va)

/-- No table is behind two different entries of directories. -/
def Kernel.Aligned (k : Kernel) : Prop :=
  ∀ e e' d d' i i' t, k.Live e → k.Live e' → (k.envs e).pgdir = some d →
    (k.envs e').pgdir = some d' → k.pmap.tableOf d i = some t → k.pmap.tableOf d' i' = some t →
    i = i'

structure Shielded (L : Layout) (k : Kernel) : Prop where
  spaces : Spaces L k
  aligned : k.Aligned
  guarded : k.Protected

section Guard

variable {va va' w : Word}

theorem guard_of_lt (h : va < utop) : Guard va w := by
  have hlt : va.toNat < 0x7f400000 := h
  refine ⟨fun hu => ?_, fun hu => ?_⟩
  · have hge : 0x80000000 ≤ va.toNat := hu
    omega
  · have hge : 0x7f400000 ≤ va.toNat := hu
    omega

theorem guard_congr (hv : vpn va = vpn va') (h : Guard va w) : Guard va' w := by
  have hn := congrArg BitVec.toNat hv
  rw [vpn_toNat, vpn_toNat] at hn
  refine ⟨fun hu => h.1 ?_, fun hu hl => h.2 ?_ ?_⟩
  · have hge : 0x80000000 ≤ va'.toNat := hu
    show 0x80000000 ≤ va.toNat
    omega
  · have hge : 0x7f400000 ≤ va'.toNat := hu
    show 0x7f400000 ≤ va.toNat
    omega
  · have hlt : va'.toNat < 0x80000000 := hl
    show va.toNat < 0x80000000
    omega

theorem mkPte_and_user (pp : Frame) (perm : Word) : mkPte pp perm &&& pteU = perm &&& pteU :=
  mkPte_and_flags pp perm (by decide) (by decide)

theorem mkPte_and_userW (pp : Frame) (perm : Word) :
    mkPte pp perm &&& (pteU ||| pteW) = perm &&& (pteU ||| pteW) :=
  mkPte_and_flags pp perm (by decide) (by decide)

/-- A page of a window that is read on demand. -/
theorem guard_load {pp : Frame} (hlt : va < ulim) (hw : w &&& pteW = 0#32) :
    Guard va (mkPte pp (w ||| (pteR ||| pteU))) := by
  refine ⟨fun hu => absurd hlt (BitVec.not_lt.mpr hu), fun _ _ h => ?_⟩
  rw [mkPte_and_userW] at h
  have hbit : (w ||| (pteR ||| pteU)) &&& pteW = pteW := by
    have hc := congrArg (· &&& pteW) h
    simp only [BitVec.and_assoc] at hc
    exact hc
  rw [BitVec.and_or_distrib_right, hw] at hbit
  exact absurd hbit (by decide)

/-- A page that is not for the user is made writable. -/
theorem guard_store {pp : Frame} (hw : w &&& pteU = 0#32) : Guard va (mkPte pp (w ||| pteW)) := by
  have hu : mkPte pp (w ||| pteW) &&& pteU = 0#32 := by
    rw [mkPte_and_user, BitVec.and_or_distrib_right, hw]
    decide
  refine ⟨fun _ => hu, fun _ _ h => ?_⟩
  have hc := congrArg (· &&& pteU) h
  simp only [BitVec.and_assoc] at hc
  have hm : (pteU ||| pteW) &&& pteU = pteU := by decide
  rw [hm, hu] at hc
  exact absurd hc (by decide)

end Guard

section Shielded

variable {L : Layout} {k : Kernel} {p : Pmap} {e : EnvIdx} {d : Frame} {va : Word}

theorem Shielded.dir (h : Shielded L k) (he : k.Live e) (hd : (k.envs e).pgdir = some d) :
    k.pmap.Dir L d ∧ Pmap.UserDir L k.pmap d := by
  obtain ⟨d', hd', hdir, huser⟩ := h.spaces.dir e he
  obtain rfl := Option.some.inj (hd.symm.trans hd')
  exact ⟨hdir, huser⟩

/-- New tables are owned, so tables stay aligned. -/
theorem Shielded.setPmap (h : Shielded L k) (hp : Pmap.Kept L k.pmap p)
    (hg : ∀ e d va, k.Live e → (k.envs e).pgdir = some d → Guard va (p.pteOf d va)) :
    Shielded L (k.setPmap p) := by
  refine ⟨h.spaces.setPmap hp, ?_, fun e d he hd va => hg e d va he hd⟩
  intro e e' d d' i i' t he he' hd hd' ht ht'
  have hF := h.spaces.inv.toForest
  have hF' := hp.inv.toForest
  have hdir := (h.dir he hd).1
  have hdir' := (h.dir he' hd').1
  -- an entry that got its table now is owned
  have hnew : ∀ {d₁ d₂ : Frame} {i₁ i₂ : Index}, k.pmap.Dir L d₁ → k.pmap.Dir L d₂ →
      k.pmap.tableOf d₁ i₁ = none → p.tableOf d₁ i₁ = some t → p.tableOf d₂ i₂ = some t →
      i₁ = i₂ := by
    intro d₁ d₂ i₁ i₂ h₁ h₂ hnone ht₁ ht₂
    have hown₁ := (h₁.none hF hnone).1
    rcases (hp.dirs d₂ h₂).entries i₂ with hown₂ | ⟨u, hu, hm⟩
    · exact (Pmap.tableOf_inj hF' hown₁ hown₂ ht₁ ht₂).2
    · rw [Pmap.tableOf, hm, entryFrame_mkPte u flagOnly_zero] at ht₂
      obtain rfl := Option.some.inj ht₂
      exact absurd hu (Pmap.not_shared_of_owned hF' hown₁ ht₁)
  cases h₁ : k.pmap.tableOf d i with
  | none => exact hnew hdir hdir' h₁ ht ht'
  | some t₁ =>
    cases h₂ : k.pmap.tableOf d' i' with
    | none => exact (hnew hdir' hdir h₂ ht' ht).symm
    | some t₂ =>
      obtain rfl : t₁ = t := Option.some.inj ((hp.tables d i t₁ hdir h₁).symm.trans ht)
      obtain rfl : t₂ = t₁ := Option.some.inj ((hp.tables d' i' t₂ hdir' h₂).symm.trans ht')
      exact h.aligned e e' d d' i i' t₂ he he' hd hd' h₁ h₂

/-- The environments and their directories are the same. -/
theorem Shielded.congr (h : Shielded L k) {k' : Kernel} (hs : Spaces L k') (hp : k'.pmap = k.pmap)
    (hl : ∀ e, k'.Live e → k.Live e ∧ (k'.envs e).pgdir = (k.envs e).pgdir) : Shielded L k' := by
  refine ⟨hs, ?_, fun e d he hd va => ?_⟩
  · intro e e' d d' i i' t he he' hd hd'
    obtain ⟨hle, hpe⟩ := hl e he
    obtain ⟨hle', hpe'⟩ := hl e' he'
    rw [hpe] at hd
    rw [hpe'] at hd'
    rw [hp]
    exact h.aligned e e' d d' i i' t hle hle' hd hd'
  · obtain ⟨hle, hpe⟩ := hl e he
    rw [hp]
    exact h.guarded e d hle (hpe ▸ hd) va

/-- Edits below `UTOP` leave the protected entries alone. -/
theorem Shielded.edit (h : Shielded L k) (he : k.Live e) (hd : (k.envs e).pgdir = some d)
    (hva : va < utop) (hedit : Edit L k.pmap d va p) : Shielded L (k.setPmap p) := by
  obtain ⟨hdir, huser⟩ := h.dir he hd
  have hown := huser.own _ (personal_of_lt hva)
  refine h.setPmap (hedit.kept h.spaces.inv hdir hown) fun e' d' va' he' hd' => ?_
  by_cases hlt : va' < utop
  · exact guard_of_lt hlt
  · rw [hedit.other h.spaces.inv hown (h.dir he' hd').1 fun hv =>
      hlt (lt_utop_of_vpn hv.2 hva)]
    exact h.guarded e' d' he' hd' va'

theorem Shielded.edited (h : Shielded L k) {tgt : Option EnvIdx} {k' : Kernel}
    (hk : Edited L k tgt va k') : Shielded L k' := by
  rcases hk with rfl | ⟨e, d, p, -, he, hd, hva, hedit, rfl⟩
  · exact h
  · exact h.edit he hd hva hedit

/-- Flags are added to one entry, for all who share its table. -/
theorem Shielded.reflag (h : Shielded L k) (he : k.Live e) (hd : (k.envs e).pgdir = some d)
    {x : Word} (hx : FlagOnly x) (hxl : x &&& pteLibrary = 0#32) (hre : k.pmap.Reflagged d va x p)
    (hg : ∀ pp, Guard va (mkPte pp (k.pmap.pteOf d va ||| x))) : Shielded L (k.setPmap p) := by
  obtain ⟨hdir, huser⟩ := h.dir he hd
  have hI := h.spaces.inv
  refine h.setPmap (Pmap.kept_reflag hI hdir huser hx hxl hre) fun e' d' va' he' hd' => ?_
  rcases hre.pte hI hdir (h.dir he' hd').1 with ⟨⟨t, ht, ht', hj⟩, pp, -, hpte⟩ | hpte
  · have hi := h.aligned e e' d d' _ _ t he he' hd hd' ht ht'
    rw [hpte]
    exact guard_congr (vpn_eq_iff.mpr ⟨hi, hj⟩) (hg pp)
  · rw [hpte]
    exact h.guarded e' d' he' hd' va'

theorem Shielded.written (h : Shielded L k) (hw : Written L k.pmap p) :
    Shielded L (k.setPmap p) := by
  refine h.setPmap hw.kept fun e d va he hd => ?_
  rw [hw.pte d va (h.dir he hd).1]
  exact h.guarded e d he hd va

theorem Shielded.windowed (h : Shielded L k) {n : Nat} (hw : Windowed L k.pmap p d n) :
    Shielded L (k.setPmap p) := by
  refine h.setPmap hw.kept fun e d' va he hd => ?_
  rcases hw.pte d' va (h.dir he hd).1 with hsame | ⟨-, hi, f, hpte⟩
  · rw [hsame]
    exact h.guarded e d' he hd va
  · have hlt : va < ulim := by
      have hv := congrArg Fin.val hi
      have hu : (pdx uvpt).val = 511 := by decide
      rw [pdx_val, hu] at hv
      show va.toNat < 0x80000000
      omega
    rw [hpte, show pteR ||| pteU = 0#32 ||| (pteR ||| pteU) by decide]
    exact guard_load hlt (by decide)

/-- Another environment gets the processor. -/
theorem Shielded.schedule (h : Shielded L k) (yield : Bool) :
    (Kern.schedule yield).wp (fun _ k' => Shielded L k') (fun _ => True) k := by
  refine Sys.wp_mono (Kern.schedule_ran yield k) (fun r k' hr => ?_) fun _ _ => trivial
  obtain ⟨-, q, n, e, he, rfl⟩ := hr
  have hs : Spaces L { k with envSchedList := q, schedCount := n } :=
    h.spaces.congr rfl rfl rfl rfl rfl
  refine h.congr (hs.ran he) ?_ fun c hc => ?_
  · show (Kern.saved _).pmap = k.pmap
    unfold Kern.saved
    cases k.curenv with
    | none => rfl
    | some c => rfl
  · obtain ⟨m, hm⟩ := Kern.ran_envs { k with envSchedList := q, schedCount := n } e c
    unfold Kernel.Live at hc ⊢
    rw [hm] at hc ⊢
    exact ⟨hc, rfl⟩

end Shielded

/-! ## Faults and calls -/

/-- Page faults, calls on memory and switches. -/
def Event.Access : Event → Prop
  | .trap _ (.loadPage _) => True
  | .trap _ .storePage => True
  | .trap _ (.ecall (.memAlloc _ _ perm)) => FlagOnly perm
  | .trap _ (.ecall (.memMap _ _ _ _ perm)) => FlagOnly perm
  | .trap _ (.ecall (.memUnmap _ _)) => True
  | .trap _ (.ecall .yield) => True
  | .trap _ .timer => True
  | _ => False

/-- A load fault of an environment with directory `d`.  Where nothing is mapped,
the flags of the new page come from an unset pointer. -/
def Kernel.ContainedLoad (k : Kernel) (d : Frame) (va : Word) (junk : Option Word) : Prop :=
  if va < utop then
    entryFrame (k.pmap.pteOf d va) = none → ∀ w, junk = some w → FlagOnly w
  else if va < uvpt then
    entryFrame (k.pmap.pteOf d va) ≠ none ∧ k.pmap.pteOf d va &&& pteW = 0#32
  else
    va < ulim ∧ (∀ i t, k.pmap.tableOf d i = some t → (k.pmap.ppRef t).toNat ≤ 64000) ∧
      (k.pmap.ppRef d).toNat ≤ 64000

/-- A store fault of an environment with directory `d`. -/
def Kernel.ContainedStore (k : Kernel) (d : Frame) (va : Word) : Prop :=
  va < utop ∨ entryFrame (k.pmap.pteOf d va) ≠ none ∧
    (ulim ≤ va ∨ k.pmap.pteOf d va &&& pteCow = pteCow ∨ k.pmap.pteOf d va &&& pteU = 0#32)

def Kernel.Contained (k : Kernel) : Event → Prop
  | .trap tf (.loadPage junk) => ∀ c d, k.curenv = some c → (k.envs c).pgdir = some d →
    k.ContainedLoad d tf.stval junk
  | .trap tf .storePage => ∀ c d, k.curenv = some c → (k.envs c).pgdir = some d →
    k.ContainedStore d tf.stval
  | ev => k.Countable ev

namespace Kern

open Sys

section Handlers

variable {L : Layout} {k : Kernel} {c : EnvIdx}

theorem doLoadPage_shielded (h : Shielded L k) (hc : k.curenv = some c) {junk : Option Word}
    (hok : ∀ d, (k.envs c).pgdir = some d → k.ContainedLoad d k.active.stval junk) :
    (doLoadPage junk).wp (fun _ k' => Shielded L k') (fun _ => True) k := by
  have hlive := (h.spaces.cur c hc).1
  obtain ⟨d, hd, -⟩ := h.spaces.dir c hlive
  have hok := hok d hd
  unfold Kernel.ContainedLoad at hok
  unfold doLoadPage
  rw [wp_get_bind]
  generalize k.active.stval = va at hok ⊢
  rw [wp_ite]
  refine ⟨fun _ => wp_halt.mpr trivial, fun _ => ?_⟩
  have huv : va < utop → va < uvpt := fun hlt => by
    have h1 : va.toNat < 0x7f400000 := hlt
    show va.toNat < 0x7fc00000
    omega
  rw [wp_ite]
  refine ⟨fun hlow => ?_, fun hhigh => ?_⟩
  · -- a page of the user or of a window
    by_cases hva : va < utop
    · rw [if_pos hva] at hok
      refine wp_conseq (loadMapped_change h.spaces hc hd fun hn => ⟨hva, hok hn⟩) ?_
      rintro _ _ ⟨p, rfl, hre | ⟨-, hed⟩⟩
      · exact h.reflag hlive hd (by decide) (by decide) hre fun _ => guard_of_lt hva
      · exact h.edit hlive hd (rounddown_lt hva) hed
    · rw [if_neg hva, if_pos hlow] at hok
      refine wp_conseq (loadMapped_change h.spaces hc hd fun hn => absurd hn hok.1) ?_
      rintro _ _ ⟨p, rfl, hre | ⟨hva', -⟩⟩
      · have hul : va < ulim := by
          have h1 : va.toNat < 0x7fc00000 := hlow
          show va.toNat < 0x80000000
          omega
        exact h.reflag hlive hd (by decide) (by decide) hre fun pp => guard_load hul hok.2
      · exact absurd hva' hva
  · rw [if_neg fun hva => hhigh (huv hva), if_neg hhigh] at hok
    obtain ⟨hul, htabs, hdref⟩ := hok
    rw [if_pos hul]
    refine wp_conseq (loadVpt_window h.spaces hc hd ((h.dir hlive hd).2.own _ (.inr rfl)) htabs hdref) ?_
    rintro _ _ ⟨p, n, rfl, hw⟩
    exact h.windowed hw

theorem doStorePage_shielded (h : Shielded L k) (hc : k.curenv = some c)
    (hok : ∀ d, (k.envs c).pgdir = some d → k.ContainedStore d k.active.stval) :
    doStorePage.wp (fun _ k' => Shielded L k') (fun _ => True) k := by
  have hlive := (h.spaces.cur c hc).1
  obtain ⟨d, hd, -⟩ := h.spaces.dir c hlive
  have hok := hok d hd
  have hframe : ∀ {p : Pmap} (a : Trapframe), Shielded L (k.setPmap p) →
      Shielded L (k.faulted p a) := fun a hs =>
    hs.congr (hs.spaces.congr rfl rfl rfl rfl rfl) rfl fun _ he => ⟨he, rfl⟩
  refine wp_conseq (doStorePage_change h.spaces hc hd fun hn => hok.resolve_right fun h' =>
    h'.1 hn) ?_
  rintro _ _ ⟨p, a, rfl, hw | ⟨hcow, hre⟩ | ⟨hva, hed⟩⟩
  · exact hframe a (h.written hw)
  · refine hframe a (h.reflag hlive hd (by decide) (by decide) hre fun pp => ?_)
    rcases hok with hva | ⟨-, hul | hc' | hu⟩
    · exact guard_of_lt hva
    · exact guard_store ((h.guarded c d hlive hd _).1 hul)
    · exact absurd hc' hcow
    · exact guard_store hu
  · exact hframe a (h.edit hlive hd (rounddown_lt hva) hed)

/-- A call that edits one page. -/
theorem wp_edit_shielded {m : Kern Unit} {tgt : Option EnvIdx} {va : Word} (h : Shielded L k)
    (hm : m.wp (fun _ k' => Edited L k tgt va k') (· = .wild) k) :
    (returnsZero m).wp (fun _ k' => Shielded L k') (fun _ => True) k := by
  have hm' : m.wp (fun _ k' => Shielded L k') (fun _ => True) k :=
    wp_mono hm (fun _ _ hk => h.edited hk) fun _ _ => trivial
  exact wp_seq hm' (fun _ _ hk => wp_pure.mpr hk) fun _ _ hk => hk

end Handlers

end Kern

theorem exec_shielded {L : Layout} {k : Kernel} {ev : Event} (h : Shielded L k)
    (hacc : ev.Access) (hen : k.Enabled ev) (hok : k.Contained ev) :
    (Kernel.exec ev).wp (fun _ k' => Shielded L k') (fun _ => True) k := by
  have hany : ∀ k a, Shielded L k → Shielded L { k with active := a } := fun k a h =>
    h.congr (h.spaces.congr rfl rfl rfl rfl rfl) rfl fun _ he => ⟨he, rfl⟩
  cases ev with
  | create prog priority => exact hacc.elim
  | trap tf t =>
    cases t with
    | loadPage junk =>
      obtain ⟨c, hc⟩ := Option.ne_none_iff_exists'.mp hen
      exact Sys.wp_modify_bind.mpr (Kern.doLoadPage_shielded (hany k tf h) hc fun d hd =>
        hok c d hc hd)
    | storePage =>
      obtain ⟨c, hc⟩ := Option.ne_none_iff_exists'.mp hen
      exact Sys.wp_modify_bind.mpr (Kern.doStorePage_shielded (hany k tf h) hc fun d hd =>
        hok c d hc hd)
    | timer => exact Sys.wp_modify_bind.mpr ((hany k tf h).schedule false)
    | ecall call =>
      refine Kern.wp_handle_ecall tf hany fun a => ?_
      have h' := hany k a h
      cases call with
      | memAlloc envid va perm =>
        exact Kern.wp_edit_shielded h'
          (Kern.eMemAlloc_edit h'.spaces (fun pp _ => FlagOnly.noStray hacc pp) hok)
      | memMap srcid srcva dstid dstva perm =>
        exact Kern.wp_edit_shielded h'
          (Kern.eMemMap_edit h'.spaces (fun _ _ pp _ _ _ => FlagOnly.noStray hacc pp)
            hok.1 hok.2.1 hok.2.2)
      | memUnmap envid va => exact Kern.wp_edit_shielded h' (Kern.eMemUnmap_edit h'.spaces hok)
      | yield => exact Sys.wp_seq (h'.schedule true) (fun _ _ hk => Sys.wp_pure.mpr hk) fun _ _ hk => hk
      | _ => exact hacc.elim
    | _ => exact hacc.elim

/-! ## Runs -/

/-- A consistent kernel whose part of the address spaces is protected. -/
def Guarded (k : Kernel) : Prop := ∃ L, Shielded L k

/-- In every run of contained faults and calls the kernel stays protected. -/
theorem kernel_protected {h : List Event} {k : Kernel}
    (hrun : Run Guarded (fun k ev k' => ev.Access ∧ k.Contained ev ∧ k.Step ev k') h k) :
    k.Protected := by
  have hguard : Guarded k := by
    refine Run.invariant (I := fun _ k => Guarded k) (fun _ h0 => h0) ?_ hrun
    rintro _ k ev k' ⟨L, hL⟩ ⟨hacc, hok, hen, r, hr⟩
    exact ⟨L, Sys.wp_ok (exec_shielded hL hacc hen hok) hr⟩
  obtain ⟨L, hL⟩ := hguard
  exact hL.guarded

/-- One environment runs and has an empty directory. -/
def oneEnv : Kernel :=
  { zeroKernel with
    envs := Function.update zeroKernel.envs 0
      { zeroKernel.envs 0 with id := 4096#32, status := .runnable, pgdir := some 200 }
    curenv := some 0
    curPgdir := some 200 }

theorem oneEnv_guarded : Guarded oneEnv := by
  have hstart : Pmap.Start {200} zeroKept zeroKernel.pmap :=
    zeroKernel_start fun d hd => Finset.mem_singleton.mp hd ▸ mem_keptAbove.mpr (by decide)
  have henv : ∀ e, e ≠ 0 → oneEnv.envs e = zeroKernel.envs e := fun e he =>
    Function.update_of_ne he ..
  have hlive : ∀ e, oneEnv.Live e ↔ e = 0 := by
    intro e
    refine ⟨fun he => by_contra fun hne => he ?_, fun he => ?_⟩
    · rw [henv e hne]
      rfl
    · rw [he]
      show EnvStatus.runnable ≠ .free
      simp
  have hpg : (oneEnv.envs 0).pgdir = some 200 := rfl
  have hdir : ∀ e d, oneEnv.Live e → (oneEnv.envs e).pgdir = some d → d = 200 := by
    intro e d he hd
    rw [(hlive e).mp he, hpg] at hd
    exact (Option.some.inj hd).symm
  refine ⟨Pmap.privateLayout {200} zeroKept, Spaces.single hstart (zeroKernel_template (by simp))
    hlive hpg rfl rfl fun e => ?_, ?_, fun e d he hd va => ?_⟩
  · by_cases h0 : e = 0
    · rw [h0]
      rfl
    · rw [henv e h0]
      rfl
  · intro e e' d d' i i' t he _ hd _ ht
    rw [hdir e d he hd] at ht
    exact absurd ht (by simp [Pmap.tableOf, oneEnv, zeroKernel, entryFrame_zero])
  · rw [hdir e d he hd, Pmap.pteOf_of_clear rfl]
    exact ⟨fun _ => by decide, fun _ _ => by decide⟩

/-- Stores that fault, and nothing else; below `UTOP` only where `low` is set. -/
def storesOnly (low : Bool) (ev : Event) (k : Kernel) : Option Kernel :=
  match ev with
  | .trap tf .storePage => if low → tf.stval < utop then Kernel.next ev k else none
  | _ => none

theorem access_of_storesOnly {low : Bool} (ev : Event) (k k' : Kernel)
    (h : storesOnly low ev k = some k') :
    ev.Access ∧ (low → k.Contained ev) ∧ k.Step ev k' := by
  unfold storesOnly at h
  split at h
  · split at h
    · rename_i hva
      exact ⟨trivial, fun hlow _ _ _ _ => .inl (hva hlow), Kernel.step_of_next _ k k' h⟩
    · exact absurd h (by simp)
  · exact absurd h (by simp)

/-- A store to a page of the user allocates it. -/
theorem kernel_protected_user : ∃ h k,
    Run Guarded (fun k ev k' => ev.Access ∧ k.Contained ev ∧ k.Step ev k') h k ∧
      k.pmap.pteOf 200 0x400000#32 = mkPte 1 (pteR ||| pteW ||| pteU) ∧ k.Protected := by
  have hstep : ∀ ev k k', storesOnly true ev k = some k' →
      ev.Access ∧ k.Contained ev ∧ k.Step ev k' := by
    intro ev k k' h
    obtain ⟨hacc, hin, hs⟩ := access_of_storesOnly ev k k' h
    exact ⟨hacc, hin rfl, hs⟩
  have hend : ((Run.follow (storesOnly true) [.trap { zeroTf with stval := 0x400000#32 } .storePage]
      oneEnv).map fun k => k.pmap.pteOf 200 0x400000#32) =
      some (mkPte 1 (pteR ||| pteW ||| pteU)) := by
    decide +kernel
  obtain ⟨k, hk, hpte⟩ := Option.map_eq_some_iff.mp hend
  have hrun := Run.of_follow hstep (.start oneEnv_guarded) hk
  exact ⟨_, k, hrun, hpte, kernel_protected hrun⟩

/-- A store to an address above the physical memory maps a page for the user
there. -/
theorem kernel_protected_fails :
    ¬∀ h k, Run Guarded (fun k ev k' => ev.Access ∧ k.Step ev k') h k → k.Protected := by
  intro hall
  have hstep : ∀ ev k k', storesOnly false ev k = some k' → ev.Access ∧ k.Step ev k' := by
    intro ev k k' h
    obtain ⟨hacc, -, hs⟩ := access_of_storesOnly ev k k' h
    exact ⟨hacc, hs⟩
  have hend : ((Run.follow (storesOnly false) [.trap { zeroTf with stval := 0xa0000000#32 } .storePage]
      oneEnv).map fun k => ((k.envs 0).status, (k.envs 0).pgdir,
        k.pmap.pteOf 200 0xa0000000#32 &&& pteU)) = some (.runnable, some 200, pteU) := by
    decide +kernel
  obtain ⟨k, hk, heq⟩ := Option.map_eq_some_iff.mp hend
  simp only [Prod.mk.injEq] at heq
  obtain ⟨hst, hpg, hpte⟩ := heq
  have hlive : k.Live 0 := Kernel.live_of_status hst (by simp)
  have hguard := (hall _ k (Run.of_follow hstep (.start oneEnv_guarded) hk) 0 200 hlive hpg
    0xa0000000#32).1 (by decide)
  rw [hpte] at hguard
  exact absurd hguard (by decide)

end RvMos
