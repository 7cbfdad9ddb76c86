/-
Demand paging.

A fault where nothing is mapped gets a frame from the free list.  `page_insert`
puts it under the faulting address, with a new table where there is none; the
entry then holds whatever permissions the handler asks for, and no other
translation of the directory changes.  `do_store_page` asks for fixed flags.
`do_load_page` reads the flags it asks for through a pointer that `page_lookup`
has set only where something is mapped.
-/
import RvMos.Kern.Reach

namespace RvMos

open Lib

namespace Pmap

variable {L : Layout} {s s₁ : Pmap} {d pp : Frame} {va : Word}

/-! ## A frame from the free list under a clear entry -/

/-- `s'` is `s` with the free frame `pp` under `va`, in an entry with the word
`perm`; `pp` is the only cleared frame that has been taken from the list. -/
structure PutFresh (s : Pmap) (d pp : Frame) (va perm : Word) (s' : Pmap) : Prop where
  free : pp ∈ s.pageFreeList
  entry : s'.pteOf d va = mkPte pp perm
  zero : ∀ j, s'.mem pp j = 0#32
  ref : s'.ppRef pp = 1
  others : ∀ va', vpn va' ≠ vpn va → s'.pteOf d va' = s.pteOf d va'
  unique : ∀ f ∈ s.pageFreeList, s'.ppRef f = 1 → (∀ j, s'.mem f j = 0#32) → f = pp

/-- Only addresses of one page share an owned entry. -/
theorem vpn_of_slot (hF : s.Forest L) (hd : s.Dir L d) (hown : L.own d (pdx va)) {t : Frame}
    (ht : s.tableOf d (pdx va) = some t) {va' : Word} (ht' : s.tableOf d (pdx va') = some t)
    (hj : ptx va' = ptx va) : vpn va' = vpn va := by
  have hnot := not_shared_of_owned hF hown ht
  have hown' : L.own d (pdx va') := by
    rcases hd.entries (pdx va') with hown' | ⟨u, hu, hm⟩
    · exact hown'
    · rw [tableOf, hm, entryFrame_mkPte u flagOnly_zero] at ht'
      exact absurd (Option.some.inj ht' ▸ hu) hnot
  exact vpn_eq_iff.mpr ⟨(tableOf_inj hF hown hown' ht ht').2.symm, hj⟩

theorem unreferenced (hI : s.Inv L) {f : Frame} (hf : f ∈ s.pageFreeList) : s.ppRef f = 0 :=
  BitVec.eq_of_toNat_eq (hI.ppRef_of_free hf)

theorem mkPte_ne_zero (f : Frame) (perm : Word) : mkPte f perm ≠ 0#32 := by
  intro h
  have hv := valid_mkPte f perm
  rw [h, valid_zero] at hv
  exact absurd hv (by simp)

/-- The last store of `page_insert` under a table that is there. -/
theorem putLast (pp : Frame) (hI : s.Inv L) (hd : s.Dir L d) (hown : L.own d (pdx va)) {t : Frame}
    (ht : s.tableOf d (pdx va) = some t) (perm : Word) :
    ((s.store ⟨t, ptx va⟩ (mkPte pp perm)).incRef pp).pteOf d va = mkPte pp perm ∧
      ∀ va', vpn va' ≠ vpn va →
        ((s.store ⟨t, ptx va⟩ (mkPte pp perm)).incRef pp).pteOf d va' = s.pteOf d va' := by
  obtain ⟨-, hdirs, -⟩ := store_effect hI.toForest
    ((s.store ⟨t, ptx va⟩ (mkPte pp perm)).incRef pp) (hd.isTable hI.toForest ht).1 (incRef_mem _ _)
  obtain ⟨-, htab, hother⟩ := hdirs d hd
  refine ⟨?_, fun va' hne => hother va' fun h =>
    hne (vpn_of_slot hI.toForest hd hown ht h.1 h.2)⟩
  rw [pteOf, htab, ht]
  exact store_mem_self ..

/-- `page_insert` of a frame that was just taken from the list. -/
theorem pageInsert_fresh (hI : s.Inv L) (hd : s.Dir L d) (hown : L.own d (pdx va))
    (h0 : s.pteOf d va = 0#32) (ha : s.pageAlloc = .ok (pp, s₁))
    (hroom : s.tableOf d (pdx va) ≠ none ∨ s₁.pageFreeList ≠ []) (perm : Word) :
    ∃ s', s₁.pageInsert d pp va perm = .ok (.ok (), s') ∧ s.PutFresh d pp va perm s' := by
  obtain ⟨hI₁, hfree, href, hmem, -, hrefs, hb, hr⟩ := hI.alloc ha
  have hd₁ := hd.alloc hI ha
  have hpte : ∀ va', s₁.pteOf d va' = s.pteOf d va' := pteOf_alloc hI hd ha
  have hppfree : pp ∈ s.pageFreeList := hfree ▸ List.mem_cons_self
  have hrest : ∀ f ∈ s.pageFreeList, f ≠ pp → f ∈ s₁.pageFreeList := fun f hf hne =>
    (List.mem_cons.mp (hfree ▸ hf)).resolve_left hne
  have hzero : ∀ j, s₁.mem pp j = 0#32 := fun j => by rw [hmem, Function.update_self]
  have hpp : s₁.ppRef pp = 0 := by rw [href, unreferenced hI hppfree]
  have hnt : ¬s₁.IsTable L pp := not_isTable_of_unref hb ((hrefs pp).trans hr)
  have hpd : pp ≠ d := fun e => by
    have hheld := hd.held
    rw [← e, hb] at hheld
    exact absurd hheld (by omega)
  have hclear : ∀ {f}, entryFrame (s₁.pteOf d va) ≠ some f := by
    intro f
    rw [hpte, h0, entryFrame_zero]
    simp
  rcases pageInsert_cases hI₁ hd₁ pp perm (counted_of_own hI₁.toForest hown) with
    ⟨t, hm, -, -, hf, -⟩ | ⟨t, old, hm, -, -, -, hf, -⟩ | ⟨t, hm, htab, -, -, hrun⟩ |
    ⟨t, s₂, -, hz, ha₂, hrun⟩ | ⟨-, hz, hnil, -⟩
  · exact absurd (by rw [pteOf_of_table hm, hf]) hclear
  · exact absurd (by rw [pteOf_of_table hm, hf]) hclear
  · have ht : s₁.tableOf d (pdx va) = some t := by
      rw [tableOf, hm, entryFrame_mkPte t flagOnly_zero]
    have hpt : pp ≠ t := fun e => hnt (e ▸ htab)
    obtain ⟨hentry, hother⟩ := putLast pp hI₁ hd₁ hown ht perm
    refine ⟨_, hrun, hppfree, hentry, fun j => ?_, ?_, fun va' hne => ?_, fun f hf hone _ => ?_⟩
    · rw [incRef_mem, store_mem_of_ne _ fun e => hpt (congrArg Prod.fst e), hzero]
    · rw [incRef_self, store_ppRef, hpp]
      rfl
    · rw [hother va' hne, hpte]
    · by_contra hne
      rw [incRef_of_ne (Ne.symm hne), store_ppRef, href, unreferenced hI hf] at hone
      exact absurd hone (by decide)
  · -- the table is taken from the list, too
    obtain ⟨hI₂, hself, hzt, hdata, hdirs, -, -, -⟩ := newTable_effect hI₁ hown hz ha₂ rfl
    obtain ⟨hd₂, -, hpte₂⟩ := hdirs d hd₁
    obtain ⟨-, hfree₂, href₂, -⟩ := hI₁.alloc ha₂
    have htfree : t ∈ s₁.pageFreeList := hfree₂ ▸ List.mem_cons_self
    have hppfree₁ : pp ∉ s₁.pageFreeList := not_free_of_alloc hI ha
    have hpt : pp ≠ t := fun e => hppfree₁ (e ▸ htfree)
    obtain ⟨hentry, hother⟩ := putLast pp hI₂ hd₂ hown hself perm
    refine ⟨_, hrun, hppfree, hentry, fun j => ?_, ?_, fun va' hne => ?_, fun f hf hone hzf => ?_⟩
    · rw [incRef_mem, store_mem_of_ne _ fun e => hpt (congrArg Prod.fst e),
        hdata pp hppfree₁ hpd, hzero]
    · rw [incRef_self, store_ppRef, incRef_of_ne (Ne.symm hpt), store_ppRef, href₂, hpp]
      rfl
    · rw [hother va' hne, hpte₂, hpte]
    · by_contra hne
      have hft : f ≠ t := by
        rintro rfl
        have hword := hzf (ptx va)
        rw [incRef_mem, store_mem_self] at hword
        exact mkPte_ne_zero pp perm hword
      rw [incRef_of_ne (Ne.symm hne), store_ppRef, incRef_of_ne (Ne.symm hft), store_ppRef,
        href₂, href, unreferenced hI hf] at hone
      exact absurd hone (by decide)
  · have hnone : s₁.tableOf d (pdx va) = none := by rw [tableOf, hz, entryFrame_zero]
    have hkept : s₁.tableOf d (pdx va) = s.tableOf d (pdx va) := by
      unfold tableOf
      rw [hmem, Function.update_of_ne (Ne.symm hpd)]
    exact absurd hnil (hroom.resolve_left fun h => h (hkept ▸ hnone))

theorem PutFresh.congr {perm va' : Word} {s' : Pmap} (h : s.PutFresh d pp va' perm s')
    (hv : vpn va' = vpn va) : s.PutFresh d pp va perm s' where
  free := h.free
  entry := (pteOf_congr hv).symm.trans h.entry
  zero := h.zero
  ref := h.ref
  others := fun va'' hne => h.others va'' (hv ▸ hne)
  unique := h.unique

end Pmap

/-! ## The handlers -/

/-- The page of `va` is a frame that was free, is clear now and is mapped once,
with the flags `perm`; all other pages are mapped as before. -/
structure Pmap.MapsFresh (s : Pmap) (d : Frame) (va perm : Word) (s' : Pmap) : Prop where
  page : ∃ pp ∈ s.pageFreeList, s'.pteOf d va = mkPte pp perm ∧ (∀ j, s'.mem pp j = 0#32) ∧
    s'.ppRef pp = 1
  others : ∀ va', vpn va' ≠ vpn va → s'.pteOf d va' = s.pteOf d va'

/-- A free frame for the page, and one for the table where it is missing. -/
def Kernel.Supplied (k : Kernel) (d : Frame) (va : Word) : Prop :=
  (k.pmap.tableOf d (pdx va) ≠ none ∧ 1 ≤ k.pmap.pageFreeList.length) ∨
    2 ≤ k.pmap.pageFreeList.length

/-- The word behind the unset pointer adds nothing to the entry of the next free
frame. -/
def Kernel.Harmless (k : Kernel) (junk : Option Word) : Prop :=
  ∃ w, junk = some w ∧ ∀ pp, k.pmap.pageFreeList.head? = some pp →
    mkPte pp (w ||| pteR ||| pteU) = mkPte pp (pteR ||| pteU)

theorem Pmap.PutFresh.maps {s s' : Pmap} {d pp : Frame} {va perm : Word}
    (h : s.PutFresh d pp va perm s') : s.MapsFresh d va perm s' :=
  ⟨⟨pp, h.free, h.entry, h.zero, h.ref⟩, h.others⟩

namespace Kern

open Sys

variable {L : Layout} {k : Kernel} {c : EnvIdx} {d : Frame} {va : Word}

theorem pteOf_of_invalid (h : Spaces L k) (hlive : k.Live c) (hd : (k.envs c).pgdir = some d)
    (hva : va < utop) (hnone : valid (k.pmap.pteOf d va) = false) : k.pmap.pteOf d va = 0#32 := by
  obtain ⟨d', hd', hdir, hown, -⟩ := h.own hlive hva
  obtain rfl := Option.some.inj (hd.symm.trans hd')
  rcases hdir.entry h.inv.toForest (pdx va) with ⟨-, h0⟩ | ⟨t, hm, ht⟩
  · exact Pmap.pteOf_of_clear h0
  · have htd : k.pmap.tableOf d (pdx va) = some t := by
      rw [Pmap.tableOf, hm, entryFrame_mkPte t flagOnly_zero]
    rw [Pmap.pteOf_of_table hm] at hnone ⊢
    rcases h.inv.pte t (ptx va) ht (Pmap.counted_of_own h.inv.toForest hown t htd) with
      h0 | ⟨f, fl, -, hw⟩
    · exact h0
    · rw [hw, valid_mkPte] at hnone
      exact absurd hnone (by simp)

/-- `page_alloc` of the new page. -/
theorem wp_takePage (hs : k.Supplied d va) {E : Halt → Prop} {msg : String}
    {Q : Except Errno Frame → Kernel → Prop}
    (hQ : ∀ pp s, k.pmap.pageAlloc = .ok (pp, s) → Q (.ok pp) (k.setPmap s)) :
    (orPanic pageAlloc msg).wp Q E k := by
  have hne : k.pmap.pageFreeList ≠ [] := by
    intro hnil
    rcases hs with ⟨-, h⟩ | h
    · rw [hnil] at h
      exact absurd h (by simp)
    · rw [hnil] at h
      exact absurd h (by simp)
  unfold orPanic
  refine wp_attempt_seq (R := fun r k' => ∃ pp s, k.pmap.pageAlloc = .ok (pp, s) ∧ r = .ok pp ∧
    k' = k.setPmap s) ?_ fun r k' hr => ?_
  · exact wp_pageAlloc (fun hnil => absurd hnil hne) fun pp s ha => ⟨pp, s, ha, rfl, rfl⟩
  · obtain ⟨pp, s, ha, rfl, rfl⟩ := hr
    exact wp_pure.mpr (hQ pp s ha)

/-- `page_insert` of the new page. -/
theorem wp_putPage (h : Spaces L k) (hlive : k.Live c) (hd : (k.envs c).pgdir = some d)
    (hva : va < utop) (hnone : valid (k.pmap.pteOf d va) = false) (hs : k.Supplied d va)
    {pp : Frame} {s : Pmap} (ha : k.pmap.pageAlloc = .ok (pp, s)) {perm : Word} {msg : String}
    {E : Halt → Prop} {Q : Except Errno Unit → Kernel → Prop}
    (hQ : ∀ p, k.pmap.PutFresh d pp va perm p → Q (.ok ()) (k.setPmap p)) :
    (orPanic (pageInsert (some d) pp (rounddown va) perm) msg).wp Q E (k.setPmap s) := by
  obtain ⟨d', hd', hdir, hown, -⟩ := h.own hlive hva
  obtain rfl := Option.some.inj (hd.symm.trans hd')
  have hv := vpn_rounddown va
  have hi := (vpn_eq_iff.mp hv).1
  have h0 : k.pmap.pteOf d (rounddown va) = 0#32 :=
    (Pmap.pteOf_congr hv).trans (pteOf_of_invalid h hlive hd hva hnone)
  have hroom : k.pmap.tableOf d (pdx (rounddown va)) ≠ none ∨ s.pageFreeList ≠ [] := by
    rw [hi]
    refine hs.imp (·.1) fun hlen hnil => ?_
    rw [(h.inv.alloc ha).2.1, hnil] at hlen
    exact absurd hlen (by simp)
  obtain ⟨p, hrun, hput⟩ :=
    Pmap.pageInsert_fresh h.inv hdir (by rw [hi]; exact hown) h0 ha hroom perm
  have hins : (pageInsert (some d) pp (rounddown va) perm).wp
      (fun r k' => r = .ok () ∧ k' = k.setPmap p) E (k.setPmap s) := by
    unfold pageInsert dirOf
    rw [wp_bind, wp_pure]
    refine wp_onPmap.mpr ⟨fun x hx => ?_, fun r q hr => ?_⟩
    · exact absurd (hrun.symm.trans hx) (by simp)
    · obtain ⟨rfl, rfl⟩ := Prod.mk.inj (Except.ok.inj (hrun.symm.trans hr))
      exact ⟨rfl, rfl⟩
  unfold orPanic
  refine wp_attempt_seq hins fun r k' hr => ?_
  obtain ⟨rfl, rfl⟩ := hr
  exact wp_pure.mpr (hQ p (hput.congr hv))

/-- `page_lookup` of a page that is not mapped. -/
theorem wp_lookupNone (h : Spaces L k) (hlive : k.Live c) (hd : (k.envs c).pgdir = some d)
    (hva : va < utop) (hnone : valid (k.pmap.pteOf d va) = false) {E : Halt → Prop}
    {Q : Except Errno (Option (Frame × PtePtr)) → Kernel → Prop} (hQ : Q (.ok none) k) :
    (pageLookup (some d) va).wp Q E k := by
  obtain ⟨d', hd', hdir, hown, -⟩ := h.own hlive hva
  obtain rfl := Option.some.inj (hd.symm.trans hd')
  refine wp_pageLookup ?_ hQ
  rw [Pmap.pageLookup_eq h.inv.toForest hdir (Pmap.counted_of_own h.inv.toForest hown),
    pteOf_of_invalid h hlive hd hva hnone, entryFrame_zero]
  rfl

theorem doLoadPage_fresh (h : Spaces L k) (hc : k.curenv = some c)
    (hd : (k.envs c).pgdir = some d) (hlo : utemp ≤ k.active.stval)
    (hhi : k.active.stval < utop) (hnone : valid (k.pmap.pteOf d k.active.stval) = false)
    (hs : k.Supplied d k.active.stval) (junk : Option Word) :
    (doLoadPage junk).wp (fun r k' => r = .ok () ∧ ∃ w pp s, junk = some w ∧
        k.pmap.pageAlloc = .ok (pp, s) ∧
        k.pmap.PutFresh d pp k.active.stval (w ||| pteR ||| pteU) k'.pmap)
      (fun _ => junk = none) k := by
  obtain ⟨hlive, -⟩ := h.cur c hc
  have huvpt : k.active.stval < uvpt := BitVec.lt_trans hhi (by decide)
  unfold doLoadPage
  rw [wp_get_bind]
  simp only
  rw [if_neg (BitVec.not_lt.mpr hlo), if_pos huvpt]
  unfold loadMapped
  refine curenv_of_some hc ?_
  rw [wp_get_bind, hd, wp_bind]
  unfold loadTarget
  rw [wp_bind]
  refine wp_lookupNone h hlive hd hhi hnone ?_
  simp only
  rw [wp_bind]
  refine wp_takePage hs fun pp s ha => ?_
  cases junk with
  | none => exact wp_halt.mpr rfl
  | some w =>
    refine wp_pure.mpr (wp_putPage h hlive hd hhi hnone hs ha fun p hp => ?_)
    exact ⟨rfl, w, pp, s, rfl, ha, hp⟩

theorem doStorePage_fresh (h : Spaces L k) (hc : k.curenv = some c)
    (hd : (k.envs c).pgdir = some d) (hhi : k.active.stval < utop)
    (hnone : valid (k.pmap.pteOf d k.active.stval) = false) (hs : k.Supplied d k.active.stval) :
    doStorePage.wp (fun r k' => r = .ok () ∧
        k.pmap.MapsFresh d k.active.stval (pteR ||| pteW ||| pteU) k'.pmap)
      (fun _ => False) k := by
  obtain ⟨hlive, hcp⟩ := h.cur c hc
  unfold doStorePage
  rw [wp_get_bind, wp_get_bind, hcp, hd, wp_bind]
  refine wp_lookupNone h hlive hd hhi hnone ?_
  simp only
  rw [wp_bind]
  refine wp_takePage hs fun pp s ha => ?_
  refine curenv_of_some (k := k.setPmap s) hc ?_
  rw [wp_get_bind, show ((k.setPmap s).envs c).pgdir = some d from hd]
  exact wp_putPage h hlive hd hhi hnone hs ha fun p hp => ⟨rfl, hp.maps⟩

end Kern
/-- The result of `do_load_page` at a page that is not mapped depends on what the
kernel stack holds at the place of `pte1`; that of `do_store_page` does not. -/
theorem demand_paging {k : Kernel} {c : EnvIdx} {d : Frame} {tf : Trapframe} {junk : Option Word}
    (hk : Consistent k) (hc : k.curenv = some c) (hd : (k.envs c).pgdir = some d)
    (hlo : utemp ≤ tf.stval) (hhi : tf.stval < utop)
    (hnone : valid (k.pmap.pteOf d tf.stval) = false) (hs : k.Supplied d tf.stval) :
    ((∃ k', Kern.handle tf (.loadPage junk) k = .ok (.ok (), k') ∧
        k.pmap.MapsFresh d tf.stval (pteR ||| pteU) k'.pmap) ↔ k.Harmless junk) ∧
      ∃ k', Kern.handle tf .storePage k = .ok (.ok (), k') ∧
        k.pmap.MapsFresh d tf.stval (pteR ||| pteW ||| pteU) k'.pmap := by
  obtain ⟨L, h⟩ := hk
  have ha : Spaces L { k with active := tf } := h.congr rfl rfl rfl rfl rfl
  have hload := Kern.doLoadPage_fresh ha hc hd hlo hhi hnone hs junk
  have hhead : ∀ {pp s}, k.pmap.pageAlloc = .ok (pp, s) → k.pmap.pageFreeList.head? = some pp :=
    fun ha => by rw [(h.inv.alloc ha).2.1, List.head?_cons]
  refine ⟨⟨fun hres => ?_, fun hjunk => ?_⟩, ?_⟩
  · obtain ⟨k', hrun, ⟨f, hfree, hentry, hzero, hone⟩, -⟩ := hres
    obtain ⟨-, w, pp, s, hw, hpp, hput⟩ := Sys.wp_ok hload hrun
    refine ⟨w, hw, fun q hq => ?_⟩
    obtain rfl := Option.some.inj ((hhead hpp).symm.trans hq)
    obtain rfl := hput.unique f hfree hone hzero
    exact hput.entry.symm.trans hentry
  · obtain ⟨w, rfl, hadd⟩ := hjunk
    obtain ⟨r, k', hrun, rfl, w', pp, s, hw, hpp, hput⟩ :=
      Sys.wp_run (Sys.wp_mono hload (fun _ _ => id) fun _ hn => absurd hn (by simp))
    obtain rfl := Option.some.inj hw
    have hentry := hput.entry.trans (hadd pp (hhead hpp))
    exact ⟨k', hrun, ⟨pp, hput.free, hentry, hput.zero, hput.ref⟩, hput.others⟩
  · obtain ⟨r, k', hrun, rfl, hmaps⟩ :=
      Sys.wp_run (Kern.doStorePage_fresh ha hc hd hhi hnone hs)
    exact ⟨k', hrun, hmaps⟩

/-- A fault at the first page of the user. -/
def firstFault : Trapframe := { zeroTf with stval := pageAddr 0 }

/-- The program of `zeroKernel` gets the processor and has not touched the page. -/
theorem demand_start : ∃ k, Consistent k ∧ k.curenv = some 0 ∧ (k.envs 0).pgdir = some 1 ∧
    valid (k.pmap.pteOf 1 (pageAddr 0)) = false ∧ k.Supplied 1 (pageAddr 0) := by
  have hend : ((Run.follow Kernel.orderlyNext [.create ⟨[], 0#32⟩ 1#32, .trap zeroTf .timer]
      zeroKernel.envInit).map fun k => (k.curenv, (k.envs 0).pgdir,
        valid (k.pmap.pteOf 1 (pageAddr 0)), decide (2 ≤ k.pmap.pageFreeList.length))) =
      some (some 0, some 1, false, true) := by
    decide +kernel
  obtain ⟨k, hk, heq⟩ := Option.map_eq_some_iff.mp hend
  simp only [Prod.mk.injEq] at heq
  obtain ⟨hcur, hpg, hnone, hlen⟩ := heq
  have hrun := Run.of_follow Kernel.orderlyStep_of_next (.start zeroKernel_started) hk
  exact ⟨k, (Ordered.of_run hrun).spaces, hcur, hpg, hnone, .inr (of_decide_eq_true hlen)⟩

/-- The place of `pte1` leads to a cleared word. -/
theorem demand_paging_cleared : ∃ k k' k'', Consistent k ∧
    Kern.handle firstFault (.loadPage (some 0#32)) k = .ok (.ok (), k') ∧
    k.pmap.MapsFresh 1 (pageAddr 0) (pteR ||| pteU) k'.pmap ∧
    Kern.handle firstFault .storePage k = .ok (.ok (), k'') ∧
    k.pmap.MapsFresh 1 (pageAddr 0) (pteR ||| pteW ||| pteU) k''.pmap := by
  obtain ⟨k, hk, hc, hd, hnone, hs⟩ := demand_start
  have hboth : (_ ↔ k.Harmless (some 0#32)) ∧ ∃ k', Kern.handle firstFault .storePage k = .ok (.ok (), k') ∧
      k.pmap.MapsFresh 1 firstFault.stval (pteR ||| pteW ||| pteU) k'.pmap :=
    demand_paging hk hc hd (by decide) (by decide) hnone hs
  obtain ⟨k', hload, hfresh⟩ := hboth.1.mpr ⟨0#32, rfl, fun pp _ => rfl⟩
  obtain ⟨k'', hstore, hfresh'⟩ := hboth.2
  exact ⟨k, k', k'', hk, hload, hfresh, hstore, hfresh'⟩

/-- The place of `pte1` leads to a word with `PTE_W`: the page is writable. -/
theorem demand_paging_fails : ∃ k, Consistent k ∧ k.curenv = some 0 ∧
    (k.envs 0).pgdir = some 1 ∧ valid (k.pmap.pteOf 1 firstFault.stval) = false ∧
    k.Supplied 1 firstFault.stval ∧
    ¬∃ k', Kern.handle firstFault (.loadPage (some pteW)) k = .ok (.ok (), k') ∧
      k.pmap.MapsFresh 1 firstFault.stval (pteR ||| pteU) k'.pmap := by
  obtain ⟨k, hk, hc, hd, hnone, hs⟩ := demand_start
  refine ⟨k, hk, hc, hd, hnone, hs, fun hres => ?_⟩
  obtain ⟨k', hrun, ⟨f, -, hentry, -⟩, -⟩ := hres
  obtain ⟨L, h⟩ := hk
  have ha : Spaces L { k with active := firstFault } := h.congr rfl rfl rfl rfl rfl
  have hlo : utemp ≤ firstFault.stval := by decide
  have hhi : firstFault.stval < utop := by decide
  obtain ⟨-, w, pp, s, hw, -, hput⟩ :=
    Sys.wp_ok (Kern.doLoadPage_fresh ha hc hd hlo hhi hnone hs (some pteW)) hrun
  obtain rfl := Option.some.inj hw
  have hword := congrArg (· &&& pteW) (hput.entry.symm.trans hentry)
  rw [mkPte_and_flags pp _ (by decide) (by decide), mkPte_and_flags f _ (by decide) (by decide)]
    at hword
  exact absurd hword (by decide)

end RvMos
