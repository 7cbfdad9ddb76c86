/-
Frames are not freed while they are mapped.

The counter `pp_ref` has sixteen bits and `page_insert` increments it without a
look, so a frame that is mapped at 65536 addresses has a counter of zero.  Below
that bound, and as long as the calls name live environments, the counters of a
run of memory calls stay the numbers of references.
-/
import RvMos.Kern.Spaces

namespace RvMos

open Lib

/-- A run of calls on memory and messages, with flags for permissions. -/
def Event.MemCall : Event → Prop
  | .trap _ (.ecall (.memAlloc _ _ perm)) => FlagOnly perm
  | .trap _ (.ecall (.memMap _ _ _ _ perm)) => FlagOnly perm
  | .trap _ (.ecall (.memUnmap _ _)) => True
  | .trap _ (.ecall (.ipcTrySend _ _ _ perm)) => FlagOnly perm
  | .trap _ (.ecall (.ipcRecv _)) => True
  | .trap _ (.ecall .yield) => True
  | .trap _ .timer => True
  | _ => False

/-- The calls name live environments, and the counter of a frame that is mapped
once more has room. -/
def Kernel.Countable (k : Kernel) : Event → Prop
  | .trap _ (.ecall (.memAlloc envid _ _)) => ∀ e, k.target envid true = some e → k.Live e
  | .trap _ (.ecall (.memMap srcid srcva dstid dstva _)) =>
    (∀ e, k.target srcid true = some e → k.Live e) ∧
    (∀ e, k.target dstid false = some e → k.Live e) ∧
    ∀ src dst d pp, k.target srcid true = some src → k.target dstid false = some dst →
      (k.envs src).pgdir = some d → entryFrame (k.pmap.pteOf d srcva) = some pp →
      k.pmap.Room (k.envs dst).pgdir pp dstva
  | .trap _ (.ecall (.memUnmap envid _)) => ∀ e, k.target envid true = some e → k.Live e
  | .trap _ (.ecall (.ipcTrySend envid _ srcva _)) =>
    ∀ e c d pp, k.target envid false = some e → (k.envs e).ipcRecving ≠ 0#32 →
      k.curenv = some c → (k.envs c).pgdir = some d →
      entryFrame (k.pmap.pteOf d srcva) = some pp →
      k.pmap.Room (k.envs e).pgdir pp (k.envs e).ipcDstva
  | _ => True

/-- Any stop but the assertion of `page_decref`. -/
def NotDecrefAssert (h : Halt) : Prop := h ≠ .assert "pp->pp_ref > 0"

theorem notDecrefAssert_wild {h : Halt} (e : h = .wild) : NotDecrefAssert h := by
  rw [e]
  exact fun e => by injection e

theorem notDecrefAssert_sched {h : Halt} (e : Kern.SchedStop h) : NotDecrefAssert h := by
  rcases e with rfl | ⟨m, rfl⟩ | rfl
  · exact fun e => by injection e
  · exact fun e => by injection e
  · unfold NotDecrefAssert
    decide

namespace Kern

open Sys

variable {L : Layout} {k : Kernel}

/-- A call that edits one page. -/
theorem wp_edit {m : Kern Unit} {tgt : Option EnvIdx} {va : Word} (h : Spaces L k)
    (hm : m.wp (fun _ k' => Edited L k tgt va k') (· = .wild) k) :
    (returnsZero m).wp (fun _ k' => Spaces L k') NotDecrefAssert k := by
  have hm' : m.wp (fun _ k' => Spaces L k') NotDecrefAssert k :=
    wp_mono hm (fun _ _ hk => hk.spaces h) fun _ => notDecrefAssert_wild
  exact wp_seq hm' (fun _ _ hk => wp_pure.mpr hk) fun _ _ hk => hk

theorem ecall_spaces (h : Spaces L k) {tf : Trapframe} {c : Ecall}
    (hcall : (Event.trap tf (.ecall c)).MemCall) (hcnt : k.Countable (.trap tf (.ecall c)))
    (a : Trapframe) :
    (ecall c).wp (fun _ k' => Spaces L k') NotDecrefAssert { k with active := a } := by
  have h' : Spaces L { k with active := a } := h.congr rfl rfl rfl rfl rfl
  cases c with
  | memAlloc envid va perm => exact wp_edit h' (eMemAlloc_edit h' (fun pp _ => FlagOnly.noStray hcall pp) hcnt)
  | memMap srcid srcva dstid dstva perm =>
    exact wp_edit h' (eMemMap_edit h' (fun _ _ pp _ _ _ => FlagOnly.noStray hcall pp)
      hcnt.1 hcnt.2.1 hcnt.2.2)
  | memUnmap envid va => exact wp_edit h' (eMemUnmap_edit h' hcnt)
  | ipcTrySend envid value srcva perm =>
    have hm : (eIpcTrySend envid value srcva perm).wp (fun _ k' => Spaces L k') NotDecrefAssert
        { k with active := a } := by
      refine wp_mono (eIpcTrySend_edit h' (fun _ _ _ pp _ _ _ _ _ => FlagOnly.noStray hcall pp)
        hcnt) (fun _ k' hk' => ?_) fun _ => notDecrefAssert_wild
      rcases hk' with rfl | ⟨e, c, q, -, -, -, hsp, hed⟩
      · exact h'
      · exact hed.spaces hsp
    exact wp_seq hm (fun _ _ hk => wp_pure.mpr hk) fun _ _ hk => hk
  | ipcRecv dstva =>
    have hm := wp_mono (eIpcRecv_spaces h' dstva) (fun _ _ hk => hk) fun _ => notDecrefAssert_sched
    exact wp_seq hm (fun _ _ hk => wp_pure.mpr hk) fun _ _ hk => hk
  | yield =>
    have hm := wp_mono (schedule_spaces h' true) (fun _ _ hk => hk) fun _ => notDecrefAssert_sched
    exact wp_seq hm (fun _ _ hk => wp_pure.mpr hk) fun _ _ hk => hk
  | device ret => exact hcall.elim
  | getenvid => exact hcall.elim
  | envDestroy envid => exact hcall.elim
  | setEnvCowEntry envid cowEntry => exact hcall.elim
  | exofork => exact hcall.elim
  | setEnvStatus envid status => exact hcall.elim
  | setTrapframe envid va tf => exact hcall.elim
  | panic => exact hcall.elim
  | getPgdir pde => exact hcall.elim
  | readDisk buf data => exact hcall.elim
  | getPgref v => exact hcall.elim

end Kern

/-- One call keeps the counters. -/
theorem exec_spaces {L : Layout} {k : Kernel} {ev : Event} (h : Spaces L k) (hcall : ev.MemCall)
    (hcnt : k.Countable ev) :
    (Kernel.exec ev).wp (fun _ k' => Spaces L k') NotDecrefAssert k := by
  have hany : ∀ k a, Spaces L k → Spaces L { k with active := a } := fun _ _ h =>
    h.congr rfl rfl rfl rfl rfl
  cases ev with
  | create prog priority => exact hcall.elim
  | trap tf t =>
    cases t with
    | ecall c => exact Kern.wp_handle_ecall tf hany (Kern.ecall_spaces h hcall hcnt)
    | timer =>
      refine Sys.wp_modify_bind.mpr (Sys.wp_mono (Kern.schedule_spaces (hany k tf h) false)
        (fun _ _ hk => hk) fun _ => notDecrefAssert_sched)
    | badEcall => exact hcall.elim
    | software => exact hcall.elim
    | loadPage junk => exact hcall.elim
    | storePage => exact hcall.elim
    | instructionPage => exact hcall.elim
    | reserved => exact hcall.elim

/-! ## Runs -/

/-- A kernel whose page structures are consistent. -/
def Consistent (k : Kernel) : Prop := ∃ L, Spaces L k

/-- A valid entry below `UTOP` of a live environment points to the frame. -/
def Kernel.MappedBelow (k : Kernel) (f : Frame) : Prop :=
  ∃ e d va, k.Live e ∧ (k.envs e).pgdir = some d ∧ va < utop ∧
    entryFrame (k.pmap.pteOf d va) = some f

/-- Mapped frames are counted and not free. -/
def Kernel.NoneFreed (k : Kernel) : Prop :=
  ∀ f, k.MappedBelow f → k.pmap.ppRef f ≠ 0 ∧ f ∉ k.pmap.pageFreeList

theorem Spaces.noneFreed {L : Layout} {k : Kernel} (h : Spaces L k) : k.NoneFreed := by
  rintro f ⟨e, d, va, he, hd, hva, hf⟩
  obtain ⟨d', hd', hdir, -, hc⟩ := h.own he hva
  obtain rfl := Option.some.inj (hd.symm.trans hd')
  exact (Pmap.not_free_of_mapped h.inv hdir hc hf).symm

/-- A run of countable calls. -/
def CountableStep (k : Kernel) (ev : Event) (k' : Kernel) : Prop :=
  ev.MemCall ∧ k.Countable ev ∧ k.Step ev k'

theorem consistent_of_run {h : List Event} {k : Kernel}
    (hrun : Run Consistent CountableStep h k) : Consistent k := by
  refine Run.invariant (I := fun _ k => Consistent k) (fun _ h0 => h0) ?_ hrun
  rintro _ k ev k' ⟨L, hL⟩ ⟨hcall, hcnt, -, r, hr⟩
  exact ⟨L, Sys.wp_ok (exec_spaces hL hcall hcnt) hr⟩

/-! ## One frame at many addresses -/

namespace Pmap

variable {L : Layout} {s : Pmap} {d : Frame}

/-- What a `page_insert` with a free frame at hand does to the counter, whether
or not the counter has room. -/
theorem pageInsert_grows (hI : s.Inv L) (hd : s.Dir L d) {va : Word} (pp : Frame) (perm : Word)
    (hc : s.Counted L d va) (hfree : s.pageFreeList ≠ []) (hpp : pp ∉ s.pageFreeList) :
    ∃ s', s.pageInsert d pp va perm = .ok (.ok (), s') ∧ s'.pteOf d va = mkPte pp perm ∧
      s.pageFreeList.length ≤
        s'.pageFreeList.length + (if s.tableOf d (pdx va) = none then 1 else 0) ∧
      (entryFrame (s.pteOf d va) ≠ some pp → s'.ppRef pp = s.ppRef pp + 1) := by
  -- with a table in place the last store is to an entry of it
  have hstore : ∀ {t : Frame} {s₁ : Pmap}, s.mem d (pdx va) = mkPte t 0#32 → s.IsTable L t →
      s₁.mem = (s.store ⟨t, ptx va⟩ (mkPte pp perm)).mem → s₁.pteOf d va = mkPte pp perm := by
    intro t s₁ hm ht hs₁
    have hdt : (d, pdx va) ≠ (t, ptx va) := by
      intro e
      have he : d = t := congrArg Prod.fst e
      exact hd.not_isTable hI.toForest (he ▸ ht)
    have hm₁ : s₁.mem d (pdx va) = mkPte t 0#32 := by
      rw [hs₁, store_mem_of_ne _ hdt, hm]
    rw [pteOf_of_table hm₁, hs₁, store_mem_self]
  rcases pageInsert_cases hI hd pp perm hc with
    ⟨t, hm, ht, -, hf, hr⟩ | ⟨t, old, hm, ht, -, hne, hf, hr⟩ | ⟨t, hm, ht, -, hz, hr⟩ |
    ⟨t, s₁, -, h0, ha, hr⟩ | ⟨-, -, hnil, -⟩
  · refine ⟨_, hr, hstore hm ht rfl, Nat.le_add_right _ _, fun hne => absurd ?_ hne⟩
    rw [pteOf_of_table hm, hf]
  · refine ⟨_, hr, hstore hm ht ?_, ?_, fun _ => ?_⟩
    · rw [incRef_mem, store_store]
      rfl
    · simp only [incRef_free, store_free, dropRef]
      split
      · rw [List.length_cons]
        omega
      · omega
    · rw [incRef_self, store_ppRef, store_ppRef, dropRef_of_ne hne]
  · refine ⟨_, hr, hstore hm ht rfl, Nat.le_add_right _ _, fun _ => ?_⟩
    rw [incRef_self, store_ppRef]
  · obtain ⟨-, hl, href, hmem, -⟩ := hI.alloc ha
    have hdt : d ≠ t := hd.ne_of_base (hI.free_unref t (hl ▸ List.mem_cons_self)).1
    have htp : t ≠ pp := by
      rintro rfl
      exact hpp (hl ▸ List.mem_cons_self)
    have hm₁ : ((((s₁.store ⟨d, pdx va⟩ (mkPte t 0#32)).incRef t).store ⟨t, ptx va⟩
        (mkPte pp perm)).incRef pp).mem d (pdx va) = mkPte t 0#32 := by
      rw [incRef_mem, store_mem_of_ne _ fun e => hdt (congrArg Prod.fst e), incRef_mem,
        store_mem_self]
    have hnone : s.tableOf d (pdx va) = none := by
      rw [tableOf, h0, entryFrame_zero]
    refine ⟨_, hr, ?_, ?_, fun _ => ?_⟩
    · rw [pteOf_of_table hm₁, incRef_mem, store_mem_self]
    · rw [if_pos hnone, hl]
      exact le_rfl
    · rw [incRef_self, store_ppRef, incRef_of_ne htp, store_ppRef, href]
  · exact absurd hnil hfree

end Pmap

/-- The page number `n` above the first four megabytes. -/
def pageAddr (n : Nat) : Word := BitVec.ofNat 32 (4194304 + n * 4096)

section PageAddr

variable {n : Nat} (h : n < 65536)

include h

theorem pageAddr_toNat : (pageAddr n).toNat = 4194304 + n * 4096 := by
  rw [pageAddr, BitVec.toNat_ofNat, Nat.mod_eq_of_lt (by omega)]

theorem pageAddr_lt : pageAddr n < utop := by
  show (pageAddr n).toNat < 0x7f400000
  rw [pageAddr_toNat h]
  omega

theorem pageAddr_legal : Kern.isIllegalVa (pageAddr n) = false := by
  have hlo : ¬pageAddr n < utemp := by
    show ¬(pageAddr n).toNat < 0x3fe000
    rw [pageAddr_toNat h]
    omega
  simp [Kern.isIllegalVa, hlo, BitVec.not_le.mpr (pageAddr_lt h)]

theorem pdx_pageAddr : (pdx (pageAddr n)).val = 1 + n / 1024 := by
  rw [pdx_val, pageAddr_toNat h]
  omega

theorem pageAddr_injective {m : Nat} (hm : m < 65536) (e : vpn (pageAddr m) = vpn (pageAddr n)) :
    m = n := by
  have he := congrArg BitVec.toNat e
  rw [vpn_toNat, vpn_toNat, pageAddr_toNat h, pageAddr_toNat hm] at he
  omega

end PageAddr

/-- The running environment has `pp` at its pages up to `n`, and the free frames
suffice for the tables of the other pages. -/
structure Crowded (d pp : Frame) (n : Nat) (k : Kernel) : Prop where
  cur : k.curenv = some 0
  dir : (k.envs 0).pgdir = some d
  mapped : ∀ m ≤ n, entryFrame (k.pmap.pteOf d (pageAddr m)) = some pp
  free : 64 ≤ k.pmap.pageFreeList.length + n / 1024

/-- `e_mem_map(0, page 0, 0, page n, PTE_W)` -/
def mapAgain (n : Nat) : Event :=
  .trap zeroTf (.ecall (.memMap 0#32 (pageAddr 0) 0#32 (pageAddr n) pteW))

section Crowd

variable {L : Layout} {k : Kernel} {d pp : Frame} {n : Nat}

/-- The entries of different pages are different slots, so the counter of the
frame is at least their number. -/
theorem Crowded.count (h : Spaces L k) (hlive : k.Live 0) (hk : Crowded d pp n k)
    (hn : n < 65536) : n < (k.pmap.ppRef pp).toNat := by
  have hslot : ∀ m < n + 1, L.own d (pdx (pageAddr m)) ∧ k.pmap.Counted L d (pageAddr m) ∧
      ∃ t, k.pmap.tableOf d (pdx (pageAddr m)) = some t ∧
        entryFrame (k.pmap.mem t (ptx (pageAddr m))) = some pp := by
    intro m hm
    obtain ⟨d', hd', -, hown, hc⟩ := h.own hlive (pageAddr_lt (n := m) (by omega))
    obtain rfl := Option.some.inj (hk.dir.symm.trans hd')
    have hpte := hk.mapped m (by omega)
    unfold Pmap.pteOf at hpte
    cases ht : k.pmap.tableOf d (pdx (pageAddr m)) with
    | none =>
      rw [ht] at hpte
      exact absurd hpte (by rw [entryFrame_zero]; simp)
    | some t =>
      rw [ht] at hpte
      exact ⟨hown, hc, t, rfl, hpte⟩
  have hle : (Finset.range (n + 1)).card ≤ tally (k.pmap.pteView L) pp := by
    refine card_le_tally
      (fun m => ((k.pmap.tableOf d (pdx (pageAddr m))).getD d, ptx (pageAddr m))) ?_ ?_
    · intro m hm
      obtain ⟨hown, hc, t, ht, hf⟩ := hslot m (Finset.mem_range.mp hm)
      have htab : k.pmap.IsTable L t := .inr ⟨(d, pdx (pageAddr m)), by
        rw [Pmap.pdeView_of_own hown]
        exact ht⟩
      simp only [ht, Option.getD_some]
      rw [Pmap.pteView_of_table htab (hc t ht), hf]
    · intro m hm m' hm' heq
      have hm := Finset.mem_range.mp hm
      have hm' := Finset.mem_range.mp hm'
      obtain ⟨hown, -, t, ht, -⟩ := hslot m hm
      obtain ⟨hown', -, t', ht', -⟩ := hslot m' hm'
      simp only [ht, ht', Option.getD_some, Prod.mk.injEq] at heq
      obtain ⟨rfl, hx⟩ := heq
      obtain ⟨-, hi⟩ := Pmap.tableOf_inj h.inv.toForest hown hown' ht ht'
      exact pageAddr_injective (by omega) (by omega) (vpn_eq_iff.mpr ⟨hi, hx⟩)
  have hc := h.inv.count pp
  rw [Finset.card_range] at hle
  unfold Pmap.refs at hc
  omega

/-- The kernel `k'` is `k` with the page structures `s`; its queues and its active frame
may differ too. -/
structure Repaged (k : Kernel) (s : Pmap) (k' : Kernel) : Prop where
  pmap : k'.pmap = s
  envs : k'.envs = k.envs
  basePgdir : k'.basePgdir = k.basePgdir
  curenv : k'.curenv = k.curenv
  curPgdir : k'.curPgdir = k.curPgdir

/-- The call stores the new page structures and the result, and nothing else. -/
theorem Crowded.exec (h : Spaces L k) (hlive : k.Live 0) (hk : Crowded d pp n k) {m : ℕ}
    (hm : m < 65536) {s' : Pmap}
    (hr : k.pmap.pageInsert d pp (pageAddr m) pteW = .ok (.ok (), s')) :
    (Kernel.exec (mapAgain m)).wp (fun _ k' => Repaged k s' k') (fun _ => False) k := by
  refine Kern.wp_handle_ecall zeroTf (fun _ _ h => ⟨h.pmap, h.envs, h.basePgdir, h.curenv,
    h.curPgdir⟩) fun a => ?_
  have ha : Spaces L { k with active := a } := h.congr rfl rfl rfl rfl rfl
  have hins : (Kern.pageInsert (some d) pp (pageAddr m) pteW).wp (fun _ k' => Repaged k s' k')
      (fun _ => False) { k with active := a } := by
    unfold Kern.pageInsert Kern.dirOf
    rw [Sys.wp_bind, Sys.wp_pure]
    refine Kern.wp_onPmap.mpr ⟨fun c hm => ?_, fun r p hm => ?_⟩
    · rw [hr] at hm
      exact absurd hm (by simp)
    · rw [hr] at hm
      obtain ⟨-, rfl⟩ := Prod.mk.inj (Except.ok.inj hm)
      exact ⟨rfl, rfl, rfl, rfl, rfl⟩
  have hself : ∀ b, Kernel.target { k with active := a } 0#32 b = some 0 := fun _ => hk.cur
  have hmap := Kern.wp_eMemMap ha (pageAddr_legal (n := 0) (by omega)) (pageAddr_legal hm)
    (hself true) (hself false) hlive hk.dir (hk.mapped 0 (Nat.zero_le n))
    (by rw [show _ = some d from hk.dir]; exact hins)
  exact Sys.wp_seq hmap (fun _ _ h => Sys.wp_pure.mpr h) fun _ _ h => h

/-- A new table is needed at every 1024th page only. -/
theorem Crowded.div_of_noTable (hk : Crowded d pp n k) (hn : n + 1 < 65536)
    (hnone : k.pmap.tableOf d (pdx (pageAddr (n + 1))) = none) :
    (n + 1) / 1024 = n / 1024 + 1 := by
  by_contra hne
  have hsame : pdx (pageAddr (n + 1)) = pdx (pageAddr n) := by
    refine Fin.ext ?_
    rw [pdx_pageAddr hn, pdx_pageAddr (by omega)]
    omega
  have hpn := hk.mapped n le_rfl
  unfold Pmap.pteOf at hpn
  rw [← hsame, hnone] at hpn
  exact absurd hpn (by rw [entryFrame_zero]; simp)

/-- While the counter does not wrap, the new mapping is one more page. -/
theorem Crowded.next (h : Spaces L k) (hlive : k.Live 0) (hk : Crowded d pp n k)
    (hn : n + 1 < 65536) {s' : Pmap} (hfree : pp ∉ k.pmap.pageFreeList)
    (hins : k.pmap.Inserted L d pp (pageAddr (n + 1)) pteW s')
    (hlen : k.pmap.pageFreeList.length ≤ s'.pageFreeList.length +
      (if k.pmap.tableOf d (pdx (pageAddr (n + 1))) = none then 1 else 0))
    {k' : Kernel} (hk' : Repaged k s' k') : Spaces L k' ∧ Crowded d pp (n + 1) k' := by
  obtain ⟨d', hd', hdir, hown, -⟩ := h.own hlive (pageAddr_lt hn)
  obtain rfl := Option.some.inj (hk.dir.symm.trans hd')
  have hdata := h.data hlive hk.dir (pageAddr_lt (n := 0) (by omega)) (hk.mapped 0 (Nat.zero_le n))
  have hkept := Pmap.kept_insert h.inv hdir hown (by decide) (fun _ => hdata.insert hfree hins)
    (.inl hown) hins
  refine ⟨(h.setPmap hkept).congr hk'.pmap hk'.envs hk'.basePgdir hk'.curenv hk'.curPgdir,
    hk'.curenv.trans hk.cur, ?_, fun m hm => ?_, ?_⟩
  · rw [hk'.envs]
    exact hk.dir
  · rw [hk'.pmap]
    by_cases hme : m = n + 1
    · rw [hme, hins.pte, entryFrame_mkPte pp (by decide)]
    · have hm' : m < 65536 := by omega
      rw [hins.other d _ hdir ?_]
      · exact hk.mapped m (by omega)
      · intro hs
        have hv := (Pmap.sameSlot_of_own hkept.inv.toForest hown (hkept.dirs d hdir) hs).2
        exact hme (pageAddr_injective hn hm' hv)
  · rw [hk'.pmap]
    have hb := hk.free
    by_cases hnone : k.pmap.tableOf d (pdx (pageAddr (n + 1))) = none
    · have hdvd := hk.div_of_noTable hn hnone
      rw [if_pos hnone] at hlen
      omega
    · rw [if_neg hnone] at hlen
      have hmono : n / 1024 ≤ (n + 1) / 1024 := Nat.div_le_div_right (by omega)
      omega

/-- One more mapping overflows the counter, or is one more page. -/
theorem Crowded.step (h : Spaces L k) (hk : Crowded d pp n k) (hn : n + 1 < 65536) :
    ∃ k', k.Step (mapAgain (n + 1)) k' ∧
      (¬k'.NoneFreed ∨ Spaces L k' ∧ Crowded d pp (n + 1) k') := by
  have hlive : k.Live 0 := (h.cur 0 hk.cur).1
  obtain ⟨d', hd', hdir, -, hc⟩ := h.own hlive (pageAddr_lt hn)
  obtain rfl := Option.some.inj (hk.dir.symm.trans hd')
  obtain ⟨d', hd', -, -, hc₀⟩ := h.own hlive (pageAddr_lt (n := 0) (by omega))
  obtain rfl := Option.some.inj (hk.dir.symm.trans hd')
  have hpp := Pmap.not_free_of_mapped h.inv hdir hc₀ (hk.mapped 0 (Nat.zero_le n))
  have hfree : k.pmap.pageFreeList ≠ [] := by
    intro hnil
    have hlen := hk.free
    rw [hnil, List.length_nil] at hlen
    omega
  obtain ⟨s', hr, hpte, hlen, href⟩ :=
    Pmap.pageInsert_grows h.inv hdir pp pteW hc hfree hpp.1
  obtain ⟨r, k', hexec, hk'⟩ := Sys.wp_run (hk.exec h hlive hn hr)
  refine ⟨k', ⟨by rw [mapAgain]; exact fun e => by simp [hk.cur] at e, r, hexec⟩, ?_⟩
  by_cases hroom : entryFrame (k.pmap.pteOf d (pageAddr (n + 1))) ≠ some pp →
      (k.pmap.ppRef pp).toNat < 65535
  · -- the counters stay right
    refine .inr ?_
    rcases Pmap.pageInsert_spec h.inv hdir hc (show FlagOnly pteW by decide) hpp.1
      (fun hne => by rw [← h.inv.count pp]; exact hroom hne) with ⟨p, hp, hins⟩ | ⟨-, -, hnil⟩
    · obtain rfl : p = s' := by
        rw [hp] at hr
        exact (Prod.mk.inj (Except.ok.inj hr)).2
      exact hk.next h hlive hn hpp.1 hins hlen hk'
    · exact absurd hnil hfree
  · -- the counter wraps
    refine .inl fun hnone => ?_
    obtain ⟨hne, hge⟩ := Classical.not_imp.mp hroom
    have hmapped : k'.MappedBelow pp := by
      refine ⟨0, d, pageAddr (n + 1), (Kernel.live_congr (by rw [hk'.envs])).mpr hlive, ?_,
        pageAddr_lt hn, ?_⟩
      · rw [hk'.envs]
        exact hk.dir
      · rw [hk'.pmap, hpte, entryFrame_mkPte pp (by decide)]
    have hz : k'.pmap.ppRef pp = 0 := by
      rw [hk'.pmap, href hne]
      have hlt := (k.pmap.ppRef pp).isLt
      have hv : k.pmap.ppRef pp = 65535#16 := BitVec.eq_of_toNat_eq (by
        show _ = 65535
        omega)
      rw [hv]
      decide
    exact (hnone pp hmapped).1 hz

end Crowd

/-- A program is loaded by `env_create`. -/
theorem consistent_create {k : Kernel}
    (hk : Kernel.next (.create ⟨[], 0#32⟩ 1#32) zeroKernel.envInit = some k) : Consistent k := by
  have hboot : Booted zeroKernel.envInit := ⟨zeroKernel, fun _ => rfl, rfl⟩
  have hfree : ∀ e ∈ zeroKernel.envInit.envFreeList, ¬zeroKernel.envInit.Live e :=
    fun e he hl => hl ((hboot.life.mem_free e).mp he)
  have hfit : Kern.Program.Fits ⟨[], 0#32⟩ := fun _ h => absurd h List.not_mem_nil
  obtain ⟨-, r, hr⟩ := Kernel.step_of_next _ _ _ hk
  have hspec : (Kernel.exec (.create ⟨[], 0#32⟩ 1#32)).wp (fun _ k' => Consistent k')
      (fun c => c = .wild ∨ ∃ m, c = .panic m) zeroKernel.envInit :=
    Sys.wp_seq (Kern.envCreate_spaces zeroKernel_spaces hfree hfit 1#32)
      (fun _ _ h => Sys.wp_pure.mpr (h.1.imp fun _ => And.right)) fun _ _ h => h.1.imp fun _ => And.right
  exact Sys.wp_ok hspec hr

/-- Switches, and allocations of the first environment with write permission. -/
def allocsOnly (ev : Event) (k : Kernel) : Option Kernel :=
  match ev with
  | .trap _ .timer => Kernel.next ev k
  | .trap _ (.ecall (.memAlloc envid _ perm)) =>
    if perm = pteW ∧ k.target envid true = some 0 ∧ (k.envs 0).status ≠ .free then
      Kernel.next ev k
    else none
  | _ => none

theorem countable_of_allocsOnly (ev : Event) (k k' : Kernel) (h : allocsOnly ev k = some k') :
    CountableStep k ev k' := by
  unfold allocsOnly at h
  split at h
  · exact ⟨trivial, trivial, Kernel.step_of_next _ k k' h⟩
  · split at h
    · rename_i hc
      obtain ⟨rfl, ht, hl⟩ := hc
      refine ⟨show FlagOnly pteW by decide, fun e he => ?_, Kernel.step_of_next _ k k' h⟩
      rw [← Option.some.inj (ht.symm.trans he)]
      exact hl
    · exact absurd h (by simp)
  · exact absurd h (by simp)

/-- The program gets the processor and allocates its first page. -/
theorem crowded_start : ∃ h k d pp, Run Consistent CountableStep h k ∧ Crowded d pp 0 k := by
  have hend : ((Kernel.next (.create ⟨[], 0#32⟩ 1#32) zeroKernel.envInit).bind fun k₀ =>
      (Run.follow allocsOnly [.trap zeroTf .timer,
        .trap zeroTf (.ecall (.memAlloc 0#32 (pageAddr 0) pteW))] k₀).map fun k =>
          (k.curenv, (k.envs 0).pgdir, (k.envs 0).pgdir.bind fun d =>
            entryFrame (k.pmap.pteOf d (pageAddr 0)), k.pmap.pageFreeList.length)) =
      some (some 0, some 1, some 10, 89) := by
    decide +kernel
  obtain ⟨k₀, hk₀, hend⟩ := Option.bind_eq_some_iff.mp hend
  obtain ⟨k, hk, heq⟩ := Option.map_eq_some_iff.mp hend
  simp only [Prod.mk.injEq] at heq
  obtain ⟨hcur, hdir, hpte, hlen⟩ := heq
  rw [hdir] at hpte
  refine ⟨_, k, 1, 10, Run.of_follow countable_of_allocsOnly (.start (consistent_create hk₀)) hk, hcur, hdir, ?_, ?_⟩
  · intro m hm
    rw [Nat.le_zero.mp hm]
    exact hpte
  · rw [hlen]
    decide

/-- In every run of countable calls, mapped frames are not free and no call fails
the assertion of `page_decref`. -/
theorem mapped_not_freed {h : List Event} {k : Kernel}
    (hrun : Run Consistent (fun k ev k' => ev.MemCall ∧ k.Countable ev ∧ k.Step ev k') h k) :
    k.NoneFreed ∧ ∀ ev : Event, ev.MemCall → k.Countable ev →
      Kernel.exec ev k ≠ .error (.assert "pp->pp_ref > 0") := by
  obtain ⟨L, hL⟩ := consistent_of_run hrun
  exact ⟨hL.noneFreed, fun ev hcall hcnt hstop =>
    Sys.wp_error (exec_spaces hL hcall hcnt) hstop rfl⟩

/-- The page that the program allocates is counted. -/
theorem mapped_not_freed_page : ∃ h k f,
    Run Consistent (fun k ev k' => ev.MemCall ∧ k.Countable ev ∧ k.Step ev k') h k ∧
      k.MappedBelow f ∧ k.pmap.ppRef f ≠ 0 ∧ f ∉ k.pmap.pageFreeList := by
  obtain ⟨h, k, d, pp, hrun, hk⟩ := crowded_start
  obtain ⟨L, hL⟩ := consistent_of_run hrun
  have hmapped : k.MappedBelow pp :=
    ⟨0, d, pageAddr 0, (hL.cur 0 hk.cur).1, hk.dir, pageAddr_lt (by omega),
      hk.mapped 0 le_rfl⟩
  exact ⟨h, k, pp, hrun, hmapped, (mapped_not_freed hrun).1 pp hmapped⟩

/-- A frame that is mapped at 65536 pages counts as unreferenced. -/
theorem mapped_not_freed_fails :
    ¬∀ h k, Run Consistent (fun k ev k' => ev.MemCall ∧ k.Step ev k') h k → k.NoneFreed := by
  intro hall
  obtain ⟨h, k, d, pp, hrun, hk⟩ := crowded_start
  obtain ⟨L, hL⟩ := consistent_of_run hrun
  have hrun₀ : Run Consistent (fun k ev k' => ev.MemCall ∧ k.Step ev k') h k :=
    hrun.mono fun _ _ _ hs => ⟨hs.1, hs.2.2⟩
  -- no run breaks the property, so the page numbers go up to 65535
  have hmany : ∀ n < 65536, ∃ h k,
      Run Consistent (fun k ev k' => ev.MemCall ∧ k.Step ev k') h k ∧ Spaces L k ∧
        Crowded d pp n k := by
    intro n
    induction n with
    | zero => exact fun _ => ⟨h, k, hrun₀, hL, hk⟩
    | succ n ih =>
      intro hn
      obtain ⟨h, k, hrun, hL, hk⟩ := ih (by omega)
      obtain ⟨k', hs, hbad | hgood⟩ := hk.step hL hn
      · have hcall : (mapAgain (n + 1)).MemCall := show FlagOnly pteW by decide
        exact absurd (hall _ _ (hrun.next ⟨hcall, hs⟩)) hbad
      · have hcall : (mapAgain (n + 1)).MemCall := show FlagOnly pteW by decide
        exact ⟨_, k', hrun.next ⟨hcall, hs⟩, hgood⟩
  obtain ⟨-, k, -, hL, hk⟩ := hmany 65535 (by omega)
  have hcount := hk.count hL (hL.cur 0 hk.cur).1 (by omega)
  have hlt := (k.pmap.ppRef pp).isLt
  omega

end RvMos
