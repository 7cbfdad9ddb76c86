/-
Permission words.

`page_insert` stores `page2ptx(pp) | perm | PTE_V`.  The number of the frame is
in bits 10 to 29 of that word, and the permission word is taken as the caller
gives it.  The kernel reads the frame back from bits 10 to 29, the machine from
bits 10 to 31.  So an entry leads the kernel to the frame it was made for exactly
when the permission word has no bit among 10 to 29 that the frame number lacks,
and it leads the machine there exactly when it has none among 10 to 31.
-/
import RvMos.Kern.Reach
import RvMos.Kern.Calls

namespace RvMos

open Lib

/-! ## Entries with any permission word -/

theorem mkPte_addr (pp : Frame) (perm : Word) :
    mkPte pp perm &&& addrMask = page2ptx pp ||| (perm &&& addrMask) := by
  have hp : page2ptx pp &&& addrMask = page2ptx pp := page2ptx_and pp
  have hv : pteV &&& addrMask = 0#32 := by decide
  rw [mkPte, BitVec.and_or_distrib_right, BitVec.and_or_distrib_right, hp, hv, BitVec.or_zero]

theorem paddr_toNat (w : Word) : (paddr w).toNat = w.toNat / 1024 % 1048576 * 4096 := by
  simp only [paddr, ptshift, pgshift, BitVec.toNat_shiftLeft, BitVec.toNat_ushiftRight,
    Nat.shiftLeft_eq, Nat.shiftRight_eq_div_pow]
  omega

theorem and_addrMask_toNat (w : Word) :
    (w &&& addrMask).toNat = w.toNat / 1024 % 1048576 * 1024 := by
  have hmask : addrMask.toNat = (2 ^ 20 - 1) <<< 10 := by decide
  have hform : w.toNat / 1024 % 1048576 * 1024 = (w.toNat >>> 10 % 2 ^ 20) <<< 10 := by
    simp only [Nat.shiftLeft_eq, Nat.shiftRight_eq_div_pow, Nat.reducePow]
  rw [BitVec.toNat_and, hmask, hform]
  apply Nat.eq_of_testBit_eq
  intro b
  rw [Nat.testBit_and, Nat.testBit_shiftLeft, Nat.testBit_shiftLeft, Nat.testBit_mod_two_pow,
    Nat.testBit_two_pow_sub_one, Nat.testBit_shiftRight]
  by_cases hb : 10 ≤ b
  · rw [show 10 + (b - 10) = b by omega]
    simp [hb, Bool.and_comm]
  · simp [hb]

/-- The address of a frame determines the address bits of the entry. -/
theorem paddr_eq_iff (w : Word) (pp : Frame) :
    paddr w = page2addr pp ↔ w &&& addrMask = page2ptx pp := by
  have hp := page2ptx_toNat pp
  have ha := page2addr_toNat pp
  have hw := paddr_toNat w
  have hm := and_addrMask_toNat w
  constructor
  · intro h
    apply BitVec.eq_of_toNat_eq
    rw [h, ha] at hw
    rw [hm, hp]
    omega
  · intro h
    apply BitVec.eq_of_toNat_eq
    rw [h, hp] at hm
    rw [hw, ha]
    omega

/-- `addr2page` of an address that an entry gives. -/
theorem addr2page_paddr_iff (w : Word) (pp : Frame) :
    addr2page (paddr w) = some pp ↔ paddr w = page2addr pp := by
  constructor
  · intro h
    unfold addr2page at h
    split at h
    · rename_i hlt
      have hv : (ppn (paddr w)).toNat = pp.val := congrArg Fin.val (Option.some.inj h)
      have hw := paddr_toNat w
      have ha := page2addr_toNat pp
      have hpp : pp.val < 65536 := pp.isLt
      have hlt' := (paddr w).isLt
      have hk : kernstart.toNat = 0x80000000 := by decide
      have hppn : (ppn (paddr w)).toNat =
          ((2 ^ 32 - 0x80000000 + (paddr w).toNat) % 2 ^ 32) / 4096 := by
        simp only [ppn, pgshift, BitVec.toNat_ushiftRight, BitVec.toNat_sub, hk,
          Nat.shiftRight_eq_div_pow]
      apply BitVec.eq_of_toNat_eq
      rw [hppn] at hv
      omega
    · exact absurd h (by simp)
  · intro h
    rw [h, addr2page_page2addr]

/-- The kernel reads the frame back exactly when no address bit is stray. -/
theorem addr2page_mkPte_iff (pp : Frame) (perm : Word) :
    addr2page (paddr (mkPte pp perm)) = some pp ↔ NoStray perm pp := by
  rw [addr2page_paddr_iff, paddr_eq_iff, mkPte_addr, or_eq_left_iff]
  rfl

namespace Pmap

variable {L : Layout} {s s' : Pmap} {d : Frame}

/-- A `page_insert` that succeeds leaves its word in the entry, whatever the
permission word is. -/
theorem pageInsert_entry (hI : s.Inv L) (hd : s.Dir L d) {va perm : Word} {pp : Frame}
    (hc : s.Counted L d va) (hr : s.pageInsert d pp va perm = .ok (.ok (), s')) :
    ∃ t, s'.mem d (pdx va) = mkPte t 0#32 ∧ s'.mem t (ptx va) = mkPte pp perm := by
  -- the last store is to an entry of a table, which is no directory
  have hlast : ∀ {t : Frame} {s₁ : Pmap}, d ≠ t → s₁.mem d (pdx va) = mkPte t 0#32 →
      s'.mem = (s₁.store ⟨t, ptx va⟩ (mkPte pp perm)).mem →
      ∃ t, s'.mem d (pdx va) = mkPte t 0#32 ∧ s'.mem t (ptx va) = mkPte pp perm := by
    intro t s₁ hne hm hs
    refine ⟨t, ?_, by rw [hs, store_mem_self]⟩
    rw [hs, store_mem_of_ne _ fun e => hne (congrArg Prod.fst e), hm]
  have htable : ∀ {t : Frame}, s.IsTable L t → d ≠ t := fun ht e =>
    hd.not_isTable hI.toForest (e ▸ ht)
  rcases pageInsert_cases hI hd pp perm hc with
    ⟨t, hm, ht, -, -, hr'⟩ | ⟨t, old, hm, ht, -, -, -, hr'⟩ | ⟨t, hm, ht, -, -, hr'⟩ |
    ⟨t, s₁, -, -, ha, hr'⟩ | ⟨-, -, -, hr'⟩ <;> rw [hr'] at hr
  · obtain rfl := (Prod.mk.inj (Except.ok.inj hr)).2
    exact hlast (htable ht) hm rfl
  · obtain rfl := (Prod.mk.inj (Except.ok.inj hr)).2
    refine @hlast t ((s.dropRef old).store ⟨t, ptx va⟩ 0#32) (htable ht) ?_ (incRef_mem _ _)
    rw [store_mem_of_ne _ fun e => htable ht (congrArg Prod.fst e)]
    exact hm
  · obtain rfl := (Prod.mk.inj (Except.ok.inj hr)).2
    exact hlast (htable ht) hm (incRef_mem _ _)
  · obtain rfl := (Prod.mk.inj (Except.ok.inj hr)).2
    have hdt : d ≠ t := hd.ne_of_base (hI.free_unref t ((hI.alloc ha).2.1 ▸ List.mem_cons_self)).1
    refine @hlast t ((s₁.store ⟨d, pdx va⟩ (mkPte t 0#32)).incRef t) hdt ?_ (incRef_mem _ _)
    rw [incRef_mem, store_mem_self]
  · exact absurd hr (by simp)

/-- `page_lookup` at an entry with any permission word. -/
theorem pageLookup_mkPte {va perm : Word} {t pp : Frame} (hm : s.mem d (pdx va) = mkPte t 0#32)
    (hw : s.mem t (ptx va) = mkPte pp perm) :
    (∃ p, s.pageLookup d va = .ok (some (pp, p))) ↔ NoStray perm pp := by
  rw [pageLookup_table hm, hw, if_pos (valid_mkPte pp perm), ← addr2page_mkPte_iff]
  cases hf : addr2page (paddr (mkPte pp perm)) with
  | none => simp
  | some f => simp

/-- What a `page_insert` that succeeds does to the counters: the frame is counted
once more unless it was there, and otherwise only the counter of a table that was
missing goes up. -/
structure CountsOnce (s : Pmap) (d : Frame) (va : Word) (pp : Frame) (s' : Pmap) : Prop where
  once : s'.ppRef pp = if entryFrame (s.pteOf d va) = some pp then s.ppRef pp else s.ppRef pp + 1
  only : ∀ f, f ≠ pp → (s.ppRef f).toNat < (s'.ppRef f).toNat →
    s.tableOf d (pdx va) = none ∧ s'.tableOf d (pdx va) = some f

theorem pageInsert_counts (hI : s.Inv L) (hd : s.Dir L d) {va perm : Word} {pp : Frame}
    (hc : s.Counted L d va) (hpp : pp ∉ s.pageFreeList)
    (hr : s.pageInsert d pp va perm = .ok (.ok (), s')) : s.CountsOnce d va pp s' := by
  rcases pageInsert_cases hI hd pp perm hc with
    ⟨t, hm, -, -, hf, hr'⟩ | ⟨t, old, hm, ht, hp, hne, hf, hr'⟩ | ⟨t, hm, -, -, h0, hr'⟩ |
    ⟨t, s₁, -, h0, ha, hr'⟩ | ⟨-, -, -, hr'⟩ <;> rw [hr'] at hr
  · obtain rfl := (Prod.mk.inj (Except.ok.inj hr)).2
    refine ⟨?_, fun f _ hlt => absurd hlt (Nat.lt_irrefl _)⟩
    rw [pteOf_of_table hm, if_pos hf, store_ppRef]
  · obtain rfl := (Prod.mk.inj (Except.ok.inj hr)).2
    refine ⟨?_, fun f hfp hlt => ?_⟩
    · rw [pteOf_of_table hm, if_neg fun e => hne (Option.some.inj (hf.symm.trans e)), incRef_self,
        store_ppRef, store_ppRef, dropRef_of_ne hne]
    · rw [incRef_of_ne (Ne.symm hfp), store_ppRef, store_ppRef] at hlt
      have hle := dropRef_le (ppRef_ne_zero hI ht hp hf) f
      omega
  · obtain rfl := (Prod.mk.inj (Except.ok.inj hr)).2
    refine ⟨?_, fun f hfp hlt => ?_⟩
    · rw [pteOf_of_table hm, h0, entryFrame_zero, if_neg (by simp), incRef_self, store_ppRef]
    · rw [incRef_of_ne (Ne.symm hfp), store_ppRef] at hlt
      exact absurd hlt (Nat.lt_irrefl _)
  · obtain rfl := (Prod.mk.inj (Except.ok.inj hr)).2
    obtain ⟨-, hl, href, -⟩ := hI.alloc ha
    have htp : t ≠ pp := by
      rintro rfl
      exact hpp (hl ▸ List.mem_cons_self)
    have hdt : d ≠ t := hd.ne_of_base (hI.free_unref t (hl ▸ List.mem_cons_self)).1
    refine ⟨?_, fun f hfp hlt => ?_⟩
    · rw [pteOf_of_clear h0, entryFrame_zero, if_neg (by simp), incRef_self, store_ppRef,
        incRef_of_ne htp, store_ppRef, href]
    · rw [incRef_of_ne (Ne.symm hfp), store_ppRef] at hlt
      refine ⟨by rw [tableOf, h0, entryFrame_zero], ?_⟩
      by_cases hft : t = f
      · rw [tableOf, incRef_mem, store_mem_of_ne _ fun e => hdt (congrArg Prod.fst e), incRef_mem,
          store_mem_self, entryFrame_mkPte t flagOnly_zero, hft]
      · rw [incRef_of_ne hft, store_ppRef, href] at hlt
        exact absurd hlt (Nat.lt_irrefl _)
  · exact absurd hr (by simp)

end Pmap

/-! ## The entry as the machine reads it -/

/-- The physical address behind an entry under Sv32: the page number is in bits
31 to 10, and addresses have 34 bits. -/
def sv32 (pte : Word) : BitVec 34 := pte.extractLsb' 10 22 ++ 0#12

/-- The flags of `mmu.h`. -/
def mmuFlags : Word :=
  pteDirty ||| pteLibrary ||| pteCow ||| pteD ||| pteA ||| pteG ||| pteU ||| pteX ||| pteW |||
    pteR ||| pteV

/-- A permission word built from these flags. -/
def OfFlags (perm : Word) : Prop := perm &&& ~~~mmuFlags = 0#32

theorem OfFlags.flagOnly {perm : Word} (h : OfFlags perm) : FlagOnly perm := by
  have hmask : ~~~flagMask = ~~~mmuFlags &&& ~~~flagMask := by decide
  rw [FlagOnly, hmask, ← BitVec.and_assoc, show perm &&& ~~~mmuFlags = 0#32 from h,
    BitVec.zero_and]

theorem sv32_toNat (w : Word) : (sv32 w).toNat = w.toNat / 1024 * 4096 := by
  have hlt := w.isLt
  simp only [sv32, BitVec.toNat_append, BitVec.extractLsb'_toNat, Nat.shiftRight_eq_div_pow,
    BitVec.toNat_ofNat, Nat.shiftLeft_eq]
  simp
  omega

/-- Without `PTE_DIRTY` the flags stay below the page number. -/
theorem OfFlags.shiftRight {perm : Word} (h : OfFlags perm) (hd : perm &&& pteDirty = 0#32) :
    perm >>> 10 = 0#32 := by
  have hmask : 0xfffffc00#32 = ~~~mmuFlags ||| pteDirty := by decide
  have hlow : perm &&& 0xfffffc00#32 = 0#32 := by
    rw [hmask, BitVec.and_or_distrib_left, show perm &&& ~~~mmuFlags = 0#32 from h, hd,
      BitVec.or_zero]
  apply BitVec.eq_of_getLsbD_eq
  intro i _
  rw [BitVec.getLsbD_ushiftRight, BitVec.getLsbD_zero]
  by_cases hi : i < 22
  · have hb : (perm &&& 0xfffffc00#32).getLsbD (10 + i) = false := by
      rw [hlow, BitVec.getLsbD_zero]
    have hone : (0xfffffc00#32).getLsbD (10 + i) = true := by
      interval_cases i <;> rfl
    rw [BitVec.getLsbD_and, hone, Bool.and_true] at hb
    exact hb
  · exact BitVec.getLsbD_of_ge perm _ (by omega)

theorem mkPte_shiftRight (pp : Frame) (perm : Word) :
    mkPte pp perm >>> 10 = page2ptx pp >>> 10 ||| perm >>> 10 := by
  have hv : pteV >>> 10 = 0#32 := by decide
  rw [mkPte, BitVec.ushiftRight_or_distrib, BitVec.ushiftRight_or_distrib, hv, BitVec.or_zero]

/-- The machine finds the frame exactly when the software flag at bit 30 is off. -/
theorem sv32_mkPte_iff (pp : Frame) {perm : Word} (h : OfFlags perm) :
    sv32 (mkPte pp perm) = (page2addr pp).setWidth 34 ↔ perm &&& pteDirty = 0#32 := by
  have hlt : pp.val < 65536 := pp.isLt
  have ha := page2addr_toNat pp
  have hp := page2ptx_toNat pp
  have hs := sv32_toNat (mkPte pp perm)
  have hset : ((page2addr pp).setWidth 34).toNat = (page2addr pp).toNat := by
    rw [BitVec.toNat_setWidth, Nat.mod_eq_of_lt]
    omega
  constructor
  · intro heq
    -- bit 30 of the entry is bit 32 of the address
    by_contra hne
    have hbit : perm.getLsbD 30 = true := (and_bit_ne_zero perm (by decide)).mp hne
    have hw : (mkPte pp perm).getLsbD 30 = true := by
      rw [mkPte, BitVec.getLsbD_or, BitVec.getLsbD_or, hbit, Bool.or_true, Bool.true_or]
    have hge : 2 ^ 30 ≤ (mkPte pp perm).toNat := Nat.ge_two_pow_of_testBit hw
    rw [heq, hset, ha] at hs
    omega
  · intro hz
    have hshift := congrArg BitVec.toNat (mkPte_shiftRight pp perm)
    rw [h.shiftRight hz, BitVec.or_zero, BitVec.toNat_ushiftRight, BitVec.toNat_ushiftRight,
      Nat.shiftRight_eq_div_pow, Nat.shiftRight_eq_div_pow, hp] at hshift
    apply BitVec.eq_of_toNat_eq
    rw [hs, hset, ha]
    omega

/-- What `page_insert` stores is read alike by the machine, by `PADDR(PTE_ADDR(pte))`
and by `page_lookup`, exactly when `PTE_DIRTY` is not among the flags. -/
theorem entry_read_alike {L : Layout} {s s' : Pmap} {d pp : Frame} {va perm : Word}
    (hI : s.Inv L) (hd : s.Dir L d) (hc : s.Counted L d va) (hperm : OfFlags perm)
    (hins : s.pageInsert d pp va perm = .ok (.ok (), s')) :
    (sv32 (s'.pteOf d va) = (page2addr pp).setWidth 34 ∧
      paddr (pteAddr (s'.pteOf d va)) = page2addr pp ∧
      ∃ p, s'.pageLookup d va = .ok (some (pp, p))) ↔ perm &&& pteDirty = 0#32 := by
  obtain ⟨t, hm, hw⟩ := Pmap.pageInsert_entry hI hd hc hins
  have hfl := hperm.flagOnly
  have hpte : s'.pteOf d va = mkPte pp perm := (Pmap.pteOf_of_table hm).trans hw
  have hlook := Pmap.pageLookup_mapped hm (by rw [hw]; exact entryFrame_mkPte pp hfl)
  rw [hpte, ← sv32_mkPte_iff pp hperm]
  refine ⟨fun h => h.1, fun h => ⟨h, ?_, _, hlook⟩⟩
  rw [pteAddr_mkPte pp hfl, paddr_page2ptx]

/-- A page that the user may read. -/
theorem entry_read_alike_user : ∃ s', Pmap.twoFree.pageInsert 0 5 0x400000#32 (pteR ||| pteU) =
      .ok (.ok (), s') ∧ sv32 (s'.pteOf 0 0x400000#32) = (page2addr 5).setWidth 34 ∧
    paddr (pteAddr (s'.pteOf 0 0x400000#32)) = page2addr 5 ∧
    ∃ p, s'.pageLookup 0 0x400000#32 = .ok (some (5, p)) := by
  have hI := Pmap.twoFree_start.histInv.inv
  obtain ⟨s', hins⟩ : ∃ s', Pmap.twoFree.pageInsert 0 5 0x400000#32 (pteR ||| pteU) =
    .ok (.ok (), s') := ⟨_, rfl⟩
  exact ⟨s', hins, (entry_read_alike hI
    (Pmap.dir_private Pmap.twoFreeKept (Finset.mem_singleton_self 0)) (Pmap.counted_private 0 _)
    (show OfFlags (pteR ||| pteU) by unfold OfFlags; decide) hins).mpr (by decide)⟩

/-- The flags of `dirty_block`: `PTE_DIRTY` moves the page out of memory. -/
theorem entry_read_alike_fails : ¬∀ (L : Layout) (s s' : Pmap) (d pp : Frame) (va perm : Word),
    s.Inv L → s.Dir L d → s.Counted L d va → OfFlags perm →
    s.pageInsert d pp va perm = .ok (.ok (), s') →
    sv32 (s'.pteOf d va) = (page2addr pp).setWidth 34 ∧
      paddr (pteAddr (s'.pteOf d va)) = page2addr pp ∧
      ∃ p, s'.pageLookup d va = .ok (some (pp, p)) := by
  intro hall
  have hI := Pmap.twoFree_start.histInv.inv
  have hd := Pmap.dir_private (s := Pmap.twoFree) Pmap.twoFreeKept (Finset.mem_singleton_self 0)
  have hc : Pmap.twoFree.Counted (Pmap.privateLayout {0} Pmap.twoFreeKept) 0 0x10000000#32 :=
    Pmap.counted_private 0 _
  obtain ⟨s', hins⟩ : ∃ s', Pmap.twoFree.pageInsert 0 5 0x10000000#32
    (pteD ||| pteDirty ||| pteR ||| pteW ||| pteU) = .ok (.ok (), s') := ⟨_, rfl⟩
  obtain ⟨t, hm, hw⟩ := Pmap.pageInsert_entry hI hd hc hins
  have hperm : OfFlags (pteD ||| pteDirty ||| pteR ||| pteW ||| pteU) := by
    unfold OfFlags
    decide
  have hread := (hall _ _ s' 0 5 0x10000000#32 _ hI hd hc hperm hins).1
  rw [Pmap.pteOf_of_table hm, hw, sv32_mkPte_iff 5 hperm] at hread
  exact absurd hread (by decide)

/-! ## Calls that map a page -/

/-- The call is to map the frame `pp` at `va` in the directory `d` of a live
environment: a frame that is allocated for it, or the frame at an address of a
live environment.  A message with a page is one when the receiver's table is there
or can be allocated. -/
def Kernel.Maps (k : Kernel) (d : Frame) (va : Word) (pp : Frame) (perm : Word) :
    Kern.Ecall → Prop
  | .memAlloc envid va' perm' => va' = va ∧ perm' = perm ∧
    ∃ e s, k.target envid true = some e ∧ k.Live e ∧ (k.envs e).pgdir = some d ∧
      k.pmap.pageAlloc = .ok (pp, s)
  | .memMap srcid srcva dstid va' perm' => va' = va ∧ perm' = perm ∧
    ∃ src dst ds p, k.target srcid true = some src ∧ k.Live src ∧ (k.envs src).pgdir = some ds ∧
      k.target dstid false = some dst ∧ k.Live dst ∧ (k.envs dst).pgdir = some d ∧
      k.pmap.pageLookup ds srcva = .ok (some (pp, p))
  | .ipcTrySend envid _ srcva perm' => srcva ≠ 0#32 ∧ perm' = perm ∧
    ∃ e c ds p, k.target envid false = some e ∧ (k.envs e).ipcDstva = va ∧
      (k.envs e).pgdir = some d ∧ k.curenv = some c ∧ (k.envs c).pgdir = some ds ∧
      k.pmap.pageLookup ds srcva = .ok (some (pp, p)) ∧
      (k.pmap.tableOf d (pdx va) ≠ none ∨ k.pmap.pageFreeList ≠ [])
  | _ => False

/-- The call does what `page_insert` does, in a state with the counters and the
entries of the one before. -/
structure Kernel.Inserts (k : Kernel) (d : Frame) (va : Word) (pp : Frame) (perm : Word)
    (L : Layout) (s s' : Pmap) : Prop where
  inv : s.Inv L
  dir : s.Dir L d
  counted : s.Counted L d va
  not_free : pp ∉ s.pageFreeList
  insert : s.pageInsert d pp va perm = .ok (.ok (), s')
  ppRef : s.ppRef = k.pmap.ppRef
  pte : s.pteOf d va = k.pmap.pteOf d va
  table : s.tableOf d (pdx va) = k.pmap.tableOf d (pdx va)

namespace Kern

open Sys

section Maps

variable {k k' : Kernel} {d pp : Frame} {va perm : Word} {L : Layout}

theorem returnsZero_ok {m : Kern Unit} {v : Ret} (h : returnsZero m k = .ok (.ok v, k')) :
    m k = .ok (.ok (), k') := by
  unfold returnsZero at h
  cases hm : m k with
  | error c =>
    rw [bind_of_stop hm] at h
    exact absurd h (by simp)
  | ok x =>
    obtain ⟨r, k₁⟩ := x
    cases r with
    | error e =>
      rw [bind_of_error hm] at h
      exact absurd h (by simp)
    | ok u =>
      rw [bind_of_ok hm] at h
      have hk : k₁ = k' := (Prod.mk.inj (Except.ok.inj h)).2
      rw [hk]

/-- The frame that `page_lookup` finds at an address of a live environment. -/
theorem lookup_frame (h : Spaces L k) {e : EnvIdx} (he : k.Live e) {ds : Frame}
    (hds : (k.envs e).pgdir = some ds) {srcva : Word} (hs : srcva < utop) {p : PtePtr}
    (hl : k.pmap.pageLookup ds srcva = .ok (some (pp, p))) :
    pp ∉ k.pmap.pageFreeList := by
  obtain ⟨d', hd', hdir, -, hc⟩ := h.own he hs
  obtain rfl := Option.some.inj (hds.symm.trans hd')
  rw [Pmap.pageLookup_eq h.inv.toForest hdir hc] at hl
  obtain ⟨f, hf, hmap⟩ := Option.bind_eq_some_iff.mp (Except.ok.inj hl)
  obtain ⟨t, -, heq⟩ := Option.map_eq_some_iff.mp hmap
  obtain rfl := (Prod.mk.inj heq).1
  exact (Pmap.not_free_of_mapped h.inv hdir hc hf).1

theorem eMemAlloc_inserts (h : Spaces L k) {envid : Word}
    (hm : k.Maps d va pp perm (.memAlloc envid va perm))
    (hret : eMemAlloc envid va perm k = .ok (.ok (), k')) :
    ∃ s, k.Inserts d va pp perm L s k'.pmap := by
  obtain ⟨-, -, e, s, he, hlive, hd, ha⟩ := hm
  cases hva : isIllegalVa va with
  | true =>
    rw [eMemAlloc_illegal hva] at hret
    exact absurd hret (by simp)
  | false =>
    obtain ⟨d', hd', hdir, hown, -⟩ := h.own hlive (lt_utop_of_legal hva)
    obtain rfl := Option.some.inj (hd.symm.trans hd')
    have hk := Pmap.kept_alloc h.inv ha
    obtain ⟨-, -, href, hmem, -, -, hb, -⟩ := h.inv.alloc ha
    have hdne : d ≠ pp := hdir.ne_of_base hb
    have hc := Pmap.counted_of_own hk.inv.toForest hown
    obtain ⟨r, s', hi⟩ := Pmap.pageInsert_total hk.inv (hk.dirs d hdir) pp perm hc
    rw [eMemAlloc_ok hva he hd ha hi] at hret
    obtain ⟨rfl, rfl⟩ := Prod.mk.inj (Except.ok.inj hret)
    refine ⟨s, hk.inv, hk.dirs d hdir, hc, Pmap.not_free_of_alloc h.inv ha, hi, href,
      Pmap.pteOf_alloc h.inv hdir ha va, ?_⟩
    unfold Pmap.tableOf
    rw [hmem, Function.update_of_ne hdne]

theorem eMemMap_inserts (h : Spaces L k) {srcid srcva dstid : Word}
    (hm : k.Maps d va pp perm (.memMap srcid srcva dstid va perm))
    (hret : eMemMap srcid srcva dstid va perm k = .ok (.ok (), k')) :
    k.Inserts d va pp perm L k.pmap k'.pmap := by
  obtain ⟨-, -, src, dst, ds, p, hsrc, hls, hds, hdst, hld, hd, hl⟩ := hm
  by_cases hva : (isIllegalVa srcva || isIllegalVa va) = true
  · rw [eMemMap_illegal hva] at hret
    exact absurd hret (by simp)
  · obtain ⟨hs, ht⟩ := Bool.or_eq_false_iff.mp (Bool.eq_false_iff.mpr hva)
    obtain ⟨d', hd', hdir, -, hc⟩ := h.own hld (lt_utop_of_legal ht)
    obtain rfl := Option.some.inj (hd.symm.trans hd')
    obtain ⟨r, s', hi⟩ := Pmap.pageInsert_total h.inv hdir pp perm hc
    rw [eMemMap_ok hs ht hsrc hdst hds hd hl hi] at hret
    obtain ⟨rfl, rfl⟩ := Prod.mk.inj (Except.ok.inj hret)
    exact ⟨h.inv, hdir, hc, lookup_frame h hls hds (lt_utop_of_legal hs) hl, hi, rfl, rfl, rfl⟩

/-- The receiver of a message can be queued. -/
theorem receiver_queued (h : LifeInv k) {e : EnvIdx} (hrecv : (k.envs e).ipcRecving ≠ 0#32) :
    ∃ q, k.envSchedList.insertTail e = some q := by
  obtain ⟨xs, hrep, hmem⟩ := h.sched
  have hnot : e ∉ xs := fun hx => by
    have hst := h.recving e hrecv
    exact absurd ((hmem e).mp hx) (by rw [hst]; simp)
  exact (hrep.insertTail hnot).imp fun _ hq => hq.1

theorem eIpcTrySend_inserts (h : LifeInv k) (hL : Spaces L k) {envid value srcva : Word}
    (hm : k.Maps d va pp perm (.ipcTrySend envid value srcva perm))
    (hret : eIpcTrySend envid value srcva perm k = .ok (.ok (), k')) :
    k.Inserts d va pp perm L k.pmap k'.pmap := by
  obtain ⟨h0, -, e, c, ds, p, he, hdst, hd, hc, hds, hl, htab⟩ := hm
  by_cases hva : isIllegalVa srcva = true
  · rw [eIpcTrySend_illegal ⟨h0, hva⟩] at hret
    exact absurd hret (by simp)
  · by_cases hrecv : (k.envs e).ipcRecving = 0#32
    · rw [eIpcTrySend_deaf (fun hn => hva hn.2) he hrecv] at hret
      exact absurd hret (by simp)
    · have hs := Bool.eq_false_iff.mpr hva
      obtain ⟨q, hq⟩ := receiver_queued h hrecv
      obtain ⟨hle, hlt⟩ := hL.recv e hrecv
      rw [hdst] at hlt
      obtain ⟨d', hd', hdir, -, hcnt⟩ := hL.own hle hlt
      obtain rfl := Option.some.inj (hd.symm.trans hd')
      obtain ⟨r, s', hi⟩ := Pmap.pageInsert_total hL.inv hdir pp perm hcnt
      rw [eIpcTrySend_page hs h0 he hrecv hc hq hds hd hl (by rw [hdst]; exact hi)] at hret
      obtain ⟨-, rfl⟩ := Prod.mk.inj (Except.ok.inj hret)
      refine ⟨hL.inv, hdir, hcnt, lookup_frame hL (hL.cur c hc).1 hds (lt_utop_of_legal hs) hl, ?_,
        rfl, rfl, rfl⟩
      -- the insertion, whose result the call ignores, finds its table
      rcases Pmap.pageInsert_cases hL.inv hdir pp perm hcnt with
        ⟨t, -, -, -, -, hr⟩ | ⟨t, old, -, -, -, -, -, hr⟩ | ⟨t, -, -, -, -, hr⟩ |
        ⟨t, s₁, -, -, -, hr⟩ | ⟨-, hz, hnil, -⟩
      · rw [hr] at hi ⊢
        rw [(Prod.mk.inj (Except.ok.inj hi)).2]
        rfl
      · rw [hr] at hi ⊢
        rw [(Prod.mk.inj (Except.ok.inj hi)).2]
        rfl
      · rw [hr] at hi ⊢
        rw [(Prod.mk.inj (Except.ok.inj hi)).2]
        rfl
      · rw [hr] at hi ⊢
        rw [(Prod.mk.inj (Except.ok.inj hi)).2]
        rfl
      · refine absurd htab (not_or.mpr ⟨not_not.mpr ?_, not_not.mpr hnil⟩)
        rw [Pmap.tableOf, hz, entryFrame_zero]

theorem ecall_inserts (h : Ordered k) {c : Ecall} (hm : k.Maps d va pp perm c) {v : Ret}
    (hret : ecall c k = .ok (.ok v, k')) : ∃ L s, k.Inserts d va pp perm L s k'.pmap := by
  obtain ⟨L, hL⟩ := h.spaces
  cases c with
  | memAlloc envid va' perm' =>
    obtain ⟨rfl, rfl, -⟩ := id hm
    exact ⟨L, eMemAlloc_inserts hL hm (returnsZero_ok hret)⟩
  | memMap srcid srcva dstid va' perm' =>
    obtain ⟨rfl, rfl, -⟩ := id hm
    exact ⟨L, _, eMemMap_inserts hL hm (returnsZero_ok hret)⟩
  | ipcTrySend envid value srcva perm' =>
    obtain ⟨-, rfl, -⟩ := id hm
    exact ⟨L, _, eIpcTrySend_inserts h.life hL hm (returnsZero_ok hret)⟩
  | _ => exact hm.elim

end Maps

end Kern

/-- In every orderly run, a call that maps a page and returns 0 leaves the frame it
mapped at the address, counted once more, exactly when the permission word has no
stray bit. -/
theorem perm_keeps_frame {h : List Event} {k k' : Kernel}
    (hrun : Run Started Kernel.OrderlyStep h k) (a : Trapframe) {c : Kern.Ecall} {d pp : Frame}
    {va perm : Word} (hm : k.Maps d va pp perm c)
    (hret : Kern.ecall c { k with active := a } = .ok (.ok (.value 0#32), k')) :
    ((∃ p, k'.pmap.pageLookup d va = .ok (some (pp, p))) ∧
      k.pmap.CountsOnce d va pp k'.pmap) ↔ NoStray perm pp := by
  have hord := Ordered.of_run hrun
  have hord' : Ordered { k with active := a } :=
    ⟨hord.life.congr (SameLife.of_envs rfl rfl rfl rfl), hord.spaces.active a⟩
  have hm' : Kernel.Maps { k with active := a } d va pp perm c := by
    cases c <;> exact hm
  obtain ⟨L, s, hins⟩ := Kern.ecall_inserts hord' hm' hret
  obtain ⟨t, hmem, hword⟩ := Pmap.pageInsert_entry hins.inv hins.dir hins.counted hins.insert
  have hcounts := Pmap.pageInsert_counts hins.inv hins.dir hins.counted hins.not_free hins.insert
  have hcounts' : k.pmap.CountsOnce d va pp k'.pmap := by
    refine ⟨?_, fun f hf hlt => ?_⟩
    · rw [hcounts.once, hins.pte, hins.ppRef]
    · have htab := hcounts.only f hf (by rw [hins.ppRef]; exact hlt)
      rw [hins.table] at htab
      exact htab
  rw [← Pmap.pageLookup_mkPte hmem hword]
  exact ⟨fun hp => hp.1, fun hp => ⟨hp, hcounts'⟩⟩

/-- The program of `zeroKernel` gets the processor and asks for a page. -/
theorem perm_start (perm : Word) :
    ∃ h k, Run Started Kernel.OrderlyStep h k ∧
      k.Maps 1 (pageAddr 0) 10 perm (.memAlloc 0#32 (pageAddr 0) perm) ∧
      Run.follow Kernel.orderlyNext [.create ⟨[], 0#32⟩ 1#32, .trap zeroTf .timer]
        zeroKernel.envInit = some k := by
  have hend : ((Run.follow Kernel.orderlyNext [.create ⟨[], 0#32⟩ 1#32, .trap zeroTf .timer]
      zeroKernel.envInit).map fun k => (k.curenv, (k.envs 0).status, (k.envs 0).pgdir,
        k.pmap.pageFreeList.head?)) = some (some 0, .runnable, some 1, some 10) := by
    decide +kernel
  obtain ⟨k, hk, heq⟩ := Option.map_eq_some_iff.mp hend
  simp only [Prod.mk.injEq] at heq
  obtain ⟨hcur, hst, hpg, hhead⟩ := heq
  refine ⟨_, k, Run.of_follow Kernel.orderlyStep_of_next (.start zeroKernel_started) hk,
    ⟨rfl, rfl, 0, ?_⟩, hk⟩
  obtain ⟨rest, hl⟩ := List.head?_eq_some_iff.mp hhead
  have halloc : ∃ s, k.pmap.pageAlloc = .ok (10, s) := by
    unfold Pmap.pageAlloc
    rw [hl]
    exact ⟨_, rfl⟩
  obtain ⟨s, hs⟩ := halloc
  exact ⟨s, hcur, Kernel.live_of_status hst (by simp), hpg, hs⟩

/-- A page that the user may write. -/
theorem perm_keeps_frame_user : ∃ h k k', Run Started Kernel.OrderlyStep h k ∧
    Kern.ecall (.memAlloc 0#32 (pageAddr 0) (pteW ||| pteU)) k = .ok (.ok (.value 0#32), k') ∧
    (∃ p, k'.pmap.pageLookup 1 (pageAddr 0) = .ok (some (10, p))) ∧
    k.pmap.CountsOnce 1 (pageAddr 0) 10 k'.pmap := by
  obtain ⟨h, k, hrun, hm, hk⟩ := perm_start (pteW ||| pteU)
  have hend : ((Run.follow Kernel.orderlyNext [.create ⟨[], 0#32⟩ 1#32, .trap zeroTf .timer]
      zeroKernel.envInit).bind fun k =>
        (Kern.returned (.memAlloc 0#32 (pageAddr 0) (pteW ||| pteU)) k).map Prod.fst) =
      some 0#32 := by
    decide +kernel
  rw [hk, Option.bind_some] at hend
  obtain ⟨⟨v, k'⟩, hret, rfl⟩ := Option.map_eq_some_iff.mp hend
  have hcall := Kern.ecall_of_returned hret
  exact ⟨h, k, k', hrun, hcall, (perm_keeps_frame hrun k.active hm hcall).mpr
    (show NoStray (pteW ||| pteU) 10 by decide)⟩

/-- Bit 10 of the permission word turns frame 10 into frame 11. -/
theorem perm_keeps_frame_fails : ¬∀ (h : List Event) (k k' : Kernel) (c : Kern.Ecall)
    (d pp : Frame) (va perm : Word), Run Started Kernel.Step h k → k.Maps d va pp perm c →
    Kern.ecall c k = .ok (.ok (.value 0#32), k') →
    (∃ p, k'.pmap.pageLookup d va = .ok (some (pp, p))) ∧ k.pmap.CountsOnce d va pp k'.pmap := by
  intro hall
  obtain ⟨h, k, hrun, hm, hk⟩ := perm_start 0x400#32
  have hend : ((Run.follow Kernel.orderlyNext [.create ⟨[], 0#32⟩ 1#32, .trap zeroTf .timer]
      zeroKernel.envInit).bind fun k =>
        (Kern.returned (.memAlloc 0#32 (pageAddr 0) 0x400#32) k).map fun r =>
          (r.1, (r.2.pmap.pageFound 1 (pageAddr 0)).map Prod.fst)) = some (0#32, some 11) := by
    decide +kernel
  rw [hk, Option.bind_some] at hend
  obtain ⟨⟨v, k'⟩, hret, heq⟩ := Option.map_eq_some_iff.mp hend
  obtain ⟨rfl, hlook⟩ := Prod.mk.inj heq
  obtain ⟨⟨p, hp⟩, -⟩ := hall h k k' _ 1 10 (pageAddr 0) 0x400#32
    (hrun.mono fun _ _ _ hs => hs.2.2) hm (Kern.ecall_of_returned hret)
  simp only [Pmap.pageFound, hp] at hlook
  have hframe : (10 : Frame) = 11 := Option.some.inj hlook
  exact absurd hframe (by decide)

end RvMos
