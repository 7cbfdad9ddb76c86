/-
The window on the page tables (`vpt` and `vpd` of `user/include/lib.h`).

The branch of `do_load_page` for `UVPT` gives every clear entry of the directory
a table, and maps table `i` at page `i` of the window.  The table of the window
is one of the tables; its own page is mapped last to the directory instead.
From then on the words below `UTOP` are read where they are: a later store to a
page table is seen in the window, since it is the same frame.
-/
import RvMos.Kern.Spaces

namespace RvMos

open Lib

/-! ## Reading through a directory -/

/-- The index in its page of the word at `va`. -/
def wordIdx (va : Word) : Index := Fin.ofNat 1024 ((va >>> 2) &&& 0x3ff#32).toNat

/-- A load of a user program with directory `d`; `none` is a fault. -/
def Pmap.userLoad (s : Pmap) (d : Frame) (va : Word) : Option Word :=
  match entryFrame (s.pteOf d va) with
  | none => none
  | some f =>
    if s.pteOf d va &&& (pteR ||| pteU) = pteR ||| pteU then some (s.mem f (wordIdx va)) else none

/-- `&vpt[VPN(va)]` -/
def vptSlot (va : Word) : Word := uvpt + (vpn va <<< 2)

/-- `&vpd[PDX(va)]` -/
def vpdSlot (va : Word) : Word :=
  uvpt + (BitVec.ofNat 32 (pdx uvpt).val <<< pgshift) + (BitVec.ofNat 32 (pdx va).val <<< 2)

theorem wordIdx_val (va : Word) : (wordIdx va).val = va.toNat / 4 % 1024 := by
  have hmask : (0x3ff#32).toNat = 2 ^ 10 - 1 := by decide
  simp only [wordIdx, Fin.ofNat, BitVec.toNat_and, BitVec.toNat_ushiftRight, hmask,
    Nat.and_two_pow_sub_one_eq_mod, Nat.shiftRight_eq_div_pow]
  omega

theorem pdx_uvpt : (pdx uvpt).val = 511 := by decide

theorem vptAddr_toNat (i : Index) : (Kern.vptAddr i).toNat = 0x7fc00000 + i.val * 4096 := by
  have hi := i.isLt
  unfold Kern.vptAddr uvpt pgshift
  simp only [BitVec.toNat_add, BitVec.toNat_shiftLeft, BitVec.toNat_ofNat, Nat.shiftLeft_eq]
  omega

theorem vptAddr_idx (i : Index) : pdx (Kern.vptAddr i) = pdx uvpt ∧ ptx (Kern.vptAddr i) = i := by
  have hv := vptAddr_toNat i
  have hi := i.isLt
  constructor
  · refine Fin.ext ?_
    rw [pdx_val, pdx_uvpt, hv]
    omega
  · refine Fin.ext ?_
    rw [ptx_val, hv]
    omega

/-- The word `vpt[VPN(va)]` is in page `PDX(va)` of the window. -/
theorem vptSlot_idx (va : Word) :
    pdx (vptSlot va) = pdx uvpt ∧ ptx (vptSlot va) = pdx va ∧ wordIdx (vptSlot va) = ptx va := by
  have hlt := va.isLt
  have hv : (vptSlot va).toNat = 0x7fc00000 + va.toNat / 4096 * 4 := by
    have hn := vpn_toNat va
    unfold vptSlot uvpt
    simp only [BitVec.toNat_add, BitVec.toNat_shiftLeft, BitVec.toNat_ofNat, Nat.shiftLeft_eq, hn]
    omega
  refine ⟨Fin.ext ?_, Fin.ext ?_, Fin.ext ?_⟩
  · rw [pdx_val, pdx_uvpt, hv]
    omega
  · rw [ptx_val, pdx_val, hv]
    omega
  · rw [wordIdx_val, ptx_val, hv]
    omega

/-- The words of `vpd` are in the page of the window that shows the directory. -/
theorem vpdSlot_idx (va : Word) : pdx (vpdSlot va) = pdx uvpt ∧ ptx (vpdSlot va) = pdx uvpt ∧
    wordIdx (vpdSlot va) = pdx va := by
  have hi := (pdx va).isLt
  have hv : (vpdSlot va).toNat = 0x7fc00000 + 511 * 4096 + (pdx va).val * 4 := by
    unfold vpdSlot uvpt pgshift
    have hu : (pdx 0x7fc00000#32).val = 511 := pdx_uvpt
    simp only [BitVec.toNat_add, BitVec.toNat_shiftLeft, BitVec.toNat_ofNat, Nat.shiftLeft_eq, hu]
    omega
  refine ⟨Fin.ext ?_, Fin.ext ?_, Fin.ext ?_⟩
  · rw [pdx_val, pdx_uvpt, hv]
    omega
  · rw [ptx_val, pdx_uvpt, hv]
    omega
  · rw [wordIdx_val, hv]
    omega

namespace Pmap

variable {s s' : Pmap} {d : Frame}

theorem userLoad_of_entry {va : Word} {t f : Frame} (hm : s.mem d (pdx va) = mkPte t 0#32)
    (he : s.mem t (ptx va) = mkPte f (pteR ||| pteU)) :
    s.userLoad d va = some (s.mem f (wordIdx va)) := by
  have hp : s.pteOf d va = mkPte f (pteR ||| pteU) := by rw [pteOf_of_table hm, he]
  have hbits : mkPte f (pteR ||| pteU) &&& (pteR ||| pteU) = pteR ||| pteU := by
    rw [mkPte_and_flags f _ (by decide) (by decide)]
    decide
  unfold userLoad
  rw [hp, entryFrame_mkPte f (by decide)]
  simp only [hbits, if_true]

/-! ## A filled window -/

/-- Every entry of `d` has its table `t i`, and the window shows the tables and
the directory. -/
structure Window (s : Pmap) (d : Frame) (t : Index → Frame) : Prop where
  entries : ∀ i, s.mem d i = mkPte (t i) 0#32
  dir : ∀ i, t i ≠ d
  apart : ∀ i, i ≠ pdx uvpt → t i ≠ t (pdx uvpt)
  slots : ∀ i, i ≠ pdx uvpt → s.mem (t (pdx uvpt)) i = mkPte (t i) (pteR ||| pteU)
  self : s.mem (t (pdx uvpt)) (pdx uvpt) = mkPte d (pteR ||| pteU)

section Window

variable {t : Index → Frame}

theorem pdx_ne_uvpt {va : Word} (hva : va < utop) : pdx va ≠ pdx uvpt := by
  have hlt : va.toNat < 0x7f400000 := hva
  intro h
  have hv := congrArg Fin.val h
  rw [pdx_val, pdx_uvpt] at hv
  omega

/-- The words of the window are the words of the tables. -/
theorem Window.reads (h : s.Window d t) {va : Word} (hva : va < utop) :
    ∃ p, s.pgdirWalk d va true = .ok (.ok (some p), s) ∧
      s.userLoad d (vptSlot va) = some (s.deref p) ∧
      s.userLoad d (vpdSlot va) = some (s.deref ⟨d, pdx va⟩) := by
  refine ⟨⟨t (pdx va), ptx va⟩, pgdirWalk_table true (h.entries _), ?_, ?_⟩
  · obtain ⟨hd, hp, hw⟩ := vptSlot_idx va
    rw [userLoad_of_entry (t := t (pdx uvpt)) (f := t (pdx va)), hw]
    · rfl
    · rw [hd]
      exact h.entries _
    · rw [hp]
      exact h.slots _ (pdx_ne_uvpt hva)
  · obtain ⟨hd, hp, hw⟩ := vpdSlot_idx va
    rw [userLoad_of_entry (t := t (pdx uvpt)) (f := d), hw]
    · rfl
    · rw [hd]
      exact h.entries _
    · rw [hp]
      exact h.self

/-- A word of a table below the window changes. -/
theorem Window.store (h : s.Window d t) {i j : Index} {w : Word} (hi : i ≠ pdx uvpt)
    (hmem : s'.mem = (s.store ⟨t i, j⟩ w).mem) : s'.Window d t := by
  have hd : ∀ i', s'.mem d i' = s.mem d i' := fun i' => by
    rw [hmem, store_mem_of_ne w fun e => h.dir i (congrArg Prod.fst e).symm]
  have hw : ∀ j', s'.mem (t (pdx uvpt)) j' = s.mem (t (pdx uvpt)) j' := fun j' => by
    rw [hmem, store_mem_of_ne w fun e => h.apart i hi (congrArg Prod.fst e).symm]
  exact ⟨fun i' => (hd i').trans (h.entries i'), h.dir, h.apart,
    fun i' hi' => (hw i').trans (h.slots i' hi'), (hw _).trans h.self⟩

theorem pageDecref_mem {pp : Frame} (h : s.pageDecref pp = .ok s') : s'.mem = s.mem := by
  by_cases h0 : s.ppRef pp = 0
  · unfold pageDecref at h
    rw [if_pos h0] at h
    exact absurd h (by simp)
  · rw [pageDecref_eq h0] at h
    rw [← Except.ok.inj h, dropRef_mem]

/-- A `page_remove` where there is a table stores at most one word of it. -/
theorem pageRemove_word {va : Word} {u : Frame} (hm : s.mem d (pdx va) = mkPte u 0#32)
    (h : s.pageRemove d va = .ok s') : ∃ w, s'.mem = (s.store ⟨u, ptx va⟩ w).mem := by
  have hsame : s.mem = (s.store ⟨u, ptx va⟩ (s.mem u (ptx va))).mem := by
    simp [Pmap.store]
  unfold pageRemove at h
  rw [pageLookup_table hm] at h
  split at h
  · simp at h
  · exact ⟨_, by rw [← Except.ok.inj h]; exact hsame⟩
  · rename_i hx
    split at hx
    · split at hx
      · exact absurd hx (by simp)
      · rename_i pp _
        simp only [Except.ok.injEq, Option.some.injEq, Prod.mk.injEq] at hx
        obtain ⟨rfl, rfl⟩ := hx
        cases hd : s.pageDecref pp with
        | error c => simp [hd, Except.map] at h
        | ok s₁ =>
          rw [hd] at h
          refine ⟨0#32, ?_⟩
          rw [← Except.ok.inj h]
          simp only [Pmap.store, pageDecref_mem hd]
    · exact absurd hx (by simp)

/-- So does a `page_insert`. -/
theorem pageInsert_word {va perm : Word} {u pp : Frame} {r : Except Errno Unit}
    (hm : s.mem d (pdx va) = mkPte u 0#32) (hdu : u ≠ d)
    (h : s.pageInsert d pp va perm = .ok (r, s')) :
    ∃ w, s'.mem = (s.store ⟨u, ptx va⟩ w).mem := by
  have hnew : ∀ {s₁ : Pmap} {w : Word}, s₁.mem = (s.store ⟨u, ptx va⟩ w).mem →
      s₁.pageInsertNew d pp va perm = .ok (r, s') →
      s'.mem = (s.store ⟨u, ptx va⟩ (mkPte pp perm)).mem := by
    intro s₁ w hs₁ hr
    have hm₁ : s₁.mem d (pdx va) = mkPte u 0#32 := by
      rw [hs₁, store_mem_of_ne w fun e => hdu (congrArg Prod.fst e).symm, hm]
    rw [pageInsertNew_table hm₁] at hr
    rw [← (Prod.mk.inj (Except.ok.inj hr)).2, incRef_mem]
    simp [Pmap.store, hs₁]
  have hself : s.mem = (s.store ⟨u, ptx va⟩ (s.mem u (ptx va))).mem := by
    simp [Pmap.store]
  unfold pageInsert at h
  rw [pgdirWalk_table false hm] at h
  simp only at h
  split at h
  · split at h
    · exact absurd h (by simp)
    · split at h
      · cases hr : s.pageRemove d va with
        | error c => simp [hr] at h
        | ok s₁ =>
          rw [hr] at h
          obtain ⟨w, hw⟩ := pageRemove_word hm hr
          exact ⟨_, hnew hw h⟩
      · exact ⟨_, by rw [← (Prod.mk.inj (Except.ok.inj h)).2]⟩
  · exact ⟨_, hnew hself h⟩

end Window

/-! ## Filling the window -/

/-- The number of entries of directory `d` without a table. -/
def clearEntries (s : Pmap) (d : Frame) : Nat :=
  (Finset.univ.filter fun i => s.mem d i = 0#32).card

/-- The state of the loop in `do_load_page`: `w` is the table of the window, and
the pages in `done` are mapped. -/
structure Filling (d w : Frame) (done : List Index) (s : Pmap) : Prop where
  entries : ∀ i, s.mem d i = 0#32 ∨ ∃ t, s.mem d i = mkPte t 0#32 ∧ t ≠ d ∧
    t ∉ s.pageFreeList ∧ (i ≠ pdx uvpt → t ≠ w)
  table : s.mem d (pdx uvpt) = mkPte w 0#32
  filled : ∀ i ∈ done, ∃ t, s.mem d i = mkPte t 0#32 ∧ s.mem w i = mkPte t (pteR ||| pteU)
  clear : ∀ i, i ∉ done → s.mem w i = 0#32
  dir : d ∉ s.pageFreeList
  nodup : s.pageFreeList.Nodup
  ref : s.ppRef w = if pdx uvpt ∈ done then 2 else 1
  room : s.clearEntries d ≤ s.pageFreeList.length

section Filling

variable {w : Frame} {done : List Index}

theorem Filling.window (h : Filling d w done s) : w ≠ d ∧ w ∉ s.pageFreeList := by
  rcases h.entries (pdx uvpt) with h0 | ⟨t, hm, hd, hf, -⟩
  · exact absurd (h.table.symm.trans h0) (mkPte_ne_zero w _)
  · rw [mkPte_inj (h.table.symm.trans hm)]
    exact ⟨hd, hf⟩

/-- A table for a clear entry: there is a frame for it. -/
theorem newTable_alloc {i : Index} (h0 : s.mem d i = 0#32)
    (hroom : s.clearEntries d ≤ s.pageFreeList.length) :
    ∃ t rest, s.pageFreeList = t :: rest ∧
      s.pageAlloc = .ok (t, ({ s with pageFreeList := rest } : Pmap).zeroPage t) := by
  have hpos : 0 < s.clearEntries d :=
    Finset.card_pos.mpr ⟨i, Finset.mem_filter.mpr ⟨Finset.mem_univ _, h0⟩⟩
  unfold pageAlloc
  cases hl : s.pageFreeList with
  | nil =>
    rw [hl, List.length_nil] at hroom
    omega
  | cons t rest => exact ⟨t, rest, rfl, rfl⟩

/-- One entry less is clear. -/
theorem clearEntries_store {i : Index} {t : Frame} (h0 : s.mem d i = 0#32)
    (hi : s'.mem d i = mkPte t 0#32) (hother : ∀ j, j ≠ i → s'.mem d j = s.mem d j) :
    s'.clearEntries d + 1 = s.clearEntries d := by
  have hmem : i ∈ Finset.univ.filter fun i => s.mem d i = 0#32 :=
    Finset.mem_filter.mpr ⟨Finset.mem_univ _, h0⟩
  have hset : (Finset.univ.filter fun i => s'.mem d i = 0#32) =
      (Finset.univ.filter fun i => s.mem d i = 0#32).erase i := by
    ext j
    simp only [Finset.mem_filter, Finset.mem_univ, true_and, Finset.mem_erase]
    by_cases hj : j = i
    · rw [hj, hi]
      exact ⟨fun h => absurd h (mkPte_ne_zero t _), fun h => absurd rfl h.1⟩
    · rw [hother j hj]
      exact ⟨fun h => ⟨hj, h⟩, And.right⟩
  unfold clearEntries
  rw [hset]
  exact Finset.card_erase_add_one hmem

theorem Filling.newTable (h : Filling d w done s) {i : Index} (h0 : s.mem d i = 0#32) {t : Frame}
    {rest : List Frame} (hl : s.pageFreeList = t :: rest)
    (hs' : s' = ((({ s with pageFreeList := rest } : Pmap).zeroPage t).incRef t).store ⟨d, i⟩
      (page2ptx t ||| pteV)) :
    Filling d w done s' ∧ s'.mem d i = mkPte t 0#32 := by
  have htf : t ∈ s.pageFreeList := by rw [hl]; exact List.mem_cons_self
  have htd : t ≠ d := fun e => h.dir (e ▸ htf)
  have htw : t ≠ w := fun e => h.window.2 (e ▸ htf)
  have hrest : s'.pageFreeList = rest := by rw [hs']; rfl
  have hsub : ∀ f, f ∉ s.pageFreeList → f ∉ s'.pageFreeList := fun f hf hf' =>
    hf (by rw [hl]; exact List.mem_cons_of_mem _ (hrest ▸ hf'))
  have hnd := h.nodup
  rw [hl, List.nodup_cons] at hnd
  have hself : s'.mem d i = mkPte t 0#32 := by rw [hs', store_mem_self, mkPte_zero]
  have hother : ∀ f j, f ≠ t → (f, j) ≠ (d, i) → s'.mem f j = s.mem f j := by
    intro f j hft hne
    rw [hs', store_mem_of_ne _ hne]
    show Function.update s.mem t _ f j = s.mem f j
    rw [Function.update_of_ne hft]
  have hdir : ∀ j, j ≠ i → s'.mem d j = s.mem d j := fun j hj =>
    hother d j (Ne.symm htd) fun e => hj (congrArg Prod.snd e)
  have hwin : ∀ j, s'.mem w j = s.mem w j := fun j =>
    hother w j (Ne.symm htw) fun e => h.window.1 (congrArg Prod.fst e)
  have hiw : i ≠ pdx uvpt := fun e => mkPte_ne_zero w _ (h.table.symm.trans (e ▸ h0))
  refine ⟨⟨fun j => ?_, ?_, fun j hj => ?_, fun j hj => (hwin j).trans (h.clear j hj), hsub d h.dir,
    hrest ▸ hnd.2, ?_, ?_⟩, hself⟩
  · by_cases hj : j = i
    · refine .inr ⟨t, by rw [hj]; exact hself, htd, ?_, fun _ => htw⟩
      rw [hrest]
      exact hnd.1
    · rw [hdir j hj]
      exact (h.entries j).imp id fun ⟨u, hm, hd, hf, hw⟩ => ⟨u, hm, hd, hsub u hf, hw⟩
  · rw [hdir _ (Ne.symm hiw)]
    exact h.table
  · obtain ⟨u, hm, hs⟩ := h.filled j hj
    have hji : j ≠ i := fun e => mkPte_ne_zero u _ (hm.symm.trans (e ▸ h0))
    exact ⟨u, by rw [hdir j hji]; exact hm, by rw [hwin]; exact hs⟩
  · rw [hs', store_ppRef, incRef_of_ne htw]
    exact h.ref
  · have hcount := clearEntries_store h0 hself hdir
    have hroom := h.room
    rw [hl, List.length_cons] at hroom
    rw [hrest]
    omega

/-- Between two states of the loop: tables went from the free list under entries
of `d`, and nothing changed but `d`, the table `w` of the window and frames that
were free. -/
structure Drawn (d w : Frame) (s s' : Pmap) : Prop where
  mem : ∀ f, f ∉ s.pageFreeList → f ≠ d → f ≠ w → s'.mem f = s.mem f
  free : s'.pageFreeList <:+ s.pageFreeList
  count : s'.clearEntries d + s.pageFreeList.length = s.clearEntries d + s'.pageFreeList.length

theorem Drawn.refl (d w : Frame) (s : Pmap) : Drawn d w s s :=
  ⟨fun _ _ _ _ => rfl, List.suffix_refl _, rfl⟩

theorem Drawn.trans {s'' : Pmap} (h : Drawn d w s s') (h' : Drawn d w s' s'') :
    Drawn d w s s'' := by
  refine ⟨fun f hf hd hw => ?_, h'.free.trans h.free, ?_⟩
  · rw [h'.mem f (fun hf' => hf (h.free.subset hf')) hd hw, h.mem f hf hd hw]
  · have h₁ := h.count
    have h₂ := h'.count
    omega

/-- A store to the table of the window. -/
theorem Drawn.of_window (hwd : w ≠ d) (hm : ∀ f, f ≠ w → s'.mem f = s.mem f)
    (hf : s'.pageFreeList = s.pageFreeList) : Drawn d w s s' := by
  refine ⟨fun f _ _ hw => hm f hw, hf ▸ List.suffix_refl _, ?_⟩
  unfold clearEntries
  rw [hm d (Ne.symm hwd), hf]

theorem Drawn.newTable {i : Index} (hd : d ∉ s.pageFreeList) (h0 : s.mem d i = 0#32) {t : Frame}
    {rest : List Frame} (hl : s.pageFreeList = t :: rest)
    (hs' : s' = ((({ s with pageFreeList := rest } : Pmap).zeroPage t).incRef t).store ⟨d, i⟩
      (page2ptx t ||| pteV)) : Drawn d w s s' := by
  have htf : t ∈ s.pageFreeList := by rw [hl]; exact List.mem_cons_self
  have hrest : s'.pageFreeList = rest := by rw [hs']; rfl
  have hother : ∀ f j, f ≠ t → (f, j) ≠ (d, i) → s'.mem f j = s.mem f j := by
    intro f j hft hne
    rw [hs', store_mem_of_ne _ hne]
    show Function.update s.mem t _ f j = s.mem f j
    rw [Function.update_of_ne hft]
  have hself : s'.mem d i = mkPte t 0#32 := by rw [hs', store_mem_self, mkPte_zero]
  have hdir : ∀ j, j ≠ i → s'.mem d j = s.mem d j := fun j hj =>
    hother d j (fun e => hd (e ▸ htf)) fun e => hj (congrArg Prod.snd e)
  refine ⟨fun f hf hfd _ => ?_, ?_, ?_⟩
  · funext j
    exact hother f j (fun e => hf (e ▸ htf)) fun e => hfd (congrArg Prod.fst e)
  · rw [hrest, hl]
    exact List.suffix_cons t rest
  · have hcount := clearEntries_store h0 hself hdir
    rw [hrest, hl, List.length_cons]
    omega

/-- The first table that the fault takes is that of the window. -/
theorem Filling.start {L : Layout} (hI : s.Inv L) (hd : s.Dir L d)
    (h0 : s.mem d (pdx uvpt) = 0#32) (hroom : s.clearEntries d ≤ s.pageFreeList.length)
    {rest : List Frame} (hl : s.pageFreeList = w :: rest)
    (hs' : s' = ((({ s with pageFreeList := rest } : Pmap).zeroPage w).incRef w).store
      ⟨d, pdx uvpt⟩ (page2ptx w ||| pteV)) : Filling d w [] s' := by
  have hwf : w ∈ s.pageFreeList := by rw [hl]; exact List.mem_cons_self
  have hdf := hd.not_free hI
  have hwd : w ≠ d := fun e => hdf (e ▸ hwf)
  have hrest : s'.pageFreeList = rest := by rw [hs']; rfl
  have hnd := hI.free_nodup
  rw [hl, List.nodup_cons] at hnd
  have hself : s'.mem d (pdx uvpt) = mkPte w 0#32 := by
    rw [hs', store_mem_self, mkPte_zero]
  have hother : ∀ i, i ≠ pdx uvpt → s'.mem d i = s.mem d i := by
    intro i hi
    have hne : (d, i) ≠ (d, pdx uvpt) := fun e => hi (congrArg Prod.snd e)
    rw [hs', store_mem_of_ne _ hne]
    show Function.update s.mem w _ d i = s.mem d i
    rw [Function.update_of_ne (Ne.symm hwd)]
  refine ⟨fun i => ?_, hself, fun _ h => absurd h List.not_mem_nil, fun i _ => ?_, fun hf => hdf ?_,
    hrest ▸ hnd.2, ?_, ?_⟩
  · by_cases hi : i = pdx uvpt
    · refine .inr ⟨w, by rw [hi]; exact hself, hwd, ?_, fun hne => absurd hi hne⟩
      rw [hrest]
      exact hnd.1
    · rw [hother i hi]
      rcases hd.entry hI.toForest i with ⟨-, hz⟩ | ⟨t, hm, ht⟩
      · exact .inl hz
      · have htf := table_not_free hI ht
        refine .inr ⟨t, hm, fun e => hd.not_isTable hI.toForest (e ▸ ht), fun hf => htf ?_,
          fun _ e => htf (e ▸ hwf)⟩
        rw [hl]
        exact List.mem_cons_of_mem _ (hrest ▸ hf)
  · rw [hs', store_mem_of_ne _ fun e => hwd (congrArg Prod.fst e)]
    show Function.update s.mem w (fun _ => 0#32) w i = 0#32
    rw [Function.update_self]
  · rw [hl]
    exact List.mem_cons_of_mem _ (hrest ▸ hf)
  · have hz : s.ppRef w = 0#16 := by
      obtain ⟨hb, hr⟩ := hI.free_unref w hwf
      refine BitVec.eq_of_toNat_eq ?_
      rw [hI.count w, hb, hr]
      rfl
    rw [hs', store_ppRef, incRef_self]
    show s.ppRef w + 1 = _
    rw [hz, if_neg List.not_mem_nil]
    decide
  · have hcount := clearEntries_store h0 hself hother
    rw [hl, List.length_cons] at hroom
    rw [hrest]
    omega

/-- Table `i` goes to page `i` of the window. -/
theorem Filling.insert (h : Filling d w done s) {i : Index} (hi : i ∉ done) {t : Frame}
    (hm : s.mem d i = mkPte t 0#32) :
    s.pageInsert d t (Kern.vptAddr i) (pteR ||| pteU) =
        .ok (.ok (), (s.store ⟨w, i⟩ (mkPte t (pteR ||| pteU))).incRef t) ∧
      Filling d w (i :: done) ((s.store ⟨w, i⟩ (mkPte t (pteR ||| pteU))).incRef t) := by
  obtain ⟨hd, hp⟩ := vptAddr_idx i
  obtain ⟨hwd, hwf⟩ := h.window
  have htab : s.mem d (pdx (Kern.vptAddr i)) = mkPte w 0#32 := by rw [hd]; exact h.table
  have hdir : ∀ j, (s.store ⟨w, i⟩ (mkPte t (pteR ||| pteU))).mem d j = s.mem d j := fun j =>
    store_mem_of_ne _ fun e => hwd (congrArg Prod.fst e).symm
  have hwin : ∀ j, j ≠ i → (s.store ⟨w, i⟩ (mkPte t (pteR ||| pteU))).mem w j = s.mem w j :=
    fun j hj => store_mem_of_ne _ fun e => hj (congrArg Prod.snd e)
  constructor
  · have hv : ¬valid (s.deref ⟨w, i⟩) = true := by
      show ¬valid (s.mem w i) = true
      rw [h.clear i hi, valid_zero]
      simp
    unfold pageInsert
    rw [pgdirWalk_table false htab]
    simp only [hp, if_neg hv, pageInsertNew_table htab]
  · refine ⟨fun j => ?_, ?_, fun j hj => ?_, fun j hj => ?_, h.dir, h.nodup, ?_, ?_⟩
    · rw [incRef_mem, hdir]
      exact h.entries j
    · rw [incRef_mem, hdir]
      exact h.table
    · rw [incRef_mem, hdir]
      by_cases hji : j = i
      · rw [hji, store_mem_self]
        exact ⟨t, hm, rfl⟩
      · rw [hwin j hji]
        exact h.filled j ((List.mem_cons.mp hj).resolve_left hji)
    · rw [List.mem_cons, not_or] at hj
      rw [incRef_mem, hwin j hj.1]
      exact h.clear j hj.2
    · by_cases hiu : i = pdx uvpt
      · -- the window shows its own table for now
        have htw : t = w := mkPte_inj (hm.symm.trans (hiu ▸ h.table))
        have href := h.ref
        rw [if_neg (hiu ▸ hi)] at href
        rw [htw, incRef_self, store_ppRef, href, if_pos (by rw [hiu]; exact List.mem_cons_self)]
        decide
      · have htw : t ≠ w := by
          rcases h.entries i with h0 | ⟨u, hu, -, -, hw⟩
          · exact absurd (hm.symm.trans h0) (mkPte_ne_zero t _)
          · rw [mkPte_inj (hm.symm.trans hu)]
            exact hw hiu
        rw [incRef_of_ne htw, store_ppRef, h.ref]
        simp only [List.mem_cons, Ne.symm hiu, false_or]
    · have hsame : ((s.store ⟨w, i⟩ (mkPte t (pteR ||| pteU))).incRef t).clearEntries d =
          s.clearEntries d := by
        unfold clearEntries
        simp only [incRef_mem, hdir]
      rw [hsame]
      exact h.room

/-- The last insertion puts the directory in the place of the window's table. -/
theorem Filling.finish (h : Filling d w done s) (hall : ∀ i, i ∈ done) :
    ∃ s' t, s.pageInsert d d (Kern.vptAddr (pdx uvpt)) (pteR ||| pteU) = .ok (.ok (), s') ∧
      s'.Window d t ∧ Drawn d w s s' := by
  obtain ⟨hd, hp⟩ := vptAddr_idx (pdx uvpt)
  obtain ⟨hwd, hwf⟩ := h.window
  have htab : s.mem d (pdx (Kern.vptAddr (pdx uvpt))) = mkPte w 0#32 := by rw [hd]; exact h.table
  have hslot : s.mem w (pdx uvpt) = mkPte w (pteR ||| pteU) := by
    obtain ⟨t, hm, hs⟩ := h.filled _ (hall (pdx uvpt))
    rw [hs, mkPte_inj (h.table.symm.trans hm)]
  have href : s.ppRef w = 2 := by rw [h.ref, if_pos (hall _)]
  have hv : valid (s.deref ⟨w, pdx uvpt⟩) = true := by
    show valid (s.mem w (pdx uvpt)) = true
    rw [hslot]
    exact valid_mkPte w _
  have hold : addr2page (paddr (pteAddr (s.deref ⟨w, pdx uvpt⟩))) = some w := by
    show addr2page (paddr (pteAddr (s.mem w (pdx uvpt)))) = some w
    rw [hslot, addr2page_mkPte w (by decide)]
  have hrem : s.pageRemove d (Kern.vptAddr (pdx uvpt)) =
      .ok ((s.dropRef w).store ⟨w, pdx uvpt⟩ 0#32) := by
    unfold pageRemove
    rw [pageLookup_mapped htab (f := w) (by rw [hp, hslot, entryFrame_mkPte w (by decide)])]
    simp only [pageDecref_eq (show s.ppRef w ≠ 0 by rw [href]; decide), Except.map, hp]
  have htab' : ((s.dropRef w).store ⟨w, pdx uvpt⟩ 0#32).mem d (pdx (Kern.vptAddr (pdx uvpt))) =
      mkPte w 0#32 := by
    rw [store_mem_of_ne _ fun e => hwd (congrArg Prod.fst e).symm, dropRef_mem, htab]
  refine ⟨(((s.dropRef w).store ⟨w, pdx uvpt⟩ 0#32).store ⟨w, pdx uvpt⟩
    (mkPte d (pteR ||| pteU))).incRef d, fun i => (entryFrame (s.mem d i)).getD d, ?_, ?_, ?_⟩
  · unfold pageInsert
    rw [pgdirWalk_table false htab]
    simp only [hp, if_pos hv, hold, ne_eq, hwd, not_false_eq_true, if_true, hrem,
      pageInsertNew_table htab']
  · have hmem : ∀ f j, (f, j) ≠ (w, pdx uvpt) → ((((s.dropRef w).store ⟨w, pdx uvpt⟩ 0#32).store
        ⟨w, pdx uvpt⟩ (mkPte d (pteR ||| pteU))).incRef d).mem f j = s.mem f j := by
      intro f j hne
      rw [incRef_mem, store_mem_of_ne _ hne, store_mem_of_ne _ hne, dropRef_mem]
    have hdir : ∀ i, (d, i) ≠ (w, pdx uvpt) := fun i e => hwd (congrArg Prod.fst e).symm
    have ht : ∀ i, ∃ t, s.mem d i = mkPte t 0#32 ∧ (entryFrame (s.mem d i)).getD d = t ∧ t ≠ d ∧
        (i ≠ pdx uvpt → t ≠ w) := by
      intro i
      rcases h.entries i with h0 | ⟨t, hm, htd, -, htw⟩
      · obtain ⟨t, hm, -⟩ := h.filled i (hall i)
        exact absurd (hm.symm.trans h0) (mkPte_ne_zero t _)
      · refine ⟨t, hm, ?_, htd, htw⟩
        rw [hm, entryFrame_mkPte t flagOnly_zero]
        rfl
    have hwin : (entryFrame (s.mem d (pdx uvpt))).getD d = w := by
      rw [h.table, entryFrame_mkPte w flagOnly_zero]
      rfl
    refine ⟨fun i => ?_, fun i => ?_, fun i hi => ?_, fun i hi => ?_, ?_⟩
    · obtain ⟨t, hm, he, -⟩ := ht i
      rw [hmem d i (hdir i), he, hm]
    · obtain ⟨t, -, he, htd, -⟩ := ht i
      rw [he]
      exact htd
    · obtain ⟨t, -, he, -, htw⟩ := ht i
      rw [he, hwin]
      exact htw hi
    · obtain ⟨t, hm, he, -⟩ := ht i
      obtain ⟨u, hu, hs⟩ := h.filled i (hall i)
      rw [hwin, he, hmem w i fun e => hi (congrArg Prod.snd e), hs,
        mkPte_inj (hu.symm.trans hm)]
    · rw [hwin, incRef_mem, store_mem_self]
  · refine Drawn.of_window hwd (fun f hf => ?_) ?_
    · funext j
      have hne : (f, j) ≠ (w, pdx uvpt) := fun e => hf (congrArg Prod.fst e)
      rw [incRef_mem, store_mem_of_ne _ hne, store_mem_of_ne _ hne, dropRef_mem]
    · show (s.dropRef w).pageFreeList = s.pageFreeList
      unfold dropRef
      rw [href]
      rfl

end Filling

end Pmap

namespace Kern

open Sys

section Loop

variable {k : Kernel} {d w : Frame} {done : List Index}

/-- `page_alloc` with a frame at hand. -/
theorem wp_newTable {i : Index} {t : Frame} {s : Pmap} (msg : String)
    (ha : k.pmap.pageAlloc = .ok (t, s)) {Q : Except Errno Frame → Kernel → Prop}
    {E : Halt → Prop}
    (hQ : Q (.ok t) (k.setPmap ((s.incRef t).store ⟨d, i⟩ (page2ptx t ||| pteV)))) :
    (newTable d i msg).wp Q E k := by
  unfold newTable orPanic
  rw [wp_bind]
  refine wp_attempt_seq (R := fun r k' => r = .ok t ∧ k' = k.setPmap s) ?_ fun r k' hr => ?_
  · refine wp_onPmap.mpr ⟨fun c hm => ?_, fun r p hm => ?_⟩
    · rw [ha] at hm
      exact absurd hm (by simp)
    · rw [ha] at hm
      obtain ⟨rfl, rfl⟩ := Prod.mk.inj (Except.ok.inj hm)
      exact ⟨rfl, rfl⟩
  · obtain ⟨rfl, rfl⟩ := hr
    simp only
    rw [wp_pure]
    simp only
    rw [wp_modify_bind, wp_pure]
    exact hQ

/-- The table of round `i`. -/
theorem vptTable_filling (h : Pmap.Filling d w done k.pmap) (i : Index) {E : Halt → Prop} :
    (vptTable d i).wp (fun r k' => ∃ s t, r = .ok t ∧ k' = k.setPmap s ∧
      Pmap.Filling d w done s ∧ s.mem d i = mkPte t 0#32 ∧ Pmap.Drawn d w k.pmap s) E k := by
  unfold vptTable
  rw [wp_get_bind]
  rcases h.entries i with h0 | ⟨t, hm, -⟩
  · rw [if_pos (by rw [h0]; decide)]
    obtain ⟨t, rest, hl, ha⟩ := Pmap.newTable_alloc h0 h.room
    obtain ⟨hf, hm⟩ := h.newTable h0 hl rfl
    exact wp_newTable _ ha ⟨_, t, rfl, rfl, hf, hm, Pmap.Drawn.newTable h.dir h0 hl rfl⟩
  · have hne : paddr (pteAddr (k.pmap.mem d i)) ≠ 0#32 := by
      rw [hm, pteAddr_mkPte t flagOnly_zero, paddr_page2ptx]
      intro h0
      have hv := page2addr_toNat t
      rw [h0] at hv
      have hz : (0#32).toNat = 0 := rfl
      omega
    rw [if_neg hne, hm, Pmap.addr2page_mkPte t flagOnly_zero]
    exact wp_pure.mpr ⟨k.pmap, t, rfl, rfl, h, hm, Pmap.Drawn.refl _ _ _⟩

/-- An insertion whose outcome is known. -/
theorem wp_insert_of_eq {pp : Frame} {va perm : Word} {s : Pmap} {E : Halt → Prop}
    (h : k.pmap.pageInsert d pp va perm = .ok (.ok (), s)) :
    (do
      let _ ← attempt (pageInsert (some d) pp va perm)
      pure () : Kern Unit).wp (fun r k' => r = .ok () ∧ k' = k.setPmap s) E k := by
  refine wp_attempt_seq (R := fun _ k' => k' = k.setPmap s) ?_ fun _ _ hk =>
    wp_pure.mpr ⟨rfl, hk⟩
  unfold pageInsert dirOf
  rw [wp_bind, wp_pure]
  refine wp_onPmap.mpr ⟨fun c hm => ?_, fun r p hm => ?_⟩
  · rw [h] at hm
    exact absurd hm (by simp)
  · rw [h] at hm
    rw [(Prod.mk.inj (Except.ok.inj hm)).2]

theorem vptRound_filling (h : Pmap.Filling d w done k.pmap) {i : Index} (hi : i ∉ done)
    {E : Halt → Prop} :
    (vptRound d i).wp (fun r k' => r = .ok () ∧ ∃ s, k' = k.setPmap s ∧
      Pmap.Filling d w (i :: done) s ∧ Pmap.Drawn d w k.pmap s) E k := by
  unfold vptRound
  refine wp_seq (vptTable_filling h i) (fun t k₁ hk₁ => ?_) fun _ _ hk₁ => ?_
  · obtain ⟨s, t', ht, rfl, h₁, hm, hdraw⟩ := hk₁
    obtain rfl := Except.ok.inj ht
    obtain ⟨hins, h₂⟩ := h₁.insert hi hm
    refine wp_conseq (wp_insert_of_eq (k := k.setPmap s) hins) fun r k₂ hk₂ => ?_
    refine ⟨hk₂.1, _, hk₂.2, h₂, hdraw.trans (.of_window h₁.window.1 (fun f hf => ?_) rfl)⟩
    funext j
    rw [Pmap.incRef_mem, Pmap.store_mem_of_ne _ fun e => hf (congrArg Prod.fst e)]
  · obtain ⟨s, t, he, -⟩ := hk₁
    exact absurd he (by simp)

theorem fillVpt_filling (is : List Index) {k : Kernel} {done : List Index}
    (h : Pmap.Filling d w done k.pmap) (hnd : is.Nodup) (hdis : ∀ i ∈ is, i ∉ done)
    {E : Halt → Prop} :
    (each (vptRound d) is).wp (fun r k' => r = .ok () ∧ ∃ s done', k' = k.setPmap s ∧
      Pmap.Filling d w done' s ∧ (∀ i, i ∈ is ∨ i ∈ done → i ∈ done') ∧
      Pmap.Drawn d w k.pmap s) E k := by
  induction is generalizing k done with
  | nil =>
    exact wp_pure.mpr ⟨rfl, k.pmap, done, rfl, h, fun i hi => hi.resolve_left List.not_mem_nil,
      Pmap.Drawn.refl _ _ _⟩
  | cons i is ih =>
    obtain ⟨hi, hnd⟩ := List.nodup_cons.mp hnd
    rw [each]
    refine wp_seq (vptRound_filling h (hdis i List.mem_cons_self)) (fun _ k₁ hk₁ => ?_)
      fun e _ he => absurd he.1 (by simp)
    obtain ⟨-, s, rfl, h₁, hdraw⟩ := hk₁
    refine wp_conseq (ih (k := k.setPmap s) h₁ hnd fun j hj => ?_) fun r k₂ hk₂ => ?_
    · rw [List.mem_cons, not_or]
      exact ⟨fun e => hi (e ▸ hj), hdis j (List.mem_cons_of_mem _ hj)⟩
    · obtain ⟨rfl, s₂, done', rfl, h₂, hall, hdraw'⟩ := hk₂
      refine ⟨rfl, s₂, done', rfl, h₂, fun j hj => hall j ?_, hdraw.trans hdraw'⟩
      rcases hj with hj | hj
      · rcases List.mem_cons.mp hj with rfl | hj
        · exact .inr List.mem_cons_self
        · exact .inl hj
      · exact .inr (List.mem_cons_of_mem _ hj)

/-- A fault in the window fills it, with tables from the free list. -/
theorem loadVpt_fills {L : Layout} {c : EnvIdx} (h : Spaces L k) (hc : k.curenv = some c)
    (hd : (k.envs c).pgdir = some d) (h0 : k.pmap.mem d (pdx uvpt) = 0#32)
    (hroom : k.pmap.clearEntries d ≤ k.pmap.pageFreeList.length) :
    loadVpt.wp (fun r k' => r = .ok () ∧ ∃ s t w, k' = k.setPmap s ∧ s.Window d t ∧
      w ∈ k.pmap.pageFreeList ∧ Pmap.Drawn d w k.pmap s) (fun _ => False) k := by
  obtain ⟨d', hd', hdir, -⟩ := h.dir c (h.cur c hc).1
  obtain rfl := Option.some.inj (hd.symm.trans hd')
  obtain ⟨w, rest, hl, ha⟩ := Pmap.newTable_alloc h0 hroom
  have hstart := Pmap.Filling.start h.inv hdir h0 hroom hl rfl
  unfold loadVpt curenv
  rw [wp_bind, wp_get_bind]
  simp only [hc, wp_pure]
  rw [wp_get_bind, hd]
  unfold dirOf ensureVpt
  rw [wp_bind, wp_pure]
  simp only
  rw [wp_bind, wp_get_bind, if_pos h0, wp_bind]
  refine wp_newTable _ ha ?_
  simp only
  rw [wp_pure]
  simp only
  have hall : ∀ i, i ∈ List.finRange 1024 := List.mem_finRange
  have hnd : (List.finRange 1024).Nodup := List.nodup_finRange 1024
  unfold fillVpt
  generalize List.finRange 1024 = is at hall hnd ⊢
  refine wp_seq (fillVpt_filling is hstart hnd fun _ _ => List.not_mem_nil) (fun _ k₁ hk₁ => ?_)
    fun e _ he => absurd he.1 (by simp)
  obtain ⟨-, s, done, rfl, h₁, hdone, hdraw⟩ := hk₁
  obtain ⟨s', t, hins, hwin, hdraw'⟩ := h₁.finish fun i => hdone i (.inl (hall i))
  have hfirst : Pmap.Drawn d w k.pmap _ := Pmap.Drawn.newTable (hdir.not_free h.inv) h0 hl rfl
  refine wp_conseq (wp_insert_of_eq hins) fun r k₂ hk₂ => ⟨hk₂.1, s', t, w, hk₂.2, hwin, ?_,
    (hfirst.trans hdraw).trans hdraw'⟩
  rw [hl]
  exact List.mem_cons_self

end Loop

end Kern

/-! ## Later changes -/

/-- The changes of a directory below `UTOP`. -/
inductive PageOp where
  | insert (pp : Frame) (va perm : Word)
  | remove (va : Word)

/-- One call of `page_insert` or `page_remove` on directory `d` that returns. -/
inductive PageOp.Step (d : Frame) (s : Pmap) : PageOp → Pmap → Prop
  | insert {pp : Frame} {va perm : Word} {r : Except Errno Unit} {s' : Pmap} : va < utop →
      s.pageInsert d pp va perm = .ok (r, s') → Step d s (.insert pp va perm) s'
  | remove {va : Word} {s' : Pmap} : va < utop → s.pageRemove d va = .ok s' →
      Step d s (.remove va) s'

theorem Pmap.Window.step {s s' : Pmap} {d : Frame} {t : Index → Frame} {op : PageOp}
    (h : s.Window d t) (hs : op.Step d s s') : s'.Window d t := by
  cases hs with
  | insert hva hr =>
    obtain ⟨w, hw⟩ := Pmap.pageInsert_word (h.entries _) (h.dir _) hr
    exact h.store (Pmap.pdx_ne_uvpt hva) hw
  | remove hva hr =>
    obtain ⟨w, hw⟩ := Pmap.pageRemove_word (h.entries _) hr
    exact h.store (Pmap.pdx_ne_uvpt hva) hw

/-- The fault handler fills an empty window, and after any changes below `UTOP`
the window shows the tables and the directory as they are. -/
theorem vpt_window {L : Layout} {k : Kernel} {c : EnvIdx} {d : Frame} (h : Spaces L k)
    (hc : k.curenv = some c) (hd : (k.envs c).pgdir = some d)
    (hempty : k.pmap.mem d (pdx uvpt) = 0#32)
    (hroom : k.pmap.clearEntries d ≤ k.pmap.pageFreeList.length)
    (hlo : uvpt ≤ k.active.stval) (hhi : k.active.stval < ulim) (junk : Option Word) :
    ∃ k', Kern.doLoadPage junk k = .ok (.ok (), k') ∧
      ∀ ops s, Run (· = k'.pmap) (fun s op s' => PageOp.Step d s op s') ops s → ∀ va < utop,
        ∃ p, s.pgdirWalk d va true = .ok (.ok (some p), s) ∧
          s.userLoad d (vptSlot va) = some (s.deref p) ∧
          s.userLoad d (vpdSlot va) = some (s.deref ⟨d, pdx va⟩) := by
  have hlow : 0x7fc00000 ≤ k.active.stval.toNat := hlo
  have hwp : (Kern.doLoadPage junk).wp (fun r k' => r = .ok () ∧ ∃ t, k'.pmap.Window d t)
      (fun _ => False) k := by
    unfold Kern.doLoadPage
    rw [Sys.wp_get_bind, Sys.wp_ite]
    refine ⟨fun hlt => ?_, fun _ => ?_⟩
    · have hlt : k.active.stval.toNat < 0x3fe000 := hlt
      omega
    · rw [if_neg (BitVec.not_lt.mpr hlo), if_pos hhi]
      refine Sys.wp_conseq (Kern.loadVpt_fills h hc hd hempty hroom) fun r k' hk' => ?_
      obtain ⟨rfl, s, t, w, rfl, hwin, -⟩ := hk'
      exact ⟨rfl, t, hwin⟩
  obtain ⟨r, k', hrun, rfl, t, hwin⟩ := Sys.wp_run hwp
  refine ⟨k', hrun, fun ops s hs va hva => ?_⟩
  have hwin' : s.Window d t :=
    Run.invariant (I := fun _ s => s.Window d t) (fun s hs => hs ▸ hwin)
      (fun _ _ _ _ h hs => h.step hs) hs
  exact hwin'.reads hva

/-- One environment with an empty directory and 1100 free frames, at a fault on
the first word of `vpt`. -/
def wideEnv : Kernel :=
  { zeroKernel with
    pmap :=
      { ppRef := fun f => if 1 ≤ f.val ∧ f.val ≤ 1100 then 0 else 1
        pageFreeList := (List.range 1100).map fun i => Fin.ofNat npage (i + 1)
        mem := fun _ _ => 0#32 }
    envs := Function.update zeroKernel.envs 0
      { zeroKernel.envs 0 with status := .runnable, pgdir := some 2000 }
    curenv := some 0
    curPgdir := some 2000
    active := { zeroTf with stval := uvpt } }

theorem wideEnv_spaces : Spaces (Pmap.privateLayout {2000} (keptAbove 1100)) wideEnv := by
  have hstart : Pmap.Start {2000} (keptAbove 1100) wideEnv.pmap := by
    refine Pmap.start_range (by decide) (fun d hd => ?_) (fun _ => rfl) (by simp only [wideEnv])
    rw [Finset.mem_singleton.mp hd]
    exact ⟨mem_keptAbove.mpr (by decide), fun _ => rfl⟩
  have henv : ∀ e, e ≠ 0 → wideEnv.envs e = zeroKernel.envs e := fun e he =>
    Function.update_of_ne he ..
  refine Spaces.single (e := 0) hstart
    (Template.zero (mem_keptAbove.mpr (by decide)) (by simp [wideEnv, zeroKernel]) fun _ => rfl)
    (fun e => ⟨fun he => by_contra fun hne => he ?_, fun he => ?_⟩) rfl rfl rfl fun e => ?_
  · rw [henv e hne]
    rfl
  · rw [he]
    show EnvStatus.runnable ≠ .free
    simp
  · by_cases h0 : e = 0
    · rw [h0]
      rfl
    · rw [henv e h0]
      rfl

/-- The window of an environment that has nothing mapped yet. -/
theorem vpt_window_empty :
    ∃ k', Kern.doLoadPage none wideEnv = .ok (.ok (), k') ∧
      ∀ ops s, Run (· = k'.pmap) (fun s op s' => PageOp.Step 2000 s op s') ops s → ∀ va < utop,
        ∃ p, s.pgdirWalk 2000 va true = .ok (.ok (some p), s) ∧
          s.userLoad 2000 (vptSlot va) = some (s.deref p) ∧
          s.userLoad 2000 (vpdSlot va) = some (s.deref ⟨2000, pdx va⟩) := by
  have hlen : wideEnv.pmap.pageFreeList.length = 1100 := by
    simp only [wideEnv, List.length_map, List.length_range]
  have hclear : wideEnv.pmap.clearEntries 2000 ≤ 1024 :=
    (Finset.card_filter_le _ _).trans (by simp)
  exact vpt_window wideEnv_spaces rfl rfl rfl (by omega) (by decide) (by decide) none

end RvMos
