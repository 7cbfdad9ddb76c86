/-
Page faults and the kernel's part of the address space.

`do_load_page` and `do_store_page` add flags to entries that exist and map new
pages where there are none, at every address.  Three changes of the page
structures are new here: flags are added to an entry in place, also to an entry
of a table that all environments share; a cleared table goes under an entry of a
directory; a word of a data page is written.

`Shielded` is the state of affairs that the handlers must not disturb: no entry
from `ULIM` on is for the user, and none of the windows below it is both for the
user and writable.
-/
import RvMos.Kern.Counters

namespace RvMos

open Lib

/-! ## Changes of the page structures -/

theorem flagOnly_or {x y : Word} (hx : FlagOnly x) (hy : FlagOnly y) : FlagOnly (x ||| y) := by
  unfold FlagOnly at *
  rw [BitVec.and_or_distrib_right, hx, hy]
  rfl

/-- The word that is there already may be given as part of the permissions. -/
theorem mkPte_mkPte_or (pp : Frame) (fl x : Word) :
    mkPte pp (mkPte pp fl ||| x) = mkPte pp (fl ||| x) := by
  unfold mkPte
  generalize page2ptx pp = a
  ext i hi
  simp only [BitVec.getElem_or]
  cases a[i] <;> cases fl[i] <;> cases x[i] <;> cases pteV[i] <;> rfl

theorem vpn_rounddown (va : Word) : vpn (rounddown va) = vpn va := by
  unfold vpn rounddown pgshift
  ext i hi
  simp only [BitVec.getElem_ushiftRight, BitVec.getLsbD_and, BitVec.getLsbD_not]
  by_cases h : 12 + i < 32
  · have hm : (4096#32 - 1#32).getLsbD (12 + i) = false := by
      have hall : ∀ j < 20, (4096#32 - 1#32).getLsbD (12 + j) = false := by decide
      exact hall i (by omega)
    rw [hm]
    simp [h]
  · simp [BitVec.getLsbD_of_ge, Nat.le_of_not_lt h]

theorem rounddown_lt {va : Word} (h : va < utop) : rounddown va < utop :=
  lt_utop_of_vpn (vpn_rounddown va) h

namespace Pmap

section Changes

variable {L : Layout} {s s' : Pmap} {d : Frame}

theorem pteOf_congr {va va' : Word} (h : vpn va = vpn va') : s.pteOf d va = s.pteOf d va' := by
  obtain ⟨hi, hj⟩ := vpn_eq_iff.mp h
  unfold pteOf
  rw [hi, hj]

/-- A cleared table under an owned entry. -/
theorem kept_newTable (hI : s.Inv L) {t : Frame} {i : Index} {s₁ : Pmap} (hown : L.own d i)
    (h0 : s.mem d i = 0#32) (ha : s.pageAlloc = .ok (t, s₁)) :
    Kept L s ((s₁.store ⟨d, i⟩ (mkPte t 0#32)).incRef t) := by
  obtain ⟨hI', hself, -, hdata, hdirs, htab, -, -⟩ := newTable_effect hI hown h0 ha rfl
  have htfree : t ∈ s.pageFreeList := by
    rw [(hI.alloc ha).2.1]
    exact List.mem_cons_self
  refine ⟨hI', fun d' hd' => (hdirs d' hd').1, fun d' j u hd' hu => ?_, fun f hf => ?_,
    fun d' hd' hu => ⟨hu.own, fun va f hva hf => ?_⟩, fun u j hu => ?_⟩
  · by_cases heq : (d', j) = (d, i)
    · obtain ⟨rfl, rfl⟩ := Prod.mk.injEq .. ▸ heq
      rw [tableOf, h0, entryFrame_zero] at hu
      exact absurd hu (by simp)
    · rw [(hdirs d' hd').2.1 j heq, hu]
  · exact hdata f (hf.not_free hI) fun e => hf.not_own i (e ▸ hown)
  · rw [(hdirs d' hd').2.2 va] at hf
    have hc := counted_of_own hI.toForest (hu.own _ (personal_of_lt hva))
    have hnf := (not_free_of_mapped hI hd' hc hf).1
    have hold := hu.data va f hva hf
    exact ⟨hold.base, fun ht => ((htab f).mp ht).elim hold.not_table fun e => hnf (e ▸ htfree)⟩
  · have hpos := L.shared_base u hu
    have hnf : u ∉ s.pageFreeList := hI.not_free_of_refs (by omega)
    rw [hdata u hnf fun e => L.apart u i hu (e ▸ hown)]

/-- A store into an entry that is not counted. -/
theorem kept_storePlain (hI : s.Inv L) {t : Frame} {j : Index} (hp : L.plain t j) {w : Word}
    (hlib : w &&& pteLibrary = s.mem t j &&& pteLibrary) : Kept L s (s.store ⟨t, j⟩ w) := by
  have hsh := L.plain_shared t j hp
  have ht : s.IsTable L t := .inl hsh
  have hpde := hI.pdeView_store ht (show (s.store ⟨t, j⟩ w).mem = _ from rfl)
  have hpte : (s.store ⟨t, j⟩ w).pteView L = s.pteView L := by
    funext x
    unfold pteView
    by_cases hc : s.IsTable L x.1 ∧ ¬L.plain x.1 x.2
    · have hx : x ≠ (t, j) := fun e => hc.2 (e ▸ hp)
      rw [if_pos hc, if_pos ⟨(isTable_congr hpde x.1).mpr hc.1, hc.2⟩, store_mem_of_ne w hx]
    · rw [if_neg hc, if_neg fun h => hc ⟨(isTable_congr hpde x.1).mp h.1, h.2⟩]
  have hrefs : ∀ f, (s.store ⟨t, j⟩ w).refs L f = s.refs L f := fun f => by
    rw [refs, refs, hpde, hpte]
  have hmem : ∀ f, f ≠ t → (s.store ⟨t, j⟩ w).mem f = s.mem f := by
    intro f hf
    funext i
    exact store_mem_of_ne w fun e => hf (congrArg Prod.fst e)
  have hI' : (s.store ⟨t, j⟩ w).Inv L := by
    refine ⟨⟨fun d i hown => ?_, hpde ▸ hI.pde_inj, hpde ▸ hI.table_base, fun u i hu hpl => ?_⟩,
      hI.free_nodup, fun f hf => ?_, fun f => ?_⟩
    · rw [hmem d fun e => L.apart t i hsh (e ▸ hown)]
      exact hI.pde d i hown
    · have hne : (u, i) ≠ (t, j) := by
        rintro heq
        obtain ⟨rfl, rfl⟩ := Prod.mk.injEq .. ▸ heq
        exact hpl hp
      rw [store_mem_of_ne w hne]
      exact hI.pte u i ((isTable_congr hpde u).mp hu) hpl
    · rw [hrefs]
      exact hI.free_unref f hf
    · rw [hrefs]
      exact hI.count f
  have hdt : ∀ d, s.Dir L d → d ≠ t := fun d hd e => hd.not_shared (e ▸ hsh)
  refine ⟨hI', fun d hd => hd.congr (hmem d (hdt d hd)), fun d i u hd hu => ?_,
    fun f hf => hmem f fun e => hf.not_shared (e ▸ hsh),
    fun d hd hu => ⟨hu.own, fun va f hva hf => ?_⟩, fun u i _ => ?_⟩
  · rw [tableOf, hmem d (hdt d hd)]
    exact hu
  · have hsame : (s.store ⟨t, j⟩ w).pteOf d va = s.pteOf d va := by
      unfold pteOf
      rw [tableOf, hmem d (hdt d hd), ← tableOf]
      cases hu' : s.tableOf d (pdx va) with
      | none => rfl
      | some u =>
        have hne : u ≠ t := fun e =>
          not_shared_of_owned hI.toForest (hu.own _ (personal_of_lt hva)) hu' (e ▸ hsh)
        exact congrFun (hmem u hne) _
    rw [hsame] at hf
    have hdata := hu.data va f hva hf
    exact ⟨hdata.base, fun h => hdata.not_table ((isTable_congr hpde f).mp h)⟩
  · by_cases heq : (u, i) = (t, j)
    · obtain ⟨rfl, rfl⟩ := Prod.mk.injEq .. ▸ heq
      rw [store_mem_self, hlib]
    · rw [store_mem_of_ne w heq]

/-- `s'` is `s` with flags `x` added to the entry of `va`. -/
def Reflagged (s : Pmap) (d : Frame) (va x : Word) (s' : Pmap) : Prop :=
  ∃ t pp, s.tableOf d (pdx va) = some t ∧ entryFrame (s.mem t (ptx va)) = some pp ∧
    s' = s.store ⟨t, ptx va⟩ (mkPte pp (s.mem t (ptx va) ||| x))

theorem kept_reflag (hI : s.Inv L) (hd : s.Dir L d) (hu : UserDir L s d) {va x : Word}
    (hx : FlagOnly x) (hxl : x &&& pteLibrary = 0#32) (h : s.Reflagged d va x s') :
    Kept L s s' := by
  obtain ⟨t, pp, ht, hf, rfl⟩ := h
  have hlib : ∀ w, (w ||| x) &&& pteLibrary = w &&& pteLibrary := fun w => by
    rw [BitVec.and_or_distrib_right, hxl, BitVec.or_zero]
  by_cases hp : L.plain t (ptx va)
  · refine kept_storePlain hI hp ?_
    rw [mkPte_and_flags pp _ (by decide) (by decide), hlib]
  · have htab := (hd.isTable hI.toForest ht).1
    have hpte := hI.pte t (ptx va) htab hp
    rcases hpte with h0 | ⟨f, fl, hfl, hw⟩
    · rw [h0, entryFrame_zero] at hf
      exact absurd hf (by simp)
    · obtain rfl : f = pp := by
        rw [hw, entryFrame_mkPte f hfl] at hf
        exact Option.some.inj hf
      have hfx := flagOnly_or hfl hx
      have hI' := hI.reflag htab hp hf hfx
      rw [hw, mkPte_mkPte_or]
      have hins := inserted_of_store hI hd f (fl ||| x) htab ht rfl hI'
      refine kept_insert hI hd (hu.own 0 (by decide)) hfx (fun hva => ?_) (.inr ?_) hins
      · have hpm : entryFrame (s.pteOf d va) = some f := by
          rw [pteOf, ht]
          exact hf
        have hc := counted_of_own hI.toForest (hu.own _ (personal_of_lt hva))
        exact (hu.data va f hva hpm).insert (not_free_of_mapped hI hd hc hpm).1 hins
      · have hpw : s.pteOf d va = mkPte f fl := by
          rw [pteOf, ht]
          exact hw
        rw [hpw, mkPte_and_flags f fl (by decide) (by decide), hlib]

/-- The new entry, and which addresses it governs. -/
theorem Reflagged.pte (hI : s.Inv L) (hd : s.Dir L d) {va x : Word}
    (h : s.Reflagged d va x s') {d' : Frame} {va' : Word} (hd' : s.Dir L d') :
    (s.SameSlot d va d' va' ∧ ∃ pp, entryFrame (s.pteOf d va) = some pp ∧
      s'.pteOf d' va' = mkPte pp (s.pteOf d va ||| x)) ∨ s'.pteOf d' va' = s.pteOf d' va' := by
  obtain ⟨t, pp, ht, hf, rfl⟩ := h
  have htab := (hd.isTable hI.toForest ht).1
  generalize hw : mkPte pp (s.mem t (ptx va) ||| x) = w
  have hpd : s.pteOf d va = s.mem t (ptx va) := by rw [pteOf, ht]
  have htd' : (s.store ⟨t, ptx va⟩ w).tableOf d' (pdx va') = s.tableOf d' (pdx va') := by
    unfold tableOf
    rw [store_mem_of_ne w]
    intro e
    have he : d' = t := congrArg Prod.fst e
    exact hd'.not_isTable hI.toForest (he ▸ htab)
  cases ht' : s.tableOf d' (pdx va') with
  | none =>
    refine .inr ?_
    rw [pteOf, pteOf, htd', ht']
  | some t' =>
    have hpte' : s.pteOf d' va' = s.mem t' (ptx va') := by rw [pteOf, ht']
    have hpte : (s.store ⟨t, ptx va⟩ w).pteOf d' va' = (s.store ⟨t, ptx va⟩ w).mem t' (ptx va') := by
      rw [pteOf, htd', ht']
    rw [hpte, hpte', hpd]
    by_cases heq : (t', ptx va') = (t, ptx va)
    · obtain ⟨rfl, hj⟩ := Prod.mk.injEq .. ▸ heq
      refine .inl ⟨⟨t', ht, ht', hj.symm⟩, pp, hf, ?_⟩
      rw [hj, store_mem_self, hw]
    · exact .inr (store_mem_of_ne w heq)

/-- All words of a frame replaced. -/
def setPage (s : Pmap) (f : Frame) (pg : Page) : Pmap :=
  { s with mem := Function.update s.mem f pg }

theorem store_eq_setPage (s : Pmap) (f : Frame) (i : Index) (w : Word) :
    s.store ⟨f, i⟩ w = s.setPage f (Function.update (s.mem f) i w) := rfl

@[simp] theorem setPage_mem_self (s : Pmap) (f : Frame) (pg : Page) :
    (s.setPage f pg).mem f = pg := Function.update_self ..

theorem setPage_mem_of_ne {f g : Frame} (h : g ≠ f) (pg : Page) :
    (s.setPage f pg).mem g = s.mem g := Function.update_of_ne h ..

/-- The words of a data page. -/
theorem kept_setPage (hI : s.Inv L) {f : Frame} (hf : s.Data L f) (pg : Page) :
    Kept L s (s.setPage f pg) ∧ ∀ d va, s.Dir L d → (s.setPage f pg).pteOf d va = s.pteOf d va := by
  have hno := not_own_of_base hf.base
  have hpde := (hI.toForest.setData (s.setPage f pg) hf.not_table hno rfl).2.1
  have hkeep : ∀ g, 0 < L.base g ∨ s.IsTable L g → (s.setPage f pg).mem g = s.mem g := by
    intro g hg
    refine setPage_mem_of_ne ?_ pg
    rintro rfl
    have hb := hf.base
    exact hg.elim (fun h => by omega) hf.not_table
  refine ⟨kept_of_mem hI.toForest (hI.setData _ hf.not_table hno) hpde hkeep,
    fun d va hd => ?_⟩
  unfold pteOf
  rw [tableOf, hkeep d (.inl hd.held), ← tableOf]
  cases ht : s.tableOf d (pdx va) with
  | none => rfl
  | some t => exact congrFun (hkeep t (.inr (hd.isTable hI.toForest ht).1)) _

theorem Data.setPage (hI : s.Inv L) {f : Frame} (hf : s.Data L f) (pg : Page) :
    (s.setPage f pg).Data L f := by
  refine ⟨hf.base, fun ht => hf.not_table ?_⟩
  have hpde := (hI.toForest.setData (s.setPage f pg) hf.not_table (not_own_of_base hf.base) rfl).2.1
  exact (isTable_congr hpde f).mp ht

/-- `page_insert` of the frame that is there rewrites the entry. -/
theorem pageInsert_same {va va' perm : Word} {t pp : Frame} (hv : vpn va' = vpn va)
    (hm : s.mem d (pdx va) = mkPte t 0#32) (hf : entryFrame (s.mem t (ptx va)) = some pp) :
    s.pageInsert d pp va' perm = .ok (.ok (), s.store ⟨t, ptx va⟩ (mkPte pp perm)) := by
  obtain ⟨hi, hj⟩ := vpn_eq_iff.mp hv
  have hval : valid (s.deref ⟨t, ptx va'⟩) = true := by
    rw [hj]
    exact valid_of_entryFrame hf
  have ha : addr2page (paddr (pteAddr (s.deref ⟨t, ptx va'⟩))) = some pp := by
    rw [entryFrame, if_pos (valid_of_entryFrame hf)] at hf
    rw [hj]
    exact hf
  unfold pageInsert
  rw [pgdirWalk_table false (by rw [hi]; exact hm)]
  simp only [if_pos hval, ha, ne_eq, not_true_eq_false, if_false]
  rw [hj]

/-- What `page_lookup` finds at any address of a directory. -/
theorem pageLookup_cases (hF : s.Forest L) (hd : s.Dir L d) (va : Word) :
    (∃ m, s.pageLookup d va = .error (.panic m)) ∨
    (entryFrame (s.pteOf d va) = none ∧ s.pageLookup d va = .ok none) ∨
    ∃ t pp, s.mem d (pdx va) = mkPte t 0#32 ∧ entryFrame (s.mem t (ptx va)) = some pp ∧
      s.pageLookup d va = .ok (some (pp, ⟨t, ptx va⟩)) := by
  rcases hd.entry hF (pdx va) with ⟨-, h0⟩ | ⟨t, hm, -⟩
  · exact .inr (.inl ⟨by rw [pteOf_of_clear h0, entryFrame_zero], pageLookup_clear h0⟩)
  · cases hf : entryFrame (s.mem t (ptx va)) with
    | some pp => exact .inr (.inr ⟨t, pp, hm, hf, pageLookup_mapped hm hf⟩)
    | none =>
      rw [pageLookup_table hm]
      by_cases hv : valid (s.mem t (ptx va)) = true
      · rw [entryFrame, if_pos hv, paddr_pteAddr] at hf
        rw [if_pos hv, hf]
        exact .inl ⟨_, rfl⟩
      · rw [if_neg hv]
        exact .inr (.inl ⟨by rw [pteOf_of_table hm, hf], rfl⟩)

end Changes

end Pmap

/-! ## Faults on pages -/

/-- Contents of data pages change, and nothing else. -/
structure Written (L : Layout) (s s' : Pmap) : Prop where
  kept : Pmap.Kept L s s'
  pte : ∀ d va, s.Dir L d → s'.pteOf d va = s.pteOf d va

/-- A fault changes page structures and the active frame. -/
def Kernel.faulted (k : Kernel) (p : Pmap) (a : Trapframe) : Kernel :=
  { k with pmap := p, active := a }

theorem Written.refl {L : Layout} {s : Pmap} (hI : s.Inv L) : Written L s s :=
  ⟨.refl hI, fun _ _ _ => rfl⟩

theorem Written.trans {L : Layout} {s s' s'' : Pmap} (h : Written L s s') (h' : Written L s' s'') :
    Written L s s'' :=
  ⟨h.kept.trans h'.kept, fun d va hd => (h'.pte d va (h.kept.dirs d hd)).trans (h.pte d va hd)⟩

namespace Kern

open Sys

section Faults

variable {L : Layout} {k : Kernel} {c : EnvIdx} {d : Frame}

theorem wp_lookupAny {va : Word} {Q : Except Errno (Option (Frame × PtePtr)) → Kernel → Prop}
    (hF : k.pmap.Forest L) (hd : k.pmap.Dir L d)
    (hnone : entryFrame (k.pmap.pteOf d va) = none → Q (.ok none) k)
    (hsome : ∀ t pp, k.pmap.mem d (pdx va) = mkPte t 0#32 →
      entryFrame (k.pmap.mem t (ptx va)) = some pp → Q (.ok (some (pp, ⟨t, ptx va⟩))) k) :
    (pageLookup (some d) va).wp Q (fun _ => True) k := by
  rcases Pmap.pageLookup_cases hF hd va with ⟨m, he⟩ | ⟨hf, he⟩ | ⟨t, pp, hdir, hf, he⟩
  · unfold pageLookup dirOf
    rw [wp_bind, wp_pure]
    refine wp_onPmap.mpr ⟨fun _ _ => trivial, fun r p hm => ?_⟩
    rw [he] at hm
    exact absurd hm (by simp [Except.map])
  · exact wp_pageLookup he (hnone hf)
  · exact wp_pageLookup he (hsome t pp hdir hf)

theorem wp_orPanic {α : Type} {m : Kern α} {msg : String} {Q : Except Errno α → Kernel → Prop}
    (hm : m.wp (fun r k' => ∀ a, r = .ok a → Q (.ok a) k') (fun _ => True) k) :
    (orPanic m msg).wp Q (fun _ => True) k := by
  unfold orPanic
  refine wp_attempt_seq hm fun r k' hr => ?_
  cases r with
  | error _ => exact wp_halt.mpr trivial
  | ok a => exact wp_pure.mpr (hr a rfl)

/-- `page_insert` of the frame found at the faulting address. -/
theorem wp_reflag {va x : Word} {t pp : Frame} {msg : String} {Q : Except Errno Unit → Kernel → Prop}
    (hm : k.pmap.mem d (pdx va) = mkPte t 0#32)
    (hf : entryFrame (k.pmap.mem t (ptx va)) = some pp)
    (hQ : ∀ p, k.pmap.Reflagged d va x p → Q (.ok ()) (k.setPmap p)) :
    (orPanic (pageInsert (some d) pp (rounddown va) (k.pmap.mem t (ptx va) ||| x)) msg).wp Q
      (fun _ => True) k := by
  refine wp_orPanic ?_
  unfold pageInsert dirOf
  rw [wp_bind, wp_pure]
  refine wp_onPmap.mpr ⟨fun _ _ => trivial, fun r p he a ha => ?_⟩
  rw [Pmap.pageInsert_same (vpn_rounddown va) hm hf] at he
  obtain ⟨-, rfl⟩ := Prod.mk.inj (Except.ok.inj he)
  refine hQ _ ⟨t, pp, ?_, hf, rfl⟩
  rw [Pmap.tableOf, hm, entryFrame_mkPte t flagOnly_zero]

/-- A fresh page at a faulting address of the user. -/
theorem wp_freshPage (h : Spaces L k) (hlive : k.Live c) (hd : (k.envs c).pgdir = some d)
    {va perm : Word} (hva : va < utop) (hfl : FlagOnly perm) {pp : Frame} {s : Pmap} {msg : String}
    (ha : k.pmap.pageAlloc = .ok (pp, s)) {Q : Except Errno Unit → Kernel → Prop}
    (hQ : ∀ p, Edit L k.pmap d (rounddown va) p → Q (.ok ()) (k.setPmap p)) :
    (orPanic (pageInsert (some d) pp (rounddown va) perm) msg).wp Q (fun _ => True)
      (k.setPmap s) := by
  obtain ⟨d', hd', hdir, hown, -⟩ := h.own hlive (rounddown_lt hva)
  obtain rfl := Option.some.inj (hd.symm.trans hd')
  have hk₁ := Pmap.kept_alloc h.inv ha
  obtain ⟨-, -, href, -, -, -, hb, hr⟩ := h.inv.alloc ha
  have hzero : (s.ppRef pp).toNat < 65535 := by
    rw [href, h.inv.count pp, hb, hr]
    decide
  refine wp_orPanic (wp_pageInsert (k := k.setPmap s) hk₁.inv (hk₁.dirs d hdir)
    (Pmap.counted_of_own hk₁.inv.toForest hown) hfl (Pmap.not_free_of_alloc h.inv ha)
    (fun _ => hzero) (fun p hins a _ => ?_) fun _ a ha => absurd ha (by simp))
  exact hQ p (.fresh ha hfl hins)

theorem curenv_of_some {E : Halt → Prop} {α : Type} {f : EnvIdx → Kern α}
    {Q : Except Errno α → Kernel → Prop} (hc : k.curenv = some c) (hf : (f c).wp Q E k) :
    (curenv >>= f).wp Q E k := by
  unfold curenv
  rw [wp_bind, wp_get_bind, hc]
  exact wp_pure.mpr hf

/-- The branches of `do_load_page` that look the page up. -/
theorem loadMapped_change (h : Spaces L k) (hc : k.curenv = some c)
    (hd : (k.envs c).pgdir = some d) {junk : Option Word} {va : Word}
    (hnew : entryFrame (k.pmap.pteOf d va) = none →
      va < utop ∧ ∀ w, junk = some w → FlagOnly w) :
    (loadMapped junk va).wp (fun _ k' => ∃ p, k' = k.setPmap p ∧
      (k.pmap.Reflagged d va (pteR ||| pteU) p ∨ va < utop ∧ Edit L k.pmap d (rounddown va) p))
      (fun _ => True) k := by
  have hlive := (h.cur c hc).1
  obtain ⟨d', hd', hdir, -⟩ := h.dir c hlive
  obtain rfl := Option.some.inj (hd.symm.trans hd')
  unfold loadMapped
  refine curenv_of_some hc ?_
  rw [wp_get_bind, hd]
  unfold loadTarget
  rw [wp_bind, wp_bind]
  refine wp_lookupAny h.inv.toForest hdir (fun hnone => ?_) fun t pp hm hf => ?_
  · obtain ⟨hva, hw⟩ := hnew hnone
    simp only
    rw [wp_bind]
    refine wp_orPanic (wp_pageAlloc (fun _ a ha => absurd ha (by simp)) fun pp s ha a hpp => ?_)
    obtain rfl := Except.ok.inj hpp
    cases junk with
    | none => exact wp_halt.mpr trivial
    | some w =>
      simp only
      rw [wp_pure]
      simp only
      rw [BitVec.or_assoc]
      refine wp_freshPage h hlive hd hva (flagOnly_or (hw w rfl) (by decide)) ha fun p hp => ?_
      exact ⟨p, rfl, .inr ⟨hva, hp⟩⟩
  · simp only
    rw [wp_get_bind, wp_pure]
    simp only
    rw [BitVec.or_assoc]
    exact wp_reflag hm hf fun p hp => ⟨p, rfl, .inl hp⟩

/-- A store of the kernel to a page of the running environment. -/
theorem kernelStoreByte_written (h : Spaces L k) (hc : k.curenv = some c) (va : Word)
    (b : BitVec 8) :
    (kernelStoreByte va b).wp (fun _ k' => ∃ p, k' = k.setPmap p ∧ Written L k.pmap p)
      (fun _ => True) k := by
  obtain ⟨hlive, hcp⟩ := h.cur c hc
  unfold kernelStoreByte
  rw [wp_ite]
  refine ⟨fun _ => wp_halt.mpr trivial, fun hva => ?_⟩
  have hva : va < utop := BitVec.not_le.mp hva
  obtain ⟨d, hd, hdir, -⟩ := h.own hlive hva
  rw [wp_get_bind, hcp, hd, wp_bind]
  refine wp_lookupAny h.inv.toForest hdir (fun _ => wp_halt.mpr trivial) fun t pp hm hf => ?_
  simp only
  rw [wp_get_bind, wp_ite]
  refine ⟨fun _ => wp_halt.mpr trivial, fun _ => wp_modify.mpr ?_⟩
  have hdata := h.data hlive hd hva (by rw [Pmap.pteOf_of_table hm]; exact hf)
  obtain ⟨hkept, hpte⟩ := Pmap.kept_setPage h.inv hdata (Function.update (k.pmap.mem pp)
    (Fin.ofNat 1024 ((va >>> 2) &&& 0x3ff#32).toNat)
    (setByte (k.pmap.deref ⟨pp, Fin.ofNat 1024 ((va >>> 2) &&& 0x3ff#32).toNat⟩)
      (va &&& 3#32).toNat b))
  exact ⟨_, rfl, hkept, hpte⟩

theorem kernelStore_written (bs : List (BitVec 8)) {k : Kernel} (h : Spaces L k)
    (hc : k.curenv = some c) (va : Word) :
    (kernelStore va bs).wp (fun _ k' => ∃ p, k' = k.setPmap p ∧ Written L k.pmap p)
      (fun _ => True) k := by
  induction bs generalizing k va with
  | nil => exact wp_pure.mpr ⟨k.pmap, rfl, .refl h.inv⟩
  | cons b bs ih =>
    refine wp_seq (kernelStoreByte_written h hc va b) (fun _ k₁ h₁ => ?_) fun _ _ h₁ => h₁
    obtain ⟨p, rfl, hp⟩ := h₁
    refine wp_conseq (ih (h.setPmap hp.kept) hc (va + 1#32)) fun _ k₂ h₂ => ?_
    obtain ⟨q, rfl, hq⟩ := h₂
    exact ⟨q, rfl, hp.trans hq⟩

/-- The upcall writes to the stacks of the running environment and changes its
active frame. -/
theorem cowUpcall_written (h : Spaces L k) (hc : k.curenv = some c) :
    cowUpcall.wp (fun _ k' => ∃ p a, k' = k.faulted p a ∧
      Written L k.pmap p) (fun _ => True) k := by
  unfold cowUpcall
  rw [wp_get_bind]
  refine wp_seq (kernelStore_written _ h hc _) (fun _ k₁ h₁ => ?_) fun _ _ h₁ => ?_
  · obtain ⟨p, rfl, hp⟩ := h₁
    simp only [setReg]
    rw [wp_modify_bind, wp_get_bind]
    have h₁ := h.setPmap hp.kept
    refine wp_seq (kernelStore_written (k := { k.setPmap p with active := { (k.setPmap p).active with
        regs := Function.update (k.setPmap p).active.regs 2 (upcallSp k.active - 2#32 * tfSize) } })
      _ (h₁.congr rfl rfl rfl rfl rfl) hc _)
      (fun _ k₂ h₂ => ?_) fun _ _ h₂ => ?_
    · obtain ⟨q, rfl, hq⟩ := h₂
      refine curenv_of_some hc ?_
      rw [wp_get_bind, wp_ite]
      refine ⟨fun _ => ?_, fun _ => wp_halt.mpr trivial⟩
      rw [wp_modify_bind]
      exact wp_modify.mpr ⟨q, _, rfl, hp.trans hq⟩
    · obtain ⟨q, rfl, hq⟩ := h₂
      exact ⟨q, _, rfl, hp.trans hq⟩
  · obtain ⟨p, rfl, hp⟩ := h₁
    exact ⟨p, _, rfl, hp⟩

/-- `do_store_page`: an upcall, or the page is made writable, or a fresh page. -/
theorem doStorePage_change (h : Spaces L k) (hc : k.curenv = some c)
    (hd : (k.envs c).pgdir = some d)
    (hnew : entryFrame (k.pmap.pteOf d k.active.stval) = none → k.active.stval < utop) :
    doStorePage.wp (fun _ k' => ∃ p a, k' = k.faulted p a ∧
      (Written L k.pmap p ∨
        (k.pmap.pteOf d k.active.stval &&& pteCow ≠ pteCow ∧
          k.pmap.Reflagged d k.active.stval pteW p) ∨
        k.active.stval < utop ∧ Edit L k.pmap d (rounddown k.active.stval) p))
      (fun _ => True) k := by
  obtain ⟨hlive, hcp⟩ := h.cur c hc
  obtain ⟨d', hd', hdir, -⟩ := h.dir c hlive
  obtain rfl := Option.some.inj (hd.symm.trans hd')
  unfold doStorePage
  rw [wp_get_bind, wp_get_bind, hcp, hd, wp_bind]
  refine wp_lookupAny h.inv.toForest hdir (fun hnone => ?_) fun t pp hm hf => ?_
  · have hva := hnew hnone
    simp only
    rw [wp_bind]
    refine wp_orPanic (wp_pageAlloc (fun _ a ha => absurd ha (by simp)) fun pp s ha a hpp => ?_)
    obtain rfl := Except.ok.inj hpp
    simp only
    refine curenv_of_some (k := k.setPmap s) hc ?_
    rw [wp_get_bind, show ((k.setPmap s).envs c).pgdir = some d from hd]
    refine wp_freshPage h hlive hd hva (by decide) ha fun p hp => ?_
    exact ⟨p, k.active, rfl, .inr (.inr ⟨hva, hp⟩)⟩
  · simp only
    rw [wp_get_bind, wp_ite]
    refine ⟨fun _ => ?_, fun hcow => ?_⟩
    · refine wp_conseq (cowUpcall_written h hc) fun _ k' hk' => ?_
      obtain ⟨p, a, rfl, hp⟩ := hk'
      exact ⟨p, a, rfl, .inl hp⟩
    · refine curenv_of_some hc ?_
      rw [wp_get_bind, hd]
      refine wp_reflag hm hf fun p hp => ⟨p, k.active, rfl, .inr (.inl ⟨?_, hp⟩)⟩
      rw [Pmap.pteOf_of_table hm]
      exact hcow

end Faults

end Kern

/-! ## The window on the page tables -/

namespace Pmap

section RefLe

variable {L : Layout} {s s' : Pmap} {d : Frame}

theorem incRef_le (s : Pmap) (pp f : Frame) :
    ((s.incRef pp).ppRef f).toNat ≤ (s.ppRef f).toNat + 1 := by
  by_cases h : pp = f
  · rw [h, incRef_self, BitVec.toNat_add]
    exact Nat.mod_le _ _
  · rw [incRef_of_ne h]
    omega

theorem dropRef_le {old : Frame} (h : s.ppRef old ≠ 0) (f : Frame) :
    ((s.dropRef old).ppRef f).toNat ≤ (s.ppRef f).toNat := by
  by_cases hf : old = f
  · subst hf
    have hpos : 0 < (s.ppRef old).toNat :=
      Nat.pos_of_ne_zero fun h0 => h (BitVec.eq_of_toNat_eq h0)
    rw [dropRef_self, toNat_sub_one hpos]
    omega
  · rw [dropRef_of_ne hf]

/-- A `page_insert` adds at most one to any counter. -/
theorem pageInsert_ref_le (hI : s.Inv L) (hd : s.Dir L d) {va perm : Word} {pp : Frame}
    (hc : s.Counted L d va) (hpp : pp ∉ s.pageFreeList) {r : Except Errno Unit}
    (h : s.pageInsert d pp va perm = .ok (r, s')) (f : Frame) :
    (s'.ppRef f).toNat ≤ (s.ppRef f).toNat + 1 := by
  rcases pageInsert_cases hI hd pp perm hc with
    ⟨t, -, -, -, -, hr⟩ | ⟨t, old, -, ht, hp, -, hf, hr⟩ | ⟨t, -, -, -, -, hr⟩ |
    ⟨t, s₁, -, -, ha, hr⟩ | ⟨-, -, -, hr⟩
  · rw [hr] at h
    obtain ⟨-, rfl⟩ := Prod.mk.inj (Except.ok.inj h)
    rw [store_ppRef]
    omega
  · rw [hr] at h
    obtain ⟨-, rfl⟩ := Prod.mk.inj (Except.ok.inj h)
    have hle := incRef_le (((s.dropRef old).store ⟨t, ptx va⟩ 0#32).store ⟨t, ptx va⟩
      (mkPte pp perm)) pp f
    have hdrop := dropRef_le (ppRef_ne_zero hI ht hp hf) f
    rw [store_ppRef, store_ppRef] at hle
    omega
  · rw [hr] at h
    obtain ⟨-, rfl⟩ := Prod.mk.inj (Except.ok.inj h)
    exact incRef_le (s.store ⟨t, ptx va⟩ (mkPte pp perm)) pp f
  · rw [hr] at h
    obtain ⟨-, rfl⟩ := Prod.mk.inj (Except.ok.inj h)
    obtain ⟨-, hl, href, -⟩ := hI.alloc ha
    by_cases hft : t = f
    · -- the new table is another frame than the page
      have hne : pp ≠ f := by
        rintro rfl
        exact hpp (by rw [hl, hft]; exact List.mem_cons_self)
      rw [incRef_of_ne hne, store_ppRef, ← href]
      exact incRef_le (s₁.store ⟨d, pdx va⟩ (mkPte t 0#32)) t f
    · have hle := incRef_le (((s₁.store ⟨d, pdx va⟩ (mkPte t 0#32)).incRef t).store ⟨t, ptx va⟩
        (mkPte pp perm)) pp f
      rw [store_ppRef, incRef_of_ne hft, store_ppRef, href] at hle
      exact hle
  · rw [hr] at h
    obtain ⟨-, rfl⟩ := Prod.mk.inj (Except.ok.inj h)
    omega

end RefLe

end Pmap

theorem pdx_vptAddr (i : Index) : pdx (Kern.vptAddr i) = pdx uvpt ∧ utop ≤ Kern.vptAddr i := by
  have hv : (Kern.vptAddr i).toNat = 0x7fc00000 + i.val * 4096 := by
    unfold Kern.vptAddr uvpt pgshift
    have hi := i.isLt
    simp only [BitVec.toNat_add, BitVec.toNat_shiftLeft, BitVec.toNat_ofNat, Nat.shiftLeft_eq]
    omega
  have hu : (pdx uvpt).val = 511 := by decide
  constructor
  · refine Fin.ext ?_
    rw [pdx_val, hv, hu]
    have hi := i.isLt
    omega
  · show (0x7f400000 : Nat) ≤ (Kern.vptAddr i).toNat
    rw [hv]
    omega

/-- After `n` insertions into the window of directory `d`: nothing but entries of
the window changed, they are readable pages of the user, and the counters of the
tables grew by no more than `n`. -/
structure Windowed (L : Layout) (s₀ s : Pmap) (d : Frame) (n : Nat) : Prop where
  kept : Pmap.Kept L s₀ s
  pte : ∀ d' va, s₀.Dir L d' → s.pteOf d' va = s₀.pteOf d' va ∨
    d' = d ∧ pdx va = pdx uvpt ∧ ∃ f, s.pteOf d' va = mkPte f (pteR ||| pteU)
  tables : ∀ i t, s.tableOf d i = some t → (s.ppRef t).toNat ≤ 64000 + n
  dir : (s.ppRef d).toNat ≤ 64000 + n

namespace Kern

open Sys

section Window

variable {L : Layout} {k : Kernel} {d : Frame} {s₀ : Pmap} {n : Nat}

theorem Windowed.mono {s : Pmap} (h : Windowed L s₀ s d n) {m : Nat} (hm : n ≤ m) :
    Windowed L s₀ s d m :=
  ⟨h.kept, h.pte, fun i t ht => (h.tables i t ht).trans (by omega), h.dir.trans (by omega)⟩

/-- An insertion into the window. -/
theorem window_insert (h : Windowed L s₀ k.pmap d n) (hd : s₀.Dir L d)
    (hown : L.own d (pdx uvpt)) (htab : k.pmap.tableOf d (pdx uvpt) ≠ none) (hn : n ≤ 1100)
    {pp : Frame} (hpp : pp ∉ k.pmap.pageFreeList) (href : (k.pmap.ppRef pp).toNat ≤ 64000 + n)
    (i : Index) :
    (pageInsert (some d) pp (vptAddr i) (pteR ||| pteU)).wp (fun _ k' =>
      ∃ p, k' = k.setPmap p ∧ Windowed L s₀ p d (n + 1) ∧ p.tableOf d (pdx uvpt) ≠ none)
      (fun _ => True) k := by
  obtain ⟨hi, hhigh⟩ := pdx_vptAddr i
  have hI := h.kept.inv
  have hdir := h.kept.dirs d hd
  have hownv : L.own d (pdx (vptAddr i)) := hi ▸ hown
  have hc := Pmap.counted_of_own hI.toForest hownv
  have hle : (pageInsert (some d) pp (vptAddr i) (pteR ||| pteU)).wp (fun _ k' =>
      ∀ f, (k'.pmap.ppRef f).toNat ≤ (k.pmap.ppRef f).toNat + 1) (fun _ => True) k := by
    unfold pageInsert dirOf
    rw [wp_bind, wp_pure]
    exact wp_onPmap.mpr ⟨fun _ _ => trivial, fun r p hm f =>
      Pmap.pageInsert_ref_le hI hdir hc hpp hm f⟩
  have hins : (pageInsert (some d) pp (vptAddr i) (pteR ||| pteU)).wp (fun _ k' =>
      ∃ p, k' = k.setPmap p ∧ (p = k.pmap ∨
        k.pmap.Inserted L d pp (vptAddr i) (pteR ||| pteU) p)) (fun _ => True) k :=
    wp_pageInsert hI hdir hc (by decide) hpp (fun _ => by omega)
      (fun p hp => ⟨p, rfl, .inr hp⟩) fun _ => ⟨k.pmap, rfl, .inl rfl⟩
  refine wp_mono (wp_and hins hle) (fun _ k' hk' => ?_) fun _ _ => trivial
  obtain ⟨⟨p, rfl, hp⟩, hrefs⟩ := hk'
  have hrefs : ∀ f, (p.ppRef f).toNat ≤ (k.pmap.ppRef f).toNat + 1 := hrefs
  rcases hp with rfl | hp
  · exact ⟨k.pmap, rfl, Windowed.mono h (by omega), htab⟩
  · have htabs : ∀ j, p.tableOf d j = k.pmap.tableOf d j := by
      intro j
      by_cases hj : j = pdx (vptAddr i)
      · obtain ⟨t, ht⟩ := Option.ne_none_iff_exists'.mp htab
        rw [hj, hi, ht]
        rw [← hi] at ht
        rw [← hi]
        exact hp.kept t ht
      · exact (hp.dirs d hdir).2 j fun e => hj (congrArg Prod.snd e)
    have hkept : Pmap.Kept L k.pmap p :=
      Pmap.kept_insert hI hdir hownv (by decide) (fun hlt =>
        absurd hlt (BitVec.not_lt.mpr hhigh)) (.inl hownv) hp
    refine ⟨p, rfl, ⟨h.kept.trans hkept, fun d' va hd' => ?_, fun j t ht => ?_, ?_⟩, ?_⟩
    · by_cases hslot : p.SameSlot d (vptAddr i) d' va
      · obtain ⟨rfl, hv⟩ := Pmap.sameSlot_of_own hp.inv.toForest hownv
          (hp.dirs d' (h.kept.dirs d' hd')).1 hslot
        refine .inr ⟨rfl, ?_, pp, ?_⟩
        · rw [(vpn_eq_iff.mp hv).1, hi]
        · rw [Pmap.pteOf_congr hv, hp.pte]
      · rw [hp.other d' va (h.kept.dirs d' hd') hslot]
        exact h.pte d' va hd'
    · rw [htabs j] at ht
      have := h.tables j t ht
      have := hrefs t
      omega
    · have := h.dir
      have := hrefs d
      omega
    · rw [htabs]
      exact htab

/-- A new table of the directory. -/
theorem window_newTable (h : Windowed L s₀ k.pmap d n) (hd : s₀.Dir L d) {i : Index}
    (hown : L.own d i) (h0 : k.pmap.mem d i = 0#32) (msg : String) :
    (newTable d i msg).wp (fun r k' => ∃ p t, k' = k.setPmap p ∧ r = .ok t ∧
      Windowed L s₀ p d n ∧ p.tableOf d i = some t ∧
      ∀ j, k.pmap.tableOf d j ≠ none → p.tableOf d j ≠ none) (fun _ => True) k := by
  have hI := h.kept.inv
  have hdir := h.kept.dirs d hd
  unfold newTable
  rw [wp_bind]
  refine wp_orPanic (wp_pageAlloc (fun _ a ha => absurd ha (by simp)) fun t s ha a hat => ?_)
  obtain rfl := Except.ok.inj hat
  simp only
  rw [wp_modify_bind, wp_pure]
  have hkept := Pmap.kept_newTable hI hown h0 ha
  obtain ⟨hI', hself, -, -, hdirs, -, hrt, -⟩ := Pmap.newTable_effect hI hown h0 ha rfl
  obtain ⟨-, -, href, -, -, -, hb, hr⟩ := hI.alloc ha
  rw [mkPte_zero] at hkept hself hdirs hrt hI'
  refine ⟨(s.store ⟨d, i⟩ (page2ptx t ||| pteV)).incRef t, t, rfl, rfl,
    ⟨h.kept.trans hkept, fun d' va hd' => ?_, fun j u hu => ?_, ?_⟩, hself, fun j hj => ?_⟩
  · rw [(hdirs d' (h.kept.dirs d' hd')).2.2 va]
    exact h.pte d' va hd'
  · by_cases hj : j = i
    · rw [hj, hself] at hu
      obtain rfl := Option.some.inj hu
      rw [hI'.count t, hb, hrt]
      omega
    · rw [(hdirs d hdir).2.1 j fun e => hj (congrArg Prod.snd e)] at hu
      have hut : t ≠ u := by
        rintro rfl
        exact Pmap.not_isTable_of_unref hb hr (hdir.isTable hI.toForest hu).1
      rw [Pmap.incRef_of_ne hut, Pmap.store_ppRef, href]
      exact h.tables j u hu
  · have hne : t ≠ d := by
      rintro rfl
      exact Pmap.not_own_of_base hb i hown
    rw [Pmap.incRef_of_ne hne, Pmap.store_ppRef, href]
    exact h.dir
  · by_cases hji : j = i
    · rw [hji, hself]
      simp
    · rw [(hdirs d hdir).2.1 j fun e => hji (congrArg Prod.snd e)]
      exact hj

/-- One round of the loop. -/
theorem vptRound_window (h : Windowed L s₀ k.pmap d n) (hd : s₀.Dir L d)
    (hown : L.own d (pdx uvpt)) (htab : k.pmap.tableOf d (pdx uvpt) ≠ none) (hn : n ≤ 1100)
    (i : Index) :
    (vptRound d i).wp (fun r k' => r = .ok () ∧ ∃ p, k' = k.setPmap p ∧
      Windowed L s₀ p d (n + 1) ∧ p.tableOf d (pdx uvpt) ≠ none) (fun _ => True) k := by
  have hdir := h.kept.dirs d hd
  -- the insertion, once the table is known
  have hinsert : ∀ {k₁ : Kernel} {t : Frame}, Windowed L s₀ k₁.pmap d n →
      k₁.pmap.tableOf d (pdx uvpt) ≠ none → k₁.pmap.tableOf d i = some t →
      (do
        let _ ← attempt (pageInsert (some d) t (vptAddr i) (pteR ||| pteU))
        pure () : Kern Unit).wp (fun r k' => r = .ok () ∧ ∃ p, k' = k₁.setPmap p ∧
          Windowed L s₀ p d (n + 1) ∧ p.tableOf d (pdx uvpt) ≠ none) (fun _ => True) k₁ := by
    intro k₁ t h₁ htab₁ ht
    have hI₁ := h₁.kept.inv
    have htt := ((h₁.kept.dirs d hd).isTable hI₁.toForest ht).1
    have hfree : t ∉ k₁.pmap.pageFreeList := by
      intro hf
      obtain ⟨hb, hr⟩ := hI₁.free_unref t hf
      exact Pmap.not_isTable_of_unref hb hr htt
    refine wp_attempt_seq (window_insert h₁ hd hown htab₁ hn hfree (h₁.tables i t ht) i)
      fun _ k' hk' => wp_pure.mpr ⟨rfl, hk'⟩
  unfold vptRound vptTable
  rw [wp_bind, wp_get_bind]
  rcases hdir.entry h.kept.inv.toForest i with ⟨howni, h0⟩ | ⟨t, hm, -⟩
  · rw [if_pos (by rw [h0]; decide)]
    refine wp_conseq (window_newTable h hd howni h0 _) fun r k₁ hk₁ => ?_
    obtain ⟨p, t, rfl, rfl, h₁, ht, hkeep⟩ := hk₁
    exact @hinsert (k.setPmap p) t h₁ (hkeep _ htab) ht
  · have hne : paddr (pteAddr (k.pmap.mem d i)) ≠ 0#32 := by
      rw [hm, pteAddr_mkPte t flagOnly_zero, paddr_page2ptx]
      intro h0
      have hv := page2addr_toNat t
      rw [h0] at hv
      have hz : (0#32).toNat = 0 := rfl
      omega
    rw [if_neg hne, hm, Pmap.addr2page_mkPte t flagOnly_zero]
    simp only
    rw [wp_pure]
    refine hinsert h htab ?_
    rw [Pmap.tableOf, hm, entryFrame_mkPte t flagOnly_zero]

theorem fillVpt_window (is : List Index) {k : Kernel} {n : Nat} (h : Windowed L s₀ k.pmap d n)
    (hd : s₀.Dir L d) (hown : L.own d (pdx uvpt))
    (htab : k.pmap.tableOf d (pdx uvpt) ≠ none) (hn : n + is.length ≤ 1100) :
    (each (vptRound d) is).wp (fun r k' => r = .ok () ∧ ∃ p, k' = k.setPmap p ∧
      Windowed L s₀ p d (n + is.length) ∧ p.tableOf d (pdx uvpt) ≠ none) (fun _ => True) k := by
  induction is generalizing k n with
  | nil => exact wp_pure.mpr ⟨rfl, k.pmap, rfl, h, htab⟩
  | cons i is ih =>
    rw [List.length_cons] at hn
    rw [each]
    refine wp_seq (vptRound_window h hd hown htab (by omega) i) (fun _ k₁ hk₁ => ?_)
      fun e _ he => absurd he.1 (by simp)
    obtain ⟨-, p, rfl, h₁, htab₁⟩ := hk₁
    refine wp_conseq (ih (k := k.setPmap p) (n := n + 1) h₁ htab₁ (by omega)) fun r k₂ hk₂ => ?_
    obtain ⟨rfl, q, rfl, h₂, htab₂⟩ := hk₂
    refine ⟨rfl, q, rfl, ?_, htab₂⟩
    rw [List.length_cons, show n + (is.length + 1) = n + 1 + is.length by omega]
    exact h₂

/-- A load fault in the window on the page tables. -/
theorem loadVpt_window (h : Spaces L k) {c : EnvIdx} (hc : k.curenv = some c)
    (hd : (k.envs c).pgdir = some d) (hown : L.own d (pdx uvpt))
    (htabs : ∀ i t, k.pmap.tableOf d i = some t → (k.pmap.ppRef t).toNat ≤ 64000)
    (hdref : (k.pmap.ppRef d).toNat ≤ 64000) :
    loadVpt.wp (fun _ k' => ∃ p n, k' = k.setPmap p ∧ Windowed L k.pmap p d n)
      (fun _ => True) k := by
  obtain ⟨d', hd', hdir, -⟩ := h.dir c (h.cur c hc).1
  obtain rfl := Option.some.inj (hd.symm.trans hd')
  have h0 : Windowed L k.pmap k.pmap d 0 :=
    ⟨.refl h.inv, fun _ _ _ => .inl rfl, htabs, hdref⟩
  -- from here on the window has a table
  have hrest : ∀ {k₁ : Kernel}, Windowed L k.pmap k₁.pmap d 0 →
      k₁.pmap.tableOf d (pdx uvpt) ≠ none →
      (do
        fillVpt d
        let _ ← attempt (pageInsert (some d) d (vptAddr (pdx uvpt)) (pteR ||| pteU))
        pure () : Kern Unit).wp (fun _ k' => ∃ p n, k' = k₁.setPmap p ∧
          Windowed L k.pmap p d n) (fun _ => True) k₁ := by
    intro k₁ h₁ htab₁
    have hlen : (List.finRange 1024).length = 1024 := List.length_finRange
    unfold fillVpt
    generalize List.finRange 1024 = is at hlen ⊢
    refine wp_seq (fillVpt_window is h₁ hdir hown htab₁ (by omega)) (fun _ k₂ hk₂ => ?_)
      fun e _ he => absurd he.1 (by simp)
    obtain ⟨-, p, rfl, h₂, htab₂⟩ := hk₂
    have hfree : d ∉ p.pageFreeList := fun hf => by
      have hb := (h₂.kept.inv.free_unref d hf).1
      have hpos := hdir.held
      omega
    refine wp_attempt_seq (window_insert (k := k₁.setPmap p) h₂ hdir hown htab₂ (by omega) hfree
      h₂.dir (pdx uvpt)) fun _ k₃ hk₃ => wp_pure.mpr ?_
    obtain ⟨q, rfl, h₃, -⟩ := hk₃
    exact ⟨q, _, rfl, h₃⟩
  unfold loadVpt
  refine curenv_of_some hc ?_
  rw [wp_get_bind, hd]
  unfold dirOf ensureVpt
  rw [wp_bind, wp_pure]
  simp only
  rw [wp_bind, wp_get_bind]
  by_cases hz : k.pmap.mem d (pdx uvpt) = 0#32
  · rw [if_pos hz]
    refine wp_seq (window_newTable h0 hdir hown hz _) (fun t k₁ hk₁ => ?_) fun e _ he => ?_
    · obtain ⟨p, t, rfl, -, h₁, ht, -⟩ := hk₁
      have htab₁ : p.tableOf d (pdx uvpt) ≠ none := by
        rw [ht]
        simp
      rw [wp_pure]
      exact @hrest (k.setPmap p) h₁ htab₁
    · obtain ⟨p, t, -, hbad, -⟩ := he
      exact absurd hbad (by simp)
  · rw [if_neg hz, wp_pure]
    refine hrest h0 ?_
    rcases hdir.entry h.inv.toForest (pdx uvpt) with ⟨-, h0⟩ | ⟨t, hm, -⟩
    · exact absurd h0 hz
    · rw [Pmap.tableOf, hm, entryFrame_mkPte t flagOnly_zero]
      simp

end Window

end Kern

end RvMos
