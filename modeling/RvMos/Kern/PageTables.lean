/-
The page-table forest and its reference counts.

A `Layout` names the parts of a memory that are directories and page tables.
`own d i` says that entry `i` of directory `d` owns the table it points to;
`shared` are the tables that several directories reach through entries nobody
owns, as the kernel half of every address space does; `plain` marks the entries
of shared tables that were written without counting a reference; and `base`
counts what holds a frame other than an entry.  `Inv` ties the counters and the
free list to the entries of the forest.

Every change that `pmap.c` makes is one of four: a table is added, an entry is
mapped, unmapped, or rewritten in place with other flags.  Each has one lemma
here, and the functions are composed from them.
-/
import RvMos.Kern.Pmap
import RvMos.Lib.Tally

namespace RvMos

open Lib

/-- The parts of memory that are directories and tables. -/
structure Layout where
  own : Frame → Index → Prop
  shared : Frame → Prop
  plain : Frame → Index → Prop
  base : Frame → Nat
  dir_base : ∀ d i, own d i → 0 < base d
  shared_base : ∀ t, shared t → 0 < base t
  apart : ∀ t i, shared t → ¬own t i
  plain_shared : ∀ t j, plain t j → shared t

namespace Pmap

open Classical in
/-- The frame each owned directory entry points to. -/
noncomputable def pdeView (L : Layout) (s : Pmap) : Frame × Index → Option Frame :=
  fun x => if L.own x.1 x.2 then entryFrame (s.mem x.1 x.2) else none

def IsTable (L : Layout) (s : Pmap) (t : Frame) : Prop :=
  L.shared t ∨ ∃ x, s.pdeView L x = some t

open Classical in
/-- The frame each counted entry of a page table points to. -/
noncomputable def pteView (L : Layout) (s : Pmap) : Frame × Index → Option Frame :=
  fun x => if s.IsTable L x.1 ∧ ¬L.plain x.1 x.2 then entryFrame (s.mem x.1 x.2) else none

/-- The number of entries that point to `f`. -/
noncomputable def refs (L : Layout) (s : Pmap) (f : Frame) : Nat :=
  tally (s.pdeView L) f + tally (s.pteView L) f

/-- The shape of directories and tables. -/
structure Forest (L : Layout) (s : Pmap) : Prop where
  pde : ∀ d i, L.own d i → s.mem d i = 0#32 ∨ ∃ t, s.mem d i = mkPte t 0#32
  pde_inj : ∀ x y t, s.pdeView L x = some t → s.pdeView L y = some t → x = y
  table_base : ∀ x t, s.pdeView L x = some t → L.base t = 0
  pte : ∀ t j, s.IsTable L t → ¬L.plain t j →
    s.mem t j = 0#32 ∨ ∃ f fl, FlagOnly fl ∧ s.mem t j = mkPte f fl

/-- The counters and the free list agree with the forest. -/
structure Inv (L : Layout) (s : Pmap) : Prop extends Forest L s where
  free_nodup : s.pageFreeList.Nodup
  free_unref : ∀ f ∈ s.pageFreeList, L.base f = 0 ∧ s.refs L f = 0
  count : ∀ f, (s.ppRef f).toNat = L.base f + s.refs L f

/-! ## Memory accessors -/

@[simp] theorem store_ppRef (s : Pmap) (p : PtePtr) (w : Word) :
    (s.store p w).ppRef = s.ppRef := rfl

@[simp] theorem store_free (s : Pmap) (p : PtePtr) (w : Word) :
    (s.store p w).pageFreeList = s.pageFreeList := rfl

@[simp] theorem incRef_mem (s : Pmap) (pp : Frame) : (s.incRef pp).mem = s.mem := rfl

@[simp] theorem incRef_free (s : Pmap) (pp : Frame) :
    (s.incRef pp).pageFreeList = s.pageFreeList := rfl

theorem incRef_self (s : Pmap) (pp : Frame) : (s.incRef pp).ppRef pp = s.ppRef pp + 1 :=
  Function.update_self ..

theorem incRef_of_ne {s : Pmap} {pp q : Frame} (h : pp ≠ q) :
    (s.incRef pp).ppRef q = s.ppRef q :=
  Function.update_of_ne (Ne.symm h) ..

theorem store_mem_self (s : Pmap) (t : Frame) (j : Index) (w : Word) :
    (s.store ⟨t, j⟩ w).mem t j = w := by
  simp [store]

theorem store_mem_of_ne {s : Pmap} {t t' : Frame} {j j' : Index} (w : Word)
    (h : (t', j') ≠ (t, j)) : (s.store ⟨t, j⟩ w).mem t' j' = s.mem t' j' := by
  by_cases ht : t' = t
  · subst ht
    have hj : j' ≠ j := fun e => h (by rw [e])
    simp [store, Function.update_of_ne hj]
  · simp [store, Function.update_of_ne ht]

theorem store_store (s : Pmap) (p : PtePtr) (v w : Word) :
    (s.store p v).store p w = s.store p w := by
  simp [store]

theorem deref_store_self (s : Pmap) (p : PtePtr) (w : Word) : (s.store p w).deref p = w :=
  store_mem_self s p.frame p.idx w

/-! ## Sixteen-bit counters -/

theorem toNat_add_one {r : BitVec 16} (h : r.toNat < 65535) : (r + 1).toNat = r.toNat + 1 := by
  bv_omega

theorem toNat_sub_one {r : BitVec 16} (h : 0 < r.toNat) : (r - 1).toNat = r.toNat - 1 := by
  bv_omega

/-! ## Views under a change of memory -/

section Views

variable {L : Layout} {s s' : Pmap}

theorem pdeView_congr (h : ∀ d i, L.own d i → s'.mem d i = s.mem d i) :
    s'.pdeView L = s.pdeView L := by
  funext x
  unfold pdeView
  by_cases hx : L.own x.1 x.2
  · rw [if_pos hx, if_pos hx, h _ _ hx]
  · rw [if_neg hx, if_neg hx]

theorem isTable_congr (h : s'.pdeView L = s.pdeView L) (t : Frame) :
    s'.IsTable L t ↔ s.IsTable L t := by
  unfold IsTable
  rw [h]

theorem pdeView_of_own {d : Frame} {i : Index} (h : L.own d i) :
    s.pdeView L (d, i) = entryFrame (s.mem d i) := by
  unfold pdeView
  exact if_pos h

theorem own_of_pdeView {d : Frame} {i : Index} {t : Frame}
    (h : s.pdeView L (d, i) = some t) : L.own d i := by
  by_contra hn
  unfold pdeView at h
  rw [if_neg hn] at h
  exact absurd h (by simp)

theorem pteView_of_table {t : Frame} {j : Index} (ht : s.IsTable L t) (hp : ¬L.plain t j) :
    s.pteView L (t, j) = entryFrame (s.mem t j) := by
  unfold pteView
  exact if_pos ⟨ht, hp⟩

/-- A frame that nothing refers to is neither a directory nor a table. -/
theorem not_isTable_of_unref {f : Frame} (hb : L.base f = 0) (hr : s.refs L f = 0) :
    ¬s.IsTable L f := by
  rintro (hsh | ⟨x, hx⟩)
  · have := L.shared_base f hsh
    omega
  · have := tally_pos_of_holds hx
    unfold refs at hr
    omega

theorem not_own_of_base {f : Frame} (hb : L.base f = 0) (i : Index) : ¬L.own f i := by
  intro h
  have := L.dir_base f i h
  omega

end Views

/-! ## The shape under the four changes -/

/-- The effect of a `page_decref` whose assertion holds. -/
def dropRef (s : Pmap) (pp : Frame) : Pmap :=
  { s with
    ppRef := Function.update s.ppRef pp (s.ppRef pp - 1)
    pageFreeList := if s.ppRef pp = 1 then pp :: s.pageFreeList else s.pageFreeList }

@[simp] theorem dropRef_mem (s : Pmap) (pp : Frame) : (s.dropRef pp).mem = s.mem := rfl

theorem dropRef_self (s : Pmap) (pp : Frame) : (s.dropRef pp).ppRef pp = s.ppRef pp - 1 :=
  Function.update_self ..

theorem dropRef_of_ne {s : Pmap} {pp q : Frame} (h : pp ≠ q) :
    (s.dropRef pp).ppRef q = s.ppRef q :=
  Function.update_of_ne (Ne.symm h) ..

theorem pageDecref_eq {s : Pmap} {pp : Frame} (h : s.ppRef pp ≠ 0) :
    s.pageDecref pp = .ok (s.dropRef pp) := by
  unfold pageDecref
  rw [if_neg h]
  simp only [Function.update_self]
  by_cases h1 : s.ppRef pp = 1
  · simp [pageFree, dropRef, h1]
  · have hne : s.ppRef pp - 1 ≠ 0 := by
      intro h0
      exact h1 (by bv_omega)
    rw [if_neg hne, dropRef, if_neg h1]

namespace Forest

variable {L : Layout} {s : Pmap}

/-- A directory is no page table. -/
theorem table_not_own (hF : s.Forest L) {t : Frame} (ht : s.IsTable L t) (i : Index) :
    ¬L.own t i := by
  rcases ht with hsh | ⟨x, hx⟩
  · exact L.apart t i hsh
  · exact not_own_of_base (hF.table_base x t hx) i

theorem own_ne (hF : s.Forest L) {t d : Frame} {i j : Index} (ht : s.IsTable L t)
    (hown : L.own d i) : (d, i) ≠ (t, j) := by
  rintro heq
  obtain ⟨rfl, rfl⟩ := Prod.mk.injEq .. ▸ heq
  exact hF.table_not_own ht _ hown

/-- Storing into a table leaves every directory alone. -/
theorem pdeView_store (hF : s.Forest L) {t : Frame} {j : Index} {w : Word} {s' : Pmap}
    (ht : s.IsTable L t) (hmem : s'.mem = (s.store ⟨t, j⟩ w).mem) :
    s'.pdeView L = s.pdeView L := by
  refine pdeView_congr fun d i hown => ?_
  rw [hmem, store_mem_of_ne w (hF.own_ne ht hown)]

/-- Storing a counted entry changes the view at that entry. -/
theorem pteView_store (hF : s.Forest L) {t : Frame} {j : Index} {w : Word} {s' : Pmap}
    (ht : s.IsTable L t) (hp : ¬L.plain t j) (hmem : s'.mem = (s.store ⟨t, j⟩ w).mem) :
    s'.pteView L = Function.update (s.pteView L) (t, j) (entryFrame w) := by
  have hview := hF.pdeView_store ht hmem
  funext x
  by_cases hx : x = (t, j)
  · subst hx
    rw [Function.update_self, pteView_of_table ((isTable_congr hview t).mpr ht) hp, hmem,
      store_mem_self]
  · rw [Function.update_of_ne hx]
    unfold pteView
    rw [hmem, store_mem_of_ne w hx]
    by_cases hc : s.IsTable L x.1 ∧ ¬L.plain x.1 x.2
    · rw [if_pos hc, if_pos ⟨(isTable_congr hview x.1).mpr hc.1, hc.2⟩]
    · rw [if_neg hc, if_neg fun h => hc ⟨(isTable_congr hview x.1).mp h.1, h.2⟩]

theorem store (hF : s.Forest L) {t : Frame} {j : Index} {w : Word} {s' : Pmap}
    (ht : s.IsTable L t) (hw : w = 0#32 ∨ ∃ f fl, FlagOnly fl ∧ w = mkPte f fl)
    (hmem : s'.mem = (s.store ⟨t, j⟩ w).mem) : s'.Forest L := by
  have hview := hF.pdeView_store ht hmem
  refine ⟨?_, ?_, ?_, ?_⟩
  · intro d i hown
    rw [hmem, store_mem_of_ne w (hF.own_ne ht hown)]
    exact hF.pde d i hown
  · rw [hview]; exact hF.pde_inj
  · rw [hview]; exact hF.table_base
  · intro t' j' ht' hp'
    by_cases heq : (t', j') = (t, j)
    · obtain ⟨rfl, rfl⟩ := Prod.mk.injEq .. ▸ heq
      rw [hmem, store_mem_self]
      exact hw
    · rw [hmem, store_mem_of_ne w heq]
      exact hF.pte t' j' ((isTable_congr hview t').mp ht') hp'

theorem refs_pos_of_pte {f t : Frame} {j : Index} (ht : s.IsTable L t) (hp : ¬L.plain t j)
    (hf : entryFrame (s.mem t j) = some f) : 0 < s.refs L f := by
  have hpos := tally_pos_of_holds ((pteView_of_table ht hp).trans hf)
  unfold refs
  omega

theorem refs_reflag (hF : s.Forest L) {t f : Frame} {j : Index} {fl : Word} {s' : Pmap}
    (ht : s.IsTable L t) (hp : ¬L.plain t j) (hf : entryFrame (s.mem t j) = some f)
    (hfl : FlagOnly fl) (hmem : s'.mem = (s.store ⟨t, j⟩ (mkPte f fl)).mem) (g : Frame) :
    s'.refs L g = s.refs L g := by
  have hsame : Function.update (s.pteView L) (t, j) (some f) = s.pteView L := by
    rw [← hf, ← pteView_of_table ht hp, Function.update_eq_self]
  rw [refs, hF.pdeView_store ht hmem, hF.pteView_store ht hp hmem, entryFrame_mkPte f hfl,
    hsame, refs]

theorem refs_map (hF : s.Forest L) {t f : Frame} {j : Index} {fl : Word} (s' : Pmap)
    (ht : s.IsTable L t) (hp : ¬L.plain t j) (h0 : s.mem t j = 0#32) (hfl : FlagOnly fl)
    (hmem : s'.mem = (s.store ⟨t, j⟩ (mkPte f fl)).mem) (g : Frame) :
    s'.refs L g = s.refs L g + if f = g then 1 else 0 := by
  have hnone : s.pteView L (t, j) = none := by
    rw [pteView_of_table ht hp, h0, entryFrame_zero]
  rw [refs, hF.pdeView_store ht hmem, hF.pteView_store ht hp hmem, entryFrame_mkPte f hfl,
    tally_fill hnone rfl g, refs, Nat.add_assoc]

theorem refs_unmap (hF : s.Forest L) {t f : Frame} {j : Index} (s' : Pmap)
    (ht : s.IsTable L t) (hp : ¬L.plain t j) (hf : entryFrame (s.mem t j) = some f)
    (hmem : s'.mem = (s.store ⟨t, j⟩ 0#32).mem) (g : Frame) :
    s'.refs L g + (if f = g then 1 else 0) = s.refs L g := by
  have hsome : s.pteView L (t, j) = some f := (pteView_of_table ht hp).trans hf
  have hclear := tally_clear hsome rfl g
  rw [refs, hF.pdeView_store ht hmem, hF.pteView_store ht hp hmem, entryFrame_zero, refs]
  omega

/-- New contents for a frame that is neither a directory nor a table. -/
theorem setData (hF : s.Forest L) {f : Frame} {pg : Page} (s' : Pmap) (hnt : ¬s.IsTable L f)
    (hno : ∀ i, ¬L.own f i) (hmem : s'.mem = Function.update s.mem f pg) :
    s'.Forest L ∧ s'.pdeView L = s.pdeView L ∧ ∀ g, s'.refs L g = s.refs L g := by
  have hmd : ∀ d i, L.own d i → s'.mem d i = s.mem d i := by
    intro d i hown
    have hne : d ≠ f := fun e => hno i (e ▸ hown)
    rw [hmem, Function.update_of_ne hne]
  have hpde : s'.pdeView L = s.pdeView L := pdeView_congr hmd
  have htab := isTable_congr hpde
  have hmt : ∀ t, s.IsTable L t → s'.mem t = s.mem t := by
    intro t ht
    have hne : t ≠ f := fun e => hnt (e ▸ ht)
    rw [hmem, Function.update_of_ne hne]
  have hpte : s'.pteView L = s.pteView L := by
    funext x
    unfold pteView
    by_cases hc : s.IsTable L x.1 ∧ ¬L.plain x.1 x.2
    · rw [if_pos hc, if_pos ⟨(htab x.1).mpr hc.1, hc.2⟩, hmt x.1 hc.1]
    · rw [if_neg hc, if_neg fun h => hc ⟨(htab x.1).mp h.1, h.2⟩]
  refine ⟨⟨?_, ?_, ?_, ?_⟩, hpde, fun g => by rw [refs, refs, hpde, hpte]⟩
  · intro d i hown
    rw [hmd d i hown]
    exact hF.pde d i hown
  · rw [hpde]; exact hF.pde_inj
  · rw [hpde]; exact hF.table_base
  · intro t j ht hp
    rw [hmt t ((htab t).mp ht)]
    exact hF.pte t j ((htab t).mp ht) hp

/-- The tables after entry `(d, i)` was given the table `t`. -/
theorem isTable_newTable {d t : Frame} {i : Index} {s' : Pmap}
    (hnone : s.pdeView L (d, i) = none)
    (hpde : s'.pdeView L = Function.update (s.pdeView L) (d, i) (some t)) (u : Frame) :
    s'.IsTable L u ↔ s.IsTable L u ∨ u = t := by
  unfold IsTable
  rw [hpde]
  constructor
  · rintro (hsh | ⟨x, hx⟩)
    · exact Or.inl (Or.inl hsh)
    · by_cases hxd : x = (d, i)
      · rw [hxd, Function.update_self] at hx
        exact Or.inr (Option.some.inj hx).symm
      · rw [Function.update_of_ne hxd] at hx
        exact Or.inl (Or.inr ⟨x, hx⟩)
  · rintro ((hsh | ⟨x, hx⟩) | rfl)
    · exact Or.inl hsh
    · have hxd : x ≠ (d, i) := fun e => by
        rw [e, hnone] at hx
        exact absurd hx (by simp)
      exact Or.inr ⟨x, by rw [Function.update_of_ne hxd]; exact hx⟩
    · exact Or.inr ⟨(d, i), Function.update_self ..⟩

/-- An owned entry that was clear takes a cleared frame as its page table. -/
theorem newTable (hF : s.Forest L) {d t : Frame} {i : Index} {s' : Pmap} (hown : L.own d i)
    (h0 : s.mem d i = 0#32) (hb : L.base t = 0) (hr : s.refs L t = 0)
    (hz : ∀ j, s.mem t j = 0#32) (hmem : s'.mem = (s.store ⟨d, i⟩ (mkPte t 0#32)).mem) :
    s'.Forest L ∧ (∀ u, s'.IsTable L u ↔ s.IsTable L u ∨ u = t) ∧
      ∀ g, s'.refs L g = s.refs L g + if t = g then 1 else 0 := by
  have hdt : d ≠ t := fun e => not_own_of_base hb i (e ▸ hown)
  have hnt := not_isTable_of_unref hb hr
  have hdtab : ¬s.IsTable L d := fun h => hF.table_not_own h i hown
  have hnone : s.pdeView L (d, i) = none := by
    rw [pdeView_of_own hown, h0, entryFrame_zero]
  have hpde : s'.pdeView L = Function.update (s.pdeView L) (d, i) (some t) := by
    funext x
    by_cases hx : x = (d, i)
    · subst hx
      rw [Function.update_self, pdeView_of_own hown, hmem, store_mem_self,
        entryFrame_mkPte t flagOnly_zero]
    · rw [Function.update_of_ne hx]
      unfold pdeView
      rw [hmem, store_mem_of_ne _ hx]
  have htab := isTable_newTable hnone hpde
  have hmt : ∀ u j, s'.IsTable L u → s'.mem u j = s.mem u j := by
    intro u j hu
    have hud : u ≠ d := by
      rintro rfl
      exact ((htab u).mp hu).elim hdtab hdt
    rw [hmem, store_mem_of_ne _ fun e => hud (congrArg Prod.fst e)]
  have hpte : s'.pteView L = s.pteView L := by
    funext x
    unfold pteView
    by_cases hc : s.IsTable L x.1 ∧ ¬L.plain x.1 x.2
    · have hc' := (htab x.1).mpr (Or.inl hc.1)
      rw [if_pos hc, if_pos ⟨hc', hc.2⟩, hmt _ _ hc']
    · rw [if_neg hc]
      by_cases hc' : s'.IsTable L x.1 ∧ ¬L.plain x.1 x.2
      · rcases (htab x.1).mp hc'.1 with h | h
        · exact absurd ⟨h, hc'.2⟩ hc
        · rw [if_pos hc', hmt _ _ hc'.1, h, hz, entryFrame_zero]
      · rw [if_neg hc']
  have hsplit : ∀ x u, s'.pdeView L x = some u →
      x = (d, i) ∧ u = t ∨ s.pdeView L x = some u := by
    intro x u hx
    rw [hpde] at hx
    by_cases hxd : x = (d, i)
    · subst hxd
      rw [Function.update_self] at hx
      exact Or.inl ⟨rfl, (Option.some.inj hx).symm⟩
    · rw [Function.update_of_ne hxd] at hx
      exact Or.inr hx
  refine ⟨⟨?_, ?_, ?_, ?_⟩, htab, ?_⟩
  · intro d' i' hown'
    by_cases heq : (d', i') = (d, i)
    · obtain ⟨rfl, rfl⟩ := Prod.mk.injEq .. ▸ heq
      exact Or.inr ⟨t, by rw [hmem, store_mem_self]⟩
    · rw [hmem, store_mem_of_ne _ heq]
      exact hF.pde d' i' hown'
  · intro x y u hx hy
    rcases hsplit x u hx with ⟨rfl, rfl⟩ | hx'
    · rcases hsplit y u hy with ⟨rfl, -⟩ | hy'
      · rfl
      · exact absurd (Or.inr ⟨y, hy'⟩) hnt
    · rcases hsplit y u hy with ⟨rfl, rfl⟩ | hy'
      · exact absurd (Or.inr ⟨x, hx'⟩) hnt
      · exact hF.pde_inj x y u hx' hy'
  · intro x u hx
    rcases hsplit x u hx with ⟨-, rfl⟩ | hx'
    · exact hb
    · exact hF.table_base x u hx'
  · intro u j hu hp
    rw [hmt u j hu]
    rcases (htab u).mp hu with h | rfl
    · exact hF.pte u j h hp
    · exact Or.inl (hz j)
  · intro g
    rw [refs, hpde, hpte, tally_fill hnone rfl g, refs]
    omega

end Forest

/-! ## The counters under the four changes -/

namespace Inv

variable {L : Layout} {s : Pmap}

theorem not_free_of_refs (hI : s.Inv L) {f : Frame} (h : 0 < L.base f + s.refs L f) :
    f ∉ s.pageFreeList := by
  intro hf
  have := hI.free_unref f hf
  omega

theorem ppRef_of_free (hI : s.Inv L) {f : Frame} (hf : f ∈ s.pageFreeList) :
    (s.ppRef f).toNat = 0 := by
  obtain ⟨hb, hr⟩ := hI.free_unref f hf
  rw [hI.count f, hb, hr]

theorem not_plain_of_free (hI : s.Inv L) {t : Frame} (ht : t ∈ s.pageFreeList) (j : Index) :
    ¬L.plain t j := by
  intro hpl
  have hpos := L.shared_base t (L.plain_shared t j hpl)
  have hzero := (hI.free_unref t ht).1
  omega

/-- One more reference, counted by `pp_ref += 1`. -/
theorem incRef (hI : s.Inv L) {f : Frame} {s' : Pmap} (hF : s'.Forest L)
    (hrefs : ∀ g, s'.refs L g = s.refs L g + if f = g then 1 else 0)
    (hfree : f ∉ s.pageFreeList) (hroom : L.base f + s.refs L f < 65535)
    (hlist : s'.pageFreeList = s.pageFreeList)
    (hcnt : s'.ppRef = (s.incRef f).ppRef) : s'.Inv L := by
  refine ⟨hF, hlist ▸ hI.free_nodup, ?_, ?_⟩
  · intro g hg
    rw [hlist] at hg
    have hne : f ≠ g := fun e => hfree (e ▸ hg)
    rw [hrefs, if_neg hne, Nat.add_zero]
    exact hI.free_unref g hg
  · intro g
    have hc := hI.count g
    rw [hrefs, hcnt]
    by_cases hg : f = g
    · subst hg
      have hlt : (s.ppRef f).toNat < 65535 := by rw [hc]; exact hroom
      rw [if_pos rfl, incRef_self, toNat_add_one hlt]
      omega
    · rw [if_neg hg, incRef_of_ne hg, Nat.add_zero]
      exact hc

/-- An entry is rewritten in place: same frame, other flags. -/
theorem reflag (hI : s.Inv L) {t f : Frame} {j : Index} {fl : Word} (ht : s.IsTable L t)
    (hp : ¬L.plain t j) (hf : entryFrame (s.mem t j) = some f) (hfl : FlagOnly fl) :
    (s.store ⟨t, j⟩ (mkPte f fl)).Inv L := by
  have hrefs := hI.refs_reflag ht hp hf hfl rfl
  refine ⟨hI.toForest.store ht (Or.inr ⟨f, fl, hfl, rfl⟩) rfl, hI.free_nodup, ?_, ?_⟩
  · intro g hg
    rw [hrefs]
    exact hI.free_unref g hg
  · intro g
    rw [hrefs]
    exact hI.count g

/-- A clear entry is mapped to an allocated frame with room in its counter. -/
theorem map (hI : s.Inv L) {t f : Frame} {j : Index} {fl : Word} (ht : s.IsTable L t)
    (hp : ¬L.plain t j) (h0 : s.mem t j = 0#32) (hfl : FlagOnly fl)
    (hfree : f ∉ s.pageFreeList) (hroom : L.base f + s.refs L f < 65535) :
    ((s.store ⟨t, j⟩ (mkPte f fl)).incRef f).Inv L := by
  have hmem := incRef_mem (s.store ⟨t, j⟩ (mkPte f fl)) f
  exact hI.incRef (hI.toForest.store ht (Or.inr ⟨f, fl, hfl, rfl⟩) hmem)
    (hI.refs_map _ ht hp h0 hfl hmem) hfree hroom rfl rfl

/-- One reference less, counted by `page_decref`. -/
theorem decref (hI : s.Inv L) {L' : Layout} {f : Frame} {s' : Pmap} (hF : s'.Forest L')
    (hrefs : ∀ g, L'.base g + s'.refs L' g + (if f = g then 1 else 0) = L.base g + s.refs L g)
    (hlist : s'.pageFreeList = (s.dropRef f).pageFreeList)
    (hcnt : s'.ppRef = (s.dropRef f).ppRef) : s'.Inv L' := by
  have hrf := hrefs f
  rw [if_pos rfl] at hrf
  have hcf := hI.count f
  have hnotin : f ∉ s.pageFreeList := hI.not_free_of_refs (by omega)
  refine ⟨hF, ?_, ?_, ?_⟩
  · rw [hlist, dropRef]
    by_cases h1 : s.ppRef f = 1
    · rw [if_pos h1]
      exact List.nodup_cons.mpr ⟨hnotin, hI.free_nodup⟩
    · rw [if_neg h1]
      exact hI.free_nodup
  · intro g hg
    have hold : g ∈ s.pageFreeList → L'.base g = 0 ∧ s'.refs L' g = 0 := by
      intro hmem
      have hu := hI.free_unref g hmem
      have hr := hrefs g
      exact ⟨by omega, by omega⟩
    rw [hlist, dropRef] at hg
    by_cases h1 : s.ppRef f = 1
    · rw [if_pos h1] at hg
      rcases List.mem_cons.mp hg with rfl | hmem
      · have hone : (s.ppRef g).toNat = 1 := by rw [h1]; rfl
        exact ⟨by omega, by omega⟩
      · exact hold hmem
    · rw [if_neg h1] at hg
      exact hold hg
  · intro g
    have hr := hrefs g
    have hc := hI.count g
    rw [hcnt]
    by_cases hg : f = g
    · subst hg
      have hsub := toNat_sub_one (r := s.ppRef f) (by omega)
      rw [dropRef_self, hsub]
      omega
    · rw [if_neg hg] at hr
      rw [dropRef_of_ne hg]
      omega

/-- An entry is cleared and its frame gives back one reference. -/
theorem unmap (hI : s.Inv L) {t f : Frame} {j : Index} (ht : s.IsTable L t)
    (hp : ¬L.plain t j) (hf : entryFrame (s.mem t j) = some f) :
    ((s.dropRef f).store ⟨t, j⟩ 0#32).Inv L := by
  have hmem : ((s.dropRef f).store ⟨t, j⟩ 0#32).mem = (s.store ⟨t, j⟩ 0#32).mem := rfl
  have hrefs := hI.refs_unmap _ ht hp hf hmem
  refine hI.decref (hI.toForest.store ht (Or.inl rfl) hmem) (fun g => ?_) rfl rfl
  have hr := hrefs g
  omega

/-- A frame nothing refers to is cleared and leaves the free list. -/
theorem alloc (hI : s.Inv L) {f : Frame} {s' : Pmap} (h : s.pageAlloc = .ok (f, s')) :
    s'.Inv L ∧ s.pageFreeList = f :: s'.pageFreeList ∧ s'.ppRef = s.ppRef ∧
      s'.mem = Function.update s.mem f (fun _ => 0#32) ∧
      s'.pdeView L = s.pdeView L ∧ (∀ g, s'.refs L g = s.refs L g) ∧
      L.base f = 0 ∧ s.refs L f = 0 := by
  unfold pageAlloc at h
  cases hl : s.pageFreeList with
  | nil => rw [hl] at h; exact absurd h (by simp)
  | cons g rest =>
    rw [hl] at h
    obtain ⟨rfl, rfl⟩ : g = f ∧ _ = s' := by simpa using h
    obtain ⟨hb, hr⟩ := hI.free_unref g (by rw [hl]; exact List.mem_cons_self)
    obtain ⟨hF, hpde, hrefs⟩ := hI.toForest.setData
      (({ s with pageFreeList := rest } : Pmap).zeroPage g) (not_isTable_of_unref hb hr)
      (not_own_of_base hb) rfl
    have hnd := hI.free_nodup
    rw [hl] at hnd
    refine ⟨⟨hF, (List.nodup_cons.mp hnd).2, ?_, ?_⟩, rfl, rfl, rfl, hpde, hrefs, hb, hr⟩
    · intro e he
      rw [hrefs]
      exact hI.free_unref e (by rw [hl]; exact List.mem_cons_of_mem _ he)
    · intro e
      rw [hrefs]
      exact hI.count e

/-- New contents for a frame that is neither a directory nor a table. -/
theorem setData (hI : s.Inv L) {f : Frame} (pg : Page) (hnt : ¬s.IsTable L f)
    (hno : ∀ i, ¬L.own f i) : ({ s with mem := Function.update s.mem f pg } : Pmap).Inv L := by
  obtain ⟨hF, -, hrefs⟩ := hI.toForest.setData { s with mem := Function.update s.mem f pg } hnt hno
    rfl
  refine ⟨hF, hI.free_nodup, fun g hg => ?_, fun g => ?_⟩
  · rw [hrefs]
    exact hI.free_unref g hg
  · rw [hrefs]
    exact hI.count g

end Inv
end Pmap
end RvMos
