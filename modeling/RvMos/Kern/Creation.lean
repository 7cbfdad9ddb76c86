/-
Creation of an environment and the address spaces of the others.

The directory of a new environment is a copy of `base_pgdir`.  What
`env_setup_vm` inserts below a clear entry of the copy goes into tables that come
from the free list, and nobody else sees it.  The kernel stack lies below an
entry that `env_init` has filled: its pages go into the table that all
directories share, and take the place of the stack pages of everybody else.
-/
import RvMos.Kern.Reach

namespace RvMos

open Lib

/-! ## Frames that were free -/

namespace Pmap

/-- Since `s₀` only frames that were free have changed: the directory `p`, what
it has below the entries that are clear in `b`, and frames nobody uses. -/
structure Nursery (s₀ : Pmap) (b p : Frame) (s : Pmap) : Prop where
  mem : ∀ f, f ∉ s₀.pageFreeList → s.mem f = s₀.mem f
  free : ∀ f ∈ s.pageFreeList, f ∈ s₀.pageFreeList
  self : p ∈ s₀.pageFreeList
  tables : ∀ i t, s₀.mem b i = 0#32 → s.tableOf p i = some t → t ∈ s₀.pageFreeList
  pages : ∀ i t j f, s₀.mem b i = 0#32 → s.tableOf p i = some t →
    entryFrame (s.mem t j) = some f → f ∈ s₀.pageFreeList

section Nursery

variable {L : Layout} {s₀ s s' : Pmap} {b p : Frame}

/-- An insertion below a clear entry of a directory takes a frame for the table. -/
theorem pageInsert_free (hI : s.Inv L) (hd : s.Dir L p) {va perm : Word} {pp : Frame}
    {r : Except Errno Unit} (hc : s.Counted L p va) (h0 : s.mem p (pdx va) = 0#32)
    (hins : s.pageInsert p pp va perm = .ok (r, s')) :
    s'.pageFreeList.length = s.pageFreeList.length - 1 := by
  rcases pageInsert_cases hI hd pp perm hc with
    ⟨t, hm, -⟩ | ⟨t, -, hm, -⟩ | ⟨t, hm, -⟩ | ⟨t, s₁, -, -, ha, hr⟩ | ⟨-, -, hnil, hr⟩
  · exact absurd (hm.symm.trans h0) (mkPte_ne_zero t _)
  · exact absurd (hm.symm.trans h0) (mkPte_ne_zero t _)
  · exact absurd (hm.symm.trans h0) (mkPte_ne_zero t _)
  · obtain ⟨-, rfl⟩ := Prod.mk.inj (Except.ok.inj (hr.symm.trans hins))
    rw [(hI.alloc ha).2.1]
    rfl
  · obtain ⟨-, rfl⟩ := Prod.mk.inj (Except.ok.inj (hr.symm.trans hins))
    rw [hnil]
    rfl

theorem Nursery.alloc (h : Nursery s₀ b p s) (hI : s.Inv L) (hd : s.Dir L p) {q : Frame}
    (ha : s.pageAlloc = .ok (q, s')) : Nursery s₀ b p s' ∧ q ∈ s₀.pageFreeList := by
  obtain ⟨-, hfree, -, hmem, -⟩ := hI.alloc ha
  have hqs : q ∈ s.pageFreeList := by rw [hfree]; exact List.mem_cons_self
  have hq := h.free q hqs
  have hpq : p ≠ q := fun e => hd.not_free hI (e ▸ hqs)
  have htab : ∀ i, s'.tableOf p i = s.tableOf p i := fun i => by
    rw [tableOf, tableOf, hmem, Function.update_of_ne hpq]
  refine ⟨⟨fun f hf => ?_, fun f hf => h.free f (by rw [hfree]; exact List.mem_cons_of_mem _ hf),
    h.self, fun i t hi ht => h.tables i t hi (htab i ▸ ht), fun i t j f hi ht hf => ?_⟩, hq⟩
  · have hfq : f ≠ q := fun e => hf (e ▸ hq)
    rw [hmem, Function.update_of_ne hfq]
    exact h.mem f hf
  · rw [htab] at ht
    have htq : t ≠ q := fun e =>
      table_not_free hI (hd.isTable hI.toForest ht).1 (e ▸ hqs)
    rw [hmem, Function.update_of_ne htq] at hf
    exact h.pages i t j f hi ht hf

/-- A word is stored into a table that the new directory has to itself. -/
theorem Nursery.store (h : Nursery s₀ b p s) {i j : Index} {t : Frame} {w : Word} (hpt : p ≠ t)
    (hi : s₀.mem b i = 0#32) (ht : s.tableOf p i = some t)
    (hw : ∀ f, entryFrame w = some f → f ∈ s₀.pageFreeList)
    (hmem : s'.mem = (s.store ⟨t, j⟩ w).mem)
    (hfree : ∀ f ∈ s'.pageFreeList, f ∈ s₀.pageFreeList) : Nursery s₀ b p s' := by
  have htf := h.tables i t hi ht
  have htab : ∀ i', s'.tableOf p i' = s.tableOf p i' := fun i' => by
    rw [tableOf, tableOf, hmem, store_mem_of_ne w fun e => hpt (congrArg Prod.fst e)]
  refine ⟨fun f hf => ?_, hfree, h.self, fun i' t' hi' ht' => h.tables i' t' hi' (htab i' ▸ ht'),
    fun i' t' j' f hi' ht' hf => ?_⟩
  · have hft : f ≠ t := fun e => hf (e ▸ htf)
    funext k
    rw [hmem, store_mem_of_ne w fun e => hft (congrArg Prod.fst e), h.mem f hf]
  · rw [htab] at ht'
    by_cases hslot : (t', j') = (t, j)
    · obtain ⟨rfl, rfl⟩ := Prod.mk.injEq .. ▸ hslot
      rw [hmem, store_mem_self] at hf
      exact hw f hf
    · rw [hmem, store_mem_of_ne w hslot] at hf
      exact h.pages i' t' j' f hi' ht' hf

/-- A clear entry of the new directory takes a free frame as its table. -/
theorem Nursery.newTable (h : Nursery s₀ b p s) (hI : s.Inv L) (hd : s.Dir L p) {i : Index}
    {t : Frame} {s₁ : Pmap} (ha : s.pageAlloc = .ok (t, s₁))
    (hmem : s'.mem = (s₁.store ⟨p, i⟩ (mkPte t 0#32)).mem)
    (hfree : s'.pageFreeList = s₁.pageFreeList) : Nursery s₀ b p s' := by
  obtain ⟨h₁, htf⟩ := h.alloc hI hd ha
  obtain ⟨-, hl, -, hmem₁, -⟩ := hI.alloc ha
  have hts : t ∈ s.pageFreeList := by rw [hl]; exact List.mem_cons_self
  have hpt : p ≠ t := fun e => hd.not_free hI (e ▸ hts)
  have hself : s'.tableOf p i = some t := by
    rw [tableOf, hmem, store_mem_self, entryFrame_mkPte t flagOnly_zero]
  have hother : ∀ i', i' ≠ i → s'.tableOf p i' = s₁.tableOf p i' := fun i' hne => by
    rw [tableOf, tableOf, hmem, store_mem_of_ne _ fun e => hne (congrArg Prod.snd e)]
  have hmp : ∀ f, f ≠ p → s'.mem f = s₁.mem f := fun f hne => by
    funext k
    rw [hmem, store_mem_of_ne _ fun e => hne (congrArg Prod.fst e)]
  refine ⟨fun f hf => ?_, fun f hf => h₁.free f (hfree ▸ hf), h.self, fun i' u hi' hu => ?_,
    fun i' u j f hi' hu hf => ?_⟩
  · rw [hmp f fun e => hf (e ▸ h.self)]
    exact h₁.mem f hf
  · by_cases hie : i' = i
    · rw [hie, hself] at hu
      exact Option.some.inj hu ▸ htf
    · exact h₁.tables i' u hi' (hother i' hie ▸ hu)
  · by_cases hie : i' = i
    · rw [hie, hself] at hu
      rw [← Option.some.inj hu, hmp t (Ne.symm hpt), hmem₁, Function.update_self,
        entryFrame_zero] at hf
      exact absurd hf (by simp)
    · rw [hother i' hie] at hu
      have hd₁ : s₁.Dir L p := hd.alloc hI ha
      have hI₁ := (hI.alloc ha).1
      have hup : u ≠ p := fun e =>
        hd₁.not_isTable hI₁.toForest (e ▸ (hd₁.isTable hI₁.toForest hu).1)
      rw [hmp u hup] at hf
      exact h₁.pages i' u j f hi' hu hf

/-- A frame that was free is inserted below an entry that is clear in `b`. -/
theorem Nursery.insert (h : Nursery s₀ b p s) (hI : s.Inv L) (hd : s.Dir L p) {va perm : Word}
    {pp : Frame} {r : Except Errno Unit} (hc : s.Counted L p va) (hi : s₀.mem b (pdx va) = 0#32)
    (hpp : pp ∈ s₀.pageFreeList) (hfl : FlagOnly perm)
    (hins : s.pageInsert p pp va perm = .ok (r, s')) : Nursery s₀ b p s' := by
  have hw : ∀ f, entryFrame (mkPte pp perm) = some f → f ∈ s₀.pageFreeList := fun f hf => by
    rw [entryFrame_mkPte pp hfl] at hf
    exact Option.some.inj hf ▸ hpp
  have htabs : ∀ {t : Frame}, s.mem p (pdx va) = mkPte t 0#32 → s.IsTable L t →
      s.tableOf p (pdx va) = some t ∧ p ≠ t := fun hm ht =>
    ⟨by rw [tableOf, hm, entryFrame_mkPte _ flagOnly_zero],
      fun e => hd.not_isTable hI.toForest (e ▸ ht)⟩
  rcases pageInsert_cases hI hd pp perm hc with
    ⟨t, hm, ht, -, -, hr⟩ | ⟨t, old, hm, ht, -, -, hf, hr⟩ | ⟨t, hm, ht, -, -, hr⟩ |
    ⟨t, s₁, -, -, ha, hr⟩ | ⟨-, -, -, hr⟩
  all_goals
    obtain ⟨-, rfl⟩ := Prod.mk.inj (Except.ok.inj (hr.symm.trans hins))
  · obtain ⟨htd, hpt⟩ := htabs hm ht
    exact h.store hpt hi htd hw rfl h.free
  · -- the page that was there goes back to the free list, where it came from
    obtain ⟨htd, hpt⟩ := htabs hm ht
    refine h.store (j := ptx va) hpt hi htd hw (by rw [incRef_mem, store_store]; rfl) fun f hf' => ?_
    simp only [incRef_free, store_free, dropRef] at hf'
    split at hf'
    · rcases List.mem_cons.mp hf' with rfl | hf'
      · exact h.pages _ t _ f hi htd hf
      · exact h.free f hf'
    · exact h.free f hf'
  · obtain ⟨htd, hpt⟩ := htabs hm ht
    exact h.store hpt hi htd hw (incRef_mem _ _) h.free
  · have hts : t ∈ s.pageFreeList := by rw [(hI.alloc ha).2.1]; exact List.mem_cons_self
    have hpt : p ≠ t := fun e => hd.not_free hI (e ▸ hts)
    have h₂ := h.newTable hI hd ha
      (incRef_mem (s₁.store ⟨p, pdx va⟩ (mkPte t 0#32)) t) rfl
    refine h₂.store hpt hi ?_ hw (incRef_mem _ _) h₂.free
    rw [tableOf, incRef_mem, store_mem_self, entryFrame_mkPte t flagOnly_zero]
  · exact h

end Nursery

end Pmap

/-! ## The stacks of a new environment -/

/-- The directory entry above the three pages of the kernel stack. -/
def kstackPdx : Index := pdx (kstacktop - 4096#32)

/-- In `s` a clear page that was free is at the top of the kernel stack of everybody who
has the template's table there. -/
def Kernel.NewStack (k : Kernel) (s : Pmap) : Prop :=
  ∃ q ∈ k.pmap.pageFreeList, (∀ i, s.mem q i = 0#32) ∧ ∀ c d, k.Live c →
    (k.envs c).pgdir = some d → k.pmap.mem d kstackPdx = k.pmap.mem k.basePgdir kstackPdx →
      s.pteOf d (kstacktop - 4096#32) = mkPte q (pteW ||| pteR)

namespace Kern

open Sys

section Stacks

variable {L : Layout} {k k₀ : Kernel} {e : EnvIdx} {p : Frame} {E : Halt → Prop}

theorem pdx_kstack {n : Nat} (hn : n < 3) :
    pdx (kstacktop - BitVec.ofNat 32 ((n + 1) * 4096)) = kstackPdx := by
  have hall : ∀ n < 3, pdx (kstacktop - BitVec.ofNat 32 ((n + 1) * 4096)) = kstackPdx := by decide
  exact hall n hn

theorem uxstack_lt {n : Nat} (hn : n < 3) :
    uxstacktop - BitVec.ofNat 32 ((n + 1) * 4096) < utop := by
  have hall : ∀ n < 3, uxstacktop - BitVec.ofNat 32 ((n + 1) * 4096) < utop := by decide
  exact hall n hn

/-- A fresh page below an entry that is clear in the template. -/
theorem NewPage.nursery {va perm : Word} {q : Frame} {s s₁ s' s₀ : Pmap} {b : Frame}
    (hnp : NewPage L p va perm s q s₁ s') (h : Pmap.Nursery s₀ b p s) (hI : s.Inv L)
    (hd : s.Dir L p) (hc : s.Counted L p va) (hfl : FlagOnly perm)
    (hi : s₀.mem b (pdx va) = 0#32) : Pmap.Nursery s₀ b p s' := by
  obtain ⟨h₁, hq⟩ := h.alloc hI hd hnp.alloc
  have hk := Pmap.kept_alloc hI hnp.alloc
  rcases hnp.insert with ⟨hins, -⟩ | ⟨rfl, -, -⟩
  · exact h₁.insert hk.inv (hk.dirs p hd) (hk.counted hI.toForest hd hc) hi hq hfl hins
  · exact h₁

/-- What is known between two steps of `env_setup_vm`. -/
structure Growing (L : Layout) (k₀ : Kernel) (e : EnvIdx) (p : Frame) (k : Kernel) : Prop where
  newborn : Newborn L k e p
  same : SameLive k₀ k
  base : k.basePgdir = k₀.basePgdir
  nursery : Pmap.Nursery k₀.pmap k₀.basePgdir p k.pmap

/-- The page of the exception stack in round `n`. -/
theorem wp_uxstack (h : Growing L k₀ e p k) (hu : ∀ i, Personal i → k₀.pmap.mem k₀.basePgdir i = 0#32) {n : Nat}
    (hn : n < 3) {m : Kern Unit} {Q : Except Errno Unit → Kernel → Prop}
    (herr : k.pmap.pageFreeList = [] → Q (.error .noMem) k)
    (hok : ∀ q s₁ s, NewPage L p (uxstacktop - BitVec.ofNat 32 ((n + 1) * 4096))
      (pteU ||| pteW ||| pteR) k.pmap q s₁ s → Growing L k₀ e p (k.setPmap s) →
      m.wp Q E (k.setPmap s)) :
    (do
      let q ← pageAlloc
      let _ ← attempt (pageInsert (some p) q (uxstacktop - BitVec.ofNat 32 ((n + 1) * 4096))
        (pteU ||| pteW ||| pteR))
      m : Kern Unit).wp Q E k := by
  have hper := personal_of_lt (uxstack_lt hn)
  have hown := h.newborn.user.own _ hper
  have hc := Pmap.counted_of_own h.newborn.spaces.inv.toForest hown
  refine wp_newPage h.newborn h.same hc (.inl hown) (by decide) (by decide) herr
    fun q s₁ s hnp hs hsame => hok q s₁ s hnp ⟨hs, hsame, h.base, ?_⟩
  exact hnp.nursery h.nursery h.newborn.spaces.inv h.newborn.dir hc (by decide) (hu _ hper)

/-- The first page of the exception stack takes a frame for itself and one for its
table. -/
theorem NewPage.free_of_clear {va perm : Word} {q : Frame} {s s₁ s' : Pmap}
    (hnp : NewPage L p va perm s q s₁ s') (hI : s.Inv L) (hd : s.Dir L p) (hc : s.Counted L p va)
    (h0 : s.mem p (pdx va) = 0#32) : s'.pageFreeList.length = s.pageFreeList.length - 2 := by
  obtain ⟨-, hl, -, hmem, -⟩ := hI.alloc hnp.alloc
  have hk := Pmap.kept_alloc hI hnp.alloc
  have hpq : p ≠ q := fun e => hd.not_free hI (e ▸ (by rw [hl]; exact List.mem_cons_self))
  rw [hl, List.length_cons]
  rcases hnp.insert with ⟨hins, -⟩ | ⟨rfl, -, hnil⟩
  · rw [Pmap.pageInsert_free hk.inv (hk.dirs p hd) (hk.counted hI.toForest hd hc)
      (by rw [hmem, Function.update_of_ne hpq]; exact h0) hins]
    rfl
  · rw [hnil]
    rfl

/-- With less than three frames left there is none for the kernel stack. -/
theorem mapStacks_short (h : Growing L k₀ e p k) (hu : ∀ i, Personal i → k₀.pmap.mem k₀.basePgdir i = 0#32)
    (hclear : k.pmap.mem p (pdx (uxstacktop - 4096#32)) = 0#32)
    (hlen : k.pmap.pageFreeList.length < 3) :
    (mapStacks p 0).wp (fun r k' => r ≠ .ok () ∧ Growing L k₀ e p k') E k := by
  unfold mapStacks
  refine wp_uxstack h hu (by decide) (fun _ => ⟨by simp, h⟩) fun _ _ s hnp hs => ?_
  have hown := h.newborn.user.own _ (personal_of_lt (uxstack_lt (n := 0) (by decide)))
  have hfree := hnp.free_of_clear h.newborn.spaces.inv h.newborn.dir
    (Pmap.counted_of_own h.newborn.spaces.inv.toForest hown) hclear
  have hnil : s.pageFreeList = [] := List.length_eq_zero_iff.mp (by omega)
  rw [wp_bind]
  refine wp_pageAlloc (fun _ => ⟨by simp, hs⟩) fun q s' ha => ?_
  rw [show (k.setPmap s).pmap = s from rfl, Pmap.pageAlloc, hnil] at ha
  exact absurd ha (by simp)

/-! ## The shared table -/

/-- The new directory shows the page `q`, which is clear, at the top of the kernel
stack. -/
structure Stamped (L : Layout) (k₀ : Kernel) (e : EnvIdx) (p q : Frame) (k : Kernel) : Prop where
  newborn : Newborn L k e p
  same : SameLive k₀ k
  was_free : q ∈ k₀.pmap.pageFreeList
  pte : k.pmap.pteOf p (kstacktop - 4096#32) = mkPte q (pteW ||| pteR)
  data : k.pmap.Data L q
  clear : ∀ i, k.pmap.mem q i = 0#32

/-- A page that is mapped is not touched by later ones. -/
theorem NewPage.data {va perm : Word} {q q' : Frame} {s s₁ s' : Pmap}
    (hnp : NewPage L p va perm s q' s₁ s') (hI : s.Inv L) (hd : s.Dir L p) (hq : s.Data L q)
    (hfree : q ∉ s.pageFreeList) : s'.Data L q ∧ s'.mem q = s.mem q := by
  obtain ⟨-, hl, -, hmem, hpde, -⟩ := hI.alloc hnp.alloc
  rw [hl, List.mem_cons, not_or] at hfree
  have hq₁ : s₁.Data L q := ⟨hq.base, fun ht => hq.not_table ((Pmap.isTable_congr hpde q).mp ht)⟩
  have hmem₁ : s₁.mem q = s.mem q := by rw [hmem, Function.update_of_ne hfree.1]
  rcases hnp.insert with ⟨-, hins⟩ | ⟨rfl, -, -⟩
  · have hne : q ≠ p := fun he => hd.ne_of_base hq.base he.symm
    exact ⟨hq₁.insert hfree.2 hins, (hins.data q hq₁.not_table hfree.2 hne).trans hmem₁⟩
  · exact ⟨hq₁, hmem₁⟩

theorem Stamped.not_free {q : Frame} (h : Stamped L k₀ e p q k) : q ∉ k.pmap.pageFreeList := by
  refine (Pmap.not_free_of_mapped h.newborn.spaces.inv h.newborn.dir
    (h.newborn.kstack 0 (by decide)).1 ?_).1
  show entryFrame (k.pmap.pteOf p (kstacktop - 4096#32)) = some q
  rw [h.pte, entryFrame_mkPte q (by decide)]

/-- The kernel stack goes into a table that exists already. -/
theorem mapStacks_stamped (h : Growing L k₀ e p k) (hu : ∀ i, Personal i → k₀.pmap.mem k₀.basePgdir i = 0#32)
    (hclear : k.pmap.mem p (pdx (uxstacktop - 4096#32)) = 0#32)
    (hlen : 3 ≤ k.pmap.pageFreeList.length) (hown : ¬L.own p kstackPdx) :
    (mapStacks p 0).wp (fun _ k' => ∃ q, Stamped L k₀ e p q k') E k := by
  unfold mapStacks
  have hux := h.newborn.user.own _ (personal_of_lt (uxstack_lt (n := 0) (by decide)))
  refine wp_uxstack h hu (by decide) (fun hnil => ?_) fun _ _ s hnp hs => ?_
  · rw [hnil] at hlen
    exact absurd hlen (by decide)
  have hfree := hnp.free_of_clear h.newborn.spaces.inv h.newborn.dir
    (Pmap.counted_of_own h.newborn.spaces.inv.toForest hux) hclear
  obtain ⟨hc, hlib⟩ := hs.newborn.kstack 0 (by decide)
  refine wp_newPage hs.newborn hs.same hc hlib (by decide) (by decide) (fun hnil => ?_)
    fun q s₁ s' hnp' hs' hsame => ?_
  · rw [show s.pageFreeList = [] from hnil] at hfree
    rw [List.length_nil] at hfree
    omega
  · have hI := hs.newborn.spaces.inv
    obtain ⟨-, hl, -, hmem, -⟩ := hI.alloc hnp'.alloc
    have hdata := Pmap.data_of_alloc hI hnp'.alloc
    have hnew := Pmap.not_free_of_alloc hI hnp'.alloc
    rcases hnp'.insert with ⟨-, hins⟩ | ⟨-, hnone, -⟩
    · refine wp_pure.mpr ⟨q, hs', hsame, hs.nursery.free q ?_, hins.pte, hdata.insert hnew hins,
        fun i => ?_⟩
      · rw [show (k.setPmap s).pmap.pageFreeList = _ from hl]
        exact List.mem_cons_self
      · have hne : q ≠ p := fun he => hs.newborn.dir.ne_of_base hdata.base he.symm
        show s'.mem q i = 0#32
        rw [hins.data q hdata.not_table hnew hne, hmem, Function.update_self]
    · -- an entry without a table is owned
      have hk := Pmap.kept_alloc hI hnp'.alloc
      exact absurd ((hk.dirs p hs.newborn.dir).none hk.inv.toForest hnone).1 hown

/-- A fresh page in another slot. -/
theorem NewPage.pteOf {va perm va' : Word} {q : Frame} {s s₁ s' : Pmap}
    (hnp : NewPage L p va perm s q s₁ s') (hI : s.Inv L) (hd : s.Dir L p)
    (hne : ¬s'.SameSlot p va p va') : s'.pteOf p va' = s.pteOf p va' := by
  have halloc := Pmap.pteOf_alloc hI hd hnp.alloc va'
  rcases hnp.insert with ⟨-, hins⟩ | ⟨rfl, -, -⟩
  · exact (hins.other p va' (hd.alloc hI hnp.alloc) hne).trans halloc
  · exact halloc

/-- Later rounds leave the first page of the kernel stack in place. -/
theorem mapStacks_keeps {q : Frame} (h : Stamped L k₀ e p q k) {n : Nat} (hn : n < 3) (h0 : 0 < n) :
    (mapStacks p n).wp (fun _ k' => Stamped L k₀ e p q k') E k := by
  have hux : ∀ n < 3, vpn (kstacktop - 4096#32) ≠
      vpn (uxstacktop - BitVec.ofNat 32 ((n + 1) * 4096)) := by decide
  have hks : ∀ n < 3, 0 < n → ptx (kstacktop - BitVec.ofNat 32 ((n + 1) * 4096)) ≠
      ptx (kstacktop - 4096#32) := by decide
  unfold mapStacks
  have hown := h.newborn.user.own _ (personal_of_lt (uxstack_lt hn))
  refine wp_newPage h.newborn h.same (Pmap.counted_of_own h.newborn.spaces.inv.toForest hown)
    (.inl hown) (by decide) (by decide) (fun _ => h) fun _ _ s hnp hs hsame => ?_
  have h₁ : Stamped L k₀ e p q (k.setPmap s) := by
    obtain ⟨hdata, hmem⟩ := hnp.data h.newborn.spaces.inv h.newborn.dir h.data h.not_free
    refine ⟨hs, hsame, h.was_free, ?_, hdata, fun i => (congrFun hmem i).trans (h.clear i)⟩
    rw [← h.pte]
    refine hnp.pteOf h.newborn.spaces.inv h.newborn.dir fun hslot => ?_
    exact hux n hn (Pmap.sameSlot_of_own hs.spaces.inv.toForest hown hs.dir hslot).2
  obtain ⟨hc, hlib⟩ := hs.kstack n hn
  refine wp_newPage hs hsame hc hlib (by decide) (by decide) (fun _ => h₁)
    fun _ _ s' hnp' hs' hsame' => ?_
  obtain ⟨hdata, hmem⟩ := hnp'.data hs.spaces.inv hs.dir h₁.data h₁.not_free
  refine wp_pure.mpr ⟨hs', hsame', h.was_free, ?_, hdata, fun i => (congrFun hmem i).trans (h₁.clear i)⟩
  rw [← h₁.pte]
  refine hnp'.pteOf hs.spaces.inv hs.dir fun hslot => ?_
  obtain ⟨-, -, -, hx⟩ := hslot
  exact hks n hn h0 hx

/-- The start of `env_setup_vm`. -/
def adopted (k : Kernel) (e : EnvIdx) (p : Frame) (s : Pmap) : Kernel :=
  (k.setPmap (s.copyDir p k.basePgdir)).setEnv e fun v => { v with pgdir := some p }

theorem growing_adopted (h : Spaces L k) (he : ¬k.Live e) {s : Pmap}
    (ha : k.pmap.pageAlloc = .ok (p, s)) :
    (∃ L', Growing L' k e p (adopted k e p s)) ∧
      (adopted k e p s).pmap.mem p = k.pmap.mem k.basePgdir ∧
      k.pmap.pageFreeList.length = (adopted k e p s).pmap.pageFreeList.length + 1 := by
  obtain ⟨-, hl, -⟩ := h.inv.alloc ha
  have hcp := Pmap.copied_copyDir h.inv h.template ha
  obtain ⟨L', -, hnew, hbelow⟩ := h.copyDir he ha
  have hfree : (adopted k e p s).pmap.pageFreeList = s.pageFreeList := rfl
  refine ⟨⟨L', hnew, ((SameLive.refl k).setPmap hbelow).setEnv he rfl, rfl, ?_⟩, hcp.self, ?_⟩
  · have hnone : ∀ i t, k.pmap.mem k.basePgdir i = 0#32 →
        (adopted k e p s).pmap.tableOf p i ≠ some t := by
      intro i t hi ht
      have hm : (adopted k e p s).pmap.mem p = k.pmap.mem k.basePgdir := hcp.self
      rw [Pmap.tableOf, hm, hi, entryFrame_zero] at ht
      exact absurd ht (by simp)
    refine ⟨fun f hf => hcp.other f fun e => hf (e ▸ hcp.free), fun f hf => ?_, hcp.free,
      fun i t hi ht => absurd ht (hnone i t hi), fun i t _ _ hi ht => absurd ht (hnone i t hi)⟩
    rw [hl]
    exact List.mem_cons_of_mem _ hf
  · rw [hl, hfree, List.length_cons]

/-- With less than four frames `env_setup_vm` fails before it comes to the kernel
stack. -/
theorem envSetupVm_short (h : Spaces L k) (he : ¬k.Live e)
    (hlen : k.pmap.pageFreeList.length < 4) :
    (envSetupVm e).wp (fun _ k' => ∀ f, f ∉ k.pmap.pageFreeList → k'.pmap.mem f = k.pmap.mem f)
      E k := by
  unfold envSetupVm
  rw [wp_bind]
  refine wp_pageAlloc (fun _ _ _ => rfl) fun p s ha => ?_
  simp only
  rw [wp_modify_bind, wp_modify_bind]
  show (each (mapStacks p) [0, 1, 2]).wp _ _ (adopted k e p s)
  obtain ⟨⟨L', h₀⟩, hself, hlen'⟩ := growing_adopted h he ha
  have hu := h.template.user
  have hclear : (adopted k e p s).pmap.mem p (pdx (uxstacktop - 4096#32)) = 0#32 := by
    rw [hself]
    exact hu _ (personal_of_lt (uxstack_lt (n := 0) (by decide)))
  simp only [each]
  exact wp_seq (mapStacks_short h₀ hu hclear (by omega)) (fun _ _ h₁ => absurd rfl h₁.1)
    fun _ _ h₁ => h₁.2.nursery.mem

/-- The kernel stack of the new environment becomes that of every environment
that has the entry of the template. -/
theorem envSetupVm_stamps (h : Spaces L k) (he : ¬k.Live e)
    (hk : k.pmap.mem k.basePgdir kstackPdx ≠ 0#32) (hlen : 4 ≤ k.pmap.pageFreeList.length) :
    (envSetupVm e).wp (fun _ k' => k.NewStack k'.pmap) E k := by
  unfold envSetupVm
  rw [wp_bind]
  refine wp_pageAlloc (fun hnil => ?_) fun p s ha => ?_
  · rw [hnil] at hlen
    exact absurd hlen (by decide)
  simp only
  rw [wp_modify_bind, wp_modify_bind]
  show (each (mapStacks p) [0, 1, 2]).wp _ _ (adopted k e p s)
  obtain ⟨⟨L', h₀⟩, hself, hlen'⟩ := growing_adopted h he ha
  have hu := h.template.user
  -- the entry leads to a shared table, so nobody who has it owns it
  have hbase : (adopted k e p s).pmap.mem k.basePgdir = k.pmap.mem k.basePgdir :=
    h₀.nursery.mem _ (h.template.held.not_free h.inv)
  obtain ⟨t, hsh, hm⟩ := (h₀.newborn.spaces.template.entries kstackPdx).resolve_left
    (by rw [h₀.base, hbase]; exact hk)
  rw [h₀.base, hbase] at hm
  have hnot : ∀ d, (adopted k e p s).pmap.mem d kstackPdx = k.pmap.mem k.basePgdir kstackPdx →
      ¬L'.own d kstackPdx := by
    intro d hd hown
    refine Pmap.not_shared_of_owned h₀.newborn.spaces.inv.toForest hown ?_ hsh
    rw [Pmap.tableOf, hd, hm, entryFrame_mkPte t flagOnly_zero]
  have hp : ¬L'.own p kstackPdx := hnot p (by rw [hself])
  have hend : ∀ q k', Stamped L' k e p q k' → k.NewStack k'.pmap := by
    intro q k' hs
    refine ⟨q, hs.was_free, hs.clear, fun c d hc hd hdk => ?_⟩
    obtain ⟨d', hd', hdir, -⟩ := h.dir c hc
    obtain rfl := Option.some.inj (hd.symm.trans hd')
    have hown : ¬L'.own d kstackPdx :=
      hnot d (by rw [h₀.nursery.mem d (hdir.not_free h.inv)]; exact hdk)
    have hd₁ := (hs.newborn.spaces.same c d kstackPdx ((hs.same.live c).mpr hc)
      (by rw [hs.same.envs c hc]; exact hd)).resolve_left hown
    have hp₁ := (hs.newborn.same kstackPdx).resolve_left hp
    have htab : k'.pmap.tableOf d kstackPdx = k'.pmap.tableOf p kstackPdx := by
      rw [Pmap.tableOf, Pmap.tableOf, hd₁, hp₁]
    rw [← hs.pte]
    unfold Pmap.pteOf
    rw [show pdx (kstacktop - 4096#32) = kstackPdx from rfl, htab]
  have hclear : (adopted k e p s).pmap.mem p (pdx (uxstacktop - 4096#32)) = 0#32 := by
    rw [hself]
    exact hu _ (personal_of_lt (uxstack_lt (n := 0) (by decide)))
  simp only [each]
  refine wp_seq (mapStacks_stamped h₀ hu hclear (by omega) hp) (fun _ _ h₁ => ?_)
    fun _ k' h₁ => h₁.elim fun q h₁ => hend q k' h₁
  obtain ⟨q, h₁⟩ := h₁
  refine wp_seq (mapStacks_keeps h₁ (by decide) (by decide)) (fun _ _ h₂ => ?_)
    fun _ k' h₂ => hend q k' h₂
  exact wp_seq (mapStacks_keeps h₂ (by decide) (by decide))
    (fun _ k' h₃ => wp_pure.mpr (hend q k' h₃)) fun _ k' h₃ => hend q k' h₃

/-- The page structures are the same. -/
def SamePages (k k' : Kernel) : Prop := k'.pmap = k.pmap

instance : IsPreorder Kernel SamePages where
  refl _ := rfl
  trans _ _ _ h h' := h'.trans h

theorem samePages_modify {f : Kernel → Kernel} (hf : ∀ k, (f k).pmap = k.pmap) :
    Keeps SamePages E (modify f : Kern Unit) :=
  keeps_modify hf

theorem samePages_mkenvid : Keeps SamePages E (mkenvid e) :=
  keeps_bind (samePages_modify fun _ => rfl) fun _ => keeps_bind keeps_get fun _ => keeps_pure _

theorem samePages_asidAlloc : Keeps SamePages E asidAlloc := by
  refine keeps_bind keeps_get fun k => ?_
  dsimp only
  split
  · exact keeps_throw _
  · exact keeps_bind (samePages_modify fun _ => rfl) fun _ => keeps_pure _

/-- After `env_setup_vm` there is no more change to memory in `env_alloc`. -/
theorem wp_envAlloc_pages {P : Pmap → Prop} (parentId : Word)
    (hnil : k.envFreeList = [] → P k.pmap)
    (hset : ∀ e ∈ k.envFreeList, (envSetupVm e).wp (fun _ k' => P k'.pmap) E k) :
    (envAlloc parentId).wp (fun _ k' => P k'.pmap) E k := by
  unfold envAlloc
  rw [wp_get_bind]
  cases hl : k.envFreeList with
  | nil => exact wp_throw.mpr (hnil hl)
  | cons e rest =>
    simp only
    refine wp_seq (hset e (by rw [hl]; exact List.mem_cons_self)) (fun _ k₁ h₁ => ?_)
      fun _ _ h₁ => h₁
    refine wp_conseq (Q := fun _ k' => SamePages k₁ k') ((?_ : Keeps SamePages E _) k₁)
      fun _ k' hk' => ?_
    · refine keeps_bind (samePages_modify fun _ => rfl) fun _ => ?_
      refine keeps_bind samePages_mkenvid fun _ => ?_
      refine keeps_bind (samePages_modify fun _ => rfl) fun _ => ?_
      refine keeps_bind samePages_asidAlloc fun _ => ?_
      refine keeps_bind (samePages_modify fun _ => rfl) fun _ => ?_
      exact keeps_bind (samePages_modify fun _ => rfl) fun _ => keeps_pure _
    · rw [show k'.pmap = k₁.pmap from hk']
      exact h₁

end Stacks

end Kern

/-! ## Other environments -/

/-- Every live environment of `k` has the same translations in `k'`, and the same
contents behind them.  Frames that were free do not count: the kernel reaches
these too, through its map of all memory. -/
def Kernel.Undisturbed (k k' : Kernel) : Prop :=
  ∀ c d, k.Live c → (k.envs c).pgdir = some d → (k'.envs c).pgdir = some d ∧
    ∀ va, k'.pmap.pteOf d va = k.pmap.pteOf d va ∧
      ∀ f, entryFrame (k.pmap.pteOf d va) = some f → f ∉ k.pmap.pageFreeList →
        k'.pmap.mem f = k.pmap.mem f

section Undisturbed

variable {L : Layout} {k : Kernel}

theorem undisturbed_of_mem (h : Spaces L k) {k' : Kernel} (hsame : Kern.SameLive k k')
    (hmem : ∀ f, f ∉ k.pmap.pageFreeList → k'.pmap.mem f = k.pmap.mem f) : k.Undisturbed k' := by
  intro c d hc hd
  obtain ⟨d', hd', hdir, -⟩ := h.dir c hc
  obtain rfl := Option.some.inj (hd.symm.trans hd')
  refine ⟨by rw [hsame.envs c hc]; exact hd, fun va => ⟨?_, fun f _ hf => hmem f hf⟩⟩
  have htab : k'.pmap.tableOf d (pdx va) = k.pmap.tableOf d (pdx va) := by
    rw [Pmap.tableOf, Pmap.tableOf, hmem d (hdir.not_free h.inv)]
  unfold Pmap.pteOf
  rw [htab]
  cases ht : k.pmap.tableOf d (pdx va) with
  | none => rfl
  | some t =>
    show k'.pmap.mem t (ptx va) = k.pmap.mem t (ptx va)
    rw [hmem t (Pmap.table_not_free h.inv (hdir.isTable h.inv.toForest ht).1)]

/-- What a live environment has above the kernel stack comes from the template. -/
theorem Spaces.kstack (h : Spaces L k) (hno : ∀ d, ¬L.own d kstackPdx) {c : EnvIdx} {d : Frame}
    (hc : k.Live c) (hd : (k.envs c).pgdir = some d) :
    k.pmap.mem d kstackPdx = k.pmap.mem k.basePgdir kstackPdx ∧
      k.pmap.mem k.basePgdir kstackPdx ≠ 0#32 := by
  obtain ⟨d', hd', hdir, -⟩ := h.dir c hc
  obtain rfl := Option.some.inj (hd.symm.trans hd')
  have hsame := (h.same c d kstackPdx hc hd).resolve_left (hno d)
  obtain ⟨t, -, hm⟩ := (hdir.entries kstackPdx).resolve_left (hno d)
  refine ⟨hsame, ?_⟩
  rw [← hsame, hm]
  exact mkPte_ne_zero t _

theorem Spaces.kstack_counted (h : Spaces L k) {d : Frame}
    (hd : k.pmap.mem d kstackPdx = k.pmap.mem k.basePgdir kstackPdx) :
    k.pmap.Counted L d (kstacktop - 4096#32) := by
  intro t ht
  have hb : k.pmap.tableOf k.basePgdir kstackPdx = some t := by
    rw [Pmap.tableOf, ← hd]
    exact ht
  exact (h.template.kstack 0 (by decide)).1 t hb

theorem undisturbed_iff (h : Spaces L k) (hfree : ∀ e ∈ k.envFreeList, ¬k.Live e)
    (hno : ∀ d, ¬L.own d kstackPdx) (parentId : Word) :
    (∀ r k', Kern.envAlloc parentId k = .ok (r, k') → k.Undisturbed k') ↔
      k.envFreeList = [] ∨ k.pmap.pageFreeList.length < 4 ∨ ∀ e, ¬k.Live e := by
  constructor
  · intro hall
    by_contra hn
    rw [not_or, not_or] at hn
    obtain ⟨hlist, hlen, hlive⟩ := hn
    obtain ⟨c, hc⟩ := not_forall_not.mp hlive
    obtain ⟨d, hd, hdir, -⟩ := h.dir c hc
    obtain ⟨hdk, hk⟩ := h.kstack hno hc hd
    have hwp := Kern.wp_envAlloc_pages (k := k) (E := fun _ => False) (P := k.NewStack) parentId
      (fun hnil => absurd hnil hlist)
      fun e he => Kern.envSetupVm_stamps h (hfree e he) hk (by omega)
    obtain ⟨r, k', hrun, q, hq, -, hstamp⟩ := Sys.wp_run hwp
    -- the page was free, so no entry that is counted has shown it before
    have hold := (((hall r k' hrun c d hc hd).2 (kstacktop - 4096#32)).1).symm.trans
      (hstamp c d hc hd hdk)
    refine (Pmap.not_free_of_mapped h.inv hdir (h.kstack_counted hdk) ?_).1 hq
    rw [hold, entryFrame_mkPte q (by decide)]
  · rintro (hnil | hlen | hdead) r k' hrun
    · have hwp : (Kern.envAlloc parentId).wp (fun _ k' => k' = k) (fun _ => False) k := by
        unfold Kern.envAlloc
        rw [Sys.wp_get_bind, hnil]
        exact Sys.wp_throw.mpr rfl
      rw [Sys.wp_ok hwp hrun]
      exact fun c d _ hd => ⟨hd, fun _ => ⟨rfl, fun _ _ _ => rfl⟩⟩
    · have hsame := (Sys.wp_ok (Kern.envAlloc_newborn (E := fun _ => False) h hfree parentId) hrun).1
      refine undisturbed_of_mem h hsame (Sys.wp_ok (Kern.wp_envAlloc_pages (E := fun _ => False)
        (P := fun s => ∀ f, f ∉ k.pmap.pageFreeList → s.mem f = k.pmap.mem f) parentId
        (fun _ _ _ => rfl) fun e he => Kern.envSetupVm_short h (hfree e he) hlen) hrun)
    · exact fun c _ hc => absurd hc (hdead c)

end Undisturbed

/-! ## Runs -/

/-- If an environment runs before, one runs after. -/
def Running (k k' : Kernel) : Prop := k.curenv ≠ none → k'.curenv ≠ none

instance : IsPreorder Kernel Running where
  refl _ h := h
  trans _ _ _ h h' hk := h' (h hk)

namespace Kern

open Sys

section Running

variable {k : Kernel} {e : EnvIdx}

theorem running_modify {f : Kernel → Kernel} (hf : ∀ k, (f k).curenv = k.curenv) :
    Keeps Running (fun _ => True) (modify f : Kern Unit) :=
  keeps_modify fun k h => by rw [hf k]; exact h

theorem OnlyPages.running {α : Type} {m : Kern α} (h : OnlyPages m) :
    Keeps Running (fun _ => True) m :=
  keeps_mono (fun k k' ⟨p, hp⟩ hk => by rw [hp]; exact hk) (fun _ _ => trivial) h

theorem running_schedule (yield : Bool) : Keeps Running (fun _ => True) (schedule yield) := by
  intro k
  refine wp_mono (schedule_ran yield k) (fun r k' hr _ => ?_) fun _ _ => trivial
  obtain ⟨-, q, n, e, -, rfl⟩ := hr
  exact Option.some_ne_none e

theorem running_schedRemove : Keeps Running (fun _ => True) (schedRemove e) := by
  refine fun k => wp_of (fun r k' hm => ?_) fun _ _ => trivial
  unfold schedRemove at hm
  cases hq : k.envSchedList.remove e with
  | none => simp [hq] at hm
  | some q =>
    simp only [hq, Except.ok.injEq, Prod.mk.injEq] at hm
    obtain ⟨-, rfl⟩ := hm
    exact id

theorem running_schedInsertTail : Keeps Running (fun _ => True) (schedInsertTail e) := by
  refine fun k => wp_of (fun r k' hm => ?_) fun _ _ => trivial
  unfold schedInsertTail at hm
  cases hq : k.envSchedList.insertTail e with
  | none => simp [hq] at hm
  | some q =>
    simp only [hq, Except.ok.injEq, Prod.mk.injEq] at hm
    obtain ⟨-, rfl⟩ := hm
    exact id

theorem running_eIpcRecv (dstva : Word) : Keeps Running (fun _ => True) (eIpcRecv dstva) := by
  refine keeps_ite (keeps_throw _) (keeps_bind (OnlyPages.running pages_curenv) fun c => ?_)
  refine keeps_bind (running_modify fun _ => rfl) fun _ => ?_
  refine keeps_bind running_schedRemove fun _ => ?_
  exact keeps_bind (running_modify fun _ => rfl) fun _ => running_schedule true

theorem running_eIpcTrySend (envid value srcva perm : Word) :
    Keeps Running (fun _ => True) (eIpcTrySend envid value srcva perm) := by
  refine keeps_ite (keeps_throw _) ?_
  refine keeps_bind (OnlyPages.running (pages_envid2env _ _)) fun e => ?_
  refine keeps_bind keeps_get fun _ => keeps_ite (keeps_throw _) ?_
  refine keeps_bind (OnlyPages.running pages_curenv) fun c => ?_
  refine keeps_bind (running_modify fun _ => rfl) fun _ => ?_
  refine keeps_bind running_schedInsertTail fun _ => keeps_ite ?_ (keeps_pure _)
  refine keeps_bind keeps_get fun _ => ?_
  refine keeps_bind (OnlyPages.running (pages_pageLookup _ _)) fun r => ?_
  cases r with
  | none => exact keeps_throw _
  | some x =>
    refine keeps_bind keeps_get fun _ => ?_
    exact keeps_bind (keeps_attempt (OnlyPages.running (pages_pageInsert _ _ _ _)))
      fun _ => keeps_pure _

theorem OnlyRegs.running {α : Type} {m : Kern α} (h : OnlyRegs m) :
    Keeps Running (fun _ => True) m :=
  keeps_mono (fun k k' ⟨p, r, n, hp⟩ hk => by rw [hp]; exact hk) (fun _ _ => trivial) h

theorem running_eSetEnvStatus (envid status : Word) :
    Keeps Running (fun _ => True) (eSetEnvStatus envid status) := by
  unfold eSetEnvStatus
  split
  · exact keeps_throw _
  · refine keeps_bind (OnlyPages.running (pages_envid2env _ _)) fun e => ?_
    refine keeps_bind keeps_get fun _ => keeps_bind ?_ fun _ => running_modify fun _ => rfl
    exact keeps_ite running_schedRemove (keeps_ite running_schedInsertTail (keeps_pure _))

theorem running_eSetTrapframe (envid va : Word) (tf : Trapframe) :
    Keeps Running (fun _ => True) (eSetTrapframe envid va tf) := by
  refine keeps_ite (keeps_throw _) (keeps_bind (OnlyPages.running (pages_envid2env _ _)) fun e => ?_)
  refine keeps_bind keeps_get fun _ => keeps_ite ?_ ?_
  · exact keeps_bind (running_modify fun _ => rfl) fun _ => keeps_pure _
  · exact keeps_bind (running_modify fun _ => rfl) fun _ => keeps_pure _

theorem running_envFree (e : EnvIdx) : Keeps Running (fun _ => True) (envFree e) := by
  have hpages : ∀ d : Frame, Keeps Running (fun _ => True)
      (onPmap fun p => (p.freeSpace d).map fun p' => (.ok (), p') : Kern Unit) := fun d k =>
    wp_onPmap.mpr ⟨fun _ _ => trivial, fun _ _ _ h => h⟩
  refine keeps_bind keeps_get fun _ => keeps_bind (OnlyPages.running (pages_dirOf _)) fun d => ?_
  refine keeps_bind (hpages d) fun _ => keeps_bind keeps_get fun _ => ?_
  refine keeps_bind (running_modify fun _ => rfl) fun _ => ?_
  refine keeps_bind (running_modify fun _ => rfl) fun _ => ?_
  exact keeps_bind (running_modify fun _ => rfl) fun _ => running_schedRemove

/-- When the running environment is destroyed, another one runs. -/
theorem running_envDestroy (e : EnvIdx) : Keeps Running (fun _ => True) (envDestroy e) := by
  intro k
  unfold envDestroy
  refine wp_seq (running_envFree e k) (fun _ k₁ h₁ => ?_) fun _ _ h₁ => h₁
  rw [wp_get_bind, wp_ite]
  refine ⟨fun _ => ?_, fun _ => wp_pure.mpr h₁⟩
  rw [wp_modify_bind]
  have hran : (schedule true).wp (fun _ k' => Running k k') (fun _ => True)
      { k₁ with curenv := none } := by
    refine wp_mono (schedule_ran true _) (fun r k' hr _ => ?_) fun _ _ => trivial
    obtain ⟨-, q, n, c, -, rfl⟩ := hr
    exact Option.some_ne_none c
  exact wp_seq hran (fun _ _ h => wp_pure.mpr h) fun _ _ h => h

theorem running_asidAlloc : Keeps Running (fun _ => True) asidAlloc := by
  refine keeps_bind keeps_get fun k => ?_
  dsimp only
  split
  · exact keeps_throw _
  · exact keeps_bind (running_modify fun _ => rfl) fun _ => keeps_pure _

theorem running_envAlloc (parentId : Word) :
    Keeps Running (fun _ => True) (envAlloc parentId) := by
  refine keeps_bind keeps_get fun k => ?_
  split
  · exact keeps_throw _
  · have hsetup : ∀ e, Keeps Running (fun _ => True) (envSetupVm e) := fun e => by
      refine keeps_bind (OnlyPages.running pages_pageAlloc) fun p => ?_
      refine keeps_bind (running_modify fun _ => rfl) fun _ => ?_
      refine keeps_bind (running_modify fun _ => rfl) fun _ => ?_
      exact keeps_each (fun i => OnlyPages.running (pages_mapStacks p i)) _
    refine keeps_bind (hsetup _) fun _ => keeps_bind (running_modify fun _ => rfl) fun _ => ?_
    refine keeps_bind (keeps_bind (running_modify fun _ => rfl) fun _ =>
      keeps_bind keeps_get fun _ => keeps_pure _) fun id => ?_
    refine keeps_bind (running_modify fun _ => rfl) fun _ => ?_
    refine keeps_bind running_asidAlloc fun asid => ?_
    refine keeps_bind (running_modify fun _ => rfl) fun _ => ?_
    exact keeps_bind (running_modify fun _ => rfl) fun _ => keeps_pure _

/-- After a call an environment runs. -/
theorem ecall_running (c : Ecall) : Keeps Running (fun _ => True) (ecall c) := by
  cases c with
  | device ret => exact keeps_pure _
  | getenvid =>
    exact keeps_bind (OnlyPages.running pages_curenv) fun _ => keeps_bind keeps_get fun _ =>
      keeps_pure _
  | yield => exact keeps_bind (running_schedule true) fun _ => keeps_pure _
  | envDestroy envid =>
    refine keeps_bind (keeps_bind (OnlyPages.running (pages_envid2env _ _)) fun e =>
      running_envDestroy e) fun b => ?_
    exact keeps_ite (keeps_pure _) (keeps_pure _)
  | setEnvCowEntry envid cowEntry =>
    refine keeps_bind (keeps_bind (OnlyPages.running (pages_envid2env _ _)) fun e => ?_)
      fun _ => keeps_pure _
    exact running_modify fun _ => rfl
  | memAlloc envid va perm =>
    exact keeps_bind (OnlyPages.running (pages_eMemAlloc _ _ _)) fun _ => keeps_pure _
  | memMap srcid srcva dstid dstva perm =>
    exact keeps_bind (OnlyPages.running (pages_eMemMap _ _ _ _ _)) fun _ => keeps_pure _
  | memUnmap envid va =>
    exact keeps_bind (OnlyPages.running (pages_eMemUnmap _ _)) fun _ => keeps_pure _
  | exofork =>
    refine keeps_bind (keeps_bind (OnlyPages.running pages_curenv) fun c => ?_) fun _ =>
      keeps_pure _
    refine keeps_bind keeps_get fun _ => keeps_bind (running_envAlloc _) fun e => ?_
    exact keeps_bind (running_modify fun _ => rfl) fun _ => keeps_bind keeps_get fun _ =>
      keeps_pure _
  | setEnvStatus envid status =>
    exact keeps_bind (running_eSetEnvStatus _ _) fun _ => keeps_pure _
  | setTrapframe envid va tf =>
    exact keeps_bind (running_eSetTrapframe _ _ _) fun _ => keeps_pure _
  | panic => exact keeps_halt trivial
  | ipcTrySend envid value srcva perm =>
    exact keeps_bind (running_eIpcTrySend _ _ _ _) fun _ => keeps_pure _
  | ipcRecv dstva => exact keeps_bind (running_eIpcRecv _) fun _ => keeps_pure _
  | getPgdir pde =>
    exact keeps_bind (OnlyPages.running (pages_eGetPgdir _)) fun _ => keeps_pure _
  | readDisk buf data =>
    exact keeps_bind (OnlyPages.running (pages_kernelStore _ _)) fun _ => keeps_pure _
  | getPgref v => exact keeps_bind (OnlyPages.running (pages_eGetPgref v)) fun _ => keeps_pure _

end Running

end Kern

/-- Consistent page structures in which everybody has the kernel stack of the
template. -/
structure Settled (k : Kernel) : Prop where
  life : LifeInv k
  spaces : ∃ L, Spaces L k ∧ ∀ d, ¬L.own d kstackPdx
  filled : k.pmap.mem k.basePgdir kstackPdx ≠ 0#32

theorem Settled.not_live {k : Kernel} (h : Settled k) : ∀ e ∈ k.envFreeList, ¬k.Live e :=
  fun e he hl => hl ((h.life.mem_free e).mp he)

/-- A live environment shows that the entry of the template is filled. -/
theorem Settled.of_live {L : Layout} {k : Kernel} (hlife : LifeInv k) (h : Spaces L k)
    (hno : ∀ d, ¬L.own d kstackPdx) {e : EnvIdx} (he : k.Live e) : Settled k := by
  obtain ⟨d, hd, -⟩ := h.dir e he
  exact ⟨hlife, ⟨L, h, hno⟩, (h.kstack hno he hd).2⟩

/-- After a trap an environment runs. -/
theorem exec_running {k : Kernel} {tf : Trapframe} {t : Kern.Trap}
    (hen : k.Enabled (.trap tf t)) :
    (Kernel.exec (.trap tf t)).wp (fun _ k' => k'.curenv ≠ none) (fun _ => True) k := by
  -- every trap but the timer finds an environment running
  have hkeep : ∀ {m : Kern Unit}, Sys.Keeps Running (fun _ => True) m → k.curenv ≠ none →
      m.wp (fun _ k' => k'.curenv ≠ none) (fun _ => True) { k with active := tf } :=
    fun hm hcur => Sys.wp_conseq (hm _) fun _ _ hk => hk hcur
  refine Sys.wp_modify_bind.mpr ?_
  cases t with
  | ecall c =>
    refine hkeep (Sys.keeps_bind (Kern.running_modify fun _ => rfl) fun _ => ?_) hen
    refine Sys.keeps_bind (Sys.keeps_attempt (Kern.ecall_running c)) fun r => ?_
    split
    · exact Sys.keeps_pure _
    · exact Kern.running_modify fun _ => rfl
    · exact Kern.running_modify fun _ => rfl
  | badEcall => exact hkeep (Kern.running_modify fun _ => rfl) hen
  | timer =>
    refine Sys.wp_mono (Kern.schedule_ran false _) (fun r k' hr => ?_) fun _ _ => trivial
    obtain ⟨-, q, n, e, -, rfl⟩ := hr
    exact Option.some_ne_none e
  | software => exact hkeep (Sys.keeps_pure _) hen
  | loadPage junk => exact hkeep (Kern.OnlyPages.running (Kern.pages_doLoadPage junk)) hen
  | storePage => exact hkeep (Kern.OnlyRegs.running Kern.regs_doStorePage) hen
  | instructionPage => exact Sys.wp_halt.mpr trivial
  | reserved => exact Sys.wp_halt.mpr trivial

/-- What the boot code leaves: the page structures are consistent, nobody owns
anything yet, and the directory entry above the kernel stack is filled. -/
def Prepared (k : Kernel) : Prop :=
  ∃ (k₀ : Kernel) (L : Layout), k₀.pmap.Inv L ∧ Template L k₀.pmap k₀.basePgdir ∧ (∀ d, ¬L.own d kstackPdx) ∧
    k₀.pmap.mem k₀.basePgdir kstackPdx ≠ 0#32 ∧ (∀ e, (k₀.envs e).ipcRecving = 0#32) ∧
    k₀.curenv = none ∧ k = k₀.envInit

theorem Prepared.settled {k : Kernel} (h : Prepared k) : Settled k := by
  obtain ⟨k₀, L, hI, ht, hno, hfill, hrec, hcur, hk⟩ := h
  have hboot : Booted k₀.envInit := ⟨k₀, hrec, rfl⟩
  rw [hk]
  refine ⟨hboot.life, ⟨L, Spaces.envInit hI ht hrec hcur, hno⟩, ?_⟩
  unfold Kernel.envInit
  generalize List.finRange 1024 = es
  obtain ⟨hp, hb, -⟩ := envInit_rest
    { k₀ with envFreeList := [], envSchedList := k₀.envSchedList.init } es
  rw [hp, hb]
  exact hfill

theorem Settled.setActive {k : Kernel} (h : Settled k) (a : Trapframe) : Settled { k with active := a } := by
  obtain ⟨L, hL, hno⟩ := h.spaces
  exact ⟨h.life.congr (SameLife.of_envs rfl rfl rfl rfl), ⟨L, hL.congr rfl rfl rfl rfl rfl, hno⟩, h.filled⟩

theorem Settled.ordered {k : Kernel} (h : Settled k) : Ordered k := by
  obtain ⟨L, hL, -⟩ := h.spaces
  exact ⟨h.life, L, hL⟩

/-- After an orderly step everybody still has the kernel stack of the template. -/
theorem Settled.orderly {k k' : Kernel} {ev : Event} (h : Settled k) (hs : k.OrderlyStep ev k') :
    Settled k' := by
  obtain ⟨hcare, hord, hen, r, hr⟩ := hs
  obtain ⟨L, hL, hno⟩ := h.spaces
  have hlife := Sys.wp_ok (exec_life h.life hcare) hr
  have hgrown : ∀ {L'}, k.Grown L L' → ∀ d, ¬L'.own d kstackPdx := fun hg d ho =>
    (hg d kstackPdx ho).elim (hno d) h.filled
  cases ev with
  | create prog priority =>
    have hwp : (Kernel.exec (.create prog priority)).wp
        (fun _ k' => (∃ L', k.Grown L L' ∧ Spaces L' k') ∧ ∃ e, k'.Live e)
        (fun c => c = .wild ∨ ∃ m, c = .panic m) k :=
      Sys.wp_seq (Kern.envCreate_spaces hL h.not_live hord priority)
        (fun _ _ h => Sys.wp_pure.mpr h) fun _ _ h => h
    obtain ⟨⟨L', hg, hL'⟩, e, he⟩ := Sys.wp_ok hwp hr
    exact .of_live hlife hL' (hgrown hg) he
  | trap tf t =>
    obtain ⟨L', hg, hL'⟩ := Sys.wp_ok (exec_orderly h.ordered hL hen hcare hord) hr
    obtain ⟨c, hc⟩ := Option.ne_none_iff_exists'.mp (Sys.wp_ok (exec_running hen) hr)
    exact .of_live hlife hL' (hgrown hg) (hL'.cur c hc).1

theorem Settled.of_run {h : List Event} {k : Kernel}
    (hrun : Run Prepared Kernel.OrderlyStep h k) : Settled k :=
  Run.invariant (I := fun _ k => Settled k) (fun _ h0 => h0.settled)
    (fun _ _ _ _ hk hs => hk.orderly hs) hrun

/-- In every run, `env_alloc` leaves the other environments alone exactly where it
fails before the kernel stack, or where there is no other environment. -/
theorem creation_undisturbed {h : List Event} {k : Kernel}
    (hrun : Run Prepared Kernel.OrderlyStep h k) (parentId : Word) :
    (∀ r k', Kern.envAlloc parentId k = .ok (r, k') → k.Undisturbed k') ↔
      k.envFreeList = [] ∨ k.pmap.pageFreeList.length < 4 ∨ ∀ e, ¬k.Live e := by
  have hset := Settled.of_run hrun
  obtain ⟨L, hL, hno⟩ := hset.spaces
  exact undisturbed_iff hL hset.not_live hno parentId

/-! ## A kernel table -/

/-- Frame 200 is the one table of the kernel, and nobody has a directory. -/
def tableLayout : Layout where
  own _ _ := False
  shared t := t = 200
  plain _ _ := False
  base f := if 1 ≤ f.val ∧ f.val ≤ 100 then 0 else 1
  dir_base _ _ h := h.elim
  shared_base t h := by
    rw [h]
    decide
  apart _ _ _ h := h
  plain_shared _ _ h := h.elim

/-- `zeroKernel` with the table below the entry of the kernel stack. -/
def tableKernel : Kernel :=
  { zeroKernel with
    pmap := { zeroKernel.pmap with
      mem := Function.update zeroKernel.pmap.mem 0
        (Function.update (fun _ => 0#32) kstackPdx (mkPte 200 0#32)) } }

theorem tableKernel_template : tableKernel.pmap.Inv tableLayout ∧
    Template tableLayout tableKernel.pmap tableKernel.basePgdir ∧
    tableKernel.pmap.mem tableKernel.basePgdir kstackPdx ≠ 0#32 := by
  have hstart : Pmap.Start ∅ zeroKept zeroKernel.pmap :=
    zeroKernel_start fun d hd => absurd hd (Finset.notMem_empty d)
  have hmem : ∀ t, t ≠ 0 → ∀ j, tableKernel.pmap.mem t j = 0#32 := fun t ht j => by
    show Function.update zeroKernel.pmap.mem 0 _ t j = 0#32
    rw [Function.update_of_ne ht]
    rfl
  have hpde : ∀ x, tableKernel.pmap.pdeView tableLayout x = none := fun x => if_neg id
  have htab : ∀ t, tableKernel.pmap.IsTable tableLayout t → t = 200 := by
    rintro t (hsh | ⟨x, hx⟩)
    · exact hsh
    · rw [hpde] at hx
      exact absurd hx (by simp)
  have hzero : ∀ t j, tableKernel.pmap.IsTable tableLayout t → tableKernel.pmap.mem t j = 0#32 :=
    fun t j ht => hmem t (by rw [htab t ht]; decide) j
  have hpte : ∀ x, tableKernel.pmap.pteView tableLayout x = none := by
    intro x
    unfold Pmap.pteView
    split
    · rename_i hx
      rw [hzero x.1 x.2 hx.1, entryFrame_zero]
    · rfl
  have hrefs : ∀ f, tableKernel.pmap.refs tableLayout f = 0 := by
    intro f
    have h1 : tally (tableKernel.pmap.pdeView tableLayout) f = 0 :=
      tally_eq_zero.mpr fun x => by rw [hpde]; simp
    have h2 : tally (tableKernel.pmap.pteView tableLayout) f = 0 :=
      tally_eq_zero.mpr fun x => by rw [hpte]; simp
    rw [Pmap.refs, h1, h2]
  have hcount : ∀ f, (tableKernel.pmap.ppRef f).toNat = tableLayout.base f := by
    intro f
    show (if 1 ≤ f.val ∧ f.val ≤ 100 then 0 else 1 : BitVec 16).toNat =
      if 1 ≤ f.val ∧ f.val ≤ 100 then 0 else 1
    split
    · rfl
    · rfl
  have hI : tableKernel.pmap.Inv tableLayout := by
    refine ⟨⟨fun d i hd => hd.elim, fun x y t hx => ?_, fun x t hx => ?_,
      fun t j ht _ => .inl (hzero t j ht)⟩, hstart.nodup, fun f hf => ⟨?_, hrefs f⟩, fun f => ?_⟩
    · rw [hpde] at hx
      exact absurd hx (by simp)
    · rw [hpde] at hx
      exact absurd hx (by simp)
    · rw [← hcount f, show tableKernel.pmap.ppRef f = 0 from (hstart.free f).mp hf]
      rfl
    · rw [hrefs, Nat.add_zero]
      exact hcount f
  have hbase : ∀ i, tableKernel.pmap.mem 0 i = if i = kstackPdx then mkPte 200 0#32 else 0#32 := by
    intro i
    simp only [tableKernel, Function.update_self, Function.update_apply]
  have hkst : ¬Personal kstackPdx ∧ ¬Visited kstackPdx :=
    ⟨by decide, fun hv => absurd hv.1 (by decide)⟩
  refine ⟨hI, ⟨⟨?_, fun _ => id, by show ¬(0 : Frame) = 200; decide⟩,
    fun i => ?_, fun i hi => ?_, fun n hn => ⟨fun _ _ => id, ?_⟩, fun i t hi hm => ?_⟩, ?_⟩
  · show 0 < tableLayout.base 0
    decide
  · show tableKernel.pmap.mem 0 i = 0#32 ∨ _
    rw [hbase]
    by_cases hi : i = kstackPdx
    · exact .inr ⟨200, rfl, (hbase i).trans (if_pos hi)⟩
    · exact .inl (if_neg hi)
  · have hne : i ≠ kstackPdx := fun he => hkst.1 (he ▸ hi)
    exact (hbase i).trans (if_neg hne)
  · have hm : tableKernel.pmap.mem 0 (pdx (kstacktop - BitVec.ofNat 32 ((n + 1) * 4096))) =
        mkPte 200 0#32 := by
      rw [Kern.pdx_kstack hn]
      exact (hbase kstackPdx).trans (if_pos rfl)
    rw [show tableKernel.basePgdir = 0 from rfl, Pmap.pteOf_of_table hm, hmem 200 (by decide)]
    decide
  · have hne : i ≠ kstackPdx := fun he => hkst.2 (he ▸ hi)
    have h0 : tableKernel.pmap.mem 0 i = 0#32 := (hbase i).trans (if_neg hne)
    exact absurd (hm.symm.trans h0) (mkPte_ne_zero t _)
  · show tableKernel.pmap.mem 0 kstackPdx ≠ 0#32
    rw [hbase, if_pos rfl]
    exact mkPte_ne_zero 200 _

theorem tableKernel_prepared : Prepared tableKernel.envInit := by
  obtain ⟨hI, ht, hk⟩ := tableKernel_template
  exact ⟨tableKernel, tableLayout, hI, ht, fun _ => id, hk, fun _ => rfl, rfl, rfl⟩

/-- A program of `n` pages is loaded and starts to run. -/
def runProgram (n : Nat) : List Event :=
  [.create ⟨(List.range n).map fun i => ⟨BitVec.ofNat 32 ((1024 + i) * 4096), pteU, fun _ => 0#32⟩,
    0#32⟩ 1#32, .trap zeroTf .timer]

/-- A program that leaves one frame is not disturbed by a creation, which has too few. -/
theorem creation_undisturbed_short : ∃ h k, Run Prepared Kernel.OrderlyStep h k ∧ k.Live 0 ∧
    k.envFreeList ≠ [] ∧ ∀ r k', Kern.envAlloc 0#32 k = .ok (r, k') → k.Undisturbed k' := by
  have hend : ((Run.follow Kernel.orderlyNext (runProgram 90) tableKernel.envInit).map fun k =>
      ((k.envs 0).status, k.envFreeList.isEmpty, k.pmap.pageFreeList.length)) =
      some (.runnable, false, 1) := by
    decide +kernel
  obtain ⟨k, hk, heq⟩ := Option.map_eq_some_iff.mp hend
  simp only [Prod.mk.injEq] at heq
  obtain ⟨hst, hlist, hone⟩ := heq
  have hrun := Run.of_follow Kernel.orderlyStep_of_next (.start tableKernel_prepared) hk
  refine ⟨_, k, hrun, Kernel.live_of_status hst (by simp), List.isEmpty_eq_false_iff.mp hlist, ?_⟩
  exact (creation_undisturbed hrun 0#32).mpr (.inr (.inl (by omega)))

/-- The second environment takes the kernel stack of the first. -/
theorem creation_undisturbed_fails :
    ¬∀ h k, Run Prepared Kernel.OrderlyStep h k →
      ∀ parentId r k', Kern.envAlloc parentId k = .ok (r, k') → k.Undisturbed k' := by
  intro hall
  have hend : ((Run.follow Kernel.orderlyNext [.create ⟨[], 0#32⟩ 1#32] tableKernel.envInit).bind fun k =>
      (Kern.envAlloc 0#32 k).toOption.map fun x => ((k.envs 0).status, (k.envs 0).pgdir,
        k.pmap.pteOf 1 (kstacktop - 4096#32), x.2.pmap.pteOf 1 (kstacktop - 4096#32))) =
      some (.runnable, some 1, mkPte 4 (pteW ||| pteR), mkPte 12 (pteW ||| pteR)) := by
    decide +kernel
  obtain ⟨k, hk, hend⟩ := Option.bind_eq_some_iff.mp hend
  have hrun := Run.of_follow Kernel.orderlyStep_of_next (.start tableKernel_prepared) hk
  cases ha : Kern.envAlloc 0#32 k with
  | error c => simp [ha, Except.toOption] at hend
  | ok x =>
    obtain ⟨r, k'⟩ := x
    simp only [ha, Except.toOption, Option.map_some, Option.some.injEq, Prod.mk.injEq] at hend
    obtain ⟨hst, hpg, hold, hnew⟩ := hend
    have hlive : k.Live 0 := Kernel.live_of_status hst (by simp)
    have hpte := ((hall _ k hrun 0#32 r k' ha 0 1 hlive hpg).2 (kstacktop - 4096#32)).1
    rw [hold, hnew] at hpte
    exact absurd hpte (by decide)

end RvMos
