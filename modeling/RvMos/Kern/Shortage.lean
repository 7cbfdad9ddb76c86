/-
What a shortage leaks.

`page_alloc`, `env_setup_vm` and `env_alloc` take frames, tables and an ASID one
after another, and return at the first that is missing without giving back what
they have.  A call that fails leaks nothing only where it fails before it has taken
anything.  So `e_mem_alloc` leaks where one frame is free and the table of the
address is missing, and `e_exofork` wherever the first frame is there and a later
frame or the ASID is not.  How many frames `e_exofork` needs depends on the kernel
stack: the pages that the new stack pages replace may go back to the free list
while it runs.
-/
import RvMos.Kern.Creation
import RvMos.Kern.Identifiers

namespace RvMos

open Lib

/-! ## Frames that a page takes -/

/-- The pages of the two stacks that `env_setup_vm` maps. -/
def uxstackVa (n : Nat) : Word := uxstacktop - BitVec.ofNat 32 ((n + 1) * 4096)

def kstackVa (n : Nat) : Word := kstacktop - BitVec.ofNat 32 ((n + 1) * 4096)

theorem pdx_uxstackVa {n : Nat} (hn : n < 3) : pdx (uxstackVa n) = pdx (uxstackVa 0) := by
  have hall : ∀ n < 3, pdx (uxstackVa n) = pdx (uxstackVa 0) := by decide
  exact hall n hn

theorem pdx_kstackVa {n : Nat} (hn : n < 3) : pdx (kstackVa n) = kstackPdx := Kern.pdx_kstack hn

theorem ptx_uxstackVa {n m : Nat} (hn : n < 3) (hm : m < 3) (hne : n ≠ m) :
    ptx (uxstackVa n) ≠ ptx (uxstackVa m) := by
  have hall : ∀ n < 3, ∀ m < 3, n ≠ m → ptx (uxstackVa n) ≠ ptx (uxstackVa m) := by decide
  exact hall n hn m hm hne

theorem ptx_kstackVa {n m : Nat} (hn : n < 3) (hm : m < 3) (hne : n ≠ m) :
    ptx (kstackVa n) ≠ ptx (kstackVa m) := by
  have hall : ∀ n < 3, ∀ m < 3, n ≠ m → ptx (kstackVa n) ≠ ptx (kstackVa m) := by decide
  exact hall n hn m hm hne

theorem vpn_stackVa {n m : Nat} (hn : n < 3) (hm : m < 3) :
    vpn (kstackVa m) ≠ vpn (uxstackVa n) := by
  have hall : ∀ n < 3, ∀ m < 3, vpn (kstackVa m) ≠ vpn (uxstackVa n) := by decide
  exact hall n hn m hm

namespace Pmap

/-- The frames that go back to the free list when the entry `w` is replaced. -/
def gives (s : Pmap) (w : Word) : Nat :=
  match entryFrame w with
  | some old => if s.ppRef old = 1 then 1 else 0
  | none => 0

section Insert

variable {L : Layout} {s s' : Pmap} {p pp : Frame} {va perm : Word}

theorem dropRef_length (s : Pmap) (old : Frame) :
    (s.dropRef old).pageFreeList.length =
      s.pageFreeList.length + (if s.ppRef old = 1 then 1 else 0) := by
  unfold dropRef
  by_cases h1 : s.ppRef old = 1
  · simp only [if_pos h1, List.length_cons]
  · simp only [if_neg h1, Nat.add_zero]

/-- An insertion where the table is there. -/
theorem pageInsert_table (hI : s.Inv L) (hd : s.Dir L p) (hc : s.Counted L p va)
    (hpp : entryFrame (s.pteOf p va) ≠ some pp) (ht : s.tableOf p (pdx va) ≠ none)
    {r : Except Errno Unit} (hins : s.pageInsert p pp va perm = .ok (r, s')) :
    r = .ok () ∧ s'.pageFreeList.length = s.pageFreeList.length + s.gives (s.pteOf p va) ∧
      ∀ f, f ≠ pp → (s'.ppRef f).toNat + (if entryFrame (s.pteOf p va) = some f then 1 else 0) =
        (s.ppRef f).toNat := by
  rcases pageInsert_cases hI hd pp perm hc with
    ⟨t, hm, -, -, hf, -⟩ | ⟨t, old, hm, htab, hp, hne, hf, hr⟩ | ⟨t, hm, -, -, h0, hr⟩ |
    ⟨t, s₁, -, h0, -, -⟩ | ⟨-, h0, -, -⟩
  · rw [pteOf_of_table hm] at hpp
    exact absurd hf hpp
  · rw [hr] at hins
    obtain ⟨rfl, rfl⟩ := Prod.mk.inj (Except.ok.inj hins)
    have hold := ppRef_ne_zero hI htab hp hf
    refine ⟨rfl, ?_, fun f hfp => ?_⟩
    · rw [pteOf_of_table hm, gives, hf, incRef_free, store_free, store_free, dropRef_length]
    · rw [pteOf_of_table hm, hf, incRef_of_ne (Ne.symm hfp), store_ppRef, store_ppRef]
      by_cases hof : old = f
      · subst hof
        have hpos : 0 < (s.ppRef old).toNat :=
          Nat.pos_of_ne_zero fun h0 => hold (BitVec.eq_of_toNat_eq h0)
        rw [if_pos rfl, dropRef_self, toNat_sub_one hpos]
        omega
      · rw [if_neg fun e => hof (Option.some.inj e), dropRef_of_ne hof, Nat.add_zero]
  · rw [hr] at hins
    obtain ⟨rfl, rfl⟩ := Prod.mk.inj (Except.ok.inj hins)
    refine ⟨rfl, ?_, fun f hfp => ?_⟩
    · rw [pteOf_of_table hm, h0, gives, entryFrame_zero, incRef_free, store_free]
      rfl
    · rw [pteOf_of_table hm, h0, entryFrame_zero, if_neg (by simp), incRef_of_ne (Ne.symm hfp),
        store_ppRef, Nat.add_zero]
  · exact absurd (by rw [tableOf, h0, entryFrame_zero]) ht
  · exact absurd (by rw [tableOf, h0, entryFrame_zero]) ht

/-- Where the table is missing, only frames that were free get counted. -/
theorem pageInsert_clear_refs (hI : s.Inv L) (hd : s.Dir L p) (hc : s.Counted L p va)
    (ht : s.tableOf p (pdx va) = none) {r : Except Errno Unit}
    (hins : s.pageInsert p pp va perm = .ok (r, s')) {f : Frame} (hfp : f ≠ pp)
    (hf : f ∉ s.pageFreeList) : s'.ppRef f = s.ppRef f := by
  have h0 := (hd.none hI.toForest ht).2
  rcases pageInsert_cases hI hd pp perm hc with
    ⟨t, hm, -⟩ | ⟨t, -, hm, -⟩ | ⟨t, hm, -⟩ | ⟨t, s₁, -, -, ha, hr⟩ | ⟨-, -, -, hr⟩
  · exact absurd (hm.symm.trans h0) (mkPte_ne_zero t _)
  · exact absurd (hm.symm.trans h0) (mkPte_ne_zero t _)
  · exact absurd (hm.symm.trans h0) (mkPte_ne_zero t _)
  · rw [hr] at hins
    obtain ⟨-, rfl⟩ := Prod.mk.inj (Except.ok.inj hins)
    obtain ⟨-, hl, href, -⟩ := hI.alloc ha
    have htf : t ≠ f := by
      rintro rfl
      exact hf (hl ▸ List.mem_cons_self)
    rw [incRef_of_ne (Ne.symm hfp), store_ppRef, incRef_of_ne htf, store_ppRef, href]
  · rw [hr] at hins
    rw [← (Prod.mk.inj (Except.ok.inj hins)).2]

/-- Tables of a directory stay while a page is allocated. -/
theorem tableOf_alloc (hI : s.Inv L) (hd : s.Dir L p) {q : Frame}
    (ha : s.pageAlloc = .ok (q, s')) (i : Index) : s'.tableOf p i = s.tableOf p i := by
  obtain ⟨-, hl, -, hmem, -⟩ := hI.alloc ha
  have hpq : p ≠ q := fun e => hd.not_free hI (e ▸ (by rw [hl]; exact List.mem_cons_self))
  unfold tableOf
  rw [hmem, Function.update_of_ne hpq]

end Insert

end Pmap

namespace Kern

section NewPage

variable {L : Layout} {p q : Frame} {va perm : Word} {s s₁ s' : Pmap}

theorem NewPage.head (hnp : NewPage L p va perm s q s₁ s') (hI : s.Inv L) :
    s.pageFreeList = q :: s₁.pageFreeList ∧ s₁.ppRef = s.ppRef :=
  ⟨(hI.alloc hnp.alloc).2.1, (hI.alloc hnp.alloc).2.2.1⟩

/-- A fresh page where the table is there. -/
theorem NewPage.of_table (hnp : NewPage L p va perm s q s₁ s') (hI : s.Inv L) (hd : s.Dir L p)
    (hc : s.Counted L p va) (ht : s.tableOf p (pdx va) ≠ none) :
    s₁.Inserted L p q va perm s' ∧
      s'.pageFreeList.length + 1 = s.pageFreeList.length + s.gives (s.pteOf p va) ∧
      ∀ f, f ∉ s.pageFreeList →
        (s'.ppRef f).toNat + (if entryFrame (s.pteOf p va) = some f then 1 else 0) =
          (s.ppRef f).toNat := by
  obtain ⟨hl, href⟩ := hnp.head hI
  have hk := Pmap.kept_alloc hI hnp.alloc
  have hpte := Pmap.pteOf_alloc hI hd hnp.alloc va
  have htab := Pmap.tableOf_alloc hI hd hnp.alloc (pdx va)
  have hq : q ∈ s.pageFreeList := by rw [hl]; exact List.mem_cons_self
  rcases hnp.insert with ⟨hins, hinserted⟩ | ⟨-, hnone, -⟩
  · have hne : entryFrame (s₁.pteOf p va) ≠ some q := by
      rw [hpte]
      exact fun hf => (Pmap.not_free_of_mapped hI hd hc hf).1 hq
    obtain ⟨-, hlen, hrefs⟩ := Pmap.pageInsert_table hk.inv (hk.dirs p hd)
      (hk.counted hI.toForest hd hc) hne (by rw [htab]; exact ht) hins
    have hgive : s₁.gives (s₁.pteOf p va) = s.gives (s.pteOf p va) := by
      unfold Pmap.gives
      rw [hpte, href]
    refine ⟨hinserted, ?_, fun f hf => ?_⟩
    · rw [hl, List.length_cons, hlen, hgive]
      omega
    · have hr := hrefs f fun e => hf (e ▸ hq)
      rw [hpte, href] at hr
      exact hr
  · rw [htab] at hnone
    exact absurd hnone ht

/-- A fresh page where the table is missing, and a frame for it is there. -/
theorem NewPage.of_clear (hnp : NewPage L p va perm s q s₁ s') (hI : s.Inv L) (hd : s.Dir L p)
    (hc : s.Counted L p va) (ht : s.tableOf p (pdx va) = none) :
    s'.pageFreeList.length = s.pageFreeList.length - 2 ∧
      (2 ≤ s.pageFreeList.length → s₁.Inserted L p q va perm s') ∧
      ∀ f, f ∉ s.pageFreeList → s'.ppRef f = s.ppRef f := by
  obtain ⟨hl, href⟩ := hnp.head hI
  have hk := Pmap.kept_alloc hI hnp.alloc
  have hq : q ∈ s.pageFreeList := by rw [hl]; exact List.mem_cons_self
  refine ⟨hnp.free_of_clear hI hd hc (hd.none hI.toForest ht).2, fun hlen => ?_, fun f hf => ?_⟩
  · rcases hnp.insert with ⟨-, hins⟩ | ⟨-, -, hnil⟩
    · exact hins
    · rw [hl, hnil] at hlen
      exact absurd hlen (by simp)
  · rcases hnp.insert with ⟨hins, -⟩ | ⟨rfl, -, -⟩
    · rw [Pmap.pageInsert_clear_refs hk.inv (hk.dirs p hd) (hk.counted hI.toForest hd hc)
        (by rw [Pmap.tableOf_alloc hI hd hnp.alloc]; exact ht) hins (f := f) (fun e => hf (e ▸ hq))
        (fun h => hf (by rw [hl]; exact List.mem_cons_of_mem _ h)), href]
    · rw [href]

end NewPage

end Kern

/-! ## The frames of `env_setup_vm` -/

/-- The page of the kernel stack that the template shows before a new environment
gets one. -/
def Kernel.oldStack (k : Kernel) (n : Nat) : Option Frame :=
  entryFrame (k.pmap.pteOf k.basePgdir (kstackVa n))

/-- The page goes back to the free list when it is replaced: the entries up to this
one are all references it has. -/
def Kernel.givesBack (k : Kernel) (n : Nat) : Nat :=
  match k.oldStack n with
  | some f =>
    if (k.pmap.ppRef f).toNat = ((List.range n).countP fun j => k.oldStack j = some f) + 1 then 1
    else 0
  | none => 0

theorem Kernel.givesBack_le (k : Kernel) (n : Nat) : k.givesBack n ≤ 1 := by
  unfold givesBack
  split
  · split
    · exact le_rfl
    · exact Nat.zero_le _
  · exact Nat.zero_le _

/-- The pages that the template shows are in use. -/
theorem Spaces.oldStack_not_free {L : Layout} {k : Kernel} (h : Spaces L k) {n : Nat} (hn : n < 3)
    {f : Frame} (hf : k.oldStack n = some f) : f ∉ k.pmap.pageFreeList := by
  unfold Kernel.oldStack Pmap.pteOf at hf
  cases ht : k.pmap.tableOf k.basePgdir (pdx (kstackVa n)) with
  | none =>
    rw [ht, entryFrame_zero] at hf
    exact absurd hf (by simp)
  | some t =>
    rw [ht] at hf
    have hpos := Pmap.Forest.refs_pos_of_pte (.inl (h.template.shared ht).1)
      ((h.template.kstack n hn).1 t ht) hf
    exact h.inv.not_free_of_refs (by omega)

/-- The frames that a page of the exception stack takes: the first takes one for
the table. -/
def userCost (n : Nat) : Nat := if n = 0 then 2 else 1

namespace Kern

open Sys

/-- Between two pages of `env_setup_vm`: `u` pages of the exception stack and `m` of
the kernel stack are in place, and `n` frames are free. -/
structure Stocked (L : Layout) (k₀ : Kernel) (e : EnvIdx) (p : Frame) (u m n : Nat) (k : Kernel) :
    Prop where
  newborn : Newborn L k e p
  same : SameLive k₀ k
  free : k.pmap.pageFreeList.length = n
  kernel : k.pmap.tableOf p kstackPdx ≠ none
  user : k.pmap.tableOf p (pdx (uxstackVa 0)) = none ↔ u = 0
  clear : ∀ i < 3, u ≤ i → entryFrame (k.pmap.pteOf p (uxstackVa i)) = none
  old : ∀ i < 3, m ≤ i → entryFrame (k.pmap.pteOf p (kstackVa i)) = k₀.oldStack i
  refs : ∀ i < 3, m ≤ i → ∀ f, k₀.oldStack i = some f →
    (k.pmap.ppRef f).toNat + ((List.range m).countP fun j => k₀.oldStack j = some f) =
      (k₀.pmap.ppRef f).toNat

section Stocked

variable {L : Layout} {k k₀ : Kernel} {e : EnvIdx} {p q : Frame} {u m n : Nat} {s s₁ : Pmap}

/-- A new page leaves the other entries of the directory alone. -/
theorem NewPage.tableOf {va perm : Word} {i : Index} {t : Pmap}
    (hnp : NewPage L p va perm s q s₁ t) (hI : s.Inv L) (hd : s.Dir L p) (hi : i ≠ pdx va) :
    t.tableOf p i = s.tableOf p i := by
  have halloc := Pmap.tableOf_alloc hI hd hnp.alloc i
  rcases hnp.insert with ⟨-, hins⟩ | ⟨rfl, -, -⟩
  · exact ((hins.dirs p (hd.alloc hI hnp.alloc)).2 i fun e => hi (congrArg Prod.snd e)).trans halloc
  · exact halloc

theorem Stocked.own (h : Stocked L k₀ e p u m n k) {i : Nat} (hi : i < 3) :
    L.own p (pdx (uxstackVa i)) :=
  h.newborn.user.own _ (personal_of_lt (uxstack_lt hi))

/-- A page of the kernel stack that is still in place is not free. -/
theorem Stocked.not_free (h : Stocked L k₀ e p u m n k) {i : Nat} (hi : i < 3) (hm : m ≤ i)
    {f : Frame} (hf : k₀.oldStack i = some f) : f ∉ k.pmap.pageFreeList := by
  refine (Pmap.not_free_of_mapped h.newborn.spaces.inv h.newborn.dir
    (h.newborn.kstack i hi).1 ?_).1
  rw [show kstacktop - BitVec.ofNat 32 ((i + 1) * 4096) = kstackVa i from rfl, h.old i hi hm, hf]

/-- What holds once the next page of the exception stack is in its table. -/
theorem Stocked.nextUser (h : Stocked L k₀ e p u m n k) (hu : u < 3)
    (hnp : NewPage L p (uxstackVa u) (pteU ||| pteW ||| pteR) k.pmap q s₁ s)
    (hnew : Newborn L (k.setPmap s) e p) (hsame : SameLive k₀ (k.setPmap s))
    (hins : s₁.Inserted L p q (uxstackVa u) (pteU ||| pteW ||| pteR) s)
    (hn : s.pageFreeList.length = n - userCost u)
    (hrefs : ∀ f, f ∉ k.pmap.pageFreeList → s.ppRef f = k.pmap.ppRef f) :
    Stocked L k₀ e p (u + 1) m (n - userCost u) (k.setPmap s) := by
  have hI := h.newborn.spaces.inv
  have hd := h.newborn.dir
  have hown := h.own hu
  have hpdx := pdx_uxstackVa hu
  have hd₁ := hd.alloc hI hnp.alloc
  refine ⟨hnew, hsame, hn, ?_, ⟨fun hnone => ?_, fun h0 => by omega⟩, fun i hi hui => ?_,
    fun i hi hmi => ?_, fun i hi hmi f hf => ?_⟩
  · show s.tableOf p kstackPdx ≠ none
    rw [hnp.tableOf hI hd (by rw [hpdx]; decide)]
    exact h.kernel
  · have hpte := hins.pte
    have hnone : s.tableOf p (pdx (uxstackVa 0)) = none := hnone
    rw [Pmap.pteOf, hpdx, hnone] at hpte
    exact absurd hpte.symm (mkPte_ne_zero _ _)
  · show entryFrame (s.pteOf p (uxstackVa i)) = none
    have hslot : ¬s.SameSlot p (uxstackVa u) p (uxstackVa i) := by
      intro hslot
      obtain ⟨_, _, _, hx⟩ := hslot
      exact ptx_uxstackVa hu hi (by omega) hx
    rw [hnp.pteOf hI hd hslot]
    exact h.clear i hi (by omega)
  · show entryFrame (s.pteOf p (kstackVa i)) = _
    rw [hnp.pteOf hI hd fun hslot => vpn_stackVa hu hi
      (Pmap.sameSlot_of_own hins.inv.toForest hown (hins.dirs p hd₁).1 hslot).2]
    exact h.old i hi hmi
  · show (s.ppRef f).toNat + _ = _
    rw [hrefs f (h.not_free hi hmi hf)]
    exact h.refs i hi hmi f hf

/-- The next page of the exception stack, or the free list is empty. -/
theorem Stocked.userPage (h : Stocked L k₀ e p u m n k) (hu : u < 3)
    (hnp : NewPage L p (uxstackVa u) (pteU ||| pteW ||| pteR) k.pmap q s₁ s)
    (hnew : Newborn L (k.setPmap s) e p) (hsame : SameLive k₀ (k.setPmap s)) :
    (userCost u ≤ n ∧ Stocked L k₀ e p (u + 1) m (n - userCost u) (k.setPmap s)) ∨
      (n < userCost u ∧ s.pageFreeList = []) := by
  have hI := h.newborn.spaces.inv
  have hd := h.newborn.dir
  have hc := Pmap.counted_of_own hI.toForest (h.own hu)
  have hpdx := pdx_uxstackVa hu
  obtain ⟨hl, -⟩ := hnp.head hI
  have hlen : k.pmap.pageFreeList.length = s₁.pageFreeList.length + 1 := by
    rw [hl, List.length_cons]
  have hfree := h.free
  by_cases h0 : u = 0
  · have ht : k.pmap.tableOf p (pdx (uxstackVa u)) = none := by
      rw [hpdx]
      exact h.user.mpr h0
    obtain ⟨hs, hins, hrefs⟩ := hnp.of_clear hI hd hc ht
    rw [hfree] at hs hins
    have hcost : userCost u = 2 := if_pos h0
    by_cases hn : 2 ≤ n
    · exact .inl ⟨by omega, h.nextUser hu hnp hnew hsame (hins hn) (by rw [hs, hcost]) hrefs⟩
    · refine .inr ⟨by omega, List.length_eq_zero_iff.mp ?_⟩
      omega
  · have ht : k.pmap.tableOf p (pdx (uxstackVa u)) ≠ none := by
      rw [hpdx]
      exact fun hnone => h0 (h.user.mp hnone)
    obtain ⟨hins, hs, hrefs⟩ := hnp.of_table hI hd hc ht
    have hgive : k.pmap.gives (k.pmap.pteOf p (uxstackVa u)) = 0 := by
      unfold Pmap.gives
      rw [h.clear u hu le_rfl]
    have hcost : userCost u = 1 := if_neg h0
    refine .inl ⟨by omega, h.nextUser hu hnp hnew hsame hins (by omega) fun f hf =>
      BitVec.eq_of_toNat_eq ?_⟩
    have hr := hrefs f hf
    rw [h.clear u hu le_rfl, if_neg (by simp), Nat.add_zero] at hr
    exact hr

/-- The frame that the next page of the kernel stack replaces comes back when its other
references went in the rounds before. -/
theorem Stocked.gives_kstack (h : Stocked L k₀ e p u m n k) (hm : m < 3) :
    k.pmap.gives (k.pmap.pteOf p (kstackVa m)) = k₀.givesBack m := by
  unfold Pmap.gives Kernel.givesBack
  rw [h.old m hm le_rfl]
  cases ho : k₀.oldStack m with
  | none => rfl
  | some f =>
    have hr := h.refs m hm le_rfl f ho
    have h1 : (1 : BitVec 16).toNat = 1 := rfl
    have hiff : k.pmap.ppRef f = 1 ↔ (k₀.pmap.ppRef f).toNat =
        ((List.range m).countP fun j => k₀.oldStack j = some f) + 1 := by
      constructor
      · intro hone
        rw [hone] at hr
        omega
      · intro hone
        refine BitVec.eq_of_toNat_eq ?_
        omega
    simp only [hiff]

/-- The next page of the kernel stack. -/
theorem Stocked.kernPage (h : Stocked L k₀ e p u m n k) (hm : m < 3)
    (hnp : NewPage L p (kstackVa m) (pteW ||| pteR) k.pmap q s₁ s)
    (hnew : Newborn L (k.setPmap s) e p) (hsame : SameLive k₀ (k.setPmap s)) :
    1 ≤ n ∧ Stocked L k₀ e p u (m + 1) (n - 1 + k₀.givesBack m) (k.setPmap s) := by
  have hI := h.newborn.spaces.inv
  have hd := h.newborn.dir
  have hc := (h.newborn.kstack m hm).1
  have hpdx := pdx_kstackVa hm
  have ht : k.pmap.tableOf p (pdx (kstackVa m)) ≠ none := by
    rw [hpdx]
    exact h.kernel
  obtain ⟨hl, -⟩ := hnp.head hI
  obtain ⟨hins, hs, hrefs⟩ := hnp.of_table hI hd hc ht
  have hpos : 1 ≤ n := by
    rw [← h.free, hl, List.length_cons]
    omega
  have hd₁ := hd.alloc hI hnp.alloc
  refine ⟨hpos, hnew, hsame, ?_, ?_, ?_, fun i hi hui => ?_, fun i hi hmi => ?_,
    fun i hi hmi f hf => ?_⟩
  · show s.pageFreeList.length = _
    rw [h.gives_kstack hm, h.free] at hs
    omega
  · show s.tableOf p kstackPdx ≠ none
    obtain ⟨t, ht⟩ := Option.ne_none_iff_exists'.mp h.kernel
    have hk := hins.kept t (by rw [hpdx, Pmap.tableOf_alloc hI hd hnp.alloc]; exact ht)
    rw [hpdx] at hk
    rw [hk]
    simp
  · show s.tableOf p (pdx (uxstackVa 0)) = none ↔ u = 0
    rw [hnp.tableOf hI hd (by rw [hpdx]; decide)]
    exact h.user
  · show entryFrame (s.pteOf p (uxstackVa i)) = none
    rw [hnp.pteOf hI hd fun hslot => ?_]
    · exact h.clear i hi hui
    · obtain ⟨t, ht, ht', hx⟩ := hslot
      exact vpn_stackVa hi hm (Pmap.sameSlot_of_own hins.inv.toForest (h.own hi)
        (hins.dirs p hd₁).1 ⟨t, ht', ht, hx.symm⟩).2
  · show entryFrame (s.pteOf p (kstackVa i)) = _
    rw [hnp.pteOf hI hd fun ⟨_, _, _, hx⟩ => ptx_kstackVa hm hi (by omega) hx]
    exact h.old i hi (by omega)
  · show (s.ppRef f).toNat + _ = _
    have hr := hrefs f (h.not_free hi (by omega) hf)
    rw [h.old m hm le_rfl] at hr
    have hb := h.refs i hi (by omega) f hf
    rw [List.range_succ, List.countP_append, List.countP_singleton]
    simp only [decide_eq_true_eq]
    omega

/-- One round: it succeeds exactly when there are frames for its pages. -/
theorem mapStacks_stocked {E : Halt → Prop} (h : Stocked L k₀ e p m m n k) (hm : m < 3) :
    (mapStacks p m).wp (fun r k' => (∃ L, Newborn L k' e p) ∧
      ((r = .ok () ∧ userCost m + 1 ≤ n ∧
        Stocked L k₀ e p (m + 1) (m + 1) (n - userCost m - 1 + k₀.givesBack m) k') ∨
      (r ≠ .ok () ∧ n < userCost m + 1))) E k := by
  unfold mapStacks
  have hown := h.own hm
  refine wp_newPage h.newborn h.same
    (Pmap.counted_of_own h.newborn.spaces.inv.toForest hown) (.inl hown) (by decide) (by decide)
    (fun hnil => ⟨⟨L, h.newborn⟩, .inr ⟨by simp, ?_⟩⟩) fun q s₁ s hnp hnew hsame => ?_
  · have hfree := h.free
    rw [hnil, List.length_nil] at hfree
    omega
  obtain ⟨hc, hlib⟩ := hnew.kstack m hm
  rcases h.userPage hm hnp hnew hsame with ⟨hcost, h₁⟩ | ⟨hshort, hnil⟩
  · refine wp_newPage hnew hsame hc hlib (by decide) (by decide)
      (fun hnil => ⟨⟨L, hnew⟩, .inr ⟨by simp, ?_⟩⟩) fun q' s₁' s' hnp' hnew' hsame' => ?_
    · have hfree := h₁.free
      rw [hnil, List.length_nil] at hfree
      omega
    · obtain ⟨hpos, h₂⟩ := h₁.kernPage hm hnp' hnew' hsame'
      exact wp_pure.mpr ⟨⟨L, hnew'⟩, .inl ⟨rfl, by omega, h₂⟩⟩
  · -- no frame is left for the kernel stack
    refine wp_newPage hnew hsame hc hlib (by decide) (by decide)
      (fun _ => ⟨⟨L, hnew⟩, .inr ⟨by simp, by omega⟩⟩) fun q' s₁' s' hnp' _ _ => ?_
    have hl := (hnp'.head hnew.spaces.inv).1
    rw [show (k.setPmap s).pmap = s from rfl, hnil] at hl
    exact absurd hl (by simp)

/-- The copy shows what the template shows. -/
theorem adopted_pteOf (h : Spaces L k) (he : ¬k.Live e) (ha : k.pmap.pageAlloc = .ok (p, s))
    (va : Word) : (adopted k e p s).pmap.pteOf p va = k.pmap.pteOf k.basePgdir va := by
  obtain ⟨⟨L', h₀⟩, hself, -⟩ := growing_adopted h he ha
  unfold Pmap.pteOf Pmap.tableOf
  rw [hself]
  cases ht : entryFrame (k.pmap.mem k.basePgdir (pdx va)) with
  | none => rfl
  | some t =>
    have hsh := (h.template.shared ht).1
    have htf : t ∉ k.pmap.pageFreeList := Pmap.table_not_free h.inv (.inl hsh)
    exact congrFun (h₀.nursery.mem t htf) _

/-- The directory is copied and no page is mapped yet. -/
theorem stocked_adopted (h : Spaces L k) (he : ¬k.Live e) (ha : k.pmap.pageAlloc = .ok (p, s))
    (hk : k.pmap.mem k.basePgdir kstackPdx ≠ 0#32) :
    ∃ L', Stocked L' k e p 0 0 (k.pmap.pageFreeList.length - 1) (adopted k e p s) := by
  obtain ⟨⟨L', h₀⟩, hself, hlen⟩ := growing_adopted h he ha
  obtain ⟨-, hl, href, -⟩ := h.inv.alloc ha
  have hpf : p ∈ k.pmap.pageFreeList := by rw [hl]; exact List.mem_cons_self
  have htab : ∀ i, (adopted k e p s).pmap.tableOf p i = k.pmap.tableOf k.basePgdir i := fun i => by
    rw [Pmap.tableOf, Pmap.tableOf, hself]
  have hpte := adopted_pteOf h he ha
  have hux : ∀ i < 3, k.pmap.mem k.basePgdir (pdx (uxstackVa i)) = 0#32 := fun i hi =>
    h.template.user _ (personal_of_lt (uxstack_lt hi))
  refine ⟨L', h₀.newborn, h₀.same, by omega, ?_, ?_, fun i hi _ => ?_, fun i hi _ => by rw [hpte]; rfl,
    fun i hi _ f hf => ?_⟩
  · rw [htab]
    obtain ⟨t, -, hm⟩ := (h.template.entries kstackPdx).resolve_left hk
    rw [Pmap.tableOf, hm, entryFrame_mkPte t flagOnly_zero]
    simp
  · rw [htab, Pmap.tableOf, hux 0 (by decide), entryFrame_zero]
    simp
  · rw [hpte, Pmap.pteOf_of_clear (hux i hi), entryFrame_zero]
  · -- a page of the kernel stack is not the new directory
    have hfp : p ≠ f := fun e => h.oldStack_not_free hi hf (e ▸ hpf)
    show (((s.incRef p).ppRef f).toNat + _ = _)
    rw [Pmap.incRef_of_ne hfp, href]
    rfl

/-- `env_setup_vm` with a frame for the directory: it succeeds exactly when there
are frames for all pages, and the directory stays in any case. -/
theorem envSetupVm_stocked {E : Halt → Prop} (h : Spaces L k) (he : ¬k.Live e)
    (ha : k.pmap.pageAlloc = .ok (p, s)) (hk : k.pmap.mem k.basePgdir kstackPdx ≠ 0#32) :
    (envSetupVm e).wp (fun r k' => (∃ L, Newborn L k' e p) ∧
      (r = .ok () ↔ 8 ≤ k.pmap.pageFreeList.length + k.givesBack 0 + k.givesBack 1)) E k := by
  obtain ⟨L', h₀⟩ := stocked_adopted h he ha hk
  have hg₀ := k.givesBack_le 0
  have hg₁ := k.givesBack_le 1
  have hpos : 0 < k.pmap.pageFreeList.length := by
    rw [(h.inv.alloc ha).2.1]
    exact Nat.succ_pos _
  have hfail : ∀ {r : Except Errno Unit} {P : Prop}, r ≠ .ok () → ¬P → (r = .ok () ↔ P) :=
    fun hr hp => ⟨fun h => absurd h hr, fun h => absurd h hp⟩
  have hc : userCost 0 = 2 ∧ userCost 1 = 1 ∧ userCost 2 = 1 := ⟨rfl, rfl, rfl⟩
  obtain ⟨hc₀, hc₁, hc₂⟩ := hc
  unfold envSetupVm
  rw [wp_bind]
  refine wp_pageAlloc (fun hnil => ?_) fun p' s' ha' => ?_
  · rw [hnil] at hpos
    exact absurd hpos (by simp)
  obtain ⟨rfl, rfl⟩ := Prod.mk.inj (Except.ok.inj (ha.symm.trans ha'))
  simp only
  rw [wp_modify_bind, wp_modify_bind]
  show (each (mapStacks p) [0, 1, 2]).wp _ _ (adopted k e p s)
  simp only [each]
  refine wp_seq (mapStacks_stocked h₀ (by decide)) (fun _ k₁ h₁ => ?_) fun _ _ h₁ => ?_
  rotate_left
  · obtain ⟨hnew, ⟨hr, -⟩ | ⟨hr, hn⟩⟩ := h₁
    · exact absurd hr (by simp)
    · exact ⟨hnew, hfail hr (by omega)⟩
  obtain ⟨-, ⟨-, hn₁, h₁⟩ | ⟨hr, -⟩⟩ := h₁
  rotate_left
  · exact absurd rfl hr
  refine wp_seq (mapStacks_stocked h₁ (by decide)) (fun _ k₂ h₂ => ?_) fun _ _ h₂ => ?_
  rotate_left
  · obtain ⟨hnew, ⟨hr, -⟩ | ⟨hr, hn⟩⟩ := h₂
    · exact absurd hr (by simp)
    · exact ⟨hnew, hfail hr (by omega)⟩
  obtain ⟨-, ⟨-, hn₂, h₂⟩ | ⟨hr, -⟩⟩ := h₂
  rotate_left
  · exact absurd rfl hr
  refine wp_seq (mapStacks_stocked h₂ (by decide)) (fun _ k₃ h₃ => ?_) fun _ _ h₃ => ?_
  rotate_left
  · obtain ⟨hnew, ⟨hr, -⟩ | ⟨hr, hn⟩⟩ := h₃
    · exact absurd hr (by simp)
    · exact ⟨hnew, hfail hr (by omega)⟩
  obtain ⟨hnew, ⟨-, hn₃, -⟩ | ⟨hr, -⟩⟩ := h₃
  rotate_left
  · exact absurd rfl hr
  exact wp_pure.mpr ⟨hnew, ⟨fun _ => by omega, fun _ => rfl⟩⟩

end Stocked

end Kern

/-! ## `env_alloc` -/

/-- Everything that a new environment takes is there. -/
def Kernel.Enough (k : Kernel) : Prop :=
  8 ≤ k.pmap.pageFreeList.length + k.givesBack 0 + k.givesBack 1 ∧
    ∃ i, ¬Marked k.asidBitmap i

/-- The ASIDs and the count of identifiers. -/
def SameNumbers (k k' : Kernel) : Prop :=
  k'.asidBitmap = k.asidBitmap ∧ k'.idCount = k.idCount

instance : IsPreorder Kernel SameNumbers where
  refl _ := ⟨rfl, rfl⟩
  trans _ _ _ h h' := ⟨h'.1.trans h.1, h'.2.trans h.2⟩

namespace Kern

open Sys

section EnvAlloc

variable {L : Layout} {k : Kernel} {e : EnvIdx} {p : Frame} {s : Pmap} {E : Halt → Prop}

theorem OnlyPages.numbers {α : Type} {m : Kern α} (h : OnlyPages m) :
    Keeps SameNumbers (fun _ => True) m :=
  keeps_mono (fun k k' ⟨p, hp⟩ => by rw [hp]; exact ⟨rfl, rfl⟩) (fun _ _ => trivial) h

theorem numbers_envSetupVm (e : EnvIdx) : Keeps SameNumbers (fun _ => True) (envSetupVm e) := by
  refine keeps_bind (OnlyPages.numbers pages_pageAlloc) fun p => ?_
  refine keeps_bind (keeps_modify fun _ => ⟨rfl, rfl⟩) fun _ => ?_
  refine keeps_bind (keeps_modify fun _ => ⟨rfl, rfl⟩) fun _ => ?_
  exact keeps_each (fun i => OnlyPages.numbers (pages_mapStacks p i)) _

/-- A directory is counted. -/
theorem Newborn.counted (h : Newborn L k e p) : k.pmap.ppRef p ≠ 0 := by
  intro h0
  have hc := h.spaces.inv.count p
  have hpos := h.dir.held
  rw [h0] at hc
  have hz : (0 : BitVec 16).toNat = 0 := rfl
  omega

/-- `asid_alloc` fails exactly when all ASIDs are taken. -/
theorem asidAlloc_iff {Q : Except Errno (Fin 512) → Kernel → Prop}
    (hok : ∀ i bm, ¬Marked k.asidBitmap i → Q (.ok i) { k with asidBitmap := bm })
    (herr : (∀ i, Marked k.asidBitmap i) → Q (.error .noFreeEnv) k) : asidAlloc.wp Q E k := by
  refine wp_conseq asidAlloc_spec fun r k' hr => ?_
  cases r with
  | ok i =>
    obtain ⟨hi, rfl⟩ := hr
    exact hok i _ hi
  | error x =>
    obtain ⟨rfl, rfl, hall⟩ := hr
    exact herr hall

/-- With a frame for the directory, `env_alloc` succeeds exactly when there is
enough, and the frame is gone in any case. -/
theorem envAlloc_stocked {rest : List EnvIdx} (h : Spaces L k) (hl : k.envFreeList = e :: rest)
    (he : ¬k.Live e) (ha : k.pmap.pageAlloc = .ok (p, s))
    (hk : k.pmap.mem k.basePgdir kstackPdx ≠ 0#32) (parentId : Word) :
    (envAlloc parentId).wp (fun r k' => k'.pmap.ppRef p ≠ 0 ∧
      ((∃ c, r = .ok c) ↔ k.Enough) ∧ ∀ c, r = .ok c → (k'.envs c).id = k.nextId c)
      (fun _ => True) k := by
  have hsetup := wp_and (envSetupVm_stocked (E := fun _ => True) h he ha hk) (numbers_envSetupVm e k)
  unfold envAlloc
  rw [wp_get_bind, hl]
  simp only
  refine wp_seq (wp_mono hsetup (fun _ _ hr => hr) fun _ _ => trivial) (fun _ k₁ h₁ => ?_)
    fun x k₁ h₁ => ?_
  · obtain ⟨⟨⟨L', hnew⟩, hiff⟩, hasid, hcount⟩ := h₁
    have hframes := hiff.mp rfl
    have hp := Newborn.counted hnew
    unfold setEnv mkenvid
    rw [wp_modify_bind]
    simp only [wp_bind, wp_modify, wp_get, wp_pure]
    refine asidAlloc_iff (fun i bm hi => ?_) fun hall => ?_
    · simp only
      refine ⟨hp, ⟨fun _ => ⟨hframes, i, ?_⟩, fun _ => ⟨e, rfl⟩⟩, fun c hc => ?_⟩
      · rw [← hasid]
        exact hi
      · obtain rfl := Except.ok.inj hc
        simp only [Kernel.setEnv, Function.update_self, hcount]
        rfl
    · refine ⟨hp, ⟨fun hok => ?_, fun hen => ?_⟩, fun c hc => absurd hc (by simp)⟩
      · obtain ⟨c, hc⟩ := hok
        exact absurd hc (by simp)
      obtain ⟨-, i, hi⟩ := hen
      rw [← hasid] at hi
      exact absurd (hall i) hi
  · obtain ⟨⟨⟨L', hnew⟩, hiff⟩, -⟩ := h₁
    refine ⟨Newborn.counted hnew, ⟨fun hok => ?_, fun hen => ?_⟩, fun c hc => absurd hc (by simp)⟩
    · obtain ⟨c, hc⟩ := hok
      exact absurd hc (by simp)
    · exact absurd (hiff.mpr hen.1) (by simp)

/-- The sign of an identifier is bit 20 of the count. -/
theorem nextId_msb (k : Kernel) (e : EnvIdx) :
    (k.nextId e).msb = (k.idCount + 1#32).getLsbD 20 := by
  have he : (BitVec.ofNat 32 e.val).msb = false := by
    rw [BitVec.msb_eq_false_iff_two_mul_lt, BitVec.toNat_ofNat]
    omega
  rw [Kernel.nextId, BitVec.msb_or, he, Bool.or_false, BitVec.msb_shiftLeft,
    BitVec.getMsbD_eq_getLsbD]
  rfl

/-- `e_exofork` with a frame for the directory. -/
theorem eExofork_stocked {rest : List EnvIdx} {c : EnvIdx} (h : Spaces L k)
    (hfree : ∀ e ∈ k.envFreeList, ¬k.Live e) (hl : k.envFreeList = e :: rest)
    (hc : k.curenv = some c) (ha : k.pmap.pageAlloc = .ok (p, s))
    (hk : k.pmap.mem k.basePgdir kstackPdx ≠ 0#32) :
    eExofork.wp (fun r k' => k'.pmap.ppRef p ≠ 0 ∧ ((∃ v, r = .ok v) ↔ k.Enough) ∧
      ∀ v, r = .ok v → v.msb = (k.idCount + 1#32).getLsbD 20) (fun _ => False) k := by
  have he : ¬k.Live e := hfree e (by rw [hl]; exact List.mem_cons_self)
  unfold eExofork
  rw [wp_bind]
  refine wp_of (fun r k' hr => ?_) fun x hx => ?_
  · obtain ⟨rfl, rfl⟩ := Prod.mk.inj (Except.ok.inj (hr.symm.trans (curenv_eq hc)))
    simp only
    rw [wp_get_bind]
    refine wp_seq (wp_and (envAlloc_newborn (E := fun _ => False) h hfree _)
      (envAlloc_stocked h hl he ha hk _)) (fun e' k₁ h₁ => ?_) fun x k₁ h₁ => ?_
    · obtain ⟨-, hp, hiff, hid⟩ := h₁
      rw [wp_modify_bind, wp_get_bind, wp_pure]
      refine ⟨hp, ⟨fun _ => hiff.mp ⟨e', rfl⟩, fun _ => ⟨_, rfl⟩⟩, fun v hv => ?_⟩
      rw [← Except.ok.inj hv, Kernel.setEnv_self, ← nextId_msb k' e', ← hid e' rfl]
    · obtain ⟨-, hp, hiff, -⟩ := h₁
      refine ⟨hp, ⟨fun ⟨v, hv⟩ => absurd hv (by simp), fun hen => ?_⟩, fun v hv => absurd hv (by simp)⟩
      obtain ⟨e', he'⟩ := hiff.mpr hen
      exact absurd he' (by simp)
  · rw [curenv_eq hc] at hx
    exact absurd hx (by simp)

end EnvAlloc

end Kern

/-! ## Calls that fail -/

/-- The call returned a negative word. -/
def Negative : Except Errno Ret → Prop
  | .error _ => True
  | .ok (.value v) => v.msb = true
  | .ok .switched => False

/-- What a call may take is as it was: the free frames and the counters, the contents
of all frames in use, page tables among them, the free slots and the ASIDs. -/
structure Kernel.Untaken (k k' : Kernel) : Prop where
  frames : k'.pmap.pageFreeList = k.pmap.pageFreeList
  counters : k'.pmap.ppRef = k.pmap.ppRef
  tables : ∀ f, f ∉ k.pmap.pageFreeList → k'.pmap.mem f = k.pmap.mem f
  slots : k'.envFreeList = k.envFreeList
  asids : k'.asidBitmap = k.asidBitmap

theorem Kernel.Untaken.refl (k : Kernel) : k.Untaken k :=
  ⟨rfl, rfl, fun _ _ => rfl, rfl, rfl⟩

/-- A call that fails has taken nothing. -/
def Kernel.LeaksNothing (k : Kernel) (c : Kern.Ecall) : Prop :=
  ∀ r k', Kern.ecall c k = .ok (r, k') → Negative r → k.Untaken k'

namespace Kern

open Sys

section Leaks

variable {L : Layout} {k : Kernel} {e : EnvIdx} {c : EnvIdx}

theorem returnsZero_run {m : Kern Unit} {k' : Kernel} {r : Except Errno Unit}
    (h : m k = .ok (r, k')) : returnsZero m k = .ok (r.map fun _ => .value 0#32, k') := by
  unfold returnsZero
  cases r with
  | ok u => exact bind_of_ok h
  | error x => exact bind_of_error h

/-- `e_mem_alloc` leaks exactly where it gets the last frame and needs another one
for the table. -/
theorem memAlloc_leaks_iff (h : Spaces L k) {envid va perm : Word} (hc : k.curenv = some c)
    (hlive : ∀ e, k.target envid true = some e → k.Live e) :
    k.LeaksNothing (.memAlloc envid va perm) ↔
      ∀ e d, isIllegalVa va = false → k.target envid true = some e → (k.envs e).pgdir = some d →
        k.pmap.pageFreeList.length = 1 → k.pmap.tableOf d (pdx va) ≠ none := by
  have hcall : ∀ {r : Except Errno Unit} {k' : Kernel}, eMemAlloc envid va perm k = .ok (r, k') →
      ecall (.memAlloc envid va perm) k = .ok (r.map fun _ => .value 0#32, k') :=
    fun hm => returnsZero_run hm
  -- a call that changes nothing, or that succeeds, leaks nothing
  have hsame : ∀ {r : Except Errno Unit} {k' : Kernel}, eMemAlloc envid va perm k = .ok (r, k') →
      k' = k ∨ r = .ok () → k.LeaksNothing (.memAlloc envid va perm) := by
    intro r k' hm hor r₁ k₁ h₁ hneg
    rw [hcall hm] at h₁
    obtain ⟨rfl, rfl⟩ := Prod.mk.inj (Except.ok.inj h₁)
    rcases hor with rfl | rfl
    · exact .refl _
    · exact absurd hneg (by simp [Negative, Except.map])
  cases hva : isIllegalVa va with
  | true => exact ⟨fun _ e d h => absurd h (by simp), fun _ => hsame (eMemAlloc_illegal hva) (.inl rfl)⟩
  | false =>
    cases he : k.target envid true with
    | none =>
      refine ⟨fun _ e d _ h => absurd h (by simp), fun _ => hsame (r := .error .badEnv) ?_ (.inl rfl)⟩
      unfold eMemAlloc
      rw [if_neg (by rw [hva]; simp), bind_of_error (envid2env_none hc he)]
    | some e =>
      have hva' : va < utop := (Bool.or_eq_false_iff.mp hva).2 |> fun h =>
        BitVec.not_le.mp (of_decide_eq_false h)
      obtain ⟨d, hd, hdir, -, hcnt⟩ := h.own (hlive e he) hva'
      cases hl : k.pmap.pageFreeList with
      | nil =>
        exact ⟨fun _ _ _ _ _ _ h => absurd h (by simp),
          fun _ => hsame (eMemAlloc_nil hva he hl) (.inl rfl)⟩
      | cons pp rest =>
        obtain ⟨s, ha⟩ : ∃ s, k.pmap.pageAlloc = .ok (pp, s) := ⟨_, by
          unfold Pmap.pageAlloc
          rw [hl]⟩
        have hlist : s.pageFreeList = rest :=
          (List.cons.inj ((h.inv.alloc ha).2.1.symm.trans hl)).2
        have hkept := Pmap.kept_alloc h.inv ha
        have hdir' := hkept.dirs d hdir
        have hcnt' := hkept.counted h.inv.toForest hdir hcnt
        have htab := Pmap.tableOf_alloc h.inv hdir ha (pdx va)
        have hiff := Pmap.pageInsert_outcome hkept.inv hdir' pp perm hcnt'
        rw [htab, hlist] at hiff
        rcases hiff with ⟨hok, s', hi⟩ | ⟨hnone, hnil, hi⟩
        · refine ⟨fun _ e' d' _ he' hd' hone => ?_, fun _ => hsame (eMemAlloc_ok hva he hd ha hi) (.inr rfl)⟩
          obtain rfl := Option.some.inj he'
          obtain rfl := Option.some.inj (hd.symm.trans hd')
          exact hok.resolve_right fun hr => hr (List.length_eq_zero_iff.mp (by simpa using hone))
        · refine ⟨fun hleak => ?_, fun hcond => ?_⟩
          · -- the list loses its one frame
            have hframes := (hleak _ _ (hcall (eMemAlloc_ok hva he hd ha hi)) trivial).frames
            have hgone : s.pageFreeList = pp :: rest := hframes.trans hl
            rw [hlist, hnil] at hgone
            exact absurd hgone (by simp)
          · refine absurd hnone (hcond e d rfl rfl hd ?_)
            rw [hnil]
            rfl

/-- `e_exofork` leaks exactly where it gets the frame for the directory and then
runs out of something, or where the new identifier is negative. -/
theorem exofork_leaks_iff (h : Spaces L k) (hfree : ∀ e ∈ k.envFreeList, ¬k.Live e)
    (hc : k.curenv = some c) (hk : k.pmap.mem k.basePgdir kstackPdx ≠ 0#32) :
    k.LeaksNothing .exofork ↔ k.envFreeList = [] ∨ k.pmap.pageFreeList = [] ∨
      (k.Enough ∧ (k.idCount + 1#32).getLsbD 20 = false) := by
  -- a call that fails at its first step
  have hfirst : ∀ x, (∀ id, envAlloc id k = .ok (.error x, k)) → k.LeaksNothing .exofork := by
    intro x hx r k' hr _
    have hcall : ecall .exofork k = .ok (.error x, k) := by
      unfold ecall returns eExofork
      refine bind_of_error ?_
      rw [bind_of_ok (curenv_eq hc), bind_of_ok (b := k) (t := k) rfl]
      exact bind_of_error (hx _)
    rw [hcall] at hr
    rw [← (Prod.mk.inj (Except.ok.inj hr)).2]
    exact .refl k
  cases hl : k.envFreeList with
  | nil =>
    refine ⟨fun _ => .inl rfl, fun _ => hfirst .noFreeEnv fun id => ?_⟩
    unfold envAlloc
    rw [bind_of_ok (b := k) (t := k) rfl, hl]
    rfl
  | cons e rest =>
    cases hf : k.pmap.pageFreeList with
    | nil =>
      refine ⟨fun _ => .inr (.inl rfl), fun _ => hfirst .noMem fun id => ?_⟩
      unfold envAlloc envSetupVm
      rw [bind_of_ok (b := k) (t := k) rfl, hl]
      exact bind_of_error (bind_of_error (pageAlloc_nil hf))
    | cons p free =>
      obtain ⟨s, ha⟩ : ∃ s, k.pmap.pageAlloc = .ok (p, s) := ⟨_, by
        unfold Pmap.pageAlloc
        rw [hf]⟩
      obtain ⟨r, k', hrun, hp, hiff, hmsb⟩ := wp_run (eExofork_stocked h hfree hl hc ha hk)
      have h0 : k.pmap.ppRef p = 0 := by
        obtain ⟨-, -, -, -, -, -, hb, hr⟩ := h.inv.alloc ha
        refine BitVec.eq_of_toNat_eq ?_
        rw [h.inv.count p, hb, hr]
        rfl
      have hneg : k.LeaksNothing .exofork ↔ ∃ v, r = .ok v ∧ v.msb = false := by
        have hcall : ecall .exofork k = .ok (r.map .value, k') := by
          cases r with
          | ok v => exact bind_of_ok hrun
          | error x => exact bind_of_error hrun
        constructor
        · intro hleak
          by_contra hno
          -- the frame of the directory is counted
          have hcounted : Negative (r.map Ret.value) := by
            cases r with
            | ok v =>
              by_contra hv
              exact hno ⟨v, rfl, Bool.eq_false_iff.mpr hv⟩
            | error x => trivial
          exact hp ((congrFun (hleak _ _ hcall hcounted).counters p).trans h0)
        · rintro ⟨v, rfl, hv⟩ r' k'' hr hn
          rw [hcall] at hr
          obtain ⟨rfl, -⟩ := Prod.mk.inj (Except.ok.inj hr)
          have hn : v.msb = true := hn
          exact absurd (hv.symm.trans hn) (by simp)
      rw [hneg]
      constructor
      · rintro ⟨v, hv, hpos⟩
        exact .inr (.inr ⟨hiff.mp ⟨v, hv⟩, (hmsb v hv).symm.trans hpos⟩)
      · rintro (hnil | hnil | ⟨hen, hbit⟩)
        · exact absurd hnil (by simp)
        · exact absurd hnil (by simp)
        · obtain ⟨v, hv⟩ := hiff.mpr hen
          exact ⟨v, hv, (hmsb v hv).trans hbit⟩

end Leaks

end Kern

/-- In every run, a call of `e_mem_alloc` or `e_exofork` that fails leaks nothing
exactly when it does not take the last frame and then need another one, and when
`e_exofork` lacks a slot, lacks the first frame, or lacks nothing and the new
identifier is not negative. -/
theorem shortage_leaks_nothing {h : List Event} {k : Kernel}
    (hrun : Run Prepared Kernel.OrderlyStep h k) (hcur : k.curenv ≠ none) (a : Trapframe) :
    (∀ envid va perm, (∀ e, k.target envid true = some e → k.Live e) →
      (({ k with active := a } : Kernel).LeaksNothing (.memAlloc envid va perm) ↔
        ∀ e d, Kern.isIllegalVa va = false → k.target envid true = some e →
          (k.envs e).pgdir = some d → k.pmap.pageFreeList.length = 1 →
          k.pmap.tableOf d (pdx va) ≠ none)) ∧
    (({ k with active := a } : Kernel).LeaksNothing .exofork ↔
      k.envFreeList = [] ∨ k.pmap.pageFreeList = [] ∨
        (k.Enough ∧ (k.idCount + 1#32).getLsbD 20 = false)) := by
  have hset := Settled.of_run hrun
  obtain ⟨L, hL, -⟩ := hset.spaces
  have hL' : Spaces L { k with active := a } := hL.congr rfl rfl rfl rfl rfl
  obtain ⟨c, hc⟩ := Option.ne_none_iff_exists'.mp hcur
  refine ⟨fun envid va perm hlive => ?_, ?_⟩
  · exact Kern.memAlloc_leaks_iff hL' hc hlive
  · exact Kern.exofork_leaks_iff hL' hset.not_live hc hset.filled

/-- After a program without pages all frames that a fork needs are there. -/
theorem shortage_leaks_nothing_small : ∃ h k, Run Prepared Kernel.OrderlyStep h k ∧
    k.curenv = some 0 ∧ k.LeaksNothing .exofork := by
  have hend : ((Run.follow Kernel.orderlyNext (runProgram 0) tableKernel.envInit).map fun k =>
      (k.curenv, decide (8 ≤ k.pmap.pageFreeList.length), k.idCount,
        k.asidBitmap (Kern.asidWord 1) &&& Kern.asidMask 1)) = some (some 0, true, 1#32, 0#32) := by
    decide +kernel
  obtain ⟨k, hk, heq⟩ := Option.map_eq_some_iff.mp hend
  simp only [Prod.mk.injEq] at heq
  obtain ⟨hcur, hlen, hcount, hasid⟩ := heq
  have hrun := Run.of_follow Kernel.orderlyStep_of_next (.start tableKernel_prepared) hk
  have hlen := of_decide_eq_true hlen
  refine ⟨_, k, hrun, hcur, (shortage_leaks_nothing hrun (by rw [hcur]; simp) k.active).2.mpr
    (.inr (.inr ⟨⟨by omega, 1, ?_⟩, ?_⟩))⟩
  · unfold Marked
    rw [hasid]
    simp
  · rw [hcount]
    decide

/-- A program that leaves one frame: the fork fails, and the frame is gone. -/
theorem shortage_leaks_nothing_fails : ¬∀ (h : List Event) (k : Kernel),
    Run Prepared Kernel.Step h k → k.curenv ≠ none →
    k.LeaksNothing .exofork ∧ ∀ envid va perm, k.LeaksNothing (.memAlloc envid va perm) := by
  intro hall
  have hend : ((Run.follow Kernel.orderlyNext (runProgram 90) tableKernel.envInit).bind fun k =>
      (Sys.refused (Kern.ecall .exofork k)).map fun k' => (k.curenv, k.pmap.pageFreeList.length,
        k'.pmap.pageFreeList.length)) = some (some 0, 1, 0) := by
    decide +kernel
  obtain ⟨k, hk, hend⟩ := Option.bind_eq_some_iff.mp hend
  have hrun := Run.of_follow Kernel.orderlyStep_of_next (.start tableKernel_prepared) hk
  obtain ⟨k', href, heq⟩ := Option.map_eq_some_iff.mp hend
  obtain ⟨x, hcall⟩ := Sys.refused_eq_some.mp href
  simp only [Prod.mk.injEq] at heq
  obtain ⟨hcur, hone, hnone⟩ := heq
  have hframes := ((hall _ k (hrun.mono fun _ _ _ hs => hs.2.2) (by rw [hcur]; simp)).1 _ k' hcall
    trivial).frames
  rw [hframes, hone] at hnone
  exact absurd hnone (by simp)

end RvMos
