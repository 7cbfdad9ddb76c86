/-
Identifiers that come back.

`mkenvid` counts the environments that were ever created, and the count leaves the
31 bits of a positive identifier after `2 ^ 20` of them.  A program gets there by
forking and destroying the child over and over: the child gives back its directory,
its table and its exception stack, and the pages of its kernel stack replace those of
the child before.  So a pool of frames, a slot and an ASID are there again each time.
-/
import RvMos.Kern.Shortage
import RvMos.Kern.GiveBack

namespace RvMos

open Lib

/-! ## A pool of frames -/

namespace Pmap

/-- The addresses at which `env_setup_vm` maps pages into the directory `p`. -/
def Nestled (L : Layout) (p : Frame) (va : Word) : Prop :=
  L.own p (pdx va) ∨ ∃ n < 3, va = kstackVa n

/-- The frame is the directory, one of its tables or one of its pages. -/
def Placed (L : Layout) (s : Pmap) (p f : Frame) : Prop :=
  f = p ∨ (∃ i, L.own p i ∧ s.tableOf p i = some f) ∨
    ∃ va, Nestled L p va ∧ entryFrame (s.pteOf p va) = some f

/-- While the environment with directory `p` is set up, the frames of the pool `F` are
free or in its place, each with one reference, and its tables can be given back. -/
structure Nest (F : List Frame) (L : Layout) (p : Frame) (s : Pmap) : Prop where
  once : ∀ f ∈ F, (s.ppRef f).toNat ≤ 1
  placed : ∀ f ∈ F, f ∈ s.pageFreeList ∨ Placed L s p f
  visited : ∀ i t, L.own p i → s.tableOf p i = some t → Visited i
  library : ∀ va, L.own p (pdx va) → s.pteOf p va &&& pteLibrary = 0#32

end Pmap

namespace Kern

section Nest

variable {F : List Frame} {L : Layout} {s s₁ s' : Pmap} {p q : Frame} {va perm : Word}

/-- A fresh page, where there is a frame for its table as well. -/
theorem NewPage.inserted (hnp : NewPage L p va perm s q s₁ s') (hI : s.Inv L) (hd : s.Dir L p)
    (hc : s.Counted L p va) (hlen : 2 ≤ s.pageFreeList.length) :
    s₁.Inserted L p q va perm s' ∧ Pmap.Entered L s₁ p q va s' := by
  obtain ⟨hl, -⟩ := hnp.head hI
  have hk := Pmap.kept_alloc hI hnp.alloc
  have hq : q ∈ s.pageFreeList := by rw [hl]; exact List.mem_cons_self
  rcases hnp.insert with ⟨hins, hinserted⟩ | ⟨-, -, hnil⟩
  · refine ⟨hinserted, Pmap.entered_of_insert hk.inv (hk.dirs p hd)
      (hk.counted hI.toForest hd hc) (fun hf => ?_) (Pmap.not_free_of_alloc hI hnp.alloc) hins⟩
    rw [Pmap.pteOf_alloc hI hd hnp.alloc va] at hf
    exact (Pmap.not_free_of_mapped hI hd hc hf).1 hq
  · rw [hl, hnil] at hlen
    exact absurd hlen (by simp)

/-- A frame that is held keeps its contents. -/
theorem NewPage.held (hnp : NewPage L p va perm s q s₁ s') (hI : s.Inv L) {i : Index}
    (hown : L.own p i) {f : Frame} (hf : Pmap.Held L f) : s'.mem f = s.mem f := by
  obtain ⟨hI₁, hl, -, hmem, -⟩ := hI.alloc hnp.alloc
  have hfq : f ≠ q := fun e => hf.not_free hI (by rw [e, hl]; exact List.mem_cons_self)
  have h₁ : s₁.mem f = s.mem f := by rw [hmem, Function.update_of_ne hfq]
  rcases hnp.insert with ⟨-, hins⟩ | ⟨rfl, -, -⟩
  · rw [hins.data f (hf.not_isTable hI₁.toForest) (hf.not_free hI₁) fun e =>
      hf.not_own i (e ▸ hown), h₁]
  · exact h₁

/-- Addresses of the nest that share an entry have the same page. -/
theorem nestled_slot {va' : Word} (hF : s'.Forest L) (hd : s'.Dir L p) (h : Pmap.Nestled L p va)
    (h' : Pmap.Nestled L p va') (hslot : s'.SameSlot p va p va') (s : Pmap) :
    s.pteOf p va' = s.pteOf p va := by
  have hof : pdx va' = pdx va → ptx va' = ptx va → s.pteOf p va' = s.pteOf p va :=
    fun hi hj => Pmap.pteOf_congr (vpn_eq_iff.mpr ⟨hi, hj⟩)
  obtain ⟨t, ht, ht', hx⟩ := hslot
  rcases h with hown | ⟨n, hn, rfl⟩
  · exact Pmap.pteOf_congr (Pmap.sameSlot_of_own hF hown hd ⟨t, ht, ht', hx⟩).2
  · rcases h' with hown' | ⟨m, hm, rfl⟩
    · exact (Pmap.pteOf_congr (Pmap.sameSlot_of_own hF hown' hd ⟨t, ht', ht, hx.symm⟩).2).symm
    · exact hof (by rw [pdx_kstackVa hm, pdx_kstackVa hn]) hx.symm

/-- The next page of the nest. -/
theorem NewPage.nest (hnp : NewPage L p va perm s q s₁ s') (h : Pmap.Nest F L p s) (hI : s.Inv L)
    (hd : s.Dir L p) (hc : s.Counted L p va) (hlen : 2 ≤ s.pageFreeList.length)
    (hva : Pmap.Nestled L p va) (hvis : L.own p (pdx va) → Visited (pdx va))
    (hfl : FlagOnly perm) (hperm : perm &&& pteLibrary = 0#32) :
    Pmap.Nest F L p s' ∧ s.pageFreeList.length ≤ s'.pageFreeList.length + 2 := by
  obtain ⟨hl, href⟩ := hnp.head hI
  obtain ⟨hins, hent⟩ := hnp.inserted hI hd hc hlen
  have hd₁ := hd.alloc hI hnp.alloc
  have hd' := (hins.dirs p hd₁).1
  have hI₁ := (hI.alloc hnp.alloc).1
  have hq0 := hI.ppRef_of_free (f := q) (by rw [hl]; exact List.mem_cons_self)
  have htab := Pmap.tableOf_alloc hI hd hnp.alloc
  have hpte := Pmap.pteOf_alloc hI hd hnp.alloc
  have hkeep : ∀ i t, s.tableOf p i = some t → s'.tableOf p i = some t := by
    intro i t ht
    by_cases hi : i = pdx va
    · rw [hi] at ht ⊢
      exact hins.kept t ((htab _).trans ht)
    · rw [(hins.dirs p hd₁).2 i fun e => hi (congrArg Prod.snd e), htab]
      exact ht
  have hother : ∀ va', ¬s'.SameSlot p va p va' → s'.pteOf p va' = s.pteOf p va' := fun va' hne =>
    (hins.other p va' hd₁ hne).trans (hpte va')
  have hle : ∀ f ∈ F, (s₁.ppRef f).toNat ≤ 1 := fun f hf => by
    rw [href]
    exact h.once f hf
  refine ⟨⟨fun f hf => ?_, fun f hf => ?_, fun i t hown ht => ?_, fun va' hown => ?_⟩, ?_⟩
  · by_cases hfq : f = q
    · rw [hfq]
      refine hent.page.trans ?_
      rw [href, hq0]
    · rcases hent.le f hfq with hr | ⟨hfree, hr⟩
      · exact hr.trans (hle f hf)
      · rw [hI₁.ppRef_of_free hfree] at hr
        exact hr
  · rcases h.placed f hf with hfree | rfl | ⟨i, hown, ht⟩ | ⟨va', hva', hpage⟩
    · rw [hl] at hfree
      rcases List.mem_cons.mp hfree with rfl | hfree
      · refine .inr (.inr (.inr ⟨va, hva, ?_⟩))
        rw [hins.pte, entryFrame_mkPte f hfl]
      · exact (hent.free f hfree).imp id fun ⟨hown, ht, _⟩ => .inr (.inl ⟨_, hown, ht⟩)
    · exact .inr (.inl rfl)
    · exact .inr (.inr (.inl ⟨i, hown, hkeep i f ht⟩))
    · by_cases hslot : s'.SameSlot p va p va'
      · -- the page makes room for the new one
        rw [nestled_slot hins.inv.toForest hd' hva hva' hslot s, ← hpte] at hpage
        exact .inl (hent.back f hpage (hle f hf))
      · exact .inr (.inr (.inr ⟨va', hva', by rw [hother va' hslot]; exact hpage⟩))
  · by_cases hi : i = pdx va
    · rw [hi] at hown ⊢
      exact hvis hown
    · rw [(hins.dirs p hd₁).2 i fun e => hi (congrArg Prod.snd e), htab] at ht
      exact h.visited i t hown ht
  · by_cases hslot : s'.SameSlot p va p va'
    · rw [nestled_slot hins.inv.toForest hd' hva (.inl hown) hslot s', hins.pte,
        mkPte_and_flags q perm (by decide) (by decide), hperm]
    · rw [hother va' hslot]
      exact h.library va' hown
  · have ht := hent.taken
    rw [hl, List.length_cons]
    omega

end Nest

/-! ## The nest of a child -/

open Sys

/-- Between two children: the frames of the pool are free or in the kernel stack. -/
def Pooled (F : List Frame) (k : Kernel) : Prop :=
  ∀ f ∈ F, (k.pmap.ppRef f).toNat ≤ 1 ∧
    (f ∈ k.pmap.pageFreeList ∨ ∃ n < 3, k.oldStack n = some f)

/-- What is known between two steps of `env_setup_vm` about the nest. -/
structure Nesting (F : List Frame) (L : Layout) (k₀ : Kernel) (e : EnvIdx) (p : Frame) (n : Nat)
    (k : Kernel) : Prop where
  newborn : Newborn L k e p
  same : SameLive k₀ k
  nest : Pmap.Nest F L p k.pmap
  stack : ¬L.own p kstackPdx
  base : k.basePgdir = k₀.basePgdir ∧ k.pmap.mem k.basePgdir = k₀.pmap.mem k₀.basePgdir
  enough : n ≤ k.pmap.pageFreeList.length

section Nesting

variable {F : List Frame} {L : Layout} {k k₀ : Kernel} {e : EnvIdx} {p : Frame} {n : Nat}
  {E : Halt → Prop}

/-- The copy of the template. -/
theorem nesting_adopted (h : Spaces L k) (he : ¬k.Live e) (hF : Pooled F k) {s : Pmap}
    (ha : k.pmap.pageAlloc = .ok (p, s)) (hk : k.pmap.mem k.basePgdir kstackPdx ≠ 0#32)
    (hn : n + 1 ≤ k.pmap.pageFreeList.length) : ∃ L', Nesting F L' k e p n (adopted k e p s) := by
  obtain ⟨⟨L', h₀⟩, hself, hlen⟩ := growing_adopted h he ha
  obtain ⟨-, hl, href, -⟩ := h.inv.alloc ha
  have hpf : p ∈ k.pmap.pageFreeList := by rw [hl]; exact List.mem_cons_self
  have hbase := h₀.newborn.spaces.template
  have hb : (adopted k e p s).pmap.mem (adopted k e p s).basePgdir = k.pmap.mem k.basePgdir :=
    h₀.nursery.mem _ (h.template.held.not_free h.inv)
  -- what the copy has is shared
  have hnone : ∀ i, L'.own p i → (adopted k e p s).pmap.tableOf p i = none := by
    intro i hown
    cases ht : (adopted k e p s).pmap.tableOf p i with
    | none => rfl
    | some t =>
      refine absurd (hbase.shared (i := i) ?_).1
        (Pmap.not_shared_of_owned h₀.newborn.spaces.inv.toForest hown ht)
      rw [Pmap.tableOf, hb, ← hself]
      exact ht
  refine ⟨L', h₀.newborn, h₀.same, ⟨fun f hf => ?_, fun f hf => ?_, fun i t hown ht => ?_,
    fun va hown => ?_⟩, fun hown => ?_, ⟨rfl, hb⟩, by omega⟩
  · show ((s.incRef p).ppRef f).toNat ≤ 1
    by_cases hfp : p = f
    · rw [← hfp]
      refine (Pmap.incRef_succ_le _ _).trans ?_
      rw [href, h.inv.ppRef_of_free hpf]
    · rw [Pmap.incRef_of_ne hfp, href]
      exact (hF f hf).1
  · rcases (hF f hf).2 with hfree | ⟨m, hm, hold⟩
    · rw [hl] at hfree
      rcases List.mem_cons.mp hfree with rfl | hfree
      · exact .inr (.inl rfl)
      · exact .inl hfree
    · refine .inr (.inr (.inr ⟨kstackVa m, .inr ⟨m, hm, rfl⟩, ?_⟩))
      rw [adopted_pteOf h he ha]
      exact hold
  · rw [hnone i hown] at ht
    exact absurd ht (by simp)
  · rw [Pmap.pteOf, hnone _ hown]
    exact BitVec.zero_and
  · have h0 := hnone _ hown
    obtain ⟨t, -, hm⟩ := (h.template.entries kstackPdx).resolve_left hk
    rw [Pmap.tableOf, hself, hm, entryFrame_mkPte t flagOnly_zero] at h0
    exact absurd h0 (by simp)

/-- One round. -/
theorem mapStacks_nest (h : Nesting F L k₀ e p (n + 5) k) {m : Nat} (hm : m < 3) :
    (mapStacks p m).wp (fun r k' => r = .ok () ∧ Nesting F L k₀ e p (n + 1) k') E k := by
  have hlen := h.enough
  have hown : L.own p (pdx (uxstackVa m)) :=
    h.newborn.user.own _ (personal_of_lt (uxstack_lt hm))
  have hvis : ∀ m < 3, Pmap.freeSkips (pdx (uxstackVa m)) = false ∧
      (pdx (uxstackVa m)).val < 1023 := by decide
  have hc := Pmap.counted_of_own h.newborn.spaces.inv.toForest hown
  unfold mapStacks
  refine wp_newPage h.newborn h.same hc (.inl hown) (by decide) (by decide)
    (fun hnil => ?_) fun q s₁ s hnp hnew hsame => ?_
  · rw [hnil, List.length_nil] at hlen
    omega
  obtain ⟨h₁, hlen₁⟩ := hnp.nest h.nest h.newborn.spaces.inv h.newborn.dir hc (by omega)
    (.inl hown) (fun _ => hvis m hm) (by decide) (by decide)
  obtain ⟨hc', hlib'⟩ := hnew.kstack m hm
  refine wp_newPage hnew hsame hc' hlib' (by decide) (by decide)
    (fun hnil => ?_) fun q' s₁' s' hnp' hnew' hsame' => ?_
  · rw [show s.pageFreeList = [] from hnil, List.length_nil] at hlen₁
    omega
  have hns : L.own p (pdx (kstackVa m)) → Visited (pdx (kstackVa m)) := fun hown' => by
    rw [pdx_kstackVa hm] at hown'
    exact absurd hown' h.stack
  obtain ⟨h₂, hlen₂⟩ := hnp'.nest h₁ hnew.spaces.inv hnew.dir hc'
    (by show 2 ≤ s.pageFreeList.length; omega) (.inr ⟨m, hm, rfl⟩) hns (by decide) (by decide)
  have hheld := h.newborn.spaces.template.held
  have hb := (hnp'.held hnew.spaces.inv hown hheld).trans (hnp.held h.newborn.spaces.inv hown hheld)
  refine wp_pure.mpr ⟨rfl, hnew', hsame', h₂, h.stack, ⟨h.base.1, hb.trans h.base.2⟩, ?_⟩
  have hlen₂ : s.pageFreeList.length ≤ s'.pageFreeList.length + 2 := hlen₂
  show n + 1 ≤ s'.pageFreeList.length
  omega

/-- `env_setup_vm` with frames to spare. -/
theorem envSetupVm_nest (h : Spaces L k) (he : ¬k.Live e) (hF : Pooled F k)
    (hk : k.pmap.mem k.basePgdir kstackPdx ≠ 0#32) (hlen : 14 ≤ k.pmap.pageFreeList.length) :
    (envSetupVm e).wp (fun r k' => r = .ok () ∧ ∃ L' p, Nesting F L' k e p 0 k') E k := by
  unfold envSetupVm
  rw [wp_bind]
  refine wp_pageAlloc (fun hnil => ?_) fun p s ha => ?_
  · rw [hnil, List.length_nil] at hlen
    omega
  simp only
  rw [wp_modify_bind, wp_modify_bind]
  show (each (mapStacks p) [0, 1, 2]).wp _ _ (adopted k e p s)
  obtain ⟨L', h₀⟩ := nesting_adopted (n := 13) h he hF ha hk (by omega)
  simp only [each]
  refine wp_seq (mapStacks_nest (n := 8) h₀ (by decide)) (fun _ k₁ h₁ => ?_) fun _ _ h₁ =>
    absurd h₁.1 (by simp)
  refine wp_seq (mapStacks_nest (n := 4) h₁.2 (by decide)) (fun _ k₂ h₂ => ?_) fun _ _ h₂ =>
    absurd h₂.1 (by simp)
  refine wp_seq (mapStacks_nest (n := 0) h₂.2 (by decide)) (fun _ k₃ h₃ => ?_) fun _ _ h₃ =>
    absurd h₃.1 (by simp)
  obtain ⟨-, hnew, hsame, hnest, hstack, hbase, -⟩ := h₃
  exact wp_pure.mpr ⟨rfl, L', p, hnew, hsame, hnest, hstack, hbase, Nat.zero_le _⟩

/-- The page structures differ, and the directory of `e`. -/
def SameButDir (e : EnvIdx) (k k' : Kernel) : Prop :=
  ∃ p d, k' = (k.setPmap p).setEnv e fun v => { v with pgdir := d }

instance (e : EnvIdx) : IsPreorder Kernel (SameButDir e) where
  refl k := ⟨k.pmap, (k.envs e).pgdir, by simp [Kernel.setEnv, Kernel.setPmap]⟩
  trans k k' k'' h h' := by
    obtain ⟨p, d, rfl⟩ := h
    obtain ⟨p', d', rfl⟩ := h'
    exact ⟨p', d', by simp [Kernel.setEnv, Kernel.setPmap]⟩

theorem OnlyPages.butDir {α : Type} {m : Kern α} (h : OnlyPages m) (e : EnvIdx) :
    Keeps (SameButDir e) (fun _ => True) m :=
  keeps_mono (fun k k' ⟨p, hp⟩ => ⟨p, (k.envs e).pgdir, by
    rw [hp]
    simp [Kernel.setEnv, Kernel.setPmap]⟩) (fun _ _ => trivial) h

theorem butDir_envSetupVm (e : EnvIdx) : Keeps (SameButDir e) (fun _ => True) (envSetupVm e) := by
  refine keeps_bind (OnlyPages.butDir pages_pageAlloc e) fun p => ?_
  refine keeps_bind (keeps_modify fun k => ⟨k.pmap.incRef p, some p, rfl⟩) fun _ => ?_
  refine keeps_bind (OnlyPages.butDir (pages_setPmap _) e) fun _ => ?_
  exact keeps_each (fun i => OnlyPages.butDir (pages_mapStacks p i) e) _

end Nesting

end Kern

/-! ## Forking and destroying -/

/-- One program runs alone, and everything that a child needs is there. -/
structure Alone (F : List Frame) (k : Kernel) : Prop where
  cur : k.curenv = some 0
  status : ∀ e, (k.envs e).status = if e = 0 then .runnable else .free
  slot : ∃ rest, k.envFreeList = 1 :: rest
  asids : ∀ i, Marked k.asidBitmap i → i = 0
  template : ∀ i, Visited i → k.pmap.mem k.basePgdir i = 0#32
  pooled : Kern.Pooled F k

/-- The program has one child. -/
structure Parent (F : List Frame) (st : EnvStatus) (k : Kernel) : Prop where
  nest : ∃ L p, Spaces L k ∧ (k.envs 1).pgdir = some p ∧ Pmap.Nest F L p k.pmap ∧
    ¬L.own p kstackPdx
  cur : k.curenv = some 0
  status : ∀ e, (k.envs e).status = if e = 0 then .runnable else if e = 1 then st else .free
  parent : (k.envs 1).parentId = (k.envs 0).id
  recving : (k.envs 1).ipcRecving = 0#32
  asids : ∀ i, Marked k.asidBitmap i → i = 0 ∨ (k.envs 1).asid = i
  template : ∀ i, Visited i → k.pmap.mem k.basePgdir i = 0#32

theorem Parent.active {F : List Frame} {st : EnvStatus} {k : Kernel} (h : Parent F st k)
    (a : Trapframe) : Parent F st { k with active := a } := by
  obtain ⟨L, p, hL, hrest⟩ := h.nest
  exact ⟨⟨L, p, hL.congr rfl rfl rfl rfl rfl, hrest⟩, h.cur, h.status, h.parent, h.recving, h.asids,
    h.template⟩

theorem Parent.target {F : List Frame} {st : EnvStatus} {k : Kernel} (h : Parent F st k) {id : Word}
    (hid : Kern.envx id = 1) :
    k.target id true = some 1 := by
  have h0 : id ≠ 0#32 := by
    rintro rfl
    exact absurd hid (by decide)
  unfold Kernel.target
  rw [if_neg h0, if_pos rfl, h.cur, Option.bind_some, hid, if_neg fun hne => hne.2 h.parent]

namespace Kern

open Sys

section Cycle

variable {F : List Frame} {k : Kernel}

theorem Pooled.length (h : Pooled F k) (hF : F.Nodup) :
    F.length ≤ k.pmap.pageFreeList.length + 3 := by
  have hsub : F ⊆ k.pmap.pageFreeList ++ [0, 1, 2].filterMap k.oldStack := by
    intro f hf
    rcases (h f hf).2 with hfree | ⟨n, hn, hold⟩
    · exact List.mem_append_left _ hfree
    · refine List.mem_append_right _ (List.mem_filterMap.mpr ⟨n, ?_, hold⟩)
      simp only [List.mem_cons, List.not_mem_nil, or_false]
      omega
  have hle := (hF.subperm hsub).length_le
  have hthree := List.length_filterMap_le k.oldStack [0, 1, 2]
  rw [List.length_append] at hle
  have h3 : [0, 1, 2].length = 3 := rfl
  omega

/-- The child is ready. -/
theorem nesting_parent {L : Layout} {k₁ k' : Kernel} {p : Frame} {n : Nat} {i : Fin 512}
    (h : Alone F k) (hset : Settled k) (hnest : Nesting F L k 1 p n k₁)
    (hbut : SameButDir 1 k k₁)
    (hp : k'.pmap = k₁.pmap) (he : ∀ e, e ≠ 1 → k'.envs e = k₁.envs e)
    (hb : k'.basePgdir = k₁.basePgdir) (hc : k'.curenv = k₁.curenv)
    (hd : k'.curPgdir = k₁.curPgdir)
    (hbm : k'.asidBitmap = Function.update k₁.asidBitmap (asidWord i)
      (k₁.asidBitmap (asidWord i) ||| asidMask i))
    (hpg : (k'.envs 1).pgdir = (k₁.envs 1).pgdir)
    (hrec : (k'.envs 1).ipcRecving = (k₁.envs 1).ipcRecving)
    (hst : (k'.envs 1).status = .notRunnable) (hid : (k'.envs 1).parentId = (k.envs 0).id)
    (hi : (k'.envs 1).asid = i) : Parent F .notRunnable k' := by
  have henvs : k'.envs = (k₁.setEnv 1 fun _ => k'.envs 1).envs := by
    funext e
    by_cases h1 : e = 1
    · rw [h1, Kernel.setEnv_self]
    · rw [Kernel.setEnv_of_ne _ h1, he e h1]
  have hL : Spaces L k' :=
    (hnest.newborn.enliven (f := fun _ => k'.envs 1) hpg hrec).congr hp henvs hb hc hd
  have hother : ∀ e, e ≠ 1 → k'.envs e = k.envs e := fun e hne => by
    obtain ⟨s, d, rfl⟩ := hbut
    rw [he e hne, Kernel.setEnv_of_ne _ hne]
    rfl
  have hb₁ : k'.pmap.mem k'.basePgdir = k.pmap.mem k.basePgdir := by
    rw [hp, hb]
    exact hnest.base.2
  refine ⟨⟨L, p, hL, ?_, ?_, hnest.stack⟩, ?_, fun e => ?_, ?_, ?_, fun j hj => ?_, fun j hj => ?_⟩
  · rw [hpg, hnest.newborn.pgdir]
  · rw [hp]
    exact hnest.nest
  · obtain ⟨s, d, rfl⟩ := hbut
    rw [hc]
    exact h.cur
  · by_cases h1 : e = 1
    · rw [h1, hst]
      rfl
    · rw [hother e h1, h.status e, if_neg h1]
  · rw [hid, hother 0 (by decide)]
  · obtain ⟨s, d, rfl⟩ := hbut
    rw [hrec, Kernel.setEnv_self]
    refine hset.life.recving_zero ?_
    show (k.envs 1).status ≠ _
    rw [h.status 1]
    decide
  · obtain ⟨s, d, rfl⟩ := hbut
    rw [hbm, marked_set] at hj
    rw [hi]
    exact hj.imp (h.asids j) id
  · rw [hb₁]
    exact h.template j hj

/-- The program forks. -/
theorem eExofork_parent (h : Alone F k) (hset : Settled k)
    (hlen : 14 ≤ k.pmap.pageFreeList.length) :
    eExofork.wp (fun _ k' => Parent F .notRunnable k' ∧ k'.idCount = k.idCount + 1#32)
      (fun _ => False) k := by
  obtain ⟨L, hL, -⟩ := hset.spaces
  obtain ⟨rest, hl⟩ := h.slot
  have hdead : ¬k.Live 1 := fun hlive => hlive (h.status 1)
  unfold eExofork
  refine wp_seq (R := fun r k' => r = .ok 0 ∧ k' = k) ?_ (fun c k₁ h₁ => ?_) fun _ _ h₁ =>
    absurd h₁.1 (by simp)
  · exact wp_of (fun r k' hr => Prod.mk.inj (Except.ok.inj (hr.symm.trans (curenv_eq h.cur))))
      fun x hx => absurd (hx.symm.trans (curenv_eq h.cur)) (by simp)
  obtain ⟨hc, rfl⟩ := h₁
  obtain rfl := Except.ok.inj hc
  rw [wp_get_bind]
  unfold envAlloc
  rw [wp_bind, wp_get_bind, hl]
  simp only
  refine wp_seq (wp_and (envSetupVm_nest hL hdead h.pooled hset.filled hlen)
    (butDir_envSetupVm 1 k₁)) (fun _ k₂ h₂ => ?_) fun _ _ h₂ => absurd h₂.1.1 (by simp)
  obtain ⟨⟨-, L', p, hnest⟩, hbut⟩ := h₂
  unfold setEnv mkenvid
  rw [wp_modify_bind]
  simp only [wp_bind, wp_modify, wp_get, wp_pure]
  refine wp_conseq asidAlloc_spec fun r k₃ h₃ => ?_
  cases r with
  | error x =>
    obtain ⟨-, -, hall⟩ := h₃
    obtain ⟨s, d, rfl⟩ := hbut
    exact absurd (h.asids 1 (hall 1)) (by decide)
  | ok i =>
    obtain ⟨hi, rfl⟩ := h₃
    simp only
    refine ⟨nesting_parent (i := i) h hset hnest hbut rfl (fun e he => ?_) rfl rfl rfl rfl
      ?_ ?_ ?_ ?_ ?_, ?_⟩
    rotate_right
    · obtain ⟨s, d, rfl⟩ := hbut
      rfl
    · simp only [Kernel.setEnv, Function.update_of_ne he]
    all_goals simp only [Kernel.setEnv, Function.update_self]

/-- The child becomes runnable. -/
theorem eSetEnvStatus_parent (h : Parent F .notRunnable k) (hlife : LifeInv k) {id : Word}
    (hid : envx id = 1) :
    (eSetEnvStatus id 1#32).wp (fun _ k' => Parent F .runnable k') (fun _ => False) k := by
  have hst : (k.envs 1).status = .notRunnable := h.status 1
  obtain ⟨q, hq, -⟩ := Life.enqueueTail hlife hst h.recving
  unfold eSetEnvStatus
  rw [show statusOf 1#32 = some .runnable from rfl]
  simp only
  rw [wp_bind]
  refine wp_envid2env (h.target hid) ?_
  simp only
  rw [wp_get_bind, hst, wp_bind]
  refine wp_schedInsertTail hq ?_
  simp only
  refine wp_modify.mpr ?_
  obtain ⟨L, p, hL, hd, hrest⟩ := h.nest
  have hlive : k.Live 1 := Kernel.live_of_status hst (by simp)
  have hL' : Spaces L { k with envSchedList := q } := hL.congr rfl rfl rfl rfl rfl
  refine ⟨⟨L, p, hL'.setEnv 1 rfl ⟨fun _ => hlive, fun _ => by simp⟩ fun hr => absurd h.recving hr,
    ?_, hrest⟩, h.cur, fun e => ?_, ?_, ?_, fun i hi => ?_, h.template⟩
  · rw [Kernel.setEnv_self]
    exact hd
  · by_cases h1 : e = 1
    · rw [h1, Kernel.setEnv_self]
      rfl
    · rw [Kernel.setEnv_of_ne _ h1, if_neg h1]
      exact (h.status e).trans (by rw [if_neg h1])
  · rw [Kernel.setEnv_self, Kernel.setEnv_of_ne _ (by decide)]
    exact h.parent
  · rw [Kernel.setEnv_self]
    exact h.recving
  · rw [Kernel.setEnv_self]
    exact h.asids i hi

/-- The nest of a child can be given back. -/
theorem parent_clean {L : Layout} {p : Frame} {st : EnvStatus} (h : Parent F st k)
    (hL : Spaces L k) (hlive : k.Live 1) (hd : (k.envs 1).pgdir = some p)
    (hnest : Pmap.Nest F L p k.pmap) : Pmap.Clean L p k.pmap := by
  refine ⟨fun i t hown ht => ⟨hnest.visited i t hown ht, fun j => ?_⟩, fun i t hown hvis ht => ?_⟩
  · obtain ⟨hi, hj⟩ := Pmap.pdx_slot i j
    have hlib := hnest.library ((BitVec.ofNat 32 i.val <<< 22) ||| (BitVec.ofNat 32 j.val <<< 12))
      (by rw [hi]; exact hown)
    rw [Pmap.pteOf, hi, ht, hj] at hlib
    exact hlib
  · have hm := (hL.same 1 p i hlive hd).resolve_left hown
    rw [Pmap.tableOf, hm, h.template i hvis, entryFrame_zero] at ht
    exact absurd ht (by simp)

/-- What the child had is free again, except for its kernel stack. -/
theorem pooled_released {L : Layout} {p : Frame} {s : Pmap} (k' : Kernel) (hL : Spaces L k)
    (hlive : k.Live 1) (hd : (k.envs 1).pgdir = some p) (hdir : k.pmap.Dir L p)
    (hown : L.own p 0) (hnest : Pmap.Nest F L p k.pmap) (hstack : ¬L.own p kstackPdx)
    (hfree : k.pmap.freeSpace p = .ok s)
    (hmem : ∀ f, f ≠ p → (∀ i, L.own p i → k.pmap.tableOf p i ≠ some f) → s.mem f = k.pmap.mem f)
    (hrefs : ∀ f, (k.pmap.ppRef f).toNat =
      (s.ppRef f).toNat + (if p = f then 1 else 0) + Pmap.refsOf L k.pmap p f)
    (hp : k'.pmap = s) (hb : k'.basePgdir = k.basePgdir) :
    Pooled F k' ∧ k'.pmap.mem k'.basePgdir = k.pmap.mem k.basePgdir := by
  have hF := hL.inv.toForest
  have hR := Pmap.released_freeSpace hfree
  have hheld := hL.template.held
  have hbase : s.mem k.basePgdir = k.pmap.mem k.basePgdir :=
    hmem _ (fun e => hheld.not_own 0 (e ▸ hown)) fun i ho ht =>
      hheld.not_isTable hF (.inr ⟨(p, i), (Pmap.pdeView_of_own ho).trans ht⟩)
  have hgone : ∀ f ∈ F, 0 < (if p = f then 1 else 0) + Pmap.refsOf L k.pmap p f →
      f ∈ s.pageFreeList := by
    intro f hf hpos
    have h1 := hnest.once f hf
    have hr := hrefs f
    refine hR.freed f (fun h0 => ?_) (BitVec.eq_of_toNat_eq ?_)
    · rw [h0] at hr
      have hz : (0 : BitVec 16).toNat = 0 := rfl
      omega
    · have hz : (0 : BitVec 16).toNat = 0 := rfl
      omega
  subst hp
  rw [hb]
  refine ⟨fun f hf => ⟨(hR.le f).trans (hnest.once f hf), ?_⟩, hbase⟩
  rcases hnest.placed f hf with hfr | rfl | htab | ⟨va, ho | ⟨n, hn, rfl⟩, hpage⟩
  · exact .inl (hR.kept f hfr)
  · exact .inl (hgone f hf (by rw [if_pos rfl]; omega))
  · exact .inl (hgone f hf (Nat.add_pos_right _ (Pmap.refsOf_pos hF (.inl htab))))
  · exact .inl (hgone f hf (Nat.add_pos_right _ (Pmap.refsOf_pos hF (.inr ⟨va, ho, hpage⟩))))
  · -- the template has the stack of the child
    refine .inr ⟨n, hn, ?_⟩
    have hw := (hL.same 1 p kstackPdx hlive hd).resolve_left hstack
    have hpdx := pdx_kstackVa hn
    unfold Kernel.oldStack
    rw [hb, ← hpage]
    unfold Pmap.pteOf Pmap.tableOf
    rw [hpdx, hbase, hw]
    cases ht : entryFrame (k.pmap.mem k.basePgdir kstackPdx) with
    | none => rfl
    | some t =>
      have hsh := (hL.template.shared ht).1
      have ht' := hmem t (fun e => hdir.not_isTable hF (e ▸ .inl hsh)) fun i ho hti =>
        Pmap.not_shared_of_owned hF ho hti hsh
      simp only [ht']

/-- The child is destroyed. -/
theorem ecall_envDestroy_alone (h : Parent F .runnable k) (hlife : LifeInv k) {id : Word}
    (hid : envx id = 1) :
    (ecall (.envDestroy id)).wp (fun _ k' => Alone F k') (fun _ => False) k := by
  have hst : (k.envs 1).status = .runnable := h.status 1
  have hlive : k.Live 1 := Kernel.live_of_status hst (by simp)
  obtain ⟨L, p, hL, hd, hnest, hstack⟩ := h.nest
  obtain ⟨d', hd', hdir, huser⟩ := hL.dir 1 hlive
  obtain rfl := Option.some.inj (hd.symm.trans hd')
  obtain ⟨s, hfree, hmem, hrefs⟩ := Pmap.freeSpace_clean hL.inv hdir (hL.pinned hlive hd)
    (parent_clean h hL hlive hd hnest)
  obtain ⟨q, hq, -⟩ := Life.dequeue hlife hst
  unfold ecall eEnvDestroy envDestroy envFree dirOf
  simp only
  rw [wp_bind, wp_bind]
  refine wp_envid2env (h.target hid) ?_
  simp only
  rw [wp_bind, wp_get_bind, hd, wp_bind, wp_pure]
  simp only
  rw [wp_bind]
  refine wp_onPmap.mpr ⟨fun c hm => ?_, fun r s' hm => ?_⟩
  · rw [hfree] at hm
    exact absurd hm (by simp [Except.map])
  rw [hfree] at hm
  obtain ⟨rfl, rfl⟩ := Prod.mk.inj (Except.ok.inj hm)
  simp only
  rw [wp_get_bind]
  unfold asidFree setEnv
  rw [wp_modify_bind, wp_modify_bind, wp_modify_bind]
  refine wp_schedRemove (q := q) hq ?_
  simp only
  rw [wp_get_bind, wp_ite]
  refine ⟨fun hc => absurd (h.cur.symm.trans hc) (by decide), fun _ => wp_pure.mpr ?_⟩
  refine wp_pure.mpr ?_
  obtain ⟨hpool, hbase⟩ := pooled_released { k with pmap := s } hL hlive hd hdir
    (huser.own 0 (by decide)) hnest hstack hfree hmem hrefs rfl rfl
  refine ⟨h.cur, fun e => ?_, ⟨_, rfl⟩, fun i hi => ?_, fun i hi => ?_, hpool⟩
  · by_cases h1 : e = 1
    · simp only [h1, Kernel.setEnv, Function.update_self]
      rfl
    · simp only [Kernel.setEnv, Function.update_of_ne h1]
      exact (h.status e).trans (by rw [if_neg h1])
  · obtain ⟨hm, hne⟩ := (marked_clear _ _ _).mp hi
    exact (h.asids i hm).resolve_right hne
  · exact (congrFun hbase i).trans (h.template i hi)

end Cycle

end Kern

section Cycle

variable {F : List Frame} {k : Kernel}

theorem Alone.active (h : Alone F k) (a : Trapframe) : Alone F { k with active := a } :=
  ⟨h.cur, h.status, h.slot, h.asids, h.template, h.pooled⟩

theorem Settled.active (h : Settled k) (a : Trapframe) : Settled { k with active := a } := by
  obtain ⟨L, hL, hno⟩ := h.spaces
  exact ⟨h.life.congr (SameLife.of_envs rfl rfl rfl rfl),
    ⟨L, hL.congr rfl rfl rfl rfl rfl, hno⟩, h.filled⟩

/-- A call that nothing stops is an event. -/
theorem step_of_wp {P : Kernel → Prop} {c : Kern.Ecall} (hP : ∀ k a, P k → P { k with active := a })
    (hcur : k.curenv ≠ none)
    (h : ∀ a, (Kern.ecall c).wp (fun _ k' => P k') (fun _ => False) { k with active := a }) :
    ∃ k', k.Step (.trap zeroTf (.ecall c)) k' ∧ P k' := by
  obtain ⟨r, k', hr, hk'⟩ := Sys.wp_run (Kern.wp_handle_ecall zeroTf hP h)
  exact ⟨k', ⟨hcur, r, hr⟩, hk'⟩

/-- The program forks, starts the child and destroys it by the identifier that it got,
and is alone again. -/
theorem Alone.cycle (h : Alone F k) (hset : Settled k) (hF : F.Nodup) (hlen : 17 ≤ F.length) :
    ∃ e₁ e₂ e₃ k₁ k₂ k₃, k.Step e₁ k₁ ∧ k₁.Step e₂ k₂ ∧ k₂.Step e₃ k₃ ∧ Alone F k₃ ∧ Settled k₃ ∧
      k₁.idCount = k.idCount + 1#32 := by
  have hfree := h.pooled.length hF
  have hid := Kern.envx_nextId k 1
  obtain ⟨k₁, hs₁, h₁, hcount⟩ := step_of_wp (k := k) (c := .exofork)
    (P := fun k' => Parent F .notRunnable k' ∧ k'.idCount = k.idCount + 1#32)
    (fun _ a hk => ⟨hk.1.active a, hk.2⟩) (by rw [h.cur]; simp) fun a => by
      refine Sys.wp_seq (Kern.eExofork_parent (h.active a) (hset.active a) ?_)
        (fun _ _ hk => Sys.wp_pure.mpr hk) fun _ _ hk => hk
      show 14 ≤ k.pmap.pageFreeList.length
      omega
  have ho₁ : k.OrderlyStep (.trap zeroTf (.ecall .exofork)) k₁ := ⟨trivial, trivial, hs₁⟩
  have hset₁ := hset.orderly ho₁
  have hlive : (k₁.envs 1).status ≠ .free := by
    rw [h₁.status 1]
    decide
  obtain ⟨k₂, hs₂, h₂⟩ := step_of_wp (k := k₁) (c := .setEnvStatus (k.nextId 1) 1#32)
    (P := fun k' => Parent F .runnable k') (fun _ a hk => hk.active a) (by rw [h₁.cur]; simp)
    fun a => by
      exact Sys.wp_seq (Kern.eSetEnvStatus_parent (h₁.active a) (hset₁.active a).life hid)
        (fun _ _ hk => Sys.wp_pure.mpr hk) fun _ _ hk => hk
  have ho₂ : k₁.OrderlyStep (.trap zeroTf (.ecall (.setEnvStatus (k.nextId 1) 1#32))) k₂ := by
    refine ⟨fun st hst e he => ?_, trivial, hs₂⟩
    rw [h₁.target hid] at he
    obtain rfl := Option.some.inj he
    exact ⟨hlive, fun _ => h₁.recving⟩
  have hset₂ := hset₁.orderly ho₂
  obtain ⟨k₃, hs₃, h₃⟩ := step_of_wp (k := k₂) (c := .envDestroy (k.nextId 1))
    (P := fun k' => Alone F k') (fun _ a hk => hk.active a) (by rw [h₂.cur]; simp)
    fun a => Kern.ecall_envDestroy_alone (h₂.active a) (hset₂.active a).life hid
  have ho₃ : k₂.OrderlyStep (.trap zeroTf (.ecall (.envDestroy (k.nextId 1)))) k₃ := by
    refine ⟨fun e he => ?_, trivial, hs₃⟩
    rw [h₂.target hid] at he
    obtain rfl := Option.some.inj he
    exact h₂.status 1
  exact ⟨_, _, _, k₁, k₂, k₃, hs₁, hs₂, hs₃, h₃, hset₂.orderly ho₃, hcount⟩

end Cycle

/-! ## Identifiers that are not distinct -/

theorem tableKernel_started : Started tableKernel.envInit := by
  obtain ⟨hI, ht, -⟩ := tableKernel_template
  exact ⟨tableKernel, tableLayout, hI, ht, fun _ => rfl, fun _ => rfl, rfl, rfl, rfl⟩

theorem Register.next {h : List Event} {k k' : Kernel} {ids : List Word} {ev : Event}
    (hrun : Run Register.Start Register.Step h (k, ids)) (hs : k.Step ev k') :
    Run Register.Start Register.Step (ev :: h) (k', (k.assigned k').toList ++ ids) :=
  .next hrun ⟨hs, rfl⟩

/-- Every run writes a register, with one identifier an event at most. -/
theorem Register.of_run {h : List Event} {k : Kernel} (hrun : Run Started Kernel.Step h k) :
    ∃ ids, Run Register.Start Register.Step h (k, ids) ∧ ids.length ≤ h.length := by
  induction hrun with
  | start hs => exact ⟨[], .start ⟨hs, rfl⟩, le_rfl⟩
  | @next _ k k' _ _ hs ih =>
    obtain ⟨ids, hids, hlen⟩ := ih
    refine ⟨_, Register.next hids hs, ?_⟩
    have hone : (k.assigned k').toList.length ≤ 1 := by
      cases k.assigned k' with
      | none => exact Nat.zero_le _
      | some id => exact le_rfl
    rw [List.length_append, List.length_cons]
    omega

/-- The first program runs, and nothing else has happened. -/
theorem alone_first : ∃ h k F, Run Started Kernel.Step h k ∧ Settled k ∧ Alone F k ∧ F.Nodup ∧
    17 ≤ F.length := by
  have hend : ((Run.follow Kernel.orderlyNext (runProgram 0) tableKernel.envInit).map fun k =>
      (k.curenv, (k.envs 0).status, decide (17 ≤ k.pmap.pageFreeList.length),
        decide (k.envFreeList = (List.finRange 1023).map Fin.succ),
        decide (∀ i : Fin 512, k.asidBitmap (Kern.asidWord i) &&& Kern.asidMask i ≠ 0#32 → i = 0),
        decide (∀ i : Index, Pmap.freeSkips i = false → k.pmap.mem k.basePgdir i = 0#32))) =
      some (some 0, .runnable, true, true, true, true) := by
    decide +kernel
  obtain ⟨k, hk, heq⟩ := Option.map_eq_some_iff.mp hend
  simp only [Prod.mk.injEq, decide_eq_true_eq] at heq
  obtain ⟨hcur, hst, hlen, hslots, hasids, htemplate⟩ := heq
  have hset := Settled.of_run
    (Run.of_follow Kernel.orderlyStep_of_next (.start tableKernel_prepared) hk)
  have hrun := Run.of_follow Kernel.orderlyStep_of_next (.start tableKernel_started) hk
  obtain ⟨L, hL, -⟩ := hset.spaces
  have hmem : ∀ e : EnvIdx, e ≠ 0 → e ∈ k.envFreeList := fun e he => by
    rw [hslots]
    exact List.mem_map.mpr ⟨e.pred he, List.mem_finRange _, Fin.succ_pred e he⟩
  have hslot : ∃ rest, k.envFreeList = 1 :: rest := by
    rw [hslots, List.finRange_succ]
    exact ⟨_, rfl⟩
  refine ⟨_, k, k.pmap.pageFreeList, hrun.mono fun _ _ _ hs => hs.2.2, hset,
    ⟨hcur, fun e => ?_, hslot, hasids, fun i hi => htemplate i hi.1,
      fun f hf => ⟨?_, .inl hf⟩⟩, hL.inv.free_nodup, hlen⟩
  · by_cases h0 : e = 0
    · rw [h0, hst]
      rfl
    · rw [if_neg h0]
      exact (hset.life.mem_free e).mp (hmem e h0)
  · rw [hL.inv.ppRef_of_free hf]
    exact Nat.zero_le _

/-- Runs with as many identifiers as one likes. -/
theorem ids_unbounded (n : Nat) : ∃ h s, Run Register.Start Register.Step h s ∧ n ≤ s.2.length := by
  obtain ⟨h, k, F, hrun, hset, halone, hF, hlen⟩ := alone_first
  obtain ⟨ids, hrun, -⟩ := Register.of_run hrun
  have hall : ∀ n, ∃ h k ids, Run Register.Start Register.Step h (k, ids) ∧ Settled k ∧
      Alone F k ∧ n ≤ ids.length := by
    intro n
    induction n with
    | zero => exact ⟨h, k, ids, hrun, hset, halone, Nat.zero_le _⟩
    | succ n ih =>
      obtain ⟨h, k, ids, hrun, hset, halone, hn⟩ := ih
      obtain ⟨e₁, e₂, e₃, k₁, k₂, k₃, hs₁, hs₂, hs₃, h₃, hset₃, hcount⟩ :=
        halone.cycle hset hF hlen
      obtain ⟨rest, hslot⟩ := halone.slot
      have hone : (k.assigned k₁).toList = [(k₁.envs 1).id] := by
        unfold Kernel.assigned
        rw [if_neg, hslot]
        · rfl
        · rw [hcount]
          exact fun h => absurd (BitVec.add_right_eq_self.mp h) (by decide)
      refine ⟨_, k₃, _, Register.next (Register.next (Register.next hrun hs₁) hs₂) hs₃, hset₃, h₃, ?_⟩
      rw [List.length_append, List.length_append, List.length_append, hone, List.length_singleton]
      omega
  obtain ⟨h, k, ids, hrun, -, -, hn⟩ := hall n
  exact ⟨h, (k, ids), hrun, hn⟩

/-- In every run the identifiers that were assigned are distinct, positive and not
zero exactly as long as there are less than `2 ^ 20` of them. -/
theorem ids_distinct {h : List Event} {s : Register}
    (hrun : Run Register.Start Register.Step h s) : Distinct s.2 ↔ s.2.length < 2 ^ 20 :=
  (Register.numbered hrun).2.distinct_iff

/-- The identifiers of two programs. -/
theorem ids_distinct_two : ∃ h s, Run Register.Start Register.Step h s ∧ s.2.length = 2 ∧
    Distinct s.2 := by
  have hend : ((Run.follow Kernel.orderlyNext [.create ⟨[], 0#32⟩ 1#32, .create ⟨[], 0#32⟩ 1#32]
      tableKernel.envInit).map fun k => k.idCount) = some 2#32 := by
    decide +kernel
  obtain ⟨k, hk, hcount⟩ := Option.map_eq_some_iff.mp hend
  have hrun := Run.of_follow Kernel.orderlyStep_of_next (.start tableKernel_started) hk
  obtain ⟨ids, hids, hlen⟩ := Register.of_run (hrun.mono fun _ _ _ hs => hs.2.2)
  have htwo := congrArg BitVec.toNat (hcount.symm.trans (Register.numbered hids).1)
  simp only [BitVec.toNat_ofNat] at htwo
  have hle : ids.length ≤ 2 := hlen
  have hids2 : ids.length = 2 := by omega
  exact ⟨_, (k, ids), hids, hids2, (ids_distinct hids).mpr (by simp only [hids2]; decide)⟩

/-- A program that forks `2 ^ 20` times gets a negative identifier. -/
theorem ids_distinct_fails : ¬∀ (h : List Event) (s : Register),
    Run Register.Start Register.Step h s → Distinct s.2 := by
  intro hall
  obtain ⟨h, s, hrun, hn⟩ := ids_unbounded (2 ^ 20)
  have hlt := (Register.numbered hrun).2.distinct_iff.mp (hall h s hrun)
  omega

end RvMos
