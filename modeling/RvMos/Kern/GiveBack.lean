/-
What `env_free` gives back.

`env_free` drops one reference for every entry that it clears, and a frame whose
last reference goes is free again.  Where the tables of an environment have no
library entry and lie where the loop comes by, nothing of the environment is left:
the counter of every frame drops by the number of times that the environment maps
it.  A table with a library entry stays behind, with all frames in it.
-/
import RvMos.Kern.Reach

namespace RvMos

open Lib

namespace Pmap

/-! ## References that go -/

/-- Counters only drop, and a frame whose counter reaches zero is free. -/
structure Released (s s' : Pmap) : Prop where
  le : ∀ f, (s'.ppRef f).toNat ≤ (s.ppRef f).toNat
  freed : ∀ f, s.ppRef f ≠ 0 → s'.ppRef f = 0 → f ∈ s'.pageFreeList
  kept : ∀ f ∈ s.pageFreeList, f ∈ s'.pageFreeList

section Released

variable {s s' : Pmap} {d pp : Frame} {va : Word}

theorem Released.refl (s : Pmap) : Released s s :=
  ⟨fun _ => le_rfl, fun _ h h0 => absurd h0 h, fun _ h => h⟩

theorem Released.trans {s'' : Pmap} (h : Released s s') (h' : Released s' s'') :
    Released s s'' := by
  refine ⟨fun f => (h'.le f).trans (h.le f), fun f hne h0 => ?_, fun f hf => h'.kept f (h.kept f hf)⟩
  by_cases h1 : s'.ppRef f = 0
  · exact h'.kept f (h.freed f hne h1)
  · exact h'.freed f h1 h0

/-- The contents of memory are of no account. -/
theorem Released.store (h : Released s s') (p : PtePtr) (w : Word) : Released s (s'.store p w) :=
  ⟨h.le, h.freed, h.kept⟩

theorem released_dropRef (h : s.ppRef pp ≠ 0) : Released s (s.dropRef pp) := by
  have hpos : 0 < (s.ppRef pp).toNat :=
    Nat.pos_of_ne_zero fun h0 => h (BitVec.eq_of_toNat_eq h0)
  refine ⟨fun f => ?_, fun f hne h0 => ?_, fun f hf => ?_⟩
  · by_cases hf : pp = f
    · rw [← hf, dropRef_self, toNat_sub_one hpos]
      omega
    · rw [dropRef_of_ne hf]
  · by_cases hf : pp = f
    · subst hf
      rw [dropRef_self] at h0
      have h1 : s.ppRef pp = 1 := by
        have := congrArg BitVec.toNat h0
        rw [toNat_sub_one hpos] at this
        refine BitVec.eq_of_toNat_eq ?_
        have hz : (0 : BitVec 16).toNat = 0 := rfl
        have ho : (1 : BitVec 16).toNat = 1 := rfl
        omega
      show pp ∈ if s.ppRef pp = 1 then pp :: s.pageFreeList else s.pageFreeList
      rw [if_pos h1]
      exact List.mem_cons_self
    · rw [dropRef_of_ne hf] at h0
      exact absurd h0 hne
  · show f ∈ if s.ppRef pp = 1 then pp :: s.pageFreeList else s.pageFreeList
    split
    · exact List.mem_cons_of_mem _ hf
    · exact hf

theorem released_decref (h : s.pageDecref pp = .ok s') : Released s s' := by
  by_cases h0 : s.ppRef pp = 0
  · rw [pageDecref, if_pos h0] at h
    exact absurd h (by simp)
  · rw [pageDecref_eq h0] at h
    rw [← Except.ok.inj h]
    exact released_dropRef h0

theorem released_remove (h : s.pageRemove d va = .ok s') : Released s s' := by
  unfold pageRemove at h
  split at h
  · exact absurd h (by simp)
  · rw [← Except.ok.inj h]
    exact .refl s
  · rename_i pp p _
    cases hdec : s.pageDecref pp with
    | error c =>
      rw [hdec] at h
      exact absurd h (by simp [Except.map])
    | ok s₁ =>
      rw [hdec] at h
      rw [← Except.ok.inj h]
      exact (released_decref hdec).store _ _

theorem released_freeEntries {pt : Frame} {i : Index} (js : List Index) {flag flag' : Bool}
    (h : s.freeEntries d pt i js flag = .ok (flag', s')) : Released s s' := by
  induction js generalizing s flag with
  | nil =>
    rw [← (Prod.mk.inj (Except.ok.inj h)).2]
    exact .refl s
  | cons j js ih =>
    unfold freeEntries at h
    split at h
    · exact ih h
    · split at h
      · split at h
        · exact absurd h (by simp)
        · rename_i hrem
          exact (released_remove hrem).trans (ih h)
      · exact ih h

theorem released_freeTable {i : Index} (h : s.freeTable d i = .ok s') : Released s s' := by
  unfold freeTable at h
  split at h
  · rw [← Except.ok.inj h]
    exact .refl s
  · split at h
    · split at h
      · exact absurd h (by simp)
      · split at h
        · exact absurd h (by simp)
        · rename_i hr
          rw [← Except.ok.inj h]
          exact released_freeEntries _ hr
        · rename_i hr
          exact ((released_freeEntries _ hr).store _ _).trans (released_decref h)
    · rw [← Except.ok.inj h]
      exact .refl s

theorem released_freeTables (is : List Index) (h : s.freeTables d is = .ok s') :
    Released s s' := by
  induction is generalizing s with
  | nil =>
    rw [← Except.ok.inj h]
    exact .refl s
  | cons i is ih =>
    unfold freeTables at h
    split at h
    · exact absurd h (by simp)
    · rename_i hr
      exact (released_freeTable hr).trans (ih h)

theorem released_freeSpace (h : s.freeSpace d = .ok s') : Released s s' := by
  unfold freeSpace at h
  split at h
  · exact absurd h (by simp)
  · rename_i hr
    exact (released_freeTables _ hr).trans (released_decref h)

end Released

/-! ## A page that comes -/

/-- The frames when a page is inserted into the directory `d`: a frame may leave the
free list to be a table of the directory, and the page that was there goes back with
its last reference. -/
structure Entered (L : Layout) (s : Pmap) (d pp : Frame) (va : Word) (s' : Pmap) : Prop where
  page : (s'.ppRef pp).toNat ≤ (s.ppRef pp).toNat + 1
  le : ∀ f, f ≠ pp → (s'.ppRef f).toNat ≤ (s.ppRef f).toNat ∨
    (f ∈ s.pageFreeList ∧ (s'.ppRef f).toNat ≤ (s.ppRef f).toNat + 1)
  free : ∀ f ∈ s.pageFreeList,
    f ∈ s'.pageFreeList ∨ (L.own d (pdx va) ∧ s'.tableOf d (pdx va) = some f ∧ s'.ppRef f ≠ 0)
  back : ∀ f, entryFrame (s.pteOf d va) = some f → (s.ppRef f).toNat ≤ 1 → f ∈ s'.pageFreeList
  freed : ∀ f, f ≠ pp → s.ppRef f ≠ 0 → s'.ppRef f = 0 → f ∈ s'.pageFreeList
  taken : s.pageFreeList.length ≤ s'.pageFreeList.length + 1

section Entered

variable {L : Layout} {s s' : Pmap} {d pp : Frame} {va perm : Word}

theorem incRef_succ_le (s : Pmap) (pp : Frame) :
    ((s.incRef pp).ppRef pp).toNat ≤ (s.ppRef pp).toNat + 1 := by
  rw [incRef_self, BitVec.toNat_add]
  exact Nat.mod_le _ _

/-- The page takes the place of `old`, which goes. -/
theorem entered_replaced (hI : s.Inv L) {t old : Frame} (hm : s.mem d (pdx va) = mkPte t 0#32)
    (htab : s.IsTable L t) (hp : ¬L.plain t (ptx va)) (hne : old ≠ pp)
    (hf : entryFrame (s.mem t (ptx va)) = some old) :
    Entered L s d pp va ((((s.dropRef old).store ⟨t, ptx va⟩ 0#32).store ⟨t, ptx va⟩
      (mkPte pp perm)).incRef pp) := by
  have hold := ppRef_ne_zero hI htab hp hf
  have hR := released_dropRef hold
  have hother : ∀ f, f ≠ pp → (((((s.dropRef old).store ⟨t, ptx va⟩ 0#32).store ⟨t, ptx va⟩
      (mkPte pp perm)).incRef pp).ppRef f) = (s.dropRef old).ppRef f := fun f hfp =>
    incRef_of_ne (Ne.symm hfp)
  refine ⟨?_, fun f hfp => .inl ?_, fun f hff => .inl (hR.kept f hff), fun f hff h1 => ?_,
    fun f hfp hn h0 => ?_, ?_⟩
  · refine (incRef_succ_le _ _).trans ?_
    rw [store_ppRef, store_ppRef, dropRef_of_ne hne]
  · rw [hother f hfp]
    exact hR.le f
  · rw [pteOf_of_table hm, hf] at hff
    obtain rfl := Option.some.inj hff
    have hone : s.ppRef old = 1 := by
      have hpos : 0 < (s.ppRef old).toNat :=
        Nat.pos_of_ne_zero fun h0 => hold (BitVec.eq_of_toNat_eq h0)
      refine BitVec.eq_of_toNat_eq ?_
      have ho : (1 : BitVec 16).toNat = 1 := rfl
      omega
    show old ∈ if s.ppRef old = 1 then old :: s.pageFreeList else s.pageFreeList
    rw [if_pos hone]
    exact List.mem_cons_self
  · rw [hother f hfp] at h0
    exact hR.freed f hn h0
  · show _ ≤ (if s.ppRef old = 1 then old :: s.pageFreeList else s.pageFreeList).length + 1
    split
    · rw [List.length_cons]
      omega
    · omega

/-- The page comes into a clear entry. -/
theorem entered_clear {t : Frame} (hm : s.mem d (pdx va) = mkPte t 0#32)
    (h0 : s.mem t (ptx va) = 0#32) :
    Entered L s d pp va ((s.store ⟨t, ptx va⟩ (mkPte pp perm)).incRef pp) := by
  have hother : ∀ f, f ≠ pp →
      (((s.store ⟨t, ptx va⟩ (mkPte pp perm)).incRef pp).ppRef f) = s.ppRef f := fun f hfp =>
    incRef_of_ne (Ne.symm hfp)
  refine ⟨incRef_succ_le _ _, fun f hfp => .inl ?_, fun f hff => .inl hff, fun f hff => ?_,
    fun f hfp hn h0' => ?_, Nat.le_succ _⟩
  · rw [hother f hfp]
  · rw [pteOf_of_table hm, h0, entryFrame_zero] at hff
    exact absurd hff (by simp)
  · rw [hother f hfp] at h0'
    exact absurd h0' hn

/-- A frame becomes the table that the page needs. -/
theorem entered_newTable (hI : s.Inv L) (hd : s.Dir L d) {t : Frame} {s₁ : Pmap}
    (hown : L.own d (pdx va)) (h0 : s.mem d (pdx va) = 0#32) (ha : s.pageAlloc = .ok (t, s₁))
    (hpf : pp ∉ s.pageFreeList) :
    Entered L s d pp va ((((s₁.store ⟨d, pdx va⟩ (mkPte t 0#32)).incRef t).store ⟨t, ptx va⟩
      (mkPte pp perm)).incRef pp) := by
  obtain ⟨-, hl, href, -⟩ := hI.alloc ha
  have htf : t ∈ s.pageFreeList := by rw [hl]; exact List.mem_cons_self
  have ht0 := hI.ppRef_of_free htf
  have hdt : d ≠ t := fun e => hd.not_free hI (e ▸ htf)
  have hother : ∀ f, f ≠ pp → f ≠ t → (((((s₁.store ⟨d, pdx va⟩ (mkPte t 0#32)).incRef t).store
      ⟨t, ptx va⟩ (mkPte pp perm)).incRef pp).ppRef f) = s.ppRef f := fun f hfp hft => by
    rw [incRef_of_ne (Ne.symm hfp), store_ppRef, incRef_of_ne (Ne.symm hft), store_ppRef, href]
  have htp : t ≠ pp := fun e => hpf (e ▸ htf)
  have htable : (((((s₁.store ⟨d, pdx va⟩ (mkPte t 0#32)).incRef t).store
      ⟨t, ptx va⟩ (mkPte pp perm)).incRef pp).ppRef t).toNat = 1 := by
    rw [incRef_of_ne (Ne.symm htp), store_ppRef, incRef_self, store_ppRef, href,
      toNat_add_one (by omega)]
    omega
  refine ⟨?_, fun f hfp => ?_, fun f hff => ?_, fun f hff => ?_, fun f hfp hn h0' => ?_, ?_⟩
  · refine (incRef_succ_le _ _).trans ?_
    rw [store_ppRef, incRef_of_ne htp, store_ppRef, href]
  · by_cases hft : f = t
    · rw [hft, htable, ht0]
      exact .inr ⟨htf, le_rfl⟩
    · rw [hother f hfp hft]
      exact .inl le_rfl
  · rw [hl] at hff
    rcases List.mem_cons.mp hff with rfl | hff
    · refine .inr ⟨hown, ?_, fun h0' => ?_⟩
      · rw [tableOf, incRef_mem, store_mem_of_ne _ fun e => hdt (congrArg Prod.fst e),
          incRef_mem, store_mem_self, entryFrame_mkPte f flagOnly_zero]
      · rw [h0'] at htable
        exact absurd htable (by decide)
    · exact .inl hff
  · rw [pteOf_of_clear h0, entryFrame_zero] at hff
    exact absurd hff (by simp)
  · by_cases hft : f = t
    · rw [hft] at hn
      exact absurd (BitVec.eq_of_toNat_eq ht0) hn
    · rw [hother f hfp hft] at h0'
      exact absurd h0' hn
  · show _ ≤ s₁.pageFreeList.length + 1
    rw [hl, List.length_cons]

/-- An insertion of a page that the entry does not hold yet. -/
theorem entered_of_insert (hI : s.Inv L) (hd : s.Dir L d) (hc : s.Counted L d va)
    (hpp : entryFrame (s.pteOf d va) ≠ some pp) (hpf : pp ∉ s.pageFreeList)
    (hins : s.pageInsert d pp va perm = .ok (.ok (), s')) : Entered L s d pp va s' := by
  rcases pageInsert_cases hI hd pp perm hc with
    ⟨t, hm, -, -, hf, -⟩ | ⟨t, old, hm, htab, hp, hne, hf, hr⟩ | ⟨t, hm, -, -, h0, hr⟩ |
    ⟨t, s₁, hown, h0, ha, hr⟩ | ⟨-, -, -, hr⟩
  · rw [pteOf_of_table hm] at hpp
    exact absurd hf hpp
  · obtain rfl := (Prod.mk.inj (Except.ok.inj (hr.symm.trans hins))).2
    exact entered_replaced hI hm htab hp hne hf
  · obtain rfl := (Prod.mk.inj (Except.ok.inj (hr.symm.trans hins))).2
    exact entered_clear hm h0
  · obtain rfl := (Prod.mk.inj (Except.ok.inj (hr.symm.trans hins))).2
    exact entered_newTable hI hd hown h0 ha hpf
  · exact absurd (Prod.mk.inj (Except.ok.inj (hr.symm.trans hins))).1 (by simp)

end Entered

/-! ## A directory that goes without a trace -/

/-- The tables of the directory are where `env_free` comes by and have no library
entry, and what it meets in the tables of the kernel are library entries only. -/
structure Clean (L : Layout) (d : Frame) (s : Pmap) : Prop where
  own : ∀ i t, L.own d i → s.tableOf d i = some t →
    Visited i ∧ ∀ j, s.mem t j &&& pteLibrary = 0#32
  shared : ∀ i t, ¬L.own d i → Visited i → s.tableOf d i = some t →
    ∀ j, s.mem t j &&& pteLibrary ≠ 0#32 ∨ valid (s.mem t j) = false

section Clean

variable {L : Layout} {s s' : Pmap} {d t : Frame} {i : Index}

/-- The inner loop passes over library entries and empty ones. -/
theorem freeEntries_idle (js : List Index) (flag : Bool)
    (h : ∀ j ∈ js, s.mem t j &&& pteLibrary ≠ 0#32 ∨ valid (s.mem t j) = false) :
    s.freeEntries d t i js flag =
      .ok (flag || js.any fun j => s.mem t j &&& pteLibrary ≠ 0#32, s) := by
  induction js generalizing flag with
  | nil =>
    rw [List.any_nil, Bool.or_false]
    rfl
  | cons j js ih =>
    have hjs := fun j' hj' => h j' (List.mem_cons_of_mem _ hj')
    unfold freeEntries
    by_cases hlib : s.mem t j &&& pteLibrary ≠ 0#32
    · rw [if_pos hlib, ih true hjs, List.any_cons, decide_eq_true hlib, Bool.true_or,
        Bool.or_true]
    · have hv := (h j List.mem_cons_self).resolve_left hlib
      rw [if_neg hlib, if_neg (by rw [hv]; simp), ih flag hjs, List.any_cons,
        decide_eq_false hlib, Bool.false_or]

/-- The inner loop on a table of the directory changes that table only, and leaves no
mark of a library entry. -/
theorem freeEntries_own (js : List Index) (hI : s.Inv L) (hd : s.Dir L d) (hown : L.own d i)
    (ht : s.tableOf d i = some t) (hlib : ∀ j, s.mem t j &&& pteLibrary = 0#32)
    {flag' : Bool} (h : s.freeEntries d t i js false = .ok (flag', s')) :
    flag' = false ∧ ∀ f, f ≠ t → s'.mem f = s.mem f := by
  induction js generalizing s with
  | nil =>
    obtain ⟨rfl, rfl⟩ := Prod.mk.inj (Except.ok.inj h)
    exact ⟨rfl, fun _ _ => rfl⟩
  | cons j js ih =>
    unfold freeEntries at h
    rw [if_neg (not_not.mpr (hlib j))] at h
    by_cases hv : valid (s.mem t j) = true
    · rw [if_pos hv] at h
      obtain ⟨s₁, hrem, hstr, ht₁, hself, hother⟩ := pageRemove_entry hI hd ht
        (fun hp => not_shared_of_owned hI.toForest hown ht (L.plain_shared t j hp)) (hlib j)
      rw [hrem] at h
      have hlib₁ : ∀ j', s₁.mem t j' &&& pteLibrary = 0#32 := by
        intro j'
        by_cases hjj : j' = j
        · rw [hjj, hself]
          decide
        · rw [hother t j' fun _ => hjj]
          exact hlib j'
      obtain ⟨hflag, hmem⟩ := ih hstr.inv hstr.dir ht₁ hlib₁ h
      refine ⟨hflag, fun f hf => (hmem f hf).trans ?_⟩
      funext j'
      exact hother f j' fun heq => absurd heq hf
    · rw [if_neg hv] at h
      exact ih hI hd ht hlib h

/-- One round of the outer loop on a clean directory: an owned table goes, and nothing
else changes. -/
theorem freeTable_clean (hI : s.Inv L) (hd : s.Dir L d) (hpin : Pinned L d s) (hcl : Clean L d s)
    (hi : i.val < 1023) :
    ∃ s', s.freeTable d i = .ok s' ∧ Stripped L d s s' ∧
      (∀ f, f ≠ d → (L.own d i → s.tableOf d i ≠ some f) → s'.mem f = s.mem f) ∧
      ∀ i', L.own d i' → s'.mem d i' = if i' = i then 0#32 else s.mem d i' := by
  obtain ⟨s', hr, hstr⟩ := freeTable_spec hI hd hpin hi
  refine ⟨s', hr, hstr, ?_⟩
  -- where nothing happens
  have hsame : s' = s → (L.own d i → s.mem d i = 0#32) →
      (∀ f, f ≠ d → (L.own d i → s.tableOf d i ≠ some f) → s'.mem f = s.mem f) ∧
      ∀ i', L.own d i' → s'.mem d i' = if i' = i then 0#32 else s.mem d i' := by
    rintro rfl h0
    refine ⟨fun _ _ _ => rfl, fun i' hown => ?_⟩
    split
    · rename_i heq
      rw [heq]
      exact h0 (heq ▸ hown)
    · rfl
  cases ht : s.tableOf d i with
  | none =>
    have h0 := (hd.none hI.toForest ht).2
    rw [← ht]
    refine hsame ?_ fun _ => h0
    unfold freeTable at hr
    rw [h0, if_neg (by rw [valid_zero]; simp : ¬valid 0#32 = true)] at hr
    split at hr
    · exact (Except.ok.inj hr).symm
    · exact (Except.ok.inj hr).symm
  | some t =>
    rw [← ht]
    obtain ⟨htab, hm⟩ := hd.isTable hI.toForest ht
    by_cases hown : L.own d i
    · obtain ⟨hvis, hlib⟩ := hcl.own i t hown ht
      unfold freeTable at hr
      rw [if_neg (by rw [hvis.1]; simp), hm, if_pos (valid_mkPte t 0#32),
        addr2page_mkPte t flagOnly_zero] at hr
      simp only at hr
      generalize List.finRange 1024 = js at hr
      split at hr
      · exact absurd hr (by simp)
      · rename_i s₁ he
        exact absurd (freeEntries_own js hI hd hown ht hlib he).1 (by simp)
      · rename_i s₁ he
        obtain ⟨-, hmem⟩ := freeEntries_own js hI hd hown ht hlib he
        have hdt : d ≠ t := fun e => hd.not_isTable hI.toForest (e ▸ htab)
        have hs' : s'.mem = (s₁.store ⟨d, i⟩ 0#32).mem := by
          by_cases h0 : (s₁.store ⟨d, i⟩ 0#32).ppRef t = 0
          · rw [pageDecref, if_pos h0] at hr
            exact absurd hr (by simp)
          · rw [pageDecref_eq h0] at hr
            rw [← Except.ok.inj hr]
            rfl
        refine ⟨fun f hfd hft => ?_, fun i' _ => ?_⟩
        · funext j
          rw [hs', store_mem_of_ne _ fun e => hfd (congrArg Prod.fst e),
            hmem f fun e => hft hown (e ▸ ht)]
        · rw [hs']
          split
          · rename_i heq
            rw [heq, store_mem_self]
          · rename_i hne
            rw [store_mem_of_ne _ fun e => hne (congrArg Prod.snd e), hmem d hdt]
    · refine hsame ?_ fun h => absurd h hown
      unfold freeTable at hr
      split at hr
      · exact (Except.ok.inj hr).symm
      · rename_i hskip
        have hvis : Visited i := ⟨Bool.eq_false_iff.mpr hskip, hi⟩
        rw [hm, if_pos (valid_mkPte t 0#32), addr2page_mkPte t flagOnly_zero] at hr
        simp only at hr
        have he := freeEntries_idle (d := d) (i := i) (List.finRange 1024) false
          fun j _ => hcl.shared i t hown hvis ht j
        obtain ⟨-, ⟨j, hj⟩, -⟩ := hpin i t hvis hown hm
        have hany : ((List.finRange 1024).any fun j => s.mem t j &&& pteLibrary ≠ 0#32) = true :=
          List.any_eq_true.mpr ⟨j, List.mem_finRange j, decide_eq_true hj⟩
        rw [hany, Bool.or_true] at he
        rw [he] at hr
        exact (Except.ok.inj hr).symm

/-- The other tables of a clean directory stay clean. -/
theorem Clean.strip (h : Clean L d s) (hF : s.Forest L) (hd : s.Dir L d)
    (hstr : Stripped L d s s')
    (hmem : ∀ f, f ≠ d → (L.own d i → s.tableOf d i ≠ some f) → s'.mem f = s.mem f)
    (hdir : ∀ i', L.own d i' → s'.mem d i' = if i' = i then 0#32 else s.mem d i') :
    Clean L d s' := by
  constructor
  · intro i' t hown ht
    have hne : i' ≠ i := by
      rintro rfl
      rw [tableOf, hdir i' hown, if_pos rfl, entryFrame_zero] at ht
      exact absurd ht (by simp)
    have ht₀ : s.tableOf d i' = some t := by
      rw [tableOf, hdir i' hown, if_neg hne] at ht
      exact ht
    obtain ⟨hvis, hlib⟩ := h.own i' t hown ht₀
    refine ⟨hvis, fun j => ?_⟩
    rw [hmem t (fun e => hd.not_isTable hF (e ▸ (hd.isTable hF ht₀).1)) fun hown' ht' =>
      hne (tableOf_inj hF hown hown' ht₀ ht').2]
    exact hlib j
  · intro i' t hown hvis ht j
    have ht₀ : s.tableOf d i' = some t := by
      rw [tableOf, (hstr.word i').resolve_left hown] at ht
      exact ht
    obtain ⟨htab, hm⟩ := hd.isTable hF ht₀
    rw [hmem t (fun e => hd.not_isTable hF (e ▸ htab)) fun hown' ht' => ?_]
    · exact h.shared i' t hown hvis ht₀ j
    · -- the table of an owned entry is not shared
      obtain ⟨u, hu, hmu⟩ := (hd.entries i').resolve_left hown
      have htu : t = u := by
        rw [tableOf, hmu, entryFrame_mkPte u flagOnly_zero] at ht₀
        exact (Option.some.inj ht₀).symm
      exact not_shared_of_owned hF hown' ht' (htu ▸ hu)

/-- The outer loop on a clean directory. -/
theorem freeTables_clean (is : List Index) (his : ∀ i ∈ is, i.val < 1023) (hI : s.Inv L)
    (hd : s.Dir L d) (hpin : Pinned L d s) (hcl : Clean L d s) :
    ∃ s', s.freeTables d is = .ok s' ∧ Stripped L d s s' ∧
      (∀ f, f ≠ d → (∀ i, L.own d i → s.tableOf d i ≠ some f) → s'.mem f = s.mem f) ∧
      ∀ i', L.own d i' → s'.mem d i' = if i' ∈ is then 0#32 else s.mem d i' := by
  induction is generalizing s with
  | nil => exact ⟨s, rfl, .refl hI hd, fun _ _ _ => rfl, fun i' _ => by simp⟩
  | cons i is ih =>
    obtain ⟨s₁, h₁, hstr₁, hmem₁, hdir₁⟩ := freeTable_clean hI hd hpin hcl (his i List.mem_cons_self)
    obtain ⟨s₂, h₂, hstr₂, hmem₂, hdir₂⟩ := ih (fun j hj => his j (List.mem_cons_of_mem _ hj))
      hstr₁.inv hstr₁.dir (hpin.strip hstr₁) (hcl.strip hI.toForest hd hstr₁ hmem₁ hdir₁)
    refine ⟨s₂, ?_, hstr₁.trans hstr₂, fun f hfd hft => ?_, fun i' hown => ?_⟩
    · unfold freeTables
      rw [h₁]
      exact h₂
    · rw [hmem₂ f hfd fun i' hown ht => ?_, hmem₁ f hfd fun hown => hft i hown]
      rw [tableOf, hdir₁ i' hown] at ht
      split at ht
      · rw [entryFrame_zero] at ht
        exact absurd ht (by simp)
      · exact hft i' hown ht
    · rw [hdir₂ i' hown, hdir₁ i' hown]
      by_cases hi : i' = i
      · simp [hi]
      · simp [hi]

open Classical in
/-- The references that the entries of a directory and of its tables are. -/
noncomputable def refsOf (L : Layout) (s : Pmap) (d f : Frame) : Nat :=
  tally (fun x => if x.1 = d then s.pdeView L x else none) f +
    tally (fun x => if Left L s d x.1 then s.pteView L x else none) f

/-- An owned table of a directory and a page in one are among its references. -/
theorem refsOf_pos (hF : s.Forest L) {f : Frame}
    (h : (∃ i, L.own d i ∧ s.tableOf d i = some f) ∨
      ∃ va, L.own d (pdx va) ∧ entryFrame (s.pteOf d va) = some f) : 0 < refsOf L s d f := by
  classical
  rcases h with ⟨i, hown, ht⟩ | ⟨va, hown, hf⟩
  · refine Nat.add_pos_left (tally_pos_of_holds (x := (d, i)) ?_) _
    show (if d = d then s.pdeView L (d, i) else none) = some f
    rw [if_pos rfl, pdeView_of_own hown]
    exact ht
  · cases ht : s.tableOf d (pdx va) with
    | none =>
      rw [pteOf, ht, entryFrame_zero] at hf
      exact absurd hf (by simp)
    | some t =>
      rw [pteOf, ht] at hf
      have htab : s.IsTable L t := .inr ⟨(d, pdx va), (pdeView_of_own hown).trans ht⟩
      have hplain : ¬L.plain t (ptx va) := fun hp =>
        not_shared_of_owned hF hown ht (L.plain_shared t _ hp)
      have hleft : Left L s d t := ⟨pdx va, hown, ht⟩
      refine Nat.add_pos_right _ (tally_pos_of_holds (x := (t, ptx va)) ?_)
      simp only [if_pos hleft, pteView_of_table htab hplain]
      exact hf

/-- When all tables of a directory are gone, its references are gone. -/
theorem refs_of_stripped (hF : s.Forest L) (hd : s.Dir L d)
    (hmem : ∀ f, f ≠ d → (∀ i, L.own d i → s.tableOf d i ≠ some f) → s'.mem f = s.mem f)
    (hdir : ∀ i, L.own d i → s'.mem d i = 0#32) (f : Frame) :
    s.refs L f = refsOf L s d f + s'.refs L f := by
  classical
  have hpde : s'.pdeView L = fun x => if x.1 = d then none else s.pdeView L x := by
    funext ⟨d', i⟩
    by_cases hown : L.own d' i
    · rw [pdeView_of_own hown]
      by_cases hdd : d' = d
      · subst hdd
        rw [if_pos rfl, hdir i hown, entryFrame_zero]
      · rw [if_neg hdd, pdeView_of_own hown, hmem d' hdd fun i' hown' ht =>
          hF.table_not_own (.inr ⟨(d, i'), (pdeView_of_own hown').trans ht⟩) i hown]
    · have hnone : ∀ s : Pmap, s.pdeView L (d', i) = none := fun s => by
        unfold pdeView
        rw [if_neg hown]
      rw [hnone s']
      split
      · rfl
      · exact (hnone s).symm
  have htab : ∀ u, s'.IsTable L u ↔ s.IsTable L u ∧ ¬Left L s d u := by
    intro u
    unfold IsTable
    simp only [hpde]
    constructor
    · rintro (hsh | ⟨⟨d', i⟩, hx⟩)
      · refine ⟨.inl hsh, ?_⟩
        rintro ⟨i, hown, ht⟩
        exact not_shared_of_owned hF hown ht hsh
      · split at hx
        · exact absurd hx (by simp)
        · rename_i hne
          refine ⟨.inr ⟨_, hx⟩, ?_⟩
          rintro ⟨i', hown', ht'⟩
          exact hne (congrArg Prod.fst (hF.pde_inj (d', i) (d, i') u hx
            ((pdeView_of_own hown').trans ht')))
    · rintro ⟨hsh | ⟨⟨d', i⟩, hx⟩, hnl⟩
      · exact .inl hsh
      · refine .inr ⟨(d', i), ?_⟩
        rw [if_neg]
        · exact hx
        · rintro rfl
          have hown := own_of_pdeView hx
          exact hnl ⟨i, hown, (pdeView_of_own hown).symm.trans hx⟩
  have hpte : s'.pteView L = fun x => if Left L s d x.1 then none else s.pteView L x := by
    funext ⟨u, j⟩
    unfold pteView
    simp only [htab]
    by_cases hl : Left L s d u
    · rw [if_pos hl, if_neg fun h => h.1.2 hl]
    · rw [if_neg hl]
      by_cases ht : s.IsTable L u ∧ ¬L.plain u j
      · rw [if_pos ⟨⟨ht.1, hl⟩, ht.2⟩, if_pos ht, hmem u
          (fun e => hd.not_isTable hF (e ▸ ht.1)) fun i hown htu => hl ⟨i, hown, htu⟩]
      · rw [if_neg ht, if_neg fun h => ht ⟨h.1.1, h.2⟩]
  have h1 := tally_split (fun x : Frame × Index => x.1 = d) (s.pdeView L) f
  have h2 := tally_split (fun x : Frame × Index => Left L s d x.1) (s.pteView L) f
  rw [refs, refs, refsOf, hpde, hpte, h1, h2]
  omega

/-- `env_free` on a clean directory: every counter drops by the number of references
of the directory, and no other memory changes. -/
theorem freeSpace_clean (hI : s.Inv L) (hd : s.Dir L d) (hpin : Pinned L d s)
    (hcl : Clean L d s) :
    ∃ s', s.freeSpace d = .ok s' ∧
      (∀ f, f ≠ d → (∀ i, L.own d i → s.tableOf d i ≠ some f) → s'.mem f = s.mem f) ∧
      ∀ f, (s.ppRef f).toNat = (s'.ppRef f).toNat + (if d = f then 1 else 0) + refsOf L s d f := by
  have his : ∀ i : Index, i ∈ (List.finRange 1024).take 1023 ↔ i.val < 1023 := by
    intro i
    rw [List.mem_take_iff_getElem]
    constructor
    · rintro ⟨n, hn, rfl⟩
      rw [List.length_finRange] at hn
      rw [List.getElem_finRange]
      simp only [Fin.val_cast]
      omega
    · intro hi
      refine ⟨i.val, ?_, ?_⟩
      · rw [List.length_finRange]
        omega
      · rw [List.getElem_finRange]
        rfl
  have hrun : ∃ s₁, s.freeTables d ((List.finRange 1024).take 1023) = .ok s₁ ∧
      Stripped L d s s₁ ∧
      (∀ f, f ≠ d → (∀ i, L.own d i → s.tableOf d i ≠ some f) → s₁.mem f = s.mem f) ∧
      ∀ i, L.own d i → s₁.mem d i = 0#32 := by
    generalize (List.finRange 1024).take 1023 = is at his ⊢
    obtain ⟨s₁, hr, hstr, hmem, hdir⟩ := freeTables_clean is (fun i hi => (his i).mp hi) hI hd hpin hcl
    refine ⟨s₁, hr, hstr, hmem, fun i hown => ?_⟩
    rw [hdir i hown]
    split
    · rfl
    · rename_i hnot
      -- the last entry has no table
      cases ht : s.tableOf d i with
      | none => exact (hd.none hI.toForest ht).2
      | some t => exact absurd ((his i).mpr (hcl.own i t hown ht).1.2) hnot
  obtain ⟨s₁, hr, hstr, hmem, hdir⟩ := hrun
  obtain ⟨hdec, hI'⟩ := dropDir_inv hstr.inv hstr.dir
  refine ⟨s₁.dropRef d, ?_, hmem, fun f => ?_⟩
  · unfold freeSpace
    rw [hr]
    exact hdec
  · have hrefs := refs_of_stripped hI.toForest hd hmem hdir f
    have hdrop := dropDir_refs hstr.inv.toForest hstr.dir f
    have hc := hI.count f
    have hc' := hI'.count f
    have hsame : (s₁.dropRef d).refs (dropDir L s₁ d hstr.inv.toForest hstr.dir) f =
        s₁.refs (dropDir L s₁ d hstr.inv.toForest hstr.dir) f := rfl
    omega

end Clean

end Pmap

end RvMos
