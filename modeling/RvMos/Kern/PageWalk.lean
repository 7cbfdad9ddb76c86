/-
What `page_remove` and `page_insert` do to a well-kept forest.

`pageRemove_cases` and `pageInsert_cases` list the closed forms of the two
functions: which words are stored, which counters move and what the free list
becomes.  They are proved once by following the code; everything later argues
from the listed forms and never unfolds the functions again.
-/
import RvMos.Kern.PageTables

namespace RvMos
namespace Pmap

open Lib

/-- A page directory: a frame that is held, is no table, and each of whose
entries is owned or leads to a shared table. -/
structure Dir (L : Layout) (s : Pmap) (d : Frame) : Prop where
  held : 0 < L.base d
  not_shared : ¬L.shared d
  entries : ∀ i, L.own d i ∨ ∃ t, L.shared t ∧ s.mem d i = mkPte t 0#32

/-- The page table behind entry `i` of directory `d`. -/
def tableOf (s : Pmap) (d : Frame) (i : Index) : Option Frame := entryFrame (s.mem d i)

/-- The entry that governs `va` in directory `d`; zero where there is no table. -/
def pteOf (s : Pmap) (d : Frame) (va : Word) : Word :=
  match s.tableOf d (pdx va) with
  | none => 0#32
  | some t => s.mem t (ptx va)

section Walk

variable {L : Layout} {s : Pmap} {d : Frame}

theorem valid_zero : valid 0#32 = false := by decide

theorem Dir.not_isTable (hF : s.Forest L) (hd : s.Dir L d) : ¬s.IsTable L d := by
  rintro (hsh | ⟨x, hx⟩)
  · exact hd.not_shared hsh
  · have hb := hF.table_base x d hx
    have hpos := hd.held
    omega

theorem Dir.ne_of_base (hd : s.Dir L d) {f : Frame} (hf : L.base f = 0) : d ≠ f := by
  rintro rfl
  have hpos := hd.held
  omega

/-- A directory entry is clear and owned, or leads to a table. -/
theorem Dir.entry (hF : s.Forest L) (hd : s.Dir L d) (i : Index) :
    (L.own d i ∧ s.mem d i = 0#32) ∨
      ∃ t, s.mem d i = mkPte t 0#32 ∧ s.IsTable L t := by
  rcases hd.entries i with hown | ⟨t, hsh, hm⟩
  · rcases hF.pde d i hown with h0 | ⟨t, hm⟩
    · exact Or.inl ⟨hown, h0⟩
    · refine Or.inr ⟨t, hm, Or.inr ⟨(d, i), ?_⟩⟩
      rw [pdeView_of_own hown, hm, entryFrame_mkPte t flagOnly_zero]
  · exact Or.inr ⟨t, hm, Or.inl hsh⟩

theorem Dir.isTable (hF : s.Forest L) (hd : s.Dir L d) {i : Index} {t : Frame}
    (ht : s.tableOf d i = some t) : s.IsTable L t ∧ s.mem d i = mkPte t 0#32 := by
  unfold tableOf at ht
  rcases hd.entry hF i with ⟨-, h0⟩ | ⟨u, hm, hu⟩
  · rw [h0, entryFrame_zero] at ht
    exact absurd ht (by simp)
  · rw [hm, entryFrame_mkPte u flagOnly_zero] at ht
    obtain rfl := Option.some.inj ht
    exact ⟨hu, hm⟩

theorem Dir.none (hF : s.Forest L) (hd : s.Dir L d) {i : Index}
    (ht : s.tableOf d i = none) : L.own d i ∧ s.mem d i = 0#32 := by
  rcases hd.entry hF i with h | ⟨t, hm, -⟩
  · exact h
  · rw [tableOf, hm, entryFrame_mkPte t flagOnly_zero] at ht
    exact absurd ht (by simp)

/-- Tables hang off one owned entry only. -/
theorem tableOf_inj (hF : s.Forest L) {d d' : Frame} {i i' : Index} {t : Frame}
    (hown : L.own d i) (hown' : L.own d' i') (ht : s.tableOf d i = some t)
    (ht' : s.tableOf d' i' = some t) : d = d' ∧ i = i' := by
  have hx := hF.pde_inj (d, i) (d', i') t ((pdeView_of_own hown).trans ht)
    ((pdeView_of_own hown').trans ht')
  exact Prod.mk.injEq .. ▸ hx

theorem addr2page_mkPte {perm : Word} (pp : Frame) (h : FlagOnly perm) :
    addr2page (paddr (pteAddr (mkPte pp perm))) = some pp := by
  rw [pteAddr_mkPte pp h, paddr_page2ptx, addr2page_page2addr]

theorem pgdirWalk_table {va : Word} {t : Frame} (create : Bool)
    (hm : s.mem d (pdx va) = mkPte t 0#32) :
    s.pgdirWalk d va create = .ok (.ok (some ⟨t, ptx va⟩), s) := by
  have hv : valid (s.deref ⟨d, pdx va⟩) = true := by
    show valid (s.mem d (pdx va)) = true
    rw [hm]
    exact valid_mkPte t 0#32
  have hte : s.tableEntry ⟨d, pdx va⟩ va = .ok ⟨t, ptx va⟩ := by
    unfold tableEntry
    show (match addr2page (paddr (pteAddr (s.mem d (pdx va)))) with
      | Option.none => Except.error Halt.wild
      | some t => Except.ok (⟨t, ptx va⟩ : PtePtr)) = _
    rw [hm, addr2page_mkPte t flagOnly_zero]
  unfold pgdirWalk
  rw [if_pos hv, hte]
  rfl

theorem pgdirWalk_clear {va : Word} (hm : s.mem d (pdx va) = 0#32) :
    s.pgdirWalk d va false = .ok (.ok Option.none, s) := by
  have hv : ¬valid (s.deref ⟨d, pdx va⟩) = true := by
    show ¬valid (s.mem d (pdx va)) = true
    rw [hm, valid_zero]
    simp
  unfold pgdirWalk
  rw [if_neg hv]
  rfl

/-- The creating walk where the entry is clear. -/
theorem pgdirWalk_create {va : Word} (hm : s.mem d (pdx va) = 0#32) :
    s.pgdirWalk d va true =
      match s.pageAlloc with
      | .error e => .ok (.error e, s)
      | .ok (t, s₁) =>
        .ok (.ok (some ⟨t, ptx va⟩), (s₁.store ⟨d, pdx va⟩ (mkPte t 0#32)).incRef t) := by
  have hv : ¬valid (s.deref ⟨d, pdx va⟩) = true := by
    show ¬valid (s.mem d (pdx va)) = true
    rw [hm, valid_zero]
    simp
  unfold pgdirWalk
  rw [if_neg hv, if_pos rfl]
  cases s.pageAlloc with
  | error e => rfl
  | ok r =>
    obtain ⟨t, s₁⟩ := r
    have hte : ((s₁.store ⟨d, pdx va⟩ (mkPte t 0#32)).incRef t).tableEntry ⟨d, pdx va⟩ va =
        .ok ⟨t, ptx va⟩ := by
      unfold tableEntry
      rw [show ((s₁.store ⟨d, pdx va⟩ (mkPte t 0#32)).incRef t).deref ⟨d, pdx va⟩ =
        mkPte t 0#32 from deref_store_self .., addr2page_mkPte t flagOnly_zero]
    simp only [← mkPte_zero, hte]
    rfl

end Walk

/-! ## Lookup -/

section Lookup

variable {L : Layout} {s : Pmap} {d : Frame}

theorem pageLookup_clear {va : Word} (hm : s.mem d (pdx va) = 0#32) :
    s.pageLookup d va = .ok none := by
  unfold pageLookup
  rw [pgdirWalk_clear hm]

theorem pageLookup_table {va : Word} {t : Frame} (hm : s.mem d (pdx va) = mkPte t 0#32) :
    s.pageLookup d va =
      if valid (s.mem t (ptx va)) then
        match addr2page (paddr (s.mem t (ptx va))) with
        | none => .error (.panic "pa2page called with invalid ahdress: %x")
        | some pp => .ok (some (pp, ⟨t, ptx va⟩))
      else .ok none := by
  unfold pageLookup
  rw [pgdirWalk_table false hm]
  rfl

theorem pageLookup_mapped {va : Word} {t f : Frame} (hm : s.mem d (pdx va) = mkPte t 0#32)
    (hf : entryFrame (s.mem t (ptx va)) = some f) :
    s.pageLookup d va = .ok (some (f, ⟨t, ptx va⟩)) := by
  have hv := valid_of_entryFrame hf
  rw [pageLookup_table hm, if_pos hv]
  rw [entryFrame, if_pos hv, paddr_pteAddr] at hf
  rw [hf]

theorem pageLookup_unmapped {va : Word} {t : Frame} (hm : s.mem d (pdx va) = mkPte t 0#32)
    (h0 : s.mem t (ptx va) = 0#32) : s.pageLookup d va = .ok none := by
  rw [pageLookup_table hm, h0, valid_zero]
  simp

theorem pteOf_of_table {va : Word} {t : Frame} (hm : s.mem d (pdx va) = mkPte t 0#32) :
    s.pteOf d va = s.mem t (ptx va) := by
  unfold pteOf tableOf
  rw [hm, entryFrame_mkPte t flagOnly_zero]

theorem pteOf_of_clear {va : Word} (hm : s.mem d (pdx va) = 0#32) : s.pteOf d va = 0#32 := by
  unfold pteOf tableOf
  rw [hm, entryFrame_zero]

/-- The entry of `va` carries no uncounted reference. -/
def Counted (L : Layout) (s : Pmap) (d : Frame) (va : Word) : Prop :=
  ∀ t, s.tableOf d (pdx va) = some t → ¬L.plain t (ptx va)

/-- `page_lookup` reads the entry that governs the address. -/
theorem pageLookup_eq (hF : s.Forest L) (hd : s.Dir L d) {va : Word} (hc : s.Counted L d va) :
    s.pageLookup d va = .ok ((entryFrame (s.pteOf d va)).bind fun f =>
      (s.tableOf d (pdx va)).map fun t => (f, ⟨t, ptx va⟩)) := by
  rcases hd.entry hF (pdx va) with ⟨-, h0⟩ | ⟨t, hm, ht⟩
  · rw [pageLookup_clear h0, pteOf_of_clear h0, entryFrame_zero]
    rfl
  · have htab : s.tableOf d (pdx va) = some t := by
      rw [tableOf, hm, entryFrame_mkPte t flagOnly_zero]
    rw [pteOf_of_table hm, htab]
    rcases hF.pte t (ptx va) ht (hc t htab) with h0 | ⟨f, fl, hfl, hw⟩
    · rw [pageLookup_unmapped hm h0, h0, entryFrame_zero]
      rfl
    · have hf : entryFrame (s.mem t (ptx va)) = some f := by
        rw [hw, entryFrame_mkPte f hfl]
      rw [pageLookup_mapped hm hf, hf]
      rfl

end Lookup

/-! ## Closed forms -/

section Cases

variable {L : Layout} {s : Pmap} {d : Frame}

theorem ppRef_ne_zero (hI : s.Inv L) {t f : Frame} {j : Index} (ht : s.IsTable L t)
    (hp : ¬L.plain t j) (hf : entryFrame (s.mem t j) = some f) : s.ppRef f ≠ 0 := by
  intro h0
  have hpos := Forest.refs_pos_of_pte ht hp hf
  have hc := hI.count f
  rw [h0] at hc
  have hz : (0 : BitVec 16).toNat = 0 := rfl
  omega

theorem pageRemove_mapped (hI : s.Inv L) {va : Word} {t f : Frame}
    (hm : s.mem d (pdx va) = mkPte t 0#32) (ht : s.IsTable L t) (hp : ¬L.plain t (ptx va))
    (hf : entryFrame (s.mem t (ptx va)) = some f) :
    s.pageRemove d va = .ok ((s.dropRef f).store ⟨t, ptx va⟩ 0#32) := by
  unfold pageRemove
  rw [pageLookup_mapped hm hf]
  simp only [pageDecref_eq (ppRef_ne_zero hI ht hp hf)]
  rfl

/-- `page_remove` does nothing where nothing is mapped, and otherwise clears the
entry and gives back one reference. -/
theorem pageRemove_cases (hI : s.Inv L) (hd : s.Dir L d) {va : Word}
    (hc : s.Counted L d va) :
    (s.pteOf d va = 0#32 ∧ s.pageRemove d va = .ok s) ∨
      ∃ t f, s.mem d (pdx va) = mkPte t 0#32 ∧ s.IsTable L t ∧ ¬L.plain t (ptx va) ∧
        entryFrame (s.mem t (ptx va)) = some f ∧
        s.pageRemove d va = .ok ((s.dropRef f).store ⟨t, ptx va⟩ 0#32) := by
  rcases hd.entry hI.toForest (pdx va) with ⟨-, h0⟩ | ⟨t, hm, ht⟩
  · refine Or.inl ⟨pteOf_of_clear h0, ?_⟩
    unfold pageRemove
    rw [pageLookup_clear h0]
  · have hp : ¬L.plain t (ptx va) :=
      hc t (by rw [tableOf, hm, entryFrame_mkPte t flagOnly_zero])
    rcases hI.pte t (ptx va) ht hp with h0 | ⟨f, fl, hfl, hw⟩
    · refine Or.inl ⟨(pteOf_of_table hm).trans h0, ?_⟩
      unfold pageRemove
      rw [pageLookup_unmapped hm h0]
    · have hf : entryFrame (s.mem t (ptx va)) = some f := by
        rw [hw, entryFrame_mkPte f hfl]
      exact Or.inr ⟨t, f, hm, ht, hp, hf, pageRemove_mapped hI hm ht hp hf⟩

theorem pageInsertNew_table {va perm : Word} {pp t : Frame}
    (hm : s.mem d (pdx va) = mkPte t 0#32) :
    s.pageInsertNew d pp va perm =
      .ok (.ok (), (s.store ⟨t, ptx va⟩ (mkPte pp perm)).incRef pp) := by
  unfold pageInsertNew
  rw [pgdirWalk_table true hm]

/-- The five ways of `page_insert`: the entry already holds the page, it holds
another one, it is clear, its table is missing, or the table is missing and no
frame is free. -/
theorem pageInsert_cases (hI : s.Inv L) (hd : s.Dir L d) {va : Word} (pp : Frame)
    (perm : Word) (hc : s.Counted L d va) :
    (∃ t, s.mem d (pdx va) = mkPte t 0#32 ∧ s.IsTable L t ∧ ¬L.plain t (ptx va) ∧
      entryFrame (s.mem t (ptx va)) = some pp ∧
      s.pageInsert d pp va perm = .ok (.ok (), s.store ⟨t, ptx va⟩ (mkPte pp perm))) ∨
    (∃ t old, s.mem d (pdx va) = mkPte t 0#32 ∧ s.IsTable L t ∧ ¬L.plain t (ptx va) ∧
      old ≠ pp ∧ entryFrame (s.mem t (ptx va)) = some old ∧
      s.pageInsert d pp va perm = .ok (.ok (),
        ((((s.dropRef old).store ⟨t, ptx va⟩ 0#32).store ⟨t, ptx va⟩ (mkPte pp perm)).incRef
          pp))) ∨
    (∃ t, s.mem d (pdx va) = mkPte t 0#32 ∧ s.IsTable L t ∧ ¬L.plain t (ptx va) ∧
      s.mem t (ptx va) = 0#32 ∧
      s.pageInsert d pp va perm =
        .ok (.ok (), (s.store ⟨t, ptx va⟩ (mkPte pp perm)).incRef pp)) ∨
    (∃ t s₁, L.own d (pdx va) ∧ s.mem d (pdx va) = 0#32 ∧ s.pageAlloc = .ok (t, s₁) ∧
      s.pageInsert d pp va perm = .ok (.ok (),
        ((((s₁.store ⟨d, pdx va⟩ (mkPte t 0#32)).incRef t).store ⟨t, ptx va⟩
          (mkPte pp perm)).incRef pp))) ∨
    (L.own d (pdx va) ∧ s.mem d (pdx va) = 0#32 ∧ s.pageFreeList = [] ∧
      s.pageInsert d pp va perm = .ok (.error .noMem, s)) := by
  rcases hd.entry hI.toForest (pdx va) with ⟨hown, h0⟩ | ⟨t, hm, ht⟩
  · -- no table: only the creating walk can make progress
    have hwalk := pgdirWalk_create h0
    cases ha : s.pageAlloc with
    | error e =>
      have hnil : s.pageFreeList = [] ∧ e = .noMem := by
        unfold pageAlloc at ha
        cases hl : s.pageFreeList with
        | nil => rw [hl] at ha; exact ⟨rfl, by simpa using ha.symm⟩
        | cons f rest => rw [hl] at ha; exact absurd ha (by simp)
      refine Or.inr (Or.inr (Or.inr (Or.inr ⟨hown, h0, hnil.1, ?_⟩)))
      rw [ha, hnil.2] at hwalk
      unfold pageInsert
      rw [pgdirWalk_clear h0]
      simp only [pageInsertNew, hwalk]
    | ok r =>
      obtain ⟨t, s₁⟩ := r
      refine Or.inr (Or.inr (Or.inr (Or.inl ⟨t, s₁, hown, h0, rfl, ?_⟩)))
      rw [ha] at hwalk
      unfold pageInsert
      rw [pgdirWalk_clear h0]
      simp only [pageInsertNew, hwalk]
  · have hp : ¬L.plain t (ptx va) :=
      hc t (by rw [tableOf, hm, entryFrame_mkPte t flagOnly_zero])
    rcases hI.pte t (ptx va) ht hp with hz | ⟨f, fl, hfl, hw⟩
    · refine Or.inr (Or.inr (Or.inl ⟨t, hm, ht, hp, hz, ?_⟩))
      unfold pageInsert
      rw [pgdirWalk_table false hm]
      have hv : ¬valid (s.deref ⟨t, ptx va⟩) = true := by
        show ¬valid (s.mem t (ptx va)) = true
        rw [hz, valid_zero]
        simp
      simp only [if_neg hv, pageInsertNew_table hm]
    · have hf : entryFrame (s.mem t (ptx va)) = some f := by
        rw [hw, entryFrame_mkPte f hfl]
      have hv : valid (s.deref ⟨t, ptx va⟩) = true := valid_of_entryFrame hf
      have ha : addr2page (paddr (pteAddr (s.deref ⟨t, ptx va⟩))) = some f := by
        rw [show s.deref ⟨t, ptx va⟩ = mkPte f fl from hw, addr2page_mkPte f hfl]
      by_cases hfp : f = pp
      · subst hfp
        refine Or.inl ⟨t, hm, ht, hp, hf, ?_⟩
        unfold pageInsert
        rw [pgdirWalk_table false hm]
        simp only [if_pos hv, ha, ne_eq, not_true_eq_false, if_false]
      · refine Or.inr (Or.inl ⟨t, f, hm, ht, hp, hfp, hf, ?_⟩)
        have hm' : ((s.dropRef f).store ⟨t, ptx va⟩ 0#32).mem d (pdx va) = mkPte t 0#32 := by
          rw [store_mem_of_ne, dropRef_mem, hm]
          rintro heq
          have hdt : d = t := congrArg Prod.fst heq
          exact hd.not_isTable hI.toForest (hdt ▸ ht)
        unfold pageInsert
        rw [pgdirWalk_table false hm]
        simp only [if_pos hv, ha, ne_eq, hfp, not_false_eq_true, if_true,
          pageRemove_mapped hI hm ht hp hf, pageInsertNew_table hm']

/-- `page_insert` comes back: with success where the table is there or a frame for
it, and else with an error and nothing done. -/
theorem pageInsert_outcome (hI : s.Inv L) (hd : s.Dir L d) {va : Word} (pp : Frame) (perm : Word)
    (hc : s.Counted L d va) :
    ((s.tableOf d (pdx va) ≠ none ∨ s.pageFreeList ≠ []) ∧
      ∃ s', s.pageInsert d pp va perm = .ok (.ok (), s')) ∨
    (s.tableOf d (pdx va) = none ∧ s.pageFreeList = [] ∧
      s.pageInsert d pp va perm = .ok (.error .noMem, s)) := by
  have htab : ∀ {t : Frame}, s.mem d (pdx va) = mkPte t 0#32 → s.tableOf d (pdx va) ≠ none := by
    intro t hm
    rw [tableOf, hm, entryFrame_mkPte t flagOnly_zero]
    simp
  rcases pageInsert_cases hI hd pp perm hc with
    ⟨t, hm, -, -, -, hr⟩ | ⟨t, old, hm, -, -, -, -, hr⟩ | ⟨t, hm, -, -, -, hr⟩ |
    ⟨t, s₁, -, -, ha, hr⟩ | ⟨-, h0, hnil, hr⟩
  · exact .inl ⟨.inl (htab hm), _, hr⟩
  · exact .inl ⟨.inl (htab hm), _, hr⟩
  · exact .inl ⟨.inl (htab hm), _, hr⟩
  · refine .inl ⟨.inr fun hnil => ?_, _, hr⟩
    have hl := (hI.alloc ha).2.1
    rw [hnil] at hl
    exact absurd hl (by simp)
  · exact .inr ⟨by rw [tableOf, h0, entryFrame_zero], hnil, hr⟩

theorem pageInsert_total (hI : s.Inv L) (hd : s.Dir L d) {va : Word} (pp : Frame) (perm : Word)
    (hc : s.Counted L d va) : ∃ r s', s.pageInsert d pp va perm = .ok (r, s') := by
  rcases pageInsert_outcome hI hd pp perm hc with ⟨-, s', hr⟩ | ⟨-, -, hr⟩
  · exact ⟨_, s', hr⟩
  · exact ⟨_, s, hr⟩

end Cases

/-! ## Translations -/

/-- Two addresses are governed by the same entry. -/
def SameSlot (s : Pmap) (d : Frame) (va : Word) (d' : Frame) (va' : Word) : Prop :=
  ∃ t, s.tableOf d (pdx va) = some t ∧ s.tableOf d' (pdx va') = some t ∧ ptx va = ptx va'

section Effect

variable {L : Layout} {s : Pmap}

theorem Dir.congr {s' : Pmap} {d : Frame} (hd : s.Dir L d) (h : s'.mem d = s.mem d) : s'.Dir L d :=
  ⟨hd.held, hd.not_shared, fun i => by rw [h]; exact hd.entries i⟩

/-- A change of one word in a table: directories stay, and one entry moves. -/
theorem store_effect (hF : s.Forest L) {t : Frame} {j : Index} {w : Word} (s' : Pmap)
    (ht : s.IsTable L t) (hmem : s'.mem = (s.store ⟨t, j⟩ w).mem) :
    (∀ f, ¬s.IsTable L f → s'.mem f = s.mem f) ∧
      (∀ d, s.Dir L d → s'.Dir L d ∧ (∀ i, s'.tableOf d i = s.tableOf d i) ∧
        ∀ va, ¬(s.tableOf d (pdx va) = some t ∧ ptx va = j) → s'.pteOf d va = s.pteOf d va) ∧
      ∀ u, s'.IsTable L u ↔ s.IsTable L u := by
  have hdata : ∀ f, ¬s.IsTable L f → s'.mem f = s.mem f := by
    intro f hf
    have hne : f ≠ t := fun e => hf (e ▸ ht)
    rw [hmem]
    simp [store, Function.update_of_ne hne]
  refine ⟨hdata, fun d hd => ?_, isTable_congr ?_⟩
  · have hmd := hdata d (hd.not_isTable hF)
    have htab : ∀ i, s'.tableOf d i = s.tableOf d i := fun i => by
      unfold tableOf
      rw [hmd]
    refine ⟨hd.congr hmd, htab, fun va hne => ?_⟩
    unfold pteOf
    rw [htab]
    cases hu : s.tableOf d (pdx va) with
    | none => rfl
    | some u =>
      have hslot : (u, ptx va) ≠ (t, j) := by
        rintro heq
        obtain ⟨rfl, rfl⟩ := Prod.mk.injEq .. ▸ heq
        exact hne ⟨hu, rfl⟩
      show s'.mem u (ptx va) = s.mem u (ptx va)
      rw [hmem, store_mem_of_ne w hslot]
  · exact hF.pdeView_store ht hmem

/-- A new, cleared table under an owned entry changes no translation. -/
theorem newTable_effect (hI : s.Inv L) {d t : Frame} {i : Index} {s₁ s' : Pmap}
    (hown : L.own d i) (h0 : s.mem d i = 0#32) (ha : s.pageAlloc = .ok (t, s₁))
    (hs' : s' = (s₁.store ⟨d, i⟩ (mkPte t 0#32)).incRef t) :
    s'.Inv L ∧ s'.tableOf d i = some t ∧ (∀ j, s'.mem t j = 0#32) ∧
      (∀ f, f ∉ s.pageFreeList → f ≠ d → s'.mem f = s.mem f) ∧
      (∀ d', s.Dir L d' → s'.Dir L d' ∧
        (∀ i', (d', i') ≠ (d, i) → s'.tableOf d' i' = s.tableOf d' i') ∧
        ∀ va, s'.pteOf d' va = s.pteOf d' va) ∧
      (∀ u, s'.IsTable L u ↔ s.IsTable L u ∨ u = t) ∧
      s'.refs L t = 1 ∧ ∀ f, f ≠ t → s'.refs L f = s.refs L f := by
  obtain ⟨hI₁, hfree, -, hmem₁, hpde, hr₁, hb, hr⟩ := hI.alloc ha
  have hdt : d ≠ t := fun e => not_own_of_base hb i (e ▸ hown)
  have htfree : t ∉ s₁.pageFreeList := by
    have hnd := hI.free_nodup
    rw [hfree] at hnd
    exact (List.nodup_cons.mp hnd).1
  have h0₁ : s₁.mem d i = 0#32 := by
    rw [hmem₁, Function.update_of_ne hdt, h0]
  have hz : ∀ j, s₁.mem t j = 0#32 := fun j => by rw [hmem₁, Function.update_self]
  have hmem' : s'.mem = (s₁.store ⟨d, i⟩ (mkPte t 0#32)).mem := by rw [hs', incRef_mem]
  obtain ⟨hF', htab₁, hrefs₁⟩ := hI₁.newTable hown h0₁ hb (by rw [hr₁, hr]) hz hmem'
  have hI' : s'.Inv L := by
    refine hI₁.incRef hF' hrefs₁ htfree ?_ (by rw [hs']; rfl) (by rw [hs']; rfl)
    rw [hb, hr₁, hr]
    decide
  have hrefs : ∀ f, s'.refs L f = s.refs L f + if t = f then 1 else 0 := fun f => by
    rw [hrefs₁, hr₁]
  have htab : ∀ u, s'.IsTable L u ↔ s.IsTable L u ∨ u = t := fun u => by
    rw [htab₁, isTable_congr hpde]
  have hzt : ∀ j, s'.mem t j = 0#32 := by
    intro j
    have hne : (t, j) ≠ (d, i) := fun e => hdt (congrArg Prod.fst e).symm
    rw [hmem', store_mem_of_ne _ hne, hz]
  have hself : s'.tableOf d i = some t := by
    rw [tableOf, hmem', store_mem_self, entryFrame_mkPte t flagOnly_zero]
  have hother : ∀ f k, (f, k) ≠ (d, i) → f ≠ t → s'.mem f k = s.mem f k := by
    intro f k hne hft
    rw [hmem', store_mem_of_ne _ hne, hmem₁, Function.update_of_ne hft]
  refine ⟨hI', hself, hzt, ?_, ?_, htab, ?_, ?_⟩
  · intro f hf hfd
    have hft : f ≠ t := fun e => hf (by rw [hfree, e]; exact List.mem_cons_self)
    funext k
    exact hother f k (fun e => hfd (congrArg Prod.fst e)) hft
  · intro d' hd'
    have hd't : d' ≠ t := fun e => by
      have hpos := hd'.held
      rw [e, hb] at hpos
      exact absurd hpos (by omega)
    have htabs : ∀ i', (d', i') ≠ (d, i) → s'.tableOf d' i' = s.tableOf d' i' := fun i' hne => by
      unfold tableOf
      rw [hother d' i' hne hd't]
    refine ⟨⟨hd'.held, hd'.not_shared, fun i' => ?_⟩, htabs, fun va => ?_⟩
    · by_cases heq : (d', i') = (d, i)
      · obtain ⟨rfl, rfl⟩ := Prod.mk.injEq .. ▸ heq
        exact Or.inl hown
      · rw [hother d' i' heq hd't]
        exact hd'.entries i'
    · by_cases heq : (d', pdx va) = (d, i)
      · obtain ⟨rfl, hi⟩ := Prod.mk.injEq .. ▸ heq
        have ht' : s'.tableOf d' (pdx va) = some t := by rw [hi]; exact hself
        have ht0 : s.tableOf d' (pdx va) = none := by rw [tableOf, hi, h0, entryFrame_zero]
        simp only [pteOf, ht', ht0, hzt]
      · unfold pteOf
        rw [htabs (pdx va) heq]
        cases hu : s.tableOf d' (pdx va) with
        | none => rfl
        | some u =>
          have hut := (hd'.isTable hI.toForest hu).1
          have hne : (u, ptx va) ≠ (d, i) := by
            rintro e
            have hud : u = d := congrArg Prod.fst e
            exact hI.table_not_own (hud ▸ hut) i hown
          have hu't : u ≠ t := fun e => not_isTable_of_unref hb hr (e ▸ hut)
          exact hother u (ptx va) hne hu't
  · rw [hrefs, hr, if_pos rfl]
  · intro f hf
    rw [hrefs, if_neg (Ne.symm hf), Nat.add_zero]

end Effect

/-! ## Specifications -/

section Spec

variable {L : Layout} {s : Pmap} {d : Frame}

/-- What a `page_remove` leaves behind. -/
structure Removed (L : Layout) (s : Pmap) (d : Frame) (va : Word) (s' : Pmap) : Prop where
  inv : s'.Inv L
  clear : s'.pteOf d va = 0#32
  data : ∀ f, ¬s.IsTable L f → s'.mem f = s.mem f
  dirs : ∀ d', s.Dir L d' → s'.Dir L d' ∧ ∀ i, s'.tableOf d' i = s.tableOf d' i
  other : ∀ d' va', s.Dir L d' → ¬s.SameSlot d va d' va' → s'.pteOf d' va' = s.pteOf d' va'
  words : ∀ u j, (s.tableOf d (pdx va) = some u → j ≠ ptx va) → s'.mem u j = s.mem u j
  table : ∀ u, s'.IsTable L u ↔ s.IsTable L u

theorem pageRemove_spec (hI : s.Inv L) (hd : s.Dir L d) {va : Word} (hc : s.Counted L d va) :
    ∃ s', s.pageRemove d va = .ok s' ∧ s.Removed L d va s' := by
  rcases pageRemove_cases hI hd hc with ⟨h0, hr⟩ | ⟨t, f, hm, ht, hp, hf, hr⟩
  · exact ⟨s, hr, hI, h0, fun _ _ => rfl, fun _ hd' => ⟨hd', fun _ => rfl⟩,
      fun _ _ _ _ => rfl, fun _ _ _ => rfl, fun _ => Iff.rfl⟩
  · obtain ⟨hdata, hdirs, htab⟩ :=
      store_effect hI.toForest ((s.dropRef f).store ⟨t, ptx va⟩ 0#32) ht rfl
    have htd : s.tableOf d (pdx va) = some t := by
      rw [tableOf, hm, entryFrame_mkPte t flagOnly_zero]
    refine ⟨_, hr, hI.unmap ht hp hf, ?_, hdata,
      fun d' hd' => ⟨(hdirs d' hd').1, (hdirs d' hd').2.1⟩, ?_, fun u j hne => ?_, htab⟩
    · unfold pteOf
      rw [(hdirs d hd).2.1, htd]
      exact store_mem_self ..
    · intro d' va' hd' hne
      refine (hdirs d' hd').2.2 va' fun h => hne ⟨t, htd, h.1, h.2.symm⟩
    · exact store_mem_of_ne _ fun e => by
        obtain ⟨rfl, rfl⟩ := Prod.mk.injEq .. ▸ e
        exact hne htd rfl

/-- What a successful `page_insert` leaves behind. -/
structure Inserted (L : Layout) (s : Pmap) (d pp : Frame) (va perm : Word) (s' : Pmap) :
    Prop where
  inv : s'.Inv L
  pte : s'.pteOf d va = mkPte pp perm
  data : ∀ f, ¬s.IsTable L f → f ∉ s.pageFreeList → f ≠ d → s'.mem f = s.mem f
  dirs : ∀ d', s.Dir L d' → s'.Dir L d' ∧
    ∀ i, (d', i) ≠ (d, pdx va) → s'.tableOf d' i = s.tableOf d' i
  kept : ∀ t, s.tableOf d (pdx va) = some t → s'.tableOf d (pdx va) = some t
  other : ∀ d' va', s.Dir L d' → ¬s'.SameSlot d va d' va' → s'.pteOf d' va' = s.pteOf d' va'
  words : ∀ u j, s.IsTable L u → (s.tableOf d (pdx va) = some u → j ≠ ptx va) →
    s'.mem u j = s.mem u j
  table : ∀ u, s'.IsTable L u → s.IsTable L u ∨ u ∈ s.pageFreeList
  table_mono : ∀ u, s.IsTable L u → s'.IsTable L u

/-- The last store of `page_insert`, after which one entry of a table differs. -/
theorem inserted_of_store (hI : s.Inv L) (hd : s.Dir L d) {t : Frame} {va : Word}
    (pp : Frame) (perm : Word) {s' : Pmap} (ht : s.IsTable L t) (htd : s.tableOf d (pdx va) = some t)
    (hmem : s'.mem = (s.store ⟨t, ptx va⟩ (mkPte pp perm)).mem) (hinv : s'.Inv L) :
    s.Inserted L d pp va perm s' := by
  obtain ⟨hdata, hdirs, htab⟩ := store_effect hI.toForest s' ht hmem
  refine ⟨hinv, ?_, fun f hf _ _ => hdata f hf,
    fun d' hd' => ⟨(hdirs d' hd').1, fun i _ => (hdirs d' hd').2.1 i⟩, ?_, ?_, fun u j _ hne => ?_,
    fun u hu => Or.inl ((htab u).mp hu), fun u hu => (htab u).mpr hu⟩
  · unfold pteOf
    rw [(hdirs d hd).2.1, htd]
    show s'.mem t (ptx va) = _
    rw [hmem, store_mem_self]
  · intro u hu
    rw [(hdirs d hd).2.1, hu]
  · intro d' va' hd' hne
    refine (hdirs d' hd').2.2 va' fun h => hne ⟨t, ?_, ?_, h.2.symm⟩
    · rw [(hdirs d hd).2.1, htd]
    · rw [(hdirs d' hd').2.1, h.1]
  · rw [hmem]
    refine store_mem_of_ne _ fun e => ?_
    obtain ⟨rfl, rfl⟩ := Prod.mk.injEq .. ▸ e
    exact hne htd rfl

/-- An insertion below a table that has just been made. -/
theorem Inserted.of_newTable (hI : s.Inv L) (hd : s.Dir L d) {t pp : Frame} {va perm : Word}
    {s₁ s' : Pmap} (hown : L.own d (pdx va)) (h0 : s.mem d (pdx va) = 0#32)
    (ha : s.pageAlloc = .ok (t, s₁))
    (hins : ((s₁.store ⟨d, pdx va⟩ (mkPte t 0#32)).incRef t).Inserted L d pp va perm s') :
    s.Inserted L d pp va perm s' := by
  obtain ⟨-, hself, -, hdata, hdirs, htab, -, -⟩ := newTable_effect hI hown h0 ha rfl
  obtain ⟨-, hfree, -⟩ := hI.alloc ha
  have htfree : t ∈ s.pageFreeList := by rw [hfree]; exact List.mem_cons_self
  have hlist : ((s₁.store ⟨d, pdx va⟩ (mkPte t 0#32)).incRef t).pageFreeList = s₁.pageFreeList := by
    rw [incRef_free, store_free]
  refine ⟨hins.inv, hins.pte, fun f hf hffree hfd => ?_, fun d' hd' => ?_, fun u hu => ?_,
    fun d' va' hd' hne => ?_, fun u j hu _ => ?_, fun u hu => ?_, fun u hu => ?_⟩
  · have hft : f ≠ t := fun e => hffree (e ▸ htfree)
    refine (hins.data f (fun h => ((htab f).mp h).elim hf hft) ?_ hfd).trans (hdata f hffree hfd)
    rw [hlist]
    exact fun h => hffree (by rw [hfree]; exact List.mem_cons_of_mem _ h)
  · refine ⟨(hins.dirs d' (hdirs d' hd').1).1, fun i hi => ?_⟩
    exact ((hins.dirs d' (hdirs d' hd').1).2 i hi).trans ((hdirs d' hd').2.1 i hi)
  · rw [tableOf, h0, entryFrame_zero] at hu
    exact absurd hu (by simp)
  · exact (hins.other d' va' (hdirs d' hd').1 hne).trans ((hdirs d' hd').2.2 va')
  · have hut : u ∉ s.pageFreeList := fun hf => by
      obtain ⟨hb, hr⟩ := hI.free_unref u hf
      exact not_isTable_of_unref hb hr hu
    have hud : u ≠ d := fun e => hd.not_isTable hI.toForest (e ▸ hu)
    rw [hins.words u j ((htab u).mpr (Or.inl hu)) fun e => ?_, hdata u hut hud]
    rw [hself] at e
    exact absurd (Option.some.inj e ▸ htfree) hut
  · rcases hins.table u hu with h | h
    · exact ((htab u).mp h).imp id fun (e : u = t) => e ▸ htfree
    · rw [hlist] at h
      exact Or.inr (by rw [hfree]; exact List.mem_cons_of_mem _ h)
  · exact hins.table_mono u ((htab u).mpr (Or.inl hu))

/-- `page_insert` on a well-kept forest: it succeeds, or the table is missing
and no frame is free, and then nothing changes. -/
theorem pageInsert_spec (hI : s.Inv L) (hd : s.Dir L d) {va perm : Word} {pp : Frame}
    (hc : s.Counted L d va) (hfl : FlagOnly perm) (hpp : pp ∉ s.pageFreeList)
    (hroom : entryFrame (s.pteOf d va) ≠ some pp → L.base pp + s.refs L pp < 65535) :
    (∃ s', s.pageInsert d pp va perm = .ok (.ok (), s') ∧ s.Inserted L d pp va perm s') ∨
      (s.pageInsert d pp va perm = .ok (.error .noMem, s) ∧ s.tableOf d (pdx va) = none ∧
        s.pageFreeList = []) := by
  rcases pageInsert_cases hI hd pp perm hc with
    ⟨t, hm, ht, hp, hf, hr⟩ | ⟨t, old, hm, ht, hp, hne, hf, hr⟩ | ⟨t, hm, ht, hp, hz, hr⟩ |
    ⟨t, s₁, hown, h0, ha, hr⟩ | ⟨-, h0, hnil, hr⟩
  · have htd : s.tableOf d (pdx va) = some t := by
      rw [tableOf, hm, entryFrame_mkPte t flagOnly_zero]
    exact Or.inl ⟨_, hr, inserted_of_store hI hd pp perm ht htd rfl (hI.reflag ht hp hf hfl)⟩
  · -- replacing: the old page loses its entry first
    have htd : s.tableOf d (pdx va) = some t := by
      rw [tableOf, hm, entryFrame_mkPte t flagOnly_zero]
    have hroom' := hroom (by rw [pteOf_of_table hm, hf]; exact fun e => hne (Option.some.inj e))
    have hI₁ := hI.unmap ht hp hf
    have ht₁ : ((s.dropRef old).store ⟨t, ptx va⟩ 0#32).IsTable L t :=
      ((store_effect hI.toForest ((s.dropRef old).store ⟨t, ptx va⟩ 0#32) ht rfl).2.2 t).mpr ht
    have hpp₁ : pp ∉ ((s.dropRef old).store ⟨t, ptx va⟩ 0#32).pageFreeList := by
      simp only [store_free, dropRef]
      by_cases h1 : s.ppRef old = 1
      · rw [if_pos h1]
        exact fun h => (List.mem_cons.mp h).elim (fun e => hne e.symm) hpp
      · rw [if_neg h1]
        exact hpp
    have hrefs := hI.refs_unmap ((s.dropRef old).store ⟨t, ptx va⟩ 0#32) ht hp hf rfl pp
    rw [if_neg hne] at hrefs
    have hI₂ := hI₁.map ht₁ hp (store_mem_self ..) hfl hpp₁ (by omega)
    refine Or.inl ⟨_, hr, inserted_of_store hI hd pp perm ht htd ?_ hI₂⟩
    rw [incRef_mem, store_store]
    rfl
  · have htd : s.tableOf d (pdx va) = some t := by
      rw [tableOf, hm, entryFrame_mkPte t flagOnly_zero]
    have hroom' := hroom (by rw [pteOf_of_table hm, hz, entryFrame_zero]; simp)
    exact Or.inl ⟨_, hr, inserted_of_store hI hd pp perm ht htd (incRef_mem _ _)
      (hI.map ht hp hz hfl hpp hroom')⟩
  · -- a frame is taken for the missing table
    have hroom' := hroom (by rw [pteOf_of_clear h0, entryFrame_zero]; simp)
    obtain ⟨hI₂, hself, hz, -, hdirs, -, -, hrefs⟩ := newTable_effect hI hown h0 ha rfl
    obtain ⟨-, hfree, -⟩ := hI.alloc ha
    have htfree : t ∈ s.pageFreeList := by rw [hfree]; exact List.mem_cons_self
    have hppt : pp ≠ t := fun e => hpp (e ▸ htfree)
    have hd₂ := (hdirs d hd).1
    have ht₂ := (hd₂.isTable hI₂.toForest hself).1
    have hp := hI.not_plain_of_free htfree (ptx va)
    have hpp₂ : pp ∉ ((s₁.store ⟨d, pdx va⟩ (mkPte t 0#32)).incRef t).pageFreeList := by
      rw [incRef_free, store_free]
      exact fun h => hpp (by rw [hfree]; exact List.mem_cons_of_mem _ h)
    have hI₃ := hI₂.map ht₂ hp (hz _) hfl hpp₂ (by rw [hrefs pp hppt]; exact hroom')
    exact Or.inl ⟨_, hr, .of_newTable hI hd hown h0 ha
      (inserted_of_store hI₂ hd₂ pp perm ht₂ hself (incRef_mem _ _) hI₃)⟩
  · exact Or.inr ⟨hr, by rw [tableOf, h0, entryFrame_zero], hnil⟩

end Spec

end Pmap
end RvMos
