/-
Histories of allocator and page-table calls.

A run starts from empty directories and performs `page_alloc`, `page_insert` and
`page_remove` in any order.  The mapping of an address is what the newest event
on its page says, the counters are the numbers of entries, and the free list is
what is neither counted nor waiting for its first insertion.
-/
import RvMos.Kern.PageWalk
import RvMos.Lib.Run

namespace RvMos
namespace Pmap

open Lib

/-! ## The free list -/

/-- The free list holds the frames without references, less those handed out
and not inserted yet. -/
structure Acct (W : Frame → Prop) (s : Pmap) : Prop where
  mem_free : ∀ f, f ∈ s.pageFreeList ↔ s.ppRef f = 0 ∧ ¬W f
  waiting_zero : ∀ f, W f → s.ppRef f = 0

section Acct

variable {W : Frame → Prop} {s : Pmap}

theorem Acct.congr {W' : Frame → Prop} (h : s.Acct W) (hW : ∀ f, W' f ↔ W f) : s.Acct W' :=
  ⟨fun f => by rw [hW]; exact h.mem_free f, fun f hf => h.waiting_zero f ((hW f).mp hf)⟩

theorem Acct.alloc (h : s.Acct W) (hnd : s.pageFreeList.Nodup) {t : Frame} {s₁ : Pmap}
    (hfree : s.pageFreeList = t :: s₁.pageFreeList) (href : s₁.ppRef = s.ppRef) :
    s₁.Acct fun f => f = t ∨ W f := by
  rw [hfree] at hnd
  have hnt := (List.nodup_cons.mp hnd).1
  have htf : t ∈ s.pageFreeList := by rw [hfree]; exact List.mem_cons_self
  constructor
  · intro f
    have hf := h.mem_free f
    rw [hfree, List.mem_cons] at hf
    rw [href]
    by_cases he : f = t
    · subst he
      exact ⟨fun hm => absurd hm hnt, fun hm => absurd (Or.inl rfl) hm.2⟩
    · constructor
      · intro hm
        have hr := hf.mp (Or.inr hm)
        exact ⟨hr.1, fun hw => hw.elim he hr.2⟩
      · intro hm
        exact (hf.mpr ⟨hm.1, fun hw => hm.2 (Or.inr hw)⟩).resolve_left he
  · rintro f (rfl | hf)
    · rw [href]
      exact ((h.mem_free f).mp htf).1
    · rw [href]
      exact h.waiting_zero f hf

theorem Acct.incRef (h : s.Acct W) {pp : Frame} (hpp : pp ∉ s.pageFreeList)
    (hroom : (s.ppRef pp).toNat < 65535) : (s.incRef pp).Acct fun f => f ≠ pp ∧ W f := by
  have hne : s.ppRef pp + 1 ≠ 0 := by
    intro h0
    have hadd := toNat_add_one hroom
    rw [h0] at hadd
    have hz : (0 : BitVec 16).toNat = 0 := rfl
    omega
  constructor
  · intro f
    rw [incRef_free]
    by_cases he : pp = f
    · subst he
      rw [incRef_self]
      exact ⟨fun hm => absurd hm hpp, fun hm => absurd hm.1 hne⟩
    · rw [incRef_of_ne he, h.mem_free f]
      exact and_congr_right fun _ => not_congr ⟨fun hw => ⟨Ne.symm he, hw⟩, fun hw => hw.2⟩
  · rintro f ⟨he, hf⟩
    rw [incRef_of_ne (Ne.symm he)]
    exact h.waiting_zero f hf

theorem Acct.dropRef (h : s.Acct W) {pp : Frame} (hpp : s.ppRef pp ≠ 0) :
    (s.dropRef pp).Acct W := by
  have hnw : ¬W pp := fun hw => hpp (h.waiting_zero pp hw)
  have hnf : pp ∉ s.pageFreeList := fun hm => hpp ((h.mem_free pp).mp hm).1
  constructor
  · intro f
    by_cases he : pp = f
    · subst he
      rw [dropRef_self]
      have hone : s.ppRef pp - 1 = 0 ↔ s.ppRef pp = 1 := by
        constructor <;> intro heq <;> bv_omega
      rw [hone, Pmap.dropRef]
      by_cases h1 : s.ppRef pp = 1
      · simp [h1, hnw]
      · simp only [if_neg h1]
        exact ⟨fun hm => absurd hm hnf, fun hm => absurd hm.1 h1⟩
    · rw [dropRef_of_ne he, ← h.mem_free f, Pmap.dropRef]
      by_cases h1 : s.ppRef pp = 1
      · simp only [if_pos h1, List.mem_cons]
        exact ⟨fun hm => hm.resolve_left fun e => he e.symm, Or.inr⟩
      · simp only [if_neg h1]
  · intro f hf
    have he : pp ≠ f := fun e => hnw (e ▸ hf)
    rw [dropRef_of_ne he]
    exact h.waiting_zero f hf

theorem Acct.store (h : s.Acct W) (p : PtePtr) (w : Word) : (s.store p w).Acct W :=
  ⟨h.mem_free, h.waiting_zero⟩

end Acct

section Free

variable {L : Layout} {W : Frame → Prop} {s : Pmap} {d : Frame}

theorem Acct.pageRemove (h : s.Acct W) (hI : s.Inv L) (hd : s.Dir L d) {va : Word}
    (hc : s.Counted L d va) {s' : Pmap} (hr : s.pageRemove d va = .ok s') : s'.Acct W := by
  rcases pageRemove_cases hI hd hc with ⟨-, hr'⟩ | ⟨t, f, -, ht, hp, hf, hr'⟩
  · rw [hr'] at hr
    exact Except.ok.inj hr ▸ h
  · rw [hr'] at hr
    exact Except.ok.inj hr ▸ (h.dropRef (ppRef_ne_zero hI ht hp hf)).store _ _

/-- A new reference, counted where the old one was not the same frame.  The
counters play no part, so this also says what an insertion without room does. -/
theorem refs_pageInsert (hI : s.Inv L) (hd : s.Dir L d) {va perm : Word} {pp : Frame}
    (hc : s.Counted L d va) (hfl : FlagOnly perm) (hpp : pp ∉ s.pageFreeList)
    (hnew : entryFrame (s.pteOf d va) ≠ some pp) {s' : Pmap}
    (hr : s.pageInsert d pp va perm = .ok (.ok (), s')) :
    s'.Forest L ∧ s'.refs L pp = s.refs L pp + 1 := by
  have hword : mkPte pp perm = 0#32 ∨ ∃ f fl, FlagOnly fl ∧ mkPte pp perm = mkPte f fl :=
    Or.inr ⟨pp, perm, hfl, rfl⟩
  rcases pageInsert_cases hI hd pp perm hc with
    ⟨t, hm, ht, hp, hf, hr'⟩ | ⟨t, old, hm, ht, hp, hne, hf, hr'⟩ | ⟨t, hm, ht, hp, hz, hr'⟩ |
    ⟨t, s₁, hown, h0, ha, hr'⟩ | ⟨-, -, -, hr'⟩ <;> rw [hr'] at hr
  · rw [pteOf_of_table hm] at hnew
    exact absurd hf hnew
  · obtain rfl := (Prod.mk.inj (Except.ok.inj hr)).2
    have hI₁ := hI.unmap ht hp hf
    have ht₁ : ((s.dropRef old).store ⟨t, ptx va⟩ 0#32).IsTable L t :=
      ((store_effect hI.toForest ((s.dropRef old).store ⟨t, ptx va⟩ 0#32) ht rfl).2.2 t).mpr ht
    have hrefs := hI.refs_unmap ((s.dropRef old).store ⟨t, ptx va⟩ 0#32) ht hp hf rfl pp
    rw [if_neg hne, Nat.add_zero] at hrefs
    refine ⟨hI₁.store ht₁ hword (incRef_mem _ _), ?_⟩
    rw [hI₁.refs_map _ ht₁ hp (store_mem_self ..) hfl (incRef_mem _ _) pp, if_pos rfl, hrefs]
  · obtain rfl := (Prod.mk.inj (Except.ok.inj hr)).2
    refine ⟨hI.store ht hword (incRef_mem _ _), ?_⟩
    rw [hI.refs_map _ ht hp hz hfl (incRef_mem _ _) pp, if_pos rfl]
  · obtain rfl := (Prod.mk.inj (Except.ok.inj hr)).2
    obtain ⟨hI₂, hself, hz, -, hdirs, -, -, hrefs⟩ := newTable_effect hI hown h0 ha rfl
    have htfree : t ∈ s.pageFreeList := by
      rw [(hI.alloc ha).2.1]
      exact List.mem_cons_self
    have hp := hI.not_plain_of_free htfree (ptx va)
    have ht₂ := ((hdirs d hd).1.isTable hI₂.toForest hself).1
    have hppt : pp ≠ t := fun e => hpp (e ▸ htfree)
    refine ⟨hI₂.store ht₂ hword (incRef_mem _ _), ?_⟩
    rw [hI₂.refs_map _ ht₂ hp (hz _) hfl (incRef_mem _ _) pp, if_pos rfl, hrefs pp hppt]
  · exact absurd hr (by simp)

theorem Acct.pageInsert (h : s.Acct W) (hI : s.Inv L) (hd : s.Dir L d) {va perm : Word}
    {pp : Frame} (hc : s.Counted L d va) (hpp : pp ∉ s.pageFreeList)
    (hroom : entryFrame (s.pteOf d va) ≠ some pp → L.base pp + s.refs L pp < 65535)
    {s' : Pmap} (hr : s.pageInsert d pp va perm = .ok (.ok (), s')) :
    s'.Acct fun f => f ≠ pp ∧ W f := by
  have hcount := hI.count pp
  rcases pageInsert_cases hI hd pp perm hc with
    ⟨t, hm, ht, hp, hf, hr'⟩ | ⟨t, old, hm, ht, hp, hne, hf, hr'⟩ | ⟨t, hm, ht, hp, hz, hr'⟩ |
    ⟨t, s₁, hown, h0, ha, hr'⟩ | ⟨-, -, -, hr'⟩ <;> rw [hr'] at hr
  · obtain rfl := (Prod.mk.inj (Except.ok.inj hr)).2
    have hnw : ¬W pp := fun hw => ppRef_ne_zero hI ht hp hf (h.waiting_zero pp hw)
    refine (h.store _ _).congr fun f => ⟨fun hf => hf.2, fun hf => ⟨?_, hf⟩⟩
    exact fun e => hnw (e ▸ hf)
  · obtain rfl := (Prod.mk.inj (Except.ok.inj hr)).2
    have hlt := hroom (by rw [pteOf_of_table hm, hf]; exact fun e => hne (Option.some.inj e))
    have hdrop := h.dropRef (ppRef_ne_zero hI ht hp hf)
    have hpp₁ : pp ∉ (s.dropRef old).pageFreeList := by
      intro hmem
      have hz := ((hdrop.mem_free pp).mp hmem)
      rw [dropRef_of_ne hne] at hz
      exact hpp ((h.mem_free pp).mpr hz)
    refine ((hdrop.store _ _).store _ _).incRef hpp₁ ?_
    rw [store_ppRef, store_ppRef, dropRef_of_ne hne, hcount]
    exact hlt
  · obtain rfl := (Prod.mk.inj (Except.ok.inj hr)).2
    have hlt := hroom (by rw [pteOf_of_table hm, hz, entryFrame_zero]; simp)
    exact (h.store _ _).incRef hpp (by rw [store_ppRef, hcount]; exact hlt)
  · obtain rfl := (Prod.mk.inj (Except.ok.inj hr)).2
    have hlt := hroom (by rw [pteOf_of_clear h0, entryFrame_zero]; simp)
    obtain ⟨-, hfree, href, -, -, -, hb, hrt⟩ := hI.alloc ha
    have htfree : t ∈ s.pageFreeList := by rw [hfree]; exact List.mem_cons_self
    have hppt : pp ≠ t := fun e => hpp (e ▸ htfree)
    have htnw := ((h.mem_free t).mp htfree).2
    have hnd := hI.free_nodup
    rw [hfree] at hnd
    have hzero : (s₁.ppRef t).toNat < 65535 := by
      rw [href, hI.count t, hb, hrt]
      decide
    have hacct := ((h.alloc hI.free_nodup hfree href).store ⟨d, pdx va⟩ (mkPte t 0#32)).incRef
      (List.nodup_cons.mp hnd).1 hzero
    have hpp₁ : pp ∉ ((s₁.store ⟨d, pdx va⟩ (mkPte t 0#32)).incRef t).pageFreeList := by
      rw [incRef_free, store_free]
      exact fun hm => hpp (by rw [hfree]; exact List.mem_cons_of_mem _ hm)
    have hlast := (hacct.store ⟨t, ptx va⟩ (mkPte pp perm)).incRef hpp₁ (by
      rw [store_ppRef, incRef_of_ne (Ne.symm hppt), store_ppRef, href, hcount]
      exact hlt)
    refine hlast.congr fun f => and_congr_right fun _ => ⟨fun hw => ⟨?_, Or.inr hw⟩, ?_⟩
    · exact fun e => htnw (e ▸ hw)
    · exact fun hw => hw.2.resolve_left hw.1
  · exact absurd hr (by simp)

end Free

/-! ## Directories that share nothing -/

/-- The entry `j` of the table behind entry `i` of directory `d`. -/
def pteAt (s : Pmap) (d : Frame) (i j : Index) : Word :=
  match s.tableOf d i with
  | none => 0#32
  | some t => s.mem t j

/-- The number of valid directory entries that point to `f`. -/
def pdeRefs (dirs : Finset Frame) (s : Pmap) (f : Frame) : Nat :=
  ((dirs ×ˢ (Finset.univ : Finset Index)).filter fun x => s.tableOf x.1 x.2 = some f).card

/-- The number of valid page-table entries that point to `f`. -/
def pteRefs (dirs : Finset Frame) (s : Pmap) (f : Frame) : Nat :=
  ((dirs ×ˢ (Finset.univ : Finset (Index × Index))).filter fun x =>
    entryFrame (s.pteAt x.1 x.2.1 x.2.2) = some f).card

/-- Every directory owns all its entries.  `kept` are the frames that
`page_init` counts once because the kernel image and `pages` lie in them. -/
def privateLayout (dirs kept : Finset Frame) : Layout where
  own d _ := d ∈ dirs
  shared _ := False
  plain _ _ := False
  base f := if f ∈ dirs ∨ f ∈ kept then 1 else 0
  dir_base d _ h := by rw [if_pos (Or.inl h)]; exact Nat.one_pos
  shared_base _ h := h.elim
  apart _ _ h := h.elim
  plain_shared _ _ h := h

section Private

variable {dirs kept : Finset Frame} {s : Pmap}

theorem dir_private (kept : Finset Frame) {d : Frame} (hd : d ∈ dirs) : s.Dir (privateLayout dirs kept) d :=
  ⟨(privateLayout dirs kept).dir_base d 0 hd, id, fun _ => Or.inl hd⟩

theorem counted_private (d : Frame) (va : Word) : s.Counted (privateLayout dirs kept) d va :=
  fun _ _ h => h

theorem pdeRefs_eq (f : Frame) :
    pdeRefs dirs s f = tally (s.pdeView (privateLayout dirs kept)) f := by
  refine card_eq_tally id ?_ ?_ ?_
  · rintro ⟨d, i⟩ hA ht
    have hd : d ∈ dirs := (Finset.mem_product.mp hA).1
    exact (pdeView_of_own (L := privateLayout dirs kept) hd).trans ht
  · intro a _ _ b _ _ hab
    exact hab
  · rintro ⟨d, i⟩ h
    have hd : d ∈ dirs := own_of_pdeView (L := privateLayout dirs kept) h
    exact ⟨(d, i), Finset.mem_product.mpr ⟨hd, Finset.mem_univ i⟩,
      (pdeView_of_own (L := privateLayout dirs kept) hd).symm.trans h, rfl⟩

/-- Counting entries along the directories and counting them table by table is
the same, because no table has two directory entries. -/
theorem pteRefs_eq (hF : s.Forest (privateLayout dirs kept)) (f : Frame) :
    pteRefs dirs s f = tally (s.pteView (privateLayout dirs kept)) f := by
  have hslot : ∀ d i j g, entryFrame (s.pteAt d i j) = some g →
      ∃ t, s.tableOf d i = some t ∧ entryFrame (s.mem t j) = some g := by
    intro d i j g hg
    unfold pteAt at hg
    cases ht : s.tableOf d i with
    | none => rw [ht] at hg; exact absurd hg (by rw [entryFrame_zero]; simp)
    | some t => rw [ht] at hg; exact ⟨t, rfl, hg⟩
  refine card_eq_tally (fun x => ((s.tableOf x.1 x.2.1).getD x.1, x.2.2)) ?_ ?_ ?_
  · rintro ⟨d, i, j⟩ hA hx
    have hd : d ∈ dirs := (Finset.mem_product.mp hA).1
    obtain ⟨t, ht, hg⟩ := hslot d i j f hx
    have htab := ((dir_private kept hd).isTable hF ht).1
    simp only [ht, Option.getD_some]
    exact (pteView_of_table htab id).trans hg
  · rintro ⟨d, i, j⟩ hA hx ⟨d', i', j'⟩ hA' hx' heq
    have hd : d ∈ dirs := (Finset.mem_product.mp hA).1
    have hd' : d' ∈ dirs := (Finset.mem_product.mp hA').1
    obtain ⟨t, ht, -⟩ := hslot d i j f hx
    obtain ⟨t', ht', -⟩ := hslot d' i' j' f hx'
    simp only [ht, ht', Option.getD_some, Prod.mk.injEq] at heq
    obtain ⟨rfl, rfl⟩ := heq
    obtain ⟨rfl, rfl⟩ := tableOf_inj hF hd hd' ht ht'
    rfl
  · rintro ⟨t, j⟩ hx
    have htab : s.IsTable (privateLayout dirs kept) t := by
      by_contra hn
      unfold pteView at hx
      rw [if_neg fun h => hn h.1] at hx
      exact absurd hx (by simp)
    have hg := (pteView_of_table htab id).symm.trans hx
    obtain ⟨⟨d, i⟩, hdi⟩ := htab.resolve_left id
    have hd : d ∈ dirs := own_of_pdeView (L := privateLayout dirs kept) hdi
    have ht : s.tableOf d i = some t :=
      (pdeView_of_own (L := privateLayout dirs kept) hd).symm.trans hdi
    have hA : (d, i, j) ∈ dirs ×ˢ (Finset.univ : Finset (Index × Index)) := by simp [hd]
    refine ⟨(d, i, j), hA, ?_, ?_⟩
    · simp only [pteAt, ht]
      exact hg
    · simp only [ht, Option.getD_some]

theorem refs_private (hF : s.Forest (privateLayout dirs kept)) (f : Frame) :
    s.refs (privateLayout dirs kept) f = pdeRefs dirs s f + pteRefs dirs s f := by
  rw [refs, pdeRefs_eq, pteRefs_eq hF]

end Private

/-! ## Runs -/

/-- A call with what it returned. -/
inductive PageEvent where
  | alloc (r : Except Errno Frame)
  | insert (pgdir pp : Frame) (va perm : Word) (r : Except Errno Unit)
  | remove (pgdir : Frame) (va : Word)

/-- The newest event that hit the page of `va` in `d`: the frame and permission
of an insertion, nothing after a removal or before the first hit. -/
def lastHit (d : Frame) (va : Word) : List PageEvent → Option (Frame × Word)
  | [] => none
  | .alloc _ :: h => lastHit d va h
  | .insert _ _ _ _ (.error _) :: h => lastHit d va h
  | .insert d' pp va' perm (.ok ()) :: h =>
    if d' = d ∧ vpn va' = vpn va then some (pp, perm) else lastHit d va h
  | .remove d' va' :: h => if d' = d ∧ vpn va' = vpn va then none else lastHit d va h

/-- The results of `page_alloc` that no `page_insert` has used yet. -/
def Waiting (f : Frame) : List PageEvent → Prop
  | [] => False
  | .alloc (.ok g) :: h => f = g ∨ Waiting f h
  | .insert _ pp _ _ (.ok ()) :: h => f ≠ pp ∧ Waiting f h
  | _ :: h => Waiting f h

/-- Empty directories; all other frames are free or kept by the kernel. -/
structure Start (dirs kept : Finset Frame) (s : Pmap) : Prop where
  empty : ∀ d ∈ dirs, ∀ i, s.mem d i = 0#32
  held : ∀ f, f ∈ dirs ∨ f ∈ kept → s.ppRef f = 1
  unheld : ∀ f, f ∉ dirs → f ∉ kept → s.ppRef f = 0
  nodup : s.pageFreeList.Nodup
  free : ∀ f, f ∈ s.pageFreeList ↔ s.ppRef f = 0

/-- The references to a frame: its entries, and one for a directory or a kept
frame. -/
def references (dirs kept : Finset Frame) (s : Pmap) (f : Frame) : Nat :=
  (if f ∈ dirs ∨ f ∈ kept then 1 else 0) + (pdeRefs dirs s f + pteRefs dirs s f)

/-- The calls a run may make: on one of its directories, inserting a frame that
is not free with flag bits only. -/
inductive Call (dirs : Finset Frame) (s : Pmap) : PageEvent → Pmap → Prop
  | alloc {f : Frame} {s' : Pmap} : s.pageAlloc = .ok (f, s') → Call dirs s (.alloc (.ok f)) s'
  | allocFail {e : Errno} : s.pageAlloc = .error e → Call dirs s (.alloc (.error e)) s
  | insert {d pp : Frame} {va perm : Word} {r : Except Errno Unit} {s' : Pmap} :
      d ∈ dirs → pp ∉ s.pageFreeList → FlagOnly perm →
      s.pageInsert d pp va perm = .ok (r, s') → Call dirs s (.insert d pp va perm r) s'
  | remove {d : Frame} {va : Word} {s' : Pmap} :
      d ∈ dirs → s.pageRemove d va = .ok s' → Call dirs s (.remove d va) s'

/-- A call after which no frame has more references than `pp_ref` can count. -/
def PageStep (dirs kept : Finset Frame) (s : Pmap) (e : PageEvent) (s' : Pmap) : Prop :=
  Call dirs s e s' ∧ ∀ f, references dirs kept s' f ≤ 65535

/-- The entry that a newest hit leaves behind. -/
def hitPte : Option (Frame × Word) → Word
  | none => 0#32
  | some (pp, perm) => mkPte pp perm

/-- What holds after every history. -/
structure HistInv (dirs kept : Finset Frame) (h : List PageEvent) (s : Pmap) : Prop where
  inv : s.Inv (privateLayout dirs kept)
  acct : s.Acct fun f => Waiting f h
  maps : ∀ d ∈ dirs, ∀ va, s.pteOf d va = hitPte (lastHit d va h)
  flags : ∀ d va pp perm, lastHit d va h = some (pp, perm) → FlagOnly perm

section History

variable {dirs kept : Finset Frame}

theorem Start.histInv {s : Pmap} (h : Start dirs kept s) : HistInv dirs kept [] s := by
  have hpde : ∀ x, s.pdeView (privateLayout dirs kept) x = none := by
    rintro ⟨d, i⟩
    by_cases hd : d ∈ dirs
    · rw [pdeView_of_own (L := privateLayout dirs kept) hd, h.empty d hd i, entryFrame_zero]
    · exact if_neg hd
  have hnot : ∀ t, ¬s.IsTable (privateLayout dirs kept) t := by
    rintro t (hsh | ⟨x, hx⟩)
    · exact hsh
    · rw [hpde] at hx
      exact absurd hx (by simp)
  have hpte : ∀ x, s.pteView (privateLayout dirs kept) x = none := fun x =>
    if_neg fun hx => hnot x.1 hx.1
  have hrefs : ∀ f, s.refs (privateLayout dirs kept) f = 0 := by
    intro f
    have h1 : tally (s.pdeView (privateLayout dirs kept)) f = 0 :=
      tally_eq_zero.mpr fun x => by rw [hpde]; simp
    have h2 : tally (s.pteView (privateLayout dirs kept)) f = 0 :=
      tally_eq_zero.mpr fun x => by rw [hpte]; simp
    rw [refs, h1, h2]
  have hcount : ∀ f, (s.ppRef f).toNat = (privateLayout dirs kept).base f := by
    intro f
    show _ = if f ∈ dirs ∨ f ∈ kept then 1 else 0
    by_cases hf : f ∈ dirs ∨ f ∈ kept
    · rw [if_pos hf, h.held f hf]
      rfl
    · rw [if_neg hf, h.unheld f (fun hd => hf (Or.inl hd)) fun hk => hf (Or.inr hk)]
      rfl
  have hforest : s.Forest (privateLayout dirs kept) := by
    refine ⟨fun d i hd => Or.inl (h.empty d hd i), ?_, ?_, fun t j ht => absurd ht (hnot t)⟩
    · intro x y t hx
      rw [hpde] at hx
      exact absurd hx (by simp)
    · intro x t hx
      rw [hpde] at hx
      exact absurd hx (by simp)
  refine ⟨⟨hforest, h.nodup, ?_, ?_⟩, ⟨?_, ?_⟩, ?_, ?_⟩
  · intro f hf
    have h0 := hcount f
    rw [(h.free f).mp hf] at h0
    exact ⟨h0.symm, hrefs f⟩
  · intro f
    rw [hrefs, Nat.add_zero]
    exact hcount f
  · intro f
    rw [h.free f]
    exact ⟨fun h0 => ⟨h0, id⟩, fun h0 => h0.1⟩
  · intro f hf
    exact hf.elim
  · intro d hd va
    exact pteOf_of_clear (h.empty d hd _)
  · intro d va pp perm hl
    exact absurd hl (by simp [lastHit])

/-- In private directories only the same page has the same entry. -/
theorem sameSlot_private {s : Pmap} (hF : s.Forest (privateLayout dirs kept)) {d d' : Frame}
    {va va' : Word} (hd : d ∈ dirs) (hd' : d' ∈ dirs) (h : s.SameSlot d va d' va') :
    d = d' ∧ vpn va = vpn va' := by
  obtain ⟨t, ht, ht', hx⟩ := h
  obtain ⟨rfl, hi⟩ := tableOf_inj hF hd hd' ht ht'
  exact ⟨rfl, vpn_eq_iff.mpr ⟨hi, hx⟩⟩

theorem pteOf_congr_vpn (s : Pmap) (d : Frame) {va va' : Word} (h : vpn va = vpn va') :
    s.pteOf d va = s.pteOf d va' := by
  obtain ⟨hd, ht⟩ := vpn_eq_iff.mp h
  unfold pteOf
  rw [hd, ht]

/-- The insertion of a call leaves room in the counter, or the frame was there
already. -/
theorem room_of_bound {s s' : Pmap} (hI : s.Inv (privateLayout dirs kept)) {d pp : Frame}
    {va perm : Word} (hd : d ∈ dirs) (hpp : pp ∉ s.pageFreeList) (hfl : FlagOnly perm)
    (hr : s.pageInsert d pp va perm = .ok (.ok (), s'))
    (hb : references dirs kept s' pp ≤ 65535) :
    entryFrame (s.pteOf d va) ≠ some pp →
      (privateLayout dirs kept).base pp + s.refs (privateLayout dirs kept) pp < 65535 := by
  intro hnew
  obtain ⟨hF, hrefs⟩ := refs_pageInsert hI (dir_private kept hd) (counted_private d va) hfl hpp
    hnew hr
  have hsum : references dirs kept s' pp =
      (privateLayout dirs kept).base pp + s'.refs (privateLayout dirs kept) pp := by
    rw [refs_private hF]
    rfl
  rw [hsum, hrefs] at hb
  omega

/-- Clearing a frame that nothing refers to moves no translation. -/
theorem pteOf_alloc {L : Layout} {s s' : Pmap} {d f : Frame} (hI : s.Inv L) (hd : s.Dir L d)
    (ha : s.pageAlloc = .ok (f, s')) (va : Word) : s'.pteOf d va = s.pteOf d va := by
  obtain ⟨-, -, -, hmem, -, -, hb, hr⟩ := hI.alloc ha
  have hdf : d ≠ f := hd.ne_of_base hb
  have htab : s'.tableOf d (pdx va) = s.tableOf d (pdx va) := by
    rw [tableOf, tableOf, hmem, Function.update_of_ne hdf]
  unfold pteOf
  rw [htab]
  cases ht : s.tableOf d (pdx va) with
  | none => rfl
  | some t =>
    have htf : t ≠ f := fun e =>
      not_isTable_of_unref hb hr (e ▸ (hd.isTable hI.toForest ht).1)
    show s'.mem t (ptx va) = s.mem t (ptx va)
    rw [hmem, Function.update_of_ne htf]

theorem HistInv.insert {h : List PageEvent} {s s' : Pmap} (hH : HistInv dirs kept h s)
    {d pp : Frame} {va perm : Word} (hd : d ∈ dirs) (hpp : pp ∉ s.pageFreeList)
    (hfl : FlagOnly perm) (hr : s.pageInsert d pp va perm = .ok (.ok (), s'))
    (hb : references dirs kept s' pp ≤ 65535) :
    HistInv dirs kept (.insert d pp va perm (.ok ()) :: h) s' := by
  have hroom := room_of_bound hH.inv hd hpp hfl hr hb
  have hins : s.Inserted (privateLayout dirs kept) d pp va perm s' := by
    rcases pageInsert_spec hH.inv (dir_private kept hd) (counted_private d va) hfl hpp hroom with
      ⟨s₁, hr₁, hins⟩ | ⟨hr₁, -⟩
    · rw [hr₁] at hr
      exact (Prod.mk.inj (Except.ok.inj hr)).2 ▸ hins
    · rw [hr₁] at hr
      exact absurd hr (by simp)
  refine ⟨hins.inv, ?_, ?_, ?_⟩
  · exact hH.acct.pageInsert hH.inv (dir_private kept hd) (counted_private d va) hpp hroom hr
  · intro d' hd' va'
    unfold lastHit
    by_cases hhit : d = d' ∧ vpn va = vpn va'
    · obtain ⟨rfl, hv⟩ := hhit
      rw [if_pos ⟨rfl, hv⟩, ← pteOf_congr_vpn s' d hv]
      exact hins.pte
    · rw [if_neg hhit, ← hH.maps d' hd' va']
      exact hins.other d' va' (dir_private kept hd') fun hs =>
        hhit (sameSlot_private hins.inv.toForest hd hd' hs)
  · intro d' va' pp' perm' hl
    unfold lastHit at hl
    split at hl
    · obtain ⟨rfl, rfl⟩ := Prod.mk.inj (Option.some.inj hl)
      exact hfl
    · exact hH.flags d' va' pp' perm' hl

theorem HistInv.remove {h : List PageEvent} {s s' : Pmap} (hH : HistInv dirs kept h s)
    {d : Frame} {va : Word} (hd : d ∈ dirs) (hr : s.pageRemove d va = .ok s') :
    HistInv dirs kept (.remove d va :: h) s' := by
  obtain ⟨s₁, hr₁, hrem⟩ := pageRemove_spec hH.inv (dir_private kept hd)
    (counted_private d va)
  obtain rfl : s₁ = s' := Except.ok.inj (hr₁.symm.trans hr)
  refine ⟨hrem.inv, ?_, ?_, ?_⟩
  · exact hH.acct.pageRemove hH.inv (dir_private kept hd) (counted_private d va) hr
  · intro d' hd' va'
    unfold lastHit
    by_cases hhit : d = d' ∧ vpn va = vpn va'
    · obtain ⟨rfl, hv⟩ := hhit
      rw [if_pos ⟨rfl, hv⟩, ← pteOf_congr_vpn s₁ d hv]
      exact hrem.clear
    · rw [if_neg hhit, ← hH.maps d' hd' va']
      exact hrem.other d' va' (dir_private kept hd') fun hs =>
        hhit (sameSlot_private hH.inv.toForest hd hd' hs)
  · intro d' va' pp' perm' hl
    unfold lastHit at hl
    split at hl
    · exact absurd hl (by simp)
    · exact hH.flags d' va' pp' perm' hl

/-- A failed insertion found no free frame and left everything alone. -/
theorem pageInsert_error {s s' : Pmap} (hI : s.Inv (privateLayout dirs kept)) {d pp : Frame}
    {va perm : Word} {e : Errno} (hd : d ∈ dirs)
    (hr : s.pageInsert d pp va perm = .ok (.error e, s')) : e = .noMem ∧ s' = s := by
  rcases pageInsert_cases hI (dir_private kept hd) pp perm (counted_private d va) with
    ⟨t, -, -, -, -, hr'⟩ | ⟨t, old, -, -, -, -, -, hr'⟩ | ⟨t, -, -, -, -, hr'⟩ |
    ⟨t, s₁, -, -, -, hr'⟩ | ⟨-, -, -, hr'⟩ <;> rw [hr'] at hr
  · exact absurd hr (by simp)
  · exact absurd hr (by simp)
  · exact absurd hr (by simp)
  · exact absurd hr (by simp)
  · obtain ⟨he, hs⟩ := Prod.mk.inj (Except.ok.inj hr)
    exact ⟨(Except.error.inj he).symm, hs.symm⟩

/-- One call keeps the invariant. -/
theorem HistInv.step {h : List PageEvent} {s s' : Pmap} {e : PageEvent}
    (hH : HistInv dirs kept h s) (hs : PageStep dirs kept s e s') :
    HistInv dirs kept (e :: h) s' := by
  obtain ⟨hcall, hb⟩ := hs
  cases hcall with
  | @alloc f s' ha =>
    obtain ⟨hI', hfree, href, -⟩ := hH.inv.alloc ha
    refine ⟨hI', hH.acct.alloc hH.inv.free_nodup hfree href, ?_, hH.flags⟩
    intro d hd va
    rw [pteOf_alloc hH.inv (dir_private kept hd) ha]
    exact hH.maps d hd va
  | allocFail ha => exact ⟨hH.inv, hH.acct, hH.maps, hH.flags⟩
  | @insert d pp va perm r s' hd hpp hfl hr =>
    cases r with
    | ok u => exact hH.insert hd hpp hfl hr (hb pp)
    | error err =>
      obtain ⟨-, rfl⟩ := pageInsert_error hH.inv hd hr
      exact ⟨hH.inv, hH.acct, hH.maps, hH.flags⟩
  | remove hd hr => exact hH.remove hd hr

theorem histInv_of_run {h : List PageEvent} {s : Pmap}
    (hrun : Run (Start dirs kept) (PageStep dirs kept) h s) : HistInv dirs kept h s :=
  Run.invariant (I := HistInv dirs kept) (fun _ h0 => h0.histInv)
    (fun _ _ _ _ hH hs => hH.step hs) hrun

/-- `page_lookup` finds the frame of the newest hit, with its permission. -/
theorem HistInv.lookup {h : List PageEvent} {s : Pmap} (hH : HistInv dirs kept h s) {d : Frame}
    (hd : d ∈ dirs) (va : Word) :
    (lastHit d va h = none ∧ s.pageLookup d va = .ok none) ∨
      ∃ pp perm p, lastHit d va h = some (pp, perm) ∧ FlagOnly perm ∧
        s.pageLookup d va = .ok (some (pp, p)) ∧ s.deref p = mkPte pp perm := by
  have heq := pageLookup_eq hH.inv.toForest (dir_private kept hd) (counted_private d va)
  have hmap := hH.maps d hd va
  cases hl : lastHit d va h with
  | none =>
    rw [hl] at hmap
    refine Or.inl ⟨rfl, ?_⟩
    rw [heq, hmap, hitPte, entryFrame_zero]
    rfl
  | some hit =>
    obtain ⟨pp, perm⟩ := hit
    have hfl := hH.flags d va pp perm hl
    rw [hl] at hmap
    cases ht : s.tableOf d (pdx va) with
    | none =>
      -- an entry that is not zero lies in a table
      rw [pteOf, ht] at hmap
      have hv := valid_mkPte pp perm
      rw [show mkPte pp perm = 0#32 from hmap.symm, valid_zero] at hv
      exact absurd hv (by simp)
    | some t =>
      refine Or.inr ⟨pp, perm, ⟨t, ptx va⟩, rfl, hfl, ?_, ?_⟩
      · rw [heq, hmap, hitPte, entryFrame_mkPte pp hfl, ht]
        rfl
      · rw [pteOf, ht] at hmap
        exact hmap

/-- A counter is the number of references. -/
theorem HistInv.count {h : List PageEvent} {s : Pmap} (hH : HistInv dirs kept h s) (f : Frame) :
    (s.ppRef f).toNat = references dirs kept s f := by
  rw [hH.inv.count f, refs_private hH.inv.toForest]
  rfl

/-- What `page_alloc` hands out is no directory, no page table and not mapped. -/
theorem HistInv.alloc_unmapped {h : List PageEvent} {s s' : Pmap} (hH : HistInv dirs kept h s)
    {f : Frame} (ha : s.pageAlloc = .ok (f, s')) :
    f ∉ dirs ∧ pdeRefs dirs s f = 0 ∧ pteRefs dirs s f = 0 := by
  obtain ⟨-, -, -, -, -, -, hb, hr⟩ := hH.inv.alloc ha
  rw [refs_private hH.inv.toForest] at hr
  refine ⟨fun hd => ?_, by omega, by omega⟩
  have hpos := (privateLayout dirs kept).dir_base f 0 hd
  omega

/-- Neither call stops the kernel. -/
theorem HistInv.total {h : List PageEvent} {s : Pmap} (hH : HistInv dirs kept h s) {d : Frame}
    (hd : d ∈ dirs) (va : Word) :
    (∃ s', s.pageRemove d va = .ok s') ∧
      ∀ pp perm, ∃ r s', s.pageInsert d pp va perm = .ok (r, s') := by
  constructor
  · obtain ⟨s', hr, -⟩ := pageRemove_spec hH.inv (dir_private kept hd) (counted_private d va)
    exact ⟨s', hr⟩
  · intro pp perm
    rcases pageInsert_cases hH.inv (dir_private kept hd) pp perm (counted_private d va) with
      ⟨t, -, -, -, -, hr⟩ | ⟨t, old, -, -, -, -, -, hr⟩ | ⟨t, -, -, -, -, hr⟩ |
      ⟨t, s₁, -, -, -, hr⟩ | ⟨-, -, -, hr⟩
    · exact ⟨_, _, hr⟩
    · exact ⟨_, _, hr⟩
    · exact ⟨_, _, hr⟩
    · exact ⟨_, _, hr⟩
    · exact ⟨_, _, hr⟩

/-- The page tables, the counters and the free list along every history. -/
theorem page_history {h : List PageEvent} {s : Pmap}
    (hrun : Run (Start dirs kept) (PageStep dirs kept) h s) :
    (∀ d ∈ dirs, ∀ va pp,
      (∃ p, s.pageLookup d va = .ok (some (pp, p))) ↔ ∃ perm, lastHit d va h = some (pp, perm)) ∧
    (∀ d ∈ dirs, ∀ va pp perm, lastHit d va h = some (pp, perm) →
      ∃ p, s.pageLookup d va = .ok (some (pp, p)) ∧ s.deref p = mkPte pp perm ∧
        s.deref p &&& flagMask = perm ||| pteV) ∧
    (∀ f, f ∉ dirs → (s.ppRef f).toNat =
      (if f ∈ kept then 1 else 0) + (pteRefs dirs s f + pdeRefs dirs s f)) ∧
    (s.pageFreeList.Nodup ∧
      ∀ f, f ∈ s.pageFreeList ↔ s.ppRef f = 0 ∧ ¬Waiting f h) ∧
    (∀ f s', s.pageAlloc = .ok (f, s') →
      f ∉ dirs ∧ pdeRefs dirs s f = 0 ∧ pteRefs dirs s f = 0) ∧
    (∀ d ∈ dirs, ∀ pp va perm e s', s.pageInsert d pp va perm = .ok (.error e, s') →
      e = .noMem ∧ s' = s) ∧
    (∀ d ∈ dirs, ∀ va, (∃ s', s.pageRemove d va = .ok s') ∧
      ∀ pp perm, ∃ r s', s.pageInsert d pp va perm = .ok (r, s')) := by
  have hH := histInv_of_run hrun
  refine ⟨?_, ?_, ?_, ⟨hH.inv.free_nodup, hH.acct.mem_free⟩, fun f s' ha =>
    hH.alloc_unmapped ha, fun d hd pp va perm e s' hr => pageInsert_error hH.inv hd hr,
    fun d hd va => hH.total hd va⟩
  · intro d hd va pp
    rcases hH.lookup hd va with ⟨hl, hr⟩ | ⟨qq, perm, p, hl, -, hr, -⟩
    · rw [hl, hr]
      simp
    · rw [hl, hr]
      simp
  · intro d hd va pp perm hl
    rcases hH.lookup hd va with ⟨hl', -⟩ | ⟨qq, perm', p, hl', hfl, hr, hw⟩
    · rw [hl'] at hl
      exact absurd hl (by simp)
    · rw [hl'] at hl
      obtain ⟨rfl, rfl⟩ := Prod.mk.inj (Option.some.inj hl)
      exact ⟨p, hr, hw, by rw [hw, mkPte_flags qq hfl]⟩
  · intro f hd
    rw [hH.count f, references]
    simp only [hd, false_or]
    omega

/-- One empty directory, two free frames, and a kernel that keeps the rest. -/
def twoFree : Pmap where
  ppRef f := if f = 1 ∨ f = 2 then 0 else 1
  pageFreeList := [1, 2]
  mem _ _ := 0#32

def twoFreeKept : Finset Frame := Finset.univ.filter fun f => f ≠ 0 ∧ f ≠ 1 ∧ f ≠ 2

theorem twoFree_start : Start {0} twoFreeKept twoFree := by
  have hzero : (0 : BitVec 16) ≠ 1 := by decide
  have h01 : (0 : Frame) ≠ 1 := by decide
  have h02 : (0 : Frame) ≠ 2 := by decide
  have hkept : ∀ f, f ∈ twoFreeKept ↔ f ≠ 0 ∧ f ≠ 1 ∧ f ≠ 2 := fun f => by
    simp [twoFreeKept]
  refine ⟨fun _ _ _ => rfl, ?_, ?_, by decide, ?_⟩
  · intro f hf
    rw [Finset.mem_singleton, hkept] at hf
    have hne : ¬(f = 1 ∨ f = 2) := by
      rintro (rfl | rfl)
      · exact hf.elim (fun h => h01 h.symm) fun h => h.2.1 rfl
      · exact hf.elim (fun h => h02 h.symm) fun h => h.2.2 rfl
    exact if_neg hne
  · intro f hd hk
    rw [Finset.mem_singleton] at hd
    rw [hkept] at hk
    by_cases h1 : f = 1
    · exact if_pos (Or.inl h1)
    · exact if_pos (Or.inr (by by_contra h2; exact hk ⟨hd, h1, h2⟩))
  · intro f
    show f ∈ [1, 2] ↔ (if f = 1 ∨ f = 2 then (0 : BitVec 16) else 1) = 0
    by_cases hf : f = 1 ∨ f = 2
    · rw [if_pos hf]
      simpa using hf
    · rw [if_neg hf]
      simpa [Ne.symm hzero] using hf

theorem page_history_one :
    ∃ s p, Run (Start {0} twoFreeKept) (PageStep {0} twoFreeKept)
        [.insert 0 1 0x400000#32 (pteR ||| pteU) (.ok ()), .alloc (.ok 1)] s ∧
      s.pageLookup 0 0x400000#32 = .ok (some (1, p)) ∧
      s.deref p &&& flagMask = pteR ||| pteU ||| pteV := by
  have hbound : ∀ {h s}, HistInv {0} twoFreeKept h s →
      ∀ f, references {0} twoFreeKept s f ≤ 65535 := by
    intro h s hH f
    rw [← hH.count f]
    exact Nat.le_of_lt_succ (s.ppRef f).isLt
  have h0 := twoFree_start.histInv
  obtain ⟨s₁, ha⟩ : ∃ s₁, twoFree.pageAlloc = .ok (1, s₁) := ⟨_, rfl⟩
  obtain ⟨hI₁, hfree₁, href₁, -, -, -, hb, hr⟩ := h0.inv.alloc ha
  have hH₁ : HistInv {0} twoFreeKept [.alloc (.ok 1)] s₁ := by
    refine ⟨hI₁, h0.acct.alloc h0.inv.free_nodup hfree₁ href₁, ?_, h0.flags⟩
    intro d hd va
    rw [pteOf_alloc h0.inv (dir_private twoFreeKept hd) ha]
    exact h0.maps d hd va
  have hd : (0 : Frame) ∈ ({0} : Finset Frame) := Finset.mem_singleton_self 0
  have hfl : FlagOnly (pteR ||| pteU) := by unfold FlagOnly; decide
  have hpp : (1 : Frame) ∉ s₁.pageFreeList := by
    have hnd := h0.inv.free_nodup
    rw [hfree₁] at hnd
    exact (List.nodup_cons.mp hnd).1
  have hroom : (privateLayout {0} twoFreeKept).base 1 +
      s₁.refs (privateLayout {0} twoFreeKept) 1 < 65535 := by
    rw [← hI₁.count 1, href₁]
    decide
  rcases pageInsert_spec hI₁ (dir_private twoFreeKept hd)
    (counted_private 0 0x400000#32) hfl hpp fun _ => hroom with ⟨s₂, hr₂, hins⟩ | ⟨-, -, hnil⟩
  · have hb₂ : ∀ f, references {0} twoFreeKept s₂ f ≤ 65535 := by
      intro f
      have hc := hins.inv.count f
      rw [refs_private hins.inv.toForest] at hc
      have hlt := (s₂.ppRef f).isLt
      rw [hc] at hlt
      exact Nat.le_of_lt_succ hlt
    have hrun : Run (Start {0} twoFreeKept) (PageStep {0} twoFreeKept)
        [.insert 0 1 0x400000#32 (pteR ||| pteU) (.ok ()), .alloc (.ok 1)] s₂ :=
      ((Run.start twoFree_start).next ⟨.alloc ha, hbound hH₁⟩).next
        ⟨.insert hd hpp hfl hr₂, hb₂⟩
    obtain ⟨p, hlook, -, hflags⟩ := (page_history hrun).2.1 0 hd 0x400000#32 1 (pteR ||| pteU) rfl
    exact ⟨s₂, p, hrun, hlook, hflags⟩
  · rw [hnil] at hfree₁
    exact absurd hfree₁ (by decide)

end History

end Pmap
end RvMos
