/-
A new block for a file (`file_get_block` with allocation).

Where no spare block has old words in the cache, an index without a block gets a
block of zeros.  The index block that the index may need is a block of zeros as
well, so it holds no pointer but the new one.
-/
import RvMos.Fs.Create

namespace RvMos

open Lib

namespace Fs

open Sys

/-! ## Spare blocks -/

/-- A block that `alloc_block` may take. -/
def Server.Spare (s : Server) (c : Word) : Prop := 3 ≤ c.toNat ∧ c < s.nblk ∧ s.Free c

/-- The block that `alloc_block` takes. -/
def Server.Next (s : Server) (c : Word) : Prop :=
  s.Spare c ∧ ∀ c', s.Spare c' → c.toNat ≤ c'.toNat

/-- The block that `alloc_block` takes after block `c₁`. -/
def Server.NextAfter (s : Server) (c₁ c : Word) : Prop :=
  (s.Spare c ∧ c ≠ c₁) ∧ ∀ c', s.Spare c' → c' ≠ c₁ → c.toNat ≤ c'.toNat

/-- The spare blocks are no part of the bitmap, and those of `T` that are in the
cache are zero. -/
def Fresh (T : Word → Prop) (s : Server) : Prop :=
  ∀ c, s.Spare c → ¬s.BitmapBlock c ∧ (T c → s.Cached (blockVa c) → ∀ o, s.block c o = 0#32)

section Fresh

variable {T : Word → Prop} {s s' : Server} {c d : Word}

theorem Server.Spare.not_used (h : s.Spare c) : ¬s.Used c := fun hu => hu.2 h.2.2

theorem Server.Spare.blockOf (hm : Mounted s) (h : s.Spare c) : blockOf (blockVa c) = c :=
  (at_blockVa (lt_capacity hm h.2.1)).blockOf_eq

theorem Reads.spare_iff (h : Reads s s') (c : Word) : s'.Spare c ↔ s.Spare c := by
  unfold Server.Spare
  rw [h.nblk, h.free]

theorem Reads.next_iff (h : Reads s s') (c : Word) : s'.Next c ↔ s.Next c := by
  unfold Server.Next
  simp only [h.spare_iff]

theorem Fresh.of_reads (hm : Mounted s) (hf : Fresh T s) (h : Reads s s') : Fresh T s' := by
  intro c hc
  have hs := (h.spare_iff c).mp hc
  obtain ⟨hout, hz⟩ := hf c hs
  refine ⟨fun hb => hout ((h.bitmapBlock c).mp hb), fun hT hcc o => ?_⟩
  rw [h.block c o id]
  refine hz hT ((h.pages _ hcc).resolve_right ?_) o
  rw [hs.blockOf hm]
  exact hs.not_used

theorem Taken.nblk (h : Taken s s' c) : s'.nblk = s.nblk := by
  refine h.touches.nblk ?_
  rintro (hW | ⟨hc, -⟩)
  · exact not_allocWords_super hW
  · have h3 := h.range.1
    rw [← hc] at h3
    exact absurd h3 (by decide)

theorem Taken.bitmapBlock (h : Taken s s' c) (d : Word) : s'.BitmapBlock d ↔ s.BitmapBlock d := by
  unfold Server.BitmapBlock
  rw [h.nblk]

theorem Taken.spare_iff (h : Taken s s' c) : s'.Spare d ↔ s.Spare d ∧ d ≠ c := by
  unfold Server.Spare
  rw [h.nblk]
  refine ⟨fun ⟨h3, hlt, hfree⟩ => ?_, fun ⟨⟨h3, hlt, hf⟩, hne⟩ => ⟨h3, hlt, (h.bits d hlt).mpr ⟨hf, hne⟩⟩⟩
  obtain ⟨hf, hne⟩ := (h.bits d hlt).mp hfree
  exact ⟨⟨h3, hlt, hf⟩, hne⟩

theorem Taken.next (h : Taken s s' c) : s.Next c :=
  ⟨⟨h.range.1, h.range.2, h.free⟩, fun d hd => h.least d hd.1 hd.2.1 hd.2.2⟩

theorem Taken.used (h : Taken s s' c) (hd : s.Used d) : s'.Used d :=
  ⟨h.nblk.symm ▸ hd.1, fun hf => hd.2 ((h.bits d hd.1).mp hf).1⟩

/-- A block that is taken is outside the bitmap, and zero if it is one of `T`. -/
theorem Taken.zeros (hm : Mounted s) (hf : Fresh T s) (h : Taken s s' c) :
    ¬s.BitmapBlock c ∧ (T c → ∀ o, s'.block c o = 0#32) := by
  obtain ⟨hout, hz⟩ := hf c h.next.1
  refine ⟨hout, fun hT o => ?_⟩
  by_cases hc : s.Cached (blockVa c)
  · rw [h.touches.block c o, hz hT hc o]
    rintro ((hW | hW) | ⟨-, hn⟩)
    · exact hout hW
    · exact absurd (lt_capacity hm h.range.2) (not_lt.mpr hW)
    · exact hn hc
  · exact h.zero hc o

theorem Fresh.taken (hm : Mounted s) (hf : Fresh T s) (h : Taken s s' c) : Fresh T s' := by
  intro d hd
  obtain ⟨hs, hne⟩ := h.spare_iff.mp hd
  obtain ⟨hout, hz⟩ := hf d hs
  refine ⟨fun hb => hout ((h.bitmapBlock d).mp hb), fun hT hc o => ?_⟩
  rw [h.touches.block d o]
  · refine hz hT ((h.pages _ hc).resolve_right ?_) o
    rw [hs.blockOf hm]
    exact hne
  · rintro ((hW | hW) | ⟨he, -⟩)
    · exact hout hW
    · exact absurd (lt_capacity hm hs.2.1) (not_lt.mpr hW)
    · exact hne he

/-- A store outside the spare blocks and the bitmap keeps them fresh. -/
theorem Fresh.setWord {va b w : Word} {y : ℕ} (hm : Mounted s) (hf : Fresh T s) (hc : s.Cached va)
    (ha : At va b y) (hout : ¬s.BitmapBlock b) (hsp : ¬s.Spare b) (h8 : b = 1#32 → 8 ≤ y) :
    Fresh T (s.setWord va w) := by
  have ht : Touches (fun c o => c = b ∧ o.val = y / 4) s (s.setWord va w) :=
    touches_setWord hc ⟨ha.blockOf_eq, ha.wordIdx_val⟩
  have hn : (s.setWord va w).nblk = s.nblk := by
    refine ht.nblk ?_
    rintro ⟨hb, ho⟩
    have hy := h8 hb.symm
    have h1 : ((1 : Index).val) = 1 := rfl
    omega
  intro d hd
  have hs : s.Spare d := by
    obtain ⟨h3, hlt, hfree⟩ := hd
    rw [hn] at hlt
    refine ⟨h3, hlt, (free_setWord hc fun he => hout ?_).mp hfree⟩
    rw [← ha.blockOf_eq, ← he]
    exact bitmapBlock_of_at hm (inBitmap_of_lt hlt)
  obtain ⟨houtd, hz⟩ := hf d hs
  refine ⟨fun hb => houtd ?_, fun hT hcd o => ?_⟩
  · unfold Server.BitmapBlock at hb ⊢
    rw [hn] at hb
    exact hb
  · rw [ht.block d o fun he => hsp (he.1 ▸ hs)]
    exact hz hT (cached_setWord_iff.mp hcd) o

end Fresh

/-! ## Filling a slot -/

/-- The slot at byte `y` of block `b` has got block `c`. -/
structure Placed (T : Word → Prop) (s s' : Server) (va b : Word) (y : ℕ) (c : Word) : Prop where
  next : s.Next c
  outside : ¬s.BitmapBlock c
  touches : Touches (fun d o => s.AllocWords d o ∨ d = c ∨ (d = b ∧ o.val = y / 4)) s s'
  mounted : Mounted s'
  fresh : Fresh T s'
  slot : s'.view va = c
  zero : T c → ∀ o, s'.block c o = 0#32
  used : s'.Used c
  bits : ∀ d, d < s.nblk → (s'.Free d ↔ s.Free d ∧ d ≠ c)
  nblk : s'.nblk = s.nblk
  cached : s'.Cached (blockVa c)

section Placed

variable {T : Word → Prop} {s s' : Server} {va b c : Word} {y : ℕ} {E : Stop → Prop}

theorem not_spare_of (hu : b.toNat < 3 ∨ s.Used b) : ¬s.Spare b := fun h =>
  hu.elim (fun hlt => absurd h.1 (not_le.mpr hlt)) h.not_used

/-- The block of a slot in use is filled. -/
theorem Taken.placed (hm : Mounted s) (hf : Fresh T s) (hc : s.Cached va) (ha : At va b y)
    (hout : ¬s.BitmapBlock b) (hu : b.toNat < 3 ∨ s.Used b) (h8 : b = 1#32 → 8 ≤ y)
    (h : Taken s s' c) : Placed T s (s'.setWord va c) va b y c := by
  have hs := h.next.1
  have hzero := h.zeros hm hf
  have hbc : b ≠ c := fun he => not_spare_of hu (he ▸ hs)
  have hc' : s'.Cached va := h.touches.cached va hc
  have hm' := h.mounted hm
  have hout' : ¬s'.BitmapBlock b := fun hb => hout ((h.bitmapBlock b).mp hb)
  have hsp' : ¬s'.Spare b := fun hb => not_spare_of hu (h.spare_iff.mp hb).1
  have hw : Touches (fun d o => d = b ∧ o.val = y / 4) s' (s'.setWord va c) :=
    touches_setWord hc' ⟨ha.blockOf_eq, ha.wordIdx_val⟩
  have hsuper : ¬((1#32 : Word) = b ∧ (1 : Index).val = y / 4) := by
    rintro ⟨hb, ho⟩
    have hy := h8 hb.symm
    have h1 : ((1 : Index).val) = 1 := rfl
    omega
  have hn : (s'.setWord va c).nblk = s.nblk := (hw.nblk hsuper).trans h.nblk
  have hfree : ∀ d, d < s.nblk → ((s'.setWord va c).Free d ↔ s.Free d ∧ d ≠ c) := fun d hd => by
    rw [← h.bits d hd]
    refine free_setWord hc' fun he => hout' ?_
    rw [← ha.blockOf_eq, ← he]
    exact bitmapBlock_of_at hm' (inBitmap_of_lt (h.nblk.symm ▸ hd))
  refine ⟨h.next, hzero.1, trans_of (Touches _) (h.touches.mono fun d o hW => ?_) (hw.mono fun d o hW => .inr (.inr hW)),
    hw.mounted hsuper hm', (hf.taken hm h).setWord hm' hc' ha hout' hsp' h8, ?_, fun hT o => ?_, ⟨?_, fun hfr => ?_⟩,
    hfree, hn, cached_setWord h.cached⟩
  · exact hW.imp_right fun he => .inl he.1
  · rw [view_setWord hc', if_pos ⟨rfl, rfl⟩]
  · rw [hw.block c o fun he => hbc he.1.symm]
    exact hzero.2 hT o
  · rw [hn]
    exact hs.2.1
  · exact ((hfree c hs.2.1).mp hfr).2 rfl

theorem wp_fillSlot_place {Q : Except Err Unit → Server → Prop} (hm : Mounted s) (hf : Fresh T s)
    (hc : s.Cached va) (ha : At va b y) (hout : ¬s.BitmapBlock b) (hu : b.toNat < 3 ∨ s.Used b)
    (h8 : b = 1#32 → 8 ≤ y) (h0 : s.view va = 0#32)
    (herr : ∀ e s', Q (.error e) s') (hok : ∀ c s', Placed T s s' va b y c → Q (.ok ()) s') :
    (fillSlot va true).wp Q E s :=
  wp_fillSlot_alloc hm hc (fun hne => absurd h0 hne) (fun e s' _ => herr e s') fun _ c _ h =>
    hok c _ (h.placed hm hf hc ha hout hu h8)

end Placed

/-! ## Growing a file -/

/-- The words that a new block of a file changes. -/
def Server.GrowWords (s : Server) (f b : Word) (x : ℕ) (d : Word) (o : Index) : Prop :=
  s.AllocWords d o ∨ s.Spare d ∨ (d = b ∧ x + 136 ≤ 4 * o.val ∧ 4 * o.val < x + 180) ∨
    (d = s.view (fIndirect f) ∧ s.view (fIndirect f) ≠ 0#32)

/-- The file has got block `c` at index `n`. -/
structure Grown (s s' : Server) (f b : Word) (x n : ℕ) (c : Word) : Prop where
  spare : s.Spare c
  touches : Touches (s.GrowWords f b x) s s'
  new : s'.ptr f n = c
  kept : ∀ i < 1024, i ≠ n → s'.ptr f i = s.ptr f i
  zero : ∀ o, s'.block c o = 0#32
  cached : s'.Cached (blockVa c)
  index : (s'.view (fIndirect f)).toNat < 262144 ∧ s'.view (fIndirect f) ≠ c
  outside : ¬s.BitmapBlock c
  used : ∀ d, s.Used d → s'.Used d

/-- The blocks that are taken where index `n` of a file gets a block. -/
def Server.Takes (s : Server) (f : Word) (n : ℕ) (c : Word) : Prop :=
  s.Next c ∨ (¬s.HasSlot f n ∧ ∃ c₁, s.Next c₁ ∧ s.NextAfter c₁ c)

/-- The index block of a file, if it has one, is apart from its record. -/
def IndexApart (s : Server) (f b : Word) : Prop :=
  s.view (fIndirect f) ≠ 0#32 → s.Used (s.view (fIndirect f)) ∧
    ¬s.BitmapBlock (s.view (fIndirect f)) ∧ s.view (fIndirect f) ≠ b

section Grown

variable {T : Word → Prop} {s s₁ s' t : Server} {f b c : Word} {x n i : ℕ}

theorem IndexApart.index_lt (hm : Mounted s) (h : IndexApart s f b) :
    (s.view (fIndirect f)).toNat < 262144 := by
  by_cases h0 : s.view (fIndirect f) = 0#32
  · rw [h0]
    decide
  · exact lt_capacity hm (h h0).1.1

/-- The block of a slot is outside the bitmap and in use. -/
theorem IndexApart.slotBlock (h : IndexApart s f b) (hout : ¬s.BitmapBlock b)
    (hu : b.toNat < 3 ∨ s.Used b) (hi : s.HasSlot f i) :
    ¬s.BitmapBlock (s.slotBlock f b i) ∧
      ((s.slotBlock f b i).toNat < 3 ∨ s.Used (s.slotBlock f b i)) := by
  unfold Server.slotBlock
  by_cases h10 : i < 10
  · rw [if_pos h10]
    exact ⟨hout, hu⟩
  · rw [if_neg h10]
    obtain ⟨hused, ho, -⟩ := h (hi.resolve_left h10)
    exact ⟨ho, .inr hused⟩

theorem Placed.of_reads {va : Word} {y : ℕ} (hr : Reads s s₁) (h : Placed T s₁ s' va b y c) :
    Placed T s s' va b y c := by
  refine ⟨(hr.next_iff c).mp h.next, fun hb => h.outside ((hr.bitmapBlock c).mpr hb),
    trans_of (Touches _) hr.touches (h.touches.mono fun d o hW => ?_), h.mounted, h.fresh, h.slot,
    h.zero, h.used, fun d hd => ?_, h.nblk.trans hr.nblk, h.cached⟩
  · exact hW.imp_left fun hA => hA.imp_left (hr.bitmapBlock d).mp
  · rw [h.bits d (hr.nblk.symm ▸ hd), hr.free]

/-- A place outside the spare blocks and the bitmap that is not the slot keeps its word. -/
theorem Placed.view {va bv : Word} {y y' : ℕ} {va' b' : Word} (h : Placed T s s' va bv y c)
    (ha : At va' b' y') (hout : ¬s.BitmapBlock b') (hu : b'.toNat < 3 ∨ s.Used b')
    (hne : b' = bv → y' / 4 ≠ y / 4) : s'.view va' = s.view va' := by
  refine h.touches.view fun hW => ?_
  rw [ha.blockOf_eq, ha.wordIdx_val] at hW
  rcases hW with (hW | hW) | rfl | ⟨hb, hy⟩
  · exact hout hW
  · exact absurd ha.block (not_lt.mpr hW)
  · exact not_spare_of hu h.next.1
  · exact hne hb hy

theorem Grown.then_reads (h : Grown s s' f b x n c) (hr : Reads s' t) : Grown s t f b x n c := by
  have hptr := ptr_congr (funext hr.view)
  refine ⟨h.spare, trans_of (Touches _) h.touches hr.touches, ?_, fun i hi hin => ?_, fun o => ?_,
    hr.cached _ h.cached, hr.view _ ▸ h.index, h.outside,
    fun d hd => (hr.toTouches.used_iff d).mpr (h.used d hd)⟩
  · rw [hptr]
    exact h.new
  · rw [hptr]
    exact h.kept i hi hin
  · rw [hr.block c o id]
    exact h.zero o

theorem Placed.bitmapBlock {va bv : Word} {y : ℕ} (h : Placed T s s' va bv y c) (d : Word) :
    s'.BitmapBlock d ↔ s.BitmapBlock d := by
  unfold Server.BitmapBlock
  rw [h.nblk]

theorem Placed.spare_iff {va bv d : Word} {y : ℕ} (h : Placed T s s' va bv y c) :
    s'.Spare d ↔ s.Spare d ∧ d ≠ c := by
  unfold Server.Spare
  rw [h.nblk]
  refine ⟨fun ⟨h3, hlt, hfree⟩ => ?_, fun ⟨⟨h3, hlt, hf⟩, hne⟩ => ⟨h3, hlt, (h.bits d hlt).mpr ⟨hf, hne⟩⟩⟩
  obtain ⟨hf, hne⟩ := (h.bits d hlt).mp hfree
  exact ⟨⟨h3, hlt, hf⟩, hne⟩

theorem Placed.nextAfter {va bv d : Word} {y : ℕ} (h : Placed T s s' va bv y c) (hd : s'.Next d) :
    s.NextAfter c d :=
  ⟨h.spare_iff.mp hd.1, fun d' hd' hne => hd.2 d' (h.spare_iff.mpr ⟨hd', hne⟩)⟩

theorem Placed.keeps {va bv d : Word} {y : ℕ} (h : Placed T s s' va bv y c) (hd : s.Used d) :
    s'.Used d := ⟨h.nblk.symm ▸ hd.1, fun hf => hd.2 ((h.bits d hd.1).mp hf).1⟩

theorem Placed.used_of {va bv d : Word} {y : ℕ} (h : Placed T s s' va bv y c)
    (hu : d.toNat < 3 ∨ s.Used d) : d.toNat < 3 ∨ s'.Used d := hu.imp_right h.keeps

/-- Only the new block is in use that was not, and its page is there. -/
theorem Placed.starved {va bv : Word} {y : ℕ} {k : Stop} (h : Placed T s s' va bv y c)
    (hk : Starved s' k) : Starved s k := by
  refine hk.back h.touches fun d hd => ?_
  have hlt : d < s.nblk := h.nblk ▸ hd.1
  by_cases he : d = c
  · rw [he]
    exact .inr h.cached
  · exact .inl ⟨hlt, fun hf => hd.2 ((h.bits d hlt).mpr ⟨hf, he⟩)⟩

/-- The slot was there: the new block is the only change to the pointers. -/
theorem Placed.grown (hm : Mounted s) (hr : Record s f b x) (hout : ¬s.BitmapBlock b)
    (hu : b.toNat < 3 ∨ s.Used b) (hind : IndexApart s f b) (hn : n < 1024) (hhas : s.HasSlot f n)
    (h : Placed T s s' (s.slot f n) (s.slotBlock f b n) (slotByte x n) c) (hT : T c) :
    Grown s s' f b x n c := by
  have hx := hr.aligned
  have hlt := hind.index_lt hm
  have hne : s.view (fIndirect f) ≠ 0#32 → s.view (fIndirect f) ≠ b := fun h0 => (hind h0).2.2
  have hindirect : s'.view (fIndirect f) = s.view (fIndirect f) := by
    refine h.view (hr.at_field (n := 176) (by omega)) hout hu fun hb => ?_
    unfold Server.slotBlock at hb
    unfold slotByte
    by_cases h10 : n < 10
    · rw [if_pos h10]
      omega
    · rw [if_neg h10] at hb
      exact absurd hb.symm (hne (hhas.resolve_left h10))
  have hslot : ∀ i, s'.slot f i = s.slot f i := fun i => by
    unfold Server.slot
    rw [hindirect]
  refine ⟨h.next.1, h.touches.mono fun d o hW => ?_, ?_, fun i hi hin => ?_, h.zero hT, h.cached,
    ⟨hindirect.symm ▸ hlt, fun he => ?_⟩, h.outside, fun _ => h.keeps⟩
  · rcases hW with hW | rfl | ⟨rfl, ho⟩
    · exact .inl hW
    · exact .inr (.inl h.next.1)
    · unfold Server.slotBlock
      unfold slotByte at ho
      by_cases h10 : n < 10
      · rw [if_pos h10] at ho ⊢
        exact .inr (.inr (.inl ⟨rfl, by omega⟩))
      · rw [if_neg h10]
        exact .inr (.inr (.inr ⟨rfl, hhas.resolve_left h10⟩))
  · rw [ptr_eq_view ((hasSlot_congr hindirect).mpr hhas), hslot]
    exact h.slot
  · by_cases hhasi : s.HasSlot f i
    · rw [ptr_eq_view ((hasSlot_congr hindirect).mpr hhasi), ptr_eq_view hhasi, hslot]
      obtain ⟨ho, hub⟩ := hind.slotBlock hout hu hhasi
      exact h.view (at_slot hr hlt hi) ho hub (slot_ne hx hne hhasi hhas hin)
    · rw [ptr_eq_zero ((not_congr (hasSlot_congr hindirect)).mpr hhasi), ptr_eq_zero hhasi]
  · rw [hindirect] at he
    have h3 := h.next.1.1
    by_cases h0 : s.view (fIndirect f) = 0#32
    · rw [← he, h0] at h3
      exact absurd h3 (by decide)
    · exact h.next.1.not_used (he ▸ (hind h0).1)

/-- The index block was missing: it holds the new pointer only. -/
theorem Placed.grown_index {c₁ : Word} (hm : Mounted s) (hr : Record s f b x) (hout : ¬s.BitmapBlock b)
    (hu : b.toNat < 3 ∨ s.Used b) (hhas : ¬s.HasSlot f n)
    (h₁ : Placed T s s₁ (fIndirect f) b (x + 176) c₁)
    (h : Placed T s₁ s' (blockVa c₁ + BitVec.ofNat 32 (4 * n)) c₁ (4 * n) c) (hT₁ : T c₁) (hT : T c) :
    Grown s s' f b x n c := by
  have hx := hr.aligned
  obtain ⟨h10, hi0⟩ := not_or.mp hhas
  have hbc : b ≠ c₁ := fun he => not_spare_of hu (he ▸ h₁.next.1)
  have hout₁ : ¬s₁.BitmapBlock b := fun hb => hout ((h₁.bitmapBlock b).mp hb)
  have hind : s'.view (fIndirect f) = c₁ :=
    (h.view (hr.at_field (n := 176) (by omega)) hout₁ (h₁.used_of hu) fun he => absurd he hbc).trans h₁.slot
  have hne0 : c₁ ≠ 0#32 := fun h0 => by
    have h3 := h₁.next.1.1
    rw [h0] at h3
    exact absurd h3 (by decide)
  have hcap := lt_capacity hm h₁.next.1.2.1
  have hindex : ∀ i, ¬i < 10 → s'.ptr f i = s'.view (blockVa c₁ + BitVec.ofNat 32 (4 * i)) :=
    fun i hi => by
      unfold Server.ptr
      rw [if_neg hi, hind, if_neg hne0]
  have hspare : s.Spare c := (h₁.spare_iff.mp h.next.1).1
  refine ⟨hspare, ?_, ?_, fun i hi hin => ?_, h.zero hT, h.cached,
    hind.symm ▸ ⟨hcap, (h₁.nextAfter h.next).1.2.symm⟩, fun hb => h.outside ((h₁.bitmapBlock c).mpr hb), fun d hd => h.keeps (h₁.keeps hd)⟩
  · refine trans_of (Touches _) (h₁.touches.mono fun d o hW => ?_) (h.touches.mono fun d o hW => ?_)
    · rcases hW with hW | rfl | ⟨rfl, ho⟩
      · exact .inl hW
      · exact .inr (.inl h₁.next.1)
      · exact .inr (.inr (.inl ⟨rfl, by omega, by omega⟩))
    · rcases hW with hW | rfl | ⟨rfl, -⟩
      · exact .inl (hW.imp_left (h₁.bitmapBlock d).mp)
      · exact .inr (.inl hspare)
      · exact .inr (.inl h₁.next.1)
  · rw [hindex n h10]
    exact h.slot
  · by_cases hi10 : i < 10
    · have hptr : ∀ t : Server, t.ptr f i = t.view (f + BitVec.ofNat 32 (136 + 4 * i)) := fun t => by
        unfold Server.ptr
        rw [if_pos hi10, fDirect_eq]
      have hat := hr.at_field (n := 136 + 4 * i) (by omega)
      rw [hptr, hptr, h.view hat hout₁ (h₁.used_of hu) fun he => absurd he hbc]
      exact h₁.view hat hout hu fun _ => by omega
    · have hzero : s.ptr f i = 0#32 := ptr_eq_zero (not_or.mpr ⟨hi10, hi0⟩)
      have hat := (at_blockVa hcap).add (n := 4 * i) (by omega)
      rw [Nat.zero_add] at hat
      rw [hindex i hi10, hzero, h.view hat (fun hb => h₁.outside ((h₁.bitmapBlock c₁).mp hb)) (.inr h₁.used)
        fun _ => by omega]
      unfold Server.view
      rw [hat.blockOf_eq]
      exact h₁.zero hT₁ _

/-- Once the slot has its block, the block is read. -/
theorem wp_readSlot {Q : Except Err Word → Server → Prop} {E : Stop → Prop} {va bv : Word} {y : ℕ}
    (h : Placed T s₁ s' va bv y c) (hc : s'.Cached va)
    (hQ : ∀ t, Reads s' t → t.Cached (blockVa c) → Q (.ok (blockVa c)) t)
    (hE : ∀ k, Starved s₁ k → E k) : (do readBlock (← load va) : Proc Word).wp Q E s' := by
  rw [wp_bind]
  refine wp_load hc ?_
  simp only
  rw [h.slot]
  exact wp_readBlock h.mounted h.used.1 h.used.2 hQ fun k hk => hE k (h.starved hk)

/-- An index without a block gets one.  The file has grown by a new block where the
blocks that are taken have no old words; an index block needs to have none. -/
theorem wp_fileGetBlock_place {E : Stop → Prop} (hm : Mounted s) (hr : Record s f b x)
    (hout : ¬s.BitmapBlock b) (hu : b.toNat < 3 ∨ s.Used b) (hf : Fresh T s) (hind : IndexApart s f b)
    (hn : n < 1024) (hp : s.ptr f n = 0#32) (hidx : ¬s.HasSlot f n → ∀ c, s.Next c → T c)
    (hE : ∀ k, Starved s k → E k) : (fileGetBlock f (BitVec.ofNat 32 n)).wp
      (fun r t => ∀ v, r = .ok v → ∃ c, v = blockVa c ∧ c.toNat < 262144 ∧ t.Cached (blockVa c) ∧
        ((∀ d, s.Takes f n d → T d) → Grown s t f b x n c)) E s := by
  unfold fileGetBlock fileMapBlock
  rw [wp_bind, wp_bind]
  by_cases hhas : s.HasSlot f n
  · refine wp_fileBlockWalk hm hr hn hhas (fun h10 => (hind (hhas.resolve_left h10)).1)
      (fun s₁ hrd hc hat => ?_) hE
    obtain ⟨ho, hub⟩ := hind.slotBlock hout hu hhas
    simp only
    rw [wp_bind]
    refine wp_fillSlot_place (hrd.mounted id hm) (hf.of_reads hm hrd) hc
      (b := s.slotBlock f b n) (y := slotByte x n) hat (fun hb => ho ((hrd.bitmapBlock _).mp hb))
      (hub.imp_right (hrd.toTouches.used_iff _).mpr) (fun _ => le_slotByte x n) ?_ (by simp)
      fun c u hpl => wp_bind.mp (wp_readSlot hpl (hpl.touches.cached _ hc) (fun t ht hct v hv => ?_)
        fun k hk => hE k (hk.of_reads hrd))
    · rw [hrd.view, ← ptr_eq_view hhas]
      exact hp
    · have hpl' := hpl.of_reads hrd
      refine ⟨c, (Except.ok.inj hv).symm, lt_capacity hm hpl'.next.1.2.1, hct, fun hT => ?_⟩
      exact (hpl'.grown hm hr hout hu hind hn hhas (hT c (.inl hpl'.next))).then_reads ht
  · obtain ⟨h10, hi0⟩ := not_or.mp hhas
    have hci : s.Cached (fIndirect f) := hr.cached_field (n := 176) (by omega)
    unfold fileBlockWalk
    rw [if_neg (not_lt_ndirect hn h10), if_pos (lt_nindirect hn), wp_bind]
    refine wp_fillSlot_place hm hf hci (hr.at_field (n := 176) (by omega)) hout hu (by omega)
      (not_not.mp hi0) (by simp) fun c₁ s₁ h₁ => ?_
    have hT₁ := hidx hhas c₁ h₁.next
    simp only
    rw [wp_bind]
    refine wp_load (h₁.touches.cached _ hci) ?_
    simp only
    rw [h₁.slot, wp_bind]
    refine wp_readBlock h₁.mounted h₁.used.1 h₁.used.2 (fun s₂ hrd hc => wp_pure.mpr ?_)
      fun k hk => hE k (h₁.starved hk)
    have hat := (at_blockVa (lt_capacity hm h₁.next.1.2.1)).add (n := 4 * n) (by omega)
    rw [Nat.zero_add] at hat
    have hcv : s₂.Cached (blockVa c₁ + BitVec.ofNat 32 (4 * n)) :=
      hc.of_vpn (hat.vpn_eq.trans (at_blockVa hat.block).vpn_eq.symm)
    rw [mul_ofNat]
    simp only
    rw [wp_bind]
    refine wp_fillSlot_place (hrd.mounted id h₁.mounted) (h₁.fresh.of_reads h₁.mounted hrd) hcv hat
      (fun hb => h₁.outside ((h₁.bitmapBlock c₁).mp ((hrd.bitmapBlock c₁).mp hb)))
      (.inr ((hrd.toTouches.used_iff c₁).mpr h₁.used)) (fun h1 => ?_) ?_ (by simp)
      fun c u hpl => wp_bind.mp (wp_readSlot hpl (hpl.touches.cached _ hcv) (fun t ht hct v hv => ?_)
        fun k hk => hE k (h₁.starved (hk.of_reads hrd)))
    · have h3 := h₁.next.1.1
      rw [h1] at h3
      exact absurd h3 (by decide)
    · rw [hrd.view]
      unfold Server.view
      rw [hat.blockOf_eq]
      exact h₁.zero hT₁ _
    · have hpl' := hpl.of_reads hrd
      have hspare := (h₁.nextAfter hpl'.next)
      refine ⟨c, (Except.ok.inj hv).symm, lt_capacity hm hspare.1.1.2.1, hct, fun hT => ?_⟩
      have hTc := hT c (.inr ⟨hhas, c₁, h₁.next, hspare⟩)
      exact (h₁.grown_index hm hr hout hu hhas hpl' hT₁ hTc).then_reads ht

end Grown

end Fs
end RvMos
