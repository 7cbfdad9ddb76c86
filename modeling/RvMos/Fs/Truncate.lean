/-
Cutting a file off (`file_truncate`).

A slot that is emptied gives its block back: the block's bit is set, the slot is 0
and every other word is as before.  The loop of `file_truncate` does this for one
index after the other, and what is left to find for `file_map_block` depends on the
place of the cut only.
-/
import RvMos.Fs.Slots

namespace RvMos

open Lib

namespace Fs

open Sys

/-! ## Emptying a slot -/

/-- The slot at byte `y` of block `b` has given its block back. -/
structure Emptied (s s' : Server) (va b : Word) (y : ℕ) : Prop where
  touches : Touches (fun c o => s.BitmapBlock c ∨ (c = b ∧ o.val = y / 4)) s s'
  slot : s'.view va = 0#32
  free : ∀ c, s.InBitmap c → (s'.Free c ↔ s.Free c ∨ (c = s.view va ∧ c ≠ 0#32))

section Emptied

variable {s s₁ s' : Server} {va va' b b' : Word} {y y' : ℕ}

theorem Emptied.of_reads (hr : Reads s s₁) (h : Emptied s₁ s' va b y) : Emptied s s' va b y := by
  refine ⟨trans_of (Touches _) hr.touches (h.touches.mono fun c o hc => ?_), h.slot, fun c hc => ?_⟩
  · exact hc.imp_left (hr.bitmapBlock c).mp
  · rw [h.free c ((hr.inBitmap c).mpr hc), hr.free, hr.view]

/-- Words of other slots outside the bitmap are as before. -/
theorem Emptied.view_other (h : Emptied s s' va b y) (ha : At va' b' y') (hb : ¬s.BitmapBlock b')
    (hne : b' = b → y' / 4 ≠ y / 4) : s'.view va' = s.view va' := by
  refine h.touches.view fun hW => ?_
  rw [ha.blockOf_eq, ha.wordIdx_val] at hW
  rcases hW with hW | ⟨rfl, hW⟩
  · exact hb hW
  · exact hne rfl hW

/-- Neither the bitmap nor a slot behind the head of block 1 has the number of blocks. -/
theorem not_emptied_super (hhead : b = 1#32 → 8 ≤ y) :
    ¬(s.BitmapBlock 1#32 ∨ (1#32 = b ∧ (1 : Index).val = y / 4)) := by
  rintro (hW | ⟨hb, hy⟩)
  · have h1 : (1#32 : Word).toNat = 1 := rfl
    unfold Server.BitmapBlock at hW
    omega
  · have hy' := hhead hb.symm
    have h1 : ((1 : Index).val) = 1 := rfl
    omega

theorem Emptied.mounted (h : Emptied s s' va b y) (hm : Mounted s) (hhead : b = 1#32 → 8 ≤ y) :
    Mounted s' := h.touches.mounted (not_emptied_super hhead) hm

theorem Emptied.nblk (h : Emptied s s' va b y) (hhead : b = 1#32 → 8 ≤ y) : s'.nblk = s.nblk :=
  h.touches.nblk (not_emptied_super hhead)

/-- A store outside the word of a bit leaves the bit. -/
theorem free_setWord {c w : Word} (hc : s.Cached va) (hne : blockOf (bitWordVa c) ≠ blockOf va) :
    (s.setWord va w).Free c ↔ s.Free c := by
  unfold Server.Free
  rw [view_setWord hc, if_neg fun he => hne he.1]

/-- `emptySlot` of a slot outside the bitmap. -/
theorem wp_emptySlot {Q : Except Err Unit → Server → Prop} {E : Stop → Prop} (hm : Mounted s)
    (ha : At va b y) (hc : s.Cached va) (hb : ¬s.BitmapBlock b)
    (hlt : s.view va ≠ 0#32 → s.view va < s.nblk)
    (hQ : ∀ s', Emptied s s' va b y → Q (.ok ()) s') : (emptySlot va).wp Q E s := by
  unfold emptySlot
  rw [wp_bind]
  refine wp_load hc ?_
  simp only
  rw [wp_when]
  refine ⟨fun hne => ?_, fun h0 => hQ s ⟨refl_of (Touches _) s, not_not.mp h0, fun c _ => ?_⟩⟩
  · have hbit := hlt hne
    have hcb := hm.bits _ hbit
    have hin := inBitmap_of_lt hbit
    have hblk := bitmapBlock_of_at hm hin
    rw [wp_bind]
    refine wp_freeBlock hm hne hbit ?_
    refine wp_store (cached_setWord hc) (hQ _ ⟨?_, ?_, fun c hic => ?_⟩)
    · refine trans_of (Touches _) (touches_setWord hcb (.inl hblk))
        (touches_setWord (cached_setWord hc) (.inr ⟨ha.blockOf_eq, ha.wordIdx_val⟩))
    · rw [view_setWord (cached_setWord hc), if_pos ⟨rfl, rfl⟩]
    · have hfree := free_setBit hm hbit hic
      have hother : blockOf (bitWordVa c) ≠ blockOf va := fun he =>
        hb (ha.blockOf_eq ▸ he ▸ bitmapBlock_of_at hm hic)
      rw [← or_congr_right (and_iff_left_of_imp fun he : c = s.view va => he ▸ hne)] at hfree
      rw [← hfree]
      exact free_setWord (cached_setWord hc) hother
  · refine ⟨.inl, fun h => h.resolve_right ?_⟩
    rintro ⟨rfl, hne⟩
    exact h0 hne

end Emptied

/-! ## The slots of a file -/

/-- The block that a slot is in. -/
def Server.slotBlock (s : Server) (f b : Word) (n : ℕ) : Word :=
  if n < 10 then b else s.view (fIndirect f)

/-- The place of a slot in its block. -/
def slotByte (x n : ℕ) : ℕ := if n < 10 then x + 136 + 4 * n else 4 * n

/-- The block pointers of a file are distinct, not below 3 and in use. -/
structure Pointed (s : Server) (f : Word) : Prop where
  index : s.view (fIndirect f) ≠ 0#32 →
    3 ≤ (s.view (fIndirect f)).toNat ∧ s.Used (s.view (fIndirect f))
  data : ∀ i < 1024, s.ptr f i ≠ 0#32 → 3 ≤ (s.ptr f i).toNat ∧ s.Used (s.ptr f i)
  distinct : ∀ i < 1024, ∀ j < 1024, s.ptr f i ≠ 0#32 → s.ptr f i = s.ptr f j → i = j
  distinctIndex : ∀ i < 1024, s.ptr f i ≠ 0#32 → s.ptr f i ≠ s.view (fIndirect f)

/-- No pointer is left at or after the place where the size ends. -/
def Server.EndsAt (s : Server) (f : Word) : Prop :=
  ∀ i < 1024, (s.view (fSize f)).toNat / 4096 + 1 ≤ i → s.ptr f i = 0#32

/-- Neither the record nor the index block of the file is part of the bitmap, and
they are different blocks. -/
structure Held (s : Server) (f b : Word) (x : ℕ) : Prop extends Pointed s f where
  record : Record s f b x
  outside : ¬s.BitmapBlock b
  indexOutside : s.view (fIndirect f) ≠ 0#32 →
    ¬s.BitmapBlock (s.view (fIndirect f)) ∧ s.view (fIndirect f) ≠ b

/-- A file without pointers after its size. -/
structure Sound (s : Server) (f b : Word) (x : ℕ) : Prop extends Held s f b x where
  ends : s.EndsAt f

section Slots

variable {s s' : Server} {f b : Word} {x i j : ℕ}

theorem Held.index_lt (hm : Mounted s) (hf : Held s f b x) :
    (s.view (fIndirect f)).toNat < 262144 := by
  by_cases h0 : s.view (fIndirect f) = 0#32
  · rw [h0]
    decide
  · exact lt_capacity hm (hf.index h0).2.1

theorem at_slot (hf : Record s f b x) (hi : (s.view (fIndirect f)).toNat < 262144) (hn : i < 1024) :
    At (s.slot f i) (s.slotBlock f b i) (slotByte x i) := by
  have hx := hf.room
  unfold Server.slot Server.slotBlock slotByte
  by_cases h10 : i < 10
  · rw [if_pos h10, if_pos h10, if_pos h10, fDirect_eq, Nat.add_assoc]
    exact hf.at_field (by omega)
  · rw [if_neg h10, if_neg h10, if_neg h10]
    have hat := (at_blockVa hi).add (n := 4 * i) (by omega)
    rw [Nat.zero_add] at hat
    exact hat

theorem Held.slot_outside (hf : Held s f b x) (h : s.HasSlot f i) :
    ¬s.BitmapBlock (s.slotBlock f b i) := by
  unfold Server.slotBlock
  by_cases h10 : i < 10
  · rw [if_pos h10]
    exact hf.outside
  · rw [if_neg h10]
    exact (hf.indexOutside (h.resolve_left h10)).1

theorem le_slotByte (x i : ℕ) : 8 ≤ slotByte x i := by
  unfold slotByte
  by_cases h10 : i < 10
  · rw [if_pos h10]
    omega
  · rw [if_neg h10]
    omega

/-- Two slots are different words. -/
theorem slot_ne (hx : x % 4 = 0) (hne : s.view (fIndirect f) ≠ 0#32 → s.view (fIndirect f) ≠ b)
    (hi : s.HasSlot f i) (hj : s.HasSlot f j) (hij : i ≠ j)
    (hb : s.slotBlock f b i = s.slotBlock f b j) : slotByte x i / 4 ≠ slotByte x j / 4 := by
  unfold Server.slotBlock at hb
  unfold slotByte
  by_cases hi10 : i < 10
  · by_cases hj10 : j < 10
    · rw [if_pos hi10, if_pos hj10]
      omega
    · rw [if_pos hi10, if_neg hj10] at hb
      exact absurd hb.symm (hne (hj.resolve_left hj10))
  · by_cases hj10 : j < 10
    · rw [if_neg hi10, if_pos hj10] at hb
      exact absurd hb (hne (hi.resolve_left hi10))
    · rw [if_neg hi10, if_neg hj10]
      omega

/-- The words that giving blocks of a file back may change. -/
def Server.SlotWords (s : Server) (f b : Word) (x : ℕ) (c : Word) (o : Index) : Prop :=
  s.BitmapBlock c ∨ ∃ i < 1024, s.HasSlot f i ∧ c = s.slotBlock f b i ∧ o.val = slotByte x i / 4

theorem not_slotWords_super : ¬s.SlotWords f b x 1#32 1 := by
  have h1 : (1#32 : Word).toNat = 1 := rfl
  have h2 : ((1 : Index).val) = 1 := rfl
  rintro (hW | ⟨i, _, _, _, ho⟩)
  · unfold Server.BitmapBlock at hW
    omega
  · have h8 := le_slotByte x i
    omega

/-- The words of the record outside the slots stay. -/
theorem Held.view_field {n : ℕ} (hf : Held s f b x) (h : Touches (s.SlotWords f b x) s s')
    (hn : n < 256) (hout : n < 136 ∨ 176 ≤ n) :
    s'.view (f + BitVec.ofNat 32 n) = s.view (f + BitVec.ofNat 32 n) := by
  have hx := hf.record.aligned
  have hat := hf.record.at_field hn
  refine h.view fun hW => ?_
  rw [hat.blockOf_eq] at hW
  rcases hW with hW | ⟨i, _, hi, hb, ho⟩
  · exact hf.outside hW
  · rw [hat.wordIdx_val] at ho
    unfold Server.slotBlock at hb
    unfold slotByte at ho
    by_cases h10 : i < 10
    · rw [if_pos h10] at ho
      omega
    · rw [if_neg h10] at hb
      exact (hf.indexOutside (hi.resolve_left h10)).2 hb.symm

theorem Held.view_indirect (hf : Held s f b x) (h : Touches (s.SlotWords f b x) s s') :
    s'.view (fIndirect f) = s.view (fIndirect f) :=
  hf.view_field (n := 176) h (by omega) (by omega)

theorem hasSlot_congr (h : s'.view (fIndirect f) = s.view (fIndirect f)) :
    s'.HasSlot f i ↔ s.HasSlot f i := by
  unfold Server.HasSlot
  rw [h]

theorem slotWords_congr (hi : s'.view (fIndirect f) = s.view (fIndirect f))
    (hn : s'.nblk = s.nblk) : s'.SlotWords f b x = s.SlotWords f b x := by
  funext c o
  unfold Server.SlotWords Server.HasSlot Server.slotBlock Server.BitmapBlock
  rw [hi, hn]

end Slots

/-! ## Dropping blocks -/

/-- The blocks of a file at the indices in `D` have been given back. -/
structure Dropped (s s' : Server) (f b : Word) (x : ℕ) (D : ℕ → Prop) : Prop where
  touches : Touches (s.SlotWords f b x) s s'
  kept : ∀ i < 1024, ¬D i → s'.ptr f i = s.ptr f i
  gone : ∀ i < 1024, D i → s'.ptr f i = 0#32
  free : ∀ c, s.InBitmap c → (s'.Free c ↔ s.Free c ∨ (c ≠ 0#32 ∧ ∃ i < 1024, D i ∧ s.ptr f i = c))

section Dropped

variable {s s' t : Server} {f b : Word} {x i j : ℕ} {D D' : ℕ → Prop}

theorem Dropped.nblk (h : Dropped s s' f b x D) : s'.nblk = s.nblk :=
  h.touches.nblk not_slotWords_super

theorem Dropped.mounted (h : Dropped s s' f b x D) (hm : Mounted s) : Mounted s' :=
  h.touches.mounted not_slotWords_super hm

/-- There was nothing to drop. -/
theorem Dropped.refl (s : Server) (f b : Word) (x : ℕ) (hD : ∀ i < 1024, D i → s.ptr f i = 0#32) :
    Dropped s s f b x D := by
  refine ⟨refl_of (Touches _) s, fun _ _ _ => rfl, hD, fun c _ => ?_⟩
  refine ⟨.inl, fun h => h.resolve_right ?_⟩
  rintro ⟨h0, i, hi, hd, hp⟩
  exact h0 (hp.symm.trans (hD i hi hd))

theorem Dropped.congr (h : Dropped s s' f b x D) (hD : ∀ i < 1024, D i ↔ D' i) :
    Dropped s s' f b x D' := by
  refine ⟨h.touches, fun i hi hd => h.kept i hi ((not_congr (hD i hi)).mpr hd),
    fun i hi hd => h.gone i hi ((hD i hi).mpr hd), fun c hc => ?_⟩
  rw [h.free c hc]
  refine or_congr_right (and_congr_right fun _ => exists_congr fun i => ?_)
  exact and_congr_right fun hi => by rw [hD i hi]

/-- A block that a pointer names is in use after the drop if its index is not dropped. -/
theorem Dropped.used (h : Dropped s s' f b x D) {c : Word} (hc : s.Used c)
    (hne : ∀ i < 1024, D i → c ≠ 0#32 → s.ptr f i ≠ c) : s'.Used c := by
  refine ⟨h.nblk.symm ▸ hc.1, fun hfree => ?_⟩
  rcases (h.free c (inBitmap_of_lt hc.1)).mp hfree with hfree | ⟨h0, i, hi, hd, hp⟩
  · exact hc.2 hfree
  · exact hne i hi hd h0 hp

theorem Held.dropped (hf : Held s f b x) (h : Dropped s s' f b x D) : Held s' f b x := by
  have hind := hf.view_indirect h.touches
  have hbit : ∀ c, s'.BitmapBlock c ↔ s.BitmapBlock c := fun c => by
    unfold Server.BitmapBlock
    rw [h.nblk]
  have hptr : ∀ i < 1024, s'.ptr f i ≠ 0#32 → ¬D i ∧ s'.ptr f i = s.ptr f i := fun i hi hne => by
    have hd : ¬D i := fun hd => hne (h.gone i hi hd)
    exact ⟨hd, h.kept i hi hd⟩
  refine ⟨⟨fun hne => ?_, fun i hi hne => ?_, fun i hi j hj hne he => ?_, fun i hi hne => ?_⟩,
    hf.record.touches h.touches, fun hb => hf.outside ((hbit b).mp hb), fun hne => ?_⟩
  · rw [hind] at hne ⊢
    obtain ⟨h3, hu⟩ := hf.index hne
    refine ⟨h3, h.used hu fun i hi _ h0 hp => hf.distinctIndex i hi (hp.symm ▸ h0) hp⟩
  · obtain ⟨hd, hp⟩ := hptr i hi hne
    rw [hp] at hne ⊢
    obtain ⟨h3, hu⟩ := hf.data i hi hne
    refine ⟨h3, h.used hu fun j hj hdj h0 he => hd ?_⟩
    exact hf.distinct j hj i hi (he.symm ▸ h0) he ▸ hdj
  · obtain ⟨_, hp⟩ := hptr i hi hne
    obtain ⟨_, hp'⟩ := hptr j hj (he ▸ hne)
    exact hf.distinct i hi j hj (hp ▸ hne) (hp.symm.trans (he.trans hp'))
  · obtain ⟨_, hp⟩ := hptr i hi hne
    rw [hp] at hne ⊢
    rw [hind]
    exact hf.distinctIndex i hi hne
  · rw [hind] at hne ⊢
    rw [hbit]
    exact hf.indexOutside hne

theorem Dropped.trans (hf : Held s f b x) (h : Dropped s s' f b x D)
    (h' : Dropped s' t f b x D') : Dropped s t f b x fun i => D i ∨ D' i := by
  have hW := slotWords_congr (b := b) (x := x) (hf.view_indirect h.touches) h.nblk
  refine ⟨trans_of (Touches _) h.touches (hW ▸ h'.touches), fun i hi hn => ?_, fun i hi hd => ?_,
    fun c hc => ?_⟩
  · obtain ⟨hd, hd'⟩ := not_or.mp hn
    rw [h'.kept i hi hd', h.kept i hi hd]
  · by_cases hd' : D' i
    · exact h'.gone i hi hd'
    · rw [h'.kept i hi hd']
      exact h.gone i hi (hd.resolve_right hd')
  · have hc' : s'.InBitmap c := by
      unfold Server.InBitmap
      rw [h.nblk]
      exact hc
    rw [h'.free c hc', h.free c hc]
    refine ⟨?_, ?_⟩
    · rintro ((hfree | ⟨h0, i, hi, hd, hp⟩) | ⟨h0, i, hi, hd, hp⟩)
      · exact .inl hfree
      · exact .inr ⟨h0, i, hi, .inl hd, hp⟩
      · have hn : ¬D i := fun hD => h0 (hp.symm.trans (h.gone i hi hD))
        exact .inr ⟨h0, i, hi, .inr hd, (h.kept i hi hn).symm.trans hp⟩
    · rintro (hfree | ⟨h0, i, hi, hd, hp⟩)
      · exact .inl (.inl hfree)
      · by_cases hD : D i
        · exact .inl (.inr ⟨h0, i, hi, hD, hp⟩)
        · exact .inr ⟨h0, i, hi, hd.resolve_left hD, (h.kept i hi hD).trans hp⟩

/-- No block has come into use. -/
theorem Dropped.starved {k : Stop} (h : Dropped s s' f b x D) (hk : Starved s' k) : Starved s k := by
  refine hk.back h.touches fun c hu => ?_
  have hlt : c < s.nblk := h.nblk ▸ hu.1
  exact .inl ⟨hlt, fun hf => hu.2 ((h.free c (inBitmap_of_lt hlt)).mpr (.inl hf))⟩

/-- Emptying a slot drops the block at its index. -/
theorem Held.dropped_one (hm : Mounted s) (hf : Held s f b x) (hj : s.HasSlot f j)
    (hlt : j < 1024) (h : Emptied s s' (s.slot f j) (s.slotBlock f b j) (slotByte x j)) :
    Dropped s s' f b x (· = j) := by
  have ht : Touches (s.SlotWords f b x) s s' := h.touches.mono fun c o hW =>
    hW.imp_right fun he => ⟨j, hlt, hj, he⟩
  have hind := hf.view_indirect ht
  have hslot : ∀ i, s'.slot f i = s.slot f i := fun i => by
    unfold Server.slot
    rw [hind]
  refine ⟨ht, fun i hi hij => ?_, fun i _ hij => ?_, fun c hc => ?_⟩
  · by_cases hhas : s.HasSlot f i
    · have hhas' := (hasSlot_congr hind).mpr hhas
      rw [ptr_eq_view hhas', ptr_eq_view hhas, hslot]
      exact h.view_other (at_slot hf.record (hf.index_lt hm) hi) (hf.slot_outside hhas)
        (slot_ne hf.record.aligned (fun h => (hf.indexOutside h).2) hhas hj hij)
    · have hhas' := (not_congr (hasSlot_congr hind)).mpr hhas
      rw [ptr_eq_zero hhas', ptr_eq_zero hhas]
  · have hij' : i = j := hij
    subst hij'
    rw [ptr_eq_view ((hasSlot_congr hind).mpr hj), hslot]
    exact h.slot
  · rw [h.free c hc, ← ptr_eq_view hj]
    refine or_congr_right ⟨?_, ?_⟩
    · rintro ⟨rfl, h0⟩
      exact ⟨h0, j, hlt, rfl, rfl⟩
    · rintro ⟨h0, i, _, hij, hp⟩
      have hij' : i = j := hij
      exact ⟨hij' ▸ hp.symm, h0⟩

end Dropped

/-! ## The loop -/

section Rules

variable {s : Server} {f b : Word} {x : ℕ} {E : Stop → Prop}

/-- `file_clear_block`, whatever it returns. -/
theorem wp_fileClearBlock {Q : Except Err Unit → Server → Prop} {j : ℕ} (hm : Mounted s)
    (hf : Held s f b x) (hj : j < 2 ^ 32)
    (hQ : ∀ r s', Dropped s s' f b x (· = j) → Q r s') (hE : ∀ c, Starved s c → E c) :
    (fileClearBlock f (BitVec.ofNat 32 j)).wp Q E s := by
  unfold fileClearBlock
  rw [wp_bind]
  by_cases hlt : j < 1024
  · by_cases hhas : s.HasSlot f j
    · refine wp_fileBlockWalk hm hf.record hlt hhas (fun h10 => (hf.index (hhas.resolve_left h10)).2)
        (fun s₁ hr hc hat => ?_) hE
      have hout : ¬s₁.BitmapBlock (s.slotBlock f b j) := fun hb =>
        hf.slot_outside hhas ((hr.bitmapBlock _).mp hb)
      refine wp_emptySlot (hr.mounted id hm) hat hc hout (fun hne => ?_) fun s' he => ?_
      · rw [hr.view, ← ptr_eq_view hhas] at hne ⊢
        rw [hr.nblk]
        exact (hf.data j hlt hne).2.1
      · exact hQ _ s' (hf.dropped_one hm hhas hlt (he.of_reads hr))
    · refine wp_fileBlockWalk_none hf.record hlt hhas (hQ _ s (Dropped.refl s f b x fun i _ hij => ?_))
      have hij' : i = j := hij
      exact hij' ▸ ptr_eq_zero hhas
  · have hle : nindirect ≤ BitVec.ofNat 32 j := by
      refine BitVec.not_lt.mp fun h => hlt ?_
      exact (ofNat_lt_iff (m := 1024) hj (by omega)).mp h
    refine wp_fileBlockWalk_big hle (hQ _ s (Dropped.refl s f b x fun i hi hij => ?_))
    have hij' : i = j := hij
    omega

/-- The loop drops the blocks from one index up to another. -/
theorem wp_clearBlocks {Q : Except Err Unit → Server → Prop} {lo hi : ℕ} (hm : Mounted s)
    (hf : Held s f b x) (hhi : hi < 2 ^ 32)
    (hQ : ∀ s', Dropped s s' f b x (fun i => lo ≤ i ∧ i < hi) → Q (.ok ()) s')
    (hE : ∀ c, Starved s c → E c) : (clearBlocks f lo hi).wp Q E s := by
  unfold clearBlocks
  refine wp_each_range (fun j s' => Dropped s s' f b x fun i => lo ≤ i ∧ i < j) _
    (Dropped.refl s f b x fun i _ h => by omega) (fun j s₁ hlo hlt h => ?_) fun s' h => hQ s' ?_
  · refine wp_attempt_seq (R := fun _ s' => Dropped s₁ s' f b x (· = j)) ?_ fun _ s' h' => ?_
    · exact wp_fileClearBlock (h.mounted hm) (hf.dropped h) (by omega) (fun _ _ => id)
        fun c hc => hE c (h.starved hc)
    · exact wp_pure.mpr ((h.trans hf h').congr fun i _ => by omega)
  · exact h.congr fun i _ => by omega

end Rules

/-! ## The cut -/

/-- The number of blocks that `file_truncate` keeps. -/
def cutAt (newsize : Word) : ℕ := if newsize = 0#32 then 0 else newsize.toNat / 4096 + 1

/-- The block is one of those that a cut before index `keep` drops. -/
def Server.CutOff (s : Server) (f : Word) (keep : ℕ) (c : Word) : Prop :=
  c ≠ 0#32 ∧
    ((∃ i < 1024, keep ≤ i ∧ s.ptr f i = c) ∨ (keep ≤ 10 ∧ s.view (fIndirect f) = c))

/-- The words of the bitmap and the two fields that `file_truncate` writes last. -/
def Server.TailWords (s : Server) (b : Word) (x : ℕ) (c : Word) (o : Index) : Prop :=
  s.BitmapBlock c ∨ (c = b ∧ (o.val = (x + 176) / 4 ∨ o.val = (x + 128) / 4))

/-- What `file_truncate` leaves. -/
structure Truncated (s s' : Server) (f b : Word) (x : ℕ) (newsize : Word) : Prop where
  kept : ∀ i < 1024, i < cutAt newsize → s'.ptr f i = s.ptr f i
  gone : ∀ i < 1024, cutAt newsize ≤ i → (fileMapBlock f (BitVec.ofNat 32 i) false).wp
    (fun r _ => r = .error .notFound) (Starved s') s'
  index : s'.view (fIndirect f) = 0#32 ↔ s.view (fIndirect f) = 0#32 ∨ cutAt newsize ≤ 10
  size : s'.view (fSize f) = newsize
  bitmap : ∀ c, s.InBitmap c → (s'.Free c ↔ s.Free c ∨ s.CutOff f (cutAt newsize) c)
  others : Touches (fun c o => s.SlotWords f b x c o ∨ s.TailWords b x c o) s s'

section Cut

variable {s s' t : Server} {f b w : Word} {x i : ℕ}

theorem not_tailWords_super : ¬s.TailWords b x 1#32 1 := by
  have h1 : (1#32 : Word).toNat = 1 := rfl
  have h2 : ((1 : Index).val) = 1 := rfl
  rintro (hW | ⟨_, ho⟩)
  · unfold Server.BitmapBlock at hW
    omega
  · omega

/-- The slots are not among the words written last. -/
theorem Held.view_slot (hm : Mounted s) (hf : Held s f b x) (h : Touches (s.TailWords b x) s s')
    (hi : i < 1024) (hhas : s.HasSlot f i) : s'.view (s.slot f i) = s.view (s.slot f i) := by
  have hx := hf.record.aligned
  have hat := at_slot hf.record (hf.index_lt hm) hi
  refine h.view fun hW => ?_
  rw [hat.blockOf_eq] at hW
  rcases hW with hW | ⟨hb, ho⟩
  · exact hf.slot_outside hhas hW
  · rw [hat.wordIdx_val] at ho
    unfold Server.slotBlock at hb
    unfold slotByte at ho
    by_cases h10 : i < 10
    · rw [if_pos h10] at ho
      omega
    · rw [if_neg h10] at hb
      exact (hf.indexOutside (hhas.resolve_left h10)).2 hb

theorem Held.ptr_direct (hm : Mounted s) (hf : Held s f b x) (h : Touches (s.TailWords b x) s s')
    (hi : i < 10) : s'.ptr f i = s.ptr f i := by
  have hslot : s'.slot f i = s.slot f i := by
    unfold Server.slot
    rw [if_pos hi, if_pos hi]
  rw [ptr_eq_view (.inl hi), ptr_eq_view (.inl hi), hslot]
  exact hf.view_slot hm h (by omega) (.inl hi)

theorem Held.ptr_tail (hm : Mounted s) (hf : Held s f b x) (h : Touches (s.TailWords b x) s s')
    (hind : s'.view (fIndirect f) = s.view (fIndirect f)) (hi : i < 1024) :
    s'.ptr f i = s.ptr f i := by
  have hslot : s'.slot f i = s.slot f i := by
    unfold Server.slot
    rw [hind]
  by_cases hhas : s.HasSlot f i
  · rw [ptr_eq_view ((hasSlot_congr hind).mpr hhas), ptr_eq_view hhas, hslot]
    exact hf.view_slot hm h hi hhas
  · rw [ptr_eq_zero ((not_congr (hasSlot_congr hind)).mpr hhas), ptr_eq_zero hhas]

theorem cutAt_toNat (newsize : Word) :
    (if newsize = 0#32 then 0#32 else newsize / by2blk + 1#32 : Word).toNat = cutAt newsize := by
  have h4 : by2blk.toNat = 4096 := rfl
  have h1 : (1#32 : Word).toNat = 1 := rfl
  have hlt := newsize.isLt
  unfold cutAt
  by_cases h0 : newsize = 0#32
  · rw [if_pos h0, if_pos h0]
    rfl
  · rw [if_neg h0, if_neg h0, BitVec.toNat_add, BitVec.toNat_udiv, h4, h1]
    omega

/-- The indices that the loop of `file_truncate` runs over. -/
def Server.Cleared (s : Server) (f newsize : Word) (i : ℕ) : Prop :=
  cutAt newsize ≤ i ∧ i < (s.view (fSize f)).toNat / 4096 + 1

/-- What `file_truncate` does after its loop. -/
structure Shortened (s t : Server) (f b : Word) (x : ℕ) (newsize : Word) : Prop where
  touches : Touches (s.TailWords b x) s t
  size : t.view (fSize f) = newsize
  index : t.view (fIndirect f) = if cutAt newsize ≤ 10 then 0#32 else s.view (fIndirect f)
  free : ∀ c, s.InBitmap c → (t.Free c ↔
    s.Free c ∨ (c ≠ 0#32 ∧ cutAt newsize ≤ 10 ∧ s.view (fIndirect f) = c))

/-- The loop, then the words written last, make up the cut. -/
theorem Truncated.of_shortened {newsize : Word} (hm : Mounted s) (hf : Sound s f b x)
    (h : Dropped s s' f b x (s.Cleared f newsize)) (hs : Shortened s' t f b x newsize) :
    Truncated s t f b x newsize := by
  obtain ⟨ht, hsize, hind, hfree⟩ := hs
  have hm' := h.mounted hm
  have hf' := hf.dropped h
  have hi' := hf.view_indirect h.touches
  have hmt : Mounted t := ht.mounted not_tailWords_super hm'
  have hnt : t.nblk = s'.nblk := ht.nblk not_tailWords_super
  -- an index that is kept has its pointer, one that is not has none
  have hptr : ∀ i < 1024, cutAt newsize ≤ i → t.ptr f i = 0#32 := fun i hi hcut => by
    have hgone : s'.ptr f i = 0#32 := by
      by_cases hlt : i < (s.view (fSize f)).toNat / 4096 + 1
      · exact h.gone i hi ⟨hcut, hlt⟩
      · rw [h.kept i hi fun hd => hlt hd.2]
        exact hf.ends i hi (not_lt.mp hlt)
    by_cases h10 : i < 10
    · rw [hf'.ptr_direct hm' ht h10, hgone]
    · by_cases hc : cutAt newsize ≤ 10
      · rw [if_pos hc] at hind
        exact ptr_eq_zero (not_or.mpr ⟨h10, not_not.mpr hind⟩)
      · rw [if_neg hc] at hind
        rw [hf'.ptr_tail hm' ht hind hi, hgone]
  refine ⟨fun i hi hlt => ?_, fun i hi hcut => ?_, ?_, hsize, fun c hc => ?_, ?_⟩
  · rw [← h.kept i hi fun hd => absurd hd.1 (not_le.mpr hlt)]
    by_cases h10 : i < 10
    · exact hf'.ptr_direct hm' ht h10
    · rw [if_neg (by omega)] at hind
      exact hf'.ptr_tail hm' ht hind hi
  · refine wp_fileMapBlock_none hmt (hf'.record.touches ht) hi (hptr i hi hcut) (fun h10 hhas => ?_)
      (fun _ _ => rfl) fun _ => id
    have hne := hhas.resolve_left h10
    by_cases hc : cutAt newsize ≤ 10
    · rw [if_pos hc] at hind
      exact absurd hind hne
    · rw [if_neg hc] at hind
      rw [hind] at hne ⊢
      obtain ⟨_, hlt, hused⟩ := hf'.index hne
      refine ⟨hnt.symm ▸ hlt, fun hfr => ?_⟩
      rcases (hfree _ (inBitmap_of_lt hlt)).mp hfr with hfr | ⟨_, hle, _⟩
      · exact hused hfr
      · exact hc hle
  · rw [hind, hi']
    by_cases hc : cutAt newsize ≤ 10
    · simp only [hc, if_true, or_true]
    · simp only [hc, if_false, or_false]
  · have hc' : s'.InBitmap c := by
      unfold Server.InBitmap
      rw [h.nblk]
      exact hc
    rw [hfree c hc', h.free c hc, hi', or_assoc, ← and_or_left]
    refine or_congr_right (and_congr_right fun h0 => or_congr_left (exists_congr fun i => ?_))
    refine and_congr_right fun hi => ⟨fun hp => ⟨hp.1.1, hp.2⟩, fun hp => ⟨⟨hp.1, ?_⟩, hp.2⟩⟩
    by_contra hge
    exact h0 (hp.2.symm.trans (hf.ends i hi (not_lt.mp hge)))
  · refine trans_of (Touches _) (h.touches.mono fun _ _ => .inl) (ht.mono fun c o hW => .inr ?_)
    unfold Server.TailWords Server.BitmapBlock at hW ⊢
    rw [← h.nblk]
    exact hW

/-- The store of the size is the last thing that `file_truncate` does. -/
theorem wp_store_size {Q : Except Err Unit → Server → Prop} {newsize : Word} {E : Stop → Prop}
    (hm : Mounted s) (hf : Held s f b x) (ht : Touches (s.TailWords b x) s t)
    (hind : t.view (fIndirect f) = if cutAt newsize ≤ 10 then 0#32 else s.view (fIndirect f))
    (hfree : ∀ c, s.InBitmap c → (t.Free c ↔
      s.Free c ∨ (c ≠ 0#32 ∧ cutAt newsize ≤ 10 ∧ s.view (fIndirect f) = c)))
    (hQ : ∀ t', Shortened s t' f b x newsize → Q (.ok ()) t') :
    (store (fSize f) newsize).wp Q E t := by
  have hrec := hf.record.touches ht
  have hat : At (fSize f) b (x + 128) := hrec.at_field (n := 128) (by omega)
  have hc : t.Cached (fSize f) := hrec.cached_field (n := 128) (by omega)
  refine wp_store hc (hQ _ ⟨?_, ?_, ?_, fun c hin => ?_⟩)
  · refine trans_of (Touches _) ht (touches_setWord hc (.inr ⟨hat.blockOf_eq, .inr ?_⟩))
    exact hat.wordIdx_val
  · rw [view_setWord hc, if_pos ⟨rfl, rfl⟩]
  · have hx := hrec.aligned
    have hv := hrec.view_store (w := newsize) (n := 128) (m := 176) (by omega) (by omega)
    rw [if_neg (by omega)] at hv
    exact hv.trans hind
  · have hne : blockOf (bitWordVa c) ≠ blockOf (fSize f) := fun he =>
      hf.outside (hat.blockOf_eq ▸ he ▸ bitmapBlock_of_at hm hin)
    rw [free_setWord hc hne]
    exact hfree c hin

/-- `file_truncate`, whatever pointers there are after the size. -/
theorem wp_fileTruncate {Q : Except Err Unit → Server → Prop} {E : Stop → Prop} {newsize : Word}
    (hm : Mounted s) (hf : Held s f b x)
    (hQ : ∀ s' t, Dropped s s' f b x (s.Cleared f newsize) → Shortened s' t f b x newsize →
      Q (.ok ()) t) (hE : ∀ c, Starved s c → E c) : (fileTruncate f newsize).wp Q E s := by
  have hlt := (s.view (fSize f)).isLt
  have hold : (s.view (fSize f) / by2blk + 1#32).toNat = (s.view (fSize f)).toNat / 4096 + 1 := by
    have h4 : by2blk.toNat = 4096 := rfl
    have h1 : (1#32 : Word).toNat = 1 := rfl
    rw [BitVec.toNat_add, BitVec.toNat_udiv, h4, h1]
    omega
  have hcut := cutAt_toNat newsize
  have hcle : (if newsize = 0#32 then 0#32 else newsize / by2blk + 1#32 : Word) ≤ ndirect ↔
      cutAt newsize ≤ 10 := by
    rw [BitVec.le_def, hcut]
    exact Iff.rfl
  unfold fileTruncate
  rw [wp_bind]
  refine wp_load (hf.record.cached_field (n := 128) (by omega)) ?_
  simp only
  rw [wp_bind, hcut, hold]
  refine wp_clearBlocks hm hf (by omega) (fun s₁ h => ?_) hE
  have hm₁ := h.mounted hm
  have hf₁ := hf.dropped h
  simp only
  rw [wp_bind, wp_when, hcle]
  refine ⟨fun hle => ?_, fun hgt => wp_store_size hm₁ hf₁ (refl_of (Touches _) s₁) ?_ (fun c _ => ?_)
    fun t => hQ s₁ t h⟩
  · refine wp_emptySlot hm₁ (hf₁.record.at_field (n := 176) (by omega))
      (hf₁.record.cached_field (n := 176) (by omega)) hf₁.outside (fun hne => (hf₁.index hne).2.1)
      fun s₂ he => ?_
    refine wp_store_size hm₁ hf₁
      (he.touches.mono fun c o hW => hW.imp_right fun h => ⟨h.1, .inl h.2⟩) ?_ (fun c hc => ?_)
      fun t => hQ s₁ t h
    · rw [if_pos hle]
      exact he.slot
    · rw [he.free c hc]
      exact or_congr_right ⟨fun h => ⟨h.2, hle, h.1.symm⟩, fun h => ⟨h.2.2.symm, h.1⟩⟩
  · rw [if_neg hgt]
  · exact ⟨.inl, fun h => h.resolve_right fun h' => hgt h'.2.1⟩

end Cut

/-- `file_truncate` drops the blocks after the cut, and the index block if the cut is
not after the last direct pointer. -/
theorem file_truncate {s : Server} {f b newsize : Word} {x : ℕ} (hm : Mounted s)
    (hf : Sound s f b x) :
    (fileTruncate f newsize).wp (fun r s' => r = .ok () ∧ Truncated s s' f b x newsize)
      (Short s) s :=
  wp_fileTruncate hm hf.toHeld (fun _ _ h hs => ⟨rfl, .of_shortened hm hf h hs⟩) fun _ hc => hc.short

/-- A disk whose root directory has one block. -/
def oneBlock : Server :=
  afterInit [(1, 1, 8#32), (1, 34, 4096#32), (1, 35, ftypeDir), (1, 36, 3#32)]

theorem oneBlock_ptr {i : ℕ} : oneBlock.ptr sRoot i = if i = 0 then 3#32 else 0#32 := by
  by_cases h10 : i < 10
  · have hall : ∀ i : Fin 10, oneBlock.ptr sRoot i = if i.val = 0 then 3#32 else 0#32 := by
      decide +kernel
    exact hall ⟨i, h10⟩
  · rw [if_neg (by omega), ptr_eq_zero (not_or.mpr ⟨h10, not_not.mpr rfl⟩)]

theorem oneBlock_sound : Sound oneBlock sRoot 1#32 8 := by
  have hu : 3 ≤ (3#32 : Word).toNat ∧ oneBlock.Used 3#32 := by decide +kernel
  have hz : oneBlock.view (fIndirect sRoot) = 0#32 := rfl
  have hp : ∀ i, oneBlock.ptr sRoot i ≠ 0#32 → i = 0 ∧ oneBlock.ptr sRoot i = 3#32 := fun i h => by
    rw [oneBlock_ptr] at h ⊢
    split_ifs at h ⊢ with h0
    · exact ⟨h0, rfl⟩
    · exact absurd rfl h
  refine ⟨⟨⟨fun h => absurd hz h, fun i _ h => ?_, fun i _ j _ h he => ?_, fun i _ h => ?_⟩,
    ⟨⟨rfl, by decide, by omega⟩, rfl, by omega, fun _ => le_refl 8, rfl⟩, ?_,
    fun h => absurd hz h⟩, fun i _ hi => ?_⟩
  · rw [(hp i h).2]
    exact hu
  · exact (hp i h).1.trans (hp j (he ▸ h)).1.symm
  · rw [(hp i h).2, hz]
    decide
  · unfold Server.BitmapBlock
    decide
  · have hpos : i ≠ 0 := by omega
    rw [oneBlock_ptr, if_neg hpos]

theorem file_truncate_root : (fileTruncate sRoot 0#32).wp
    (fun r s' => r = .ok () ∧ Truncated oneBlock s' sRoot 1#32 8 0#32) (Short oneBlock) oneBlock :=
  file_truncate (mounted_afterInit (by decide)) oneBlock_sound

/-! ## An index block in the bitmap -/

/-- A disk of two bitmap blocks, of which the second is the index block of the root. -/
def indexInBitmap : Server :=
  let ws := [(1, 1, 40000#32), (1, 34, 40960#32), (1, 46, 3#32), (3, 10, 5#32)]
  { afterInit ws with
    pages := Function.update (afterInit ws).pages (vpn diskmap + 3#32) (some ⟨blockAt ws 3, false⟩) }

theorem indexInBitmap_mounted : Mounted indexInBitmap := by
  have hn : indexInBitmap.nblk.toNat = 40000 := rfl
  refine ⟨rfl, rfl, by omega, rfl, fun b hb => ?_⟩
  have hlt : b.toNat < 40000 := hb
  have hat := at_bitWord (b := b) (by omega)
  have hblk : b.toNat / 32768 = 0 ∨ b.toNat / 32768 = 1 := by omega
  unfold Server.Cached
  rw [hat.vpn_eq]
  rcases hblk with h0 | h1
  · rw [h0]
    rfl
  · rw [h1]
    rfl

theorem indexInBitmap_ptr {i : ℕ} (hi : i < 1024) :
    indexInBitmap.ptr sRoot i = if i = 10 then 5#32 else 0#32 := by
  have hall : ∀ i : Fin 1024, indexInBitmap.ptr sRoot i.val = if i.val = 10 then 5#32 else 0#32 := by
    decide +kernel
  exact hall ⟨i, hi⟩

theorem indexInBitmap_pointed : Pointed indexInBitmap sRoot := by
  have hz : indexInBitmap.view (fIndirect sRoot) = 3#32 := rfl
  have hi : 3 ≤ (3#32 : Word).toNat ∧ indexInBitmap.Used 3#32 := by decide +kernel
  have hu : 3 ≤ (5#32 : Word).toNat ∧ indexInBitmap.Used 5#32 := by decide +kernel
  have hp : ∀ i < 1024, indexInBitmap.ptr sRoot i ≠ 0#32 →
      i = 10 ∧ indexInBitmap.ptr sRoot i = 5#32 := fun i hi h => by
    rw [indexInBitmap_ptr hi] at h ⊢
    split_ifs at h ⊢ with h10
    · exact ⟨h10, rfl⟩
    · exact absurd rfl h
  refine ⟨fun _ => hz.symm ▸ hi, fun i hi h => ?_, fun i hi j hj h he => ?_, fun i hi h => ?_⟩
  · rw [(hp i hi h).2]
    exact hu
  · exact (hp i hi h).1.trans (hp j hj (he ▸ h)).1.symm
  · rw [(hp i hi h).2, hz]
    decide

/-- Emptying the slot of block 5 also clears bit 33088 of the bitmap. -/
theorem file_truncate_fails : ¬∀ (s : Server) (f b newsize : Word) (x : ℕ), Mounted s →
    Record s f b x → Pointed s f → s.EndsAt f → newsize ≤ s.view (fSize f) →
    (fileTruncate f newsize).wp (fun r s' => r = .ok () ∧ Truncated s s' f b x newsize)
      (Short s) s := by
  intro hall
  have hends : indexInBitmap.EndsAt sRoot := fun i hi hle => by
    have hsize : (indexInBitmap.view (fSize sRoot)).toNat / 4096 + 1 = 11 := rfl
    rw [indexInBitmap_ptr hi, if_neg (by omega)]
  have hrun := hall indexInBitmap sRoot 1#32 0#32 8 indexInBitmap_mounted
    ⟨⟨rfl, by decide, by omega⟩, rfl, by omega, fun _ => le_refl 8, rfl⟩ indexInBitmap_pointed hends
    (by decide)
  have hend : ((fileTruncate sRoot 0#32 indexInBitmap).toOption.map fun y =>
      decide (y.2.Free 33088#32)) = some false := by
    decide +kernel
  cases hok : fileTruncate sRoot 0#32 indexInBitmap with
  | error c => simp [hok, Except.toOption] at hend
  | ok y =>
    rw [hok] at hend
    have hin : indexInBitmap.InBitmap 33088#32 := by
      unfold Server.InBitmap
      decide
    have hfree : indexInBitmap.Free 33088#32 := by decide +kernel
    have hbit := (wp_ok hrun hok).2.bitmap 33088#32 hin
    exact absurd (hbit.mpr (.inl hfree)) (of_decide_eq_false (Option.some.inj hend))

end Fs
end RvMos
