/-
The block pointers of a file.

The first ten pointers are in the record, the others in the index block that
`f_indirect` names; `ptr` is the pointer at an index, 0 where there is none.  The
rules here are those of `file_block_walk` and `file_map_block` without allocation
and of the slots that they return.
-/
import RvMos.Fs.Image

namespace RvMos

open Lib

namespace Fs

open Sys

/-! ## Records -/

/-- A `struct File` in block `b` of the cache, outside the head of the superblock. -/
structure Record (s : Server) (f b : Word) (x : ℕ) : Prop where
  place : At f b x
  aligned : x % 4 = 0
  room : x + 256 ≤ 4096
  head : b = 1#32 → 8 ≤ x
  cached : s.Cached f

/-- The pointer of a file at an index, 0 where there is no block for it. -/
def Server.ptr (s : Server) (f : Word) (n : ℕ) : Word :=
  if n < 10 then s.view (fDirect f (BitVec.ofNat 32 n))
  else if s.view (fIndirect f) = 0#32 then 0#32
  else s.view (blockVa (s.view (fIndirect f)) + BitVec.ofNat 32 (4 * n))

section Record

variable {s s' : Server} {f b w : Word} {x n m : ℕ}

theorem Record.at_field (h : Record s f b x) (hn : n < 256) : At (f + BitVec.ofNat 32 n) b (x + n) :=
  h.place.add (by have := h.room; omega)

theorem Record.cached_field (h : Record s f b x) (hn : n < 256) :
    s.Cached (f + BitVec.ofNat 32 n) :=
  h.cached.of_vpn ((h.at_field hn).vpn_eq.trans h.place.vpn_eq.symm)

theorem Record.touches {W : Word → Index → Prop} (h : Record s f b x) (ht : Touches W s s') :
    Record s' f b x :=
  ⟨h.place, h.aligned, h.room, h.head, ht.cached f h.cached⟩

theorem fDirect_eq (f : Word) (n : ℕ) :
    fDirect f (BitVec.ofNat 32 n) = f + BitVec.ofNat 32 (136 + 4 * n) := by
  unfold fDirect
  refine BitVec.eq_of_toNat_eq ?_
  simp only [BitVec.toNat_add, BitVec.toNat_mul, BitVec.toNat_ofNat]
  omega

/-- A store to a field is seen there only. -/
theorem Record.view_store (h : Record s f b x) (hn : n < 256) (hm : m < 256) :
    (s.setWord (f + BitVec.ofNat 32 n) w).view (f + BitVec.ofNat 32 m) =
      if m / 4 = n / 4 then w else s.view (f + BitVec.ofNat 32 m) := by
  have hx := h.aligned
  rw [view_setWord_at (h.cached_field hn) (h.at_field hn) (h.at_field hm)]
  refine if_congr ⟨fun he => ?_, fun he => ⟨rfl, ?_⟩⟩ rfl rfl
  · have hsum := he.2
    omega
  · omega

/-- A store elsewhere is not seen in the record. -/
theorem Record.view_other {va b' : Word} {y : ℕ} (h : Record s f b x) (hc : s.Cached va)
    (ha : At va b' y) (hne : b' ≠ b) (hm : m < 256) :
    (s.setWord va w).view (f + BitVec.ofNat 32 m) = s.view (f + BitVec.ofNat 32 m) := by
  rw [view_setWord_at hc ha (h.at_field hm), if_neg fun he => hne he.1.symm]

end Record

/-! ## Slots -/

section Rules

variable {s : Server} {f b ptr w : Word} {x n : ℕ} {E : Stop → Prop}

theorem wp_fillSlot_full {Q : Except Err Unit → Server → Prop} {alloc : Bool} (hc : s.Cached ptr)
    (h : s.view ptr ≠ 0#32) (hQ : Q (.ok ()) s) : (fillSlot ptr alloc).wp Q E s := by
  unfold fillSlot
  rw [wp_bind]
  refine wp_load hc ?_
  simp only
  rw [wp_when]
  exact ⟨fun h0 => absurd h0 h, fun _ => hQ⟩

theorem wp_fillSlot_empty {Q : Except Err Unit → Server → Prop} (hc : s.Cached ptr)
    (h : s.view ptr = 0#32) (hQ : Q (.error .notFound) s) : (fillSlot ptr false).wp Q E s := by
  unfold fillSlot
  rw [wp_bind]
  refine wp_load hc ?_
  simp only
  rw [wp_when]
  exact ⟨fun _ => wp_throw.mpr hQ, fun hn => absurd h hn⟩

/-- The slot that `file_block_walk` returns. -/
def Server.slot (s : Server) (f : Word) (n : ℕ) : Word :=
  if n < 10 then fDirect f (BitVec.ofNat 32 n)
  else blockVa (s.view (fIndirect f)) + BitVec.ofNat 32 (4 * n)

/-- There is an index block where the index needs one. -/
def Server.HasSlot (s : Server) (f : Word) (n : ℕ) : Prop := n < 10 ∨ s.view (fIndirect f) ≠ 0#32

theorem ptr_eq_view (h : s.HasSlot f n) : s.ptr f n = s.view (s.slot f n) := by
  unfold Server.ptr Server.slot
  by_cases hn : n < 10
  · rw [if_pos hn, if_pos hn]
  · rw [if_neg hn, if_neg hn, if_neg (h.resolve_left hn)]

theorem ptr_eq_zero (h : ¬s.HasSlot f n) : s.ptr f n = 0#32 := by
  obtain ⟨hn, hi⟩ := not_or.mp h
  unfold Server.ptr
  rw [if_neg hn, if_pos (not_not.mp hi)]

theorem ofNat_lt_iff {m : ℕ} (hn : n < 2 ^ 32) (hm : m < 2 ^ 32) :
    BitVec.ofNat 32 n < BitVec.ofNat 32 m ↔ n < m := by
  rw [BitVec.lt_def, BitVec.toNat_ofNat, BitVec.toNat_ofNat, Nat.mod_eq_of_lt hn,
    Nat.mod_eq_of_lt hm]

theorem mul_ofNat (n : ℕ) : 4#32 * BitVec.ofNat 32 n = BitVec.ofNat 32 (4 * n) := by
  refine BitVec.eq_of_toNat_eq ?_
  simp only [BitVec.toNat_mul, BitVec.toNat_ofNat]
  omega

theorem lt_ndirect (hn : n < 10) : BitVec.ofNat 32 n < ndirect :=
  (ofNat_lt_iff (by omega) (by omega)).mpr hn

theorem not_lt_ndirect (hn : n < 1024) (h : ¬n < 10) : ¬BitVec.ofNat 32 n < ndirect := fun hlt =>
  h ((ofNat_lt_iff (m := 10) (by omega) (by omega)).mp hlt)

theorem lt_nindirect (hn : n < 1024) : BitVec.ofNat 32 n < nindirect :=
  (ofNat_lt_iff (by omega) (by omega)).mpr hn

/-- `file_block_walk` where the index has a slot: the index block comes into the
cache if the slot is in it. -/
theorem wp_fileBlockWalk {Q : Except Err Word → Server → Prop} {alloc : Bool} (hm : Mounted s)
    (hf : Record s f b x) (hn : n < 1024) (hslot : s.HasSlot f n)
    (hused : ¬n < 10 → s.Used (s.view (fIndirect f)))
    (hQ : ∀ s', Reads s s' → s'.Cached (s.slot f n) → At (s.slot f n)
      (if n < 10 then b else s.view (fIndirect f)) (if n < 10 then x + 136 + 4 * n else 4 * n) →
      Q (.ok (s.slot f n)) s')
    (hE : ∀ c, Starved s c → E c) : (fileBlockWalk f (BitVec.ofNat 32 n) alloc).wp Q E s := by
  have hx := hf.room
  unfold fileBlockWalk
  by_cases h10 : n < 10
  · rw [if_pos (lt_ndirect h10), wp_pure]
    have hs : s.slot f n = f + BitVec.ofNat 32 (136 + 4 * n) := by
      unfold Server.slot
      rw [if_pos h10, fDirect_eq]
    have hd : fDirect f (BitVec.ofNat 32 n) = s.slot f n := by
      rw [hs, fDirect_eq]
    rw [hd]
    refine hQ s (refl_of Reads s) ?_ ?_
    · rw [hs]
      exact hf.cached_field (by omega)
    · rw [hs, if_pos h10, if_pos h10, Nat.add_assoc]
      exact hf.at_field (by omega)
  · have hind := hslot.resolve_left h10
    obtain ⟨hlt, hfree⟩ := hused h10
    rw [if_neg (not_lt_ndirect hn h10), if_pos (lt_nindirect hn), wp_bind]
    have hci : s.Cached (fIndirect f) := hf.cached_field (n := 176) (by omega)
    refine wp_fillSlot_full hci hind ?_
    simp only
    rw [wp_bind]
    refine wp_load hci ?_
    simp only
    rw [wp_bind]
    refine wp_readBlock hm hlt hfree (fun s' hr hc => wp_pure.mpr ?_) hE
    have hs : s.slot f n = blockVa (s.view (fIndirect f)) + BitVec.ofNat 32 (4 * n) := by
      unfold Server.slot
      rw [if_neg h10]
    have hat := (at_blockVa (lt_capacity hm hlt)).add (n := 4 * n) (by omega)
    rw [mul_ofNat, ← hs]
    rw [← hs, Nat.zero_add] at hat
    refine hQ s' hr ?_ ?_
    · exact hc.of_vpn (hat.vpn_eq.trans (at_blockVa (lt_capacity hm hlt)).vpn_eq.symm)
    · rw [if_neg h10, if_neg h10]
      exact hat

/-- `file_block_walk` where there is no index block. -/
theorem wp_fileBlockWalk_none {Q : Except Err Word → Server → Prop} (hf : Record s f b x)
    (hn : n < 1024) (hslot : ¬s.HasSlot f n) (hQ : Q (.error .notFound) s) :
    (fileBlockWalk f (BitVec.ofNat 32 n) false).wp Q E s := by
  obtain ⟨h10, hind⟩ := not_or.mp hslot
  unfold fileBlockWalk
  rw [if_neg (not_lt_ndirect hn h10), if_pos (lt_nindirect hn), wp_bind]
  exact wp_fillSlot_empty (hf.cached_field (n := 176) (by omega)) (not_not.mp hind) hQ

/-- `file_block_walk` of an index that no file has. -/
theorem wp_fileBlockWalk_big {Q : Except Err Word → Server → Prop} {i : Word} {alloc : Bool}
    (hi : nindirect ≤ i) (hQ : Q (.error .inval) s) : (fileBlockWalk f i alloc).wp Q E s := by
  have h1 : ¬i < nindirect := BitVec.not_lt.mpr hi
  have h2 : ¬i < ndirect := fun h => h1 (BitVec.lt_trans h (by decide))
  unfold fileBlockWalk
  rw [if_neg h2, if_neg h1]
  exact wp_throw.mpr hQ

/-- `file_map_block` of an index with a block. -/
theorem wp_fileMapBlock {Q : Except Err Word → Server → Prop} {alloc : Bool} (hm : Mounted s)
    (hf : Record s f b x) (hn : n < 1024) (hptr : s.ptr f n ≠ 0#32)
    (hused : ¬n < 10 → s.Used (s.view (fIndirect f)))
    (hQ : ∀ s', Reads s s' → Q (.ok (s.ptr f n)) s') (hE : ∀ c, Starved s c → E c) :
    (fileMapBlock f (BitVec.ofNat 32 n) alloc).wp Q E s := by
  have hslot : s.HasSlot f n := by
    by_contra h
    exact hptr (ptr_eq_zero h)
  rw [ptr_eq_view hslot] at hptr hQ
  unfold fileMapBlock
  rw [wp_bind]
  refine wp_fileBlockWalk hm hf hn hslot hused (fun s' hr hc _ => ?_) hE
  have hview := hr.view (s.slot f n)
  simp only
  rw [wp_bind]
  refine wp_fillSlot_full hc (hview.symm ▸ hptr) (wp_load hc ?_)
  rw [hview]
  exact hQ s' hr

/-- `file_map_block` without allocation of an index with no block. -/
theorem wp_fileMapBlock_none {Q : Except Err Word → Server → Prop} (hm : Mounted s)
    (hf : Record s f b x) (hn : n < 1024) (hptr : s.ptr f n = 0#32)
    (hused : ¬n < 10 → s.HasSlot f n → s.Used (s.view (fIndirect f)))
    (hQ : ∀ s', Reads s s' → Q (.error .notFound) s') (hE : ∀ c, Starved s c → E c) :
    (fileMapBlock f (BitVec.ofNat 32 n) false).wp Q E s := by
  unfold fileMapBlock
  rw [wp_bind]
  by_cases hslot : s.HasSlot f n
  · refine wp_fileBlockWalk hm hf hn hslot (fun h => hused h hslot) (fun s' hr hc _ => ?_) hE
    simp only
    rw [wp_bind]
    refine wp_fillSlot_empty hc ?_ (hQ s' hr)
    rw [hr.view, ← ptr_eq_view hslot, hptr]
  · exact wp_fileBlockWalk_none hf hn hslot (hQ s (refl_of Reads s))

/-- `file_get_block` of an index with a block. -/
theorem wp_fileGetBlock {Q : Except Err Word → Server → Prop} (hm : Mounted s)
    (hf : Record s f b x) (hn : n < 1024) (hptr : s.ptr f n ≠ 0#32) (hu : s.Used (s.ptr f n))
    (hused : ¬n < 10 → s.Used (s.view (fIndirect f)))
    (hQ : ∀ s', Reads s s' → s'.Cached (blockVa (s.ptr f n)) → Q (.ok (blockVa (s.ptr f n))) s')
    (hE : ∀ c, Starved s c → E c) : (fileGetBlock f (BitVec.ofNat 32 n)).wp Q E s := by
  unfold fileGetBlock
  rw [wp_bind]
  refine wp_fileMapBlock hm hf hn hptr hused (fun s₁ hr => ?_) hE
  refine wp_readBlock (hr.mounted id hm) (hr.nblk.symm ▸ hu.1) (fun hfr => hu.2 ((hr.free _).mp hfr))
    (fun s' hr' => hQ s' (trans_of Reads hr hr')) fun c hc => hE c (hc.of_reads hr)

end Rules

end Fs
end RvMos
