/-
Taking a block (`alloc_block`).

The first free block from block 3 on is taken: its bit is cleared, the block of the
bitmap goes to the disk, and the block gets a page in the cache.  A block that was
in the cache before it was freed has its old words still, any other one is zero.
-/
import RvMos.Fs.Truncate

namespace RvMos

open Lib

namespace Fs

open Sys

/-! ## Clearing a bit -/

/-- The words that a search for a block may change: those of the bitmap, and what a
block number outside the disk stands for. -/
def Server.AllocWords (s : Server) (c : Word) (_ : Index) : Prop :=
  s.BitmapBlock c ∨ 262144 ≤ c.toNat

/-- The block of the cache goes to the disk. -/
def Server.flush (s : Server) (b : Word) : Server :=
  { s with disk := Function.update s.disk (b * sect2blk) (s.block b) }

@[simp] theorem flush_pages (s : Server) (b : Word) : (s.flush b).pages = s.pages := rfl

@[simp] theorem flush_disk (s : Server) (b : Word) :
    (s.flush b).disk = Function.update s.disk (b * sect2blk) (s.block b) := rfl

section Bits

variable {s s' : Server} {b b' va w : Word} {E : Stop → Prop}

theorem clearBit_and_iff (x : Word) :
    x &&& ~~~blockBit b &&& blockBit b' ≠ 0#32 ↔ x &&& blockBit b' ≠ 0#32 ∧ b'.toNat % 32 ≠ b.toNat % 32 := by
  have h32 : ∀ c : Word, (c % 32#32).toNat = c.toNat % 32 := fun c => BitVec.toNat_umod
  have hall : ∀ i j : Fin 32, (~~~(1#32 <<< i.val : Word) &&& (1#32 <<< j.val)) =
      if j = i then 0#32 else 1#32 <<< j.val := by
    decide
  have hbit := hall ⟨b.toNat % 32, Nat.mod_lt _ (by omega)⟩ ⟨b'.toNat % 32, Nat.mod_lt _ (by omega)⟩
  unfold blockBit
  rw [h32, h32, BitVec.and_assoc, hbit]
  by_cases he : b'.toNat % 32 = b.toNat % 32
  · simp only [he, if_true, BitVec.and_zero, ne_eq, not_true_eq_false, and_false]
  · have hne : ¬(⟨b'.toNat % 32, Nat.mod_lt _ (by omega)⟩ : Fin 32) =
        ⟨b.toNat % 32, Nat.mod_lt _ (by omega)⟩ := fun h => he (Fin.mk.inj h)
    rw [if_neg hne]
    exact ⟨fun h => ⟨h, he⟩, fun h => h.1⟩

/-- After its bit is cleared a block is in use, and the other bits are as before. -/
theorem free_clearBit (hm : Mounted s) (hlt : b < s.nblk) (hb' : s.InBitmap b') :
    (s.setWord (bitWordVa b) (s.view (bitWordVa b) &&& ~~~blockBit b)).Free b' ↔
      s.Free b' ∧ b' ≠ b := by
  rw [free_setBitWord hm hlt hb']
  by_cases hw : b'.toNat / 32 = b.toNat / 32
  · have hva := (bitWordVa_eq_iff hm (inBitmap_of_lt hlt) hb').mpr hw
    unfold Server.Free
    rw [if_pos hw, hva, clearBit_and_iff]
    exact and_congr_right fun _ => (not_congr (eq_iff_of_div hw)).symm
  · rw [if_neg hw]
    refine (and_iff_left_of_imp fun _ => ?_).symm
    rintro rfl
    exact hw rfl

/-- Writing a block of the cache to the disk changes no view of a block of the disk. -/
theorem touches_flush (hb : b.toNat < 262144) (hc : s.Cached (blockVa b)) :
    Touches (fun c _ => 262144 ≤ c.toNat) s (s.flush b) := by
  refine ⟨rfl, rfl, fun _ => id, fun c o hlt => ?_, List.suffix_rfl⟩
  have hva := (at_blockVa hb).vpn_eq
  unfold Server.block
  rw [flush_pages, flush_disk]
  cases hp : s.pages (vpn diskmap + c) with
  | some p => rfl
  | none =>
    have hne : c * sect2blk ≠ b * sect2blk := fun he => by
      have h8 : sect2blk.toNat = 8 := rfl
      have hcb : c = b := by
        have hmul := congrArg BitVec.toNat he
        rw [BitVec.toNat_mul, BitVec.toNat_mul, h8] at hmul
        exact BitVec.eq_of_toNat_eq (by omega)
      unfold Server.Cached at hc
      rw [hva, ← hcb, hp] at hc
      exact absurd hc (by simp)
    simp only [Function.update_of_ne hne]

theorem block_of_page {p : Cached} (hb : b.toNat < 262144)
    (hp : s.pages (vpn (blockVa b)) = some p) : s.block b = p.data := by
  unfold Server.block
  rw [← (at_blockVa hb).vpn_eq, hp]

theorem wp_writeBlock {Q : Except Err Unit → Server → Prop} (hb : b.toNat < 262144)
    (hc : s.Cached (blockVa b)) (hQ : Q (.ok ()) (s.flush b)) : (writeBlock b).wp Q E s := by
  obtain ⟨p, hp⟩ := Option.isSome_iff_exists.mp hc
  unfold Server.flush at hQ
  rw [block_of_page hb hp] at hQ
  unfold writeBlock
  rw [wp_bind]
  refine wp_blockIsMapped hb ?_
  simp only
  rw [wp_ite]
  refine ⟨fun _ => ?_, fun hn => absurd hc hn⟩
  rw [wp_bind]
  refine wp_diskaddr hb ?_
  simp only
  unfold writeDisk
  rw [wp_get_bind, hp]
  exact wp_modify.mpr hQ

end Bits

/-! ## Taking a block -/

/-- The bit of block `b`, the first free one, has been cleared. -/
structure Claimed (s s' : Server) (b : Word) : Prop where
  range : 3 ≤ b.toNat ∧ b < s.nblk
  free : s.Free b
  least : ∀ c, 3 ≤ c.toNat → c < s.nblk → s.Free c → b.toNat ≤ c.toNat
  touches : Touches s.AllocWords s s'
  bits : ∀ c, c < s.nblk → (s'.Free c ↔ s.Free c ∧ c ≠ b)
  pages : ∀ va, s'.Cached va ↔ s.Cached va

/-- Block `b` has been taken, and its page is in the cache. -/
structure Taken (s s' : Server) (b : Word) : Prop where
  range : 3 ≤ b.toNat ∧ b < s.nblk
  free : s.Free b
  least : ∀ c, 3 ≤ c.toNat → c < s.nblk → s.Free c → b.toNat ≤ c.toNat
  touches : Touches (fun c o => s.AllocWords c o ∨ (c = b ∧ ¬s.Cached (blockVa b))) s s'
  bits : ∀ c, c < s.nblk → (s'.Free c ↔ s.Free c ∧ c ≠ b)
  cached : s'.Cached (blockVa b)
  zero : ¬s.Cached (blockVa b) → ∀ o, s'.block b o = 0#32
  pages : ∀ va, s'.Cached va → s.Cached va ∨ blockOf va = b

section Take

variable {s s' : Server} {b : Word} {E : Stop → Prop}

theorem not_allocWords_super : ¬s.AllocWords 1#32 1 := by
  have h1 : (1#32 : Word).toNat = 1 := rfl
  rintro (hW | hW)
  · unfold Server.BitmapBlock at hW
    omega
  · omega

theorem claimed_setWord (hm : Mounted s) (h3 : 3 ≤ b.toNat) (hlt : b < s.nblk) (hfree : s.Free b)
    (hleast : ∀ c, 3 ≤ c.toNat → c < s.nblk → s.Free c → b.toNat ≤ c.toNat) :
    Claimed s (s.setWord (bitWordVa b) (s.view (bitWordVa b) &&& ~~~blockBit b)) b :=
  ⟨⟨h3, hlt⟩, hfree, hleast,
    touches_setWord (hm.bits b hlt) (.inl (bitmapBlock_of_at hm (inBitmap_of_lt hlt))),
    fun _ hc => free_clearBit hm hlt (inBitmap_of_lt hc), fun _ => cached_setWord_iff⟩

theorem Claimed.mounted (h : Claimed s s' b) (hm : Mounted s) : Mounted s' :=
  h.touches.mounted not_allocWords_super hm

theorem Claimed.nblk (h : Claimed s s' b) : s'.nblk = s.nblk := h.touches.nblk not_allocWords_super

/-- The bitmap goes to the disk. -/
theorem Claimed.written {c : Word} (hm : Mounted s) (h : Claimed s s' b)
    (hc : c.toNat < 262144) (hp : s'.Cached (blockVa c)) : Claimed s (s'.flush c) b := by
  have ht := touches_flush hc hp
  refine ⟨h.range, h.free, h.least, trans_of (Touches _) h.touches (ht.mono fun _ _ => .inr), fun d hd => ?_,
    h.pages⟩
  have hat := at_bitWordVa (h.mounted hm) (inBitmap_of_lt (h.nblk.symm ▸ hd))
  have hview : _ = s'.view (bitWordVa d) := ht.view fun hW => by
    rw [hat.blockOf_eq] at hW
    exact absurd hat.block (not_lt.mpr hW)
  rw [← h.bits d hd]
  unfold Server.Free
  rw [hview]

/-- The block of the bitmap that has the bit of a block is in the cache. -/
theorem cached_bitmapBlock (hm : Mounted s) (hlt : b < s.nblk) :
    (b / bit2blk + 2#32).toNat < 262144 ∧ s.Cached (blockVa (b / bit2blk + 2#32)) := by
  have hat := at_bitWordVa hm (inBitmap_of_lt hlt)
  have hsz := hm.size
  have hb : b.toNat < s.nblk.toNat := hlt
  have heq : b / bit2blk + 2#32 = BitVec.ofNat 32 (b.toNat / 32768 + 2) := by
    have h1 : bit2blk.toNat = 32768 := rfl
    have h2 : (2#32 : Word).toNat = 2 := rfl
    refine BitVec.eq_of_toNat_eq ?_
    rw [BitVec.toNat_add, BitVec.toNat_udiv, h1, h2, BitVec.toNat_ofNat]
  rw [heq]
  refine ⟨hat.block, (hm.bits b hlt).of_vpn ?_⟩
  exact (at_blockVa hat.block).vpn_eq.trans hat.vpn_eq.symm

/-- The server when block `b` has been taken from the bitmap. -/
def Server.claim (s : Server) (b : Word) : Server :=
  (s.setWord (bitWordVa b) (s.view (bitWordVa b) &&& ~~~blockBit b)).flush (b / bit2blk + 2#32)

/-- Block `b` is the first free one from block 3 on. -/
structure Least (s : Server) (b : Word) : Prop where
  range : 3 ≤ b.toNat ∧ b < s.nblk
  free : s.Free b
  least : ∀ c, 3 ≤ c.toNat → c < s.nblk → s.Free c → b.toNat ≤ c.toNat

theorem claimed_claim (hm : Mounted s) (h : Least s b) : Claimed s (s.claim b) b := by
  have hclaim := claimed_setWord hm h.range.1 h.range.2 h.free h.least
  have hblk := cached_bitmapBlock (hclaim.mounted hm) (hclaim.nblk.symm ▸ h.range.2)
  exact hclaim.written hm hblk.1 hblk.2

/-- The search of `alloc_block_num` takes the first free block of the list. -/
theorem wp_allocSearch {Q : Except Err Word → Server → Prop} (hm : Mounted s) {bs : List ℕ}
    (hbs : ∀ n ∈ bs, 3 ≤ n ∧ n < s.nblk.toNat) (hsorted : bs.Pairwise (· < ·))
    (hall : ∀ c, 3 ≤ c.toNat → c < s.nblk → s.Free c → c.toNat ∈ bs)
    (hnone : (∀ n ∈ bs, ¬s.Free (BitVec.ofNat 32 n)) → Q (.error .noDisk) s)
    (hok : ∀ b, Least s b → Q (.ok b) (s.claim b)) : (allocSearch bs).wp Q E s := by
  induction bs with
  | nil => exact wp_throw.mpr (hnone fun n hn => absurd hn List.not_mem_nil)
  | cons n bs ih =>
    obtain ⟨h3, hn⟩ := hbs n List.mem_cons_self
    have hsz := hm.size
    have hval : (BitVec.ofNat 32 n).toNat = n := by
      rw [BitVec.toNat_ofNat]
      omega
    have hlt : BitVec.ofNat 32 n < s.nblk := by
      rw [BitVec.lt_def, hval]
      exact hn
    unfold allocSearch
    simp only
    rw [wp_bind]
    refine wp_blockIsFree hm hlt ?_
    simp only
    rw [wp_ite, decide_eq_true_iff]
    obtain ⟨hfirst, hsorted'⟩ := List.pairwise_cons.mp hsorted
    refine ⟨fun hfree => ?_, fun hused => ih (fun m hm' => hbs m (List.mem_cons_of_mem n hm')) hsorted'
      (fun c h3' hc hfree => ?_) fun hall => hnone fun m hmem => ?_⟩
    · have hfound : Least s (BitVec.ofNat 32 n) := ⟨⟨hval.symm ▸ h3, hlt⟩, hfree, fun c h3' hc hfree' => by
        rw [hval]
        rcases List.mem_cons.mp (hall c h3' hc hfree') with he | hmem
        · exact he.ge
        · exact (hfirst _ hmem).le⟩
      have hclaim := claimed_setWord hm hfound.range.1 hlt hfree hfound.least
      have hblk := cached_bitmapBlock (hclaim.mounted hm) (hclaim.nblk.symm ▸ hlt)
      rw [wp_bind]
      refine wp_bitmapVa hm ?_
      simp only
      rw [wp_bind]
      refine wp_load (hm.bits _ hlt) ?_
      simp only
      rw [wp_bind]
      refine wp_store (hm.bits _ hlt) ?_
      simp only
      rw [wp_bind]
      refine wp_writeBlock hblk.1 hblk.2 (wp_pure.mpr ?_)
      exact hok _ hfound
    · refine (List.mem_cons.mp (hall c h3' hc hfree)).resolve_left fun he => hused ?_
      rw [← he, BitVec.ofNat_toNat, BitVec.setWidth_eq]
      exact hfree
    · rcases List.mem_cons.mp hmem with rfl | hmem
      · exact hused
      · exact hall m hmem

/-- `alloc_block_num` takes the first free block, or changes nothing. -/
theorem wp_allocBlockNum_claim {Q : Except Err Word → Server → Prop} (hm : Mounted s)
    (hnone : (∀ b, 3 ≤ b.toNat → b < s.nblk → ¬s.Free b) → Q (.error .noDisk) s)
    (hok : ∀ b, Least s b → Q (.ok b) (s.claim b)) : allocBlockNum.wp Q E s := by
  unfold allocBlockNum
  rw [wp_bind]
  refine wp_nblocks hm ?_
  simp only
  have hmem : ∀ b, 3 ≤ b.toNat → b < s.nblk → b.toNat ∈ List.range' 3 (s.nblk.toNat - 3) :=
    fun b h3 hlt => by
      have hb : b.toNat < s.nblk.toNat := hlt
      exact List.mem_range'_1.mpr (by omega)
  refine wp_allocSearch hm (fun n hn => ?_) List.pairwise_lt_range' (fun b h3 hlt _ => hmem b h3 hlt)
    (fun hall => hnone fun b h3 hlt hfree => ?_) hok
  · have hn' := List.mem_range'_1.mp hn
    omega
  · refine hall b.toNat (hmem b h3 hlt) ?_
    rw [BitVec.ofNat_toNat, BitVec.setWidth_eq]
    exact hfree

theorem wp_allocBlockNum {Q : Except Err Word → Server → Prop} (hm : Mounted s)
    (hnone : (∀ b, 3 ≤ b.toNat → b < s.nblk → ¬s.Free b) → Q (.error .noDisk) s)
    (hok : ∀ b s', Claimed s s' b → Q (.ok b) s') : allocBlockNum.wp Q E s :=
  wp_allocBlockNum_claim hm hnone fun b h => hok b _ (claimed_claim hm h)

/-- The block had a page before it was taken. -/
theorem Claimed.taken (h : Claimed s s' b) (hc : s'.Cached (blockVa b)) : Taken s s' b :=
  ⟨h.range, h.free, h.least, h.touches.mono fun _ _ => .inl, h.bits, hc,
    fun hn => absurd ((h.pages _).mp hc) hn, fun va hva => .inl ((h.pages va).mp hva)⟩

/-- The block gets a page of zeros. -/
theorem Claimed.mapped (hm : Mounted s) (h : Claimed s s' b) (hnone : ¬s'.Cached (blockVa b))
    {g : List Bool} (hg : g <:+ s'.grants) : Taken s
      { s' with
        pages := Function.update s'.pages (vpn (blockVa b)) (some zeroCached)
        grants := g } b := by
  have hb := lt_capacity hm h.range.2
  have hva := (at_blockVa hb).vpn_eq
  have hne : ∀ c, c ≠ b → vpn diskmap + c ≠ vpn (blockVa b) := fun c hc he =>
    hc ((BitVec.add_right_inj _).mp (he.trans hva))
  have hblock : ∀ c, c ≠ b → ∀ o, Server.block { s' with
      pages := Function.update s'.pages (vpn (blockVa b)) (some zeroCached)
      grants := g } c o = s'.block c o := fun c hc o => by
    unfold Server.block
    simp only [Function.update_of_ne (hne c hc)]
  refine ⟨h.range, h.free, h.least, ?_, fun c hc => ?_, cached_update rfl, fun _ o => ?_, fun va hva => ?_⟩
  · refine ⟨h.touches.super, h.touches.bitmap, fun va hc => ?_, fun c o hW => ?_,
      hg.trans h.touches.grants⟩
    · have hc' := (h.pages va).mpr hc
      unfold Server.Cached at hc' ⊢
      by_cases hv : vpn va = vpn (blockVa b)
      · simp only [hv, Function.update_self]
        rfl
      · simp only [Function.update_of_ne hv]
        exact hc'
    · obtain ⟨hA, hcb⟩ := not_or.mp hW
      rw [hblock c fun he => hcb ⟨he, fun hc => hnone ((h.pages _).mpr hc)⟩]
      exact h.touches.block c o hA
  · have hat := at_bitWordVa hm (inBitmap_of_lt hc)
    have hcached : s'.Cached (bitWordVa c) := (h.pages _).mpr (hm.bits c hc)
    have hcb : blockOf (bitWordVa c) ≠ b := fun he => by
      refine hnone (hcached.of_vpn ?_)
      rw [hva, hat.vpn_eq, ← he, hat.blockOf_eq]
    rw [← h.bits c hc]
    unfold Server.Free Server.view
    rw [hblock _ hcb]
  · unfold Server.block
    rw [← hva]
    simp only [Function.update_self]
    rfl
  · unfold Server.Cached at hva
    by_cases hv : vpn va = vpn (blockVa b)
    · refine .inr ?_
      unfold blockOf
      rw [hv, (at_blockVa hb).vpn_eq, BitVec.add_comm, BitVec.add_sub_cancel]
    · simp only [Function.update_of_ne hv] at hva
      exact .inl ((h.pages va).mp hva)

/-- `alloc_block` returns a block that it has taken, or changes nothing. -/
theorem wp_allocBlock {Q : Except Err Word → Server → Prop} (hm : Mounted s)
    (hnone : (∀ b, 3 ≤ b.toNat → b < s.nblk → ¬s.Free b) → Q (.error .noDisk) s)
    (hmem : ∀ s', Touches s.AllocWords s s' → false ∈ s.grants → Q (.error .noMem) s')
    (hok : ∀ b s', Taken s s' b → Q (.ok b) s') : allocBlock.wp Q E s := by
  unfold allocBlock
  rw [wp_bind]
  refine wp_allocBlockNum hm hnone fun b s₁ h => ?_
  have hm₁ := h.mounted hm
  have hb := lt_capacity hm h.range.2
  have hlt : b < s₁.nblk := h.nblk.symm ▸ h.range.2
  have h0 : b ≠ 0#32 := fun h0 => by
    have h3 := h.range.1
    rw [h0] at h3
    exact absurd h3 (by decide)
  simp only
  refine wp_attempt_seq (R := fun r s₂ => (r = .ok () ∧ Taken s s₂ b) ∨
    (r = .error .noMem ∧ s₂ = { s₁ with grants := s₁.grants.tail } ∧ false ∈ s₁.grants))
    ?_ fun r s₂ hr => ?_
  · unfold mapBlock
    rw [wp_bind]
    refine wp_blockIsMapped hb ?_
    simp only
    rw [wp_ite]
    refine ⟨fun hc => wp_pure.mpr (.inl ⟨rfl, h.taken hc⟩), fun hc => ?_⟩
    rw [wp_bind]
    refine wp_diskaddr hb ?_
    unfold memAlloc setPage
    simp only
    rw [legal_blockVa hb, if_neg (by simp), wp_bind]
    refine wp_granted ?_
    simp only
    rw [wp_ite]
    refine ⟨fun _ => wp_modify.mpr (.inl ⟨rfl, h.mapped hm hc (List.tail_suffix _)⟩), fun hg =>
      wp_throw.mpr (.inr ⟨rfl, rfl, head_grants hg⟩)⟩
  · rcases hr with ⟨rfl, ht⟩ | ⟨rfl, rfl, hg⟩
    · exact wp_pure.mpr (hok b s₂ ht)
    · have htail : Touches s.AllocWords s₁ { s₁ with grants := s₁.grants.tail } :=
        ⟨rfl, rfl, fun _ => id, fun _ _ _ => rfl, List.tail_suffix _⟩
      have hgr := trans_of (Touches _) h.touches htail
      have hm₂ := hgr.mounted not_allocWords_super hm
      have hlt₂ : b < Server.nblk { s₁ with grants := s₁.grants.tail } := hlt
      simp only
      rw [wp_bind]
      refine wp_freeBlock hm₂ h0 hlt₂ (wp_throw.mpr (hmem _ ?_ (h.touches.grants.subset hg)))
      exact trans_of (Touches _) hgr (touches_setWord (hm₂.bits b hlt₂)
        (.inl (bitmapBlock_of_at hm (inBitmap_of_lt h.range.2))))

end Take

end Fs
end RvMos
