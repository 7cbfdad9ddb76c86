/-
The disk as the server sees it.

A block that is mapped has its words in the cache, any other block on the disk:
`block` and `view` are the words that an access finds, once `read_block` has been
called where it must.  Reading a block changes no view, and a store changes one
word of one block.  `Touches W` says that nothing but views of the words in `W` has
changed, and that the cache has only grown.
-/
import RvMos.Fs.Replies

namespace RvMos

open Lib

namespace Fs

open Sys

/-! ## Addresses -/

/-- The block that an address lies in. -/
def blockOf (va : Word) : Word := vpn va - vpn diskmap

/-- The address that `diskaddr` returns. -/
def blockVa (b : Word) : Word := diskmap + by2blk * b

/-- The address of byte `y` of block `b`. -/
structure At (va b : Word) (y : ℕ) : Prop where
  val : va.toNat = 268435456 + 4096 * b.toNat + y
  block : b.toNat < 262144
  offset : y < 4096

namespace At

variable {va va' b b' : Word} {y y' n : ℕ}

theorem vpn_eq (h : At va b y) : vpn va = vpn diskmap + b := by
  have hd : (vpn diskmap).toNat = 65536 := by decide
  have hval := h.val
  have hb := h.block
  have hy := h.offset
  refine BitVec.eq_of_toNat_eq ?_
  rw [vpn_toNat, BitVec.toNat_add, hd]
  omega

theorem blockOf_eq (h : At va b y) : blockOf va = b := by
  unfold blockOf
  rw [h.vpn_eq, BitVec.add_comm, BitVec.add_sub_cancel]

theorem wordIdx_val (h : At va b y) : (wordIdx va).val = y / 4 := by
  have hval := h.val
  have hy := h.offset
  show va.toNat / 4 % 1024 = y / 4
  omega

theorem add (h : At va b y) (hn : y + n < 4096) : At (va + BitVec.ofNat 32 n) b (y + n) := by
  have hval := h.val
  have hb := h.block
  refine ⟨?_, hb, hn⟩
  rw [BitVec.toNat_add, BitVec.toNat_ofNat]
  omega

theorem addr_inj (h : At va b y) (h' : At va b' y') : b = b' ∧ y = y' := by
  have hv := h.val
  have hv' := h'.val
  have hy := h.offset
  have hy' := h'.offset
  exact ⟨BitVec.eq_of_toNat_eq (by omega), by omega⟩

theorem inj (h : At va b y) (h' : At va' b y) : va = va' :=
  BitVec.eq_of_toNat_eq (h.val.trans h'.val.symm)

end At

theorem at_blockVa {b : Word} (hb : b.toNat < 262144) : At (blockVa b) b 0 := by
  refine ⟨?_, hb, by omega⟩
  have hd : diskmap.toNat = 268435456 := rfl
  have h4 : by2blk.toNat = 4096 := rfl
  unfold blockVa
  rw [BitVec.toNat_add, BitVec.toNat_mul, hd, h4]
  omega

/-! ## Views -/

/-- The words of a block. -/
def Server.block (s : Server) (b : Word) : Page :=
  match s.pages (vpn diskmap + b) with
  | some c => c.data
  | none => s.disk (b * sect2blk)

/-- The word at an address of the cache. -/
def Server.view (s : Server) (va : Word) : Word := s.block (blockOf va) (wordIdx va)

/-- The page of an address is mapped. -/
def Server.Cached (s : Server) (va : Word) : Prop := (s.pages (vpn va)).isSome = true

/-- `super->s_nblocks`. -/
def Server.nblk (s : Server) : Word := s.view (superVa + 4#32)

/-- `&bitmap[blockno / 32]`. -/
def bitWordVa (b : Word) : Word := diskmap + by2blk * 2#32 + 4#32 * (b / 32#32)

/-- The bit of a block in the bitmap is set. -/
def Server.Free (s : Server) (b : Word) : Prop := s.view (bitWordVa b) &&& blockBit b ≠ 0#32

instance (s : Server) (b : Word) : Decidable (s.Free b) := inferInstanceAs (Decidable (_ ≠ _))

/-- A block number that `read_block` accepts. -/
def Server.Used (s : Server) (b : Word) : Prop := b < s.nblk ∧ ¬s.Free b

instance (s : Server) (b : Word) : Decidable (s.Used b) := inferInstanceAs (Decidable (_ ∧ _))

/-- What `fs_init` has set up and checked. -/
structure Mounted (s : Server) : Prop where
  super : s.super = true
  bitmap : s.bitmap = true
  size : s.nblk.toNat ≤ 262144
  superblock : s.Cached superVa
  bits : ∀ b, b < s.nblk → s.Cached (bitWordVa b)

section Views

variable {s : Server} {va va' w : Word}

theorem vpn_blockOf (va : Word) : vpn diskmap + blockOf va = vpn va := by
  unfold blockOf
  rw [BitVec.add_comm, BitVec.sub_add_cancel]

theorem view_of_page {c : Cached} (h : s.pages (vpn va) = some c) :
    s.view va = c.data (wordIdx va) := by
  unfold Server.view Server.block
  rw [vpn_blockOf, h]

theorem word_eq_view (h : s.Cached va) : s.word va = s.view va := by
  obtain ⟨c, hc⟩ := Option.isSome_iff_exists.mp h
  rw [view_of_page hc, Server.word, hc]

theorem Server.Cached.of_vpn (h : s.Cached va) (hv : vpn va' = vpn va) : s.Cached va' := by
  unfold Server.Cached
  rw [hv]
  exact h

theorem setWord_pages (h : s.Cached va) : ∃ c, s.pages (vpn va) = some c ∧
    (s.setWord va w).pages = Function.update s.pages (vpn va)
      (some ⟨Function.update c.data (wordIdx va) w, c.dirty⟩) ∧
    (s.setWord va w).disk = s.disk := by
  obtain ⟨c, hc⟩ := Option.isSome_iff_exists.mp h
  refine ⟨c, hc, ?_⟩
  unfold Server.setWord
  rw [hc]
  exact ⟨rfl, rfl⟩

theorem block_setWord (h : s.Cached va) (b : Word) (o : Index) :
    (s.setWord va w).block b o =
      if b = blockOf va ∧ o = wordIdx va then w else s.block b o := by
  obtain ⟨c, hc, hs, hd⟩ := setWord_pages (w := w) h
  unfold Server.block
  rw [hs, hd]
  by_cases hb : b = blockOf va
  · subst hb
    simp only [vpn_blockOf, Function.update_self, hc, true_and]
    by_cases ho : o = wordIdx va
    · subst ho
      rw [Function.update_self, if_pos rfl]
    · rw [Function.update_of_ne ho, if_neg ho]
  · have hne : vpn diskmap + b ≠ vpn va := by
      intro he
      refine hb ?_
      unfold blockOf
      rw [← he, BitVec.add_comm, BitVec.add_sub_cancel]
    rw [if_neg fun he => hb he.1]
    simp only [Function.update_of_ne hne]

theorem view_setWord (h : s.Cached va) : (s.setWord va w).view va' =
    if blockOf va' = blockOf va ∧ wordIdx va' = wordIdx va then w else s.view va' :=
  block_setWord h ..

theorem view_setWord_at {b b' : Word} {y y' : ℕ} (h : s.Cached va) (ha : At va b y)
    (ha' : At va' b' y') : (s.setWord va w).view va' =
      if b' = b ∧ y' / 4 = y / 4 then w else s.view va' := by
  rw [view_setWord h, ha.blockOf_eq, ha'.blockOf_eq]
  simp only [Fin.ext_iff, ha.wordIdx_val, ha'.wordIdx_val]

theorem cached_setWord (h : s.Cached va') : (s.setWord va w).Cached va' := by
  unfold Server.setWord
  cases hc : s.pages (vpn va) with
  | none => exact h
  | some c =>
    unfold Server.Cached
    by_cases hv : vpn va' = vpn va
    · simp only [hv, Function.update_self]
      rfl
    · simp only [Function.update_of_ne hv]
      exact h

theorem cached_setWord_iff {va' : Word} : (s.setWord va w).Cached va' ↔ s.Cached va' := by
  refine ⟨fun h => ?_, cached_setWord⟩
  unfold Server.setWord at h
  cases hc : s.pages (vpn va) with
  | none =>
    rw [hc] at h
    exact h
  | some c =>
    rw [hc] at h
    unfold Server.Cached at h ⊢
    by_cases hv : vpn va' = vpn va
    · rw [hv, hc]
      rfl
    · simp only [Function.update_of_ne hv] at h
      exact h

end Views

/-! ## What a procedure may change -/

/-- No view changes but those of the words in `W`; the cache has only grown. -/
structure Touches (W : Word → Index → Prop) (s s' : Server) : Prop where
  super : s'.super = s.super
  bitmap : s'.bitmap = s.bitmap
  cached : ∀ va, s.Cached va → s'.Cached va
  block : ∀ b o, ¬W b o → s'.block b o = s.block b o
  grants : s'.grants <:+ s.grants

instance (W : Word → Index → Prop) : IsPreorder Server (Touches W) where
  refl _ := ⟨rfl, rfl, fun _ => id, fun _ _ _ => rfl, List.suffix_rfl⟩
  trans _ _ _ h h' :=
    ⟨h'.super.trans h.super, h'.bitmap.trans h.bitmap, fun va hva => h'.cached va (h.cached va hva),
      fun b o hW => (h'.block b o hW).trans (h.block b o hW), h'.grants.trans h.grants⟩

/-- No view changes, and only blocks in use come into the cache. -/
structure Reads (s s' : Server) : Prop extends Touches (fun _ _ => False) s s' where
  pages : ∀ va, s'.Cached va → s.Cached va ∨ s.Used (blockOf va)

theorem Touches.used_iff {s s' : Server} (h : Touches (fun _ _ => False) s s') (b : Word) :
    s'.Used b ↔ s.Used b := by
  have hv : ∀ va, s'.view va = s.view va := fun va => h.block _ _ id
  unfold Server.Used Server.Free Server.nblk
  rw [hv, hv]

instance : IsPreorder Server Reads where
  refl s := ⟨refl_of (Touches _) s, fun _ => .inl⟩
  trans _ _ _ h h' := by
    refine ⟨trans_of (Touches _) h.toTouches h'.toTouches, fun va hc => ?_⟩
    rcases h'.pages va hc with hc | hu
    · exact h.pages va hc
    · exact .inr ((h.toTouches.used_iff _).mp hu)

section Touches

variable {s s' : Server} {W W' : Word → Index → Prop} {va b w : Word} {o : Index}

theorem Touches.mono (h : Touches W s s') (hW : ∀ b o, W b o → W' b o) : Touches W' s s' :=
  ⟨h.super, h.bitmap, h.cached, fun b o hn => h.block b o fun hb => hn (hW b o hb), h.grants⟩

theorem Reads.touches (h : Reads s s') : Touches W s s' := h.toTouches.mono fun _ _ => False.elim

theorem Touches.view (h : Touches W s s') (hva : ¬W (blockOf va) (wordIdx va)) :
    s'.view va = s.view va := h.block _ _ hva

theorem Reads.view (h : Reads s s') (va : Word) : s'.view va = s.view va :=
  Touches.view h.toTouches id

theorem touches_setWord (h : s.Cached va) (hW : W (blockOf va) (wordIdx va)) :
    Touches W s (s.setWord va w) := by
  refine ⟨?_, ?_, fun _ => cached_setWord, fun b o hn => ?_, ?_⟩
  · unfold Server.setWord
    split
    · rfl
    · rfl
  · unfold Server.setWord
    split
    · rfl
    · rfl
  · rw [block_setWord h, if_neg]
    rintro ⟨rfl, rfl⟩
    exact hn hW
  · unfold Server.setWord
    split
    · exact List.suffix_rfl
    · exact List.suffix_rfl

/-- A block comes into the cache. -/
theorem reads_mapped {va : Word} (hva : vpn va = vpn diskmap + b) (hnone : s.pages (vpn va) = none)
    (hu : s.Used b) (d : Bool) {g : List Bool} (hg : g <:+ s.grants) :
    Reads s { s with
      pages := Function.update s.pages (vpn va) (some ⟨s.disk (b * sect2blk), d⟩)
      grants := g } := by
  refine ⟨⟨rfl, rfl, fun va' h => ?_, fun b' o _ => ?_, hg⟩, fun va' h => ?_⟩
  · unfold Server.Cached
    by_cases hv : vpn va' = vpn va
    · simp only [hv, Function.update_self]
      rfl
    · simp only [Function.update_of_ne hv]
      exact h
  · unfold Server.block
    by_cases hb : b' = b
    · subst hb
      rw [← hva, hnone]
      simp only [Function.update_self]
    · have hne : vpn diskmap + b' ≠ vpn va := by
        rw [hva]
        exact fun he => hb ((BitVec.add_right_inj _).mp he)
      simp only [Function.update_of_ne hne]
  · unfold Server.Cached at h
    by_cases hv : vpn va' = vpn va
    · have hb : blockOf va' = b := by
        unfold blockOf
        rw [hv, hva, BitVec.add_comm, BitVec.add_sub_cancel]
      exact .inr (hb.symm ▸ hu)
    · simp only [Function.update_of_ne hv] at h
      exact .inl h

theorem Touches.mounted (h : Touches W s s') (hW : ¬W 1#32 1) (hm : Mounted s) : Mounted s' := by
  have hsz : s'.nblk = s.nblk := Touches.view h hW
  refine ⟨h.super.trans hm.super, h.bitmap.trans hm.bitmap, hsz ▸ hm.size,
    h.cached _ hm.superblock, fun b hb => h.cached _ (hm.bits b (hsz ▸ hb))⟩

theorem Touches.nblk (h : Touches W s s') (hW : ¬W 1#32 1) : s'.nblk = s.nblk :=
  Touches.view h hW

theorem Reads.nblk (h : Reads s s') : s'.nblk = s.nblk := h.toTouches.nblk id

theorem Reads.free (h : Reads s s') (c : Word) : s'.Free c ↔ s.Free c := by
  unfold Server.Free
  rw [h.view]

end Touches

/-! ## Running the cache -/

/-- The kernel had no frame for a page of the cache. -/
def Short (s : Server) (c : Stop) : Prop :=
  c = .kernel "alloc page failed!\n" ∧ false ∈ s.grants

/-- The kernel had no frame, and a block in use was not in the cache. -/
def Starved (s : Server) (c : Stop) : Prop :=
  Short s c ∧ ∃ b, s.Used b ∧ ¬s.Cached (blockVa b)

theorem Starved.short {s : Server} {c : Stop} (h : Starved s c) : Short s c := h.1

/-- A block that is in use now was in use before, or it has come into the cache. -/
theorem Starved.back {W : Word → Index → Prop} {s s' : Server} {c : Stop} (h : Touches W s s')
    (hused : ∀ b, s'.Used b → s.Used b ∨ s'.Cached (blockVa b)) (hc : Starved s' c) : Starved s c := by
  obtain ⟨⟨hk, hg⟩, b, hu, hout⟩ := hc
  exact ⟨⟨hk, h.grants.subset hg⟩, b, (hused b hu).resolve_right hout, fun hin => hout (h.cached _ hin)⟩

theorem Starved.of_reads {s s' : Server} {c : Stop} (h : Reads s s') (hc : Starved s' c) :
    Starved s c :=
  hc.back h.toTouches fun b hu => .inl ((h.toTouches.used_iff b).mp hu)

section Rules

variable {s : Server} {va b w : Word} {E : Stop → Prop}

theorem wp_touch {Q : Except Err Unit → Server → Prop} (h : s.Cached va) (hQ : Q (.ok ()) s) :
    (touch va).wp Q E s := by
  obtain ⟨c, hc⟩ := Option.isSome_iff_exists.mp h
  unfold touch
  rw [wp_get_bind, hc]
  exact wp_pure.mpr hQ

theorem wp_load {Q : Except Err Word → Server → Prop} (h : s.Cached va) (hQ : Q (.ok (s.view va)) s) :
    (load va).wp Q E s := by
  unfold load
  rw [wp_bind]
  refine wp_touch h ?_
  rw [wp_get_bind, wp_pure, word_eq_view h]
  exact hQ

theorem wp_store {Q : Except Err Unit → Server → Prop} (h : s.Cached va)
    (hQ : Q (.ok ()) (s.setWord va w)) : (store va w).wp Q E s := by
  unfold store
  rw [wp_bind]
  exact wp_touch h (wp_modify.mpr hQ)

theorem wp_nblocks {Q : Except Err Word → Server → Prop} (hm : Mounted s)
    (hQ : Q (.ok s.nblk) s) : nblocks.wp Q E s :=
  wp_load (hm.superblock.of_vpn (by decide)) hQ

theorem wp_bitmapVa {Q : Except Err Word → Server → Prop} (hm : Mounted s)
    (hQ : Q (.ok (bitWordVa b)) s) : (bitmapVa b).wp Q E s := by
  unfold bitmapVa
  rw [wp_get_bind, if_pos hm.bitmap]
  exact wp_pure.mpr hQ

theorem wp_blockIsFree {Q : Except Err Bool → Server → Prop} (hm : Mounted s) (hlt : b < s.nblk)
    (hQ : Q (.ok (decide (s.Free b))) s) : (blockIsFree b).wp Q E s := by
  unfold blockIsFree
  rw [wp_get_bind, if_pos hm.super, wp_bind]
  refine wp_nblocks hm ?_
  simp only
  rw [if_neg (BitVec.not_le.mpr hlt), wp_bind]
  refine wp_bitmapVa hm ?_
  simp only
  rw [wp_bind]
  refine wp_load (hm.bits b hlt) (wp_pure.mpr ?_)
  have hb : (s.view (bitWordVa b) &&& blockBit b != 0#32) = decide (s.Free b) :=
    Bool.eq_iff_iff.mpr (by rw [bne_iff_ne, decide_eq_true_iff]; exact Iff.rfl)
  exact hb ▸ hQ

theorem wp_checkBlock {Q : Except Err Unit → Server → Prop} (hm : Mounted s) (hlt : b < s.nblk)
    (hused : ¬s.Free b) (hQ : Q (.ok ()) s) : (checkBlock b).wp Q E s := by
  unfold checkBlock
  rw [wp_get_bind, wp_bind, wp_when]
  have hrest : (do
      when (← get).bitmap do
        when (← blockIsFree b) (halt (.panic "reading free block %08x\n")) : Proc Unit).wp Q E s := by
    rw [wp_get_bind, wp_when]
    refine ⟨fun _ => ?_, fun hn => absurd hm.bitmap hn⟩
    rw [wp_bind]
    refine wp_blockIsFree hm hlt ?_
    simp only
    rw [wp_when, decide_eq_true_iff]
    exact ⟨fun h => absurd h hused, fun _ => hQ⟩
  refine ⟨fun _ => ?_, fun hn => absurd hm.super hn⟩
  rw [wp_bind]
  refine wp_nblocks hm ?_
  simp only
  rw [wp_when]
  exact ⟨fun h => absurd hlt (BitVec.not_lt.mpr h), fun _ => hrest⟩

theorem lt_capacity (hm : Mounted s) (hlt : b < s.nblk) : b.toNat < 262144 := by
  have hsz := hm.size
  have hb : b.toNat < s.nblk.toNat := hlt
  omega

theorem wp_diskaddr {Q : Except Err Word → Server → Prop} (hb : b.toNat < 262144)
    (hQ : Q (.ok (blockVa b)) s) : (diskaddr b).wp Q E s := by
  have hle : ¬diskmap + by2blk * b > diskmax + diskmap := by
    have hval := (at_blockVa hb).val
    refine BitVec.not_lt.mpr ?_
    show (blockVa b).toNat ≤ (diskmax + diskmap).toNat
    have hmax : (diskmax + diskmap).toNat = 1342177280 := by decide
    omega
  unfold diskaddr
  simp only
  rw [if_neg hle]
  exact wp_pure.mpr hQ

theorem wp_blockIsMapped {Q : Except Err Bool → Server → Prop} (hb : b.toNat < 262144)
    (hQ : Q (.ok (s.pages (vpn (blockVa b))).isSome) s) : (blockIsMapped b).wp Q E s := by
  unfold blockIsMapped
  rw [wp_bind]
  exact wp_diskaddr hb (wp_get_bind.mpr (wp_pure.mpr hQ))

theorem legal_blockVa (hb : b.toNat < 262144) : illegalVa (blockVa b) = false := by
  have hval := (at_blockVa hb).val
  have hlo : utemp.toNat = 4186112 := rfl
  have hhi : utop.toNat = 2134900736 := rfl
  have h1 : ¬blockVa b < utemp := BitVec.not_lt.mpr (show utemp.toNat ≤ (blockVa b).toNat by omega)
  have h2 : ¬utop ≤ blockVa b := BitVec.not_le.mpr (show (blockVa b).toNat < utop.toNat by omega)
  simp [illegalVa, h1, h2]

theorem cached_update {va : Word} {c : Cached} {s' : Server}
    (h : s'.pages = Function.update s.pages (vpn va) (some c)) : s'.Cached va := by
  unfold Server.Cached
  rw [h, Function.update_self]
  rfl

theorem head_grants (h : ¬s.grants.headD true = true) : false ∈ s.grants := by
  cases hg : s.grants with
  | nil => rw [hg] at h; exact absurd rfl h
  | cons g gs =>
    rw [hg] at h
    have hfalse : g = false := Bool.eq_false_iff.mpr h
    exact hfalse ▸ List.mem_cons_self

/-- `read_block` of a block in use puts it into the cache and returns its address. -/
theorem wp_readBlock {Q : Except Err Word → Server → Prop} (hm : Mounted s) (hlt : b < s.nblk)
    (hused : ¬s.Free b)
    (hQ : ∀ s', Reads s s' → s'.Cached (blockVa b) → Q (.ok (blockVa b)) s')
    (hE : ∀ c, Starved s c → E c) : (readBlock b).wp Q E s := by
  have hb := lt_capacity hm hlt
  have hva := (at_blockVa hb).vpn_eq
  unfold readBlock
  rw [wp_bind]
  refine wp_checkBlock hm hlt hused ?_
  simp only
  rw [wp_bind]
  refine wp_diskaddr hb ?_
  simp only
  rw [wp_bind]
  refine wp_blockIsMapped hb ?_
  simp only
  rw [wp_ite]
  refine ⟨fun hmap => wp_pure.mpr (hQ s (refl_of Reads s) hmap), fun hmap => ?_⟩
  have hnone : s.pages (vpn (blockVa b)) = none := by
    simpa using hmap
  -- the page may come from `ecall_mem_alloc` or from the fault of the disk's copy
  refine wp_attempt_seq (R := fun _ s₁ =>
    s₁ = { s with pages := Function.update s.pages (vpn (blockVa b)) (some zeroCached),
                  grants := s.grants.tail } ∨
    s₁ = { s with grants := s.grants.tail } ∧ ¬s.grants.headD true = true) ?_ fun _ s₁ hs₁ => ?_
  · unfold memAlloc setPage
    rw [legal_blockVa hb, if_neg (by simp), wp_bind]
    refine wp_granted ?_
    simp only
    rw [wp_ite]
    exact ⟨fun _ => wp_modify.mpr (.inl rfl), fun hg => wp_throw.mpr (.inr ⟨rfl, hg⟩)⟩
  · unfold readDisk
    rw [wp_bind, wp_get_bind]
    rcases hs₁ with rfl | ⟨rfl, hg⟩
    · simp only [Function.update_self]
      refine wp_modify.mpr (wp_pure.mpr (hQ _ ?_ (cached_update rfl)))
      have hreads := reads_mapped hva hnone ⟨hlt, hused⟩ zeroCached.dirty (List.tail_suffix s.grants)
      rw [Function.update_idem]
      exact hreads
    · simp only [hnone]
      rw [wp_bind]
      refine wp_granted ?_
      simp only
      rw [wp_ite]
      refine ⟨fun _ => wp_modify.mpr (wp_pure.mpr (hQ _ ?_ (cached_update rfl))), fun _ =>
        wp_halt.mpr (hE _ ⟨⟨rfl, head_grants hg⟩, b, ⟨hlt, hused⟩, hmap⟩)⟩
      exact reads_mapped hva hnone ⟨hlt, hused⟩ false
        ((List.tail_suffix _).trans (List.tail_suffix s.grants))

/-- `free_block` of a block of the file system sets its bit. -/
theorem wp_freeBlock {Q : Except Err Unit → Server → Prop} (hm : Mounted s) (h0 : b ≠ 0#32)
    (hlt : b < s.nblk)
    (hQ : Q (.ok ()) (s.setWord (bitWordVa b) (s.view (bitWordVa b) ||| blockBit b))) :
    (freeBlock b).wp Q E s := by
  unfold freeBlock
  rw [wp_bind]
  refine wp_nblocks hm ?_
  simp only
  rw [if_neg (not_or.mpr ⟨h0, BitVec.not_le.mpr hlt⟩), wp_bind]
  refine wp_bitmapVa hm ?_
  simp only
  rw [wp_bind]
  exact wp_load (hm.bits b hlt) (wp_store (hm.bits b hlt) hQ)

end Rules

/-! ## The bitmap -/

/-- The bit of a block is in the blocks of the bitmap. -/
def Server.InBitmap (s : Server) (b : Word) : Prop := b.toNat / 32768 ≤ s.nblk.toNat / 32768

/-- A block of the bitmap. -/
def Server.BitmapBlock (s : Server) (b : Word) : Prop :=
  2 ≤ b.toNat ∧ b.toNat ≤ s.nblk.toNat / 32768 + 2

section Bitmap

variable {s s' : Server} {b b' va w : Word}

theorem Reads.bitmapBlock (h : Reads s s') (c : Word) : s'.BitmapBlock c ↔ s.BitmapBlock c := by
  unfold Server.BitmapBlock
  rw [h.nblk]

theorem Reads.inBitmap (h : Reads s s') (c : Word) : s'.InBitmap c ↔ s.InBitmap c := by
  unfold Server.InBitmap
  rw [h.nblk]

theorem inBitmap_of_lt (h : b < s.nblk) : s.InBitmap b :=
  Nat.div_le_div_right (Nat.le_of_lt h)

theorem at_bitWord (hb : b.toNat < 294912) :
    At (bitWordVa b) (BitVec.ofNat 32 (b.toNat / 32768 + 2)) (4 * (b.toNat / 32 % 1024)) := by
  have hval : (BitVec.ofNat 32 (b.toNat / 32768 + 2)).toNat = b.toNat / 32768 + 2 := by
    rw [BitVec.toNat_ofNat]
    omega
  have h4 : (4#32 : Word).toNat = 4 := rfl
  have h32 : (32#32 : Word).toNat = 32 := rfl
  have hbase : (diskmap + by2blk * 2#32).toNat = 268443648 := by decide
  refine ⟨?_, by omega, by omega⟩
  unfold bitWordVa
  rw [BitVec.toNat_add, BitVec.toNat_mul, BitVec.toNat_udiv, hbase, h4, h32, hval]
  omega

theorem at_bitWordVa (hm : Mounted s) (hb : s.InBitmap b) :
    At (bitWordVa b) (BitVec.ofNat 32 (b.toNat / 32768 + 2)) (4 * (b.toNat / 32 % 1024)) := by
  have hsz := hm.size
  unfold Server.InBitmap at hb
  exact at_bitWord (by omega)

theorem bitmapBlock_of_at (hm : Mounted s) (hb : s.InBitmap b) :
    s.BitmapBlock (blockOf (bitWordVa b)) := by
  have hsz := hm.size
  rw [(at_bitWordVa hm hb).blockOf_eq]
  unfold Server.InBitmap at hb
  unfold Server.BitmapBlock
  rw [BitVec.toNat_ofNat]
  omega

/-- Two blocks have their bits in the same word. -/
theorem bitWordVa_eq_iff (hm : Mounted s) (hb : s.InBitmap b) (hb' : s.InBitmap b') :
    bitWordVa b' = bitWordVa b ↔ b'.toNat / 32 = b.toNat / 32 := by
  have hsz := hm.size
  refine ⟨fun h => ?_, fun h => ?_⟩
  · have hat := at_bitWordVa hm hb
    have hat' := at_bitWordVa hm hb'
    rw [h] at hat'
    obtain ⟨h1, h2⟩ := hat.addr_inj hat'
    unfold Server.InBitmap at hb hb'
    have h3 := congrArg BitVec.toNat h1
    rw [BitVec.toNat_ofNat, BitVec.toNat_ofNat] at h3
    omega
  · unfold bitWordVa
    have hd : b' / 32#32 = b / 32#32 := BitVec.eq_of_toNat_eq (by
      rw [BitVec.toNat_udiv, BitVec.toNat_udiv]
      exact h)
    rw [hd]

theorem blockBit_and_iff : blockBit b &&& blockBit b' ≠ 0#32 ↔ b.toNat % 32 = b'.toNat % 32 := by
  have h32 : ∀ c : Word, (c % 32#32).toNat = c.toNat % 32 := fun c => BitVec.toNat_umod
  have hall : ∀ i j : Fin 32, ((1#32 <<< i.val : Word) &&& (1#32 <<< j.val) ≠ 0#32) ↔ i = j := by
    decide
  unfold blockBit
  rw [h32, h32]
  exact (hall ⟨b.toNat % 32, Nat.mod_lt _ (by omega)⟩
    ⟨b'.toNat % 32, Nat.mod_lt _ (by omega)⟩).trans Fin.ext_iff

/-- A new word of the bitmap decides the blocks that have their bits in it. -/
theorem free_setBitWord (hm : Mounted s) (hlt : b < s.nblk) (hb' : s.InBitmap b') (w : Word) :
    (s.setWord (bitWordVa b) w).Free b' ↔
      if b'.toNat / 32 = b.toNat / 32 then w &&& blockBit b' ≠ 0#32 else s.Free b' := by
  have hb := inBitmap_of_lt hlt
  have hat := at_bitWordVa hm hb
  have hat' := at_bitWordVa hm hb'
  have hview := view_setWord_at (w := w) (hm.bits b hlt) hat hat'
  have hsame := bitWordVa_eq_iff hm hb hb'
  unfold Server.Free
  rw [hview]
  by_cases hw : b'.toNat / 32 = b.toNat / 32
  · rw [hsame.mpr hw] at hat'
    obtain ⟨h1, h2⟩ := hat'.addr_inj hat
    rw [if_pos ⟨h1, by omega⟩, if_pos hw]
  · rw [if_neg hw, if_neg]
    rintro ⟨h1, h2⟩
    refine hw (hsame.mp (hat'.inj ?_))
    have h3 : 4 * (b.toNat / 32 % 1024) = 4 * (b'.toNat / 32 % 1024) := by omega
    rw [h1, ← h3]
    exact hat

/-- Blocks with their bits in one word are the same block if the bits are the same. -/
theorem eq_iff_of_div (hw : b'.toNat / 32 = b.toNat / 32) :
    b' = b ↔ b'.toNat % 32 = b.toNat % 32 :=
  ⟨fun h => by rw [h], fun h => BitVec.eq_of_toNat_eq (by omega)⟩

/-- After `free_block` the block is free, and the other bits are as before. -/
theorem free_setBit (hm : Mounted s) (hlt : b < s.nblk) (hb' : s.InBitmap b') :
    (s.setWord (bitWordVa b) (s.view (bitWordVa b) ||| blockBit b)).Free b' ↔
      s.Free b' ∨ b' = b := by
  have hor : ∀ x y : Word, x ||| y ≠ 0#32 ↔ x ≠ 0#32 ∨ y ≠ 0#32 := fun x y => by
    rw [Ne, BitVec.or_eq_zero_iff, not_and_or]
  rw [free_setBitWord hm hlt hb']
  by_cases hw : b'.toNat / 32 = b.toNat / 32
  · have hva := (bitWordVa_eq_iff hm (inBitmap_of_lt hlt) hb').mpr hw
    unfold Server.Free
    rw [if_pos hw, hva, BitVec.and_or_distrib_right, hor, blockBit_and_iff, eq_iff_of_div hw, eq_comm]
  · rw [if_neg hw]
    refine ⟨.inl, fun h => h.resolve_right ?_⟩
    rintro rfl
    exact hw rfl

end Bitmap

/-! ## A disk given by its words -/

/-- A block of a disk, from the words of the disk that are not 0. -/
def blockAt (ws : List (ℕ × ℕ × Word)) (b : ℕ) : Page := fun o =>
  ((ws.find? fun w => w.1 = b ∧ w.2.1 = o.val).map fun w => w.2.2).getD 0#32

/-- The server after `fs_init`. -/
def afterInit (ws : List (ℕ × ℕ × Word)) : Server :=
  { fullTable with
    pages := fun v =>
      if v = vpn diskmap + 1#32 ∨ v = vpn diskmap + 2#32 then
        some ⟨blockAt ws (v - vpn diskmap).toNat, false⟩
      else none
    disk := fun sector => blockAt ws (sector.toNat / 8) }

theorem mounted_afterInit {ws : List (ℕ × ℕ × Word)} (h : (blockAt ws 1 1).toNat < 32768) :
    Mounted (afterInit ws) := by
  have hn : (afterInit ws).nblk = blockAt ws 1 1 := rfl
  refine ⟨rfl, rfl, hn ▸ by omega, rfl, fun b hb => ?_⟩
  have hlt : b.toNat < (blockAt ws 1 1).toNat := hn ▸ hb
  have h4 : (4#32 : Word).toNat = 4 := rfl
  have h32 : (32#32 : Word).toNat = 32 := rfl
  have hbase : (diskmap + by2blk * 2#32).toNat = 268443648 := by decide
  have hat : At (bitWordVa b) 2#32 (4 * (b.toNat / 32)) := by
    have h2 : (2#32 : Word).toNat = 2 := rfl
    refine ⟨?_, by omega, by omega⟩
    unfold bitWordVa
    rw [BitVec.toNat_add, BitVec.toNat_mul, BitVec.toNat_udiv, hbase, h4, h32, h2]
    omega
  unfold Server.Cached
  rw [hat.vpn_eq]
  rfl

end Fs
end RvMos
