/-
Runs of `alloc_block_num` and `free_block`.

The bit of a block is found in three ways: as bit `b % 32` of word `b / 32` of the
bitmap, as a word of the disk block that the allocator writes back, and through the
address that `bitmap` holds.  `IsBit` says where it is on the disk, and `Flips` that it
is the one bit of the whole cache that a call has changed.
-/
import RvMos.Fs.Alloc

namespace RvMos

open Lib

namespace Fs

open Sys

/-- The block of the bitmap that has the bit of a block. -/
def bitmapBlock (b : Word) : Word := b / bit2blk + 2#32

/-- Bit `i` of word `o` of page `p` stands for block `b`. -/
def IsBit (b p : Word) (o : Index) (i : ℕ) : Prop :=
  p = vpn diskmap + bitmapBlock b ∧ o.val = b.toNat % 32768 / 32 ∧ i = b.toNat % 32

instance (b p : Word) (o : Index) (i : ℕ) : Decidable (IsBit b p o i) :=
  inferInstanceAs (Decidable (_ ∧ _))

/-- In memory exactly the bit of block `b` has been given the value `v`. -/
structure Flips (s s' : Server) (b : Word) (v : Bool) : Prop where
  cells : ∀ p c, s.pages p = some c → ∃ c', s'.pages p = some c' ∧ c'.dirty = c.dirty ∧
    ∀ o i, (c'.data o).getLsbD i = if IsBit b p o i then v else (c.data o).getLsbD i
  pages : ∀ p, s.pages p = none → s'.pages p = none
  rest : s' = { s with pages := s'.pages, disk := s'.disk }

/-- `block_is_free` answers `v`. -/
def Reports (s : Server) (b : Word) (v : Bool) : Prop := blockIsFree b s = .ok (.ok v, s)

/-! ## Calls -/

inductive Call where
  | alloc
  | free (b : Word)
  deriving DecidableEq, Repr

/-- A call that has returned. -/
inductive Event where
  | took (b : Word)
  | freed (b : Word)
  | refused (e : Err)
  deriving DecidableEq, Repr

def perform : Call → Server → Except Stop (Event × Server)
  | .alloc, s =>
    match allocBlockNum s with
    | .error c => .error c
    | .ok (.error e, s') => .ok (.refused e, s')
    | .ok (.ok b, s') => .ok (.took b, s')
  | .free b, s =>
    match freeBlock b s with
    | .error c => .error c
    | .ok (.error e, s') => .ok (.refused e, s')
    | .ok (.ok _, s') => .ok (.freed b, s')

def performAll : List Call → Server → Except Stop (List Event × Server)
  | [], s => .ok ([], s)
  | c :: cs, s =>
    match perform c s with
    | .error x => .error x
    | .ok (e, s') =>
      match performAll cs s' with
      | .error x => .error x
      | .ok (es, t) => .ok (e :: es, t)

/-- What the calls are for. -/
def Meets (s : Server) : Call → Event → Server → Prop
  | .alloc, .took b, s' =>
    (3 ≤ b.toNat ∧ b < s.nblk) ∧ Reports s b true ∧
      (∀ c, 3 ≤ c.toNat → c < b → Reports s c false) ∧ Flips s s' b false ∧
      ∃ c, s'.pages (vpn diskmap + bitmapBlock b) = some c ∧
        s'.disk = Function.update s.disk (bitmapBlock b * sect2blk) c.data
  | .alloc, .refused e, s' =>
    e = .noDisk ∧ (∀ c, 3 ≤ c.toNat → c < s.nblk → Reports s c false) ∧ s' = s
  | .free b, .freed b', s' =>
    b' = b ∧ if b ≠ 0#32 ∧ b < s.nblk then Flips s s' b true ∧ s'.disk = s.disk else s' = s
  | _, _, _ => False

/-- Every call of a run meets its purpose, from the state that the calls before it left. -/
inductive Traced : Server → List Call → List Event → Server → Prop where
  | nil (s : Server) : Traced s [] [] s
  | cons {s s' t : Server} {c : Call} {e : Event} {cs : List Call} {es : List Event}
      (step : Meets s c e s') (rest : Traced s' cs es t) : Traced s (c :: cs) (e :: es) t

/-! ## One bit -/

section Bit

variable {s s' : Server} {b c w : Word} {v : Bool} {i : ℕ}

theorem blockBit_getLsbD (b : Word) (i : ℕ) :
    (blockBit b).getLsbD i = decide (i = b.toNat % 32) := by
  have h32 : (b % 32#32).toNat = b.toNat % 32 := BitVec.toNat_umod
  unfold blockBit
  rw [h32, BitVec.getLsbD_shiftLeft, BitVec.getLsbD_one]
  have hlt := Nat.mod_lt b.toNat (show 32 > 0 by omega)
  by_cases hi : i = b.toNat % 32
  · simp [hi]
    omega
  · simp [hi]
    omega

theorem getLsbD_clear (x : Word) : (x &&& ~~~blockBit b).getLsbD i =
    if i = b.toNat % 32 then false else x.getLsbD i := by
  rw [BitVec.getLsbD_and, BitVec.getLsbD_not, blockBit_getLsbD]
  by_cases hi : i = b.toNat % 32
  · simp [hi]
  · by_cases hlt : i < 32
    · simp [hi, hlt]
    · simp [hi, BitVec.getLsbD_of_ge x i (by omega)]

theorem getLsbD_set (x : Word) : (x ||| blockBit b).getLsbD i =
    if i = b.toNat % 32 then true else x.getLsbD i := by
  rw [BitVec.getLsbD_or, blockBit_getLsbD]
  by_cases hi : i = b.toNat % 32
  · simp [hi]
  · simp [hi]

theorem bitmapBlock_eq (b : Word) : bitmapBlock b = BitVec.ofNat 32 (b.toNat / 32768 + 2) := by
  have h1 : bit2blk.toNat = 32768 := rfl
  have h2 : (2#32 : Word).toNat = 2 := rfl
  refine BitVec.eq_of_toNat_eq ?_
  unfold bitmapBlock
  rw [BitVec.toNat_add, BitVec.toNat_udiv, h1, h2, BitVec.toNat_ofNat]

/-- The page of the address that the code uses is that of the block it writes back. -/
theorem vpn_bitWordVa (hm : Mounted s) (hlt : b < s.nblk) :
    vpn (bitWordVa b) = vpn diskmap + bitmapBlock b := by
  rw [bitmapBlock_eq]
  exact (at_bitWordVa hm (inBitmap_of_lt hlt)).vpn_eq

theorem wordIdx_bitWordVa (hm : Mounted s) (hlt : b < s.nblk) :
    (wordIdx (bitWordVa b)).val = b.toNat % 32768 / 32 := by
  rw [(at_bitWordVa hm (inBitmap_of_lt hlt)).wordIdx_val]
  omega

/-- A store to the word of a block that changes one of its bits. -/
theorem flips_setWord (hm : Mounted s) (hlt : b < s.nblk)
    (hw : ∀ i, w.getLsbD i = if i = b.toNat % 32 then v else (s.view (bitWordVa b)).getLsbD i) :
    Flips s (s.setWord (bitWordVa b) w) b v ∧ (s.setWord (bitWordVa b) w).disk = s.disk := by
  obtain ⟨c, hc, hpages, hdisk⟩ := setWord_pages (w := w) (hm.bits b hlt)
  have hp := vpn_bitWordVa hm hlt
  have ho := wordIdx_bitWordVa hm hlt
  rw [hp] at hc hpages
  rw [view_of_page (hp.symm ▸ hc)] at hw
  refine ⟨⟨fun p c₀ hc₀ => ?_, fun p hnone => ?_, ?_⟩, hdisk⟩
  · rw [hpages]
    by_cases hpe : p = vpn diskmap + bitmapBlock b
    · rw [hpe, hc] at hc₀
      obtain rfl := Option.some.inj hc₀
      refine ⟨⟨Function.update c.data (wordIdx (bitWordVa b)) w, c.dirty⟩,
        by rw [hpe, Function.update_self], rfl, fun o i => ?_⟩
      by_cases hoe : o = wordIdx (bitWordVa b)
      · simp only [hoe, Function.update_self, hw, IsBit, hpe, ho, true_and]
      · have hne : o.val ≠ b.toNat % 32768 / 32 := fun he => hoe (Fin.ext (he.trans ho.symm))
        simp only [Function.update_of_ne hoe, IsBit, hne, false_and, and_false, if_false]
    · refine ⟨c₀, by rw [Function.update_of_ne hpe, hc₀], rfl, fun o i => ?_⟩
      rw [if_neg fun h => hpe h.1]
  · rw [hpages, Function.update_of_ne]
    · exact hnone
    · rintro rfl
      rw [hc] at hnone
      cases hnone
  · unfold Server.setWord
    rw [hp, hc]

theorem Flips.flush {k : Word} (h : Flips s s' b v) : Flips s (s'.flush k) b v := by
  refine ⟨h.cells, h.pages, ?_⟩
  have hrest := h.rest
  unfold Server.flush
  rw [hrest]

theorem reports_of_lt (hm : Mounted s) (hlt : b < s.nblk) : Reports s b (decide (s.Free b)) :=
  wp_eq (wp_blockIsFree hm hlt ⟨rfl, rfl⟩)

theorem reports_true (hm : Mounted s) (hlt : b < s.nblk) (h : s.Free b) : Reports s b true := by
  have hr := reports_of_lt hm hlt
  rwa [decide_eq_true h] at hr

theorem reports_false (hm : Mounted s) (hlt : b < s.nblk) (h : ¬s.Free b) :
    Reports s b false := by
  have hr := reports_of_lt hm hlt
  rwa [decide_eq_false h] at hr

theorem meets_claim (hm : Mounted s) (h : Least s b) : Meets s .alloc (.took b) (s.claim b) := by
  have hclear := flips_setWord hm h.range.2 fun i => getLsbD_clear (s.view (bitWordVa b))
  refine ⟨h.range, reports_true hm h.range.2 h.free, fun c h3 hc => ?_, hclear.1.flush, ?_⟩
  · have hcn : c < s.nblk := BitVec.lt_trans hc h.range.2
    refine reports_false hm hcn fun hfree => ?_
    exact absurd (h.least c h3 hcn hfree) (not_le.mpr hc)
  · have hcached : (s.setWord (bitWordVa b) (s.view (bitWordVa b) &&& ~~~blockBit b)).Cached
        (bitWordVa b) := cached_setWord (hm.bits b h.range.2)
    obtain ⟨c, hc⟩ := Option.isSome_iff_exists.mp hcached
    rw [vpn_bitWordVa hm h.range.2] at hc
    refine ⟨c, hc, ?_⟩
    unfold Server.claim
    rw [flush_disk, hclear.2]
    congr 1
    unfold Server.block
    rw [← bitmapBlock, hc]

end Bit

/-! ## Runs -/

section Runs

variable {s s' t : Server} {b : Word}

/-- What a call does to the free blocks: the one it took is not among them, the one it
freed is. -/
def Moves (s : Server) (e : Event) (s' : Server) : Prop :=
  ∀ d, 3 ≤ d.toNat → d < s.nblk → (s'.Free d ↔ (s.Free d ∧ e ≠ .took d) ∨ e = .freed d)

/-- One call returns, meets its purpose and leaves the file system mounted. -/
theorem perform_meets (hm : Mounted s) (c : Call) : ∃ e s', perform c s = .ok (e, s') ∧
    Meets s c e s' ∧ Mounted s' ∧ s'.nblk = s.nblk ∧ Moves s e s' ∧
    ∀ d, e = .took d → s.Free d ∧ 3 ≤ d.toNat ∧ d < s.nblk := by
  cases c with
  | alloc =>
    have hcall : allocBlockNum.wp (fun r s' => (∃ b, r = .ok b ∧ s' = s.claim b ∧ Least s b) ∨
        (r = .error .noDisk ∧ s' = s ∧ ∀ b, 3 ≤ b.toNat → b < s.nblk → ¬s.Free b))
        (fun _ => False) s :=
      wp_allocBlockNum_claim hm (fun hnone => .inr ⟨rfl, rfl, hnone⟩)
        fun b h => .inl ⟨b, rfl, rfl, h⟩
    obtain ⟨r, s', hrun, hres⟩ := wp_run hcall
    simp only [perform, hrun]
    rcases hres with ⟨b, rfl, rfl, h⟩ | ⟨rfl, rfl, hnone⟩
    · have hclaim := claimed_claim hm h
      refine ⟨.took b, _, rfl, meets_claim hm h, hclaim.mounted hm, hclaim.nblk, fun d _ hd => ?_, ?_⟩
      · rw [hclaim.bits d hd]
        constructor
        · rintro ⟨hfree, hne⟩
          refine .inl ⟨hfree, fun he => hne ?_⟩
          injection he with he
          exact he.symm
        · rintro (⟨hfree, hne⟩ | he)
          · refine ⟨hfree, fun he => hne ?_⟩
            rw [he]
          · cases he
      · rintro d ⟨⟩
        exact ⟨h.free, h.range⟩
    · refine ⟨_, _, rfl, ⟨rfl, fun c h3 hc => reports_false hm hc (hnone c h3 hc), rfl⟩, hm, rfl,
        fun d _ _ => ?_, ?_⟩
      · simp
      · rintro d ⟨⟩
  | free b =>
    by_cases hb : b ≠ 0#32 ∧ b < s.nblk
    · have hrun : freeBlock b s =
          .ok (.ok (), s.setWord (bitWordVa b) (s.view (bitWordVa b) ||| blockBit b)) :=
        wp_eq (wp_freeBlock hm hb.1 hb.2 ⟨rfl, rfl⟩)
      simp only [perform, hrun]
      have hflip := flips_setWord hm hb.2 fun i => getLsbD_set (s.view (bitWordVa b))
      have ht : Touches s.AllocWords s _ := touches_setWord
        (w := s.view (bitWordVa b) ||| blockBit b) (hm.bits b hb.2)
        (.inl (bitmapBlock_of_at hm (inBitmap_of_lt hb.2)))
      refine ⟨_, _, rfl, ⟨rfl, ?_⟩, ht.mounted not_allocWords_super hm, ht.nblk not_allocWords_super,
        fun d _ hd => ?_, ?_⟩
      · rw [if_pos hb]
        exact hflip
      · rw [free_setBit hm hb.2 (inBitmap_of_lt hd)]
        simp only [ne_eq, reduceCtorEq, not_false_eq_true, and_true, Event.freed.injEq]
        exact or_congr_right eq_comm
      · rintro d ⟨⟩
    · have hguard : b = 0#32 ∨ b ≥ s.nblk := by
        by_cases h0 : b = 0#32
        · exact .inl h0
        · exact .inr (BitVec.not_lt.mp fun hlt => hb ⟨h0, hlt⟩)
      have hrun : freeBlock b s = .ok (.ok (), s) := by
        refine wp_eq ?_
        unfold freeBlock
        rw [wp_bind]
        refine wp_nblocks hm ?_
        simp only
        rw [if_pos hguard]
        exact wp_pure.mpr ⟨rfl, rfl⟩
      simp only [perform, hrun]
      refine ⟨_, _, rfl, ⟨rfl, ?_⟩, hm, rfl, fun d h3 hd => ?_, ?_⟩
      · rw [if_neg hb]
      · have hne : b ≠ d := by
          rintro rfl
          refine hb ⟨?_, hd⟩
          rintro rfl
          exact absurd h3 (by decide)
        simp [hne]
      · rintro d ⟨⟩

/-- Every call of a run meets its purpose. -/
theorem performAll_traced (calls : List Call) (hm : Mounted s) :
    ∃ es t, performAll calls s = .ok (es, t) ∧ Traced s calls es t := by
  induction calls generalizing s with
  | nil => exact ⟨[], s, rfl, .nil s⟩
  | cons c cs ih =>
    obtain ⟨e, s', hstep, hmeets, hm', -, -, -⟩ := perform_meets hm c
    obtain ⟨es, t, hrun, htraced⟩ := ih hm'
    refine ⟨e :: es, t, ?_, .cons hmeets htraced⟩
    unfold performAll
    rw [hstep]
    simp only [hrun]

/-- A block that is in use is freed before a call takes it. -/
theorem freed_before_took {calls : List Call} {es mid post : List Event} (hm : Mounted s)
    (hrun : performAll calls s = .ok (es, t)) (h3 : 3 ≤ b.toNat) (hb : b < s.nblk)
    (hused : ¬s.Free b) (hes : es = mid ++ .took b :: post) : .freed b ∈ mid := by
  induction calls generalizing s es mid with
  | nil =>
    cases hrun
    exact absurd hes.symm (by simp)
  | cons c cs ih =>
    obtain ⟨e, s', hstep, -, hm', hn, hmoves, htook⟩ := perform_meets hm c
    unfold performAll at hrun
    rw [hstep] at hrun
    simp only at hrun
    cases hrest : performAll cs s' with
    | error x =>
      rw [hrest] at hrun
      cases hrun
    | ok p =>
      obtain ⟨es', t'⟩ := p
      rw [hrest] at hrun
      cases hrun
      cases mid with
      | nil =>
        -- the call takes the block at once
        obtain ⟨rfl, -⟩ := List.cons.inj hes
        exact absurd (htook b rfl).1 hused
      | cons f mid =>
        obtain ⟨rfl, hes'⟩ := List.cons.inj hes
        by_cases hfreed : e = .freed b
        · rw [hfreed]
          exact List.mem_cons_self
        · refine List.mem_cons_of_mem e (ih hm' hrest (hn.symm ▸ hb) (fun hfree => ?_) hes')
          rcases (hmoves b h3 hb).mp hfree with ⟨hfree, -⟩ | he
          · exact hused hfree
          · exact hfreed he

/-- Between two calls that take a block there is one that frees it. -/
theorem freed_between {calls : List Call} {es pre mid post : List Event} (hm : Mounted s)
    (hrun : performAll calls s = .ok (es, t))
    (hes : es = pre ++ .took b :: mid ++ .took b :: post) : .freed b ∈ mid := by
  induction calls generalizing s es pre with
  | nil =>
    cases hrun
    exact absurd hes.symm (by simp)
  | cons c cs ih =>
    obtain ⟨e, s', hstep, -, hm', hn, hmoves, htook⟩ := perform_meets hm c
    unfold performAll at hrun
    rw [hstep] at hrun
    simp only at hrun
    cases hrest : performAll cs s' with
    | error x =>
      rw [hrest] at hrun
      cases hrun
    | ok p =>
      obtain ⟨es', t'⟩ := p
      rw [hrest] at hrun
      cases hrun
      cases pre with
      | nil =>
        obtain ⟨rfl, hes'⟩ := List.cons.inj hes
        obtain ⟨-, h3, hb⟩ := htook b rfl
        refine freed_before_took hm' hrest h3 (hn.symm ▸ hb) (fun hfree => ?_) hes'
        rcases (hmoves b h3 hb).mp hfree with ⟨-, hne⟩ | he
        · exact hne rfl
        · cases he
      | cons f pre =>
        obtain ⟨-, hes'⟩ := List.cons.inj hes
        exact ih hm' hrest hes'

end Runs

/-- Any sequence of calls returns, each of them meets its purpose, and no block is taken
twice without having been freed. -/
theorem alloc_never_twice (s : Server) (hm : Mounted s) (calls : List Call) :
    ∃ es t, performAll calls s = .ok (es, t) ∧ Traced s calls es t ∧
      ∀ pre mid post b, es = pre ++ .took b :: mid ++ .took b :: post → .freed b ∈ mid := by
  obtain ⟨es, t, hrun, htraced⟩ := performAll_traced calls hm
  exact ⟨es, t, hrun, htraced, fun pre mid post b hes => freed_between hm hrun hes⟩

/-- A disk of five blocks, the last two of them free. -/
def fiveBlocks : Server := afterInit [(1, 1, 5#32), (2, 0, 24#32)]

theorem alloc_never_twice_five :
    ∃ es t, performAll [.alloc, .free 3#32, .alloc] fiveBlocks = .ok (es, t) ∧
      Traced fiveBlocks [.alloc, .free 3#32, .alloc] es t ∧
      ∀ pre mid post b, es = pre ++ .took b :: mid ++ .took b :: post → .freed b ∈ mid :=
  alloc_never_twice fiveBlocks (mounted_afterInit (by decide)) [.alloc, .free 3#32, .alloc]

end Fs
end RvMos
