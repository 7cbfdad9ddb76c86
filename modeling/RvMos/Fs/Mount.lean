/-
Starting the file server (`fs_init`).

The superblock is read and checked, its block is written over and restored to see that
the disk takes writes, and the bitmap is read.  Every disk has one way in which the start
ends: `refusal` gives the message, or nothing where the file system is mounted.  The disk
is then as before, and the cache shows it but for block 0, whose page has kept the copy
of the superblock that was put aside.
-/
import RvMos.Fs.Bitmap
import RvMos.Fs.Names

namespace RvMos

open Lib

namespace Fs

open Sys

/-! ## The code -/

/-- `memcpy` of a block, both addresses being those of pages. -/
def copyBlock (dst src : Word) : Proc Unit :=
  each (fun i => do store (dst + BitVec.ofNat 32 (4 * i)) (← load (src + BitVec.ofNat 32 (4 * i))))
    (List.range' 0 1024)

/-- `ecall_mem_unmap`. -/
def memUnmap (va : Word) : Proc Unit := do
  if illegalVa va then throw .inval else setPage va none

/-- `user_assert`. -/
def userAssert (b : Bool) (expr : String) : Proc Unit := when (¬b) (halt (.assert expr))

/-- `"OOPS!\n"`. -/
def oops : List Byte := [79#8, 79#8, 80#8, 83#8, 33#8, 10#8]

def readSuper : Proc Unit := do
  match ← attempt (readBlock 1#32) with
  | .error _ => halt (.panic "cannot read superblock: %e")
  | .ok _ =>
    modify fun s => { s with super := true }
    when ((← load superVa) ≠ fsMagic) (halt (.panic "bad file system magic number %08x\n"))
    when ((← nblocks) > diskmax / by2blk) (halt (.panic "file system is too large\n"))

def checkWriteBlock : Proc Unit := do
  modify fun s => { s with super := false }
  let _ ← readBlock 0#32
  copyBlock (← diskaddr 0#32) (← diskaddr 1#32)
  strcpy (← diskaddr 1#32) oops
  writeBlock 1#32
  userAssert (← blockIsMapped 1#32) "block_is_mapped(1)"
  let _ ← attempt (memUnmap (← diskaddr 1#32))
  userAssert (!(← blockIsMapped 1#32)) "!block_is_mapped(1)"
  let _ ← readBlock 1#32
  userAssert (← strEq oops (← diskaddr 1#32)) "strcmp((char*)diskaddr(1),\"OOPS!\\n\") == 0"
  copyBlock (← diskaddr 1#32) (← diskaddr 0#32)
  writeBlock 1#32
  let _ ← diskaddr 1#32
  modify fun s => { s with super := true }

/-- The loop of `read_bitmap` that checks the blocks of the bitmap. -/
def checkBits (n : ℕ) : Proc Unit :=
  each (fun i => do userAssert (!(← blockIsFree (BitVec.ofNat 32 (i + 2)))) "!block_is_free(i + 2)")
    (List.range' 0 n)

def readBitmap : Proc Unit := do
  let nbitMap := (← nblocks) / bit2blk + 1#32
  each (fun i => do let _ ← readBlock (BitVec.ofNat 32 (i + 2))) (List.range' 0 nbitMap.toNat)
  let _ ← diskaddr 2#32
  modify fun s => { s with bitmap := true }
  userAssert (!(← blockIsFree 0#32)) "!block_is_free(0)"
  userAssert (!(← blockIsFree 1#32)) "!block_is_free(1)"
  checkBits nbitMap.toNat

def fsInit : Proc Unit := do
  readSuper
  checkWriteBlock
  readBitmap

/-! ## What a disk deserves -/

/-- A bit of the bitmap on the disk. -/
def bitOn (disk : Word → Page) (b : ℕ) : Bool :=
  (disk (BitVec.ofNat 32 (b / 32768 + 2) * sect2blk) (Fin.ofNat 1024 (b / 32))).getLsbD (b % 32)

/-- The assertion of `read_bitmap` about a block. -/
def bitClaim : ℕ → String
  | 0 => "!block_is_free(0)"
  | 1 => "!block_is_free(1)"
  | _ => "!block_is_free(i + 2)"

/-- How many blocks `fs_init` reads: the first two and the bitmap. -/
def readCount (disk : Word → Page) : ℕ := (disk sect2blk 1).toNat / 32768 + 3

/-- The stop that `fs_init` comes to on a disk. -/
def refusal (disk : Word → Page) : Option Stop :=
  if disk sect2blk 0 ≠ fsMagic then some (.panic "bad file system magic number %08x\n")
  else if (disk sect2blk 1).toNat > 262144 then some (.panic "file system is too large\n")
  else if (disk sect2blk 1).toNat < 3 then some (.panic "reading non-existent block %08x\n")
  else ((List.range (readCount disk)).find? (bitOn disk)).map fun b => .assert (bitClaim b)

/-- The words that the start leaves in the cache for a block. -/
def startBlock (disk : Word → Page) (b : Word) : Page :=
  if b = 0#32 then disk sect2blk else disk (b * sect2blk)

/-- The first `n` blocks of the cache are there. -/
def Server.loaded (s : Server) (n : ℕ) : Server :=
  { s with
    pages := fun v =>
      if (v - vpn diskmap).toNat < n then some ⟨startBlock s.disk (v - vpn diskmap), false⟩
      else s.pages v }

/-- The server after `fs_init`, with the answers `g` of the kernel still to come. -/
def Server.started (s : Server) (g : List Bool) : Server :=
  { s.loaded (readCount s.disk) with super := true, bitmap := true, grants := g }

/-- A server that has not begun: no block is in the cache. -/
structure Unstarted (s : Server) : Prop where
  super : s.super = false
  bitmap : s.bitmap = false
  pages : ∀ b : Word, b.toNat < 262144 → s.pages (vpn diskmap + b) = none

/-! ## Pages of the cache -/

/-- A block stands in the cache with these words. -/
def Server.put (s : Server) (b : Word) (p : Page) : Server :=
  { s with pages := Function.update s.pages (vpn diskmap + b) (some ⟨p, false⟩) }

/-- A block stands in the cache with these words, and they are not marked. -/
def Server.Holds (s : Server) (b : Word) (p : Page) : Prop :=
  s.pages (vpn diskmap + b) = some ⟨p, false⟩

section Pages

variable {s : Server} {b c va : Word} {p q : Page} {y : ℕ} {E : Stop → Prop}

theorem holds_put : (s.put b p).Holds b p := Function.update_self ..

theorem holds_put_of_ne (h : b ≠ c) : (s.put c q).Holds b p ↔ s.Holds b p := by
  unfold Server.Holds Server.put
  simp only [Function.update_of_ne fun he => h ((BitVec.add_right_inj (vpn diskmap)).mp he)]

theorem put_put : (s.put b q).put b p = s.put b p := by
  unfold Server.put
  simp only [Function.update_idem]

theorem put_of_holds (h : s.Holds b p) : s.put b p = s := by
  unfold Server.put
  rw [← h, Function.update_eq_self]

theorem Server.Holds.cached (h : s.Holds b p) (ha : At va b y) : s.Cached va := by
  unfold Server.Cached
  rw [ha.vpn_eq, h]
  rfl

theorem Server.Holds.view (h : s.Holds b p) (ha : At va b y) : s.view va = p (wordIdx va) :=
  view_of_page (by
    rw [ha.vpn_eq]
    exact h)

theorem Server.Holds.setWord (h : s.Holds b p) (ha : At va b y) (w : Word) :
    s.setWord va w = s.put b (Function.update p (wordIdx va) w) := by
  unfold Server.setWord Server.put
  rw [ha.vpn_eq, h]

/-- `memcpy` from one block to another. -/
theorem wp_copyBlock {Q : Except Err Unit → Server → Prop} (hb : b.toNat < 262144)
    (hc : c.toNat < 262144) (hne : b ≠ c) (hq : s.Holds b q) (hp : s.Holds c p)
    (hQ : Q (.ok ()) (s.put b p)) : (copyBlock (blockVa b) (blockVa c)).wp Q E s := by
  unfold copyBlock
  refine wp_each_range (fun i t => t = s.put b fun o => if o.val < i then p o else q o) 1024 ?_ ?_ ?_
  · simp only [Nat.not_lt_zero, if_false]
    exact (put_of_holds hq).symm
  · rintro i t - hi rfl
    have hab := (at_blockVa hb).add (n := 4 * i) (by omega)
    have hac := (at_blockVa hc).add (n := 4 * i) (by omega)
    have hpc : ∀ r, (s.put b r).Holds c p := fun r => (holds_put_of_ne hne.symm).mpr hp
    rw [wp_bind]
    refine wp_load ((hpc _).cached hac) (wp_store (holds_put.cached hab) ?_)
    rw [(hpc _).view hac, holds_put.setWord hab, put_put]
    refine congrArg (s.put b) (funext fun o => ?_)
    have hob := hab.wordIdx_val
    have hoc := hac.wordIdx_val
    by_cases ho : o = wordIdx (blockVa b + BitVec.ofNat 32 (4 * i))
    · have hval := congrArg Fin.val ho
      have hcb : wordIdx (blockVa c + BitVec.ofNat 32 (4 * i)) = o := Fin.ext (by omega)
      rw [ho, Function.update_self, if_pos (by omega), ← ho, hcb]
    · have hval : o.val ≠ i := fun h => ho (Fin.ext (by omega))
      rw [Function.update_of_ne ho]
      by_cases hlt : o.val < i
      · rw [if_pos hlt, if_pos (by omega)]
      · rw [if_neg hlt, if_neg (by omega)]
  · rintro t rfl
    have hall : (fun o : Index => if o.val < 0 + 1024 then p o else q o) = p :=
      funext fun o => if_pos (by omega)
    rw [hall]
    exact hQ

/-- A store of a string changes the words of one page. -/
theorem wp_strcpy_page {Q : Except Err Unit → Server → Prop} {name : List Byte} (ha : At va b y)
    (hp : s.Holds b p) (hlen : y + name.length < 4096)
    (hQ : ∀ q, Written s (s.put b q) va b y (name ++ [0#8]) → Q (.ok ()) (s.put b q)) :
    (strcpy va name).wp Q E s := by
  have hpage : ∀ (cs : List Byte) (va : Word) (y : ℕ) (u : Server), At va b y → y + cs.length < 4096 →
      (∃ q, u = s.put b q) → (strcpy va cs).wp (fun r t => r = .ok () ∧ ∃ q, t = s.put b q) E u := by
    intro cs
    induction cs with
    | nil =>
      rintro va y u hat - ⟨q, rfl⟩
      refine wp_storeByte (holds_put.cached hat) ⟨rfl, ?_⟩
      rw [Server.setByte, holds_put.setWord hat, put_put]
      exact ⟨_, rfl⟩
    | cons c cs ih =>
      rintro va y u hat hcs ⟨q, rfl⟩
      rw [List.length_cons] at hcs
      unfold strcpy
      rw [wp_bind]
      refine wp_storeByte (holds_put.cached hat) ?_
      refine ih _ (y + 1) _ (hat.add (n := 1) (by omega)) (by omega) ?_
      rw [Server.setByte, holds_put.setWord hat, put_put]
      exact ⟨_, rfl⟩
  have hwritten : (strcpy va name).wp (fun _ t => Written s t va b y (name ++ [0#8])) E s :=
    wp_strcpy ha hlen (fun k hk => hp.cached (ha.add (by omega))) fun _ h => h
  refine wp_conseq (wp_and (hpage name va y s ha hlen ⟨p, (put_of_holds hp).symm⟩) hwritten) ?_
  rintro r t ⟨⟨rfl, q, rfl⟩, hw⟩
  exact hQ q hw

/-- `read_block` of a block that is not in the cache, once its checks have passed. -/
theorem wp_readBlock_missing {Q : Except Err Word → Server → Prop} (hb : b.toNat < 262144)
    (hcheck : ∀ Q : Except Err Unit → Server → Prop, Q (.ok ()) s → (checkBlock b).wp Q E s)
    (hnone : s.pages (vpn diskmap + b) = none)
    (hQ : ∀ g, g <:+ s.grants →
      Q (.ok (blockVa b)) { s.put b (s.disk (b * sect2blk)) with grants := g })
    (hE : ∀ c, Short s c → E c) : (readBlock b).wp Q E s := by
  have hva := (at_blockVa hb).vpn_eq
  unfold readBlock
  rw [wp_bind]
  refine hcheck _ ?_
  simp only
  rw [wp_bind]
  refine wp_diskaddr hb ?_
  simp only
  rw [wp_bind]
  refine wp_blockIsMapped hb ?_
  simp only
  rw [hva, hnone]
  -- the page may come from `ecall_mem_alloc` or from the fault of the disk's copy
  refine wp_attempt_seq (R := fun _ s₁ =>
    s₁ = { s with pages := Function.update s.pages (vpn (blockVa b)) (some zeroCached),
                  grants := s.grants.tail } ∨
    s₁ = { s with grants := s.grants.tail } ∧ ¬s.grants.headD true = true) ?_ fun _ s₁ hs₁ => ?_
  · unfold memAlloc setPage
    rw [legal_blockVa hb, if_neg (by simp), wp_bind]
    refine wp_granted ?_
    simp only
    rw [wp_ite]
    exact ⟨fun _ => wp_modify.mpr (.inl rfl), fun hg => wp_throw.mpr (.inr ⟨rfl, hg⟩)⟩
  · unfold readDisk
    rw [wp_bind, wp_get_bind]
    have hput : ∀ g : List Bool, ({ s with
        pages := Function.update s.pages (vpn (blockVa b)) (some ⟨s.disk (b * sect2blk), false⟩)
        grants := g } : Server) = { s.put b (s.disk (b * sect2blk)) with grants := g } := by
      intro g
      rw [hva]
      rfl
    rcases hs₁ with rfl | ⟨rfl, hg⟩
    · simp only [Function.update_self]
      refine wp_modify.mpr (wp_pure.mpr ?_)
      rw [Function.update_idem]
      exact (hput _) ▸ hQ _ (List.tail_suffix s.grants)
    · rw [hva] at *
      simp only [hnone]
      rw [wp_bind]
      refine wp_granted ?_
      simp only
      rw [wp_ite]
      refine ⟨fun _ => wp_modify.mpr (wp_pure.mpr ?_), fun _ => wp_halt.mpr (hE _ ⟨rfl, head_grants hg⟩)⟩
      exact hQ _ ((List.tail_suffix _).trans (List.tail_suffix s.grants))

end Pages

/-! ## The superblock -/

/-- The first two blocks as the cache has them, the superblock on the disk, and the
answers of the kernel. -/
def Server.pair (s : Server) (p q : Option Page) (d : Page) (g : List Bool) : Server :=
  { s with
    pages := fun v =>
      if v = vpn diskmap + 0#32 then p.map fun p => ⟨p, false⟩
      else if v = vpn diskmap + 1#32 then q.map fun q => ⟨q, false⟩
      else s.pages v
    disk := Function.update s.disk sect2blk d
    grants := g }

section Superblock

variable {s : Server} {p q : Option Page} {d r : Page} {g g' : List Bool} {E : Stop → Prop}

theorem Unstarted.pair (hs : Unstarted s) :
    s = s.pair none none (s.disk sect2blk) s.grants := by
  have hpages : s.pages = fun v =>
      if v = vpn diskmap + 0#32 then none else if v = vpn diskmap + 1#32 then none else s.pages v := by
    funext v
    split_ifs with h0 h1
    · rw [h0]
      exact hs.pages 0#32 (by decide)
    · rw [h1]
      exact hs.pages 1#32 (by decide)
    · rfl
  unfold Server.pair
  simp only [Function.update_eq_self, Option.map_none]
  rw [← hpages]

theorem pair_put_zero : (s.pair p q d g).put 0#32 r = s.pair (some r) q d g := by
  unfold Server.put Server.pair
  simp only [Server.mk.injEq, and_true]
  funext v
  by_cases h0 : v = vpn diskmap + 0#32
  · rw [h0, Function.update_self, if_pos rfl]
    rfl
  · rw [Function.update_of_ne h0, if_neg h0, if_neg h0]

theorem pair_put_one : (s.pair p q d g).put 1#32 r = s.pair p (some r) d g := by
  have h01 : vpn diskmap + 1#32 ≠ vpn diskmap + 0#32 := by decide
  unfold Server.put Server.pair
  simp only [Server.mk.injEq, and_true]
  funext v
  by_cases h1 : v = vpn diskmap + 1#32
  · rw [h1, Function.update_self, if_neg h01, if_pos rfl]
    rfl
  · rw [Function.update_of_ne h1]
    simp only [if_neg h1]

theorem pair_holds_zero : (s.pair (some r) q d g).Holds 0#32 r := by
  unfold Server.Holds Server.pair
  simp only [if_pos]
  rfl

theorem pair_holds_one : (s.pair p (some r) d g).Holds 1#32 r := by
  have h01 : vpn diskmap + 1#32 ≠ vpn diskmap + 0#32 := by decide
  unfold Server.Holds Server.pair
  simp only [if_neg h01, if_pos]
  rfl

theorem pair_none_zero : (s.pair none q d g).pages (vpn diskmap + 0#32) = none := by
  unfold Server.pair
  simp only [if_pos]
  rfl

theorem pair_none_one : (s.pair p none d g).pages (vpn diskmap + 1#32) = none := by
  have h01 : vpn diskmap + 1#32 ≠ vpn diskmap + 0#32 := by decide
  unfold Server.pair
  simp only [if_neg h01, if_pos]
  rfl

theorem pair_disk_one : (s.pair p q d g).disk (1#32 * sect2blk) = d := by
  have h1 : (1#32 : Word) * sect2blk = sect2blk := by decide
  unfold Server.pair
  rw [h1]
  simp only [Function.update_self]

theorem pair_flush : (s.pair p (some r) d g).flush 1#32 = s.pair p (some r) r g := by
  have hblock : (s.pair p (some r) d g).block 1#32 = r := by
    unfold Server.block
    rw [pair_holds_one]
  unfold Server.flush
  rw [hblock]
  unfold Server.pair
  simp only [Server.mk.injEq, and_true, true_and]
  exact Function.update_idem ..

theorem checkBlock_early (hs : s.super = false) (hb : s.bitmap = false) {b : Word}
    (Q : Except Err Unit → Server → Prop) (hQ : Q (.ok ()) s) : (checkBlock b).wp Q E s := by
  unfold checkBlock
  rw [wp_get_bind, hs, wp_bind, wp_when]
  refine ⟨fun h => absurd h (by simp), fun _ => ?_⟩
  simp only
  rw [wp_get_bind, hb, wp_when]
  exact ⟨fun h => absurd h (by simp), fun _ => hQ⟩

/-- `read_super` accepts the magic number and a size that fits the window. -/
theorem wp_readSuper {Q : Except Err Unit → Server → Prop} (hs : Unstarted s)
    (hmagic : s.disk sect2blk 0 ≠ fsMagic →
      E (.panic "bad file system magic number %08x\n"))
    (hlarge : s.disk sect2blk 0 = fsMagic → (s.disk sect2blk 1).toNat > 262144 →
      E (.panic "file system is too large\n"))
    (hQ : s.disk sect2blk 0 = fsMagic → (s.disk sect2blk 1).toNat ≤ 262144 →
      ∀ g, g <:+ s.grants → Q (.ok ())
        (Server.pair { s with super := true } none (some (s.disk sect2blk)) (s.disk sect2blk) g))
    (hE : ∀ c, Short s c → E c) : readSuper.wp Q E s := by
  have hat : At superVa 1#32 0 := ⟨rfl, by decide, by omega⟩
  unfold readSuper
  have hread : (readBlock 1#32).wp (fun x t => x = .ok (blockVa 1#32) ∧
      ∃ g, g <:+ s.grants ∧ t = s.pair none (some (s.disk sect2blk)) (s.disk sect2blk) g) E s := by
    refine wp_readBlock_missing (by decide) (checkBlock_early hs.super hs.bitmap)
      (hs.pages 1#32 (by decide)) (fun g hg => ⟨rfl, g, hg, ?_⟩) hE
    have hput : ({ s.put 1#32 (s.disk (1#32 * sect2blk)) with grants := g } : Server) =
        { (s.pair none none (s.disk sect2blk) s.grants).put 1#32 (s.disk (1#32 * sect2blk)) with
          grants := g } := by
      rw [← hs.pair]
    rw [hput, pair_put_one]
    rfl
  refine wp_attempt_seq hread ?_
  rintro x t ⟨rfl, g, hg, rfl⟩
  simp only
  rw [wp_modify_bind]
  show wp _ Q E
    (Server.pair { s with super := true } none (some (s.disk sect2blk)) (s.disk sect2blk) g)
  have hone := pair_holds_one (s := { s with super := true }) (p := none) (r := s.disk sect2blk)
    (d := s.disk sect2blk) (g := g)
  rw [wp_bind]
  refine wp_load (hone.cached hat) ?_
  rw [hone.view hat]
  simp only
  rw [wp_bind, wp_when]
  refine ⟨fun h => wp_halt.mpr (hmagic h), fun h => ?_⟩
  simp only
  rw [wp_bind]
  have hat4 : At (superVa + 4#32) 1#32 4 := ⟨rfl, by decide, by omega⟩
  refine wp_load (hone.cached hat4) ?_
  rw [hone.view hat4]
  simp only
  have hmax : (diskmax / by2blk).toNat = 262144 := by decide
  rw [wp_when, gt_iff_lt, BitVec.lt_def, hmax]
  refine ⟨fun hlt => wp_halt.mpr (hlarge (not_not.mp h) hlt), fun hle => ?_⟩
  exact hQ (not_not.mp h) (Nat.not_lt.mp hle) g hg

theorem pair_unmap : ({ s.pair p q d g with
    pages := Function.update (s.pair p q d g).pages (vpn (blockVa 1#32)) none } : Server) =
      s.pair p none d g := by
  have h01 : vpn diskmap + 1#32 ≠ vpn diskmap + 0#32 := by decide
  rw [(at_blockVa (b := 1#32) (by decide)).vpn_eq]
  unfold Server.pair
  simp only [Server.mk.injEq, and_true]
  funext v
  by_cases h1 : v = vpn diskmap + 1#32
  · rw [h1, Function.update_self, if_neg h01, if_pos rfl]
    rfl
  · rw [Function.update_of_ne h1]
    simp only [if_neg h1]

/-- `ecall_mem_unmap` of the superblock's page. -/
theorem wp_memUnmap_one {Q : Except Err (Except Err Unit) → Server → Prop}
    (hQ : Q (.ok (.ok ())) (s.pair p none d g)) :
    (memUnmap (blockVa 1#32)).attempt.wp Q E (s.pair p q d g) := by
  rw [wp_attempt]
  unfold memUnmap setPage
  rw [legal_blockVa (by decide), if_neg (by simp), wp_modify, pair_unmap]
  exact hQ

theorem wp_userAssert {Q : Except Err Unit → Server → Prop} {b : Bool} {expr : String}
    (hb : b = false → E (.assert expr)) (hQ : b = true → Q (.ok ()) s) :
    (userAssert b expr).wp Q E s := by
  unfold userAssert
  rw [wp_when]
  refine ⟨fun h => wp_halt.mpr (hb (by simpa using h)), fun h => hQ (by simpa using h)⟩

theorem wp_mapped_one {Q : Except Err Bool → Server → Prop}
    (hQ : Q (.ok q.isSome) (s.pair p q d g)) : (blockIsMapped 1#32).wp Q E (s.pair p q d g) := by
  refine wp_blockIsMapped (by decide) ?_
  rw [(at_blockVa (b := 1#32) (by decide)).vpn_eq]
  cases q with
  | none =>
    rw [pair_none_one]
    exact hQ
  | some r =>
    rw [pair_holds_one]
    exact hQ

/-- The words that have come back from the disk are those that went out. -/
theorem oops_back {t : Server} {r : Page} {x : Option Page} {e : Page}
    (hr : Written t (s.pair x (some r) e g) (blockVa 1#32) 1#32 0 (oops ++ [0#8])) (p : Option Page)
    (k : List Bool) :
    (Server.bytesAt (s.pair p (some r) r k) (blockVa 1#32) 7).takeWhile (· ≠ 0#8) = oops ∧
      0#8 ∈ Server.bytesAt (s.pair p (some r) r k) (blockVa 1#32) 7 := by
  have hat : At (blockVa 1#32) 1#32 0 := at_blockVa (by decide)
  have hpage : ∀ va y, At va 1#32 y →
      (s.pair p (some r) r k).byte va = (s.pair x (some r) e g).byte va := fun va y ha => by
    unfold Server.byte
    rw [pair_holds_one.view ha, pair_holds_one.view ha]
  have hbytes : ∀ j (hj : j < 7), (s.pair p (some r) r k).byte
      (blockVa 1#32 + BitVec.ofNat 32 j) = (oops ++ [0#8]).get ⟨j, hj⟩ := fun j hj => by
    rw [hpage _ _ (hat.add (n := j) (by omega))]
    exact hr.bytes j hj
  refine ⟨takeWhile_bytesAt (by decide) (by decide) (fun j hj => ?_) (hbytes 6 (by omega)), ?_⟩
  · rw [hbytes j (lt_of_lt_of_le hj (by decide))]
    exact List.getElem_append_left hj
  · have hmem := mem_bytesAt (s := s.pair p (some r) r k) (p := blockVa 1#32) (n := 7) (k := 6) (by omega)
    rw [hbytes 6 (by omega)] at hmem
    exact hmem

/-- The steps of `check_write_block`, each before what follows it. -/
theorem wp_diskaddr_then {Q : Except Err α → Server → Prop} {f : Word → Proc α}
    (hb : b.toNat < 262144) (hf : (f (blockVa b)).wp Q E s) : (diskaddr b >>= f).wp Q E s := by
  rw [wp_bind]
  exact wp_diskaddr hb hf

theorem wp_copyBlock_then {Q : Except Err α → Server → Prop} {f : Unit → Proc α}
    (hb : b.toNat < 262144) (hc : c.toNat < 262144) (hne : b ≠ c) (hq : s.Holds b r)
    (hp : s.Holds c d) (hf : (f ()).wp Q E (s.put b d)) :
    (copyBlock (blockVa b) (blockVa c) >>= f).wp Q E s := by
  rw [wp_bind]
  exact wp_copyBlock hb hc hne hq hp hf

theorem wp_writeBlock_then {Q : Except Err α → Server → Prop} {f : Unit → Proc α}
    (hb : b.toNat < 262144) (hc : s.Cached (blockVa b)) (hf : (f ()).wp Q E (s.flush b)) :
    (writeBlock b >>= f).wp Q E s := by
  rw [wp_bind]
  exact wp_writeBlock hb hc hf

theorem wp_mapped_then {Q : Except Err α → Server → Prop} {f : Bool → Proc α}
    (hf : (f q.isSome).wp Q E (s.pair p q d g)) :
    (blockIsMapped 1#32 >>= f).wp Q E (s.pair p q d g) := by
  rw [wp_bind]
  exact wp_mapped_one hf

theorem wp_userAssert_then {Q : Except Err α → Server → Prop} {f : Unit → Proc α} {expr : String}
    (hf : (f ()).wp Q E s) : (userAssert true expr >>= f).wp Q E s := by
  rw [wp_bind]
  exact wp_userAssert (fun h => absurd h (by simp)) fun _ => hf

/-- The superblock is copied to block 0, and "OOPS!" goes over it, on the disk too. -/
theorem wp_oops {Q : Except Err α → Server → Prop} {rest : Proc α} {x : Page}
    (hf : ∀ r, Written (s.pair (some d) (some d) d g) (s.pair (some d) (some r) d g)
        (blockVa 1#32) 1#32 0 (oops ++ [0#8]) →
      rest.wp Q E (s.pair (some d) (some r) r g)) :
    (do copyBlock (← diskaddr 0#32) (← diskaddr 1#32)
        strcpy (← diskaddr 1#32) oops
        writeBlock 1#32
        rest).wp Q E (s.pair (some x) (some d) d g) := by
  have hat : At (blockVa 1#32) 1#32 0 := at_blockVa (by decide)
  apply wp_diskaddr_then (by decide)
  apply wp_diskaddr_then (by decide)
  apply wp_copyBlock_then (by decide) (by decide) (by decide) pair_holds_zero pair_holds_one
  rw [pair_put_zero]
  apply wp_diskaddr_then (by decide)
  rw [wp_bind]
  refine wp_strcpy_page hat pair_holds_one (by decide) fun r hr => ?_
  rw [pair_put_one] at hr ⊢
  apply wp_writeBlock_then (by decide) (pair_holds_one.cached hat)
  rw [pair_flush]
  exact hf r hr

/-- The page of the superblock is given up. -/
theorem wp_forget {Q : Except Err α → Server → Prop} {rest : Proc α} {r : Page}
    (hf : rest.wp Q E (s.pair p none d g)) :
    (do userAssert (← blockIsMapped 1#32) "block_is_mapped(1)"
        let _ ← attempt (memUnmap (← diskaddr 1#32))
        userAssert (!(← blockIsMapped 1#32)) "!block_is_mapped(1)"
        rest).wp Q E (s.pair p (some r) d g) := by
  apply wp_mapped_then
  apply wp_userAssert_then
  apply wp_diskaddr_then (by decide)
  rw [wp_bind]
  apply wp_memUnmap_one
  apply wp_mapped_then
  exact wp_userAssert_then hf

/-- The words came back from the disk; the superblock is restored from its copy. -/
theorem wp_restore {Q : Except Err Unit → Server → Prop} {t : Server} {x : Option Page}
    {e r : Page} {k : List Bool}
    (hr : Written t (s.pair x (some r) e k) (blockVa 1#32) 1#32 0 (oops ++ [0#8]))
    (hQ : Q (.ok ()) (Server.pair { s with super := true } (some d) (some d) d g)) :
    (do userAssert (← strEq oops (← diskaddr 1#32)) "strcmp((char*)diskaddr(1),\"OOPS!\\n\") == 0"
        copyBlock (← diskaddr 1#32) (← diskaddr 0#32)
        writeBlock 1#32
        let _ ← diskaddr 1#32
        modify fun s => { s with super := true }).wp Q E (s.pair (some d) (some r) r g) := by
  have hat : At (blockVa 1#32) 1#32 0 := at_blockVa (by decide)
  obtain ⟨hname, hzero⟩ := oops_back hr (some d) g
  apply wp_diskaddr_then (by decide)
  rw [wp_bind]
  refine wp_strEq (by decide) hzero
    (fun n hn => pair_holds_one.cached (hat.add (n := n) (by omega))) ?_
  rw [hname]
  apply wp_userAssert_then
  apply wp_diskaddr_then (by decide)
  apply wp_diskaddr_then (by decide)
  apply wp_copyBlock_then (by decide) (by decide) (by decide) pair_holds_one pair_holds_zero
  rw [pair_put_one]
  apply wp_writeBlock_then (by decide) (pair_holds_one.cached hat)
  rw [pair_flush]
  apply wp_diskaddr_then (by decide)
  exact wp_modify.mpr hQ

/-- The superblock is written over and restored; its copy stays in the page of block 0. -/
theorem wp_checkWriteBlock {Q : Except Err Unit → Server → Prop} (hb : s.bitmap = false)
    (hQ : ∀ g', g' <:+ g →
      Q (.ok ()) (Server.pair { s with super := true } (some d) (some d) d g'))
    (hE : false ∈ g → E (.kernel "alloc page failed!\n")) :
    checkWriteBlock.wp Q E (s.pair none (some d) d g) := by
  have hcheck : ∀ (x y : Option Page) (e : Page) (k : List Bool) (b : Word)
      (R : Except Err Unit → Server → Prop), R (.ok ()) (Server.pair { s with super := false } x y e k) →
      (checkBlock b).wp R E (Server.pair { s with super := false } x y e k) := fun x y e k b R =>
    checkBlock_early (s := Server.pair { s with super := false } x y e k) rfl hb R
  unfold checkWriteBlock
  rw [wp_modify_bind]
  show wp _ Q E (Server.pair { s with super := false } none (some d) d g)
  rw [wp_bind]
  refine wp_readBlock_missing (by decide) (hcheck _ _ _ _ _) pair_none_zero (fun g₁ hg₁ => ?_)
    fun c hc => hc.1 ▸ hE hc.2
  rw [pair_put_zero]
  show wp _ Q E (Server.pair { s with super := false } (some _) (some d) d g₁)
  refine wp_oops fun r hr => ?_
  refine wp_forget ?_
  rw [wp_bind]
  refine wp_readBlock_missing (by decide) (hcheck _ _ _ _ _) pair_none_one (fun g₂ hg₂ => ?_)
    fun c hc => hc.1 ▸ hE (hg₁.subset hc.2)
  rw [pair_put_one, pair_disk_one]
  show wp _ Q E (Server.pair { s with super := false } (some d) (some r) r g₂)
  exact wp_restore (s := { s with super := false }) hr (hQ g₂ (hg₂.trans hg₁))

end Superblock

/-! ## The bitmap -/

/-- The server between the check of the disk and the end of the start. -/
def Server.booting (s : Server) (n : ℕ) (g : List Bool) : Server :=
  { s.loaded n with super := true, grants := g }

section Bits

variable {s : Server} {b : Word} {n i : ℕ} {g : List Bool} {E : Stop → Prop}

theorem sub_diskmap (b : Word) : vpn diskmap + b - vpn diskmap = b := by
  rw [BitVec.add_comm, BitVec.add_sub_cancel]

theorem exists_block (v : Word) : ∃ b, v = vpn diskmap + b :=
  ⟨v - vpn diskmap, by rw [BitVec.add_comm, BitVec.sub_add_cancel]⟩

theorem pair_booting : Server.pair { s with super := true } (some (s.disk sect2blk))
    (some (s.disk sect2blk)) (s.disk sect2blk) g = s.booting 2 g := by
  unfold Server.pair Server.booting Server.loaded
  simp only [Server.mk.injEq, and_true, Function.update_eq_self]
  funext v
  obtain ⟨b, rfl⟩ := exists_block v
  rw [sub_diskmap]
  by_cases h0 : b = 0#32
  · subst h0
    rfl
  · have hne0 : vpn diskmap + b ≠ vpn diskmap + 0#32 := fun h => h0 ((BitVec.add_right_inj _).mp h)
    by_cases h1 : b = 1#32
    · subst h1
      rfl
    · have hne1 : vpn diskmap + b ≠ vpn diskmap + 1#32 := fun h => h1 ((BitVec.add_right_inj _).mp h)
      have h2 : ¬b.toNat < 2 := fun hlt => by
        have hcases : b.toNat = 0 ∨ b.toNat = 1 := by omega
        rcases hcases with h | h
        · exact h0 (BitVec.eq_of_toNat_eq h)
        · exact h1 (BitVec.eq_of_toNat_eq h)
      rw [if_neg hne0, if_neg hne1, if_neg h2]

theorem booting_holds (hb : b.toNat < n) : (s.booting n g).Holds b (startBlock s.disk b) := by
  unfold Server.Holds Server.booting Server.loaded
  simp only [sub_diskmap, if_pos hb]

theorem booting_none (hs : Unstarted s) (hb : b.toNat < 262144) (hn : n ≤ b.toNat) :
    (s.booting n g).pages (vpn diskmap + b) = none := by
  unfold Server.booting Server.loaded
  simp only [sub_diskmap, if_neg (Nat.not_lt.mpr hn)]
  exact hs.pages b hb

/-- The next block comes into the cache. -/
theorem booting_put {g' : List Bool} (hn : 0 < n) (hlt : n < 262144) :
    ({ (s.booting n g).put (BitVec.ofNat 32 n) (s.disk (BitVec.ofNat 32 n * sect2blk)) with
      grants := g' } : Server) = s.booting (n + 1) g' := by
  have hval : (BitVec.ofNat 32 n).toNat = n := by
    rw [BitVec.toNat_ofNat]
    omega
  unfold Server.put Server.booting Server.loaded
  simp only [Server.mk.injEq, and_true]
  funext v
  obtain ⟨b, rfl⟩ := exists_block v
  rw [sub_diskmap]
  by_cases hb : b = BitVec.ofNat 32 n
  · subst hb
    have h0 : BitVec.ofNat 32 n ≠ 0#32 := fun h => by
      have hz := congrArg BitVec.toNat h
      rw [hval] at hz
      exact absurd hz (by simp; omega)
    rw [Function.update_self, if_pos (by omega), startBlock, if_neg h0]
  · have hbn : b.toNat ≠ n := fun h => hb (BitVec.eq_of_toNat_eq (h.trans hval.symm))
    rw [Function.update_of_ne fun h => hb ((BitVec.add_right_inj _).mp h), sub_diskmap]
    by_cases hlt : b.toNat < n
    · rw [if_pos hlt, if_pos (by omega)]
    · rw [if_neg hlt, if_neg (by omega)]

/-- `super->s_nblocks` while the server starts. -/
theorem wp_nblocks_booting {Q : Except Err Word → Server → Prop} (hn : 2 ≤ n)
    (hQ : Q (.ok (s.disk sect2blk 1)) (s.booting n g)) : nblocks.wp Q E (s.booting n g) := by
  have hat : At (superVa + 4#32) 1#32 4 := ⟨rfl, by decide, by omega⟩
  have hone : (s.booting n g).Holds 1#32 (startBlock s.disk 1#32) :=
    booting_holds (show 1 < n by omega)
  refine wp_load (hone.cached hat) ?_
  rw [hone.view hat]
  exact hQ

/-- `read_block` of a block of the bitmap that is not in the cache yet. -/
theorem wp_readBlock_booting {Q : Except Err Word → Server → Prop} (hs : Unstarted s) (hn : 2 ≤ n)
    (hlt : n < 262144)
    (hpanic : (s.disk sect2blk 1).toNat ≤ n → E (.panic "reading non-existent block %08x\n"))
    (hQ : n < (s.disk sect2blk 1).toNat → ∀ g', g' <:+ g → Q (.ok (blockVa (BitVec.ofNat 32 n)))
      (s.booting (n + 1) g'))
    (hE : false ∈ g → E (.kernel "alloc page failed!\n")) :
    (readBlock (BitVec.ofNat 32 n)).wp Q E (s.booting n g) := by
  have hval : (BitVec.ofNat 32 n).toNat = n := by
    rw [BitVec.toNat_ofNat]
    omega
  by_cases hin : n < (s.disk sect2blk 1).toNat
  · refine wp_readBlock_missing (by omega) (fun R hR => ?_) (booting_none hs (by omega) (by omega))
      (fun g' hg' => ?_) fun c hc => hc.1 ▸ hE hc.2
    · unfold checkBlock
      rw [wp_get_bind, wp_bind, wp_when]
      refine ⟨fun _ => ?_, fun h => absurd rfl h⟩
      rw [wp_bind]
      refine wp_nblocks_booting hn ?_
      simp only
      rw [wp_when, ge_iff_le, BitVec.le_def, hval]
      refine ⟨fun h => absurd h (by omega), fun _ => ?_⟩
      simp only
      rw [wp_get_bind, wp_when]
      have hoff : (s.booting n g).bitmap = false := hs.bitmap
      rw [hoff]
      exact ⟨fun h => absurd h (by simp), fun _ => hR⟩
    · have hdisk : (s.booting n g).disk = s.disk := rfl
      rw [hdisk, booting_put (by omega) hlt]
      exact hQ hin g' hg'
  · unfold readBlock checkBlock
    rw [wp_bind, wp_get_bind, wp_bind, wp_when]
    refine ⟨fun _ => ?_, fun h => absurd rfl h⟩
    rw [wp_bind]
    refine wp_nblocks_booting hn ?_
    simp only
    rw [wp_when, ge_iff_le, BitVec.le_def, hval]
    exact ⟨fun _ => wp_halt.mpr (hpanic (by omega)), fun h => absurd (Nat.not_lt.mp hin) h⟩

theorem started_holds (hb : b.toNat < readCount s.disk) :
    (s.started g).Holds b (startBlock s.disk b) := by
  unfold Server.Holds Server.started Server.loaded
  simp only [sub_diskmap, if_pos hb]

theorem super_read (disk : Word → Page) : (1#32 : Word).toNat < readCount disk :=
  Nat.succ_lt_succ (Nat.succ_pos _)

theorem started_nblk : (s.started g).nblk = s.disk sect2blk 1 := by
  have hat : At (superVa + 4#32) 1#32 4 := ⟨rfl, by decide, by omega⟩
  exact (started_holds (super_read s.disk)).view hat

/-- What `fs_init` leaves is a mounted file system. -/
theorem started_mounted (hsize : (s.disk sect2blk 1).toNat ≤ 262144) : Mounted (s.started g) := by
  have hat : At superVa 1#32 0 := ⟨rfl, by decide, by omega⟩
  refine ⟨rfl, rfl, started_nblk ▸ hsize, ?_, fun b hb => ?_⟩
  · exact (started_holds (super_read s.disk)).cached hat
  · rw [started_nblk] at hb
    have hlt : b.toNat < (s.disk sect2blk 1).toNat := hb
    have hval : (BitVec.ofNat 32 (b.toNat / 32768 + 2)).toNat = b.toNat / 32768 + 2 := by
      rw [BitVec.toNat_ofNat]
      omega
    refine (started_holds ?_).cached (at_bitWord (by omega))
    rw [hval]
    unfold readCount
    omega

theorem and_blockBit_ne_zero (x b : Word) : x &&& blockBit b ≠ 0#32 ↔ x.getLsbD (b.toNat % 32) = true := by
  refine ⟨fun h => ?_, fun h h0 => ?_⟩
  · by_contra hx
    refine h (BitVec.eq_of_getLsbD_eq fun i _ => ?_)
    rw [BitVec.getLsbD_and, blockBit_getLsbD]
    by_cases hi : i = b.toNat % 32
    · rw [hi, Bool.eq_false_iff.mpr hx, Bool.false_and]
      simp
    · simp [hi]
  · have hbit := congrArg (fun y : Word => y.getLsbD (b.toNat % 32)) h0
    simp only [BitVec.getLsbD_and, blockBit_getLsbD, h] at hbit
    simp at hbit

/-- The bitmap in the cache is the one on the disk. -/
theorem started_free (hb : b.toNat < (s.disk sect2blk 1).toNat)
    (hsize : (s.disk sect2blk 1).toNat ≤ 262144) :
    (s.started g).Free b ↔ bitOn s.disk b.toNat = true := by
  have hval : (BitVec.ofNat 32 (b.toNat / 32768 + 2)).toNat = b.toNat / 32768 + 2 := by
    rw [BitVec.toNat_ofNat]
    omega
  have hat := at_bitWord (b := b) (by omega)
  have hidx : wordIdx (bitWordVa b) = Fin.ofNat 1024 (b.toNat / 32) := Fin.ext (by
    have hw := hat.wordIdx_val
    have hof : (Fin.ofNat 1024 (b.toNat / 32)).val = b.toNat / 32 % 1024 := rfl
    omega)
  have h0 : BitVec.ofNat 32 (b.toNat / 32768 + 2) ≠ 0#32 := fun h => by
    have hz := congrArg BitVec.toNat h
    rw [hval] at hz
    exact absurd hz (by simp)
  unfold Server.Free
  rw [(started_holds (by rw [hval]; unfold readCount; omega)).view hat, and_blockBit_ne_zero, hidx,
    startBlock, if_neg h0]
  exact Iff.rfl

theorem wp_isFree {Q : Except Err Bool → Server → Prop} (hsize : (s.disk sect2blk 1).toNat ≤ 262144)
    (hb : b.toNat < (s.disk sect2blk 1).toNat)
    (hQ : Q (.ok (bitOn s.disk b.toNat)) (s.started g)) : (blockIsFree b).wp Q E (s.started g) := by
  have hlt : b < (s.started g).nblk := started_nblk ▸ hb
  have hfree : decide ((s.started g).Free b) = bitOn s.disk b.toNat :=
    Bool.eq_iff_iff.mpr ((decide_eq_true_iff).trans (started_free hb hsize))
  exact wp_blockIsFree (started_mounted hsize) hlt (hfree ▸ hQ)

/-- The stop of `read_bitmap` is the one for the first bit that is on. -/
theorem refusal_bit {k : ℕ} (hmagic : s.disk sect2blk 0 = fsMagic)
    (hsize : (s.disk sect2blk 1).toNat ≤ 262144) (hthree : 3 ≤ (s.disk sect2blk 1).toNat)
    (hk : k < readCount s.disk) (hbefore : ∀ j < k, bitOn s.disk j = false)
    (hon : bitOn s.disk k = true) : refusal s.disk = some (.assert (bitClaim k)) := by
  have hfind : (List.range (readCount s.disk)).find? (bitOn s.disk) = some k :=
    List.find?_range_eq_some.mpr ⟨hon, List.mem_range.mpr hk, fun j hj => by rw [hbefore j hj]; rfl⟩
  unfold refusal
  rw [if_neg (not_not.mpr hmagic), if_neg (by omega), if_neg (by omega), hfind, Option.map_some]

theorem refusal_none (hmagic : s.disk sect2blk 0 = fsMagic)
    (hsize : (s.disk sect2blk 1).toNat ≤ 262144) (hthree : 3 ≤ (s.disk sect2blk 1).toNat)
    (hoff : ∀ j < readCount s.disk, bitOn s.disk j = false) : refusal s.disk = none := by
  have hfind : (List.range (readCount s.disk)).find? (bitOn s.disk) = none :=
    List.find?_range_eq_none.mpr fun j hj => by rw [hoff j hj]; rfl
  unfold refusal
  rw [if_neg (not_not.mpr hmagic), if_neg (by omega), if_neg (by omega), hfind, Option.map_none]

/-- The blocks that `fs_init` reads are blocks of the file system. -/
theorem readCount_le (hthree : 3 ≤ (s.disk sect2blk 1).toNat) :
    readCount s.disk ≤ (s.disk sect2blk 1).toNat := by
  unfold readCount
  omega

/-- The assertions of `read_bitmap`, in their order. -/
theorem wp_checkBits {Q : Except Err Unit → Server → Prop} (hmagic : s.disk sect2blk 0 = fsMagic)
    (hsize : (s.disk sect2blk 1).toNat ≤ 262144) (hthree : 3 ≤ (s.disk sect2blk 1).toNat)
    (hQ : refusal s.disk = none → Q (.ok ()) (s.started g))
    (hE : ∀ c, refusal s.disk = some c → E c) :
    (do
      userAssert (!(← blockIsFree 0#32)) "!block_is_free(0)"
      userAssert (!(← blockIsFree 1#32)) "!block_is_free(1)"
      checkBits (readCount s.disk - 2) : Proc Unit).wp Q E (s.started g) := by
  have hcount := readCount_le hthree
  have hthird : 3 ≤ readCount s.disk := Nat.le_add_left 3 _
  have hbit := fun k => refusal_bit (k := k) hmagic hsize hthree
  rw [wp_bind]
  refine wp_isFree hsize (show 0 < _ by omega) ?_
  simp only
  rw [wp_bind]
  refine wp_userAssert (fun h => hE _ (hbit 0 (by omega) (fun j hj => absurd hj (by omega)) ?_))
    fun h => ?_
  · simpa using h
  have h0 : bitOn s.disk 0 = false := by simpa using h
  simp only
  rw [wp_bind]
  refine wp_isFree hsize (show 1 < _ by omega) ?_
  simp only
  rw [wp_bind]
  refine wp_userAssert (fun h => hE _ (hbit 1 (by omega) (fun j hj => ?_) ?_)) fun h => ?_
  · obtain rfl : j = 0 := by omega
    exact h0
  · simpa using h
  have h1 : bitOn s.disk 1 = false := by simpa using h
  unfold checkBits
  refine wp_each_range (fun i t => t = s.started g ∧ ∀ j < i + 2, bitOn s.disk j = false)
    (readCount s.disk - 2) ⟨rfl, fun j hj => ?_⟩ ?_ ?_
  · rcases (show j = 0 ∨ j = 1 by omega) with rfl | rfl
    · exact h0
    · exact h1
  · rintro i t - hi ⟨rfl, hbefore⟩
    have hval : (BitVec.ofNat 32 (i + 2)).toNat = i + 2 := by
      rw [BitVec.toNat_ofNat]
      omega
    rw [wp_bind]
    refine wp_isFree hsize (by omega) ?_
    rw [hval]
    refine wp_userAssert (fun h => hE _ (hbit (i + 2) (by omega) hbefore ?_)) fun h => ⟨rfl, ?_⟩
    · simpa using h
    · intro j hj
      rcases (show j < i + 2 ∨ j = i + 2 by omega) with hj | rfl
      · exact hbefore j hj
      · simpa using h
  · rintro t ⟨rfl, hall⟩
    exact hQ (refusal_none hmagic hsize hthree fun j hj => hall j (by omega))

theorem wp_readBitmap {Q : Except Err Unit → Server → Prop} (hs : Unstarted s)
    (hmagic : s.disk sect2blk 0 = fsMagic) (hsize : (s.disk sect2blk 1).toNat ≤ 262144)
    (hQ : refusal s.disk = none → ∀ g', g' <:+ g → Q (.ok ()) (s.started g'))
    (hE : ∀ c, refusal s.disk = some c → E c)
    (hshort : false ∈ g → E (.kernel "alloc page failed!\n")) :
    readBitmap.wp Q E (s.booting 2 g) := by
  have hbits : ((s.disk sect2blk 1) / bit2blk + 1#32).toNat = readCount s.disk - 2 := by
    have h1 : bit2blk.toNat = 32768 := rfl
    have h2 : (1#32 : Word).toNat = 1 := rfl
    unfold readCount
    rw [BitVec.toNat_add, BitVec.toNat_udiv, h1, h2]
    omega
  have hcount : readCount s.disk ≤ 11 := by
    unfold readCount
    omega
  have hthird : 3 ≤ readCount s.disk := Nat.le_add_left 3 _
  unfold readBitmap
  rw [wp_bind]
  refine wp_nblocks_booting (le_refl 2) ?_
  simp only
  rw [hbits]
  refine wp_seq (R := fun r t => r = .ok () ∧ 3 ≤ (s.disk sect2blk 1).toNat ∧
    ∃ g', g' <:+ g ∧ t = s.booting (readCount s.disk) g') ?_ ?_ (by rintro e t ⟨h, -⟩; cases h)
  · refine wp_each_range (fun i t => (0 < i → 3 ≤ (s.disk sect2blk 1).toNat) ∧
      ∃ g', g' <:+ g ∧ t = s.booting (i + 2) g') (readCount s.disk - 2)
      ⟨fun h => absurd h (by omega), g, List.suffix_rfl, rfl⟩ ?_ ?_
    · rintro i t - hi ⟨-, g', hg', rfl⟩
      rw [wp_bind]
      refine wp_readBlock_booting hs (by omega) (by omega) (fun hle => hE _ ?_) (fun hlt g'' hg'' => ?_)
        fun h => hshort (hg'.subset h)
      · -- a block of the bitmap lies outside only where there is not even room for one
        have hthree : (s.disk sect2blk 1).toNat < 3 := by
          unfold readCount at hi
          omega
        unfold refusal
        rw [if_neg (not_not.mpr hmagic), if_neg (by omega), if_pos hthree]
      · have hi2 : i + 2 + 1 = i + 1 + 2 := by omega
        exact wp_pure.mpr ⟨fun _ => by omega, g'', hg''.trans hg', by rw [hi2]⟩
    · rintro t ⟨hthree, g', hg', rfl⟩
      have hend : 0 + (readCount s.disk - 2) + 2 = readCount s.disk := by omega
      exact ⟨rfl, hthree (by omega), g', hg', by rw [hend]⟩
  · rintro - t ⟨-, hthree, g', hg', rfl⟩
    rw [wp_bind]
    refine wp_diskaddr (by decide) ?_
    simp only
    rw [wp_modify_bind]
    exact wp_checkBits hmagic hsize hthree (fun h => hQ h g' hg') hE

end Bits

/-! ## The start -/

section Start

variable {s : Server} {b : Word} {g : List Bool}

/-- `fs_init` stops with the message for the disk, or it comes to the end. -/
theorem wp_fsInit {Q : Except Err Unit → Server → Prop} {E : Stop → Prop} (hs : Unstarted s)
    (hQ : refusal s.disk = none → (s.disk sect2blk 1).toNat ≤ 262144 →
      ∀ g, g <:+ s.grants → Q (.ok ()) (s.started g))
    (hE : ∀ c, refusal s.disk = some c → E c) (hshort : ∀ c, Short s c → E c) :
    fsInit.wp Q E s := by
  unfold fsInit
  rw [wp_bind]
  refine wp_readSuper hs (fun h => hE _ ?_) (fun hm h => hE _ ?_) (fun hm hsize g hg => ?_) hshort
  · unfold refusal
    rw [if_pos h]
  · unfold refusal
    rw [if_neg (not_not.mpr hm), if_pos h]
  · simp only
    rw [wp_bind]
    refine wp_checkWriteBlock hs.bitmap (fun g₁ hg₁ => ?_) fun h => hshort _ ⟨rfl, hg.subset h⟩
    simp only
    have hboot : Server.pair { ({ s with super := true } : Server) with super := true }
        (some (s.disk sect2blk)) (some (s.disk sect2blk)) (s.disk sect2blk) g₁ = s.booting 2 g₁ :=
      pair_booting
    rw [hboot]
    exact wp_readBitmap hs hm hsize (fun hn g₂ hg₂ => hQ hn hsize g₂ (hg₂.trans (hg₁.trans hg))) hE
      fun h => hshort _ ⟨rfl, hg.subset (hg₁.subset h)⟩

theorem started_none (hs : Unstarted s) (hb : b.toNat < 262144) (hn : readCount s.disk ≤ b.toNat) :
    (s.started g).pages (vpn diskmap + b) = none := by
  unfold Server.started Server.loaded
  simp only [sub_diskmap, if_neg (Nat.not_lt.mpr hn)]
  exact hs.pages b hb

theorem started_cached_iff (hs : Unstarted s) (hb : b.toNat < 262144) :
    (s.started g).Cached (blockVa b) ↔ b.toNat < readCount s.disk := by
  by_cases hlt : b.toNat < readCount s.disk
  · exact iff_of_true ((started_holds hlt).cached (at_blockVa hb)) hlt
  · refine iff_of_false ?_ hlt
    unfold Server.Cached
    rw [(at_blockVa hb).vpn_eq, started_none hs hb (Nat.not_lt.mp hlt)]
    simp

theorem started_block (hs : Unstarted s) (hb : b.toNat < 262144) :
    (s.started g).block b = startBlock s.disk b := by
  by_cases hlt : b.toNat < readCount s.disk
  · unfold Server.block
    rw [started_holds hlt]
  · have h0 : b ≠ 0#32 := by
      rintro rfl
      exact hlt (Nat.succ_pos _)
    unfold Server.block
    rw [started_none hs hb (Nat.not_lt.mp hlt), startBlock, if_neg h0]
    rfl

end Start

/-- `fs_init` stops on the disks that `refusal` has a message for.  On any other one, if the
kernel has frames, it mounts the file system: the disk is as before, and the cache has the
superblock and the bitmap, with the superblock's words in the page of block 0 as well. -/
theorem fs_init {s : Server} (hs : Unstarted s) : fsInit.wp
    (fun r t => r = .ok () ∧ refusal s.disk = none ∧ Mounted t ∧ t.disk = s.disk ∧
      (∀ b : Word, b.toNat < 262144 → (t.Cached (blockVa b) ↔ b.toNat < readCount s.disk) ∧
        t.block b = if b = 0#32 then s.disk sect2blk else s.disk (b * sect2blk)) ∧
      ∀ b, b < t.nblk → (t.Free b ↔ bitOn s.disk b.toNat = true))
    (fun c => refusal s.disk = some c ∨ Short s c) s := by
  refine wp_fsInit hs (fun hn hsize g _ => ⟨rfl, hn, started_mounted hsize, rfl, fun b hb => ?_,
    fun b hb => ?_⟩) (fun c => .inl) fun c => .inr
  · exact ⟨started_cached_iff hs hb, started_block hs hb⟩
  · rw [started_nblk] at hb
    exact started_free hb hsize

/-- A server that is about to start on a disk given by its words. -/
def beforeInit (ws : List (ℕ × ℕ × Word)) : Server :=
  { fullTable with
    disk := fun sector => blockAt ws (sector.toNat / 8)
    super := false
    bitmap := false }

theorem beforeInit_unstarted (ws : List (ℕ × ℕ × Word)) : Unstarted (beforeInit ws) :=
  ⟨rfl, rfl, fun _ _ => rfl⟩

/-- A disk of 8 blocks of which the last three are free. -/
theorem fs_init_eight : fsInit.wp (fun r t => r = .ok () ∧ Mounted t ∧ t.Free 5#32 ∧ ¬t.Free 4#32)
    (fun _ => False) (beforeInit [(1, 0, fsMagic), (1, 1, 8#32), (2, 0, 224#32)]) := by
  have hn : refusal (beforeInit [(1, 0, fsMagic), (1, 1, 8#32), (2, 0, 224#32)]).disk = none := by
    decide +kernel
  have hbits : bitOn (beforeInit [(1, 0, fsMagic), (1, 1, 8#32), (2, 0, 224#32)]).disk 5 = true ∧
      bitOn (beforeInit [(1, 0, fsMagic), (1, 1, 8#32), (2, 0, 224#32)]).disk 4 = false := by
    decide +kernel
  refine wp_mono (fs_init (beforeInit_unstarted _)) ?_ ?_
  · rintro r t ⟨rfl, -, hm, -, hblock, hfree⟩
    have hnblk : t.nblk = 8#32 := congrFun (hblock 1#32 (by decide)).2 1
    refine ⟨rfl, hm, (hfree 5#32 (hnblk ▸ by decide)).mpr hbits.1, fun h => ?_⟩
    have hon := (hfree 4#32 (hnblk ▸ by decide)).mp h
    exact absurd (hon.symm.trans hbits.2) (by simp)
  · rintro c (h | h)
    · rw [hn] at h
      cases h
    · exact absurd h.2 (by simp [beforeInit, fullTable])

end Fs
end RvMos
