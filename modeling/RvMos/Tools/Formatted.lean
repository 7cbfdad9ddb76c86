/-
A disk from `fsformat` in the file server.

The tool comes to its end exactly where the blocks of the tree fit.  `fs_init` then mounts
the disk, and the server sees the tree of the host: a path leads to a record exactly where
it leads to a node, files have their bytes, and a block is in use exactly if the tool has
handed it out.
-/
import RvMos.Fs.Mount
import RvMos.Fs.NewFile
import RvMos.Tools.HostTree

namespace RvMos

open Lib

namespace Fsformat

open Fs (Byte Server At blockVa)

/-! ## The finished disk -/

/-- The blocks that `finish_fs` writes. -/
def image (m : Image) : ℕ → Page := fun b =>
  if b < nblock then (copySuper (flushBitmap m)).mem (some b) else fun _ => 0#32

/-- The tool after its arguments, which stand in the root directory. -/
structure Made (m : Image) (args : List Node) (bs ix G : List ℕ) : Prop where
  root : OpenDir m sRoot args bs ix G
  name : Named m sRoot [47#8]
  type : m.word sRoot fType = 1#32
  magic : m.word ⟨none, 0⟩ 0 = Fs.fsMagic
  size : m.word ⟨none, 0⟩ 1 = BitVec.ofNat 32 nblock
  bits : ∀ i, m.mem (some 2) i = initBits 2 i
  count : m.nextbno = 3 + allCost 0 args
  cap : m.nextbno ≤ nblock

section Finish

variable {m : Image} {args : List Node} {bs ix G : List ℕ} {b n : ℕ} {i : Index}

theorem initDisk_word {k : ℕ} (hk : 2 ≤ k) (hk' : k < 66) : initDisk.word ⟨none, 0⟩ k =
    if k = 2 then 47#32 else if k = 35 then 1#32 else 0#32 := by
  have hall : ∀ j : Fin 64, initDisk.word ⟨none, 0⟩ (j.val + 2) =
      if j.val + 2 = 2 then 47#32 else if j.val + 2 = 35 then 1#32 else 0#32 := by
    decide +kernel
  have h := hall ⟨k - 2, by omega⟩
  rwa [show k - 2 + 2 = k by omega] at h

theorem initDisk_open : OpenDir initDisk sRoot [] [] [] [] := by
  have hword : ∀ k, 0 < k → k < 64 → k ≠ 33 → initDisk.word sRoot k = 0#32 := fun k h1 h2 h3 => by
    have h := initDisk_word (k := k + 2) (by omega) (by omega)
    rw [if_neg (by omega), if_neg (by omega)] at h
    rw [← h]
    unfold Image.word sRoot
    rw [show 2 + k = 0 + (k + 2) by omega]
  refine ⟨⟨Links.nil fun k h1 h2 => hword k (by omega) (by omega) (by omega),
    hword 32 (by omega) (by omega) (by omega), fun j _ hj => absurd hj (by simp)⟩, rfl, ?_,
    ⟨by decide, fun _ hb => (nomatch hb), fun b hb => absurd hb (by simp), List.nodup_nil⟩⟩
  unfold RepAll
  rfl

theorem initDisk_fresh : Fresh initDisk := fun b hb i => by
  have h3 : initDisk.nextbno = 3 := rfl
  rw [h3] at hb
  show (if 2 ≤ b ∧ b < 2 + nbitblock then initBits b else fun _ => 0#32) i = 0#32
  have hn : nbitblock = 1 := rfl
  rw [if_neg (by omega)]

/-- With something to put on the disk the tool comes to its end exactly where the blocks
fit. -/
theorem fsformat_made (hne : args ≠ []) (hok : AllOk args) :
    if 3 + allCost 0 args ≤ nblock then
      ∃ m bs ix G, fsformat args = .ok (image m) ∧ Made m args bs ix G
    else fsformat args = .error .wild := by
  have hrun : Runs id (writeAll sRoot initDisk args) 3 (allCost 0 args) (fun m => ∃ bs ix G,
      OpenDir m sRoot args bs ix G ∧ Grown initDisk m sRoot [] [] [] bs ix G) :=
    runs_writeAll args hok initDisk_open initDisk_fresh (by decide) (by decide)
  unfold Runs at hrun
  unfold fsformat
  rw [List.isEmpty_eq_false_iff.mpr hne]
  simp only [Bool.false_eq_true, if_false]
  by_cases hfit : 3 + allCost 0 args ≤ nblock
  · rw [if_pos hfit] at hrun ⊢
    obtain ⟨m, hm, hn, bs, ix, G, ho, hg⟩ := hrun
    have hname : Named initDisk sRoot [47#8] := named_of_bytes (fun k hk => by
        have hall : ∀ j : Fin 128, initDisk.byte sRoot j.val = [47#8].getD j.val 0#8 := by decide +kernel
        exact hall ⟨k, hk⟩) (by decide) (by decide) (by decide)
    have hsuper : ∀ k, k < 66 → k < 34 ∨ k = 35 → m.word ⟨none, 0⟩ k = initDisk.word ⟨none, 0⟩ k := by
      intro k h66 hk
      refine hg.changes.word (by simp; omega) fun i hi => ?_
      simp only [Nat.zero_add] at hi
      rintro (h | h | ⟨x, -, h⟩ | ⟨x, -, h⟩)
      · obtain ⟨-, h1, h2⟩ := h
        have hb : sRoot.base = 2 := rfl
        omega
      · obtain ⟨-, h1, h2⟩ := h
        have hb : sRoot.base = 2 := rfl
        omega
      · cases h
      · cases h
    rw [hm]
    refine ⟨m, bs, ix, G, rfl, ho, hname.frame (by decide) hg.changes fun i hi => ?_, ?_, ?_, ?_,
      fun i => ?_, hn, le_of_eq_of_le hn hfit⟩
    · rintro (h | h | ⟨x, -, h⟩ | ⟨x, -, h⟩)
      · have h1 := hi.2.2
        have h2 := h.2.1
        omega
      · have h1 := hi.2.2
        have h2 := h.2.1
        omega
      · exact nomatch h
      · exact nomatch h
    · exact (hsuper 35 (by omega) (.inr rfl)).trans (initDisk_word (by omega) (by omega))
    · exact (hsuper 0 (by omega) (.inl (by omega))).trans (by decide +kernel)
    · exact (hsuper 1 (by omega) (.inl (by omega))).trans (by decide +kernel)
    · refine (hg.changes _ _ ?_).trans rfl
      have h3 : initDisk.nextbno = 3 := rfl
      rintro (h | h | ⟨x, hx, h⟩ | ⟨x, hx, h⟩)
      · exact nomatch h.1
      · exact nomatch h.1
      · simp at hx
      · obtain rfl := Option.some.inj h
        omega
  · rw [if_neg hfit] at hrun ⊢
    rw [hrun]
    rfl

theorem clearBit_mem {k : ℕ} (hk : k < 1024) (o : Option ℕ) (i : Index) (t : ℕ) (ht : t < 32) :
    ((clearBit m k).mem o i).getLsbD t =
      ((m.mem o i).getLsbD t && !decide (o = some 2 ∧ 32 * i.val + t = k)) := by
  have hdiv : 2 + k / bit2blk = 2 := by unfold bit2blk; omega
  have hmod : k % bit2blk / 32 = k / 32 := by unfold bit2blk; omega
  unfold clearBit Image.setWord Image.setPage Image.word
  simp only [hdiv, hmod, Nat.zero_add]
  by_cases ho : o = some 2
  · subst ho
    simp only [Function.update_self, true_and]
    by_cases hi : i = Fin.ofNat 1024 (k / 32)
    · subst hi
      have hval : (Fin.ofNat 1024 (k / 32) : Index).val = k / 32 := index_val (by omega)
      rw [Function.update_self, BitVec.getLsbD_and, BitVec.getLsbD_not, BitVec.getLsbD_shiftLeft,
        BitVec.getLsbD_one, hval]
      by_cases he : t = k % 32
      · have h32 : 32 * (k / 32) + k % 32 = k := by omega
        subst he
        simp [h32]
      · have hne : ¬32 * (k / 32) + t = k := by omega
        by_cases hlt : t < k % 32
        · simp [hne, hlt, ht]
        · have hsub : t - k % 32 ≠ 0 := by omega
          simp [hne, hlt, ht, hsub]
    · have hne : ¬32 * i.val + t = k := fun h => hi (Fin.ext (by
        rw [index_val (by omega)]
        omega))
      rw [Function.update_of_ne hi]
      simp [hne]
  · simp only [Function.update_of_ne ho, ho, false_and, decide_false, Bool.not_false, Bool.and_true]

/-- `flush_bitmap` clears the bits of the blocks that have been handed out. -/
theorem flush_mem (hn : n ≤ 1024) (o : Option ℕ) (i : Index) (t : ℕ) (ht : t < 32) :
    (((List.range n).foldl clearBit m).mem o i).getLsbD t =
      ((m.mem o i).getLsbD t && !decide (o = some 2 ∧ 32 * i.val + t < n)) := by
  induction n with
  | zero => simp
  | succ n ih =>
    rw [List.range_succ, List.foldl_append, List.foldl_cons, List.foldl_nil,
      clearBit_mem (by omega) o i t ht, ih (by omega), Bool.and_assoc]
    congr 1
    by_cases ho : o = some 2
    · by_cases h1 : 32 * i.val + t < n
      · simp [ho, h1, Nat.lt_succ_of_lt h1]
      · by_cases h2 : 32 * i.val + t = n
        · simp [ho, h2]
        · have h3 : ¬32 * i.val + t < n + 1 := by omega
          simp [ho, h1, h2, h3]
    · simp [ho]

theorem image_other (hm : m.nextbno ≤ nblock) (h3 : 3 ≤ b) (hb : b < nblock) :
    image m b i = m.mem (some b) i := by
  unfold image copySuper Image.setPage
  have h1 : some b ≠ some 1 := fun h => by
    have := Option.some.inj h
    omega
  have h2 : some b ≠ some 2 := fun h => by
    have := Option.some.inj h
    omega
  rw [if_pos hb]
  simp only [Function.update_of_ne h1]
  refine BitVec.eq_of_getLsbD_eq fun t ht => ?_
  unfold flushBitmap
  rw [flush_mem hm _ _ _ ht]
  simp only [h2, false_and, decide_false, Bool.not_false, Bool.and_true]

theorem image_super (hm : m.nextbno ≤ nblock) (hi : i.val < 66) : image m 1 i = m.mem none i := by
  unfold image copySuper Image.setPage
  rw [if_pos (by decide)]
  simp only [Function.update_self, if_pos hi]
  refine BitVec.eq_of_getLsbD_eq fun t ht => ?_
  unfold flushBitmap
  rw [flush_mem hm _ _ _ ht]
  simp

theorem Made.bit (h : Made m args bs ix G) (hb : b < nblock) :
    (image m 2 (Fin.ofNat 1024 (b / 32))).getLsbD (b % 32) = decide (m.nextbno ≤ b) := by
  have hbig : nblock = 1024 := rfl
  have h21 : (some 2 : Option ℕ) ≠ some 1 := by decide
  have hval : (Fin.ofNat 1024 (b / 32) : Index).val = b / 32 := index_val (by omega)
  have hones : initBits 2 (Fin.ofNat 1024 (b / 32)) = 0xffffffff#32 := by
    have hif : nblock ≠ nbitblock * bit2blk ∧ 2 = 2 + (nbitblock - 1) := by decide
    unfold initBits
    simp only [if_pos hif]
    unfold memset
    rw [hval, if_neg (by
      have h128 : nblock % bit2blk / 8 = 128 := rfl
      omega), if_pos (Nat.zero_le _)]
  have hbit : ∀ j : Fin 32, (0xffffffff#32 : Word).getLsbD j.val = true := by decide
  unfold image copySuper Image.setPage
  rw [if_pos (by decide)]
  simp only [Function.update_of_ne h21]
  unfold flushBitmap
  rw [flush_mem h.cap _ _ _ (Nat.mod_lt _ (by omega)), h.bits, hones, hval,
    hbit ⟨b % 32, Nat.mod_lt _ (by omega)⟩, show 32 * (b / 32) + b % 32 = b by omega]
  by_cases hlt : b < m.nextbno
  · simp [hlt]
  · simp [hlt, Nat.not_lt.mp hlt]

end Finish

/-! ## What the server sees -/

/-- The disk by its sectors. -/
def sectors (img : ℕ → Page) : Word → Page := fun sector => img (sector.toNat / 8)

/-- The cache and the disk of the server show the blocks of the tool. -/
structure Seen (t : Server) (m : Image) : Prop where
  super : ∀ i : Index, i.val < 66 → t.block 1#32 i = m.mem none i
  blocks : ∀ b, 3 ≤ b → b < nblock → ∀ i, t.block (BitVec.ofNat 32 b) i = m.mem (some b) i

section Mount

variable {m : Image} {args : List Node} {bs ix G : List ℕ} {s : Server} {g : List Bool} {b : ℕ}

theorem sectors_block {img : ℕ → Page} (hb : b < 2 ^ 20) :
    sectors img (BitVec.ofNat 32 b * Fs.sect2blk) = img b := by
  have h8 : Fs.sect2blk.toNat = 8 := rfl
  unfold sectors
  rw [BitVec.toNat_mul, BitVec.toNat_ofNat, h8]
  congr 1
  omega

theorem Made.bitOn (h : Made m args bs ix G) (hb : b < nblock) :
    Fs.bitOn (sectors (image m)) b = decide (m.nextbno ≤ b) := by
  have hbig : nblock = 1024 := rfl
  unfold Fs.bitOn
  rw [show b / 32768 + 2 = 2 by omega, sectors_block (by omega)]
  exact h.bit hb

theorem Made.size_eq (h : Made m args bs ix G) : (sectors (image m) Fs.sect2blk 1).toNat = 1024 := by
  have hsize := h.size
  unfold Image.word at hsize
  show (image m 1 1).toNat = 1024
  rw [image_super h.cap (by decide)]
  exact congrArg BitVec.toNat hsize

/-- The disk has all that `fs_init` asks for. -/
theorem Made.refusal (h : Made m args bs ix G) : Fs.refusal (sectors (image m)) = none := by
  have hcount := h.count
  have hmagic : sectors (image m) Fs.sect2blk 0 = Fs.fsMagic := by
    have hm := h.magic
    unfold Image.word at hm
    show image m 1 0 = _
    rw [image_super h.cap (by decide)]
    exact hm
  have hfind : (List.range (Fs.readCount (sectors (image m)))).find? (Fs.bitOn (sectors (image m))) =
      none := List.find?_range_eq_none.mpr fun j hj => by
    unfold Fs.readCount at hj
    rw [h.size_eq] at hj
    rw [h.bitOn (by unfold nblock; omega), decide_eq_false (by omega)]
    rfl
  unfold Fs.refusal
  rw [if_neg (not_not.mpr hmagic), h.size_eq, if_neg (by decide), if_neg (by decide), hfind]
  rfl

theorem Made.seen (h : Made m args bs ix G) (hs : Fs.Unstarted s) (hd : s.disk = sectors (image m)) :
    Seen (s.started g) m := by
  have hbig : nblock = 1024 := rfl
  refine ⟨fun i hi => ?_, fun b h3 hb i => ?_⟩
  · rw [Fs.started_block hs (by decide), Fs.startBlock, if_neg (by decide), hd]
    exact (congrFun (sectors_block (b := 1) (by omega)) i).trans (image_super h.cap hi)
  · have hval := ofNat_toNat_of_lt (b := b) (by omega)
    rw [Fs.started_block hs (by omega), Fs.startBlock, if_neg (ofNat_ne_zero (by omega) (by omega)), hd,
      sectors_block (by omega)]
    exact image_other h.cap h3 hb

theorem Made.nblk (h : Made m args bs ix G) (hd : s.disk = sectors (image m)) :
    (s.started g).nblk.toNat = 1024 := by
  rw [Fs.started_nblk, hd]
  exact h.size_eq

/-- A block is in use exactly if it has been handed out. -/
theorem Made.used_iff (h : Made m args bs ix G) (hd : s.disk = sectors (image m)) (c : Word) :
    (s.started g).Used c ↔ c.toNat < m.nextbno := by
  have hcap := h.cap
  have hbig : nblock = 1024 := rfl
  have hn := h.nblk (g := g) hd
  have hsize : (s.disk Fs.sect2blk 1).toNat = 1024 := by
    rw [hd]
    exact h.size_eq
  unfold Server.Used
  rw [BitVec.lt_def, hn]
  by_cases hc : c.toNat < 1024
  · rw [Fs.started_free (by omega) (by omega), hd, h.bitOn (by omega), decide_eq_true_iff]
    omega
  · exact iff_of_false (fun hu => hc hu.1) (by omega)

end Mount

/-! ## Records of the server -/

/-- The address of a record. -/
def addr (p : Ptr) : Word := blockVa (BitVec.ofNat 32 (p.block.getD 1)) + BitVec.ofNat 32 (4 * p.base)

/-- The root or a record of a block. -/
def Sits (p : Ptr) : Prop := p = sRoot ∨ ∃ b j, p = record b j ∧ 3 ≤ b ∧ b < nblock ∧ j < 16

section Records

variable {m : Image} {t : Server} {p q d : Ptr} {F G bs ix : List ℕ} {n k i : ℕ} {name : List Byte}

theorem Sits.place (h : Sits p) : At (addr p) (BitVec.ofNat 32 (p.block.getD 1)) (4 * p.base) := by
  have hbig : nblock = 1024 := rfl
  rcases h with rfl | ⟨b, j, rfl, h3, hb, hj⟩
  · exact ⟨rfl, by decide, by decide⟩
  · have hval := ofNat_toNat_of_lt (b := b) (by omega)
    have hat := (Fs.at_blockVa (b := BitVec.ofNat 32 b) (by omega)).add (n := 4 * (64 * j)) (by omega)
    rw [Nat.zero_add] at hat
    exact hat

theorem Sits.room (h : Sits p) : p.base + 64 ≤ 1024 := by
  rcases h with rfl | ⟨b, j, rfl, -, -, hj⟩
  · decide
  · show 64 * j + 64 ≤ 1024
    omega

theorem Sits.inj (h : Sits p) (h' : Sits q) (he : addr p = addr q) : p = q := by
  have hbig : nblock = 1024 := rfl
  have hat := h.place
  rw [he] at hat
  obtain ⟨hb, hy⟩ := hat.addr_inj h'.place
  rcases h with rfl | ⟨b, j, rfl, h3, hlt, hj⟩
  · rcases h' with rfl | ⟨b', j', rfl, h3', hlt', hj'⟩
    · rfl
    · have hv := congrArg BitVec.toNat hb
      have hval : (BitVec.ofNat 32 ((record b' j').block.getD 1)).toNat = b' :=
        ofNat_toNat_of_lt (b := b') (by omega)
      rw [hval] at hv
      have h1 : (BitVec.ofNat 32 (sRoot.block.getD 1)).toNat = 1 := rfl
      omega
  · have hval : (BitVec.ofNat 32 ((record b j).block.getD 1)).toNat = b :=
      ofNat_toNat_of_lt (b := b) (by omega)
    have hv := congrArg BitVec.toNat hb
    rw [hval] at hv
    rcases h' with rfl | ⟨b', j', rfl, h3', hlt', hj'⟩
    · have h1 : (BitVec.ofNat 32 (sRoot.block.getD 1)).toNat = 1 := rfl
      omega
    · have hval' : (BitVec.ofNat 32 ((record b' j').block.getD 1)).toNat = b' :=
        ofNat_toNat_of_lt (b := b') (by omega)
      rw [hval'] at hv
      have hy' : 4 * (64 * j) = 4 * (64 * j') := hy
      rw [hv, show j = j' by omega]

theorem Seen.page (hs : Seen t m) (h : Sits p) {i : Index} (h1 : p.base ≤ i.val)
    (h2 : i.val < p.base + 64) : t.block (BitVec.ofNat 32 (p.block.getD 1)) i = m.mem p.block i := by
  rcases h with rfl | ⟨b, j, rfl, h3, hb, hj⟩
  · exact hs.super i (by
      have hb : sRoot.base = 2 := rfl
      omega)
  · exact hs.blocks b h3 hb i

/-- A word of a record. -/
theorem Seen.view (hs : Seen t m) (h : Sits p) (hk : k < 64) :
    t.view (addr p + BitVec.ofNat 32 (4 * k)) = m.word p k := by
  have hroom := h.room
  have hat := h.place.add (n := 4 * k) (by omega)
  have hidx : Fs.wordIdx (addr p + BitVec.ofNat 32 (4 * k)) = Fin.ofNat 1024 (p.base + k) := Fin.ext (by
    rw [hat.wordIdx_val, index_val (by omega)]
    omega)
  unfold Server.view Image.word
  rw [hat.blockOf_eq, hidx]
  exact hs.page h (by rw [index_val (by omega)]; omega) (by rw [index_val (by omega)]; omega)

/-- A byte of a record. -/
theorem Seen.byte (hs : Seen t m) (h : Sits p) (hk : k < 128) :
    t.byte (addr p + BitVec.ofNat 32 k) = m.byte p k := by
  have hroom := h.room
  have hat := h.place.add (n := k) (by omega)
  have hidx : Fs.wordIdx (addr p + BitVec.ofNat 32 k) = Fin.ofNat 1024 ((4 * p.base + k) / 4) := Fin.ext (by
    rw [hat.wordIdx_val, index_val (by omega)])
  unfold Server.byte Image.byte pageByte
  rw [hat.byteShift]
  unfold Server.view
  rw [hat.blockOf_eq, hidx, hs.page h (by rw [index_val (by omega)]; omega)
    (by rw [index_val (by omega)]; omega)]

theorem Seen.entryName (hs : Seen t m) (h : Sits p) (hn : Named m p name) : t.entryName (addr p) = name := by
  have hlen := hn.length
  refine Fs.takeWhile_bytesAt hn.clean hn.length (fun k hk => ?_) ?_
  · rw [hs.byte h (by omega)]
    exact hn.bytes k hk
  · rw [hs.byte h hlen]
    exact hn.stop

theorem Seen.terminated (hs : Seen t m) (h : Sits p) (hz : m.byte p k = 0#8) (hk : k < 128) :
    0#8 ∈ t.bytesAt (addr p) Fs.maxNameLen := by
  have hmem := Fs.mem_bytesAt (s := t) (p := addr p) (n := Fs.maxNameLen) (k := k) hk
  rw [hs.byte h hk, hz] at hmem
  exact hmem

theorem Seen.blank (hs : Seen t m) (h : Sits p) (hb : Blank m p) : t.entryName (addr p) = [] := by
  refine Fs.entryName_eq_nil ?_
  have hbyte := hs.byte h (k := 0) (by omega)
  rw [BitVec.add_zero] at hbyte
  rw [hbyte]
  exact hb.byte (by omega)

/-- The pointers of a record. -/
theorem Seen.ptr (hs : Seen t m) (h : Sits p) (hl : Links m p bs ix) (hp : Placed p (bs ++ ix) n)
    (hn : n ≤ nblock) (hi : i < 1024) : t.ptr (addr p) i = BitVec.ofNat 32 (bs.getD i 0) := by
  have hbig : nblock = 1024 := rfl
  have hind : t.view (Fs.fIndirect (addr p)) = m.word p fIndirect := hs.view h (k := 44) (by omega)
  rw [← hl.ptr i hi]
  unfold Server.ptr Image.ptr
  by_cases h10 : i < 10
  · rw [if_pos h10, if_pos (show i < ndirect from h10), Fs.fDirect_eq]
    have hv := hs.view h (k := 34 + i) (by omega)
    rwa [show 4 * (34 + i) = 136 + 4 * i by omega] at hv
  · rw [if_neg h10, if_neg (show ¬i < ndirect from h10), hind]
    by_cases h0 : m.word p fIndirect = 0#32
    · rw [if_pos h0, if_pos h0]
    · rw [if_neg h0, if_neg h0]
      have hlong : ¬bs.length ≤ 10 := fun hle => by
        rw [hl.index, hl.noIndex hle] at h0
        exact h0 rfl
      obtain ⟨x, rfl⟩ := hl.hasIndex hlong
      have hx := hp.range x (by simp)
      have hval := ofNat_toNat_of_lt (b := x) (by omega)
      have hxw : m.word p fIndirect = BitVec.ofNat 32 x := hl.index
      have hat := (Fs.at_blockVa (b := BitVec.ofNat 32 x) (by omega)).add (n := 4 * i) (by omega)
      rw [hxw]
      unfold Server.view Image.word
      rw [hat.blockOf_eq, hs.blocks x hx.1 (by omega), hval]
      congr 1
      refine Fin.ext ?_
      rw [hat.wordIdx_val, index_val (by simpa using hi)]
      show (0 + 4 * i) / 4 = 0 + i
      omega

theorem Sits.slot (h3 : ∀ b ∈ bs, 3 ≤ b ∧ b < nblock) (hj : k < 16 * bs.length) : Sits (slot bs k) := by
  obtain ⟨h1, h2⟩ := h3 _ (slot_mem hj)
  exact .inr ⟨_, _, rfl, h1, h2, Nat.mod_lt _ (by omega)⟩

theorem addr_slot (bs : List ℕ) (j : ℕ) (hj : j < 16) :
    addr (slot bs (16 * i + j)) = blockVa (BitVec.ofNat 32 (bs.getD i 0)) +
      Fs.by2file * BitVec.ofNat 32 j := by
  have hmul : Fs.by2file * BitVec.ofNat 32 j = BitVec.ofNat 32 (256 * j) := by
    have h256 : Fs.by2file.toNat = 256 := rfl
    refine BitVec.eq_of_toNat_eq ?_
    rw [BitVec.toNat_mul, BitVec.toNat_ofNat, BitVec.toNat_ofNat, h256]
    omega
  unfold addr slot record
  rw [hmul, show (16 * i + j) / 16 = i by omega, show (16 * i + j) % 16 = j by omega]
  congr 2
  show 4 * (64 * j) = 256 * j
  omega

end Records

/-! ## Directories and files of the server -/

/-- A record that stands for a node, where the server sees it. -/
structure Stands (m : Image) (n : ℕ) (p : Ptr) (node : Node) (F : List ℕ) : Prop where
  rep : Rep m p node F
  sits : Sits p
  placed : Placed p F n

/-- An entry of a directory with a name. -/
def Edge (t : Server) (d f : Word) : Prop := t.IsDir d ∧ f ∈ t.files d ∧ t.entryName f ≠ []

section Dirs

variable {m : Image} {t : Server} {p d : Ptr} {es : List Node} {node : Node} {F G bs ix : List ℕ}
  {n i j : ℕ} {f c : Word} {k : Option ℕ}

theorem range_flatMap {α : Type} (g : ℕ → α) (n : ℕ) :
    ((List.range n).flatMap fun i => (List.range 16).map fun j => g (16 * i + j)) =
      (List.range (16 * n)).map g := by
  induction n with
  | zero => rfl
  | succ n ih =>
    rw [List.range_succ (n := n), List.flatMap_append, ih, Nat.mul_succ, List.range_add, List.map_append]
    simp

theorem RepAll.get (h : RepAll m bs i es G) (hj : j < es.length) :
    ∃ F, Rep m (slot bs (i + j)) es[j] F ∧ F.Sublist G := by
  induction es generalizing i j G with
  | nil => exact absurd hj (by simp)
  | cons e es ih =>
    unfold RepAll at h
    obtain ⟨F, G', hr, hall, rfl⟩ := h
    cases j with
    | zero => exact ⟨F, hr, List.sublist_append_left ..⟩
    | succ j =>
      obtain ⟨F', hr', hs⟩ := ih hall (j := j) (by simpa using hj)
      rw [show i + 1 + j = i + (j + 1) by omega] at hr'
      exact ⟨F', hr', hs.trans (List.sublist_append_right ..)⟩

/-- The parts of a directory that stands. -/
structure StandsDir (m : Image) (n : ℕ) (d : Ptr) (es : List Node) (bs ix G : List ℕ) : Prop where
  sits : Sits d
  type : m.word d fType = 1#32
  slots : Slots m d es.length bs ix
  count : bs.length = (es.length + 15) / 16
  reps : RepAll m bs 0 es G
  placed : Placed d (bs ++ ix ++ G) n

theorem Stands.dir {name : List Byte} (h : Stands m n p (.dir name es) F) :
    ∃ bs ix G, StandsDir m n p es bs ix G ∧ F = bs ++ ix ++ G := by
  have hr := h.rep
  unfold Rep at hr
  obtain ⟨-, htype, bs, ix, G, hs, hc, hall, rfl⟩ := hr
  exact ⟨bs, ix, G, ⟨h.sits, htype, hs, hc, hall, h.placed⟩, rfl⟩

theorem StandsDir.range (h : StandsDir m n d es bs ix G) (hn : n ≤ nblock) : ∀ b ∈ bs, 3 ≤ b ∧ b < nblock :=
  fun b hb => by
    have hr := h.placed.range b (List.mem_append_left G (List.mem_append_left ix hb))
    omega

theorem StandsDir.long (h : StandsDir m n d es bs ix G) (hn : n ≤ nblock) : bs.length < 1024 := by
  have hlen := h.placed.length_lt hn
  rw [List.length_append, List.length_append] at hlen
  omega

theorem StandsDir.entry (h : StandsDir m n d es bs ix G) (hn : n ≤ nblock) (hj : j < es.length) :
    ∃ F, Stands m n (slot bs j) es[j] F ∧ F.Sublist G := by
  have hcount := h.count
  obtain ⟨F, hr, hs⟩ := h.reps.get hj
  rw [Nat.zero_add] at hr
  exact ⟨F, ⟨hr, Sits.slot (h.range hn) (by omega), (h.placed.slot (by omega)).sublist hs⟩, hs⟩

theorem StandsDir.isDir (h : StandsDir m n d es bs ix G) (hs : Seen t m) : t.IsDir (addr d) :=
  (hs.view h.sits (k := 33) (by omega)).trans h.type

theorem StandsDir.nblock_eq (h : StandsDir m n d es bs ix G) (hs : Seen t m) (hn : n ≤ nblock) :
    t.nblock (addr d) = bs.length := by
  have hlong := h.long hn
  have hsize : t.view (Fs.fSize (addr d)) = m.word d fSize := hs.view h.sits (k := 32) (by omega)
  unfold Server.nblock
  rw [hsize, h.slots.size, BitVec.toNat_ofNat]
  omega

theorem StandsDir.ptr_eq (h : StandsDir m n d es bs ix G) (hs : Seen t m) (hn : n ≤ nblock)
    (hi : i < 1024) : t.ptr (addr d) i = BitVec.ofNat 32 (bs.getD i 0) :=
  hs.ptr h.sits h.slots.links (h.placed.sublist (List.sublist_append_left ..)) hn hi

/-- The records of a directory, in order. -/
theorem StandsDir.files_eq (h : StandsDir m n d es bs ix G) (hs : Seen t m) (hn : n ≤ nblock) :
    t.files (addr d) = (List.range (16 * bs.length)).map fun j => addr (slot bs j) := by
  have hlong := h.long hn
  unfold Server.files
  rw [h.nblock_eq hs hn, ← range_flatMap]
  refine List.flatMap_congr fun i hi => ?_
  have hlt := List.mem_range.mp hi
  rw [h.ptr_eq hs hn (by omega)]
  unfold Fs.blockFiles
  refine List.map_congr_left fun j hj => ?_
  rw [addr_slot bs j (List.mem_range.mp hj)]

/-- The name of a record of a directory. -/
theorem StandsDir.name_eq (h : StandsDir m n d es bs ix G) (hs : Seen t m) (hn : n ≤ nblock)
    (hj : j < 16 * bs.length) :
    t.entryName (addr (slot bs j)) = if h : j < es.length then es[j].stored else [] := by
  by_cases hlt : j < es.length
  · obtain ⟨F, he, -⟩ := h.entry hn hlt
    rw [dif_pos hlt]
    exact hs.entryName he.sits he.rep.named
  · rw [dif_neg hlt]
    exact hs.blank (Sits.slot (h.range hn) hj) (h.slots.blank j (Nat.not_lt.mp hlt) hj)

/-- Where an entry of a directory leads. -/
theorem StandsDir.edge (h : StandsDir m n d es bs ix G) (hs : Seen t m) (hn : n ≤ nblock)
    (he : Edge t (addr d) f) : ∃ j, ∃ _ : j < es.length, f = addr (slot bs j) := by
  obtain ⟨-, hf, hne⟩ := he
  rw [h.files_eq hs hn] at hf
  obtain ⟨j, hj, rfl⟩ := List.mem_map.mp hf
  have hlt := List.mem_range.mp hj
  rw [h.name_eq hs hn hlt] at hne
  by_cases hin : j < es.length
  · exact ⟨j, hin, rfl⟩
  · rw [dif_neg hin] at hne
    exact absurd rfl hne

/-- Each entry of the host is an entry of the server. -/
theorem StandsDir.edge_entry (h : StandsDir m n d es bs ix G) (hs : Seen t m) (hn : n ≤ nblock)
    (hj : j < es.length) : Edge t (addr d) (addr (slot bs j)) := by
  have hcount := h.count
  obtain ⟨F, he, -⟩ := h.entry hn hj
  refine ⟨h.isDir hs, ?_, ?_⟩
  · rw [h.files_eq hs hn]
    exact List.mem_map.mpr ⟨j, List.mem_range.mpr (by omega), rfl⟩
  · rw [h.name_eq hs hn (by omega), dif_pos hj]
    exact he.rep.named.ne

theorem Stands.not_dir {name data : List Byte} (h : Stands m n p (.file name data) F) (hs : Seen t m) :
    ¬t.IsDir (addr p) := fun hdir => by
  have hr := h.rep
  unfold Rep at hr
  have htype : t.view (Fs.fType (addr p)) = m.word p fType := hs.view h.sits (k := 33) (by omega)
  have hdir' : t.view (Fs.fType (addr p)) = Fs.ftypeDir := hdir
  rw [htype, hr.2.1] at hdir'
  exact absurd hdir' (by decide)

/-- A file has no entries. -/
theorem Stands.no_edge {name data : List Byte} (h : Stands m n p (.file name data) F) (hs : Seen t m) :
    ¬Edge t (addr p) f := fun he => h.not_dir hs he.1

/-- The blocks that belong to a record. -/
theorem Stands.links (h : Stands m n p node F) : ∃ bs ix G, Links m p bs ix ∧ F = bs ++ ix ++ G := by
  have hr := h.rep
  cases node with
  | file name data =>
    unfold Rep at hr
    obtain ⟨-, -, -, bs, ix, hl, -, -, rfl⟩ := hr
    exact ⟨bs, ix, [], hl, by simp⟩
  | dir name es =>
    unfold Rep at hr
    obtain ⟨-, -, bs, ix, G, hl, -, -, rfl⟩ := hr
    exact ⟨bs, ix, G, hl.links, rfl⟩

theorem owns_cases (hl : Links m p bs ix) (hsit : Sits p) (hp : Placed p (bs ++ ix) n) (hs : Seen t m)
    (hn : n ≤ nblock) (h : t.Owns (addr p) k c) :
    (k = none ∧ ix = [c.toNat]) ∨ ∃ i, k = some i ∧ ∃ h : i < bs.length, bs[i] = c.toNat := by
  have hbig : nblock = 1024 := rfl
  cases k with
  | none =>
    obtain ⟨hv, h0⟩ := h
    have hind : t.view (Fs.fIndirect (addr p)) = m.word p fIndirect := hs.view hsit (k := 44) (by omega)
    rw [hind, hl.index] at hv
    by_cases hlong : bs.length ≤ 10
    · rw [hl.noIndex hlong] at hv
      exact absurd hv.symm h0
    · obtain ⟨x, rfl⟩ := hl.hasIndex hlong
      have hx := hp.range x (by simp)
      refine .inl ⟨rfl, ?_⟩
      rw [← hv]
      show [x] = [(BitVec.ofNat 32 x).toNat]
      rw [ofNat_toNat_of_lt (by omega)]
  | some i =>
    obtain ⟨hi, hv, h0⟩ := h
    rw [hs.ptr hsit hl hp hn hi] at hv
    have hlt : i < bs.length := by
      by_contra hge
      rw [List.getD_eq_default _ _ (Nat.not_lt.mp hge)] at hv
      exact h0 hv.symm
    refine .inr ⟨i, rfl, hlt, ?_⟩
    have hx := hp.range bs[i] (List.mem_append_left ix (List.getElem_mem hlt))
    rw [List.getD_eq_getElem _ _ hlt] at hv
    rw [← hv, ofNat_toNat_of_lt (by omega)]

/-- Each block of a record belongs to it. -/
theorem owns_of_mem {x : ℕ} (hl : Links m p bs ix) (hsit : Sits p) (hp : Placed p (bs ++ ix) n)
    (hs : Seen t m) (hn : n ≤ nblock) (hx : x ∈ bs ++ ix) : ∃ k, t.Owns (addr p) k (BitVec.ofNat 32 x) := by
  have hbig : nblock = 1024 := rfl
  have hr := hp.range x hx
  have h0 := ofNat_ne_zero (b := x) (by omega) (by omega)
  have hlen := hp.length_lt hn
  rw [List.length_append] at hlen
  rcases List.mem_append.mp hx with hx | hx
  · obtain ⟨i, hi, rfl⟩ := List.getElem_of_mem hx
    refine ⟨some i, by omega, ?_, h0⟩
    rw [hs.ptr hsit hl hp hn (by omega), List.getD_eq_getElem _ _ hi]
  · have hlong : ¬bs.length ≤ 10 := fun hle => by
      rw [hl.noIndex hle] at hx
      exact absurd hx (by simp)
    obtain ⟨y, rfl⟩ := hl.hasIndex hlong
    obtain rfl := List.mem_singleton.mp hx
    exact ⟨none, (hs.view hsit (k := 44) (by omega)).trans hl.index, h0⟩

/-- A block of a record is one of its blocks, at one place. -/
theorem Stands.owns_mem (h : Stands m n p node F) (hs : Seen t m) (hn : n ≤ nblock)
    (ho : t.Owns (addr p) k c) :
    (∃ bs ix G, F = bs ++ ix ++ G ∧ c.toNat ∈ bs ++ ix) ∧ ∀ k', t.Owns (addr p) k' c → k = k' := by
  obtain ⟨bs, ix, G, hl, rfl⟩ := h.links
  have hp := h.placed.sublist (List.sublist_append_left (bs ++ ix) G)
  have hnd := List.nodup_append.mp hp.nodup
  have hcases := owns_cases hl h.sits hp hs hn ho
  refine ⟨⟨bs, ix, G, rfl, ?_⟩, fun k' ho' => ?_⟩
  · rcases hcases with ⟨-, rfl⟩ | ⟨i, -, hi, hb⟩
    · simp
    · rw [← hb]
      exact List.mem_append_left ix (List.getElem_mem hi)
  · rcases hcases with ⟨rfl, hix⟩ | ⟨i, rfl, hi, hb⟩
    · rcases owns_cases hl h.sits hp hs hn ho' with ⟨rfl, -⟩ | ⟨i', rfl, hi', hb'⟩
      · rfl
      · exact absurd hb' (hnd.2.2 _ (List.getElem_mem hi') _ (by rw [hix]; simp))
    · rcases owns_cases hl h.sits hp hs hn ho' with ⟨rfl, hix⟩ | ⟨i', rfl, hi', hb'⟩
      · exact absurd hb (hnd.2.2 _ (List.getElem_mem hi) _ (by rw [hix]; simp))
      · exact congrArg some ((List.Nodup.getElem_inj_iff hnd.1).mp (hb.trans hb'.symm))

end Dirs

/-! ## Everything below a record -/

section Below

open Relation (ReflTransGen)

variable {m : Image} {t : Server} {n : ℕ}

mutual

/-- What lies below a record stands for a node, within the blocks of the record's own node. -/
theorem stands_below (hs : Seen t m) (hn : n ≤ nblock) : ∀ (node : Node) {p : Ptr} {F : List ℕ} {f : Word},
    Stands m n p node F → ReflTransGen (Edge t) (addr p) f →
    ∃ q node' F', f = addr q ∧ Stands m n q node' F' ∧ F'.Sublist F
  | .file name data, p, F, f, h, hf => by
    rcases hf.cases_head with rfl | ⟨e, he, -⟩
    · exact ⟨p, _, F, rfl, h, List.Sublist.refl F⟩
    · exact absurd he (h.no_edge hs)
  | .dir name es, p, F, f, h, hf => by
    rcases hf.cases_head with rfl | ⟨e, he, hrest⟩
    · exact ⟨p, _, F, rfl, h, List.Sublist.refl F⟩
    · obtain ⟨bs, ix, G, hd, rfl⟩ := h.dir
      obtain ⟨j, hj, rfl⟩ := hd.edge hs hn he
      obtain ⟨q, node', F', hq, hst, hsub⟩ :=
        stands_belowAll hs hn es (slot bs) hj (fun i hi => hd.entry hn hi) hrest
      exact ⟨q, node', F', hq, hst, hsub.trans (List.sublist_append_right ..)⟩

theorem stands_belowAll (hs : Seen t m) (hn : n ≤ nblock) : ∀ (es : List Node) (ps : ℕ → Ptr) {G : List ℕ}
    {j : ℕ} {f : Word}, j < es.length → (∀ j, (hj : j < es.length) → ∃ F, Stands m n (ps j) es[j] F ∧
      F.Sublist G) → ReflTransGen (Edge t) (addr (ps j)) f →
    ∃ q node' F', f = addr q ∧ Stands m n q node' F' ∧ F'.Sublist G
  | [], _, _, _, _, hj, _, _ => absurd hj (by simp)
  | e :: es, ps, G, j, f, hj, hall, hf => by
    cases j with
    | zero =>
      obtain ⟨F, he, hsub⟩ := hall 0 hj
      obtain ⟨q, node', F', hq, hst, hsub'⟩ := stands_below hs hn e he hf
      exact ⟨q, node', F', hq, hst, hsub'.trans hsub⟩
    | succ j =>
      exact stands_belowAll hs hn es (fun k => ps (k + 1)) (Nat.lt_of_succ_lt_succ hj)
        (fun k hk => hall (k + 1) (Nat.succ_lt_succ hk)) hf

end

/-- The blocks of what lies below a record are blocks of its node. -/
theorem owned_mem {node : Node} {p : Ptr} {F : List ℕ} {f c : Word} {k : Option ℕ} (hs : Seen t m)
    (hn : n ≤ nblock) (h : Stands m n p node F) (hf : ReflTransGen (Edge t) (addr p) f)
    (ho : t.Owns f k c) : c.toNat ∈ F := by
  obtain ⟨q, node', F', rfl, hst, hsub⟩ := stands_below hs hn node h hf
  obtain ⟨⟨bs, ix, G, rfl, hmem⟩, -⟩ := hst.owns_mem hs hn ho
  exact hsub.subset (List.mem_append_left G hmem)

mutual

/-- A block belongs to one file, at one place. -/
theorem owner_unique (hs : Seen t m) (hn : n ≤ nblock) : ∀ (node : Node) {p : Ptr} {F : List ℕ}
    {f f' c : Word} {k k' : Option ℕ}, Stands m n p node F → ReflTransGen (Edge t) (addr p) f →
    ReflTransGen (Edge t) (addr p) f' → t.Owns f k c → t.Owns f' k' c → f = f' ∧ k = k'
  | .file name data, p, F, f, f', c, k, k', h, hf, hf', ho, ho' => by
    rcases hf.cases_head with rfl | ⟨e, he, -⟩
    · rcases hf'.cases_head with rfl | ⟨e, he, -⟩
      · exact ⟨rfl, (h.owns_mem hs hn ho).2 k' ho'⟩
      · exact absurd he (h.no_edge hs)
    · exact absurd he (h.no_edge hs)
  | .dir name es, p, F, f, f', c, k, k', h, hf, hf', ho, ho' => by
    obtain ⟨bs, ix, G, hd, rfl⟩ := h.dir
    have hcount := hd.count
    have hnd := List.nodup_append.mp h.placed.nodup
    have hown : ∀ {k}, t.Owns (addr p) k c → c.toNat ∈ bs ++ ix := fun {k} hk => by
      have hp := h.placed.sublist (List.sublist_append_left (bs ++ ix) G)
      rcases owns_cases hd.slots.links h.sits hp hs hn hk with ⟨-, rfl⟩ | ⟨i, -, hi, hb⟩
      · simp
      · rw [← hb]
        exact List.mem_append_left ix (List.getElem_mem hi)
    have hchild : ∀ {e g k}, Edge t (addr p) e → ReflTransGen (Edge t) e g → t.Owns g k c →
        c.toNat ∈ G := fun {e g k} he hg hk => by
      obtain ⟨j, hj, rfl⟩ := hd.edge hs hn he
      obtain ⟨F', hst, hsub⟩ := hd.entry hn hj
      exact hsub.subset (owned_mem hs hn hst hg hk)
    rcases hf.cases_head with rfl | ⟨e, he, hrest⟩
    · rcases hf'.cases_head with rfl | ⟨e', he', hrest'⟩
      · exact ⟨rfl, (h.owns_mem hs hn ho).2 k' ho'⟩
      · exact absurd rfl (hnd.2.2 _ (hown ho) _ (hchild he' hrest' ho'))
    · rcases hf'.cases_head with rfl | ⟨e', he', hrest'⟩
      · exact absurd rfl (hnd.2.2 _ (hown ho') _ (hchild he hrest ho))
      · obtain ⟨j, hj, rfl⟩ := hd.edge hs hn he
        obtain ⟨j', hj', rfl⟩ := hd.edge hs hn he'
        exact owner_uniqueAll hs hn es bs 0 G hd.reps
          (fun i _ hi => ⟨Sits.slot (hd.range hn) (by omega), hd.placed.slot (by omega)⟩)
          (Nat.zero_le j) (by omega) (Nat.zero_le j') (by omega) hrest hrest' ho ho'

theorem owner_uniqueAll (hs : Seen t m) (hn : n ≤ nblock) : ∀ (es : List Node) (bs : List ℕ) (i : ℕ)
    (G : List ℕ) {j j' : ℕ} {f f' c : Word} {k k' : Option ℕ}, RepAll m bs i es G →
    (∀ j, i ≤ j → j < i + es.length → Sits (slot bs j) ∧ Placed (slot bs j) G n) →
    i ≤ j → j < i + es.length → i ≤ j' → j' < i + es.length →
    ReflTransGen (Edge t) (addr (slot bs j)) f → ReflTransGen (Edge t) (addr (slot bs j')) f' →
    t.Owns f k c → t.Owns f' k' c → f = f' ∧ k = k'
  | [], _, _, _, _, _, _, _, _, _, _, _, _, h1, h2, _, _, _, _, _, _ => absurd h2 (by simp; omega)
  | e :: es, bs, i, G, j, j', f, f', c, k, k', hall, hp, h1, h2, h1', h2', hf, hf', ho, ho' => by
    unfold RepAll at hall
    obtain ⟨F, G', hr, hall, rfl⟩ := hall
    rw [List.length_cons] at hp h2 h2'
    have hhead : Stands m n (slot bs i) e F :=
      ⟨hr, (hp i (le_refl i) (by omega)).1, (hp i (le_refl i) (by omega)).2.sublist
        (List.sublist_append_left ..)⟩
    have hnd := List.nodup_append.mp (hp i (le_refl i) (by omega)).2.nodup
    have htail : ∀ {l g q}, i < l → l < i + (es.length + 1) → ReflTransGen (Edge t) (addr (slot bs l)) g →
        t.Owns g q c → c.toNat ∈ G' := fun {l g q} hl1 hl2 hg hq => by
      obtain ⟨F', hr', hsub⟩ := hall.get (j := l - (i + 1)) (by omega)
      rw [show i + 1 + (l - (i + 1)) = l by omega] at hr'
      have hst : Stands m n (slot bs l) _ F' := ⟨hr', (hp l (by omega) hl2).1, (hp l (by omega) hl2).2.sublist
        (hsub.trans (List.sublist_append_right ..))⟩
      exact hsub.subset (owned_mem hs hn hst hg hq)
    by_cases hj : j = i
    · subst hj
      by_cases hj' : j' = j
      · subst hj'
        exact owner_unique hs hn e hhead hf hf' ho ho'
      · exact absurd rfl (hnd.2.2 _ (owned_mem hs hn hhead hf ho) _ (htail (by omega) h2' hf' ho'))
    · by_cases hj' : j' = i
      · subst hj'
        exact absurd rfl (hnd.2.2 _ (owned_mem hs hn hhead hf' ho') _ (htail (by omega) h2 hf ho))
      · exact owner_uniqueAll hs hn es bs (i + 1) G' hall
          (fun l hl1 hl2 => ⟨(hp l (by omega) (by omega)).1, (hp l (by omega) (by omega)).2.sublist
            (List.sublist_append_right ..)⟩) (by omega) (by omega) (by omega) (by omega) hf hf' ho ho'

end

mutual

/-- Every block of a node belongs to something below its record. -/
theorem owner_exists (hs : Seen t m) (hn : n ≤ nblock) : ∀ (node : Node) {p : Ptr} {F : List ℕ} {x : ℕ},
    Stands m n p node F → x ∈ F → ∃ f k, ReflTransGen (Edge t) (addr p) f ∧ t.Owns f k (BitVec.ofNat 32 x)
  | .file name data, p, F, x, h, hx => by
    have hr := h.rep
    unfold Rep at hr
    obtain ⟨-, -, -, bs, ix, hl, -, -, rfl⟩ := hr
    obtain ⟨k, hk⟩ := owns_of_mem hl h.sits h.placed hs hn hx
    exact ⟨addr p, k, .refl, hk⟩
  | .dir name es, p, F, x, h, hx => by
    obtain ⟨bs, ix, G, hd, rfl⟩ := h.dir
    have hcount := hd.count
    rcases List.mem_append.mp hx with hx | hx
    · obtain ⟨k, hk⟩ := owns_of_mem hd.slots.links h.sits
        (h.placed.sublist (List.sublist_append_left ..)) hs hn hx
      exact ⟨addr p, k, .refl, hk⟩
    · obtain ⟨j, hj, f, k, hf, hk⟩ := owner_existsAll hs hn es bs 0 G hd.reps
        (fun i _ hi => ⟨Sits.slot (hd.range hn) (by omega), hd.placed.slot (by omega)⟩) hx
      exact ⟨f, k, .head (hd.edge_entry hs hn (by omega)) hf, hk⟩

theorem owner_existsAll (hs : Seen t m) (hn : n ≤ nblock) : ∀ (es : List Node) (bs : List ℕ) (i : ℕ)
    (G : List ℕ) {x : ℕ}, RepAll m bs i es G →
    (∀ j, i ≤ j → j < i + es.length → Sits (slot bs j) ∧ Placed (slot bs j) G n) → x ∈ G →
    ∃ j, j < i + es.length ∧ ∃ f k, ReflTransGen (Edge t) (addr (slot bs j)) f ∧
      t.Owns f k (BitVec.ofNat 32 x)
  | [], _, _, _, x, h, _, hx => by
    unfold RepAll at h
    rw [h] at hx
    exact absurd hx (by simp)
  | e :: es, bs, i, G, x, hall, hp, hx => by
    unfold RepAll at hall
    obtain ⟨F, G', hr, hall, rfl⟩ := hall
    rw [List.length_cons] at hp ⊢
    rcases List.mem_append.mp hx with hx | hx
    · have hhead : Stands m n (slot bs i) e F :=
        ⟨hr, (hp i (le_refl i) (by omega)).1, (hp i (le_refl i) (by omega)).2.sublist
          (List.sublist_append_left ..)⟩
      obtain ⟨f, k, hf, hk⟩ := owner_exists hs hn e hhead hx
      exact ⟨i, by omega, f, k, hf, hk⟩
    · obtain ⟨j, hj, f, k, hf, hk⟩ := owner_existsAll hs hn es bs (i + 1) G' hall
        (fun l hl1 hl2 => ⟨(hp l (by omega) (by omega)).1, (hp l (by omega) (by omega)).2.sublist
          (List.sublist_append_right ..)⟩) hx
      exact ⟨j, by omega, f, k, hf, hk⟩

end

end Below

/-! ## Counting the blocks -/

/-- The blocks of a directory with `k` entries. -/
def dirCost (k : ℕ) : ℕ := (k + 15) / 16 + if 10 < (k + 15) / 16 then 1 else 0

section Count

variable {m : Image} {bs ix G : List ℕ}

theorem dirCost_succ (k : ℕ) : dirCost (k + 1) = dirCost k + entryCost k := by
  unfold dirCost entryCost indexCost
  split_ifs <;> omega

mutual

/-- A node has as many blocks as it costs. -/
theorem Rep.length : ∀ (node : Node) {p : Ptr} {F : List ℕ}, Rep m p node F → F.length = node.cost
  | .file name data, p, F, h => by
    unfold Rep at h
    obtain ⟨-, -, -, bs, ix, hl, hlen, -, rfl⟩ := h
    rw [List.length_append, hl.indexed, hlen]
    unfold Node.cost linkCost
    split_ifs <;> omega
  | .dir name es, p, F, h => by
    unfold Rep at h
    obtain ⟨-, -, bs, ix, G, hl, hlen, hall, rfl⟩ := h
    have hG := RepAll.length es hall
    rw [List.length_append, List.length_append, hl.links.indexed, hlen]
    unfold Node.cost
    unfold dirCost at hG
    rw [Nat.zero_add] at hG
    split_ifs at hG ⊢ <;> omega

theorem RepAll.length : ∀ (es : List Node) {bs : List ℕ} {i : ℕ} {G : List ℕ}, RepAll m bs i es G →
    allCost i es + dirCost i = dirCost (i + es.length) + G.length
  | [], bs, i, G, h => by
    unfold RepAll at h
    subst h
    unfold allCost
    simp
  | e :: es, bs, i, G, h => by
    unfold RepAll at h
    obtain ⟨F, G', hr, hall, rfl⟩ := h
    have hF := Rep.length e hr
    have hG := RepAll.length es hall
    have hd := dirCost_succ i
    rw [List.length_cons, List.length_append, show i + (es.length + 1) = i + 1 + es.length by omega]
    unfold allCost
    omega

end

/-- Every block that has been handed out is in the tree. -/
theorem Made.mem_tree {args : List Node} (h : Made m args bs ix G) {x : ℕ} (h3 : 3 ≤ x)
    (hx : x < m.nextbno) : x ∈ bs ++ ix ++ G := by
  have hlen := RepAll.length args h.root.reps
  have hp := h.root.placed
  have hcount := h.count
  have hsub : bs ++ ix ++ G ⊆ List.range' 3 (m.nextbno - 3) := fun b hb => by
    have hr := hp.range b hb
    rw [List.mem_range'_1]
    omega
  have hle : (List.range' 3 (m.nextbno - 3)).length ≤ (bs ++ ix ++ G).length := by
    rw [List.length_range', List.length_append, List.length_append, h.root.slots.links.indexed,
      h.root.count, hcount]
    unfold dirCost at hlen
    rw [Nat.zero_add] at hlen
    split_ifs at hlen ⊢ <;> omega
  have hperm := (List.subperm_of_subset hp.nodup hsub).perm_of_length_le hle
  exact hperm.mem_iff.mpr (List.mem_range'_1.mpr ⟨h3, by omega⟩)

end Count

/-! ## The tree -/

section Tree

open Relation (ReflTransGen)

variable {m : Image} {t : Server} {args : List Node} {bs ix G : List ℕ} {n : ℕ}

theorem Made.stands (h : Made m args bs ix G) :
    Stands m m.nextbno sRoot (.dir [47#8] args) (bs ++ ix ++ G) := by
  refine ⟨?_, .inl rfl, h.root.placed⟩
  unfold Rep
  exact ⟨h.name, h.type, bs, ix, G, h.root.slots, h.root.count, h.root.reps, rfl⟩

theorem reached_edges {f : Word} (h : t.Reached f) : ReflTransGen (Edge t) (addr sRoot) f := by
  induction h with
  | root => exact .refl
  | entry _ hdir hf hne ih => exact ih.tail ⟨hdir, hf, hne⟩

theorem edges_reached {f : Word} (h : ReflTransGen (Edge t) (addr sRoot) f) : t.Reached f := by
  induction h with
  | refl => exact .root
  | tail _ he ih => exact .entry ih he.1 he.2.1 he.2.2

/-- A directory of the server is one of the host. -/
theorem Made.treeDir (h : Made m args bs ix G) (hs : Seen t m) {d : Word} (hd : t.TreeDir d) :
    ∃ q es bs' ix' G', d = addr q ∧ StandsDir m m.nextbno q es bs' ix' G' := by
  obtain ⟨q, node, F, rfl, hst, -⟩ := stands_below hs h.cap _ h.stands (reached_edges hd.1)
  cases node with
  | file name data => exact absurd hd.2 (hst.not_dir hs)
  | dir name es =>
    obtain ⟨bs', ix', G', hdir, -⟩ := hst.dir
    exact ⟨q, es, bs', ix', G', rfl, hdir⟩

/-- The records of a directory have terminated names. -/
theorem StandsDir.terminated {q : Ptr} {es : List Node} (h : StandsDir m n q es bs ix G) (hs : Seen t m)
    (hn : n ≤ nblock) {f : Word} (hf : f ∈ t.files (addr q)) : 0#8 ∈ t.bytesAt f Fs.maxNameLen := by
  rw [h.files_eq hs hn] at hf
  obtain ⟨j, hj, rfl⟩ := List.mem_map.mp hf
  have hlt := List.mem_range.mp hj
  by_cases hin : j < es.length
  · obtain ⟨F, he, -⟩ := h.entry hn hin
    exact hs.terminated he.sits he.rep.named.stop he.rep.named.length
  · exact hs.terminated (Sits.slot (h.range hn) hlt)
      ((h.slots.blank j (Nat.not_lt.mp hin) hlt).byte (y := 0) (by omega)) (by omega)

/-- A disk from the tool is a tree whose files share no block. -/
theorem Made.ownTree (h : Made m args bs ix G) (hs : Seen t m) (hm : Fs.Mounted t)
    (hnblk : t.nblk.toNat = 1024) (hused : ∀ c : Word, t.Used c ↔ c.toNat < m.nextbno) : Fs.OwnTree t := by
  have hcap := h.cap
  have hbig : nblock = 1024 := rfl
  have hbitmap : ∀ c : Word, 3 ≤ c.toNat → ¬t.BitmapBlock c := fun c h3 hb => by
    unfold Server.BitmapBlock at hb
    rw [hnblk] at hb
    omega
  have howned : ∀ f, t.Reached f → ∀ k c, t.Owns f k c → 3 ≤ c.toNat ∧ t.Used c ∧ ¬t.BitmapBlock c := by
    intro f hf k c ho
    have hr := h.root.placed.range _ (owned_mem hs hcap h.stands (reached_edges hf) ho)
    exact ⟨hr.1, (hused c).mpr hr.2, hbitmap c hr.1⟩
  have hptr : ∀ d, t.TreeDir d → ∀ i < t.nblock d, t.Owns d (some i) (t.ptr d i) := by
    intro d hd i hi
    obtain ⟨q, es, bs', ix', G', rfl, hdir⟩ := h.treeDir hs hd
    rw [hdir.nblock_eq hs hcap] at hi
    have hlong := hdir.long hcap
    have hr := hdir.range hcap bs'[i] (List.getElem_mem hi)
    refine ⟨by omega, rfl, ?_⟩
    rw [hdir.ptr_eq hs hcap (by omega), List.getD_eq_getElem _ _ hi]
    exact ofNat_ne_zero (by omega) (by omega)
  have honce : ∀ f f', t.Reached f → t.Reached f' → ∀ k k' c, t.Owns f k c → t.Owns f' k' c →
      f = f' ∧ k = k' := fun f f' hf hf' k k' c ho ho' =>
    owner_unique hs hcap _ h.stands (reached_edges hf) (reached_edges hf') ho ho'
  refine ⟨⟨hm, fun d hd => ?_, fun d hd i hi => ?_, fun d hd h10 => ?_, fun d hd f hf => ?_,
    fun c hc => ?_⟩, howned, honce, fun d hd i hi hle => ?_⟩
  · obtain ⟨q, es, bs', ix', G', rfl, hdir⟩ := h.treeDir hs hd
    rw [hdir.nblock_eq hs hcap]
    exact Nat.le_of_lt (hdir.long hcap)
  · have ho := hptr d hd i hi
    exact ⟨ho.2.2, (howned d hd.1 _ _ ho).2.1⟩
  · obtain ⟨q, es, bs', ix', G', rfl, hdir⟩ := h.treeDir hs hd
    rw [hdir.nblock_eq hs hcap] at h10
    obtain ⟨x, rfl⟩ := hdir.slots.links.hasIndex (by omega)
    have hx := hdir.placed.range x (by simp)
    have hind : t.view (Fs.fIndirect (addr q)) = m.word q fIndirect := hs.view hdir.sits (k := 44) (by omega)
    rw [hused, hind, hdir.slots.links.index]
    show (BitVec.ofNat 32 x).toNat < _
    rw [ofNat_toNat_of_lt (by omega)]
    exact hx.2
  · obtain ⟨q, es, bs', ix', G', rfl, hdir⟩ := h.treeDir hs hd
    exact hdir.terminated hs hcap hf
  · obtain ⟨d, hd, i, hi, rfl⟩ := hc
    have ho := hptr d hd i hi
    obtain ⟨h3, -, hb⟩ := howned d hd.1 _ _ ho
    refine ⟨fun h1 => ?_, hb, fun d' hd' h10 he => ?_⟩
    · rw [h1] at h3
      exact absurd h3 (by decide)
    · have ho' : t.Owns d' none (t.ptr d i) := ⟨he, ho.2.2⟩
      exact absurd (honce d' d hd'.1 hd.1 _ _ _ ho' ho).2 (by simp)
  · obtain ⟨q, es, bs', ix', G', rfl, hdir⟩ := h.treeDir hs hd
    rw [hdir.nblock_eq hs hcap] at hle
    rw [hdir.ptr_eq hs hcap hi, List.getD_eq_default _ _ hle]

end Tree

end Fsformat
end RvMos
