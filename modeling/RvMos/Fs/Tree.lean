/-
Directories as they are read (`dir_lookup`).

The entries of a directory are the records of its blocks in order, and a name
stands for the first entry that has it.  In a tree whose directories have all their
blocks a lookup finds that entry.  It writes the `f_dir` of what it finds, which no
name, pointer or size of the tree depends on.
-/
import Mathlib.Data.List.Find
import RvMos.Fs.Truncate

namespace RvMos

open Lib

namespace Fs

open Sys

/-! ## Names -/

def Server.byte (s : Server) (va : Word) : Byte := (s.view va >>> byteShift va).setWidth 8

/-- The bytes from an address on. -/
def Server.bytesAt (s : Server) : Word → ℕ → List Byte
  | _, 0 => []
  | p, n + 1 => s.byte p :: s.bytesAt (p + 1#32) n

/-- `f_name` up to its terminator. -/
def Server.entryName (s : Server) (f : Word) : List Byte :=
  (s.bytesAt f maxNameLen).takeWhile (· ≠ 0#8)

section Names

variable {s s' : Server} {p f dir : Word} {name : List Byte} {n : ℕ} {E : Stop → Prop}

theorem add_one_add (p : Word) (k : ℕ) :
    p + 1#32 + BitVec.ofNat 32 k = p + BitVec.ofNat 32 (k + 1) := by
  rw [BitVec.add_assoc, ← BitVec.ofNat_add, Nat.add_comm]

theorem bytesAt_congr (h : ∀ k < n, s'.view (p + BitVec.ofNat 32 k) = s.view (p + BitVec.ofNat 32 k)) :
    s'.bytesAt p n = s.bytesAt p n := by
  induction n generalizing p with
  | zero => rfl
  | succ n ih =>
    have h0 := h 0 (by omega)
    have htail : s'.bytesAt (p + 1#32) n = s.bytesAt (p + 1#32) n :=
      ih fun k hk => by
        rw [add_one_add]
        exact h (k + 1) (by omega)
    rw [BitVec.add_zero] at h0
    unfold Server.bytesAt Server.byte
    rw [h0, htail]

theorem mem_bytesAt {k : ℕ} (hk : k < n) : s.byte (p + BitVec.ofNat 32 k) ∈ s.bytesAt p n := by
  induction n generalizing p k with
  | zero => omega
  | succ n ih =>
    unfold Server.bytesAt
    cases k with
    | zero =>
      rw [BitVec.add_zero]
      exact List.mem_cons_self
    | succ k =>
      have hmem := ih (p := p + 1#32) (k := k) (by omega)
      rw [add_one_add] at hmem
      exact List.mem_cons_of_mem _ hmem

/-- An entry that starts with a zero has no name. -/
theorem entryName_eq_nil (h : s.byte f = 0#8) : s.entryName f = [] := by
  show (s.byte f :: s.bytesAt (f + 1#32) 127).takeWhile (· ≠ 0#8) = []
  rw [List.takeWhile_cons_of_neg (by simp [h])]

theorem wp_loadByte {Q : Except Err Byte → Server → Prop} (h : s.Cached p) (hQ : Q (.ok (s.byte p)) s) :
    (loadByte p).wp Q E s := by
  unfold loadByte
  rw [wp_bind]
  exact wp_load h (wp_pure.mpr hQ)

/-- `strcmp` with a terminated string in memory. -/
theorem wp_strEq {Q : Except Err Bool → Server → Prop} (h0 : 0#8 ∉ name)
    (hz : 0#8 ∈ s.bytesAt p n) (hc : ∀ k < n, s.Cached (p + BitVec.ofNat 32 k))
    (hQ : Q (.ok (decide ((s.bytesAt p n).takeWhile (· ≠ 0#8) = name))) s) :
    (strEq name p).wp Q E s := by
  induction name generalizing p n with
  | nil =>
    cases n with
    | zero => exact absurd hz (List.not_mem_nil)
    | succ n =>
      have hp := hc 0 (by omega)
      rw [BitVec.add_zero] at hp
      unfold strEq
      rw [wp_bind]
      refine wp_loadByte hp (wp_pure.mpr ?_)
      have hhead : decide ((s.bytesAt p (n + 1)).takeWhile (· ≠ 0#8) = []) =
          decide (s.byte p = 0#8) := by
        unfold Server.bytesAt
        by_cases hb : s.byte p = 0#8
        · simp [hb]
        · simp [hb]
      exact hhead ▸ hQ
  | cons c cs ih =>
    cases n with
    | zero => exact absurd hz (List.not_mem_nil)
    | succ n =>
      have hp := hc 0 (by omega)
      rw [BitVec.add_zero] at hp
      obtain ⟨hc0, hcs⟩ := not_or.mp (mt List.mem_cons.mpr h0)
      unfold strEq
      rw [wp_bind]
      refine wp_loadByte hp ?_
      simp only
      unfold Server.bytesAt at hz hQ
      rw [wp_ite]
      refine ⟨fun he => ih hcs (n := n) ?_ (fun k hk => ?_) ?_, fun hne => wp_pure.mpr ?_⟩
      · exact (List.mem_cons.mp hz).resolve_left fun h => hc0 (h.trans he)
      · rw [add_one_add]
        exact hc (k + 1) (by omega)
      · have hne0 : s.byte p ≠ 0#8 := fun h => hc0 (h.symm.trans he)
        rw [List.takeWhile_cons_of_pos (by simpa using hne0), he] at hQ
        simpa using hQ
      · have hdiff : (s.byte p :: s.bytesAt (p + 1#32) n).takeWhile (· ≠ 0#8) ≠ c :: cs := by
          by_cases hb : s.byte p = 0#8
          · simp [hb]
          · simp [hb, hne]
        rw [decide_eq_false hdiff] at hQ
        exact hQ

/-- The inner loop of `dir_lookup` finds the first entry with the name. -/
theorem wp_lookupIn {Q : Except Err (Option Word) → Server → Prop} {fs : List Word} (h0 : 0#8 ∉ name)
    (hfs : ∀ f ∈ fs, 0#8 ∈ s.bytesAt f maxNameLen ∧ ∀ k < 256, s.Cached (f + BitVec.ofNat 32 k))
    (hnone : fs.find? (fun f => s.entryName f = name) = none → Q (.ok none) s)
    (hsome : ∀ f, fs.find? (fun f => s.entryName f = name) = some f →
      Q (.ok (some f)) (s.setWord (fDir f) dir)) : (lookupIn dir name fs).wp Q E s := by
  induction fs with
  | nil => exact wp_pure.mpr (hnone rfl)
  | cons f fs ih =>
    obtain ⟨hz, hc⟩ := hfs f List.mem_cons_self
    unfold lookupIn
    rw [wp_bind]
    refine wp_strEq h0 hz (fun k hk => hc k (by unfold maxNameLen at hk; omega)) ?_
    simp only
    rw [wp_ite]
    refine ⟨fun he => ?_, fun hne => ih (fun g hg => hfs g (List.mem_cons_of_mem f hg)) ?_ ?_⟩
    · rw [wp_bind]
      refine wp_store (hc 180 (by omega)) (wp_pure.mpr (hsome f ?_))
      exact List.find?_cons_of_pos he
    · exact fun h => hnone ((List.find?_cons_of_neg (p := fun f => s.entryName f = name) hne).trans h)
    · exact fun g hg =>
        hsome g ((List.find?_cons_of_neg (p := fun f => s.entryName f = name) hne).trans hg)

end Names

/-! ## Directories -/

/-- The number of blocks that `dir_lookup` goes through. -/
def Server.nblock (s : Server) (d : Word) : ℕ := (s.view (fSize d)).toNat / 4096

def Server.IsDir (s : Server) (d : Word) : Prop := s.view (fType d) = ftypeDir

instance (s : Server) (d : Word) : Decidable (s.IsDir d) := inferInstanceAs (Decidable (_ = _))

/-- The records of a directory. -/
def Server.files (s : Server) (d : Word) : List Word :=
  (List.range (s.nblock d)).flatMap fun i => blockFiles (blockVa (s.ptr d i))

/-- The entry of a directory that a name stands for. -/
def Server.lookup (s : Server) (d : Word) (name : List Byte) : Option Word :=
  (s.files d).find? fun f => s.entryName f = name

/-- The files of the tree. -/
inductive Server.Reached (s : Server) : Word → Prop
  | root : s.Reached sRoot
  | entry {d f : Word} : s.Reached d → s.IsDir d → f ∈ s.files d → s.entryName f ≠ [] → s.Reached f

/-- A directory of the tree. -/
def Server.TreeDir (s : Server) (d : Word) : Prop := s.Reached d ∧ s.IsDir d

/-- A block of entries. -/
def Server.DirBlock (s : Server) (c : Word) : Prop :=
  ∃ d, s.TreeDir d ∧ ∃ i < s.nblock d, s.ptr d i = c

/-- The directories have all their blocks, with terminated names, and no block of
entries is the superblock, a part of the bitmap or the index block of a directory. -/
structure FileTree (s : Server) : Prop where
  mounted : Mounted s
  length : ∀ d, s.TreeDir d → s.nblock d ≤ 1024
  present : ∀ d, s.TreeDir d → ∀ i < s.nblock d, s.ptr d i ≠ 0#32 ∧ s.Used (s.ptr d i)
  index : ∀ d, s.TreeDir d → 10 < s.nblock d → s.Used (s.view (fIndirect d))
  terminated : ∀ d, s.TreeDir d → ∀ f ∈ s.files d, 0#8 ∈ s.bytesAt f maxNameLen
  apart : ∀ c, s.DirBlock c → c ≠ 1#32 ∧ ¬s.BitmapBlock c ∧
    ∀ d, s.TreeDir d → 10 < s.nblock d → s.view (fIndirect d) ≠ c

/-- The `f_dir` of the entries. -/
def Server.DirWords (s : Server) (c : Word) (o : Index) : Prop := s.DirBlock c ∧ o.val % 64 = 45

/-- Where a file of the tree is. -/
structure Spot (s : Server) (d b : Word) (x : ℕ) : Prop where
  place : At d b x
  aligned : x % 4 = 0
  room : x + 256 ≤ 4096
  head : b = 1#32 → 8 ≤ x
  safe : s.DirBlock b → x % 256 = 0

section Tree

variable {s s' : Server} {d f b c : Word} {x i k : ℕ}

theorem mem_blockFiles (hc : c.toNat < 262144) (hf : f ∈ blockFiles (blockVa c)) :
    ∃ j < 16, At f c (256 * j) := by
  obtain ⟨j, hj, rfl⟩ := List.mem_map.mp hf
  have hlt : j < 16 := List.mem_range.mp hj
  refine ⟨j, hlt, ?_⟩
  have hmul : by2file * BitVec.ofNat 32 j = BitVec.ofNat 32 (256 * j) := by
    have h256 : by2file.toNat = 256 := rfl
    refine BitVec.eq_of_toNat_eq ?_
    rw [BitVec.toNat_mul, BitVec.toNat_ofNat, BitVec.toNat_ofNat, h256]
    omega
  have hat := (at_blockVa hc).add (n := 256 * j) (by omega)
  rw [Nat.zero_add] at hat
  rw [hmul]
  exact hat

theorem mem_files_at (ht : FileTree s) (hd : s.TreeDir d) (hf : f ∈ s.files d) :
    ∃ i < s.nblock d, ∃ j < 16, At f (s.ptr d i) (256 * j) := by
  obtain ⟨i, hi, hf⟩ := List.mem_flatMap.mp hf
  have hlt := List.mem_range.mp hi
  exact ⟨i, hlt, mem_blockFiles (lt_capacity ht.mounted (ht.present d hd i hlt).2.1) hf⟩

theorem mem_files (ht : FileTree s) (hd : s.TreeDir d) (hf : f ∈ s.files d) :
    ∃ c, s.DirBlock c ∧ ∃ j < 16, At f c (256 * j) := by
  obtain ⟨i, hi, j, hj, hat⟩ := mem_files_at ht hd hf
  exact ⟨s.ptr d i, ⟨d, hd, i, hi, rfl⟩, j, hj, hat⟩

theorem FileTree.entrySpot (ht : FileTree s) (hd : s.TreeDir d) (hf : f ∈ s.files d) :
    ∃ b x, Spot s f b x := by
  obtain ⟨c, hc, j, hj, hat⟩ := mem_files ht hd hf
  exact ⟨c, 256 * j, hat, by omega, by omega, fun h => absurd h (ht.apart c hc).1, fun _ => by omega⟩

theorem FileTree.spot (ht : FileTree s) (hd : s.Reached d) : ∃ b x, Spot s d b x := by
  cases hd with
  | root =>
    exact ⟨1#32, 8, ⟨rfl, by decide, by omega⟩, rfl, by omega, fun _ => le_refl 8,
      fun h => absurd rfl (ht.apart _ h).1⟩
  | entry hd hdir hf _ => exact ht.entrySpot ⟨hd, hdir⟩ hf

theorem Spot.view (hp : Spot s d b x) (h : Touches s.DirWords s s') (hk : k < 256) (hne : k / 4 ≠ 45) :
    s'.view (d + BitVec.ofNat 32 k) = s.view (d + BitVec.ofNat 32 k) := by
  have hroom := hp.room
  have hat : At (d + BitVec.ofNat 32 k) b (x + k) := hp.place.add (by omega)
  refine h.view fun hW => ?_
  rw [hat.blockOf_eq] at hW
  have hsafe := hp.safe hW.1
  have hmod := hW.2
  rw [hat.wordIdx_val] at hmod
  omega

theorem Spot.record (hp : Spot s d b x) (hc : s'.Cached d) : Record s' d b x :=
  ⟨hp.place, hp.aligned, hp.room, hp.head, hc⟩

theorem FileTree.not_dirWords (ht : FileTree s) (hc : s.BitmapBlock c ∨ c = 1#32) {o : Index} :
    ¬s.DirWords c o := by
  rintro ⟨hd, _⟩
  rcases hc with hc | rfl
  · exact (ht.apart c hd).2.1 hc
  · exact (ht.apart _ hd).1 rfl

theorem FileTree.mounted_touched (ht : FileTree s) (h : Touches s.DirWords s s') : Mounted s' :=
  h.mounted (ht.not_dirWords (.inr rfl)) ht.mounted

theorem FileTree.used_iff (ht : FileTree s) (h : Touches s.DirWords s s') (c : Word) :
    s'.Used c ↔ s.Used c := by
  have hn : s'.nblk = s.nblk := h.nblk (ht.not_dirWords (.inr rfl))
  unfold Server.Used
  rw [hn]
  refine and_congr_right fun hlt => not_congr ?_
  unfold Server.Free
  rw [h.view (ht.not_dirWords (.inl (bitmapBlock_of_at ht.mounted (inBitmap_of_lt hlt))))]

theorem FileTree.used (ht : FileTree s) (h : Touches s.DirWords s s') (hc : s.Used c) : s'.Used c :=
  (ht.used_iff h c).mpr hc

theorem FileTree.starved {k : Stop} (ht : FileTree s) (h : Touches s.DirWords s s')
    (hk : Starved s' k) : Starved s k :=
  hk.back h fun b hu => .inl ((ht.used_iff h b).mp hu)

/-- The pointers of the directories stay. -/
theorem FileTree.ptr (ht : FileTree s) (h : Touches s.DirWords s s') (hd : s.TreeDir d)
    (hi : i < s.nblock d) : s'.ptr d i = s.ptr d i := by
  obtain ⟨b, x, hp⟩ := ht.spot hd.1
  have hlen := ht.length d hd
  have hind : s'.view (fIndirect d) = s.view (fIndirect d) := hp.view (k := 176) h (by omega) (by omega)
  unfold Server.ptr
  by_cases h10 : i < 10
  · rw [if_pos h10, if_pos h10, fDirect_eq]
    exact hp.view h (by omega) (by omega)
  · rw [if_neg h10, if_neg h10, hind]
    by_cases h0 : s.view (fIndirect d) = 0#32
    · rw [if_pos h0, if_pos h0]
    · rw [if_neg h0, if_neg h0]
      have hat := (at_blockVa (lt_capacity ht.mounted (ht.index d hd (by omega)).1)).add
        (n := 4 * i) (by omega)
      refine h.view fun hW => ?_
      rw [hat.blockOf_eq] at hW
      exact (ht.apart _ hW.1).2.2 d hd (by omega) rfl

/-- The names of the entries stay. -/
theorem FileTree.bytesAt (ht : FileTree s) (h : Touches s.DirWords s s') (hd : s.TreeDir d)
    (hf : f ∈ s.files d) : s'.bytesAt f maxNameLen = s.bytesAt f maxNameLen := by
  obtain ⟨b, x, hp⟩ := ht.entrySpot hd hf
  refine bytesAt_congr fun k hk => hp.view h ?_ ?_
  · unfold maxNameLen at hk
    omega
  · unfold maxNameLen at hk
    omega

theorem FileTree.byte (ht : FileTree s) (h : Touches s.DirWords s s') (hd : s.TreeDir d)
    (hf : f ∈ s.files d) : s'.byte f = s.byte f := by
  obtain ⟨b, x, hp⟩ := ht.entrySpot hd hf
  have hv := hp.view (k := 0) h (by omega) (by omega)
  rw [BitVec.add_zero] at hv
  unfold Server.byte
  rw [hv]

theorem mem_files_of_block (hi : i < s.nblock d) (hf : f ∈ blockFiles (blockVa (s.ptr d i))) :
    f ∈ s.files d :=
  List.mem_flatMap.mpr ⟨i, List.mem_range.mpr hi, hf⟩

end Tree

/-! ## Setting `f_dir` -/

/-- No word changes but the `f_dir` of files, each set to a directory that `P` gives
it, and only blocks in `V` come into the cache. -/
structure Marks (V : Word → Prop) (P : Word → Word → Prop) (s s' : Server) : Prop where
  super : s'.super = s.super
  bitmap : s'.bitmap = s.bitmap
  cached : ∀ va, s.Cached va → s'.Cached va
  block : ∀ b o, s'.block b o = s.block b o ∨
    ∃ d f, P d f ∧ b = blockOf (fDir f) ∧ o = wordIdx (fDir f) ∧ s'.block b o = d
  grants : s'.grants <:+ s.grants
  pages : ∀ va, s'.Cached va → s.Cached va ∨ V (blockOf va)

instance (V : Word → Prop) (P : Word → Word → Prop) : IsPreorder Server (Marks V P) where
  refl _ := ⟨rfl, rfl, fun _ => id, fun _ _ => .inl rfl, List.suffix_rfl, fun _ => .inl⟩
  trans s t u h h' := by
    refine ⟨h'.super.trans h.super, h'.bitmap.trans h.bitmap,
      fun va hva => h'.cached va (h.cached va hva), fun b o => ?_, h'.grants.trans h.grants,
      fun va hva => ?_⟩
    · rcases h'.block b o with he | hm
      · rw [he]
        exact h.block b o
      · exact .inr hm
    · rcases h'.pages va hva with hva | hv
      · exact h.pages va hva
      · exact .inr hv

section Marks

variable {s s' t : Server} {V : Word → Prop} {P P' : Word → Word → Prop} {d f : Word}

theorem Marks.mono (h : Marks V P s s') (hP : ∀ d f, P d f → P' d f) : Marks V P' s s' :=
  ⟨h.super, h.bitmap, h.cached, fun b o => (h.block b o).imp_right fun ⟨d, f, hd, hr⟩ =>
    ⟨d, f, hP d f hd, hr⟩, h.grants, h.pages⟩

theorem Reads.marks (h : Reads s s') (hV : ∀ c, s.Used c → V c) : Marks V P s s' :=
  ⟨h.super, h.bitmap, h.cached, fun b o => .inl (h.block b o id), h.grants,
    fun va hva => (h.pages va hva).imp_right (hV _)⟩

/-- Where every `f_dir` names its directory already, nothing changes. -/
theorem Marks.reads (h : Marks s.Used P s s') (hset : ∀ d f, P d f → s.view (fDir f) = d) :
    Reads s s' := by
  refine ⟨⟨h.super, h.bitmap, h.cached, fun b o _ => ?_, h.grants⟩, h.pages⟩
  rcases h.block b o with he | ⟨d, f, hP, rfl, rfl, hd⟩
  · exact he
  · rw [hd, ← hset d f hP]
    rfl

theorem marks_setWord (hc : s.Cached (fDir f)) (hP : P d f) : Marks V P s (s.setWord (fDir f) d) := by
  have ht := touches_setWord (w := d) (W := fun b o => b = blockOf (fDir f) ∧ o = wordIdx (fDir f)) hc
    ⟨rfl, rfl⟩
  refine ⟨ht.super, ht.bitmap, ht.cached, fun b o => ?_, ht.grants, fun va hva => ?_⟩
  · by_cases hbo : b = blockOf (fDir f) ∧ o = wordIdx (fDir f)
    · refine .inr ⟨d, f, hP, hbo.1, hbo.2, ?_⟩
      rw [block_setWord hc, if_pos hbo]
    · exact .inl (ht.block b o hbo)
  · exact .inl (cached_setWord_iff.mp hva)

/-- Setting the `f_dir` of entries keeps the tree. -/
theorem FileTree.touches_marks (ht : FileTree s) (hP : ∀ d f, P d f → s.TreeDir d ∧ f ∈ s.files d)
    (h : Marks V P s' t) : Touches s.DirWords s' t := by
  refine ⟨h.super, h.bitmap, h.cached, fun b o hW => ?_, h.grants⟩
  rcases h.block b o with he | ⟨d, f, hd, rfl, rfl, -⟩
  · exact he
  · obtain ⟨hdir, hf⟩ := hP d f hd
    obtain ⟨c, hblk, j, hj, hat⟩ := mem_files ht hdir hf
    have hat' : At (fDir f) c (256 * j + 180) := hat.add (by omega)
    refine absurd ⟨hat'.blockOf_eq.symm ▸ hblk, ?_⟩ hW
    rw [hat'.wordIdx_val]
    omega

end Marks

/-! ## Looking a name up -/

/-- What a lookup in a directory gives, where the tree has `o` for the name. -/
def Finds (V : Word → Prop) (s : Server) (d : Word) (o : Option Word) (r : Except Err Word)
    (t : Server) : Prop :=
  Marks V (fun d' f => d' = d ∧ o = some f) s t ∧
    ((o = none ∧ r = .error .notFound) ∨ ∃ f, o = some f ∧ r = .ok f ∧ t.Cached f)

section Lookup

variable {s s' : Server} {d : Word} {name : List Byte} {E : Stop → Prop}

/-- `file_get_block` of a block of a directory: its entries come into the cache. -/
theorem FileTree.wp_getBlock {Q : Except Err Word → Server → Prop} {i : ℕ} (ht : FileTree s)
    (hd : s.TreeDir d) (hi : i < s.nblock d) (h : Touches s.DirWords s s') (hc : s'.Cached d)
    (hQ : ∀ t, Reads s' t → (∀ f ∈ blockFiles (blockVa (s.ptr d i)), ∀ k < 256,
      t.Cached (f + BitVec.ofNat 32 k)) → Q (.ok (blockVa (s.ptr d i))) t)
    (hE : ∀ c, Starved s c → E c) : (fileGetBlock d (BitVec.ofNat 32 i)).wp Q E s' := by
  have hlen := ht.length d hd
  obtain ⟨b, x, hp⟩ := ht.spot hd.1
  have hptr := ht.ptr h hd hi
  obtain ⟨hne, hu⟩ := ht.present d hd i hi
  have hb := lt_capacity ht.mounted hu.1
  have hind : s'.view (fIndirect d) = s.view (fIndirect d) :=
    hp.view (k := 176) h (by omega) (by omega)
  refine wp_fileGetBlock (ht.mounted_touched h) (hp.record hc) (by omega) (hptr.symm ▸ hne)
    (hptr.symm ▸ ht.used h hu) (fun h10 => hind.symm ▸ ht.used h (ht.index d hd (by omega)))
    (fun t hr hblk => ?_) fun c hs => hE c (ht.starved h hs)
  rw [hptr] at hblk ⊢
  refine hQ t hr fun f hf k hk => ?_
  obtain ⟨j, hj, hat⟩ := mem_blockFiles hb hf
  exact hblk.of_vpn ((hat.add (by omega)).vpn_eq.trans (at_blockVa hb).vpn_eq.symm)

theorem wp_lookupBlocks {is : List ℕ} (ht : FileTree s) (hd : s.TreeDir d) (h0 : 0#8 ∉ name)
    (his : ∀ i ∈ is, i < s.nblock d) (h : Touches s.DirWords s s') (hc : s'.Cached d) :
    (lookupBlocks d name is).wp (Finds s.Used s' d
      ((is.flatMap fun i => blockFiles (blockVa (s.ptr d i))).find? fun f => s.entryName f = name))
      (Starved s) s' := by
  induction is generalizing s' with
  | nil => exact wp_throw.mpr ⟨refl_of (Marks _ _) s', .inl ⟨rfl, rfl⟩⟩
  | cons i is ih =>
    have hi := his i List.mem_cons_self
    unfold lookupBlocks
    rw [wp_bind]
    refine ht.wp_getBlock hd hi h hc (fun s₁ hr hpage => ?_) fun _ => id
    simp only
    rw [wp_bind, List.flatMap_cons, List.find?_append]
    have h₁ : Touches s.DirWords s s₁ := trans_of (Touches _) h hr.touches
    have hV : ∀ c, s'.Used c → s.Used c := fun c => (ht.used_iff h c).mp
    have hfile : ∀ f ∈ blockFiles (blockVa (s.ptr d i)), f ∈ s.files d := fun f =>
      mem_files_of_block hi
    have hfind : (blockFiles (blockVa (s.ptr d i))).find? (fun f => s₁.entryName f = name) =
        (blockFiles (blockVa (s.ptr d i))).find? (fun f => s.entryName f = name) :=
      List.find?_congr fun f hf => by
        unfold Server.entryName
        rw [ht.bytesAt h₁ hd (hfile f hf)]
    refine wp_lookupIn h0 (fun f hf => ⟨?_, hpage f hf⟩) (fun hnone => ?_) fun f hsome => ?_
    · rw [ht.bytesAt h₁ hd (hfile f hf)]
      exact ht.terminated d hd f (hfile f hf)
    · rw [hfind] at hnone
      rw [hnone, Option.none_or]
      refine wp_conseq (ih (fun j hj => his j (List.mem_cons_of_mem i hj)) h₁ (hr.cached _ hc))
        fun r t hrt => ⟨trans_of (Marks _ _) (hr.marks hV) hrt.1, hrt.2⟩
    · have hf := List.mem_of_find?_eq_some hsome
      have hcf := hpage f hf 0 (by omega)
      rw [BitVec.add_zero] at hcf
      rw [hfind] at hsome
      rw [hsome, Option.some_or]
      refine wp_pure.mpr ⟨trans_of (Marks _ _) (hr.marks hV) (marks_setWord ?_ ⟨rfl, rfl⟩),
        .inr ⟨f, rfl, rfl, cached_setWord hcf⟩⟩
      exact hpage f hf 180 (by omega)

/-- `dir_lookup` in a directory of the tree. -/
theorem wp_dirLookup (ht : FileTree s) (hd : s.TreeDir d) (h0 : 0#8 ∉ name)
    (h : Touches s.DirWords s s') (hc : s'.Cached d) :
    (dirLookup d name).wp (Finds s.Used s' d (s.lookup d name)) (Starved s) s' := by
  obtain ⟨b, x, hp⟩ := ht.spot hd.1
  have hsz : s'.view (fSize d) = s.view (fSize d) := hp.view (k := 128) h (by omega) (by omega)
  have hn : (s.view (fSize d) / by2blk).toNat = s.nblock d := by
    rw [BitVec.toNat_udiv]
    rfl
  unfold dirLookup
  rw [wp_bind]
  refine wp_load ((hp.record hc).cached_field (n := 128) (by omega)) ?_
  simp only
  rw [hsz, hn]
  exact wp_lookupBlocks ht hd h0 (fun i hi => List.mem_range.mp hi) h hc

end Lookup

end Fs
end RvMos
