/-
One reply for a request.

Where the block pointers of the tree are in range and in use, no page is marked and the
kernel has its frames, no handler stops.  Then the failure of `open_alloc`, after which
`serve_open` goes on, is the only way to another number of replies than one.
-/
import RvMos.Fs.Flush
import RvMos.Fs.Marked
import RvMos.Fs.OpenNew

namespace RvMos

open Lib

namespace Fs

open Sys

/-! ## What a request needs -/

/-- The entry that `open_lookup` returns for an id. -/
def Server.Accepts (s : Server) (fileid : Word) (o : Open) : Prop :=
  openLookup fileid s = .ok (.ok o, s)

/-- `f_dir` is 0 or names the directory that the file is in. -/
def Server.Linked (s : Server) (f : Word) : Prop :=
  s.view (fDir f) ≠ 0#32 → s.TreeDir (s.view (fDir f)) ∧ f ∈ s.files (s.view (fDir f))

/-- A file that is open: its blocks are its own, and its record and that of its
directory are in the cache. -/
structure Live (s : Server) (f : Word) : Prop where
  kept : Kept s f
  cached : s.Cached f
  linked : s.Linked f
  dir : s.view (fDir f) ≠ 0#32 → s.Cached (s.view (fDir f))

/-- If index `n` of the file needs an index block, the block that will be taken for it
has no old words. -/
def Server.IndexZero (s : Server) (f : Word) (n : ℕ) : Prop :=
  n < 1024 → ¬s.HasSlot f n → ∀ c, s.Next c → s.Cached (blockVa c) → ∀ o, s.block c o = 0#32

/-- The tree is in order, no page is marked with `PTE_DIRTY`, the bitmap is in use, and
where the kernel may be out of frames the blocks in use are in the cache. -/
structure Sane (s : Server) : Prop where
  tree : OwnTree s
  unmarked : Unmarked s
  spare : ∀ c, s.Spare c → ¬s.BitmapBlock c
  frames : false ∈ s.grants → ∀ c, s.Used c → s.Cached (blockVa c)

/-- What the files that a request reaches need besides. -/
def Server.Ready (s : Server) : Req → Prop
  | .open _ _ => ∀ d, s.TreeDir d → s.freeEntry d = none → s.IndexZero d (s.nblock d)
  | .map fileid offset => ∀ o, s.Accepts fileid o →
      Live s o.file ∧ s.IndexZero o.file (offset / by2blk).toNat
  | .setSize fileid _ | .close fileid | .dirty fileid _ => ∀ o, s.Accepts fileid o → Live s o.file
  | .remove _ => ∀ f, s.Reached f → s.Linked f
  | .sync => True

/-! ## Blocks of an open file -/

section Live

variable {s t : Server} {b c d f : Word} {x n : ℕ} {E : Stop → Prop}

theorem Live.held (ht : OwnTree s) (h : Live s f) : ∃ b x, Seat s f b x ∧ Held s f b x := by
  obtain ⟨b, x, hseat⟩ := ht.toFileTree.seat h.kept.listed
  exact ⟨b, x, hseat, h.kept.held ht hseat h.cached⟩

theorem Live.flushable (ht : OwnTree s) (h : Live s f) : Flushable s f := by
  obtain ⟨b, x, -, hf⟩ := h.held ht
  exact hf.flushable ht.mounted

theorem OwnTree.dir_flushable (ht : OwnTree s) (hd : s.TreeDir d) (hc : s.Cached d) : Flushable s d := by
  obtain ⟨b, x, hseat⟩ := ht.toFileTree.seat (reached_listed hd.1)
  exact ((ht.kept hd.1).held ht hseat hc).flushable ht.mounted

theorem Live.dirFlushable (ht : OwnTree s) (h : Live s f) : DirFlushable s f := by
  obtain ⟨b, x, -, hf⟩ := h.held ht
  exact ⟨hf.record.cached_field (n := 180) (by omega),
    fun h0 => ht.dir_flushable (h.linked h0).1 (h.dir h0)⟩

/-- The block for an index block is the only one that has to be fresh. -/
theorem fresh_indexZero (hsp : ∀ c, s.Spare c → ¬s.BitmapBlock c) (hz : s.IndexZero f n) :
    Fresh (fun c => n < 1024 ∧ ¬s.HasSlot f n ∧ s.Next c) s := fun c hc =>
  ⟨hsp c hc, fun hT => hz hT.1 hT.2.1 c hT.2.2⟩

/-- `file_get_block` of an open file does not stop the server. -/
theorem wp_fileGetBlock_live (hs : Sane s) (h : Live s f) {n : Word} (hz : s.IndexZero f n.toNat) :
    (fileGetBlock f n).wp (fun _ _ => True) (Starved s) s := by
  have ht := hs.tree
  obtain ⟨b, x, hseat, hf⟩ := h.held ht
  have hofNat : BitVec.ofNat 32 n.toNat = n := by rw [BitVec.ofNat_toNat, BitVec.setWidth_eq]
  by_cases hn : n.toNat < 1024
  · rw [← hofNat]
    by_cases h0 : s.ptr f n.toNat = 0#32
    · have hu := (hseat.used ht.toFileTree).2
      refine wp_conseq (wp_fileGetBlock_place ht.mounted hf.record hf.outside hu
        (fresh_indexZero hs.spare hz) (fun h0 => ⟨(hf.index h0).2, hf.indexOutside h0⟩) hn h0
        (fun hno c hc => ⟨hn, hno, hc⟩) fun _ => id) fun _ _ _ => trivial
    · have hhas : s.HasSlot f n.toNat := by
        by_contra hno
        exact h0 (ptr_eq_zero hno)
      exact wp_fileGetBlock ht.mounted hf.record hn h0 (hf.data _ hn h0).2
        (fun h10 => (hf.index (hhas.resolve_left h10)).2) (fun _ _ _ => trivial) fun _ => id
  · have hle : nindirect ≤ n := by
      have h1024 : nindirect.toNat = 1024 := rfl
      exact BitVec.le_def.mpr (by omega)
    unfold fileGetBlock fileMapBlock
    rw [wp_bind, wp_bind]
    exact wp_fileBlockWalk_big hle trivial

end Live

/-! ## Cutting an open file off -/

/-- The words of a file that may change: the bitmap, its record up to `f_dir` and its
index block. -/
def Server.FileWords (s : Server) (f b : Word) (x : ℕ) (c : Word) (o : Index) : Prop :=
  s.BitmapBlock c ∨ (c = b ∧ x ≤ 4 * o.val ∧ 4 * o.val < x + 180) ∨
    (c = s.view (fIndirect f) ∧ c ≠ 0#32)

/-- Only words of the file have changed, and the blocks of other files are in use still.
No block has come into use. -/
structure Cut (s u : Server) (f b : Word) (x : ℕ) : Prop where
  touches : Touches (s.FileWords f b x) s u
  used : ∀ c, s.Used c → (∀ k, ¬s.Owns f k c) → u.Used c
  fewer : ∀ c, u.Used c → s.Used c

section Cut

variable {s s' u : Server} {b c d f newsize w : Word} {x k i : ℕ} {D : ℕ → Prop}

theorem Kept.not_super (hk : Kept s f) (hr : Record s f b x) : ¬s.FileWords f b x 1#32 1 := by
  have h1 : (1#32 : Word).toNat = 1 := rfl
  have h2 : ((1 : Index).val) = 1 := rfl
  rintro (hW | ⟨hb, hlo, -⟩ | ⟨hW, h0⟩)
  · unfold Server.BitmapBlock at hW
    omega
  · have h8 := hr.head hb.symm
    omega
  · exact absurd (hk.owned none _ ⟨hW.symm, h0⟩).1 (by decide)

theorem Cut.refl (s : Server) (f b : Word) (x : ℕ) : Cut s s f b x :=
  ⟨refl_of (Touches _) s, fun _ hu _ => hu, fun _ => id⟩

theorem Cut.starved {k : Stop} (h : Cut s u f b x) (hk : Starved u k) : Starved s k :=
  hk.back h.touches fun c hu => .inl (h.fewer c hu)

/-- `f_dir` is not among the words that change. -/
theorem Cut.dir (ht : OwnTree s) (hk : Kept s f) (hseat : Seat s f b x) (h : Cut s u f b x) :
    u.view (fDir f) = s.view (fDir f) := by
  have hat : At (fDir f) b (x + 180) := hseat.at_field (by omega)
  have hroom := hseat.room
  refine h.touches.view ?_
  rw [hat.blockOf_eq]
  rintro (hW | ⟨-, -, hhi⟩ | ⟨hW, h0⟩)
  · exact (hseat.used ht.toFileTree).1 hW
  · rw [hat.wordIdx_val] at hhi
    omega
  · exact hk.not_seat ht hseat ⟨hW.symm, h0⟩

/-- A store to the record, before `f_dir`. -/
theorem Cut.setWord (hm : Mounted s) (hk : Kept s f) (hf : Held s f b x) (h : Cut s u f b x)
    (hlt : k < 180) : Cut s (u.setWord (f + BitVec.ofNat 32 k) w) f b x := by
  have hx := hf.record.aligned
  have hsuper := hk.not_super hf.record
  have hat : At (f + BitVec.ofNat 32 k) b (x + k) := hf.record.at_field (by omega)
  have hc : u.Cached (f + BitVec.ofNat 32 k) := (hf.record.touches h.touches).cached_field (by omega)
  have hw : Touches (s.FileWords f b x) u (u.setWord (f + BitVec.ofNat 32 k) w) := by
    refine touches_setWord hc (.inr (.inl ⟨hat.blockOf_eq, ?_⟩))
    rw [hat.wordIdx_val]
    omega
  have hn := hw.nblk hsuper
  have hfree : ∀ d, d < u.nblk → ((u.setWord (f + BitVec.ofNat 32 k) w).Free d ↔ u.Free d) := by
    intro d hlt
    refine free_setWord hc fun he => hf.outside ?_
    have hblk := bitmapBlock_of_at (h.touches.mounted hsuper hm) (inBitmap_of_lt hlt)
    rw [he, hat.blockOf_eq] at hblk
    unfold Server.BitmapBlock at hblk ⊢
    rw [h.touches.nblk hsuper] at hblk
    exact hblk
  have hused : ∀ d, (u.setWord (f + BitVec.ofNat 32 k) w).Used d ↔ u.Used d := by
    intro d
    unfold Server.Used
    rw [hn]
    exact and_congr_right fun hlt => not_congr (hfree d hlt)
  exact ⟨trans_of (Touches _) h.touches hw, fun c hu hno => (hused c).mpr (h.used c hu hno),
    fun c hu => h.fewer c ((hused c).mp hu)⟩

theorem slotWords_fileWords (hx : x % 4 = 0) {o : Index} (h : s.SlotWords f b x c o) :
    s.FileWords f b x c o := by
  rcases h with hW | ⟨i, hi, hhas, rfl, ho⟩
  · exact .inl hW
  · unfold Server.slotBlock
    unfold slotByte at ho
    by_cases h10 : i < 10
    · rw [if_pos h10] at ho ⊢
      exact .inr (.inl ⟨rfl, by omega, by omega⟩)
    · rw [if_neg h10]
      exact .inr (.inr ⟨rfl, hhas.resolve_left h10⟩)

/-- What `file_truncate` does is such a cut. -/
theorem Cut.of_truncate (hf : Held s f b x) (hd : Dropped s s' f b x D)
    (hs : Shortened s' u f b x newsize) : Cut s u f b x := by
  have hx := hf.record.aligned
  have hind := hf.view_indirect hd.touches
  refine ⟨trans_of (Touches _) (hd.touches.mono fun c o => slotWords_fileWords hx)
    (hs.touches.mono fun c o hW => ?_), fun c hu hno => ?_, fun c hu => ?_⟩
  · rcases hW with hW | ⟨rfl, ho⟩
    · unfold Server.BitmapBlock at hW
      rw [hd.nblk] at hW
      exact .inl hW
    · exact .inr (.inl ⟨rfl, by omega, by omega⟩)
  · have hu' : s'.Used c := hd.used hu fun i hi _ h0 hp => hno (some i) ⟨hi, hp, h0⟩
    refine ⟨(hs.touches.nblk not_tailWords_super).symm ▸ hu'.1, fun hfree => ?_⟩
    rcases (hs.free c (inBitmap_of_lt hu'.1)).mp hfree with hfree | ⟨h0, -, hp⟩
    · exact hu'.2 hfree
    · exact hno none ⟨hind ▸ hp, h0⟩
  · have hlt : c < s'.nblk := hs.touches.nblk not_tailWords_super ▸ hu.1
    have hlt' : c < s.nblk := hd.nblk ▸ hlt
    refine ⟨hlt', fun hfree => hu.2 ((hs.free c (inBitmap_of_lt hlt)).mpr (.inl ?_))⟩
    exact (hd.free c (inBitmap_of_lt hlt')).mpr (.inl hfree)

/-- A directory is not one of its own entries. -/
theorem OwnTree.not_self (ht : OwnTree s) (hd : s.TreeDir d) : d ∉ s.files d := by
  have hall : ∀ g, s.Reached g → s.IsDir g → g ∉ s.files g := by
    intro g hg
    induction hg with
    | root => exact fun hdir => ht.root_not_entry ⟨.root, hdir⟩
    | entry hd' hdir' hmem hne ih =>
      intro hdir hself
      obtain rfl := ht.dir_unique ⟨.entry hd' hdir' hmem hne, hdir⟩ ⟨hd', hdir'⟩ hself hmem
      exact ih hdir' hself
  exact hall d hd.1 hd.2

/-- Another directory can be flushed still. -/
theorem Cut.flushable (ht : OwnTree s) (hk : Kept s f) (hseat : Seat s f b x) (h : Cut s u f b x)
    (hd : s.TreeDir d) (hne : d ≠ f) (hc : s.Cached d) : Flushable u d := by
  have hft := ht.toFileTree
  have hkd := ht.kept hd.1
  obtain ⟨e, z, hseat'⟩ := hft.seat (reached_listed hd.1)
  have hroom := hseat.room
  have hroom' := hseat'.room
  have hview : ∀ k < 256, u.view (d + BitVec.ofNat 32 k) = s.view (d + BitVec.ofNat 32 k) := by
    intro k hlt
    have hat := hseat'.at_field hlt
    refine h.touches.view ?_
    rw [hat.blockOf_eq]
    rintro (hW | ⟨rfl, hlo, hhi⟩ | ⟨hW, h0⟩)
    · exact (hseat'.used hft).1 hW
    · rw [hat.wordIdx_val] at hlo hhi
      rcases hseat.apart hft hseat' with hfd | hdis
      · exact hne hfd.symm
      · omega
    · exact hk.not_seat ht hseat' ⟨hW.symm, h0⟩
  have hind : u.view (fIndirect d) = s.view (fIndirect d) := hview 176 (by omega)
  have howner : s.view (fIndirect d) ≠ 0#32 → s.Owns d none (s.view (fIndirect d)) := fun h0 => ⟨rfl, h0⟩
  have hother : ∀ k c, s.Owns d none c → ¬s.Owns f k c := fun k c ho ho' =>
    hne (hk.others d hd.1 _ _ _ ho' ho).symm
  have hptr : ∀ i < 1024, u.ptr d i = s.ptr d i := by
    intro i hi
    unfold Server.ptr
    by_cases h10 : i < 10
    · rw [if_pos h10, if_pos h10, fDirect_eq]
      exact hview _ (by omega)
    · rw [if_neg h10, if_neg h10, hind]
      by_cases h0 : s.view (fIndirect d) = 0#32
      · rw [if_pos h0, if_pos h0]
      · rw [if_neg h0, if_neg h0]
        obtain ⟨-, hu, hout⟩ := hkd.owned _ _ (howner h0)
        have hat := (at_blockVa (lt_capacity ht.mounted hu.1)).add (n := 4 * i) (by omega)
        refine h.touches.view ?_
        rw [hat.blockOf_eq]
        rintro (hW | ⟨hb, -, -⟩ | ⟨hW, -⟩)
        · exact hout hW
        · exact hkd.not_seat ht hseat (hb ▸ howner h0)
        · exact hother none _ (howner h0) ⟨hW.symm, h0⟩
  have hold := ht.dir_flushable hd hc
  refine ⟨⟨e, z, (hseat'.record hft hc).touches h.touches⟩, fun h0 => ?_, fun i hi => ?_⟩
  · rw [hind] at h0 ⊢
    exact h.used _ (hold.index h0) fun k => hother k _ (howner h0)
  · rw [hptr i hi]
    exact hold.data i hi

theorem Cut.dirFlushable (ht : OwnTree s) (hl : Live s f) (hseat : Seat s f b x)
    (h : Cut s u f b x) : DirFlushable u f := by
  have hc := (hl.dirFlushable ht).1
  refine ⟨h.touches.cached _ hc, fun h0 => ?_⟩
  rw [h.dir ht hl.kept hseat] at h0 ⊢
  obtain ⟨hd, hmem⟩ := hl.linked h0
  refine h.flushable ht hl.kept hseat hd (fun he => ?_) (hl.dir h0)
  rw [he] at hd hmem
  exact ht.not_self hd hmem

end Cut

/-! ## `file_set_size` and `file_remove` -/

section Shrink

variable {s u : Server} {b f newsize : Word} {x : ℕ}

theorem wp_fileTruncate_cut (hs : Sane s) (hf : Held s f b x) (newsize : Word) :
    (fileTruncate f newsize).wp (fun r u => (r = .ok () ∧ Cut s u f b x) ∧ Unmarked u) (Starved s) s :=
  (within_fileTruncate f newsize).unmarked hs.unmarked
    (wp_fileTruncate hs.tree.mounted hf (fun _ _ hd ht => ⟨rfl, .of_truncate hf hd ht⟩) fun _ => id)

theorem wp_fileSetSize (hs : Sane s) (h : Live s f) (newsize : Word) :
    (fileSetSize f newsize).wp (fun _ _ => True) (Starved s) s := by
  have ht := hs.tree
  obtain ⟨b, x, hseat, hf⟩ := h.held ht
  have hsize : ∀ u, Cut s u f b x → u.Cached (fSize f) := fun u hc =>
    (hf.record.touches hc.touches).cached_field (n := 128) (by omega)
  have hcut : (when (s.view (fSize f) > newsize) (fileTruncate f newsize)).wp
      (fun r u => (r = .ok () ∧ Cut s u f b x) ∧ Unmarked u) (Starved s) s := by
    rw [wp_when]
    exact ⟨fun _ => wp_fileTruncate_cut hs hf newsize, fun _ => ⟨⟨rfl, .refl s f b x⟩, hs.unmarked⟩⟩
  unfold fileSetSize
  rw [wp_bind]
  refine wp_load (hsize s (.refl s f b x)) ?_
  simp only
  refine wp_seq hcut (fun _ u hu => ?_) fun _ _ _ => trivial
  obtain ⟨⟨-, hc⟩, huu⟩ := hu
  rw [wp_bind]
  refine wp_store (hsize u hc) ?_
  have hc' : Cut s (u.setWord (fSize f) newsize) f b x := hc.setWord ht.mounted h.kept hf (by omega)
  have huu' : Unmarked (u.setWord (fSize f) newsize) := setWord_quiet (R := StaysUnmarked) u _ _ huu
  have hm := hc'.touches.mounted (h.kept.not_super hf.record) ht.mounted
  exact wp_mono (wp_flushDir hm (hc'.dirFlushable ht h hseat) huu') (fun _ _ _ => trivial)
    fun c hk => hc'.starved hk

end Shrink


/-! ## After a walk -/

section Walked

variable {s t u : Server} {b c d f : Word} {x : ℕ} {path : List Byte} {cs : List (List Byte)} {w : Walk}

theorem Server.OnPath.entry (h : s.OnPath (components path) d f) : s.TreeDir d ∧ f ∈ s.files d := by
  obtain ⟨pre, c, post, hcs, hpre, hc⟩ := h
  obtain ⟨hdir, hmem, -⟩ := child_mem hc
  refine ⟨⟨reached_resolve (fun c' hc' => components_ne_nil path c' ?_) hpre, hdir⟩, hmem⟩
  rw [hcs]
  exact List.mem_append_left _ hc'

theorem FileTree.spare_iff (ht : FileTree s) (h : Touches s.DirWords s t) :
    t.Spare c ↔ s.Spare c := by
  have hn : t.nblk = s.nblk := h.nblk (ht.not_dirWords (.inr rfl))
  have hused := ht.used_iff h c
  unfold Server.Used at hused
  unfold Server.Spare
  rw [hn] at hused ⊢
  refine and_congr_right fun _ => and_congr_right fun hlt => ?_
  exact not_iff_not.mp ((and_iff_right hlt).symm.trans (hused.trans (and_iff_right hlt)))

/-- Where a walk leads, the server is in order still. -/
theorem Sane.marked (hs : Sane s) (h : Touches s.DirWords s t) (hu : Unmarked t) : Sane t := by
  have hft := hs.tree.toFileTree
  refine ⟨hs.tree.touched h, hu, fun c hc hb => ?_, fun hf c hc => h.cached _ ?_⟩
  · exact hs.spare c ((hft.spare_iff h).mp hc) ((hft.bitmapBlock_iff h).mp hb)
  · exact hs.frames (h.grants.subset hf) c ((hft.used_iff h c).mp hc)

/-- `walk_path` keeps the server in order. -/
theorem wp_walkPath_sane (hs : Sane s) (path : List Byte) :
    (walkPath path).wp (fun r t => (Marks s.Used (s.OnPath (components path)) s t ∧
      Touches s.DirWords s t ∧ Sane t) ∧ ∃ w, r = .ok w ∧ Outcome s (components path) w ∧ w.Loaded t)
      (Starved s) s := by
  have hft := hs.tree.toFileTree
  have hwalk := (within_walkPath path).unmarked hs.unmarked (wp_walkPath hft path)
  refine wp_conseq hwalk fun r t ht => ?_
  obtain ⟨⟨hmark, hw⟩, hu⟩ := ht
  have htouch := hft.touches_marks (fun d f h => h.entry) hmark
  exact ⟨⟨hmark, htouch, hs.marked htouch hu⟩, hw⟩

/-- Where the `f_dir` of two records are is the same only for the same record. -/
theorem FileTree.fDir_inj (ht : FileTree s) {g : Word} (hf : s.Listed f) (hg : s.Listed g)
    (hb : blockOf (fDir f) = blockOf (fDir g)) (ho : wordIdx (fDir f) = wordIdx (fDir g)) : f = g := by
  obtain ⟨b, x, hseat⟩ := ht.seat hf
  obtain ⟨c, y, hseat'⟩ := ht.seat hg
  have hat : At (fDir f) b (x + 180) := hseat.at_field (by omega)
  have hat' : At (fDir g) c (y + 180) := hseat'.at_field (by omega)
  have hx := hseat.room
  have hy := hseat'.room
  rw [hat.blockOf_eq, hat'.blockOf_eq] at hb
  have hval := congrArg Fin.val ho
  rw [hat.wordIdx_val, hat'.wordIdx_val] at hval
  subst hb
  obtain rfl : x = y := by omega
  exact hseat.place.inj hseat'.place

/-- The walk has set the `f_dir` of the file that it ends in, or it was set before. -/
theorem Marks.linked (ht : OwnTree s) (hm : Marks s.Used (s.OnPath (components path)) s t)
    (hf : s.Reached f) (hl : s.Linked f) (h0 : t.view (fDir f) ≠ 0#32) :
    s.TreeDir (t.view (fDir f)) ∧ f ∈ s.files (t.view (fDir f)) := by
  rcases hm.block (blockOf (fDir f)) (wordIdx (fDir f)) with he | ⟨d, g, hd, hb, ho, he⟩
  · have hv : t.view (fDir f) = s.view (fDir f) := he
    rw [hv] at h0 ⊢
    exact hl h0
  · have hv : t.view (fDir f) = d := he
    obtain ⟨hdir, hmem⟩ := hd.entry
    obtain rfl := ht.toFileTree.fDir_inj (reached_listed hf) (.inr ⟨d, hdir, hmem⟩) hb ho
    rw [hv]
    exact ⟨hdir, hmem⟩

/-- The directory that a file was found in. -/
theorem OwnTree.parent_eq (ht : OwnTree s) (hf : s.resolve (components path) = some f)
    (hd : s.TreeDir d) (hmem : f ∈ s.files d) : s.parent (components path) = some d := by
  have hne := components_ne_nil path
  generalize components path = cs at *
  cases cs using List.reverseRecOn with
  | nil =>
    obtain rfl : sRoot = f := Option.some.inj hf
    exact absurd hmem (ht.root_not_entry hd)
  | append_singleton cs c =>
    obtain ⟨e, he, hc⟩ := resolve_concat_iff.mp hf
    obtain ⟨hdir, hmem', -⟩ := child_mem hc
    have hreach := reached_resolve (fun c' hc' => hne c' (List.mem_append_left _ hc')) he
    obtain rfl := ht.dir_unique hd ⟨hreach, hdir⟩ hmem hmem'
    exact parent_concat he

/-- The file that a walk ends in is one that may be open. -/
theorem Marks.live (hs : Sane s) (hm : Marks s.Used (s.OnPath (components path)) s t)
    (h : Touches s.DirWords s t) (hf : s.resolve (components path) = some f) (hl : s.Linked f)
    (hload : (Walk.found (s.parent (components path)) f).Loaded t) : Live t f := by
  have ht := hs.tree
  have hft := ht.toFileTree
  have hreach := reached_resolve (components_ne_nil path) hf
  have hlink := fun h0 => hm.linked ht hreach hl h0
  refine ⟨(ht.touched h).kept ((hft.reached_iff h).mpr hreach), hload.1, fun h0 => ?_, fun h0 => ?_⟩
  · obtain ⟨hd, hmem⟩ := hlink h0
    refine ⟨(hft.treeDir_iff h).mpr hd, ?_⟩
    rw [hft.files_eq h hd]
    exact hmem
  · obtain ⟨hd, hmem⟩ := hlink h0
    exact hload.2 _ (ht.parent_eq hf hd hmem)

end Walked

/-! ## `file_remove` -/

section Remove

variable {s s' u : Server} {b f : Word} {x : ℕ} {D : ℕ → Prop}

/-- A file without index block whose pointers lead into the disk. -/
structure Bare (u : Server) (f : Word) : Prop where
  index : u.view (fIndirect f) = 0#32
  direct : ∀ i < 10, (u.view (fDirect f (BitVec.ofNat 32 i))).toNat < 262144

theorem Bare.flushable (h : Bare u f) (hr : Record u f b x) : Flushable u f := by
  refine ⟨⟨b, x, hr⟩, fun h0 => absurd h.index h0, fun i _ => ?_⟩
  unfold Server.ptr
  by_cases h10 : i < 10
  · rw [if_pos h10]
    exact h.direct i h10
  · rw [if_neg h10, if_pos h.index]
    decide

theorem Shortened.bare (hm : Mounted s) (hf : Held s f b x) (hd : Dropped s s' f b x D)
    (hs : Shortened s' u f b x 0#32) : Bare u f := by
  have hcut : cutAt 0#32 = 0 := if_pos rfl
  have hm' := hd.mounted hm
  have hf' := hf.dropped hd
  refine ⟨?_, fun i hi => ?_⟩
  · rw [hs.index, hcut, if_pos (Nat.zero_le 10)]
  · have hptr : u.ptr f i = u.view (fDirect f (BitVec.ofNat 32 i)) := if_pos hi
    rw [← hptr, hf'.ptr_direct hm' hs.touches hi]
    exact (hf'.flushable hm').data i (by omega)

/-- The name of a file that is cleared is none of its pointers. -/
theorem Bare.setByte (h : Bare u f) (hr : Record u f b x) (v : Byte) : Bare (u.setByte f v) f := by
  have hview : ∀ m, 4 ≤ m → m < 256 →
      (u.setByte f v).view (f + BitVec.ofNat 32 m) = u.view (f + BitVec.ofNat 32 m) := by
    intro m hlo hhi
    have hv := hr.view_store (w := (u.view f &&& ~~~(0xff#32 <<< byteShift f)) |||
      (v.setWidth 32 <<< byteShift f)) (n := 0) (m := m) (by omega) hhi
    rw [BitVec.add_zero, if_neg (by omega)] at hv
    exact hv
  refine ⟨?_, fun i hi => ?_⟩
  · have hindex : (u.setByte f v).view (fIndirect f) = u.view (fIndirect f) := hview 176 (by omega) (by omega)
    rw [hindex]
    exact h.index
  · have hi' := h.direct i hi
    rw [fDirect_eq] at hi' ⊢
    rw [hview _ (by omega) (by omega)]
    exact hi'

/-- `file_remove` once the file has been found. -/
theorem wp_removeFile (hs : Sane s) (h : Live s f) : (do
    fileTruncate f 0#32
    storeByte f 0#8
    fileFlush f
    flushDir f : Proc Unit).wp (fun _ _ => True) (Starved s) s := by
  have ht := hs.tree
  obtain ⟨b, x, hseat, hf⟩ := h.held ht
  have hcut : (fileTruncate f 0#32).wp
      (fun r u => (r = .ok () ∧ Cut s u f b x ∧ Bare u f) ∧ Unmarked u) (Starved s) s :=
    (within_fileTruncate f 0#32).unmarked hs.unmarked (wp_fileTruncate ht.mounted hf
      (fun _ _ hd hsh => ⟨rfl, .of_truncate hf hd hsh, hsh.bare ht.mounted hf hd⟩) fun _ => id)
  refine wp_seq hcut (fun _ u hu => ?_) fun _ _ _ => trivial
  obtain ⟨⟨-, hc, hbare⟩, huu⟩ := hu
  have hru := hf.record.touches hc.touches
  rw [wp_bind]
  refine wp_storeByte hru.cached ?_
  have hc' : Cut s (u.setByte f 0#8) f b x := by
    have hset := hc.setWord ht.mounted h.kept hf (k := 0) (w := (u.view f &&& ~~~(0xff#32 <<< byteShift f)) |||
      ((0#8 : Byte).setWidth 32 <<< byteShift f)) (by omega)
    rw [BitVec.add_zero] at hset
    exact hset
  have huu' : Unmarked (u.setByte f 0#8) := setWord_quiet (R := StaysUnmarked) u _ _ huu
  have hm := hc'.touches.mounted (h.kept.not_super hf.record) ht.mounted
  have hflush := (hbare.setByte hru 0#8).flushable (hf.record.touches hc'.touches)
  simp only
  rw [wp_bind]
  refine wp_mono (wp_fileFlush hm hflush huu') (fun r v hv => ?_) fun c hk => hc'.starved hk
  obtain ⟨rfl, hr, huv⟩ := hv
  exact wp_mono (wp_flushDir (hr.mounted id hm) ((hc'.dirFlushable ht h hseat).of_reads hr) huv)
    (fun _ _ _ => trivial) fun c hk => hc'.starved (hk.of_reads hr)

theorem wp_fileRemove (hs : Sane s) (hl : ∀ f, s.Reached f → s.Linked f) (path : List Byte) :
    (fileRemove path).wp (fun _ _ => True) (Starved s) s := by
  unfold fileRemove fileOpen
  rw [wp_bind, wp_bind]
  refine wp_conseq (wp_walkPath_sane hs path) fun r t ht => ?_
  obtain ⟨⟨hmark, htouch, hst⟩, w, rfl, hw, hload⟩ := ht
  cases hw with
  | reached hf =>
    have hreach := reached_resolve (components_ne_nil path) hf
    have hlive := hmark.live hs htouch hf (hl _ hreach) hload
    refine wp_pure.mpr (wp_mono (wp_removeFile hst hlive) (fun _ _ => id) fun c hk => ?_)
    exact hs.tree.toFileTree.starved htouch hk
  | tooLong => exact wp_throw.mpr trivial
  | lastMissing => exact wp_throw.mpr trivial
  | missing => exact wp_throw.mpr trivial

end Remove

/-! ## Opening -/

section Opening

variable {P : Word → Word → Prop} {s t u : Server} {d f : Word} {n : ℕ}

/-- The blocks that will be taken are as before a walk. -/
theorem Server.IndexZero.marked (ht : OwnTree s) (hm : Marks s.Used P s t)
    (h : Touches s.DirWords s t) (hd : s.TreeDir d) (hz : s.IndexZero d n) : t.IndexZero d n := by
  intro hn hno c hc hcc o
  have hft := ht.toFileTree
  have hind := ((ht.kept hd.1).ptr_eq ht h (i := 0) (by omega)).1
  have hnext : s.Next c := by
    unfold Server.Next at hc ⊢
    simp only [hft.spare_iff h] at hc
    exact hc
  have hcs : s.Cached (blockVa c) := by
    refine (hm.pages _ hcc).resolve_right ?_
    rw [hnext.1.blockOf ht.mounted]
    exact hnext.1.not_used
  rw [h.block c o]
  · exact hz hn (fun hhas => hno ((hasSlot_congr hind).mpr hhas)) c hnext hcs o
  · rintro ⟨⟨e, he, i, hi, rfl⟩, -⟩
    exact hnext.1.not_used (ht.present e he i hi).2

theorem FileTree.freeEntry_eq (ht : FileTree s) (h : Touches s.DirWords s t) (hd : s.TreeDir d) :
    t.freeEntry d = s.freeEntry d := by
  unfold Server.freeEntry
  rw [ht.files_eq h hd]
  exact List.find?_congr fun f hf => by rw [ht.byte h hd hf]

/-- `file_create` does not stop the server. -/
theorem wp_fileCreate_sane (hs : Sane s)
    (hz : ∀ d, s.TreeDir d → s.freeEntry d = none → s.IndexZero d (s.nblock d)) (path : List Byte) :
    (fileCreate path).wp (fun r t => ∀ f, r = .ok f → Loaded t f) (Starved s) s := by
  have hft := hs.tree.toFileTree
  unfold fileCreate
  rw [wp_bind]
  refine wp_conseq (wp_walkPath_sane hs path) fun r t ht => ?_
  obtain ⟨⟨hmark, htouch, hst⟩, w, rfl, hw, hload⟩ := ht
  cases w with
  | found dir f => exact wp_throw.mpr (by simp)
  | failed e => exact wp_throw.mpr (by simp)
  | missing d name =>
    obtain ⟨pre, hcs, hpre, -, hlen, hdir⟩ := hw.missing_inv
    have hd : s.TreeDir d := by
      refine ⟨reached_resolve (fun c hc => components_ne_nil path c ?_) hpre, hdir⟩
      rw [hcs]
      exact List.mem_append_left _ hc
    have hroom := wp_dirAllocFile_room (T := fun c => t.nblock d < 1024 ∧ ¬t.HasSlot d (t.nblock d) ∧ t.Next c)
      (E := Starved s) hst.tree ((hft.treeDir_iff htouch).mpr hd) (refl_of Reads t) hload (fun hnone => ?_)
      fun c hk => hft.starved htouch hk
    · simp only
      refine wp_attempt_seq hroom fun r u hu => ?_
      cases r with
      | error e => exact wp_throw.mpr (by simp)
      | ok f =>
        obtain ⟨hl, -⟩ := hu f rfl
        obtain ⟨b, y, hat, hy⟩ := hl.place
        have hmax : maxNameLen = 128 := rfl
        simp only
        rw [wp_bind]
        refine wp_strcpy hat (by omega) (fun k hk => hl.bytes (by omega)) fun v hv => ?_
        refine wp_pure.mpr fun f' hf' => ?_
        obtain rfl := Except.ok.inj hf'
        exact ⟨⟨b, y, hat, hy⟩, hv.touches.cached _ hl.cached⟩
    · rw [hft.freeEntry_eq htouch hd] at hnone
      have hz' := (hz d hd hnone).marked hs.tree hmark htouch hd
      rw [← hft.nblock_eq htouch hd.1] at hz'
      exact ⟨fresh_indexZero hst.spare hz', fun hn hno c hc => ⟨hn, hno, hc⟩⟩

theorem wp_fileOpen_sane (hs : Sane s) (path : List Byte) :
    (fileOpen path).wp (fun r t => ∀ f, r = .ok f → Loaded t f) (Starved s) s := by
  have hft := hs.tree.toFileTree
  unfold fileOpen
  rw [wp_bind]
  refine wp_conseq (wp_walkPath_sane hs path) fun r t ht => ?_
  obtain ⟨-, w, rfl, hw, hload⟩ := ht
  cases hw with
  | reached hf =>
    refine wp_pure.mpr fun f hf' => ?_
    obtain rfl := Except.ok.inj hf'
    obtain ⟨b, x, hseat⟩ := hft.seat (reached_listed (reached_resolve (components_ne_nil path) hf))
    exact ⟨⟨b, x, hseat.place, hseat.room.2⟩, hload.1⟩
  | tooLong => exact wp_throw.mpr (by simp)
  | lastMissing => exact wp_throw.mpr (by simp)
  | missing => exact wp_throw.mpr (by simp)

theorem wp_openFile_sane (hs : Sane s)
    (hz : ∀ d, s.TreeDir d → s.freeEntry d = none → s.IndexZero d (s.nblock d)) (path : List Byte)
    (omode : Word) :
    (openFile path omode).wp (fun r t => ∀ f, r = .ok f → Loaded t f) (Starved s) s := by
  unfold openFile
  rw [wp_ite]
  refine ⟨fun _ => wp_fileCreate_sane hs hz path, fun _ => ?_⟩
  rw [wp_ite]
  refine ⟨fun _ => ?_, fun _ => wp_fileOpen_sane hs path⟩
  rw [wp_bind]
  refine wp_conseq (wp_fileCreate_sane hs hz path) fun r t hr => ?_
  cases r with
  | error e => simp
  | ok f =>
    have hl := hr f rfl
    simp only
    rw [wp_bind]
    refine wp_store (hl.bytes (k := 132) (by omega)) (wp_pure.mpr fun f' hf' => ?_)
    obtain rfl := Except.ok.inj hf'
    exact ⟨hl.place, cached_setWord hl.cached⟩

theorem wp_copyFile {E : Stop → Prop} (h : Loaded s f) : (copyFile f).wp (fun _ _ => True) E s := by
  unfold copyFile
  rw [wp_bind]
  refine wp_touch h.cached ?_
  simp only
  rw [wp_bind]
  refine wp_touch (h.bytes (k := 252) (by omega)) ?_
  rw [wp_get_bind]
  exact wp_pure.mpr trivial

theorem Sane.table (hs : Sane s) (h : TableOnly s t) : Sane t := by
  refine hs.marked h.reads.touches fun v c hc => ?_
  rw [h.pages] at hc
  exact hs.unmarked v c hc

end Opening

/-! ## All requests -/

section Requests

variable {α : Type} {s : Server} {fileid : Word}

/-- A run that stops only for want of a frame comes back. -/
theorem Sane.survives {m : Proc α} {Q : Except Err α → Server → Prop} (hs : Sane s)
    (h : m.wp Q (Starved s) s) : Survives m s := by
  cases hm : m s with
  | error c =>
    obtain ⟨⟨-, hg⟩, b, hu, hout⟩ := wp_error h hm
    exact absurd (hs.frames hg b hu) hout
  | ok x => exact survives_of_ok hm

/-- `open_lookup`, then work on the file of the entry. -/
theorem survives_lookup {f : Open → Proc α} (h : ∀ o, s.Accepts fileid o → Survives (f o) s) :
    Survives (do f (← openLookup fileid)) s := by
  have hrun : (∃ o, s.Accepts fileid o) ∨ openLookup fileid s = .ok (.error .inval, s) := by
    unfold Server.Accepts openLookup
    rw [bind_of_ok (m := get) rfl]
    split_ifs
    · exact .inr rfl
    · exact .inl ⟨_, rfl⟩
  rcases hrun with ⟨o, ho⟩ | he
  · obtain ⟨x, hx⟩ := h o ho
    exact ⟨x, (bind_of_ok ho).trans hx⟩
  · exact ⟨_, bind_of_error he⟩

/-- The work of an open request after `open_alloc`. -/
theorem wp_openWork_table {u : Server} (hs : Sane s)
    (hz : ∀ d, s.TreeDir d → s.freeEntry d = none → s.IndexZero d (s.nblock d)) (hu : TableOnly s u)
    (path : List Byte) (omode : Word) :
    (do copyFile (← openFile path omode)).wp (fun _ _ => True) (Starved u) u := by
  have hft := hs.tree.toFileTree
  have hr := hu.reads
  have hmark : Marks s.Used (fun _ _ => False) s u := hr.marks fun _ => id
  rw [wp_bind]
  refine wp_conseq (wp_openFile_sane (hs.table hu) (fun d hd hnone => ?_) path omode) fun r t hl => ?_
  · have hd' := (hft.treeDir_iff hr.touches).mp hd
    rw [hft.freeEntry_eq hr.touches hd'] at hnone
    rw [hft.nblock_eq hr.touches hd'.1]
    exact (hz d hd' hnone).marked hs.tree hmark hr.touches hd'
  · cases r with
    | error e => trivial
    | ok f => exact wp_copyFile (hl f rfl)

/-- No request stops the server. -/
theorem Sane.fileWork (hs : Sane s) {req : Req} (hr : s.Ready req) : Survives (fileWork req) s := by
  have ht := hs.tree
  cases req with
  | «open» path omode =>
    refine (survives_ignore _ s).mpr ?_
    unfold openWork
    refine hs.survives (Q := fun _ _ => True) (wp_attempt_seq (wp_mono (openAllocIn_only _ s) (fun _ _ => id) fun _ => False.elim)
      fun r u hu => ?_)
    exact wp_mono (wp_openWork_table hs hr hu path omode) (fun _ _ => id) fun c hk =>
      hk.of_reads hu.reads
  | map fileid offset =>
    refine (survives_ignore _ s).mpr (survives_lookup fun o ho => ?_)
    obtain ⟨hlive, hz⟩ := hr o ho
    exact hs.survives (wp_fileGetBlock_live hs hlive hz)
  | setSize fileid size =>
    exact survives_lookup fun o ho => hs.survives (wp_fileSetSize hs (hr o ho) size)
  | close fileid =>
    refine survives_lookup fun o ho => ?_
    have hlive := hr o ho
    exact hs.survives (Q := fun _ _ => True) (wp_attempt_seq (wp_fileClose ht.mounted
      (hlive.flushable ht) (hlive.dirFlushable ht) hs.unmarked) fun _ _ _ => wp_pure.mpr trivial)
  | dirty fileid offset =>
    exact survives_lookup fun o ho =>
      hs.survives (wp_fileDirty ht.mounted ((hr o ho).flushable ht) offset)
  | remove path => exact hs.survives (wp_fileRemove hs hr path)
  | sync =>
    exact hs.survives (Q := fun _ _ => True) (wp_attempt_seq (wp_fsSync ht.mounted hs.unmarked)
      fun _ _ _ => wp_pure.mpr trivial)

end Requests

end Fs
end RvMos
