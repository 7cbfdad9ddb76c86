/-
Opening a new file (`serve_open` with `O_CREAT`).

An entry without a name is used again with whatever is left in its record.  Where
there is none the directory gets a block, which is zero if the block to be taken has
no old page in the cache.  Apart from that the file is the only thing that is new.
-/
import RvMos.Fs.NewFile

namespace RvMos

open Lib

namespace Fs

open Sys

/-! ## Writing the name -/

section Frame

variable {W : Word → Index → Prop} {s t u : Server} {c d e f : Word} {y i : ℕ} {o : Index}
  {name : List Byte}

/-- What spares the superblock and the bitmap keeps blocks in use. -/
theorem Touches.used_of (hm : Mounted s) (h : Touches W s t) (h1 : ¬W 1#32 1)
    (hW : ∀ c o, s.BitmapBlock c → ¬W c o) (hu : s.Used c) : t.Used c := by
  have hv := h.view (hW _ (wordIdx (bitWordVa c)) (bitmapBlock_of_at hm (inBitmap_of_lt hu.1)))
  refine ⟨h.nblk h1 ▸ hu.1, fun hfree => hu.2 ?_⟩
  unfold Server.Free at hfree ⊢
  rw [hv] at hfree
  exact hfree

/-- A word of a record by its byte. -/
theorem atField_of (hat : At f e y) (hy : y % 4 = 0) (hlo : y ≤ 4 * o.val) :
    AtField f (4 * o.val - y) e o := by
  have hlt := o.isLt
  have hat' := hat.add (n := 4 * o.val - y) (by omega)
  refine ⟨hat'.blockOf_eq.symm, Fin.ext ?_⟩
  rw [hat'.wordIdx_val]
  omega

/-- The words that a name is in. -/
theorem Written.fields (hw : Written u t f e y (name ++ [0#8])) (hat : At f e y) (hy : y % 256 = 0)
    (hlen : name.length < maxNameLen) :
    Touches (fun c o => ∃ k < 128, AtField f k c o) u t := by
  refine hw.touches.mono fun c o hW => ?_
  obtain ⟨rfl, hlo, hhi⟩ := hW
  have hl : (name ++ [0#8]).length = name.length + 1 := by simp
  have hmax : maxNameLen = 128 := rfl
  exact ⟨4 * o.val - y, by omega, atField_of hat (by omega) (by omega)⟩

/-- A name does not change the fields after it. -/
theorem Written.blank_iff (hw : Written u t f e y (name ++ [0#8])) (hat : At f e y)
    (hy : y % 256 = 0) (hlen : name.length < maxNameLen) : Blank t f ↔ Blank u f := by
  have hoff := hat.offset
  refine Blank.congr fun k hlo hhi => hw.touches.view fun hW => ?_
  have hat' := hat.add (n := k) (by omega)
  have hl : (name ++ [0#8]).length = name.length + 1 := by simp
  have hmax : maxNameLen = 128 := rfl
  have hword := hW.2.2
  rw [hat'.wordIdx_val] at hword
  omega

theorem Reads.blank_iff (h : Reads s t) : Blank t f ↔ Blank s f :=
  Blank.congr fun k _ _ => h.view (f + BitVec.ofNat 32 k)

/-- The name of a free entry. -/
theorem Written.entered (ht : OwnTree s) (hd : s.TreeDir d) (hfree : s.freeEntry d = some f)
    (hr : Reads s u) (hi : i < s.nblock d) (hat : At f (s.ptr d i) y) (hy : y % 256 = 0)
    (hw : Written u t f (s.ptr d i) y (name ++ [0#8])) (h0 : 0#8 ∉ name)
    (hlen : name.length < maxNameLen) : Entered False s t d f (s.ptr d i) y name := by
  have hmem : f ∈ s.files d := List.mem_of_find?_eq_some hfree
  have hbyte : s.byte f = 0#8 := by
    simpa using List.find?_some (p := fun f => decide (s.byte f = 0#8)) hfree
  have hfields := hw.fields hat hy hlen
  have hnear : Near False s t d f (s.ptr d i) y :=
    ⟨trans_of (Touches _) hr.touches (hfields.mono fun c o => .inr), hat, hy, .inr ⟨i, hi, rfl⟩,
      fun _ => entryName_eq_nil hbyte⟩
  have hdf : d ≠ f := fun he => hnear.not_reached ht hd (he ▸ hd.1)
  have hptr : ∀ j < s.nblock d, t.ptr d j = s.ptr d j := fun j hj =>
    hnear.ptr ht hd hd.1 (fun _ => id) (lt_of_lt_of_le hj (ht.length d hd))
  have hsize : t.view (fSize d) = s.view (fSize d) :=
    hnear.view_listed ht hd (reached_listed hd.1) hdf (k := 128) (by omega) fun _ => False.elim
  have hfiles : t.files d = s.files d := by
    unfold Server.files Server.nblock
    rw [hsize]
    exact List.flatMap_congr fun j hj => by rw [hptr j (List.mem_range.mp hj)]
  refine ⟨hnear, hptr, ⟨[], by rw [hfiles, List.append_nil], by simp⟩, hfiles ▸ hmem,
    hw.name h0 hlen, fun c hu => ?_⟩
  obtain ⟨h3, -, hout⟩ := ht.owned d hd.1 _ _ (ht.owns_dir hd hi)
  have hoff := hat.offset
  refine (hfields.used_of (hr.mounted id ht.mounted) ?_ ?_ ((hr.toTouches.used_iff c).mpr hu))
  · rintro ⟨k, hk, hW⟩
    rw [← (hW.eq (hat.add (n := k) (by omega))).1] at h3
    exact absurd h3 (by decide)
  · rintro b o hb ⟨k, hk, hW⟩
    rw [(hW.eq (hat.add (n := k) (by omega))).1] at hb
    exact hout ((hr.bitmapBlock _).mp hb)

end Frame

/-! ## A longer directory -/

/-- The directory has got block `c` at its end, a block of zeros. -/
structure Longer (s t : Server) (d c : Word) : Prop where
  spare : s.Spare c
  outside : ¬s.BitmapBlock c
  touches : Touches (s.LongerWords d) s t
  size : t.nblock d = s.nblock d + 1
  new : t.ptr d (s.nblock d) = c
  kept : ∀ i < s.nblock d, t.ptr d i = s.ptr d i
  index : (t.view (fIndirect d)).toNat < 262144 ∧ t.view (fIndirect d) ≠ c
  zero : ∀ o, t.block c o = 0#32
  cached : t.Cached (blockVa c)
  used : ∀ c', s.Used c' → t.Used c'

section Longer

variable {s t u : Server} {b c d f va : Word} {y i : ℕ} {name : List Byte}

theorem Longer.at_block (ht : FileTree s) (h : Longer s u d c) : At (blockVa c) c 0 :=
  at_blockVa (lt_capacity ht.mounted h.spare.2.1)

/-- The superblock and the bitmap of a directory that grows. -/
theorem not_longerWords_super (ht : OwnTree s) (hd : s.TreeDir d) : ¬s.LongerWords d 1#32 1 := by
  have h1 : ((1 : Index).val) = 1 := rfl
  rintro (hW | hW | ⟨k, hlo, hhi, -, hW⟩ | ⟨hW, h0⟩)
  · exact not_allocWords_super hW
  · exact absurd hW.1 (by decide)
  · obtain ⟨c', x, hseat⟩ := ht.toFileTree.seat (reached_listed hd.1)
    have ho := (hW.eq (hseat.at_field (k := k) (by omega))).2
    omega
  · exact absurd (ht.owned d hd.1 none _ ⟨hW.symm, h0⟩).1 (by decide)

/-- A name in the new block changes nothing else. -/
theorem Written.view_out (hw : Written u t (blockVa c) c 0 (name ++ [0#8])) (ha : At va b y)
    (hbc : b ≠ c) : t.view va = u.view va := by
  refine hw.touches.view fun hW => hbc ?_
  rw [ha.blockOf_eq] at hW
  exact hW.1

theorem Written.ptr_longer (ht : OwnTree s) (hd : s.TreeDir d) (hl : Longer s u d c)
    (hw : Written u t (blockVa c) c 0 (name ++ [0#8])) (hi : i < 1024) : t.ptr d i = u.ptr d i := by
  obtain ⟨b, x, hseat⟩ := ht.toFileTree.seat (reached_listed hd.1)
  have hbc : b ≠ c := fun he => not_spare_of (hseat.used ht.toFileTree).2 (he ▸ hl.spare)
  have hview : ∀ k < 256, t.view (d + BitVec.ofNat 32 k) = u.view (d + BitVec.ofNat 32 k) :=
    fun k hk => hw.view_out (hseat.at_field hk) hbc
  have hind : t.view (fIndirect d) = u.view (fIndirect d) := hview 176 (by omega)
  unfold Server.ptr
  by_cases h10 : i < 10
  · rw [if_pos h10, if_pos h10, fDirect_eq]
    exact hview _ (by omega)
  · rw [if_neg h10, if_neg h10, hind]
    by_cases h0 : u.view (fIndirect d) = 0#32
    · rw [if_pos h0, if_pos h0]
    · rw [if_neg h0, if_neg h0]
      exact hw.view_out ((at_blockVa hl.index.1).add (n := 4 * i) (by omega)) hl.index.2

/-- The first name in the new block. -/
theorem Written.entered_longer (ht : OwnTree s) (hd : s.TreeDir d) (hl : Longer s u d c)
    (hw : Written u t (blockVa c) c 0 (name ++ [0#8])) (h0 : 0#8 ∉ name)
    (hlen : name.length < maxNameLen) (hn : s.nblock d < 1024) :
    Entered True s t d (blockVa c) c 0 name ∧ Blank t (blockVa c) := by
  have hat := hl.at_block ht.toFileTree
  have hfields := hw.fields hat rfl hlen
  obtain ⟨b, x, hseat⟩ := ht.toFileTree.seat (reached_listed hd.1)
  have hbc : b ≠ c := fun he => not_spare_of (hseat.used ht.toFileTree).2 (he ▸ hl.spare)
  have hnblk := hl.touches.nblk (not_longerWords_super ht hd)
  have hsize : t.nblock d = s.nblock d + 1 := by
    rw [← hl.size]
    exact congrArg (fun w => w.toNat / 4096) (hw.view_out (hseat.at_field (k := 128) (by omega)) hbc)
  have hfiles : t.files d = s.files d ++ blockFiles (blockVa c) := by
    unfold Server.files
    rw [hsize, List.range_succ, List.flatMap_append, List.flatMap_singleton,
      hw.ptr_longer ht hd hl hn, hl.new]
    refine congrArg (· ++ _) (List.flatMap_congr fun i hi => ?_)
    have hlt := List.mem_range.mp hi
    rw [hw.ptr_longer ht hd hl (by omega), hl.kept i hlt]
  have hzero : ∀ va y, At va c y → u.view va = 0#32 := fun va y ha => by
    rw [ha.view_block]
    exact hl.zero _
  refine ⟨⟨⟨trans_of (Touches _) (hl.touches.mono fun c o hW => .inl ⟨trivial, hW⟩)
      (hfields.mono fun c o => .inr), hat, rfl, .inl hl.spare, fun hf => ?_⟩, fun i hi => ?_,
    ⟨_, hfiles, fun r hr hrf => ?_⟩, ?_, hw.name h0 hlen, fun c' hu => ?_⟩, ?_⟩
  · obtain ⟨i, hi, j, -, hat'⟩ := mem_files_at ht.toFileTree hd hf
    have hu := (ht.present d hd i hi).2
    rw [← (hat.addr_inj hat').1] at hu
    exact absurd hu hl.spare.not_used
  · rw [hw.ptr_longer ht hd hl (by omega), hl.kept i hi]
  · obtain ⟨j, hj, hat'⟩ := mem_blockFiles hat.block hr
    have hl1 : (name ++ [0#8]).length = name.length + 1 := by simp
    have hmax : maxNameLen = 128 := rfl
    have hj0 : j ≠ 0 := fun hj0 => hrf (by
      subst hj0
      exact hat'.inj hat)
    refine entryName_eq_nil ?_
    rw [hw.others r c _ hat' fun hh => by omega]
    unfold Server.byte
    rw [hzero r _ hat']
    simp
  · rw [hfiles]
    exact List.mem_append_right _ (List.mem_map.mpr ⟨0, by decide, by simp⟩)
  · refine hfields.used_of (hl.touches.mounted (not_longerWords_super ht hd) ht.mounted) ?_ ?_ (hl.used c' hu)
    · rintro ⟨k, hk, hW⟩
      have h3 := hl.spare.1
      rw [← (hW.eq (hat.add (n := k) (by omega))).1] at h3
      exact absurd h3 (by decide)
    · rintro b' o hb ⟨k, hk, hW⟩
      rw [(hW.eq (hat.add (n := k) (by omega))).1] at hb
      refine hl.outside ?_
      unfold Server.BitmapBlock at hb ⊢
      rw [hnblk] at hb
      exact hb
  · refine (hw.blank_iff hat rfl hlen).mpr ⟨?_, ?_, fun i hi => ?_, ?_⟩
    · exact hzero _ _ (hat.add (n := 128) (by omega))
    · exact hzero _ _ (hat.add (n := 132) (by omega))
    · rw [fDirect_eq]
      exact hzero _ _ (hat.add (n := 136 + 4 * i) (by omega))
    · exact hzero _ _ (hat.add (n := 176) (by omega))

end Longer

/-! ## `dir_alloc_file` -/

/-- The size of the directory has been set. -/
structure Resized (s t : Server) (d w : Word) : Prop where
  touches : Touches (AtField d 128) s t
  nblk : t.nblk = s.nblk
  free : ∀ c, c < s.nblk → (t.Free c ↔ s.Free c)
  size : t.view (fSize d) = w

section Resized

variable {s t u : Server} {b c d w : Word} {x i n : ℕ}

theorem Resized.bitmapBlock (h : Resized s t d w) (c : Word) : t.BitmapBlock c ↔ s.BitmapBlock c := by
  unfold Server.BitmapBlock
  rw [h.nblk]

theorem Resized.used_iff (h : Resized s t d w) : t.Used c ↔ s.Used c := by
  unfold Server.Used
  rw [h.nblk]
  exact and_congr_right fun hlt => not_congr (h.free c hlt)

theorem Resized.spare_iff (h : Resized s t d w) (c : Word) : t.Spare c ↔ s.Spare c := by
  unfold Server.Spare
  rw [h.nblk]
  exact and_congr_right fun _ => and_congr_right fun hlt => h.free c hlt

/-- The other words of the record are as before. -/
theorem Resized.view (hseat : Seat s d b x) (h : Resized s t d w) {k : ℕ} (hk : k < 256)
    (hne : k / 4 ≠ 32) : t.view (d + BitVec.ofNat 32 k) = s.view (d + BitVec.ofNat 32 k) := by
  have hroom := hseat.room
  refine h.touches.view fun hW => ?_
  have ho := (hW.eq (hseat.at_field (k := 128) (by omega))).2
  rw [(hseat.at_field hk).wordIdx_val] at ho
  omega

theorem Resized.ptr (ht : OwnTree s) (hd : s.TreeDir d) (hseat : Seat s d b x) (h : Resized s t d w)
    (hi : i < 1024) : t.ptr d i = s.ptr d i := by
  have hind : t.view (fIndirect d) = s.view (fIndirect d) := h.view hseat (k := 176) (by omega) (by omega)
  unfold Server.ptr
  by_cases h10 : i < 10
  · rw [if_pos h10, if_pos h10, fDirect_eq]
    exact h.view hseat (by omega) (by omega)
  · rw [if_neg h10, if_neg h10, hind]
    by_cases h0 : s.view (fIndirect d) = 0#32
    · rw [if_pos h0, if_pos h0]
    · rw [if_neg h0, if_neg h0]
      have hown : s.Owns d none (s.view (fIndirect d)) := ⟨rfl, h0⟩
      have hat := (at_blockVa (lt_capacity ht.mounted (ht.owned d hd.1 _ _ hown).2.1.1)).add
        (n := 4 * i) (by omega)
      refine h.touches.view fun hW => ?_
      rw [hat.blockOf_eq] at hW
      obtain ⟨j, hj⟩ := hseat.owner ht hd.1
        ((hW.eq (hseat.at_field (k := 128) (by omega))).1 ▸ hown)
      exact absurd hj (by simp)

/-- A store to the size of a directory. -/
theorem Resized.of_store (ht : OwnTree s) (hseat : Seat s d b x) (hr : Reads s u) (hc : u.Cached d) :
    Resized s (u.setWord (fSize d) w) d w ∧ Mounted (u.setWord (fSize d) w) ∧
      ∀ T, Fresh T s → Fresh T (u.setWord (fSize d) w) := by
  obtain ⟨hout, hu⟩ := hseat.used ht.toFileTree
  have hmu := hr.mounted id ht.mounted
  have hroom := hseat.room
  have hat : At (fSize d) b (x + 128) := hseat.at_field (by omega)
  have hcs : u.Cached (fSize d) := (hseat.record ht.toFileTree hc).cached_field (n := 128) (by omega)
  have hw : Touches (AtField d 128) u (u.setWord (fSize d) w) := touches_setWord hcs ⟨rfl, rfl⟩
  have hsuper : ¬AtField d 128 1#32 1 := fun hW => by
    have h1 : ((1 : Index).val) = 1 := rfl
    have ho := (hW.eq (hseat.at_field (k := 128) (by omega))).2
    omega
  have hout' : ¬u.BitmapBlock b := fun hb => hout ((hr.bitmapBlock b).mp hb)
  have hn : (u.setWord (fSize d) w).nblk = s.nblk := (hw.nblk hsuper).trans hr.nblk
  refine ⟨⟨trans_of (Touches _) hr.touches hw, hn, fun c hlt => ?_, ?_⟩, hw.mounted hsuper hmu,
    fun T hf => (hf.of_reads ht.mounted hr).setWord hmu hcs hat hout' ?_ (by omega)⟩
  · rw [← hr.free]
    refine free_setWord hcs fun he => hout' ?_
    rw [← hat.blockOf_eq, ← he]
    exact bitmapBlock_of_at hmu (inBitmap_of_lt (hr.nblk.symm ▸ hlt))
  · rw [view_setWord hcs, if_pos ⟨rfl, rfl⟩]
  · exact not_spare_of (hu.imp_right (hr.toTouches.used_iff b).mpr)

theorem takes_congr (hs : ∀ c, t.Spare c ↔ s.Spare c) (hi : t.view (fIndirect d) = s.view (fIndirect d)) :
    t.Takes d n c ↔ s.Takes d n c := by
  unfold Server.Takes Server.Next Server.NextAfter
  simp only [hs, hasSlot_congr hi]

/-- The directory has got its block. -/
theorem Grown.longer (ht : OwnTree s) (hd : s.TreeDir d) (hseat : Seat s d b x)
    (h : Resized s u d (s.view (fSize d) + by2blk)) (hg : Grown u t d b x (s.nblock d) c)
    (hn : s.nblock d < 1024) : Longer s t d c := by
  have hroom := hseat.room
  obtain ⟨hout, hu⟩ := hseat.used ht.toFileTree
  have hind : u.view (fIndirect d) = s.view (fIndirect d) := h.view hseat (k := 176) (by omega) (by omega)
  refine ⟨(h.spare_iff c).mp hg.spare, fun hb => hg.outside ((h.bitmapBlock c).mpr hb), ?_, ?_, hg.new,
    fun i hi => ?_, hg.index, hg.zero, hg.cached, fun c' hu => hg.used c' (h.used_iff.mpr hu)⟩
  · refine trans_of (Touches _) (h.touches.mono fun c o hW => ?_) (hg.touches.mono fun c o hW => ?_)
    · exact .inr (.inr (.inl ⟨128, by omega, by omega, by omega, hW⟩))
    · rcases hW with hW | hW | ⟨rfl, hlo, hhi⟩ | ⟨rfl, h0⟩
      · exact .inl (hW.imp_left (h.bitmapBlock c).mp)
      · exact .inr (.inl ((h.spare_iff c).mp hW))
      · exact .inr (.inr (.inl ⟨4 * o.val - x, by omega, by omega, by omega,
          atField_of hseat.place hroom.1 (by omega)⟩))
      · exact .inr (.inr (.inr ⟨hind, h0⟩))
  · have hat : At (fSize d) b (x + 128) := hseat.at_field (by omega)
    have hkeep : t.view (fSize d) = u.view (fSize d) := by
      refine hg.touches.view ?_
      rw [hat.blockOf_eq]
      rintro ((hW | hW) | hW | ⟨-, hlo, -⟩ | ⟨hW, h0⟩)
      · exact hout ((h.bitmapBlock b).mp hW)
      · exact absurd hat.block (not_lt.mpr hW)
      · exact not_spare_of hu ((h.spare_iff b).mp hW)
      · rw [hat.wordIdx_val] at hlo
        omega
      · rw [hind] at hW h0
        obtain ⟨i, hi⟩ := hseat.owner ht (o := none) hd.1 ⟨hW.symm, hW ▸ h0⟩
        exact absurd hi (by simp)
    have h4 : by2blk.toNat = 4096 := rfl
    unfold Server.nblock at hn ⊢
    rw [hkeep, h.size, BitVec.toNat_add, h4]
    omega
  · rw [hg.kept i (by omega) (by omega), h.ptr ht hd hseat (by omega)]

end Resized

/-- What `dir_alloc_file` returns: the first entry without a name, or the first of a
new block. -/
def Room (s t : Server) (d f : Word) : Prop :=
  (s.freeEntry d = some f ∧ Reads s t ∧ ∀ k < 256, t.Cached (f + BitVec.ofNat 32 k)) ∨
    (s.freeEntry d = none ∧ s.nblock d < 1024 ∧ ∃ c, f = blockVa c ∧ Longer s t d c)

section Room

variable {T : Word → Prop} {s u : Server} {d : Word} {E : Stop → Prop}

/-- The 256 bytes of a record are in the cache. -/
structure Loaded (t : Server) (f : Word) : Prop where
  place : ∃ b y, At f b y ∧ y + 256 ≤ 4096
  cached : t.Cached f

theorem Loaded.bytes {t : Server} {f : Word} (h : Loaded t f) {k : ℕ} (hk : k < 256) :
    t.Cached (f + BitVec.ofNat 32 k) := by
  obtain ⟨b, y, hat, hy⟩ := h.place
  exact h.cached.of_vpn ((hat.add (n := k) (by omega)).vpn_eq.trans hat.vpn_eq.symm)

/-- `file_get_block` of the block after the end of a directory. -/
theorem wp_fileGetBlock_longer (ht : OwnTree s) (hd : s.TreeDir d) (hr : Reads s u) (hc : u.Cached d)
    (hfree : s.freeEntry d = none) (hfresh : Fresh T s)
    (hidx : s.nblock d < 1024 → ¬s.HasSlot d (s.nblock d) → ∀ c, s.Next c → T c)
    (hE : ∀ c, Starved s c → E c) :
    (fileGetBlock d (BitVec.ofNat 32 (s.nblock d))).wp (fun r t => ∀ f, r = .ok f →
        Loaded t f ∧ ((∀ c, s.Takes d (s.nblock d) c → T c) → Room s t d f))
      E (u.setWord (fSize d) (s.view (fSize d) + by2blk)) := by
  have hlen := ht.length d hd
  by_cases hn : s.nblock d < 1024
  · obtain ⟨b, x, hseat⟩ := ht.toFileTree.seat (reached_listed hd.1)
    obtain ⟨hrs, hm, hf⟩ := Resized.of_store ht hseat (w := s.view (fSize d) + by2blk) hr hc
    obtain ⟨hout, hu⟩ := hseat.used ht.toFileTree
    have hind := hrs.view hseat (k := 176) (by omega) (by omega)
    have htakes := fun c => takes_congr (d := d) (n := s.nblock d) (c := c) hrs.spare_iff hind
    refine wp_mono (wp_fileGetBlock_place hm (hseat.record ht.toFileTree (cached_setWord hc))
      (fun hb => hout ((hrs.bitmapBlock b).mp hb)) (hu.imp_right hrs.used_iff.mpr) (hf _ hfresh) ?_ hn ?_
      (fun hno c hnext => ?_) fun _ => id) (fun r t hr f hf => ?_)
      fun c hs => hE c (hs.back hrs.touches fun _ hu => .inl (hrs.used_iff.mp hu))
    · intro h0
      rw [show (u.setWord (fSize d) (s.view (fSize d) + by2blk)).view (fIndirect d) = _ from hind] at h0 ⊢
      have hown : s.Owns d none (s.view (fIndirect d)) := ⟨rfl, h0⟩
      obtain ⟨-, hused, hob⟩ := ht.owned d hd.1 _ _ hown
      refine ⟨hrs.used_iff.mpr hused, fun hb => hob ((hrs.bitmapBlock _).mp hb), fun he => ?_⟩
      obtain ⟨i, hi⟩ := hseat.owner ht hd.1 (he ▸ hown)
      exact absurd hi (by simp)
    · rw [hrs.ptr ht hd hseat hn]
      exact ht.ends d hd _ hn (le_refl _)
    · refine hidx hn (fun hhas => hno ((hasSlot_congr hind).mpr hhas)) c ?_
      unfold Server.Next at hnext ⊢
      simp only [hrs.spare_iff] at hnext
      exact hnext
    · obtain ⟨c, rfl, hlt, hct, hg⟩ := hr f hf
      refine ⟨⟨⟨c, 0, at_blockVa hlt, by omega⟩, hct⟩, fun hT => ?_⟩
      have hgrown := hg fun c' hc' => hT c' ((htakes c').mp hc')
      exact .inr ⟨hfree, hn, c, rfl, hgrown.longer ht hd hseat hrs hn⟩
  · have hn : s.nblock d = 1024 := by omega
    rw [hn]
    unfold fileGetBlock fileMapBlock
    rw [wp_bind, wp_bind]
    exact wp_fileBlockWalk_big (by decide) (by simp)

/-- `dir_alloc_file` finds an entry or makes room for one. -/
theorem wp_dirAllocFile_room (ht : OwnTree s) (hd : s.TreeDir d) (h : Reads s u) (hc : u.Cached d)
    (hfresh : s.freeEntry d = none → Fresh T s ∧
      (s.nblock d < 1024 → ¬s.HasSlot d (s.nblock d) → ∀ c, s.Next c → T c))
    (hE : ∀ c, Starved s c → E c) :
    (dirAllocFile d).wp (fun r t => ∀ f, r = .ok f →
      Loaded t f ∧ ((∀ c, s.Takes d (s.nblock d) c → T c) → Room s t d f)) E u := by
  refine wp_dirAllocFile ht.toFileTree hd h hc (fun f t hf hr hpage f' hf' => ?_)
    (fun t hnone hr hct _ => wp_fileGetBlock_longer ht hd hr hct hnone (hfresh hnone).1
      (hfresh hnone).2 hE) hE
  obtain rfl := Except.ok.inj hf'
  obtain ⟨i, hi, j, hj, hat⟩ := mem_files_at ht.toFileTree hd (List.mem_of_find?_eq_some hf)
  have hcf := hpage 0 (by omega)
  rw [BitVec.add_zero] at hcf
  exact ⟨⟨⟨_, _, hat, by omega⟩, hcf⟩, fun _ => .inl ⟨hf, hr, hpage⟩⟩

end Room

/-! ## `file_create` -/

/-- A file has got its entry; it is blank unless an entry with something in it has been
used again. -/
def Created (s t : Server) (d f : Word) (name : List Byte) : Prop :=
  (∃ G e y, Entered G s t d f e y name) ∧ (Blank t f ↔ ∀ g, s.freeEntry d = some g → Blank s g) ∧
    ∀ k < 256, t.Cached (f + BitVec.ofNat 32 k)

section Create

variable {s t u : Server} {d f : Word} {name path : List Byte} {cs : List (List Byte)}

theorem Outcome.missing_inv (h : Outcome s cs (.missing d name)) : ∃ pre, cs = pre ++ [name] ∧
    s.resolve pre = some d ∧ s.child d name = none ∧ name.length < maxNameLen ∧ s.IsDir d := by
  cases h with
  | lastMissing hs hlt hdir =>
    obtain ⟨pre, hcs, hpre, hmiss⟩ := hs
    exact ⟨pre, hcs, hpre, hmiss, hlt, hdir⟩

theorem wp_strcpy_room (ht : OwnTree s) (hd : s.TreeDir d) (h : Room s u d f) (h0 : 0#8 ∉ name)
    (hlen : name.length < maxNameLen) :
    (strcpy f name).wp (fun r t => r = .ok () ∧ Created s t d f name) (fun _ => True) u := by
  have hmax : maxNameLen = 128 := rfl
  rcases h with ⟨hfree, hr, hpage⟩ | ⟨hfree, hn, c, rfl, hl⟩
  · have hmem : f ∈ s.files d := List.mem_of_find?_eq_some hfree
    obtain ⟨i, hi, j, hj, hat⟩ := mem_files_at ht.toFileTree hd hmem
    have hy : 256 * j % 256 = 0 := Nat.mul_mod_right 256 j
    refine wp_strcpy hat (by omega) (fun k hk => hpage k (by omega)) fun t hw => ⟨rfl,
      ⟨_, _, _, hw.entered ht hd hfree hr hi hat hy h0 hlen⟩, ?_, fun k hk =>
        hw.touches.cached _ (hpage k hk)⟩
    rw [hw.blank_iff hat hy hlen, hr.blank_iff, hfree]
    simp
  · have hat := hl.at_block ht.toFileTree
    have hpage : ∀ k < 256, u.Cached (blockVa c + BitVec.ofNat 32 k) := fun k hk =>
      hl.cached.of_vpn ((hat.add (n := k) (by omega)).vpn_eq.trans hat.vpn_eq.symm)
    refine wp_strcpy hat (by omega) (fun k hk => hpage k (by omega)) fun t hw => ?_
    obtain ⟨he, hb⟩ := hw.entered_longer ht hd hl h0 hlen hn
    refine ⟨rfl, ⟨_, _, _, he⟩, iff_of_true hb ?_, fun k hk => hw.touches.cached _ (hpage k hk)⟩
    rw [hfree]
    simp

theorem wp_fileCreate_new (ht : OwnTree s) (hr : Reads s u)
    (hset : ∀ d f, s.OnPath (components path) d f → s.view (fDir f) = d)
    (ho : Outcome s (components path) (.missing d name))
    (hfresh : s.freeEntry d = none → Fresh (s.Takes d (s.nblock d)) s) :
    (fileCreate path).wp (fun r t => ∀ f, r = .ok f → Created s t d f name) (fun _ => True) u := by
  obtain ⟨pre, hcs, hpre, -, hlen, hdir⟩ := ho.missing_inv
  have hmem : name ∈ components path := by
    rw [hcs]
    simp
  have hd : s.TreeDir d := by
    refine ⟨reached_resolve (fun c hc => components_ne_nil path c ?_) hpre, hdir⟩
    rw [hcs]
    exact List.mem_append_left _ hc
  unfold fileCreate
  rw [wp_bind]
  refine wp_mono (wp_walkPath_from ht.toFileTree hr.touches path) (fun r t hw => ?_) fun _ _ => trivial
  obtain ⟨hmark, w, rfl, hw, hload⟩ := hw
  have hreads : Reads s t := (trans_of (Marks _ _) (hr.marks fun _ => id) hmark).reads hset
  obtain rfl := hw.unique ho
  simp only
  refine wp_attempt_seq (wp_dirAllocFile_room ht hd hreads hload
    (fun hnone => ⟨hfresh hnone, fun _ _ c => .inl⟩) fun _ _ => trivial) fun r t' hroom => ?_
  cases r with
  | error e => exact wp_throw.mpr (by simp)
  | ok f =>
    have hroom' := (hroom f rfl).2 fun _ => id
    simp only
    rw [wp_bind]
    refine wp_conseq (wp_strcpy_room ht hd hroom' (component_terminated hmem) hlen)
      fun r v hv => ?_
    obtain ⟨rfl, hc⟩ := hv
    refine wp_pure.mpr fun f' hf' => ?_
    obtain rfl := Except.ok.inj hf'
    exact hc

theorem Entered.then_reads {G : Prop} {e : Word} {y : ℕ} (h : Entered G s t d f e y name)
    (hr : Reads t u) : Entered G s u d f e y name := by
  have hv : u.view = t.view := funext hr.view
  have hname : u.entryName = t.entryName := by
    funext g
    unfold Server.entryName
    rw [bytesAt_congr fun k _ => congrFun hv _]
  obtain ⟨l, hfiles, hl⟩ := h.files
  refine ⟨⟨trans_of (Touches _) h.touches hr.touches, h.place, h.aligned, h.block, h.nameless⟩,
    fun i hi => ?_, ⟨l, ?_, fun g hg hgf => ?_⟩, ?_, ?_, fun c hu => (hr.toTouches.used_iff c).mpr (h.used c hu)⟩
  · rw [ptr_congr hv]
    exact h.kept i hi
  · rw [files_congr hv]
    exact hfiles
  · rw [hname]
    exact hl g hg hgf
  · rw [files_congr hv]
    exact h.mem
  · rw [hname]
    exact h.name

theorem Created.then_reads (h : Created s t d f name) (hr : Reads t u) : Created s u d f name := by
  obtain ⟨⟨G, e, y, he⟩, hb, hc⟩ := h
  exact ⟨⟨G, e, y, he.then_reads hr⟩, hr.blank_iff.trans hb, fun k hk => hr.cached _ (hc k hk)⟩

end Create

/-! ## `serve_open` -/

section Open

variable {s t u : Server} {d f : Word} {name path : List Byte}

/-- The open table, the replies and the kernel's answers are no part of the file system. -/
def TableOnly (s t : Server) : Prop :=
  ∃ o l g, g <:+ s.grants ∧ t = { s with opentab := o, sent := l, grants := g }

instance : IsPreorder Server TableOnly where
  refl s := ⟨s.opentab, s.sent, s.grants, List.suffix_rfl, rfl⟩
  trans := by
    rintro s t u ⟨o, l, g, hg, rfl⟩ ⟨o', l', g', hg', rfl⟩
    exact ⟨o', l', g', hg'.trans hg, rfl⟩

theorem TableOnly.reads (h : TableOnly s t) : Reads s t := by
  obtain ⟨o, l, g, hg, rfl⟩ := h
  exact ⟨⟨rfl, rfl, fun _ => id, fun _ _ _ => rfl, hg⟩, fun _ => .inl⟩

theorem TableOnly.pages (h : TableOnly s t) : t.pages = s.pages := by
  obtain ⟨o, l, g, -, rfl⟩ := h
  rfl

theorem setOpen_only (i : Fin 1024) (g : Open → Open) :
    Keeps TableOnly (fun _ => False) (setOpen i g) :=
  keeps_modify fun s => ⟨_, s.sent, s.grants, List.suffix_rfl, rfl⟩

theorem ipcSend_only (whom value srcva perm : Word) :
    Keeps TableOnly (fun _ => False) (ipcSend whom value srcva perm) :=
  keeps_modify fun s => ⟨s.opentab, _, s.grants, List.suffix_rfl, rfl⟩

theorem granted_only : Keeps TableOnly (fun _ => False) granted := fun s =>
  wp_granted ⟨s.opentab, s.sent, _, List.tail_suffix _, rfl⟩

theorem openAllocIn_only (is : List (Fin 1024)) : Keeps TableOnly (fun _ => False) (openAllocIn is) := by
  have hsel : ∀ i, Keeps TableOnly (fun _ => False) (selectOpen i) := fun i =>
    keeps_bind (setOpen_only i _) fun _ => keeps_pure i
  induction is with
  | nil => exact keeps_throw _
  | cons i is ih =>
    refine keeps_bind keeps_get fun s => keeps_ite (keeps_bind ?_ fun _ => hsel i)
      (keeps_ite (hsel i) ih)
    exact keeps_bind granted_only fun g => keeps_ite (setOpen_only i _) (keeps_throw _)

theorem allocOrSend_only (whom : Word) : Keeps TableOnly (fun _ => False) (allocOrSend whom) := by
  refine keeps_bind (keeps_attempt (openAllocIn_only _)) fun r => ?_
  cases r with
  | error e => exact keeps_bind (ipcSend_only _ _ _ _) fun _ => keeps_pure none
  | ok o =>
    exact keeps_bind keeps_get fun s => keeps_bind (keeps_when (ipcSend_only _ _ _ _)) fun _ =>
      keeps_pure (some o)

theorem allocOrSend_noError (whom : Word) : NoError (allocOrSend whom) := by
  refine noError_bind noError_attempt fun r => ?_
  cases r with
  | error e => exact noError_bind (noError_modify _) fun _ => noError_pure none
  | ok o =>
    exact noError_bind noError_get fun s => noError_bind (noError_when (noError_modify _)) fun _ =>
      noError_pure (some o)

theorem wp_fillOpen {Q : Except Err Unit → Server → Prop} {E : Stop → Prop} {whom omode : Word}
    {o : Fin 1024} (hc : ∀ k < 256, t.Cached (f + BitVec.ofNat 32 k)) (hQ : ∀ u, Reads t u → Q (.ok ()) u) :
    (fillOpen whom o f omode).wp Q E t := by
  have h0 := hc 0 (by omega)
  rw [BitVec.add_zero] at h0
  unfold fillOpen copyFile
  rw [wp_bind, wp_bind]
  refine wp_touch h0 ?_
  simp only
  rw [wp_bind]
  refine wp_touch (hc 252 (by omega)) ?_
  simp only
  rw [wp_get_bind]
  refine wp_pure.mpr ?_
  simp only
  unfold setOpen ipcSend
  rw [wp_modify_bind]
  exact wp_modify.mpr (hQ _ (TableOnly.reads ⟨_, _, _, List.suffix_rfl, rfl⟩))

theorem code_ne_zero (e : Err) : BitVec.ofInt 32 e.code ≠ 0#32 := by
  cases e <;> decide

theorem sendErr_value {whom : Word} {e : Err} {r : Reply}
    (h : (t.sent ++ [(⟨whom, BitVec.ofInt 32 e.code, 0#32, 0#32⟩ : Reply)]).getLast? = some r) :
    r.value ≠ 0#32 := by
  rw [List.getLast?_append, List.getLast?_singleton, Option.some_or] at h
  obtain rfl := Option.some.inj h
  exact code_ne_zero e

end Open

/-- Where no block to be taken has an old page, a file that is created is the one file
that is new exactly if no entry is used again that has something in its record. -/
theorem created_file {s : Server} {whom omode d : Word} {path name : List Byte} (ht : OwnTree s)
    (hset : ∀ d f, s.OnPath (components path) d f → s.view (fDir f) = d)
    (ho : Outcome s (components path) (.missing d name)) (hmode : omode &&& oCreat = oCreat)
    (hfresh : s.freeEntry d = none → Fresh (s.Takes d (s.nblock d)) s) :
    (serveOpen whom path omode).wp (fun _ s' => ∀ r, s'.sent.getLast? = some r → r.value = 0#32 →
      ((∃ f, Added s s' d path f) ↔ ∀ f, s.freeEntry d = some f → Blank s f)) (fun _ => True) s := by
  obtain ⟨pre, hcs, hpre, hmiss, hlen, hdir⟩ := ho.missing_inv
  have hd : s.TreeDir d := by
    refine ⟨reached_resolve (fun c hc => components_ne_nil path c ?_) hpre, hdir⟩
    rw [hcs]
    exact List.mem_append_left _ hc
  unfold serveOpen
  refine wp_seq (wp_mono (wp_and (allocOrSend_only whom s) (allocOrSend_noError whom s))
    (fun _ _ => id) fun _ => False.elim) (fun o u hu => ?_) fun e u hu => absurd hu.2 (by simp)
  have hread := hu.1.reads
  unfold openRest openFile
  rw [if_pos hmode]
  refine wp_attempt_seq (wp_fileCreate_new ht hread hset ho hfresh) fun r t hc => ?_
  cases r with
  | error e => exact wp_modify.mpr fun r hr h0 => absurd h0 (sendErr_value hr)
  | ok f =>
    cases o with
    | none => exact wp_halt.mpr trivial
    | some o =>
      refine wp_fillOpen (hc f rfl).2.2 fun v hv r _ _ => ?_
      obtain ⟨⟨G, e, y, he⟩, hb, -⟩ := (hc f rfl).then_reads hv
      exact (he.added_iff ht hd hcs hpre hmiss hlen).trans hb

theorem oneFile_ptr {i : ℕ} : oneFile.ptr sRoot i = if i = 0 then 3#32 else 0#32 := by
  have hind : oneFile.view (fIndirect sRoot) = 0#32 := by decide +kernel
  by_cases h10 : i < 10
  · have hall : ∀ j : Fin 10, oneFile.ptr sRoot j.val = if j.val = 0 then 3#32 else 0#32 := by
      decide +kernel
    exact hall ⟨i, h10⟩
  · unfold Server.ptr
    rw [if_neg h10, hind, if_pos rfl, if_neg (by omega)]

theorem oneFile_ptr_a {i : ℕ} : oneFile.ptr (blockVa 3#32) i = 0#32 := by
  have hind : oneFile.view (fIndirect (blockVa 3#32)) = 0#32 := by decide +kernel
  by_cases h10 : i < 10
  · have hall : ∀ j : Fin 10, oneFile.ptr (blockVa 3#32) j.val = 0#32 := by decide +kernel
    exact hall ⟨i, h10⟩
  · unfold Server.ptr
    rw [if_neg h10, hind, if_pos rfl]

/-- Block 3 of the root directory is the only one. -/
theorem oneFile_owns {f c : Word} {q : Option ℕ} (hf : oneFile.Reached f) (h : oneFile.Owns f q c) :
    f = sRoot ∧ q = some 0 ∧ c = 3#32 := by
  rcases oneFile_reached hf with rfl | rfl
  · cases q with
    | none =>
      have hind : oneFile.view (fIndirect sRoot) = 0#32 := by decide +kernel
      exact absurd (h.1.symm.trans hind) h.2
    | some i =>
      obtain ⟨-, hp, h0⟩ := h
      rw [oneFile_ptr] at hp
      by_cases hi : i = 0
      · rw [if_pos hi] at hp
        exact ⟨rfl, congrArg some hi, hp.symm⟩
      · rw [if_neg hi] at hp
        exact absurd hp.symm h0
  · cases q with
    | none =>
      have hind : oneFile.view (fIndirect (blockVa 3#32)) = 0#32 := by decide +kernel
      exact absurd (h.1.symm.trans hind) h.2
    | some i => exact absurd (h.2.1.symm.trans oneFile_ptr_a) h.2.2

theorem oneFile_ownTree : OwnTree oneFile := by
  have hn : oneFile.nblock sRoot = 1 := by decide +kernel
  refine ⟨oneFile_tree, fun f hf q c ho => ?_, fun f f' hf hf' q q' c ho ho' => ?_, fun d hd i _ hi => ?_⟩
  · obtain ⟨-, -, rfl⟩ := oneFile_owns hf ho
    refine ⟨by decide, by decide +kernel, ?_⟩
    unfold Server.BitmapBlock
    decide +kernel
  · obtain ⟨rfl, rfl, -⟩ := oneFile_owns hf ho
    obtain ⟨rfl, rfl, -⟩ := oneFile_owns hf' ho'
    exact ⟨rfl, rfl⟩
  · obtain rfl := oneFile_dir hd
    rw [hn] at hi
    rw [oneFile_ptr, if_neg (by omega)]

theorem created_file_b : (serveOpen 1#32 [slash, 98#8] oCreat).wp (fun _ s' =>
    ∀ r, s'.sent.getLast? = some r → r.value = 0#32 →
      ((∃ f, Added oneFile s' sRoot [slash, 98#8] f) ↔
        ∀ f, oneFile.freeEntry sRoot = some f → Blank oneFile f)) (fun _ => True) oneFile := by
  have hcs : components [slash, 98#8] = [[98#8]] := by decide +kernel
  have hmiss : oneFile.child sRoot [98#8] = none := by decide +kernel
  have hfree : oneFile.freeEntry sRoot ≠ none := by decide +kernel
  have ho : Outcome oneFile (components [slash, 98#8]) (.missing sRoot [98#8]) := by
    rw [hcs]
    exact .lastMissing ⟨[], rfl, rfl, hmiss⟩ (by decide) (by decide +kernel)
  refine created_file oneFile_ownTree ?_ ho (by decide) fun h => absurd h hfree
  rintro d f ⟨pre, c, post, he, hpre, hc⟩
  rw [hcs] at he
  cases pre with
  | nil =>
    obtain ⟨rfl, -⟩ := List.cons.inj he
    obtain rfl := Option.some.inj hpre
    exact absurd (hmiss.symm.trans hc) (by simp)
  | cons c' pre =>
    have hnil := (List.cons.inj he).2
    exact absurd hnil.symm (by simp)

/-- A server with an empty root directory of one block. -/
def emptyRoot : Server :=
  (afterInit [(1, 1, 8#32), (1, 34, 4096#32), (1, 35, ftypeDir), (1, 36, 3#32)]).serveInit

/-- The server takes requests. -/
def Serves (s : Server) (q : Word × Req) (s' : Server) : Prop :=
  accepted (serveReq q.1 q.2 s) = some ((), s')

def serveNext (q : Word × Req) (s : Server) : Option Server :=
  (accepted (serveReq q.1 q.2 s)).map Prod.snd

/-- After the directory `/d` has been made and removed, the new file `/x` is a directory. -/
theorem created_file_fails : ¬∀ (h : List (Word × Req)) (s s' : Server) (whom omode d : Word)
    (path name : List Byte),
    Run (fun s => ∃ ws, s = (afterInit ws).serveInit) Serves h s →
    Outcome s (components path) (.missing d name) → omode &&& oCreat = oCreat →
    Serves s (whom, .open path omode) s' → (∀ r, s'.sent.getLast? = some r → r.value = 0#32) →
      ∃ f, Added s s' d path f := by
  intro hall
  have hend : ((Run.follow serveNext [(1#32, .open [slash, 100#8] oMkdir), (1#32, .remove [slash, 100#8])]
      emptyRoot).map fun s => (s.child sRoot [120#8], s.view (fType sRoot),
        (serveNext (1#32, .open [slash, 120#8] oCreat) s).map fun s' =>
          (s'.resolve (components [slash, 120#8]), s'.view (fType (blockVa 3#32)),
            s'.sent.getLast?.map Reply.value))) =
      some (none, ftypeDir, some (some (blockVa 3#32), ftypeDir, some 0#32)) := by
    decide +kernel
  obtain ⟨s, hs, heq⟩ := Option.map_eq_some_iff.mp hend
  obtain ⟨hmiss, heq⟩ := Prod.mk.inj heq
  obtain ⟨hdir, heq⟩ := Prod.mk.inj heq
  obtain ⟨s', hs', heq⟩ := Option.map_eq_some_iff.mp heq
  obtain ⟨hres, heq⟩ := Prod.mk.inj heq
  obtain ⟨htype, hlast⟩ := Prod.mk.inj heq
  have hserves : ∀ q s s', serveNext q s = some s' → Serves s q s' := fun q s s' h => by
    obtain ⟨x, hx, rfl⟩ := Option.map_eq_some_iff.mp h
    exact hx
  have hstart : Run (fun s => ∃ ws, s = (afterInit ws).serveInit) Serves [] emptyRoot :=
    .start ⟨_, rfl⟩
  have hrun := Run.of_follow hserves hstart hs
  have hcs : components [slash, 120#8] = [[120#8]] := by decide +kernel
  obtain ⟨f, hf⟩ := hall _ s s' 1#32 oCreat sRoot [slash, 120#8] [120#8] hrun
    (hcs ▸ .lastMissing ⟨[], rfl, rfl, hmiss⟩ (by decide) hdir) (by decide) (hserves _ _ _ hs')
    fun r hr => by
      rw [hr] at hlast
      exact Option.some.inj hlast
  have hself := (hf.paths [slash, 120#8] f).mpr (.inr ⟨rfl, rfl⟩)
  obtain rfl := Option.some.inj (hself.symm.trans hres)
  have h01 := hf.blank.type.symm.trans htype
  exact absurd h01 (by decide)

end Fs
end RvMos
