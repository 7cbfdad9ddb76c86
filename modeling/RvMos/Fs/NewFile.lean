/-
A file that has been created.

In a tree whose files share no block a file has one path.  The new entry is in one
directory, so it adds one path, and every other file keeps its record, its pointers
and its blocks.
-/
import RvMos.Fs.Grow
import RvMos.Fs.Names
import RvMos.Fs.OpenTable

namespace RvMos

open Lib

namespace Fs

open Sys

/-! ## Blocks of files -/

/-- A block of a file: the index block, or the block at an index. -/
def Server.Owns (s : Server) (f : Word) : Option ℕ → Word → Prop
  | none, c => s.view (fIndirect f) = c ∧ c ≠ 0#32
  | some i, c => i < 1024 ∧ s.ptr f i = c ∧ c ≠ 0#32

/-- The files of the tree have data blocks in use, each one its own, and directories
have no block after their end. -/
structure OwnTree (s : Server) : Prop extends FileTree s where
  owned : ∀ f, s.Reached f → ∀ k c, s.Owns f k c → 3 ≤ c.toNat ∧ s.Used c ∧ ¬s.BitmapBlock c
  once : ∀ f f', s.Reached f → s.Reached f' → ∀ k k' c, s.Owns f k c → s.Owns f' k' c →
    f = f' ∧ k = k'
  ends : ∀ d, s.TreeDir d → ∀ i < 1024, s.nblock d ≤ i → s.ptr d i = 0#32

section OwnTree

variable {s : Server} {d d' f g c : Word} {i : ℕ} {cs cs' : List (List Byte)}

theorem OwnTree.owns_dir (ht : OwnTree s) (hd : s.TreeDir d) (hi : i < s.nblock d) :
    s.Owns d (some i) (s.ptr d i) :=
  ⟨lt_of_lt_of_le hi (ht.length d hd), rfl, (ht.present d hd i hi).1⟩

/-- An entry is in one directory. -/
theorem OwnTree.dir_unique (ht : OwnTree s) (hd : s.TreeDir d) (hd' : s.TreeDir d')
    (hf : f ∈ s.files d) (hf' : f ∈ s.files d') : d = d' := by
  obtain ⟨i, hi, j, -, hat⟩ := mem_files_at ht.toFileTree hd hf
  obtain ⟨i', hi', j', -, hat'⟩ := mem_files_at ht.toFileTree hd' hf'
  have hown := ht.owns_dir hd hi
  rw [(hat.addr_inj hat').1] at hown
  exact (ht.once d d' hd.1 hd'.1 _ _ _ hown (ht.owns_dir hd' hi')).1

theorem OwnTree.root_not_entry (ht : OwnTree s) (hd : s.TreeDir d) : sRoot ∉ s.files d := fun hf => by
  obtain ⟨c, hc, j, -, hat⟩ := mem_files ht.toFileTree hd hf
  have hroot : At sRoot 1#32 8 := ⟨rfl, by decide, by omega⟩
  exact (ht.apart c hc).1 (hat.addr_inj hroot).1

/-- A step along a path goes through a directory of the tree to the entry of that name. -/
theorem resolve_concat_iff {c : List Byte} : s.resolve (cs ++ [c]) = some f ↔
    ∃ d, s.resolve cs = some d ∧ s.child d c = some f := by
  rw [resolve_append, Option.bind_eq_some_iff]
  exact exists_congr fun d => and_congr_right fun _ => by
    rw [List.foldlM_cons]
    exact iff_of_eq (congrArg (· = some f) (bind_pure _))

theorem child_mem {c : List Byte} (h : s.child d c = some f) :
    s.IsDir d ∧ f ∈ s.files d ∧ s.entryName f = c := by
  unfold Server.child at h
  split_ifs at h with hc
  refine ⟨hc.2, List.mem_of_find?_eq_some h, ?_⟩
  simpa using List.find?_some (p := fun f => decide (s.entryName f = c)) h

/-- A file has one path. -/
theorem OwnTree.path_unique (ht : OwnTree s) (hcs : ∀ c ∈ cs, c ≠ []) (hcs' : ∀ c ∈ cs', c ≠ [])
    (h : s.resolve cs = some f) (h' : s.resolve cs' = some f) : cs = cs' := by
  induction cs using List.reverseRecOn generalizing cs' f with
  | nil =>
    obtain rfl : sRoot = f := Option.some.inj h
    cases cs' using List.reverseRecOn with
    | nil => rfl
    | append_singleton cs' c' =>
      obtain ⟨d, hd, hc⟩ := resolve_concat_iff.mp h'
      obtain ⟨hdir, hmem, -⟩ := child_mem hc
      have hreach := reached_resolve (fun c hc => hcs' c (List.mem_append_left _ hc)) hd
      exact absurd hmem (ht.root_not_entry ⟨hreach, hdir⟩)
  | append_singleton cs c ih =>
    obtain ⟨d, hd, hc⟩ := resolve_concat_iff.mp h
    obtain ⟨hdir, hmem, hname⟩ := child_mem hc
    have hreach := reached_resolve (fun c hc => hcs c (List.mem_append_left _ hc)) hd
    cases cs' using List.reverseRecOn with
    | nil =>
      obtain rfl : sRoot = f := Option.some.inj h'
      exact absurd hmem (ht.root_not_entry ⟨hreach, hdir⟩)
    | append_singleton cs' c' =>
      obtain ⟨d', hd', hc'⟩ := resolve_concat_iff.mp h'
      obtain ⟨hdir', hmem', hname'⟩ := child_mem hc'
      have hreach' := reached_resolve (fun c hc => hcs' c (List.mem_append_left _ hc)) hd'
      obtain rfl := ht.dir_unique ⟨hreach, hdir⟩ ⟨hreach', hdir'⟩ hmem hmem'
      rw [ih (fun c hc => hcs c (List.mem_append_left _ hc))
        (fun c hc => hcs' c (List.mem_append_left _ hc)) hd hd', ← hname, ← hname']

end OwnTree

/-! ## Seats of records -/

/-- The root and the records of the directories, with a name or without. -/
def Server.Listed (s : Server) (g : Word) : Prop := g = sRoot ∨ ∃ d, s.TreeDir d ∧ g ∈ s.files d

/-- Where a record of the tree is. -/
structure Seat (s : Server) (g c : Word) (z : ℕ) : Prop where
  place : At g c z
  kind : (c = 1#32 ∧ z = 8) ∨ (s.DirBlock c ∧ z % 256 = 0)

section Seat

variable {s : Server} {d f g g' c : Word} {z z' k : ℕ}

theorem reached_listed (h : s.Reached g) : s.Listed g := by
  cases h with
  | root => exact .inl rfl
  | entry hd hdir hf _ => exact .inr ⟨_, ⟨hd, hdir⟩, hf⟩

theorem FileTree.seat (ht : FileTree s) (h : s.Listed g) : ∃ c z, Seat s g c z := by
  rcases h with rfl | ⟨d, hd, hf⟩
  · exact ⟨1#32, 8, ⟨rfl, by decide, by omega⟩, .inl ⟨rfl, rfl⟩⟩
  · obtain ⟨c, hc, j, hj, hat⟩ := mem_files ht hd hf
    exact ⟨c, 256 * j, hat, .inr ⟨hc, by omega⟩⟩

theorem Seat.room (h : Seat s g c z) : z % 4 = 0 ∧ z + 256 ≤ 4096 := by
  have hlt := h.place.offset
  rcases h.kind with ⟨-, rfl⟩ | ⟨-, hz⟩
  · omega
  · omega

theorem Seat.at_field (h : Seat s g c z) (hk : k < 256) : At (g + BitVec.ofNat 32 k) c (z + k) := by
  have hroom := h.room
  exact h.place.add (by omega)

/-- Two records of the tree have no word in common. -/
theorem Seat.apart (ht : FileTree s) (h : Seat s g c z) (h' : Seat s g' c z') :
    g = g' ∨ z + 256 ≤ z' ∨ z' + 256 ≤ z := by
  by_cases hz : z = z'
  · exact .inl (h.place.inj (hz ▸ h'.place))
  · refine .inr ?_
    rcases h.kind with ⟨rfl, rfl⟩ | ⟨hc, hz4⟩
    · rcases h'.kind with ⟨-, rfl⟩ | ⟨hc', -⟩
      · exact absurd rfl hz
      · exact absurd rfl (ht.apart _ hc').1
    · rcases h'.kind with ⟨rfl, -⟩ | ⟨-, hz4'⟩
      · exact absurd rfl (ht.apart _ hc).1
      · omega

/-- The block of a record is in use and no part of the bitmap. -/
theorem Seat.used (ht : FileTree s) (h : Seat s g c z) :
    ¬s.BitmapBlock c ∧ (c.toNat < 3 ∨ s.Used c) := by
  rcases h.kind with ⟨rfl, -⟩ | ⟨hc, -⟩
  · refine ⟨?_, .inl (by decide)⟩
    unfold Server.BitmapBlock
    have h1 : (1#32 : Word).toNat = 1 := rfl
    omega
  · obtain ⟨e, he, i, hi, hptr⟩ := id hc
    exact ⟨(ht.apart _ hc).2.1, .inr (hptr ▸ (ht.present e he i hi).2)⟩

theorem Seat.record (ht : FileTree s) (h : Seat s g c z) {t : Server} (hc : t.Cached g) :
    Record t g c z := by
  have hroom := h.room
  refine ⟨h.place, hroom.1, hroom.2, fun h1 => ?_, hc⟩
  rcases h.kind with ⟨-, rfl⟩ | ⟨hblk, -⟩
  · exact le_refl 8
  · exact absurd h1 (ht.apart _ hblk).1

/-- The block of a record is no index block, and no data block but of the directory that
the record is in. -/
theorem Seat.owner (ht : OwnTree s) (h : Seat s g c z) {o : Option ℕ} (hd : s.Reached d)
    (ho : s.Owns d o c) : ∃ i, o = some i := by
  rcases h.kind with ⟨rfl, -⟩ | ⟨⟨e, he, i, hi, rfl⟩, -⟩
  · exact absurd (ht.owned d hd o _ ho).1 (by decide)
  · exact ⟨i, (ht.once d e hd he.1 _ _ _ ho (ht.owns_dir he hi)).2⟩

end Seat

/-! ## What a new entry changes -/

/-- The word at byte `k` of a record. -/
def AtField (f : Word) (k : ℕ) (c : Word) (o : Index) : Prop :=
  c = blockOf (f + BitVec.ofNat 32 k) ∧ o = wordIdx (f + BitVec.ofNat 32 k)

/-- The words that change where a directory grows: the bitmap, spare blocks, and the
size and the pointers of the directory. -/
def Server.LongerWords (s : Server) (d c : Word) (o : Index) : Prop :=
  s.AllocWords c o ∨ s.Spare c ∨ (∃ k, 128 ≤ k ∧ k < 180 ∧ k / 4 ≠ 33 ∧ AtField d k c o) ∨
    (c = s.view (fIndirect d) ∧ c ≠ 0#32)

/-- Nothing changes but the name at byte `y` of block `e`, an entry of the directory
without a name, and where `G` the end of the directory. -/
structure Near (G : Prop) (s t : Server) (d f e : Word) (y : ℕ) : Prop where
  touches : Touches (fun c o => (G ∧ s.LongerWords d c o) ∨ ∃ k < 128, AtField f k c o) s t
  place : At f e y
  aligned : y % 256 = 0
  block : s.Spare e ∨ ∃ i < s.nblock d, s.ptr d i = e
  nameless : f ∈ s.files d → s.entryName f = []

section Near

variable {G : Prop} {s t : Server} {b c d d' e f g va : Word} {y k i : ℕ} {o : Index}

theorem AtField.eq (h : AtField f k c o) (ha : At (f + BitVec.ofNat 32 k) b y) :
    c = b ∧ o.val = y / 4 :=
  ⟨h.1.trans ha.blockOf_eq, (congrArg Fin.val h.2).trans ha.wordIdx_val⟩

theorem At.view_block (h : At va b y) : s.view va = s.block b (wordIdx va) := by
  unfold Server.view
  rw [h.blockOf_eq]

/-- A block that another file has is not the block of the entry. -/
theorem Near.owner (ht : OwnTree s) (hd : s.TreeDir d) (h : Near G s t d f e y) (hg : s.Reached g)
    {q : Option ℕ} (ho : s.Owns g q e) : g = d ∧ ∃ i, q = some i := by
  rcases h.block with hs | ⟨i, hi, rfl⟩
  · exact absurd (ht.owned g hg q e ho).2.1 hs.not_used
  · obtain ⟨hgd, hq⟩ := ht.once g d hg hd.1 _ _ _ ho (ht.owns_dir hd hi)
    exact ⟨hgd, i, hq⟩

theorem Near.three_le (ht : OwnTree s) (hd : s.TreeDir d) (h : Near G s t d f e y) : 3 ≤ e.toNat := by
  rcases h.block with hs | ⟨i, hi, rfl⟩
  · exact hs.1
  · exact (ht.owned d hd.1 _ _ (ht.owns_dir hd hi)).1

/-- The entry is in no other directory. -/
theorem Near.dir_eq (ht : OwnTree s) (hd : s.TreeDir d) (h : Near G s t d f e y) (hd' : s.TreeDir d')
    (hf : f ∈ s.files d') : d' = d := by
  obtain ⟨i, hi, j, -, hat⟩ := mem_files_at ht.toFileTree hd' hf
  have hown := ht.owns_dir hd' hi
  rw [(hat.addr_inj h.place).1] at hown
  exact (h.owner ht hd hd'.1 hown).1

theorem Near.not_reached (ht : OwnTree s) (hd : s.TreeDir d) (h : Near G s t d f e y) :
    ¬s.Reached f := by
  intro hf
  have h3 := h.three_le ht hd
  cases hf with
  | root =>
    have hroot : At sRoot 1#32 8 := ⟨rfl, by decide, by omega⟩
    rw [(h.place.addr_inj hroot).1] at h3
    exact absurd h3 (by decide)
  | entry hd' hdir hf hne =>
    obtain rfl := h.dir_eq ht hd ⟨hd', hdir⟩ hf
    exact hne (h.nameless hf)

/-- The other records are as before, but for the size and the pointers of a directory
that grows. -/
theorem Near.view_listed (ht : OwnTree s) (hd : s.TreeDir d) (h : Near G s t d f e y)
    (hg : s.Listed g) (hgf : g ≠ f) (hk : k < 256)
    (hgd : g = d → G → k < 128 ∨ k / 4 = 33 ∨ 180 ≤ k) :
    t.view (g + BitVec.ofNat 32 k) = s.view (g + BitVec.ofNat 32 k) := by
  obtain ⟨c, z, hseat⟩ := ht.toFileTree.seat hg
  obtain ⟨hout, hu⟩ := hseat.used ht.toFileTree
  have hat := hseat.at_field hk
  have hroom := hseat.room
  refine h.touches.view ?_
  rw [hat.blockOf_eq]
  rintro (⟨hG, (hW | hW) | hW | ⟨k', hlo, hhi, h33, hW⟩ | ⟨hW, h0⟩⟩ | ⟨k', hk', hW⟩)
  · exact hout hW
  · exact absurd hat.block (not_lt.mpr hW)
  · exact not_spare_of hu hW
  · obtain ⟨c', x, hseat'⟩ := ht.toFileTree.seat (reached_listed hd.1)
    obtain ⟨rfl, ho⟩ := hW.eq (hseat'.at_field (k := k') (by omega))
    rw [hat.wordIdx_val] at ho
    have hroom' := hseat'.room
    rcases hseat.apart ht.toFileTree hseat' with rfl | hdis
    · have hz := (hseat.place.addr_inj hseat'.place).2
      have hcase := hgd rfl hG
      omega
    · omega
  · obtain ⟨i, hi⟩ := hseat.owner ht (o := none) hd.1 ⟨hW.symm, h0⟩
    exact absurd hi (by simp)
  · have hy := h.place.offset
    have hal := h.aligned
    obtain ⟨rfl, ho⟩ := hW.eq (h.place.add (n := k') (by omega))
    rw [hat.wordIdx_val] at ho
    rcases hseat.kind with ⟨rfl, -⟩ | ⟨-, hz⟩
    · exact absurd (h.three_le ht hd) (by decide)
    · obtain rfl : z = y := by omega
      exact hgf (hseat.place.inj h.place)

/-- The blocks of the other files are as before, but for the record of the directory;
so is the index block of a directory that does not grow. -/
theorem Near.block_owned (ht : OwnTree s) (hd : s.TreeDir d) (h : Near G s t d f e y)
    (hg : s.Reached g) {q : Option ℕ} (hgd : g = d → ¬G ∧ q = none) (ho : s.Owns g q c) (o : Index) :
    (∃ k < 256, AtField d k c o) ∨ t.block c o = s.block c o := by
  obtain ⟨h3, hu, hout⟩ := ht.owned g hg q c ho
  by_cases hrec : ∃ k < 256, AtField d k c o
  · exact .inl hrec
  refine .inr (h.touches.block c o ?_)
  rintro (⟨hG, (hW | hW) | hW | ⟨k', -, hhi, -, hW⟩ | ⟨hW, h0⟩⟩ | ⟨k', hk', hW⟩)
  · exact hout hW
  · exact absurd (lt_capacity ht.mounted hu.1) (not_lt.mpr hW)
  · exact hW.not_used hu
  · exact hrec ⟨k', by omega, hW⟩
  · exact (hgd (ht.once g d hg hd.1 q none c ho ⟨hW.symm, h0⟩).1).1 hG
  · have hy := h.place.offset
    have hal := h.aligned
    obtain ⟨rfl, -⟩ := hW.eq (h.place.add (n := k') (by omega))
    obtain ⟨he, i, hi⟩ := h.owner ht hd hg ho
    exact absurd ((hgd he).2.symm.trans hi) (by simp)

/-- The other files keep their pointers. -/
theorem Near.ptr (ht : OwnTree s) (hd : s.TreeDir d) (h : Near G s t d f e y) (hg : s.Reached g)
    (hgd : g = d → ¬G) (hi : i < 1024) : t.ptr g i = s.ptr g i := by
  have hgf : g ≠ f := fun he => h.not_reached ht hd (he ▸ hg)
  have hview : ∀ k < 256, t.view (g + BitVec.ofNat 32 k) = s.view (g + BitVec.ofNat 32 k) :=
    fun k hk => h.view_listed ht hd (reached_listed hg) hgf hk fun he hG => absurd hG (hgd he)
  have hind : t.view (fIndirect g) = s.view (fIndirect g) := hview 176 (by omega)
  unfold Server.ptr
  by_cases h10 : i < 10
  · rw [if_pos h10, if_pos h10, fDirect_eq]
    exact hview _ (by omega)
  · rw [if_neg h10, if_neg h10, hind]
    by_cases h0 : s.view (fIndirect g) = 0#32
    · rw [if_pos h0, if_pos h0]
    · rw [if_neg h0, if_neg h0]
      have hown : s.Owns g none (s.view (fIndirect g)) := ⟨rfl, h0⟩
      have hcap := lt_capacity ht.mounted (ht.owned g hg _ _ hown).2.1.1
      have hat := (at_blockVa hcap).add (n := 4 * i) (by omega)
      rw [hat.view_block, hat.view_block]
      refine (h.block_owned ht hd hg (fun he => ⟨hgd he, rfl⟩) hown _).resolve_left ?_
      rintro ⟨k, hk, hW⟩
      obtain ⟨c', x, hseat⟩ := ht.toFileTree.seat (reached_listed hd.1)
      obtain ⟨he, -⟩ := hW.eq (hseat.at_field hk)
      obtain ⟨j, hj⟩ := hseat.owner ht hg (he ▸ hown)
      exact absurd hj (by simp)

/-- The children of the other files stay. -/
theorem Near.child_other (ht : OwnTree s) (hd : s.TreeDir d) (h : Near G s t d f e y)
    (hg : s.Reached g) (hgd : g ≠ d) (cn : List Byte) : t.child g cn = s.child g cn := by
  have hgf : g ≠ f := fun he => h.not_reached ht hd (he ▸ hg)
  have hview : ∀ k < 256, t.view (g + BitVec.ofNat 32 k) = s.view (g + BitVec.ofNat 32 k) :=
    fun k hk => h.view_listed ht hd (reached_listed hg) hgf hk fun he => absurd he hgd
  have hsize : t.nblock g = s.nblock g := congrArg (fun w => w.toNat / 4096) (hview 128 (by omega))
  have htype : t.view (fType g) = s.view (fType g) := hview 132 (by omega)
  have hiff : t.IsDir g ↔ s.IsDir g := by
    unfold Server.IsDir
    rw [htype]
  unfold Server.child
  simp only [hiff]
  by_cases hdir : s.IsDir g
  · have htd : s.TreeDir g := ⟨hg, hdir⟩
    have hlen := ht.length g htd
    have hfiles : t.files g = s.files g := by
      unfold Server.files
      rw [hsize]
      refine List.flatMap_congr fun i hi => ?_
      have hlt := List.mem_range.mp hi
      rw [h.ptr ht hd hg (fun he => absurd he hgd) (by omega)]
    have hlookup : t.lookup g cn = s.lookup g cn := by
      unfold Server.lookup
      rw [hfiles]
      refine List.find?_congr fun r hr => ?_
      have hrf : r ≠ f := fun he => hgd (h.dir_eq ht hd htd (he ▸ hr))
      have hname : t.entryName r = s.entryName r := by
        unfold Server.entryName
        rw [bytesAt_congr fun k hk => ?_]
        unfold maxNameLen at hk
        exact h.view_listed ht hd (.inr ⟨g, htd, hr⟩) hrf (by omega) fun _ _ => .inl hk
      rw [hname]
    rw [hlookup]
  · rw [if_neg fun hh => hdir hh.2, if_neg fun hh => hdir hh.2]

end Near

/-! ## A directory with a new entry -/

/-- The entry has got a name. -/
structure Entered (G : Prop) (s t : Server) (d f e : Word) (y : ℕ) (name : List Byte) : Prop
    extends Near G s t d f e y where
  kept : ∀ i < s.nblock d, t.ptr d i = s.ptr d i
  files : ∃ l, t.files d = s.files d ++ l ∧ ∀ g ∈ l, g ≠ f → t.entryName g = []
  mem : f ∈ t.files d
  name : t.entryName f = name
  used : ∀ c, s.Used c → t.Used c

section Entered

variable {G : Prop} {s t : Server} {d e f g : Word} {y : ℕ} {name cn : List Byte}
  {pre cs : List (List Byte)}

/-- The first record of a name, where a record without a name has got one. -/
theorem find_named {L l : List Word} {n n' : Word → List Byte} (hf : f ∈ L ++ l) (hname : n' f = name)
    (hold : f ∈ L → n f = []) (hL : ∀ r ∈ L, r ≠ f → n' r = n r) (hl : ∀ r ∈ l, r ≠ f → n' r = [])
    (hmiss : L.find? (fun r => n r = name) = none) (h0 : name ≠ []) (hcn : cn ≠ []) :
    (L ++ l).find? (fun r => n' r = cn) = some g ↔
      L.find? (fun r => n r = cn) = some g ∨ (cn = name ∧ g = f) := by
  by_cases hc : cn = name
  · subst hc
    have honly : ∀ r ∈ L ++ l, n' r = cn → r = f := fun r hr hn => by
      by_contra hrf
      rcases List.mem_append.mp hr with hr | hr
      · refine List.find?_eq_none.mp hmiss r hr (decide_eq_true ?_)
        rw [← hL r hr hrf]
        exact hn
      · exact hcn (hn.symm.trans (hl r hr hrf))
    obtain ⟨r, hr⟩ := Option.isSome_iff_exists.mp
      (List.find?_isSome (p := fun r => decide (n' r = cn)) |>.mpr ⟨f, hf, decide_eq_true hname⟩)
    obtain rfl := honly r (List.mem_of_find?_eq_some hr)
      (by simpa using List.find?_some (p := fun r => decide (n' r = cn)) hr)
    rw [hr, hmiss]
    simp [eq_comm]
  · have hsame : L.find? (fun r => decide (n' r = cn)) = L.find? (fun r => decide (n r = cn)) := by
      refine List.find?_congr fun r hr => ?_
      by_cases hrf : r = f
      · subst hrf
        rw [hname, hold hr, decide_eq_false (Ne.symm hc), decide_eq_false (Ne.symm hcn)]
      · rw [hL r hr hrf]
    have hnone : l.find? (fun r => decide (n' r = cn)) = none := by
      refine List.find?_eq_none.mpr fun r hr => ?_
      by_cases hrf : r = f
      · subst hrf
        simpa [hname] using Ne.symm hc
      · simpa [hl r hr hrf] using Ne.symm hcn
    rw [List.find?_append, hsame, hnone, Option.or_none]
    exact ⟨.inl, fun h => h.resolve_right fun hh => hc hh.1⟩

/-- The directory has one child more. -/
theorem Entered.child_dir (ht : OwnTree s) (hd : s.TreeDir d) (h : Entered G s t d f e y name)
    (h0 : name ≠ []) (hlen : name.length < maxNameLen) (hmiss : s.child d name = none)
    (hcn : cn ≠ []) : t.child d cn = some g ↔ s.child d cn = some g ∨ (cn = name ∧ g = f) := by
  have hdf : d ≠ f := fun he => h.not_reached ht hd (he ▸ hd.1)
  have htype : t.view (fType d) = s.view (fType d) :=
    h.view_listed ht hd (reached_listed hd.1) hdf (k := 132) (by omega) fun _ _ => by omega
  have hdt : t.IsDir d := htype.trans hd.2
  have hlook : s.lookup d name = none := (child_eq_lookup hlen hd.2).symm.trans hmiss
  unfold Server.child
  by_cases hl : cn.length < maxNameLen
  · rw [if_pos ⟨hl, hdt⟩, if_pos ⟨hl, hd.2⟩]
    obtain ⟨l, hfiles, hl0⟩ := h.files
    have hmem := h.mem
    unfold Server.lookup at hlook ⊢
    rw [hfiles] at hmem ⊢
    refine find_named hmem h.name h.nameless (fun r hr hrf => ?_) hl0 hlook h0 hcn
    unfold Server.entryName
    rw [bytesAt_congr fun k hk => ?_]
    unfold maxNameLen at hk
    exact h.view_listed ht hd (.inr ⟨d, hd, hr⟩) hrf (by omega) fun _ _ => .inl hk
  · rw [if_neg fun hh => hl hh.1, if_neg fun hh => hl hh.1]
    refine ⟨fun hh => absurd hh (by simp), fun hh => ?_⟩
    rcases hh with hh | ⟨rfl, -⟩
    · exact absurd hh (by simp)
    · exact absurd hlen hl

/-- What has been found is found still. -/
theorem Entered.resolve_old (ht : OwnTree s) (hd : s.TreeDir d) (h : Entered G s t d f e y name)
    (h0 : name ≠ []) (hlen : name.length < maxNameLen) (hmiss : s.child d name = none)
    (hcs : ∀ c ∈ cs, c ≠ []) (hg : s.resolve cs = some g) : t.resolve cs = some g := by
  induction cs using List.reverseRecOn generalizing g with
  | nil => exact hg
  | append_singleton cs c ih =>
    have hcs' : ∀ c' ∈ cs, c' ≠ [] := fun c' hc' => hcs c' (List.mem_append_left _ hc')
    obtain ⟨r, hr, hc⟩ := resolve_concat_iff.mp hg
    refine resolve_concat_iff.mpr ⟨r, ih hcs' hr, ?_⟩
    by_cases hrd : r = d
    · subst hrd
      exact (h.child_dir ht hd h0 hlen hmiss (hcs c (by simp))).mpr (.inl hc)
    · rw [h.child_other ht hd (reached_resolve hcs' hr) hrd]
      exact hc

theorem Entered.resolve_new (ht : OwnTree s) (hd : s.TreeDir d) (h : Entered G s t d f e y name)
    (h0 : name ≠ []) (hlen : name.length < maxNameLen) (hmiss : s.child d name = none)
    (hpre : s.resolve pre = some d) (hcs : ∀ c ∈ pre, c ≠ []) :
    t.resolve (pre ++ [name]) = some f :=
  resolve_concat_iff.mpr ⟨d, h.resolve_old ht hd h0 hlen hmiss hcs hpre,
    (h.child_dir ht hd h0 hlen hmiss h0).mpr (.inr ⟨rfl, rfl⟩)⟩

/-- A file that is no directory adds its own path only. -/
theorem Entered.resolve_iff (ht : OwnTree s) (hd : s.TreeDir d) (h : Entered G s t d f e y name)
    (h0 : name ≠ []) (hlen : name.length < maxNameLen) (hmiss : s.child d name = none)
    (hpre : s.resolve pre = some d) (hpre0 : ∀ c ∈ pre, c ≠ []) (hreg : ¬t.IsDir f)
    (hcs : ∀ c ∈ cs, c ≠ []) :
    t.resolve cs = some g ↔ s.resolve cs = some g ∨ (cs = pre ++ [name] ∧ g = f) := by
  refine ⟨fun hg => ?_, fun hg => ?_⟩
  · induction cs using List.reverseRecOn generalizing g with
    | nil => exact .inl hg
    | append_singleton cs c ih =>
      have hcs' : ∀ c' ∈ cs, c' ≠ [] := fun c' hc' => hcs c' (List.mem_append_left _ hc')
      obtain ⟨r, hr, hc⟩ := resolve_concat_iff.mp hg
      rcases ih hcs' hr with hr | ⟨-, rfl⟩
      · by_cases hrd : r = d
        · subst hrd
          rcases (h.child_dir ht hd h0 hlen hmiss (hcs c (by simp))).mp hc with hc | ⟨rfl, rfl⟩
          · exact .inl (resolve_concat_iff.mpr ⟨r, hr, hc⟩)
          · rw [ht.path_unique hcs' hpre0 hr hpre]
            exact .inr ⟨rfl, rfl⟩
        · rw [h.child_other ht hd (reached_resolve hcs' hr) hrd] at hc
          exact .inl (resolve_concat_iff.mpr ⟨r, hr, hc⟩)
      · exact absurd (child_mem hc).1 hreg
  · rcases hg with hg | ⟨rfl, rfl⟩
    · exact h.resolve_old ht hd h0 hlen hmiss hcs hg
    · exact h.resolve_new ht hd h0 hlen hmiss hpre hpre0

end Entered

/-! ## One file more -/

def ftypeReg : Word := 0#32

/-- A regular file of no bytes and no blocks. -/
structure Blank (t : Server) (f : Word) : Prop where
  size : t.view (fSize f) = 0#32
  type : t.view (fType f) = ftypeReg
  direct : ∀ i < 10, t.view (fDirect f (BitVec.ofNat 32 i)) = 0#32
  indirect : t.view (fIndirect f) = 0#32

/-- The path leads to the blank file `f` in directory `d`, and no other path leads
anywhere else than before.  The other files have their records, their pointers and
their blocks, where the record of `d` may be in a block of its parent. -/
structure Added (s t : Server) (d : Word) (path : List Byte) (f : Word) : Prop where
  paths : ∀ p g, t.resolve (components p) = some g ↔
    s.resolve (components p) = some g ∨ (components p = components path ∧ g = f)
  blank : Blank t f
  records : ∀ g, s.Reached g → g ≠ d → ∀ k < 256,
    t.view (g + BitVec.ofNat 32 k) = s.view (g + BitVec.ofNat 32 k)
  pointers : ∀ g, s.Reached g → g ≠ d → ∀ i < 1024, t.ptr g i = s.ptr g i
  blocks : ∀ g, s.Reached g → g ≠ d → ∀ q c, s.Owns g q c →
    ∀ o, (∃ k < 256, AtField d k c o) ∨ t.block c o = s.block c o
  kept : ∀ i < s.nblock d, t.ptr d i = s.ptr d i
  used : ∀ c, s.Used c → t.Used c

section Added

variable {G : Prop} {s t : Server} {d e f f' : Word} {y : ℕ} {path name : List Byte}
  {pre : List (List Byte)}

theorem Blank.congr (h : ∀ k, 128 ≤ k → k < 180 →
    t.view (f + BitVec.ofNat 32 k) = s.view (f + BitVec.ofNat 32 k)) : Blank t f ↔ Blank s f := by
  have hsize : t.view (fSize f) = s.view (fSize f) := h 128 (by omega) (by omega)
  have htype : t.view (fType f) = s.view (fType f) := h 132 (by omega) (by omega)
  have hind : t.view (fIndirect f) = s.view (fIndirect f) := h 176 (by omega) (by omega)
  have hdirect : ∀ i < 10, t.view (fDirect f (BitVec.ofNat 32 i)) =
      s.view (fDirect f (BitVec.ofNat 32 i)) := fun i hi => by
    rw [fDirect_eq]
    exact h _ (by omega) (by omega)
  refine ⟨fun hb => ⟨hsize ▸ hb.size, htype ▸ hb.type, fun i hi => hdirect i hi ▸ hb.direct i hi,
    hind ▸ hb.indirect⟩, fun hb => ⟨?_, ?_, fun i hi => ?_, ?_⟩⟩
  · rw [hsize]
    exact hb.size
  · rw [htype]
    exact hb.type
  · rw [hdirect i hi]
    exact hb.direct i hi
  · rw [hind]
    exact hb.indirect

/-- A new entry is a new file exactly if it is blank. -/
theorem Entered.added_iff (ht : OwnTree s) (hd : s.TreeDir d) (h : Entered G s t d f e y name)
    (hpath : components path = pre ++ [name]) (hpre : s.resolve pre = some d)
    (hmiss : s.child d name = none) (hlen : name.length < maxNameLen) :
    (∃ f', Added s t d path f') ↔ Blank t f := by
  have hcs := components_ne_nil path
  rw [hpath] at hcs
  have h0 : name ≠ [] := hcs name (by simp)
  have hpre0 : ∀ c ∈ pre, c ≠ [] := fun c hc => hcs c (List.mem_append_left _ hc)
  refine ⟨fun ⟨f', ha⟩ => ?_, fun hb => ⟨f, ?_⟩⟩
  · have hnew := h.resolve_new ht hd h0 hlen hmiss hpre hpre0
    have hself := (ha.paths path f').mpr (.inr ⟨rfl, rfl⟩)
    rw [hpath, hnew] at hself
    exact Option.some.inj hself ▸ ha.blank
  · have hreg : ¬t.IsDir f := fun hdir => by
      have h01 : ftypeReg = ftypeDir := hb.type.symm.trans hdir
      exact absurd h01 (by decide)
    refine ⟨fun p g => ?_, hb, fun g hg hgd k hk => ?_, fun g hg hgd i hi => ?_,
      fun g hg hgd q c ho => h.block_owned ht hd hg (fun he => absurd he hgd) ho, h.kept, h.used⟩
    · rw [hpath]
      exact h.resolve_iff ht hd h0 hlen hmiss hpre hpre0 hreg (components_ne_nil p)
    · refine h.view_listed ht hd (reached_listed hg) (fun he => ?_) hk fun he => absurd he hgd
      exact h.not_reached ht hd (he ▸ hg)
    · exact h.ptr ht hd hg (fun he => absurd he hgd) hi

end Added

end Fs
end RvMos
