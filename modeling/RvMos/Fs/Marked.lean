/-
The tree after a walk.

A walk writes the `f_dir` of the files that it finds.  The tree is the same tree
afterwards: its files and their names, sizes and blocks are as before.
-/
import RvMos.Fs.NewFile

namespace RvMos

open Lib

namespace Fs

/-! ## Files that keep their blocks -/

/-- A record of the tree whose blocks are its own.  It may have lost its name. -/
structure Kept (s : Server) (f : Word) : Prop where
  listed : s.Listed f
  owned : ∀ k c, s.Owns f k c → 3 ≤ c.toNat ∧ s.Used c ∧ ¬s.BitmapBlock c
  once : ∀ k k' c, s.Owns f k c → s.Owns f k' c → k = k'
  others : ∀ g, s.Reached g → ∀ k k' c, s.Owns f k c → s.Owns g k' c → f = g

section Kept

variable {s t : Server} {b c d f g : Word} {x y i : ℕ} {o : Option ℕ}

theorem OwnTree.kept (ht : OwnTree s) (hf : s.Reached f) : Kept s f :=
  ⟨reached_listed hf, ht.owned f hf, fun k k' c ho ho' => (ht.once f f hf hf k k' c ho ho').2,
    fun g hg k k' c ho ho' => (ht.once f g hf hg k k' c ho ho').1⟩

theorem Seat.spot (ht : FileTree s) (h : Seat s g c x) : Spot s g c x := by
  have hroom := h.room
  refine ⟨h.place, hroom.1, hroom.2, fun h1 => ?_, fun hblk => ?_⟩
  · rcases h.kind with ⟨-, rfl⟩ | ⟨hblk, -⟩
    · exact le_refl 8
    · exact absurd h1 (ht.apart c hblk).1
  · rcases h.kind with ⟨h1, -⟩ | ⟨-, hx⟩
    · exact absurd h1 (ht.apart c hblk).1
    · exact hx

/-- The block of a record is no index block. -/
theorem Kept.not_seat (ht : OwnTree s) (h : Kept s f) (hseat : Seat s g c y) : ¬s.Owns f none c := by
  intro ho
  rcases hseat.kind with ⟨rfl, -⟩ | ⟨⟨e, he, i, hi, rfl⟩, -⟩
  · exact absurd (h.owned none _ ho).1 (by decide)
  · have hown := ht.owns_dir he hi
    obtain rfl := h.others e he.1 _ _ _ ho hown
    exact absurd (h.once _ _ _ ho hown) (by simp)

theorem Kept.held (ht : OwnTree s) (h : Kept s f) (hseat : Seat s f b x) (hc : s.Cached f) :
    Held s f b x := by
  have hindex : s.view (fIndirect f) ≠ 0#32 → s.Owns f none (s.view (fIndirect f)) := fun h0 => ⟨rfl, h0⟩
  have hdata : ∀ i < 1024, s.ptr f i ≠ 0#32 → s.Owns f (some i) (s.ptr f i) := fun i hi h0 => ⟨hi, rfl, h0⟩
  refine ⟨⟨fun h0 => ?_, fun i hi h0 => ?_, fun i hi j hj h0 he => ?_, fun i hi h0 he => ?_⟩,
    hseat.record ht.toFileTree hc, (hseat.used ht.toFileTree).1, fun h0 => ⟨?_, fun he => ?_⟩⟩
  · obtain ⟨h3, hu, -⟩ := h.owned _ _ (hindex h0)
    exact ⟨h3, hu⟩
  · obtain ⟨h3, hu, -⟩ := h.owned _ _ (hdata i hi h0)
    exact ⟨h3, hu⟩
  · have hown := hdata j hj (he ▸ h0)
    exact Option.some.inj (h.once _ _ _ (hdata i hi h0) (he ▸ hown))
  · have hown := hindex (he ▸ h0)
    exact absurd (h.once _ _ _ (hdata i hi h0) (he ▸ hown)) (by simp)
  · exact (h.owned _ _ (hindex h0)).2.2
  · exact h.not_seat ht hseat (he ▸ hindex h0)

end Kept

/-! ## The same tree -/

section Touched

variable {s t : Server} {c d f g : Word} {x i : ℕ} {o : Option ℕ}

theorem FileTree.isDir_iff (ht : FileTree s) (h : Touches s.DirWords s t) (hd : s.Reached d) :
    t.IsDir d ↔ s.IsDir d := by
  obtain ⟨b, x, hp⟩ := ht.spot hd
  have hv : t.view (fType d) = s.view (fType d) := hp.view (k := 132) h (by omega) (by omega)
  unfold Server.IsDir
  rw [hv]

theorem FileTree.nblock_eq (ht : FileTree s) (h : Touches s.DirWords s t) (hd : s.Reached d) :
    t.nblock d = s.nblock d := by
  obtain ⟨b, x, hp⟩ := ht.spot hd
  exact congrArg (fun w => w.toNat / 4096) (hp.view (k := 128) h (by omega) (by omega))

theorem FileTree.files_eq (ht : FileTree s) (h : Touches s.DirWords s t) (hd : s.TreeDir d) :
    t.files d = s.files d := by
  unfold Server.files
  rw [ht.nblock_eq h hd.1]
  exact List.flatMap_congr fun i hi => by rw [ht.ptr h hd (List.mem_range.mp hi)]

theorem FileTree.entryName_eq (ht : FileTree s) (h : Touches s.DirWords s t) (hd : s.TreeDir d)
    (hf : f ∈ s.files d) : t.entryName f = s.entryName f := by
  unfold Server.entryName
  rw [ht.bytesAt h hd hf]

theorem FileTree.reached_iff (ht : FileTree s) (h : Touches s.DirWords s t) :
    t.Reached f ↔ s.Reached f := by
  refine ⟨fun hf => ?_, fun hf => ?_⟩
  · induction hf with
    | root => exact .root
    | entry _ hdir hmem hne ih =>
      have hd : s.TreeDir _ := ⟨ih, (ht.isDir_iff h ih).mp hdir⟩
      rw [ht.files_eq h hd] at hmem
      rw [ht.entryName_eq h hd hmem] at hne
      exact .entry ih hd.2 hmem hne
  · induction hf with
    | root => exact .root
    | entry hd hdir hmem hne ih =>
      rw [← ht.entryName_eq h ⟨hd, hdir⟩ hmem] at hne
      rw [← ht.files_eq h ⟨hd, hdir⟩] at hmem
      exact .entry ih ((ht.isDir_iff h hd).mpr hdir) hmem hne

theorem FileTree.treeDir_iff (ht : FileTree s) (h : Touches s.DirWords s t) :
    t.TreeDir d ↔ s.TreeDir d := by
  unfold Server.TreeDir
  rw [ht.reached_iff h]
  exact and_congr_right fun hd => ht.isDir_iff h hd

theorem FileTree.dirBlock_iff (ht : FileTree s) (h : Touches s.DirWords s t) :
    t.DirBlock c ↔ s.DirBlock c := by
  unfold Server.DirBlock
  simp only [ht.treeDir_iff h]
  refine exists_congr fun d => and_congr_right fun hd => ?_
  rw [ht.nblock_eq h hd.1]
  exact exists_congr fun i => and_congr_right fun hi => by rw [ht.ptr h hd hi]

theorem FileTree.bitmapBlock_iff (ht : FileTree s) (h : Touches s.DirWords s t) :
    t.BitmapBlock c ↔ s.BitmapBlock c := by
  unfold Server.BitmapBlock
  rw [h.nblk (ht.not_dirWords (.inr rfl))]

/-- The pointers of a file stay, those in its index block too. -/
theorem Kept.ptr_eq (ht : OwnTree s) (h : Touches s.DirWords s t) (hf : Kept s f) (hi : i < 1024) :
    t.view (fIndirect f) = s.view (fIndirect f) ∧ t.ptr f i = s.ptr f i := by
  obtain ⟨b, x, hseat⟩ := ht.toFileTree.seat hf.listed
  have hp := hseat.spot ht.toFileTree
  have hind : t.view (fIndirect f) = s.view (fIndirect f) := hp.view (k := 176) h (by omega) (by omega)
  refine ⟨hind, ?_⟩
  unfold Server.ptr
  by_cases h10 : i < 10
  · rw [if_pos h10, if_pos h10, fDirect_eq]
    exact hp.view h (by omega) (by omega)
  · rw [if_neg h10, if_neg h10, hind]
    by_cases h0 : s.view (fIndirect f) = 0#32
    · rw [if_pos h0, if_pos h0]
    · rw [if_neg h0, if_neg h0]
      have hown : s.Owns f none (s.view (fIndirect f)) := ⟨rfl, h0⟩
      have hcap := lt_capacity ht.mounted (hf.owned _ _ hown).2.1.1
      have hat := (at_blockVa hcap).add (n := 4 * i) (by omega)
      refine h.view fun hW => ?_
      rw [hat.blockOf_eq] at hW
      exact hf.not_seat ht ⟨at_blockVa hcap, .inr ⟨hW.1, rfl⟩⟩ hown

theorem Kept.owns_iff (ht : OwnTree s) (h : Touches s.DirWords s t) (hf : Kept s f) :
    t.Owns f o c ↔ s.Owns f o c := by
  cases o with
  | none =>
    unfold Server.Owns
    rw [(hf.ptr_eq ht h (i := 0) (by omega)).1]
  | some i =>
    unfold Server.Owns
    exact and_congr_right fun hi => by rw [(hf.ptr_eq ht h hi).2]

/-- The tree after a walk. -/
theorem OwnTree.touched (ht : OwnTree s) (h : Touches s.DirWords s t) : OwnTree t := by
  have hft := ht.toFileTree
  have hkept : ∀ {f}, t.Reached f → Kept s f := fun hf => ht.kept ((hft.reached_iff h).mp hf)
  have hptr : ∀ {d i}, t.TreeDir d → i < 1024 → t.ptr d i = s.ptr d i := fun hd hi =>
    ((hkept hd.1).ptr_eq ht h hi).2
  have hdir : ∀ {d}, t.TreeDir d → s.TreeDir d := (hft.treeDir_iff h).mp
  have hn : ∀ {d}, t.TreeDir d → t.nblock d = s.nblock d := fun hd => hft.nblock_eq h (hdir hd).1
  have hind : ∀ {d}, t.TreeDir d → t.view (fIndirect d) = s.view (fIndirect d) := fun hd =>
    ((hkept hd.1).ptr_eq ht h (i := 0) (by omega)).1
  refine ⟨⟨hft.mounted_touched h, fun d hd => ?_, fun d hd i hi => ?_, fun d hd h10 => ?_,
    fun d hd f hf => ?_, fun c hc => ⟨?_, fun hb => ?_, fun d hd h10 => ?_⟩⟩, fun f hf k c ho => ?_,
    fun f f' hf hf' k k' c ho ho' => ?_, fun d hd i hi hge => ?_⟩
  · rw [hn hd]
    exact ht.length d (hdir hd)
  · rw [hn hd] at hi
    have hlt := ht.length d (hdir hd)
    obtain ⟨hne, hu⟩ := ht.present d (hdir hd) i hi
    rw [hptr hd (by omega)]
    exact ⟨hne, hft.used h hu⟩
  · rw [hn hd] at h10
    rw [hind hd]
    exact hft.used h (ht.index d (hdir hd) h10)
  · rw [hft.files_eq h (hdir hd)] at hf
    rw [hft.bytesAt h (hdir hd) hf]
    exact ht.terminated d (hdir hd) f hf
  · exact (ht.apart c ((hft.dirBlock_iff h).mp hc)).1
  · exact (ht.apart c ((hft.dirBlock_iff h).mp hc)).2.1 ((hft.bitmapBlock_iff h).mp hb)
  · rw [hn hd] at h10
    rw [hind hd]
    exact (ht.apart c ((hft.dirBlock_iff h).mp hc)).2.2 d (hdir hd) h10
  · obtain ⟨h3, hu, hb⟩ := (hkept hf).owned k c (((hkept hf).owns_iff ht h).mp ho)
    exact ⟨h3, hft.used h hu, fun hb' => hb ((hft.bitmapBlock_iff h).mp hb')⟩
  · exact ht.once f f' ((hft.reached_iff h).mp hf) ((hft.reached_iff h).mp hf') k k' c
      (((hkept hf).owns_iff ht h).mp ho) (((hkept hf').owns_iff ht h).mp ho')
  · rw [hn hd] at hge
    rw [hptr hd hi]
    exact ht.ends d (hdir hd) i hi hge

end Touched

end Fs
end RvMos
