/-
Writing back where no page is marked (`file_flush`, `file_close`, `fs_sync`).

A page is marked with `PTE_DIRTY` until the server exits: nothing takes the flag away
again, and an access to a marked page is a fault.  In a cache without marked pages the
functions that write back look at the blocks and write none.
-/
import RvMos.Fs.Replies
import RvMos.Fs.Truncate

namespace RvMos

open Lib

namespace Fs

open Sys

/-! ## Pages that are not marked -/

/-- No page has `PTE_DIRTY`. -/
def Unmarked (s : Server) : Prop := ∀ v c, s.pages v = some c → c.dirty = false

def StaysUnmarked (s s' : Server) : Prop := Unmarked s → Unmarked s'

instance : Quiet StaysUnmarked where
  refl _ := id
  trans _ _ _ h h' := fun hs => h' (h hs)
  grants _ _ := id
  disk _ _ := id
  page s v c hc := by
    intro hs v' c' h
    simp only at h
    by_cases hv : v' = v
    · rw [hv, Function.update_self] at h
      obtain rfl := Option.some.inj h
      by_contra hd
      obtain ⟨c₀, h₀, hd₀⟩ := hc (Bool.eq_true_of_not_eq_false hd)
      rw [hs _ _ h₀] at hd₀
      exact absurd hd₀ (by decide)
    · rw [Function.update_of_ne hv] at h
      exact hs v' c' h

section Unmarked

variable {α : Type} {s t : Server} {b c f n : Word} {E : Stop → Prop}

theorem Within.unmarked {m : Proc α} {Q : Except Err α → Server → Prop} (h : Within StaysUnmarked m)
    (hu : Unmarked s) (hm : m.wp Q E s) : m.wp (fun r t => Q r t ∧ Unmarked t) E s :=
  wp_conseq (wp_and hm (h s)) fun _ _ ht => ⟨ht.1, ht.2 hu⟩

theorem wp_blockIsDirty {Q : Except Err Bool → Server → Prop} (hb : b.toNat < 262144)
    (hu : Unmarked s) (hQ : Q (.ok false) s) : (blockIsDirty b).wp Q E s := by
  unfold blockIsDirty vaIsMapped
  rw [wp_bind]
  refine wp_diskaddr hb ?_
  simp only
  rw [wp_bind, wp_get_bind, wp_pure]
  simp only
  rw [wp_ite]
  refine ⟨fun _ => ?_, fun _ => wp_pure.mpr hQ⟩
  unfold vaIsDirty
  rw [wp_get_bind]
  cases hc : s.pages (vpn (blockVa b)) with
  | none => exact wp_pure.mpr hQ
  | some c =>
    rw [← hu _ c hc] at hQ
    exact wp_pure.mpr hQ

/-- A block that is not marked is not written. -/
theorem wp_writeBack {Q : Except Err Unit → Server → Prop} (hb : b.toNat < 262144)
    (hu : Unmarked s) (hQ : Q (.ok ()) s) : (do when (← blockIsDirty b) (writeBlock b)).wp Q E s := by
  rw [wp_bind]
  refine wp_blockIsDirty hb hu ?_
  exact wp_pure.mpr hQ

theorem wp_fsSync (hm : Mounted s) (hu : Unmarked s) : fsSync.wp (fun r t => r = .ok () ∧ t = s) E s := by
  have hsz := hm.size
  unfold fsSync
  rw [wp_bind]
  refine wp_nblocks hm ?_
  simp only
  rw [List.range_eq_range']
  refine wp_each_range (fun _ t => t = s) _ rfl ?_ fun t ht => ⟨rfl, ht⟩
  rintro i t - hi rfl
  refine wp_writeBack ?_ hu rfl
  rw [BitVec.toNat_ofNat]
  omega

end Unmarked

/-! ## Flushing a file -/

/-- What `file_flush` needs of a file. -/
structure Flushable (s : Server) (f : Word) : Prop where
  record : ∃ b x, Record s f b x
  index : s.view (fIndirect f) ≠ 0#32 → s.Used (s.view (fIndirect f))
  data : ∀ i < 1024, (s.ptr f i).toNat < 262144

section Flush

variable {s t : Server} {b c f n : Word} {x i : ℕ}

theorem ptr_of_reads (h : Reads s t) (f : Word) (i : ℕ) : t.ptr f i = s.ptr f i := by
  unfold Server.ptr
  simp only [h.view]

theorem Flushable.of_reads (h : Flushable s f) (hr : Reads s t) : Flushable t f := by
  obtain ⟨b, x, hrec⟩ := h.record
  refine ⟨⟨b, x, hrec.touches hr.toTouches⟩, fun h0 => ?_, fun i hi => ?_⟩
  · rw [hr.view] at h0 ⊢
    exact (hr.toTouches.used_iff _).mpr (h.index h0)
  · rw [ptr_of_reads hr]
    exact h.data i hi

theorem Held.flushable (hm : Mounted s) (h : Held s f b x) : Flushable s f := by
  refine ⟨⟨b, x, h.record⟩, fun h0 => (h.index h0).2, fun i hi => ?_⟩
  by_cases h0 : s.ptr f i = 0#32
  · rw [h0]
    decide
  · exact lt_capacity hm (h.data i hi h0).2.1

/-- `file_map_block` without allocation finds a block of the disk or returns an error. -/
theorem wp_fileMapBlock_look (hm : Mounted s) (hf : Flushable s f) (n : Word) :
    (fileMapBlock f n false).wp (fun r t => Reads s t ∧ ∀ c, r = .ok c → c.toNat < 262144)
      (Starved s) s := by
  obtain ⟨b, x, hr⟩ := hf.record
  have hn : BitVec.ofNat 32 n.toNat = n := by rw [BitVec.ofNat_toNat, BitVec.setWidth_eq]
  by_cases hlt : n.toNat < 1024
  · rw [← hn]
    by_cases h0 : s.ptr f n.toNat = 0#32
    · refine wp_fileMapBlock_none hm hr hlt h0 (fun h10 hhas => hf.index (hhas.resolve_left h10))
        (fun t ht => ⟨ht, by simp⟩) fun _ => id
    · have hhas : s.HasSlot f n.toNat := by
        by_contra h
        exact h0 (ptr_eq_zero h)
      refine wp_fileMapBlock hm hr hlt h0 (fun h10 => hf.index (hhas.resolve_left h10))
        (fun t ht => ⟨ht, fun c hc => ?_⟩) fun _ => id
      obtain rfl := Except.ok.inj hc
      exact hf.data _ hlt
  · have hle : nindirect ≤ n := by
      have h1024 : nindirect.toNat = 1024 := rfl
      exact BitVec.le_def.mpr (by omega)
    unfold fileMapBlock
    rw [wp_bind]
    exact wp_fileBlockWalk_big hle ⟨refl_of Reads s, by simp⟩

theorem wp_flushBlock (hm : Mounted s) (hf : Flushable s f) (hu : Unmarked s) (n : ℕ) :
    (flushBlock f n).wp (fun r t => r = .ok () ∧ Reads s t ∧ Unmarked t) (Starved s) s := by
  unfold flushBlock
  refine wp_attempt_seq ((within_fileMapBlock f _ false).unmarked hu (wp_fileMapBlock_look hm hf _))
    fun r t ht => ?_
  obtain ⟨⟨hr, hlt⟩, hut⟩ := ht
  cases r with
  | error e => exact wp_pure.mpr ⟨rfl, hr, hut⟩
  | ok c => exact wp_writeBack (hlt c rfl) hut ⟨rfl, hr, hut⟩

theorem wp_fileFlush (hm : Mounted s) (hf : Flushable s f) (hu : Unmarked s) :
    (fileFlush f).wp (fun r t => r = .ok () ∧ Reads s t ∧ Unmarked t) (Starved s) s := by
  obtain ⟨b, x, hr⟩ := hf.record
  unfold fileFlush
  rw [wp_bind]
  refine wp_load (hr.cached_field (n := 128) (by omega)) ?_
  simp only
  rw [List.range_eq_range']
  refine wp_each_range (fun _ t => Reads s t ∧ Unmarked t) _ ⟨refl_of Reads s, hu⟩ ?_
    fun t ht => ⟨rfl, ht⟩
  rintro n t - - ⟨hrd, hut⟩
  refine wp_mono (wp_flushBlock (hrd.mounted id hm) (hf.of_reads hrd) hut n) (fun r u hu => ?_)
    fun c hc => hc.of_reads hrd
  obtain ⟨rfl, hru, huu⟩ := hu
  exact ⟨trans_of Reads hrd hru, huu⟩

/-- The directory that `f_dir` names can be flushed, if there is one. -/
def DirFlushable (s : Server) (f : Word) : Prop :=
  s.Cached (fDir f) ∧ (s.view (fDir f) ≠ 0#32 → Flushable s (s.view (fDir f)))

theorem DirFlushable.of_reads (h : DirFlushable s f) (hr : Reads s t) : DirFlushable t f := by
  refine ⟨hr.cached _ h.1, fun h0 => ?_⟩
  rw [hr.view] at h0 ⊢
  exact (h.2 h0).of_reads hr

theorem wp_flushDir (hm : Mounted s) (hd : DirFlushable s f) (hu : Unmarked s) :
    (flushDir f).wp (fun r _ => r = .ok ()) (Starved s) s := by
  unfold flushDir
  rw [wp_bind]
  refine wp_load hd.1 ?_
  simp only
  rw [wp_when]
  exact ⟨fun h0 => wp_conseq (wp_fileFlush hm (hd.2 h0) hu) fun _ _ h => h.1, fun _ => rfl⟩

theorem wp_fileClose (hm : Mounted s) (hf : Flushable s f) (hd : DirFlushable s f) (hu : Unmarked s) :
    (fileClose f).wp (fun r _ => r = .ok ()) (Starved s) s := by
  unfold fileClose
  rw [wp_bind]
  refine wp_conseq (wp_fileFlush hm hf hu) fun r t ht => ?_
  obtain ⟨rfl, hr, hut⟩ := ht
  exact wp_mono (wp_flushDir (hr.mounted id hm) (hd.of_reads hr) hut) (fun _ _ => id)
    fun c hc => hc.of_reads hr

/-- `dirty_block` of a block of the disk does not stop. -/
theorem wp_dirtyBlock {E : Stop → Prop} (hc : c.toNat < 262144) :
    (dirtyBlock c).wp (fun _ _ => True) E s := by
  unfold dirtyBlock vaIsMapped vaIsDirty memMapDirty setPage
  rw [wp_bind]
  refine wp_diskaddr hc ?_
  simp only
  rw [wp_bind, wp_get_bind, wp_pure]
  cases hp : s.pages (vpn (blockVa c)) with
  | none => exact wp_throw.mpr trivial
  | some p =>
    simp only [Option.isSome_some, if_true]
    rw [wp_bind, wp_get_bind, hp, wp_pure]
    simp only
    rw [wp_ite]
    refine ⟨fun _ => wp_pure.mpr trivial, fun _ => ?_⟩
    rw [legal_blockVa hc, if_neg (by simp), wp_get_bind, hp]
    exact wp_modify.mpr trivial

theorem wp_fileDirty (hm : Mounted s) (hf : Flushable s f) (offset : Word) :
    (fileDirty f offset).wp (fun _ _ => True) (Starved s) s := by
  unfold fileDirty
  rw [wp_bind]
  refine wp_conseq (wp_fileMapBlock_look hm hf _) fun r t ht => ?_
  cases r with
  | error e => trivial
  | ok c => exact wp_dirtyBlock (ht.2 c rfl)

end Flush

end Fs
end RvMos
