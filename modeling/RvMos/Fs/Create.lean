/-
Creating a file (`file_create`), and what a failure leaves behind.

A walk ends at an existing file, at an error, or in a directory that lacks the last
component.  In the first two cases nothing has changed but the `f_dir` of the files
on the way.  In the third the new entry is the first without a name, and where
there is none the directory grows by a block: its size is written before the block
is asked for, and it stays when there is no block.
-/
import RvMos.Fs.Alloc
import RvMos.Fs.Walk

namespace RvMos

open Lib

namespace Fs

open Sys

/-! ## Procedures without error codes -/

theorem noError_touch (va : Word) : NoError (touch va) := by
  refine noError_bind noError_get fun s => ?_
  cases s.pages (vpn va) with
  | some c => exact noError_pure ()
  | none =>
    refine noError_ite (noError_halt _) (noError_bind ?_ fun g => ?_)
    · refine noError_bind noError_get fun s => ?_
      cases s.grants with
      | nil => exact noError_pure true
      | cons g gs => exact noError_bind (noError_modify _) fun _ => noError_pure g
    · exact noError_ite (noError_modify _) (noError_halt _)

theorem noError_load (va : Word) : NoError (load va) :=
  noError_bind (noError_touch va) fun _ => noError_bind noError_get fun _ => noError_pure _

theorem noError_store (va w : Word) : NoError (store va w) :=
  noError_bind (noError_touch va) fun _ => noError_modify _

theorem noError_storeByte (va : Word) (b : Byte) : NoError (storeByte va b) :=
  noError_bind (noError_load va) fun _ => noError_store va _

theorem noError_strcpy (p : Word) (name : List Byte) : NoError (strcpy p name) := by
  induction name generalizing p with
  | nil => exact noError_storeByte p 0#8
  | cons c cs ih => exact noError_bind (noError_storeByte p c) fun _ => ih _

theorem noError_granted : NoError granted := by
  refine noError_bind noError_get fun s => ?_
  cases s.grants with
  | nil => exact noError_pure true
  | cons g gs => exact noError_bind (noError_modify _) fun _ => noError_pure g

theorem noError_blockIsFree (b : Word) : NoError (blockIsFree b) := by
  refine noError_bind noError_get fun _ => noError_ite ?_ (noError_pure false)
  refine noError_bind (noError_load _) fun _ => noError_ite (noError_pure false) ?_
  refine noError_bind (noError_bind noError_get fun _ => noError_pure _) fun _ => ?_
  exact noError_bind (noError_load _) fun _ => noError_pure _

theorem noError_diskaddr (b : Word) : NoError (diskaddr b) :=
  noError_ite (noError_halt _) (noError_pure _)

theorem noError_readDisk (sector va : Word) : NoError (readDisk sector va) := by
  refine noError_bind noError_get fun s => ?_
  cases s.pages (vpn va) with
  | some c => exact noError_modify _
  | none =>
    exact noError_bind noError_granted fun g => noError_ite (noError_modify _) (noError_halt _)

theorem noError_readBlock (b : Word) : NoError (readBlock b) := by
  refine noError_bind ?_ fun _ => noError_bind (noError_diskaddr b) fun va => ?_
  · refine noError_bind noError_get fun _ => noError_bind (noError_when ?_) fun _ =>
      noError_bind noError_get fun _ => noError_when ?_
    · exact noError_bind (noError_load _) fun _ => noError_when (noError_halt _)
    · exact noError_bind (noError_blockIsFree b) fun _ => noError_when (noError_halt _)
  · refine noError_bind ?_ fun _ => noError_ite (noError_pure va) ?_
    · exact noError_bind (noError_diskaddr b) fun _ => noError_bind noError_get fun _ => noError_pure _
    · exact noError_bind noError_attempt fun _ => noError_bind (noError_readDisk _ va) fun _ =>
        noError_pure va

/-! ## Growing a directory -/

section Grow

variable {s s' : Server} {d b : Word} {x : ℕ}

/-- `read_block` stops the server at a block that is not in use. -/
theorem wp_checkBlock_stop {Q : Except Err Unit → Server → Prop} {E : Stop → Prop} (hm : Mounted s)
    (h : ¬s.Used b) (hE : ∀ c, E c) : (checkBlock b).wp Q E s := by
  unfold checkBlock
  rw [wp_get_bind, wp_bind, wp_when]
  refine ⟨fun _ => ?_, fun hn => absurd hm.super hn⟩
  rw [wp_bind]
  refine wp_nblocks hm ?_
  simp only
  rw [wp_when]
  refine ⟨fun _ => wp_halt.mpr (hE _), fun hlt => ?_⟩
  have hlt : b < s.nblk := BitVec.not_le.mp hlt
  have hfree : s.Free b := not_not.mp fun hn => h ⟨hlt, hn⟩
  rw [wp_get_bind, wp_when]
  refine ⟨fun _ => ?_, fun hn => absurd hm.bitmap hn⟩
  rw [wp_bind]
  refine wp_blockIsFree hm hlt ?_
  simp only
  rw [wp_when, decide_eq_true_iff]
  exact ⟨fun _ => wp_halt.mpr (hE _), fun hn => absurd hfree hn⟩

/-- Where `read_block` returns, the block is in use and in the cache, and no word has
changed. -/
theorem wp_readBlock_any {Q : Except Err Word → Server → Prop} {E : Stop → Prop} (hm : Mounted s)
    (hQ : ∀ s', Reads s s' → s.Used b → s'.Cached (blockVa b) → Q (.ok (blockVa b)) s')
    (hE : ∀ c, E c) : (readBlock b).wp Q E s := by
  by_cases hu : s.Used b
  · exact wp_readBlock hm hu.1 hu.2 (fun s' hr hc => hQ s' hr hu hc) fun c _ => hE c
  · unfold readBlock
    rw [wp_bind]
    exact wp_checkBlock_stop hm hu hE

/-- A block that is taken is not the one of a record in use. -/
theorem Taken.record {c : Word} (h : Taken s s' c) (hr : Record s d b x) (hout : ¬s.BitmapBlock b)
    (hu : b.toNat < 3 ∨ s.Used b) {n : ℕ} (hn : n < 256) :
    s'.view (d + BitVec.ofNat 32 n) = s.view (d + BitVec.ofNat 32 n) := by
  have hat := hr.at_field hn
  refine h.touches.view fun hW => ?_
  rw [hat.blockOf_eq] at hW
  rcases hW with (hW | hW) | ⟨rfl, -⟩
  · exact hout hW
  · exact absurd hat.block (not_lt.mpr hW)
  · rcases hu with hu | hu
    · exact absurd h.range.1 (not_le.mpr hu)
    · exact hu.2 h.free

theorem Taken.mounted {c : Word} (h : Taken s s' c) (hm : Mounted s) : Mounted s' := by
  refine h.touches.mounted ?_ hm
  rintro (hW | ⟨hc, -⟩)
  · exact not_allocWords_super hW
  · have h3 := h.range.1
    rw [← hc] at h3
    exact absurd h3 (by decide)

theorem allocWords_record {s' : Server} (h : Touches s.AllocWords s s') (hr : Record s d b x)
    (hout : ¬s.BitmapBlock b) {n : ℕ} (hn : n < 256) :
    s'.view (d + BitVec.ofNat 32 n) = s.view (d + BitVec.ofNat 32 n) := by
  have hat := hr.at_field hn
  refine h.view fun hW => ?_
  rw [hat.blockOf_eq] at hW
  rcases hW with hW | hW
  · exact hout hW
  · exact absurd hat.block (not_lt.mpr hW)

/-- A slot gets a block, or an error leaves the record alone. -/
theorem wp_fillSlot_alloc {Q : Except Err Unit → Server → Prop} {E : Stop → Prop} {va : Word}
    (hm : Mounted s) (hc : s.Cached va) (hfull : s.view va ≠ 0#32 → Q (.ok ()) s)
    (herr : ∀ e s', Touches s.AllocWords s s' → Q (.error e) s')
    (hok : s.view va = 0#32 → ∀ c s', Taken s s' c → Q (.ok ()) (s'.setWord va c)) :
    (fillSlot va true).wp Q E s := by
  unfold fillSlot
  rw [wp_bind]
  refine wp_load hc ?_
  simp only
  rw [wp_when]
  refine ⟨fun h0 => ?_, hfull⟩
  rw [if_pos trivial, wp_bind]
  refine wp_allocBlock hm (fun _ => herr _ s (refl_of (Touches _) s)) (fun s' h _ => herr _ s' h)
    fun c s' h => ?_
  exact wp_store (h.touches.cached va hc) (hok h0 c s' h)

/-- The slot that `file_block_walk` returns can be read and its record is as before. -/
structure Walkable (s t : Server) (d b : Word) (x : ℕ) (va : Word) : Prop where
  mounted : Mounted t
  slot : t.Cached va
  record : Record t d b x
  outside : ¬t.BitmapBlock b
  size : t.view (fSize d) = s.view (fSize d)

theorem wp_fileBlockWalk_alloc {n : ℕ} (hn : n < 2 ^ 32) (hm : Mounted s) (hr : Record s d b x)
    (hout : ¬s.BitmapBlock b) (hu : b.toNat < 3 ∨ s.Used b) :
    (fileBlockWalk d (BitVec.ofNat 32 n) true).wp (fun r t =>
      (∀ e, r = .error e → t.view (fSize d) = s.view (fSize d)) ∧
        ∀ va, r = .ok va → Walkable s t d b x va) (fun _ => True) s := by
  have hx := hr.aligned
  unfold fileBlockWalk
  by_cases h10 : n < 10
  · rw [if_pos (lt_ndirect h10), fDirect_eq]
    refine wp_pure.mpr ⟨by simp, fun va hva => ?_⟩
    obtain rfl := Except.ok.inj hva
    exact ⟨hm, hr.cached_field (by omega), hr, hout, rfl⟩
  by_cases h1024 : n < 1024
  · rw [if_neg (not_lt_ndirect h1024 h10), if_pos (lt_nindirect h1024), wp_bind]
    have hci : s.Cached (fIndirect d) := hr.cached_field (n := 176) (by omega)
    -- the state in which the index block is read
    have hread : ∀ t, Mounted t → Record t d b x → ¬t.BitmapBlock b →
        t.view (fSize d) = s.view (fSize d) → (do
          let blk ← readBlock (← load (fIndirect d))
          pure (blk + 4#32 * BitVec.ofNat 32 n) : Proc Word).wp (fun r t =>
            (∀ e, r = .error e → t.view (fSize d) = s.view (fSize d)) ∧
              ∀ va, r = .ok va → Walkable s t d b x va) (fun _ => True) t := by
      intro t hmt hrt hot hst
      rw [wp_bind]
      refine wp_load (hrt.cached_field (n := 176) (by omega)) ?_
      simp only
      rw [wp_bind]
      refine wp_readBlock_any hmt (fun t' hrd hu hc => wp_pure.mpr ⟨by simp, fun va hva => ?_⟩)
        fun _ => trivial
      obtain rfl := Except.ok.inj hva
      have hb := lt_capacity hmt hu.1
      have hat := (at_blockVa hb).add (n := 4 * n) (by omega)
      rw [mul_ofNat]
      refine ⟨hrd.mounted id hmt, hc.of_vpn (hat.vpn_eq.trans (at_blockVa hb).vpn_eq.symm),
        hrt.touches hrd.toTouches, fun h => hot ((hrd.bitmapBlock b).mp h), (hrd.view _).trans hst⟩
    refine wp_fillSlot_alloc hm hci (fun _ => hread s hm hr hout rfl) (fun e s' h => ?_)
      fun _ c s' h => ?_
    · exact ⟨fun _ _ => allocWords_record h hr hout (n := 128) (by omega), by simp⟩
    · have hrec := hr.touches h.touches
      have hw : Touches (fun c o => c = b ∧ o.val = (x + 176) / 4) s' (s'.setWord (fIndirect d) c) := by
        have hat : At (fIndirect d) b (x + 176) := hr.at_field (n := 176) (by omega)
        exact touches_setWord (h.touches.cached _ hci) ⟨hat.blockOf_eq, hat.wordIdx_val⟩
      have hsuper : ¬((1#32 : Word) = b ∧ (1 : Index).val = (x + 176) / 4) := by
        rintro ⟨hb, ho⟩
        have h8 := hr.head hb.symm
        have h1 : ((1 : Index).val) = 1 := rfl
        omega
      have hnblk : (s'.setWord (fIndirect d) c).nblk = s.nblk := by
        rw [hw.nblk hsuper]
        refine h.touches.nblk ?_
        rintro (hW | ⟨hc, -⟩)
        · exact not_allocWords_super hW
        · have h3 := h.range.1
          rw [← hc] at h3
          exact absurd h3 (by decide)
      refine hread _ (hw.mounted hsuper (h.mounted hm)) (hrec.touches hw) (fun hb => hout ?_) ?_
      · unfold Server.BitmapBlock at hb ⊢
        rw [hnblk] at hb
        exact hb
      · have hv := hrec.view_store (w := c) (n := 176) (m := 128) (by omega) (by omega)
        rw [if_neg (by omega)] at hv
        exact hv.trans (h.record hr hout hu (n := 128) (by omega))
  · have hle : nindirect ≤ BitVec.ofNat 32 n := by
      refine BitVec.not_lt.mp fun h => h1024 ?_
      exact (ofNat_lt_iff (m := 1024) hn (by omega)).mp h
    have h1 : ¬BitVec.ofNat 32 n < nindirect := BitVec.not_lt.mpr hle
    have h2 : ¬BitVec.ofNat 32 n < ndirect := fun h => h1 (BitVec.lt_trans h (by decide))
    rw [if_neg h2, if_neg h1]
    exact wp_throw.mpr ⟨fun _ _ => rfl, by simp⟩

/-- If `file_get_block` fails for a directory, its size is as before. -/
theorem wp_fileGetBlock_size {n : ℕ} (hn : n < 2 ^ 32) (hm : Mounted s) (hr : Record s d b x)
    (hout : ¬s.BitmapBlock b) (hu : b.toNat < 3 ∨ s.Used b) :
    (fileGetBlock d (BitVec.ofNat 32 n)).wp
      (fun r t => ∀ e, r = .error e → t.view (fSize d) = s.view (fSize d)) (fun _ => True) s := by
  unfold fileGetBlock fileMapBlock
  rw [wp_bind, wp_bind]
  refine wp_conseq (wp_fileBlockWalk_alloc hn hm hr hout hu) fun r t ⟨herr, hok⟩ => ?_
  cases r with
  | error e => exact fun _ _ => herr e rfl
  | ok va =>
    obtain ⟨hmt, hc, hrt, hot, hsz⟩ := hok va rfl
    -- once the slot has its block there are no more errors
    have hend : ∀ t', (do readBlock (← load va) : Proc Word).wp
        (fun r u => ∀ e, r = .error e → u.view (fSize d) = s.view (fSize d)) (fun _ => True) t' :=
      fun t' => wp_conseq (noError_bind (noError_load va) (fun p => noError_readBlock p) t')
        fun r u hr e he => by
          obtain ⟨p, rfl⟩ := hr
          exact absurd he (by simp)
    simp only
    rw [wp_bind]
    refine wp_fillSlot_alloc hmt hc (fun _ => wp_bind.mp (hend t)) (fun e t' h _ _ => ?_)
      fun _ c t' _ => wp_bind.mp (hend _)
    exact (allocWords_record h hrt hot (n := 128) (by omega)).trans hsz

end Grow

/-! ## Free entries -/

/-- The first record of a directory without a name. -/
def Server.freeEntry (s : Server) (d : Word) : Option Word :=
  (s.files d).find? fun f => s.byte f = 0#8

section FreeEntry

variable {s s' : Server} {d : Word} {E : Stop → Prop}

theorem wp_freeEntry {Q : Except Err (Option Word) → Server → Prop} {fs : List Word}
    (hfs : ∀ f ∈ fs, s.Cached f) (hQ : Q (.ok (fs.find? fun f => s.byte f = 0#8)) s) :
    (freeEntry fs).wp Q E s := by
  induction fs with
  | nil => exact wp_pure.mpr hQ
  | cons f fs ih =>
    unfold freeEntry
    rw [wp_bind]
    refine wp_loadByte (hfs f List.mem_cons_self) ?_
    simp only
    rw [wp_ite]
    refine ⟨fun h0 => ?_, fun hn => ih (fun g hg => hfs g (List.mem_cons_of_mem f hg)) ?_⟩
    · rw [List.find?_cons_of_pos (p := fun f => s.byte f = 0#8) (decide_eq_true h0)] at hQ
      exact wp_pure.mpr hQ
    · rw [List.find?_cons_of_neg (p := fun f => s.byte f = 0#8) (by simpa using hn)] at hQ
      exact hQ

/-- The search of `dir_alloc_file` for an entry. -/
theorem wp_freeEntryIn {is : List ℕ} (ht : FileTree s) (hd : s.TreeDir d)
    (his : ∀ i ∈ is, i < s.nblock d) (h : Touches s.DirWords s s') (hc : s'.Cached d) :
    (freeEntryIn d is).wp (fun r t => Reads s' t ∧ ∃ o, r = .ok o ∧
      o = ((is.flatMap fun i => blockFiles (blockVa (s.ptr d i))).find? fun f => s.byte f = 0#8) ∧
      ∀ f, o = some f → ∀ k < 256, t.Cached (f + BitVec.ofNat 32 k)) (Starved s) s' := by
  induction is generalizing s' with
  | nil => exact wp_pure.mpr ⟨refl_of Reads s', none, rfl, rfl, by simp⟩
  | cons i is ih =>
    have hi := his i List.mem_cons_self
    unfold freeEntryIn
    rw [wp_bind]
    refine ht.wp_getBlock hd hi h hc (fun s₁ hr hpage => ?_) fun _ => id
    simp only
    rw [wp_bind, List.flatMap_cons, List.find?_append]
    have h₁ : Touches s.DirWords s s₁ := trans_of (Touches _) h hr.touches
    have hfind : (blockFiles (blockVa (s.ptr d i))).find? (fun f => s₁.byte f = 0#8) =
        (blockFiles (blockVa (s.ptr d i))).find? (fun f => s.byte f = 0#8) :=
      List.find?_congr fun f hf => by rw [ht.byte h₁ hd (mem_files_of_block hi hf)]
    refine wp_freeEntry (fun f hf => ?_) ?_
    · have hcf := hpage f hf 0 (by omega)
      rw [BitVec.add_zero] at hcf
      exact hcf
    rw [hfind]
    cases hfree : (blockFiles (blockVa (s.ptr d i))).find? fun f => s.byte f = 0#8 with
    | some f =>
      refine wp_pure.mpr ⟨hr, some f, rfl, rfl, fun g hg => ?_⟩
      obtain rfl := Option.some.inj hg
      exact hpage f (List.mem_of_find?_eq_some hfree)
    | none =>
      refine wp_conseq (ih (fun j hj => his j (List.mem_cons_of_mem i hj)) h₁ (hr.cached _ hc))
        fun r t hrt => ⟨trans_of Reads hr hrt.1, hrt.2⟩

end FreeEntry

/-! ## A failed create -/

/-- The blocks that names and files are found through. -/
def Server.MetaBlock (s : Server) (c : Word) : Prop :=
  c = 1#32 ∨ s.BitmapBlock c ∨ s.DirBlock c ∨
    ∃ f, s.Reached f ∧ s.view (fIndirect f) = c ∧ c ≠ 0#32

/-- The file system is as before: so are these blocks and the outcome of every walk. -/
structure Intact (s s' : Server) : Prop where
  blocks : ∀ c, s.MetaBlock c → ∀ o, s'.block c o = s.block c o
  walks : ∀ cs w, Outcome s' cs w ↔ Outcome s cs w

section Intact

variable {s s' : Server} {d f : Word} {cs : List (List Byte)} {w : Walk}

theorem isDir_congr (h : s'.view = s.view) (d : Word) : s'.IsDir d ↔ s.IsDir d := by
  unfold Server.IsDir
  rw [h]

theorem ptr_congr (h : s'.view = s.view) : s'.ptr = s.ptr := by
  funext f n
  unfold Server.ptr
  rw [h]

theorem files_congr (h : s'.view = s.view) : s'.files = s.files := by
  funext d
  unfold Server.files Server.nblock
  rw [h, ptr_congr h]

theorem lookup_congr (h : s'.view = s.view) : s'.lookup = s.lookup := by
  have hname : s'.entryName = s.entryName := by
    funext f
    unfold Server.entryName
    rw [bytesAt_congr fun k _ => congrFun h _]
  funext d c
  unfold Server.lookup
  rw [files_congr h, hname]

theorem child_congr (h : s'.view = s.view) : s'.child = s.child := by
  funext d c
  unfold Server.child
  simp only [isDir_congr h d, lookup_congr h]

theorem resolve_congr (h : s'.view = s.view) : s'.resolve = s.resolve := by
  funext cs
  unfold Server.resolve
  rw [child_congr h]

/-- The outcome of a walk depends on the words of the blocks only. -/
theorem Outcome.congr (h : s'.view = s.view) (ho : Outcome s cs w) : Outcome s' cs w := by
  have hres := resolve_congr h
  have hpar : s'.parent cs = s.parent cs := by
    unfold Server.parent
    rw [hres]
  have hstuck : ∀ {d c post}, s.Stuck cs d c post → s'.Stuck cs d c post := by
    rintro d c post ⟨pre, hcs, hpre, hc⟩
    exact ⟨pre, hcs, hres ▸ hpre, child_congr h ▸ hc⟩
  cases ho with
  | reached hf =>
    rw [← hpar]
    exact .reached (hres ▸ hf)
  | tooLong hs hlen => exact .tooLong (hstuck hs) hlen
  | lastMissing hs hlt hd => exact .lastMissing (hstuck hs) hlt ((isDir_congr h _).mpr hd)
  | missing hs hlt hor =>
    exact .missing (hstuck hs) hlt (hor.imp_right (not_congr (isDir_congr h _)).mpr)

theorem Reads.intact (h : Reads s s') : Intact s s' := by
  have hv : s'.view = s.view := funext h.view
  exact ⟨fun c _ o => h.block c o id, fun cs w => ⟨.congr hv.symm, .congr hv⟩⟩

/-- The record of a file of the tree is in a block that files are found through. -/
theorem FileTree.metaBlock (ht : FileTree s) (hd : s.Reached d) :
    ∃ b x, Spot s d b x ∧ s.MetaBlock b ∧ ¬s.BitmapBlock b ∧ (b.toNat < 3 ∨ s.Used b) := by
  cases hd with
  | root =>
    obtain ⟨b, x, hp⟩ := ht.spot .root
    have hat : At sRoot 1#32 8 := ⟨rfl, by decide, by omega⟩
    obtain ⟨rfl, rfl⟩ := hp.place.addr_inj hat
    refine ⟨1#32, 8, hp, .inl rfl, ?_, .inl (by decide)⟩
    unfold Server.BitmapBlock
    have h1 : (1#32 : Word).toNat = 1 := rfl
    omega
  | @entry d' _ hd' hdir hf _ =>
    obtain ⟨c, hc, j, hj, hat⟩ := mem_files ht ⟨hd', hdir⟩ hf
    obtain ⟨b, x, hp⟩ := ht.entrySpot ⟨hd', hdir⟩ hf
    obtain ⟨rfl, rfl⟩ := hp.place.addr_inj hat
    obtain ⟨e, he, i, hi, hptr⟩ := id hc
    exact ⟨_, _, hp, .inr (.inr (.inl hc)), (ht.apart _ hc).2.1,
      .inr (hptr ▸ (ht.present e he i hi).2)⟩

/-- A directory whose size has changed is not as before. -/
theorem FileTree.not_intact (ht : FileTree s) (hd : s.Reached d)
    (h : s'.view (fSize d) ≠ s.view (fSize d)) : ¬Intact s s' := by
  obtain ⟨b, x, hp, hmeta, -⟩ := ht.metaBlock hd
  have hroom := hp.room
  have hat : At (fSize d) b (x + 128) := hp.place.add (n := 128) (by omega)
  intro hi
  refine h (hi.blocks _ ?_ _)
  rw [hat.blockOf_eq]
  exact hmeta

/-- Components that are not empty lead to files of the tree. -/
theorem reached_resolve (hcs : ∀ c ∈ cs, c ≠ []) (hf : s.resolve cs = some f) : s.Reached f := by
  induction cs using List.reverseRecOn generalizing f with
  | nil =>
    obtain rfl : sRoot = f := Option.some.inj hf
    exact .root
  | append_singleton cs c ih =>
    rw [resolve_append] at hf
    obtain ⟨d, hd, hf⟩ := Option.bind_eq_some_iff.mp hf
    have hchild : s.child d c = some f := by
      rw [← hf]
      exact (List.foldlM_cons.trans (bind_pure _)).symm
    have hreach := ih (fun c' hc' => hcs c' (List.mem_append_left _ hc')) hd
    unfold Server.child at hchild
    split_ifs at hchild with hc
    exact reached_lookup ⟨hreach, hc.2⟩ (hcs c (by simp)) hchild

theorem components_ne_nil (path : List Byte) : ∀ c ∈ components path, c ≠ [] := fun c hc => by
  unfold components runs at hc
  simpa using (List.mem_filter.mp hc).2

/-- `dir_alloc_file` finds an entry, or it goes on in the directory grown by a block. -/
theorem wp_dirAllocFile {Q : Except Err Word → Server → Prop} {E : Stop → Prop} (ht : FileTree s)
    (hd : s.TreeDir d) (h : Reads s s') (hc : s'.Cached d)
    (hfound : ∀ f t, s.freeEntry d = some f → Reads s t →
      (∀ k < 256, t.Cached (f + BitVec.ofNat 32 k)) → Q (.ok f) t)
    (hgrow : ∀ t, s.freeEntry d = none → Reads s t → t.Cached d → t.Cached (fSize d) →
      (fileGetBlock d (BitVec.ofNat 32 (s.nblock d))).wp Q E
        (t.setWord (fSize d) (s.view (fSize d) + by2blk))) (hE : ∀ c, Starved s c → E c) :
    (dirAllocFile d).wp Q E s' := by
  obtain ⟨b, x, hp, -, -, -⟩ := ht.metaBlock hd.1
  have hcached : ∀ t, Reads s' t → t.Cached (fSize d) := fun t hr =>
    (hp.record (hr.cached _ hc)).cached_field (n := 128) (by omega)
  have hn : (s'.view (fSize d) / by2blk).toNat = s.nblock d := by
    rw [h.view, BitVec.toNat_udiv]
    rfl
  have hofNat : s'.view (fSize d) / by2blk = BitVec.ofNat 32 (s.nblock d) := by
    rw [← hn, BitVec.ofNat_toNat, BitVec.setWidth_eq]
  unfold dirAllocFile
  rw [wp_bind]
  refine wp_load (hcached s' (refl_of Reads s')) ?_
  simp only
  rw [wp_bind, hn]
  refine wp_mono (wp_freeEntryIn ht hd (fun i hi => List.mem_range.mp hi) h.touches hc)
    (fun r t hr => ?_) hE
  obtain ⟨hrt, o, rfl, ho, hpage⟩ := hr
  have ho : o = s.freeEntry d := ho
  have hst := trans_of Reads h hrt
  cases o with
  | some f => exact wp_pure.mpr (hfound f t ho.symm hst (hpage f rfl))
  | none =>
    simp only
    rw [wp_bind]
    refine wp_load (hcached t hrt) ?_
    simp only
    rw [wp_bind]
    refine wp_store (hcached t hrt) ?_
    simp only
    rw [hofNat, hst.view]
    exact hgrow t ho.symm hst (hrt.cached _ hc) (hcached t hrt)

/-- If `dir_alloc_file` fails, the directory has grown without a block. -/
theorem wp_dirAllocFile_fails (ht : FileTree s) (hd : s.TreeDir d) (h : Reads s s')
    (hc : s'.Cached d) : (dirAllocFile d).wp (fun r t => ∀ e, r = .error e → ¬Intact s t)
      (fun _ => True) s' := by
  refine wp_dirAllocFile ht hd h hc (fun f t _ _ _ e he => by cases he) (fun t _ hst hct hsize' => ?_)
    fun _ _ => trivial
  obtain ⟨b, x, hp, -, hout, hu⟩ := ht.metaBlock hd.1
  have hlt : s.nblock d < 2 ^ 32 := (s.view (fSize d) / by2blk).isLt
  have hmt := hst.mounted id ht.mounted
  have hrec := hp.record hct
  have hat : At (fSize d) b (x + 128) := hrec.at_field (n := 128) (by omega)
  have hw : Touches (fun c o => c = b ∧ o.val = (x + 128) / 4) t
      (t.setWord (fSize d) (s.view (fSize d) + by2blk)) :=
    touches_setWord hsize' ⟨hat.blockOf_eq, hat.wordIdx_val⟩
  have hsuper : ¬((1#32 : Word) = b ∧ (1 : Index).val = (x + 128) / 4) := by
    have h1 : ((1 : Index).val) = 1 := rfl
    omega
  have hnblk := hw.nblk hsuper
  have hbit : ∀ c, (t.setWord (fSize d) (s.view (fSize d) + by2blk)).BitmapBlock c ↔
      s.BitmapBlock c := fun c => by
    unfold Server.BitmapBlock
    rw [hnblk, hst.nblk]
  have hused : b.toNat < 3 ∨ (t.setWord (fSize d) (s.view (fSize d) + by2blk)).Used b := by
    refine hu.imp_right fun hub => ⟨?_, fun hfree => hub.2 ?_⟩
    · rw [hnblk, hst.nblk]
      exact hub.1
    · have hblk := bitmapBlock_of_at ht.mounted (inBitmap_of_lt hub.1)
      rw [free_setWord hsize' fun he => hout (hat.blockOf_eq ▸ he ▸ hblk)] at hfree
      exact (hst.free b).mp hfree
  refine wp_conseq (wp_fileGetBlock_size hlt (hw.mounted hsuper hmt) (hrec.touches hw)
    (fun hb => hout ((hbit b).mp hb)) hused) fun r u hr e he => ht.not_intact hd.1 ?_
  rw [hr e he, view_setWord hsize', if_pos ⟨rfl, rfl⟩]
  intro heq
  have h4 : by2blk.toNat = 4096 := rfl
  have hval := congrArg BitVec.toNat heq
  rw [BitVec.toNat_add, h4] at hval
  omega

end Intact

/-- Where every `f_dir` on the path names its directory, a create that fails leaves
the file system as it was exactly if it fails before an entry is looked for. -/
theorem failed_create {s : Server} {path : List Byte} (ht : FileTree s)
    (hset : ∀ d f, s.OnPath (components path) d f → s.view (fDir f) = d) :
    (fileCreate path).wp (fun r s' => ∀ e, r = .error e →
      (Intact s s' ↔ ¬∃ d c, Outcome s (components path) (.missing d c))) (fun _ => True) s := by
  unfold fileCreate
  rw [wp_bind]
  refine wp_mono (wp_walkPath ht path) (fun r t hr => ?_) fun _ _ => trivial
  obtain ⟨hmark, w, rfl, hw, hload⟩ := hr
  have hreads := hmark.reads hset
  have hother : (∀ d c, w ≠ .missing d c) →
      (Intact s t ↔ ¬∃ d c, Outcome s (components path) (.missing d c)) := fun hne =>
    ⟨fun _ ⟨d, c, ho⟩ => hne d c (hw.unique ho), fun _ => hreads.intact⟩
  cases w with
  | found dir f => exact wp_throw.mpr fun e _ => hother (by simp)
  | failed e => exact wp_throw.mpr fun e _ => hother (by simp)
  | missing d name =>
    have hd : s.TreeDir d := by
      cases hw with
      | lastMissing hs hlt hdir =>
        obtain ⟨pre, hcs, hpre, -⟩ := hs
        refine ⟨reached_resolve (fun c hc => components_ne_nil path c ?_) hpre, hdir⟩
        rw [hcs]
        exact List.mem_append_left _ hc
    have hmiss : ∃ d c, Outcome s (components path) (.missing d c) := ⟨d, name, hw⟩
    simp only
    refine wp_attempt_seq (wp_dirAllocFile_fails ht hd hreads hload) fun r t' hr => ?_
    cases r with
    | error e => exact wp_throw.mpr fun e' _ => ⟨fun hi => absurd hi (hr e rfl), fun hn => absurd hmiss hn⟩
    | ok f =>
      simp only
      rw [wp_bind]
      refine wp_conseq (noError_strcpy f name t') fun r u hru => ?_
      obtain ⟨v, rfl⟩ := hru
      exact wp_pure.mpr (by simp)

/-- A disk with an empty root directory and no free block. -/
def fullDisk : Server := afterInit [(1, 1, 3#32), (1, 35, ftypeDir)]

theorem fullDisk_dir {d : Word} (h : fullDisk.Reached d) : d = sRoot := by
  induction h with
  | root => rfl
  | @entry d f _ _ hf _ ih =>
    subst ih
    have hnil : fullDisk.files sRoot = [] := by decide +kernel
    rw [hnil] at hf
    exact absurd hf List.not_mem_nil

theorem fullDisk_tree : FileTree fullDisk := by
  have hn : ∀ d, fullDisk.TreeDir d → fullDisk.nblock d = 0 := fun d hd => by
    rw [fullDisk_dir hd.1]
    decide +kernel
  refine ⟨mounted_afterInit (by decide), fun d hd => ?_, fun d hd i hi => ?_, fun d hd h10 => ?_,
    fun d hd f hf => ?_, fun c hc => ?_⟩
  · rw [hn d hd]
    omega
  · rw [hn d hd] at hi
    omega
  · rw [hn d hd] at h10
    omega
  · unfold Server.files at hf
    rw [hn d hd] at hf
    exact absurd hf List.not_mem_nil
  · obtain ⟨d, hd, i, hi, -⟩ := hc
    rw [hn d hd] at hi
    omega

theorem fullDisk_path {d f : Word} (path : List Byte) : ¬fullDisk.OnPath (components path) d f := by
  rintro ⟨pre, c, post, hcs, hpre, hc⟩
  have hreach := reached_resolve (fun c' hc' => components_ne_nil path c' (by
    rw [hcs]
    exact List.mem_append_left _ hc')) hpre
  obtain rfl := fullDisk_dir hreach
  have hnone : fullDisk.lookup sRoot c = none := by
    have hnil : fullDisk.files sRoot = [] := by decide +kernel
    unfold Server.lookup
    rw [hnil]
    rfl
  unfold Server.child at hc
  split_ifs at hc
  rw [hnone] at hc
  exact absurd hc (by simp)

theorem failed_create_full : (fileCreate [slash, 97#8]).wp (fun r s' => ∀ e, r = .error e →
    (Intact fullDisk s' ↔ ¬∃ d c, Outcome fullDisk (components [slash, 97#8]) (.missing d c)))
    (fun _ => True) fullDisk :=
  failed_create fullDisk_tree fun _ _ h => absurd h (fullDisk_path _)

/-- On the full disk `/a` cannot be created, and the root directory is a block longer. -/
theorem failed_create_fails : ¬∀ (s : Server) (path : List Byte) (e : Err) (s' : Server),
    FileTree s → (∀ d f, s.OnPath (components path) d f → s.view (fDir f) = d) →
      fileCreate path s = .ok (.error e, s') → Intact s s' := by
  intro hall
  have hrun : (refused (fileCreate [slash, 97#8] fullDisk)).map (fun s' => s'.view (fSize sRoot)) =
      some 4096#32 := by
    decide +kernel
  obtain ⟨s', hs', hsize⟩ := Option.map_eq_some_iff.mp hrun
  obtain ⟨e, he⟩ := refused_eq_some.mp hs'
  refine fullDisk_tree.not_intact .root ?_ (hall _ _ e s' fullDisk_tree
    (fun _ _ h => absurd h (fullDisk_path _)) he)
  rw [hsize]
  decide +kernel

end Fs
end RvMos
