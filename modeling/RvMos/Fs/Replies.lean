/-
How many replies a request gets.

Nothing in `fs.c` sends a message or touches the open table, so the replies of a
request are those of its handler.  All handlers but one send exactly one.
`serve_open` lacks a `return` after it has reported a failure of `open_alloc`.
-/
import RvMos.Fs.Serve

namespace RvMos

open Lib

namespace Fs

open Sys

/-! ## What `fs.c` leaves alone -/

/-- The log of replies and the open table are as before. -/
def SameTable (s s' : Server) : Prop := s'.sent = s.sent ∧ s'.opentab = s.opentab

/-- A relation that `fs.c` keeps as long as it marks no page with `PTE_DIRTY`. -/
class Quiet (R : Server → Server → Prop) : Prop extends IsPreorder Server R where
  grants : ∀ s g, R s { s with grants := g }
  disk : ∀ s d, R s { s with disk := d }
  page : ∀ (s : Server) (v : Word) (c : Cached),
    (c.dirty = true → ∃ c', s.pages v = some c' ∧ c'.dirty = true) →
      R s { s with pages := Function.update s.pages v (some c) }

instance : Quiet SameTable where
  refl _ := ⟨rfl, rfl⟩
  trans _ _ _ h h' := ⟨h'.1.trans h.1, h'.2.trans h.2⟩
  grants _ _ := ⟨rfl, rfl⟩
  disk _ _ := ⟨rfl, rfl⟩
  page _ _ _ _ := ⟨rfl, rfl⟩

/-- The states before and after are related, whatever is returned. -/
def Within {α : Type} (R : Server → Server → Prop) (m : Proc α) : Prop := Keeps R (fun _ => True) m

abbrev Silent {α : Type} (m : Proc α) : Prop := Within SameTable m

section Within

variable {R : Server → Server → Prop} [Quiet R] {α β : Type}

@[simp] theorem within_pure (a : α) : Within R (pure a : Proc α) := keeps_pure a

@[simp] theorem within_throw (e : Err) : Within R (throw e : Proc α) := keeps_throw e

omit [Quiet R] in
@[simp] theorem within_halt (c : Stop) : Within R (halt c : Proc α) := keeps_halt trivial

@[simp] theorem within_get : Within R (get : Proc Server) := keeps_get

@[simp] theorem within_bind {m : Proc β} {f : β → Proc α} (hm : Within R m)
    (hf : ∀ b, Within R (f b)) : Within R (m >>= f) := keeps_bind hm hf

omit [Quiet R] in
@[simp] theorem within_attempt {m : Proc α} (hm : Within R m) : Within R m.attempt := keeps_attempt hm

omit [Quiet R] in
@[simp] theorem within_ite {p : Prop} [Decidable p] {m m' : Proc α} (hm : Within R m)
    (hm' : Within R m') : Within R (if p then m else m') := keeps_ite hm hm'

@[simp] theorem within_when {p : Prop} [Decidable p] {m : Proc Unit} (hm : Within R m) :
    Within R (when p m) := keeps_when hm

@[simp] theorem within_each {ι : Type} {f : ι → Proc Unit} (hf : ∀ i, Within R (f i))
    (is : List ι) : Within R (each f is) := keeps_each hf is

omit [Quiet R] in
theorem within_modify {f : Server → Server} (h : ∀ s, R s (f s)) : Within R (modify f) :=
  keeps_modify h

@[simp] theorem within_setPage (va : Word) : Within R (setPage va (some zeroCached)) :=
  within_modify fun s => Quiet.page s (vpn va) zeroCached fun h => absurd h (by decide)

@[simp] theorem within_granted : Within R granted := by
  refine within_bind within_get fun s => ?_
  split
  · exact within_pure _
  · exact within_bind (within_modify fun s => Quiet.grants s _) fun _ => within_pure _

@[simp] theorem within_touch (va : Word) : Within R (touch va) := by
  refine within_bind within_get fun s => ?_
  split
  · exact within_pure _
  · simp

@[simp] theorem within_load (va : Word) : Within R (load va) := by
  simp [load]

theorem setWord_quiet (s : Server) (va w : Word) : R s (s.setWord va w) := by
  unfold Server.setWord
  split
  · next c hc => exact Quiet.page s _ _ fun h => ⟨c, hc, h⟩
  · exact refl_of R s

@[simp] theorem within_store (va w : Word) : Within R (store va w) :=
  within_bind (within_touch va) fun _ => within_modify fun s => setWord_quiet s va w

@[simp] theorem within_loadByte (va : Word) : Within R (loadByte va) := by
  simp [loadByte]

@[simp] theorem within_storeByte (va : Word) (b : Byte) : Within R (storeByte va b) := by
  simp [storeByte]

@[simp] theorem within_memAlloc (va : Word) : Within R (memAlloc va) := by
  simp [memAlloc]

@[simp] theorem within_readDisk (sector va : Word) : Within R (readDisk sector va) := by
  intro s
  unfold readDisk
  rw [wp_get_bind]
  cases hc : s.pages (vpn va) with
  | some c => exact wp_modify.mpr (Quiet.page s (vpn va) _ fun h => ⟨c, hc, h⟩)
  | none =>
    refine within_bind within_granted (fun g => within_ite ?_ (within_halt _)) s
    exact within_modify fun s => Quiet.page s (vpn va) _ fun h => absurd h Bool.false_ne_true

@[simp] theorem within_writeDisk (sector va : Word) : Within R (writeDisk sector va) := by
  refine within_bind within_get fun s => ?_
  split
  · exact within_modify fun s => Quiet.disk s _
  · exact within_halt _

@[simp] theorem within_diskaddr (b : Word) : Within R (diskaddr b) := by
  simp [diskaddr]

@[simp] theorem within_vaIsMapped (va : Word) : Within R (vaIsMapped va) := by
  simp [vaIsMapped]

@[simp] theorem within_blockIsMapped (b : Word) : Within R (blockIsMapped b) := by
  simp [blockIsMapped]

@[simp] theorem within_vaIsDirty (va : Word) : Within R (vaIsDirty va) := by
  refine within_bind within_get fun s => ?_
  split <;> simp

@[simp] theorem within_nblocks : Within R nblocks := within_load _

@[simp] theorem within_bitmapVa (b : Word) : Within R (bitmapVa b) := by
  simp [bitmapVa]

@[simp] theorem within_blockIsFree (b : Word) : Within R (blockIsFree b) := by
  refine within_bind within_get fun _ => within_ite ?_ (within_pure _)
  refine within_bind within_nblocks fun _ => within_ite (within_pure _) ?_
  exact within_bind (within_bitmapVa b) fun _ => by simp

@[simp] theorem within_checkBlock (b : Word) : Within R (checkBlock b) := by
  refine within_bind within_get fun _ => within_bind (within_when ?_) fun _ => ?_
  · exact within_bind within_nblocks fun _ => by simp
  · refine within_bind within_get fun _ => within_when ?_
    exact within_bind (within_blockIsFree b) fun _ => by simp

@[simp] theorem within_readBlock (b : Word) : Within R (readBlock b) := by
  refine within_bind (within_checkBlock b) fun _ => within_bind (within_diskaddr b) fun va => ?_
  refine within_bind (within_blockIsMapped b) fun _ => within_ite (within_pure _) ?_
  exact within_bind (within_attempt (within_memAlloc va)) fun _ => by simp

@[simp] theorem within_mapBlock (b : Word) : Within R (mapBlock b) := by
  refine within_bind (within_blockIsMapped b) fun _ => within_ite (within_pure _) ?_
  exact within_bind (within_diskaddr b) fun va => within_memAlloc va

@[simp] theorem within_blockIsDirty (b : Word) : Within R (blockIsDirty b) := by
  refine within_bind (within_diskaddr b) fun va => ?_
  exact within_bind (within_vaIsMapped va) fun _ => by simp

@[simp] theorem within_writeBlock (b : Word) : Within R (writeBlock b) := by
  refine within_bind (within_blockIsMapped b) fun _ => within_ite ?_ (within_halt _)
  exact within_bind (within_diskaddr b) fun va => within_writeDisk _ va

@[simp] theorem within_freeBlock (b : Word) : Within R (freeBlock b) := by
  refine within_bind within_nblocks fun _ => within_ite (within_pure _) ?_
  exact within_bind (within_bitmapVa b) fun va => by simp

theorem within_allocSearch (bs : List ℕ) : Within R (allocSearch bs) := by
  induction bs with
  | nil => exact within_throw _
  | cons b bs ih =>
    refine within_bind (within_blockIsFree _) fun _ => within_ite ?_ ih
    refine within_bind (within_bitmapVa _) fun va => within_bind (within_load va) fun w => ?_
    exact within_bind (within_store va _) fun _ => by simp

@[simp] theorem within_allocBlock : Within R allocBlock := by
  refine within_bind (within_bind within_nblocks fun _ => within_allocSearch _) fun bno => ?_
  refine within_bind (within_attempt (within_mapBlock bno)) fun r => ?_
  split <;> simp

@[simp] theorem within_fillSlot (ptr : Word) (alloc : Bool) : Within R (fillSlot ptr alloc) := by
  refine within_bind (within_load ptr) fun _ => within_when (within_ite ?_ (within_throw _))
  exact within_bind within_allocBlock fun r => within_store ptr r

@[simp] theorem within_fileBlockWalk (f n : Word) (alloc : Bool) :
    Within R (fileBlockWalk f n alloc) := by
  refine within_ite (within_pure _) (within_ite ?_ (within_throw _))
  refine within_bind (within_fillSlot _ alloc) fun _ => within_bind (within_load _) fun b => ?_
  exact within_bind (within_readBlock b) fun _ => within_pure _

@[simp] theorem within_fileMapBlock (f n : Word) (alloc : Bool) :
    Within R (fileMapBlock f n alloc) :=
  within_bind (within_fileBlockWalk f n alloc) fun ptr =>
    within_bind (within_fillSlot ptr alloc) fun _ => within_load ptr

@[simp] theorem within_emptySlot (ptr : Word) : Within R (emptySlot ptr) := by
  refine within_bind (within_load ptr) fun b => within_when ?_
  exact within_bind (within_freeBlock b) fun _ => within_store ptr _

@[simp] theorem within_fileGetBlock (f n : Word) : Within R (fileGetBlock f n) :=
  within_bind (within_fileMapBlock f n true) fun b => within_readBlock b

theorem within_strEq (name : List Byte) (p : Word) : Within R (strEq name p) := by
  induction name generalizing p with
  | nil => exact within_bind (within_loadByte p) fun _ => within_pure _
  | cons c cs ih =>
    exact within_bind (within_loadByte p) fun _ => within_ite (ih _) (within_pure _)

theorem within_strcpy (p : Word) (name : List Byte) : Within R (strcpy p name) := by
  induction name generalizing p with
  | nil => exact within_storeByte p _
  | cons c cs ih => exact within_bind (within_storeByte p c) fun _ => ih _

theorem within_lookupIn (dir : Word) (name : List Byte) (fs : List Word) :
    Within R (lookupIn dir name fs) := by
  induction fs with
  | nil => exact within_pure _
  | cons f fs ih =>
    refine within_bind (within_strEq name f) fun _ => within_ite ?_ ih
    exact within_bind (within_store _ _) fun _ => within_pure _

theorem within_lookupBlocks (dir : Word) (name : List Byte) (is : List ℕ) :
    Within R (lookupBlocks dir name is) := by
  induction is with
  | nil => exact within_throw _
  | cons i is ih =>
    refine within_bind (within_fileGetBlock dir _) fun blk => ?_
    refine within_bind (within_lookupIn dir name _) fun r => ?_
    split
    · exact within_pure _
    · exact ih

@[simp] theorem within_dirLookup (dir : Word) (name : List Byte) : Within R (dirLookup dir name) :=
  within_bind (within_load _) fun _ => within_lookupBlocks dir name _

theorem within_freeEntry (fs : List Word) : Within R (freeEntry fs) := by
  induction fs with
  | nil => exact within_pure _
  | cons f fs ih => exact within_bind (within_loadByte f) fun _ => within_ite (within_pure _) ih

theorem within_freeEntryIn (dir : Word) (is : List ℕ) : Within R (freeEntryIn dir is) := by
  induction is with
  | nil => exact within_pure _
  | cons i is ih =>
    refine within_bind (within_fileGetBlock dir _) fun blk => ?_
    refine within_bind (within_freeEntry _) fun r => ?_
    split
    · exact within_pure _
    · exact ih

@[simp] theorem within_dirAllocFile (dir : Word) : Within R (dirAllocFile dir) := by
  refine within_bind (within_load _) fun _ => within_bind (within_freeEntryIn dir _) fun r => ?_
  split
  · exact within_pure _
  · refine within_bind (within_load _) fun _ => within_bind (within_store _ _) fun _ => ?_
    exact within_fileGetBlock dir _

theorem within_walkLoop (n : ℕ) (dir : Option Word) (file : Word) (path : List Byte) :
    Within R (walkLoop n dir file path) := by
  induction n generalizing dir file path with
  | zero => cases path <;> simp [walkLoop]
  | succ n ih =>
    cases path with
    | nil => exact within_pure _
    | cons c path =>
      refine within_ite (within_pure _) (within_bind (within_load _) fun _ => ?_)
      refine within_ite (within_pure _) ?_
      refine within_bind (within_attempt (within_dirLookup _ _)) fun r => ?_
      split
      · exact within_ite (within_pure _) (within_pure _)
      · exact ih _ _ _

theorem within_walkPath (path : List Byte) : Within R (walkPath path) := within_walkLoop _ _ _ _

@[simp] theorem within_fileOpen (path : List Byte) : Within R (fileOpen path) := by
  refine within_bind (within_walkPath path) fun w => ?_
  split <;> simp

@[simp] theorem within_fileCreate (path : List Byte) : Within R (fileCreate path) := by
  refine within_bind (within_walkPath path) fun w => ?_
  split
  · exact within_throw _
  · exact within_throw _
  · refine within_bind (within_attempt (within_dirAllocFile _)) fun r => ?_
    split
    · exact within_throw _
    · exact within_bind (within_strcpy _ _) fun _ => within_pure _

@[simp] theorem within_fileTruncate (f n : Word) : Within R (fileTruncate f n) := by
  refine within_bind (within_load _) fun _ => within_bind (within_each (fun b => ?_) _) fun _ => ?_
  · refine within_bind (within_attempt ?_) fun _ => within_pure _
    exact within_bind (within_fileBlockWalk f _ false) fun p => within_emptySlot p
  · exact within_bind (within_when (within_emptySlot _)) fun _ => within_store _ _

@[simp] theorem within_fileFlush (f : Word) : Within R (fileFlush f) := by
  refine within_bind (within_load _) fun _ => within_each (fun b => ?_) _
  refine within_bind (within_attempt (within_fileMapBlock f _ false)) fun r => ?_
  split
  · exact within_pure _
  · exact within_bind (within_blockIsDirty _) fun _ => within_when (within_writeBlock _)

@[simp] theorem within_flushDir (f : Word) : Within R (flushDir f) :=
  within_bind (within_load _) fun d => within_when (within_fileFlush d)

@[simp] theorem within_fileSetSize (f n : Word) : Within R (fileSetSize f n) := by
  refine within_bind (within_load _) fun _ => ?_
  refine within_bind (within_when (within_fileTruncate f n)) fun _ => ?_
  exact within_bind (within_store _ _) fun _ => within_flushDir f

@[simp] theorem within_fsSync : Within R fsSync := by
  refine within_bind within_nblocks fun _ => within_each (fun i => ?_) _
  exact within_bind (within_blockIsDirty _) fun _ => within_when (within_writeBlock _)

@[simp] theorem within_fileClose (f : Word) : Within R (fileClose f) :=
  within_bind (within_fileFlush f) fun _ => within_flushDir f

@[simp] theorem within_fileRemove (path : List Byte) : Within R (fileRemove path) := by
  refine within_bind (within_fileOpen path) fun f => ?_
  refine within_bind (within_fileTruncate f _) fun _ => within_bind (within_storeByte f _) fun _ => ?_
  exact within_bind (within_fileFlush f) fun _ => within_flushDir f

@[simp] theorem within_openLookup (fileid : Word) : Within R (openLookup fileid) := by
  simp [openLookup]

@[simp] theorem within_openFile (path : List Byte) (omode : Word) :
    Within R (openFile path omode) := by
  refine within_ite (within_fileCreate path) (within_ite ?_ (within_fileOpen path))
  exact within_bind (within_fileCreate path) fun f => by simp

@[simp] theorem within_copyFile (f : Word) : Within R (copyFile f) := by
  refine within_bind (within_touch f) fun _ => within_bind (within_touch _) fun _ => ?_
  exact within_bind within_get fun _ => within_pure _

end Within

section Silent

theorem silent_memMapDirty (va : Word) : Silent (memMapDirty va) := by
  refine within_ite (within_throw _) (within_bind within_get fun s => ?_)
  split
  · exact within_throw _
  · exact within_modify fun _ => ⟨rfl, rfl⟩

theorem silent_dirtyBlock (b : Word) : Silent (dirtyBlock b) := by
  refine within_bind (within_diskaddr b) fun va => within_bind (within_vaIsMapped va) fun _ => ?_
  refine within_ite (within_bind (within_vaIsDirty va) fun _ => ?_) (within_throw _)
  exact within_ite (within_pure _) (silent_memMapDirty va)

theorem silent_fileDirty (f n : Word) : Silent (fileDirty f n) :=
  within_bind (within_fileMapBlock f _ false) fun b => silent_dirtyBlock b

end Silent

/-! ## Replies -/

/-- The procedure comes back, with a result or an error code. -/
def Survives {α : Type} (m : Proc α) (s : Server) : Prop := ∃ x, m s = .ok x

/-- The handler comes back to `serve` and has sent one message, to the client. -/
def RepliesOnce (m : Proc Unit) (whom : Word) (s : Server) : Prop :=
  ∃ s' r, m s = .ok (.ok (), s') ∧ r.whom = whom ∧ s'.sent = s.sent ++ [r]

theorem Within.sent {α : Type} {m : Proc α} (h : Silent m) {s s' : Server} {r : Except Err α}
    (hm : m s = .ok (r, s')) : s'.sent = s.sent :=
  (wp_ok (h s) hm).1

theorem Within.opentab {α : Type} {m : Proc α} (h : Silent m) {s s' : Server} {r : Except Err α}
    (hm : m s = .ok (r, s')) : s'.opentab = s.opentab :=
  (wp_ok (h s) hm).2

theorem survives_of_ok {α : Type} {m : Proc α} {s : Server} {x : Except Err α × Server}
    (h : m s = .ok x) : Survives m s := ⟨x, h⟩

theorem not_survives {α : Type} {m : Proc α} {s : Server} {c : Stop} (h : m s = .error c) :
    ¬Survives m s := by
  rintro ⟨x, hx⟩
  exact absurd (h.symm.trans hx) (by simp)

theorem not_repliesOnce {m : Proc Unit} {whom : Word} {s : Server} {c : Stop}
    (h : m s = .error c) : ¬RepliesOnce m whom s := by
  rintro ⟨s', r, hm, -⟩
  exact absurd (h.symm.trans hm) (by simp)

/-- A message after silent work. -/
theorem repliesOnce_of_send {m : Proc Unit} {whom value srcva perm : Word} {s s₁ : Server}
    (hsent : s₁.sent = s.sent) (hm : m s = ipcSend whom value srcva perm s₁) :
    RepliesOnce m whom s :=
  ⟨_, ⟨whom, value, srcva, perm⟩, hm, rfl, by rw [← hsent]⟩

theorem answer_repliesOnce {m : Proc Unit} (h : Silent m) (whom : Word) (s : Server) :
    RepliesOnce (answer whom m) whom s ↔ Survives m s := by
  cases hm : m s with
  | error c =>
    exact iff_of_false (not_repliesOnce (bind_of_stop (attempt_of_stop hm))) (not_survives hm)
  | ok x =>
    obtain ⟨r, s₁⟩ := x
    have hbind : answer whom m s = _ := bind_of_ok (attempt_of_ok hm)
    refine iff_of_true ?_ (survives_of_ok hm)
    cases r with
    | error e => exact repliesOnce_of_send (h.sent hm) hbind
    | ok u => exact repliesOnce_of_send (h.sent hm) hbind

theorem serveMap_repliesOnce (whom fileid offset : Word) (s : Server) :
    RepliesOnce (serveMap whom fileid offset) whom s ↔
      Survives (do fileGetBlock (← openLookup fileid).file (offset / by2blk)) s := by
  set m : Proc Word := do fileGetBlock (← openLookup fileid).file (offset / by2blk) with hdef
  have h : Silent m := within_bind (within_openLookup fileid) fun o => within_fileGetBlock _ _
  cases hm : m s with
  | error c =>
    exact iff_of_false (not_repliesOnce (bind_of_stop (attempt_of_stop hm))) (not_survives hm)
  | ok x =>
    obtain ⟨r, s₁⟩ := x
    have hbind : serveMap whom fileid offset s = _ := bind_of_ok (attempt_of_ok hm)
    refine iff_of_true ?_ (survives_of_ok hm)
    cases r with
    | error e => exact repliesOnce_of_send (h.sent hm) hbind
    | ok blk => exact repliesOnce_of_send (h.sent hm) hbind

/-! ## Opening -/

/-- The descriptor page of an entry is not in use by a client. -/
def Server.Idle (s : Server) (i : Fin 1024) : Prop :=
  (s.opentab i).ffRef = 0#16 ∨ (s.opentab i).ffRef = 1#16

instance (s : Server) (i : Fin 1024) : Decidable (s.Idle i) := inferInstanceAs (Decidable (_ ∨ _))

/-- `open_alloc` gets an entry from a list: the first that is idle, with a frame for
its page where it needs one.  The number that it returns is not negative. -/
def Server.OpensIn (s : Server) (is : List (Fin 1024)) : Prop :=
  ∃ i, is.find? (fun i => s.Idle i) = some i ∧
    ((s.opentab i).ffRef = 0#16 → s.grants.headD true = true) ∧
    ¬((s.opentab i).fileid + maxopen).slt 0#32 = true

def Server.Opens (s : Server) : Prop := s.OpensIn (List.finRange 1024)

/-- A result of `open_alloc` that `serve_open` takes for a success. -/
def Opened (r : Except Err (Fin 1024)) (s : Server) : Prop :=
  ∃ o, r = .ok o ∧ ¬(s.opentab o).fileid.slt 0#32 = true

theorem opensIn_cons_of_idle {s : Server} {i : Fin 1024} (h : s.Idle i) (is : List (Fin 1024)) :
    s.OpensIn (i :: is) ↔ ((s.opentab i).ffRef = 0#16 → s.grants.headD true = true) ∧
      ¬((s.opentab i).fileid + maxopen).slt 0#32 = true := by
  have hfind : (i :: is).find? (fun i => s.Idle i) = some i :=
    List.find?_cons_of_pos (decide_eq_true h)
  unfold Server.OpensIn
  rw [hfind]
  simp

theorem opensIn_cons_of_not_idle {s : Server} {i : Fin 1024} (h : ¬s.Idle i)
    (is : List (Fin 1024)) : s.OpensIn (i :: is) ↔ s.OpensIn is := by
  have hfind : (i :: is).find? (fun i => s.Idle i) = is.find? (fun i => s.Idle i) :=
    List.find?_cons_of_neg (by simpa using h)
  unfold Server.OpensIn
  rw [hfind]

theorem granted_run (s : Server) :
    granted s = .ok (.ok (s.grants.headD true), { s with grants := s.grants.tail }) := by
  obtain ⟨pages, disk, super, bitmap, grants, opentab, sent⟩ := s
  cases grants <;> rfl

theorem wp_granted {Q : Except Err Bool → Server → Prop} {E : Stop → Prop}
    {s : Server} (h : Q (.ok (s.grants.headD true)) { s with grants := s.grants.tail }) : granted.wp Q E s := by
  refine wp_of (fun r s' hr => ?_) fun c hc => absurd ((granted_run s).symm.trans hc) (by simp)
  obtain ⟨rfl, rfl⟩ := Prod.mk.inj (Except.ok.inj ((granted_run s).symm.trans hr))
  exact h

/-- An entry that is chosen. -/
theorem selectOpen_run (s : Server) (i : Fin 1024) : ∃ s', selectOpen i s = .ok (.ok i, s') ∧
    s'.sent = s.sent ∧ (s'.opentab i).fileid = (s.opentab i).fileid + maxopen := by
  refine ⟨_, rfl, rfl, ?_⟩
  show (Function.update s.opentab i _ i).fileid = _
  rw [Function.update_self]

theorem opened_of_selected {s s' : Server} {i : Fin 1024}
    (h : (s'.opentab i).fileid = (s.opentab i).fileid + maxopen) :
    Opened (.ok i) s' ↔ ¬((s.opentab i).fileid + maxopen).slt 0#32 = true := by
  unfold Opened
  simp only [Except.ok.injEq, exists_eq_left', h]

theorem not_opened_error (e : Err) (s : Server) : ¬Opened (.error e) s := by
  rintro ⟨o, ho, -⟩
  exact absurd ho (by simp)

/-- A descriptor page that is not there. -/
theorem allocFf_run (s : Server) (i : Fin 1024) :
    (s.grants.headD true = true ∧ ∃ s', allocFf i s = .ok (.ok (), s') ∧ s'.sent = s.sent ∧
      (s'.opentab i).fileid = (s.opentab i).fileid) ∨
    (¬s.grants.headD true = true ∧ ∃ s', allocFf i s = .ok (.error .noMem, s') ∧
      s'.sent = s.sent) := by
  unfold allocFf
  rw [bind_of_ok (granted_run s)]
  by_cases hg : s.grants.headD true = true
  · rw [if_pos hg]
    refine .inl ⟨hg, _, rfl, rfl, ?_⟩
    show (Function.update s.opentab i _ i).fileid = _
    rw [Function.update_self]
  · rw [if_neg hg]
    exact .inr ⟨hg, _, rfl, rfl⟩

theorem openAllocIn_run (is : List (Fin 1024)) (s : Server) :
    ∃ r s', openAllocIn is s = .ok (r, s') ∧ s'.sent = s.sent ∧ (s.OpensIn is ↔ Opened r s') := by
  induction is with
  | nil =>
    refine ⟨_, s, rfl, rfl, iff_of_false ?_ (not_opened_error _ _)⟩
    rintro ⟨i, hi, -⟩
    exact absurd hi (by simp)
  | cons i is ih =>
    unfold openAllocIn
    rw [bind_of_ok (m := get) rfl]
    by_cases h0 : (s.opentab i).ffRef = 0#16
    · rw [if_pos h0, opensIn_cons_of_idle (.inl h0)]
      rcases allocFf_run s i with ⟨hg, s₁, hrun, hsent, hid⟩ | ⟨hg, s₁, hrun, hsent⟩
      · obtain ⟨s₂, hrun₂, hsent₂, hid₂⟩ := selectOpen_run s₁ i
        have hid' : (s₂.opentab i).fileid = (s.opentab i).fileid + maxopen := by
          rw [hid₂, hid]
        refine ⟨.ok i, s₂, (bind_of_ok hrun).trans hrun₂, hsent₂.trans hsent, ?_⟩
        rw [opened_of_selected hid']
        exact and_iff_right fun _ => hg
      · refine ⟨_, s₁, bind_of_error hrun, hsent, iff_of_false ?_ (not_opened_error _ _)⟩
        exact fun h => hg (h.1 h0)
    · rw [if_neg h0]
      by_cases h1 : (s.opentab i).ffRef = 1#16
      · rw [if_pos h1, opensIn_cons_of_idle (.inr h1)]
        obtain ⟨s₂, hrun₂, hsent₂, hid₂⟩ := selectOpen_run s i
        refine ⟨.ok i, s₂, hrun₂, hsent₂, ?_⟩
        rw [opened_of_selected hid₂]
        exact and_iff_right fun h => absurd h h0
      · have hidle : ¬s.Idle i := not_or.mpr ⟨h0, h1⟩
        rw [if_neg h1, opensIn_cons_of_not_idle hidle]
        exact ih

theorem openAlloc_run (s : Server) :
    ∃ r s', openAlloc s = .ok (r, s') ∧ s'.sent = s.sent ∧ (s.Opens ↔ Opened r s') := by
  unfold openAlloc Server.Opens
  exact openAllocIn_run _ s

/-- After the first `if` of `serve_open` the client has no message yet exactly if
`open_alloc` has succeeded. -/
theorem allocOrSend_run (whom : Word) (s : Server) :
    (s.Opens ∧ ∃ o r s', openAlloc s = .ok (r, s') ∧
      allocOrSend whom s = .ok (.ok (some o), s') ∧ s'.sent = s.sent) ∨
    (¬s.Opens ∧ ∃ o m s', allocOrSend whom s = .ok (.ok o, s') ∧ s'.sent = s.sent ++ [m]) := by
  obtain ⟨r, s', hrun, hsent, hopen⟩ := openAlloc_run s
  unfold allocOrSend
  rw [bind_of_ok (attempt_of_ok hrun)]
  cases r with
  | error e =>
    refine .inr ⟨fun h => not_opened_error e s' (hopen.mp h), none,
      ⟨whom, BitVec.ofInt 32 e.code, 0#32, 0#32⟩, _, rfl, ?_⟩
    rw [← hsent]
  | ok o =>
    simp only
    rw [bind_of_ok (m := get) rfl]
    by_cases hneg : (s'.opentab o).fileid.slt 0#32 = true
    · refine .inr ⟨fun h => ?_, some o, ⟨whom, (s'.opentab o).fileid, 0#32, 0#32⟩,
        { s' with sent := s'.sent ++ [⟨whom, (s'.opentab o).fileid, 0#32, 0#32⟩] }, ?_, ?_⟩
      · obtain ⟨o', ho', hpos⟩ := hopen.mp h
        obtain rfl : o = o' := Except.ok.inj ho'
        exact hpos hneg
      · rw [when, if_pos hneg]
        rfl
      · rw [hsent]
    · refine .inl ⟨hopen.mpr ⟨o, rfl, hneg⟩, o, _, s', hrun, ?_, hsent⟩
      rw [when, if_neg hneg]
      rfl

/-- An access comes back without an error code or stops. -/
theorem touch_run (va : Word) (s : Server) :
    (∃ c, touch va s = .error c) ∨ ∃ s', touch va s = .ok (.ok (), s') := by
  unfold touch
  rw [bind_of_ok (m := get) rfl]
  cases hp : s.pages (vpn va) with
  | some c => exact .inr ⟨s, rfl⟩
  | none =>
    simp only
    split_ifs
    · exact .inl ⟨_, rfl⟩
    · rw [bind_of_ok (granted_run s)]
      split_ifs
      · exact .inr ⟨_, rfl⟩
      · exact .inl ⟨_, rfl⟩

theorem copyFile_run (f : Word) (s : Server) :
    (∃ c, copyFile f s = .error c) ∨ ∃ w s', copyFile f s = .ok (.ok w, s') := by
  unfold copyFile
  rcases touch_run f s with ⟨c, hc⟩ | ⟨s₁, h₁⟩
  · exact .inl ⟨c, bind_of_stop hc⟩
  · rw [bind_of_ok h₁]
    rcases touch_run (f + 252#32) s₁ with ⟨c, hc⟩ | ⟨s₂, h₂⟩
    · exact .inl ⟨c, bind_of_stop hc⟩
    · rw [bind_of_ok h₂]
      exact .inr ⟨_, s₂, rfl⟩

/-- The end of `serve_open` is a message. -/
theorem fillOpen_run (whom : Word) {f : Word} (omode : Word) (o : Fin 1024) {s s₁ : Server}
    {w : Fin 64 → Word} (h : copyFile f s = .ok (.ok w, s₁)) : ∃ s₂, s₂.sent = s₁.sent ∧ fillOpen whom o f omode s =
      ipcSend whom 0#32 (ffVa o) (pteR ||| pteW ||| pteU ||| pteLibrary) s₂ := by
  unfold fillOpen
  rw [bind_of_ok h, bind_of_ok (m := setOpen o _) rfl]
  refine ⟨_, ?_, rfl⟩
  rfl

theorem openRest_repliesOnce (whom : Word) (path : List Byte) (omode : Word) (o : Fin 1024)
    (s : Server) : RepliesOnce (openRest whom path omode (some o)) whom s ↔
      Survives (do copyFile (← openFile path omode)) s := by
  cases hfile : openFile path omode s with
  | error c =>
    exact iff_of_false (not_repliesOnce (bind_of_stop (attempt_of_stop hfile)))
      (not_survives (bind_of_stop hfile))
  | ok x =>
    obtain ⟨r, s₁⟩ := x
    have hsent := (within_openFile path omode).sent hfile
    have hbind : openRest whom path omode (some o) s = _ := bind_of_ok (attempt_of_ok hfile)
    cases r with
    | error e =>
      exact iff_of_true (repliesOnce_of_send hsent hbind) (survives_of_ok (bind_of_error hfile))
    | ok f =>
      rcases copyFile_run f s₁ with ⟨c, hc⟩ | ⟨w, s₂, h₂⟩
      · have hstop : openRest whom path omode (some o) s = .error c := hbind.trans (bind_of_stop hc)
        exact iff_of_false (not_repliesOnce hstop) (not_survives ((bind_of_ok hfile).trans hc))
      · obtain ⟨s₃, hsent₃, hfill⟩ := fillOpen_run whom omode o h₂
        refine iff_of_true ?_ (survives_of_ok ((bind_of_ok hfile).trans h₂))
        have hsame : s₃.sent = s.sent :=
          hsent₃.trans (((within_copyFile f).sent h₂).trans hsent)
        exact repliesOnce_of_send hsame (hbind.trans hfill)

/-- A handler that goes on after a message sends another one or stops. -/
theorem openRest_again (whom : Word) (path : List Byte) (omode : Word) (o : Option (Fin 1024))
    (s : Server) : (∃ c, openRest whom path omode o s = .error c) ∨
      ∃ m s', openRest whom path omode o s = .ok (.ok (), s') ∧ s'.sent = s.sent ++ [m] := by
  cases hfile : openFile path omode s with
  | error c => exact .inl ⟨c, bind_of_stop (attempt_of_stop hfile)⟩
  | ok x =>
    obtain ⟨r, s₁⟩ := x
    have hsent := (within_openFile path omode).sent hfile
    have hbind : openRest whom path omode o s = _ := bind_of_ok (attempt_of_ok hfile)
    cases r with
    | error e =>
      exact .inr ⟨⟨whom, BitVec.ofInt 32 e.code, 0#32, 0#32⟩, _, hbind, by rw [← hsent]⟩
    | ok f =>
      cases o with
      | none => exact .inl ⟨.unset, hbind⟩
      | some o =>
        rcases copyFile_run f s₁ with ⟨c, hc⟩ | ⟨w, s₂, h₂⟩
        · exact .inl ⟨c, hbind.trans (bind_of_stop hc)⟩
        · obtain ⟨s₃, hsent₃, hfill⟩ := fillOpen_run whom omode o h₂
          refine .inr ⟨⟨whom, 0#32, ffVa o, pteR ||| pteW ||| pteU ||| pteLibrary⟩, _,
            hbind.trans hfill, ?_⟩
          show s₃.sent ++ _ = _
          rw [hsent₃, (within_copyFile f).sent h₂, hsent]

theorem serveOpen_repliesOnce (whom : Word) (path : List Byte) (omode : Word) (s : Server) :
    RepliesOnce (serveOpen whom path omode) whom s ↔
      s.Opens ∧ Survives (do
        let _ ← attempt openAlloc
        copyFile (← openFile path omode)) s := by
  rcases allocOrSend_run whom s with ⟨hopens, o, r, s₁, halloc, hrun, hsent⟩ |
    ⟨hnot, o, m, s₁, hrun, hsent⟩
  · have hrest : serveOpen whom path omode s = openRest whom path omode (some o) s₁ := by
      unfold serveOpen
      rw [bind_of_ok hrun]
    have hwork : (do
        let _ ← attempt openAlloc
        copyFile (← openFile path omode) : Proc _) s =
        (do copyFile (← openFile path omode) : Proc _) s₁ := by
      rw [bind_of_ok (attempt_of_ok halloc)]
    rw [and_iff_right hopens]
    unfold Survives
    rw [hwork]
    refine Iff.trans ?_ (openRest_repliesOnce whom path omode o s₁)
    unfold RepliesOnce
    rw [hrest, hsent]
  · have hrest : serveOpen whom path omode s = openRest whom path omode o s₁ := by
      unfold serveOpen
      rw [bind_of_ok hrun]
    refine iff_of_false ?_ fun h => hnot h.1
    rintro ⟨s', r, hr, -, hsent'⟩
    rcases openRest_again whom path omode o s₁ with ⟨c, hc⟩ | ⟨m', s₂, h₂, hsent₂⟩
    · exact absurd ((hrest.trans hc).symm.trans hr) (by simp)
    · have heq := (hrest.trans h₂).symm.trans hr
      obtain rfl : s₂ = s' := (Prod.mk.inj (Except.ok.inj heq)).2
      have hlen := congrArg List.length (hsent₂.symm.trans hsent')
      rw [hsent] at hlen
      simp at hlen

/-! ## All requests -/

/-- The work of an open request. -/
def openWork (path : List Byte) (omode : Word) : Proc (Fin 64 → Word) := do
  let _ ← attempt openAlloc
  copyFile (← openFile path omode)

/-- The work of a map request. -/
def mapWork (fileid offset : Word) : Proc Word := do
  fileGetBlock (← openLookup fileid).file (offset / by2blk)

/-- What a handler asks of `fs.c`, after the look at the open table. -/
def fileWork : Req → Proc Unit
  | .open path omode => do let _ ← openWork path omode
  | .map fileid offset => do let _ ← mapWork fileid offset
  | .setSize fileid size => do fileSetSize (← openLookup fileid).file size
  | .close fileid => do
    let o ← openLookup fileid
    let _ ← attempt (fileClose o.file)
    pure ()
  | .dirty fileid offset => do fileDirty (← openLookup fileid).file offset
  | .remove path => fileRemove path
  | .sync => do
    let _ ← attempt fsSync
    pure ()

/-- A result that is dropped. -/
theorem survives_ignore {α : Type} (m : Proc α) (s : Server) :
    Survives (do let _ ← m) s ↔ Survives m s := by
  cases hm : m s with
  | error c => exact iff_of_false (not_survives (bind_of_stop hm)) (not_survives hm)
  | ok x =>
    obtain ⟨r, s₁⟩ := x
    refine iff_of_true ?_ (survives_of_ok hm)
    cases r with
    | error e => exact survives_of_ok (bind_of_error hm)
    | ok a => exact survives_of_ok (bind_of_ok hm)

/-- A request gets exactly one reply if and only if the file system survives what
it is asked and, for an open request, `open_alloc` finds an entry. -/
theorem repliesOnce_iff (whom : Word) (req : Req) (s : Server) :
    RepliesOnce (serveReq whom req) whom s ↔
      (∀ path omode, req = .open path omode → s.Opens) ∧ Survives (fileWork req) s := by
  have hother : ∀ {p : Prop}, (∀ path omode, req ≠ .open path omode) →
      ((∀ path omode, req = .open path omode → s.Opens) ∧ p ↔ p) :=
    fun hne => and_iff_right fun path omode h => absurd h (hne path omode)
  cases req with
  | «open» path omode =>
    have hwork : Survives (fileWork (.open path omode)) s ↔ Survives (openWork path omode) s :=
      survives_ignore _ s
    have hopens : (∀ p m, Req.open path omode = .open p m → s.Opens) ↔ s.Opens :=
      ⟨fun h => h path omode rfl, fun h _ _ _ => h⟩
    rw [hwork, hopens]
    exact serveOpen_repliesOnce whom path omode s
  | map fileid offset =>
    have hwork : Survives (fileWork (.map fileid offset)) s ↔ Survives (mapWork fileid offset) s :=
      survives_ignore _ s
    rw [hother (by simp), hwork]
    exact serveMap_repliesOnce whom fileid offset s
  | setSize fileid size =>
    rw [hother (by simp)]
    exact answer_repliesOnce (within_bind (within_openLookup fileid) fun o => by simp) whom s
  | close fileid =>
    rw [hother (by simp)]
    exact answer_repliesOnce (within_bind (within_openLookup fileid) fun o => by simp) whom s
  | dirty fileid offset =>
    rw [hother (by simp)]
    exact answer_repliesOnce (within_bind (within_openLookup fileid) fun o =>
      silent_fileDirty _ _) whom s
  | remove path =>
    rw [hother (by simp)]
    exact answer_repliesOnce (within_fileRemove path) whom s
  | sync =>
    rw [hother (by simp)]
    exact answer_repliesOnce (by simp) whom s

/-- All descriptor pages are with clients. -/
def fullTable : Server where
  pages _ := none
  disk _ _ := 0#32
  super := true
  bitmap := true
  grants := []
  opentab _ := ⟨0#32, 0#32, 0#32, 2#16, zeroFilefd⟩
  sent := []

end Fs
end RvMos
