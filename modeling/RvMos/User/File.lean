/-
Open files in a program (`user/lib/file.c`, with `read`, `write` and `seek` of
`user/lib/fd.c`).

The bytes of an open file are pages of the file server that are mapped in the window
of its descriptor.  The size of the file is written down twice, in the page of the
descriptor and by the server.  `FileServer` is the other side of the requests for the
size and for pages: whatever it answers.
-/
import RvMos.Lib.Sys
import RvMos.Kern.Mmu

namespace RvMos
namespace User

abbrev Byte := BitVec 8

/-- `-E_INVAL` and `-E_NO_DISK` -/
def eInval : Word := BitVec.ofInt 32 (-3)
def eNoDisk : Word := BitVec.ofInt 32 (-8)

def maxFileSize : Word := 0x400000#32
def fileBase : Word := 0x60000000#32

/-- `fd2data` of the descriptor with number `fdnum`. -/
def fd2data (fdnum : ℕ) : Word := fileBase + 0x400000#32 * BitVec.ofNat 32 fdnum

/-- `devtab`, by `dev_id`. -/
inductive Dev where
  | cons
  | file
  | pipe
  deriving DecidableEq

def devLookup (devId : Word) : Option Dev :=
  if devId = 99#32 then some .cons
  else if devId = 102#32 then some .file
  else if devId = 112#32 then some .pipe
  else none

/-- The answers to `FSREQ_SET_SIZE` and `FSREQ_MAP`, and the size that the server has
for a file id.  An answer to `FSREQ_MAP` that is not negative comes with a page. -/
structure FileServer (σ : Type) where
  setSize : Word → Word → σ → Word × σ
  map : Word → Word → σ → (Word × (ℕ → Byte)) × σ
  size : Word → σ → Word

/-- A program with an open file: the descriptor, its window and memory. -/
structure FileProc (σ : Type) where
  srv : σ
  /-- the valid bit of the page of the descriptor -/
  fdValid : Bool
  devId : Word
  omode : Word
  fdOffset : Word
  fileid : Word
  fSize : Word
  pages : ℕ → Bool
  mem : Word → Byte
  /-- the addresses that `memcpy` has used -/
  touched : List Word

section Calls

variable {σ : Type} (S : FileServer σ)

/-! ## `memcpy` -/

def copyBytes : ℕ → Word → Word → FileProc σ → FileProc σ
  | 0, _, _, c => c
  | n + 1, dst, src, c =>
    copyBytes n (dst + 1#32) (src + 1#32)
      { c with
        mem := Function.update c.mem dst (c.mem src)
        touched := dst :: src :: c.touched }

/-- `memcpy` with its pointer `max`, which may have wrapped around.  Where both addresses
are aligned alike the source moves words, which are the same bytes in the same order. -/
def memcpy (dst src n : Word) (c : FileProc σ) : FileProc σ :=
  copyBytes ((dst + n).toNat - dst.toNat) dst src c

/-! ## `ftruncate` -/

/-- The number of the first page that is not below `ROUND(a, BY2PG)`. -/
def roundPage (a : Word) : ℕ :=
  (rounddown (a + 4095#32)).toNat / 4096

/-- A page of the server in the window. -/
def FileProc.mapPage (fdnum k : ℕ) (bytes : ℕ → Byte) (c : FileProc σ) : FileProc σ :=
  { c with
    pages := Function.update c.pages k true
    mem := fun a =>
      if (fd2data fdnum).toNat / 4096 + k = a.toNat / 4096 then bytes (a.toNat % 4096)
      else c.mem a }

/-- The first loop of `ftruncate`; with a result the function returns it. -/
def mapPages (fdnum : ℕ) (oldsize : Word) : List ℕ → FileProc σ → Option Word × FileProc σ
  | [], c => (none, c)
  | k :: ks, c =>
    let reply := S.map c.fileid (BitVec.ofNat 32 (4096 * k)) c.srv
    if reply.1.1.slt 0#32 then
      (some reply.1.1, { c with srv := (S.setSize c.fileid oldsize reply.2).2 })
    else mapPages fdnum oldsize ks (({ c with srv := reply.2 }).mapPage fdnum k reply.1.2)

/-- The second loop; its calls cannot fail. -/
def unmapPages (ks : List ℕ) (c : FileProc σ) : FileProc σ :=
  { c with pages := fun k => c.pages k && !ks.contains k }

def ftruncate (fdnum : ℕ) (size : Word) (c : FileProc σ) : Word × FileProc σ :=
  if maxFileSize < size then (eNoDisk, c)
  else if c.fdValid = false then (eInval, c)
  else if devLookup c.devId ≠ some .file then (eInval, c)
  else
    let oldsize := c.fSize
    let reply := S.setSize c.fileid size c.srv
    let c := { c with fSize := size, srv := reply.2 }
    if reply.1.slt 0#32 then (reply.1, c)
    else
      match mapPages S fdnum oldsize
        (List.range' (roundPage oldsize) (roundPage size - roundPage oldsize)) c with
      | (some r, c) => (r, c)
      | (none, c) =>
        (0#32, unmapPages
          (List.range' (roundPage size) (roundPage oldsize - roundPage size)) c)

/-! ## `read` and `write` -/

def fileRead (fdnum : ℕ) (buf n offset : Word) (c : FileProc σ) : Word × FileProc σ :=
  if c.fSize < offset then (0#32, c)
  else
    let n := if c.fSize < offset + n then c.fSize - offset else n
    (n, memcpy buf (fd2data fdnum + offset) n c)

def fileWrite (fdnum : ℕ) (buf n offset : Word) (c : FileProc σ) : Word × FileProc σ :=
  let tot := offset + n
  if maxFileSize < tot then (eNoDisk, c)
  else if c.fSize < tot then
    let grown := ftruncate S fdnum tot c
    if grown.1.slt 0#32 then grown
    else (n, memcpy (fd2data fdnum + offset) buf n grown.2)
  else (n, memcpy (fd2data fdnum + offset) buf n c)

/-- `if (r > 0) fd->fd_offset += r` -/
def advance (x : Word × FileProc σ) : Word × FileProc σ :=
  (x.1, if (0#32).slt x.1 then { x.2 with fdOffset := x.2.fdOffset + x.1 } else x.2)

/-- What the devices other than files do. -/
abbrev DevCall (σ : Type) := Dev → Word → Word → Word → FileProc σ → Word × FileProc σ

def read (other : DevCall σ) (fdnum : ℕ) (buf n : Word) (c : FileProc σ) : Word × FileProc σ :=
  if c.fdValid = false then (eInval, c)
  else
    match devLookup c.devId with
    | none => (eInval, c)
    | some dev =>
      if c.omode &&& 3#32 = 1#32 then (eInval, c)
      else if dev = .file then advance (fileRead fdnum buf n c.fdOffset c)
      else advance (other dev buf n c.fdOffset c)

def write (other : DevCall σ) (fdnum : ℕ) (buf n : Word) (c : FileProc σ) : Word × FileProc σ :=
  if c.fdValid = false then (eInval, c)
  else
    match devLookup c.devId with
    | none => (eInval, c)
    | some dev =>
      if c.omode &&& 3#32 = 0#32 then (eInval, c)
      else if dev = .file then advance (fileWrite S fdnum buf n c.fdOffset c)
      else advance (other dev buf n c.fdOffset c)

def seek (offset : Word) (c : FileProc σ) : Word × FileProc σ :=
  if c.fdValid = false then (eInval, c) else (0#32, { c with fdOffset := offset })

end Calls

/-! ## Rounding -/

theorem roundPage_eq {a : Word} (ha : a.toNat ≤ 0x400000) :
    roundPage a = (a.toNat + 4095) / 4096 := by
  have hlow : (4095#32).toNat = 4095 := rfl
  rw [roundPage, rounddown_toNat, BitVec.toNat_add]
  omega

/-! ## What `memcpy` does -/

/-- The `n` addresses from `base` on, none of which wraps around. -/
def InRange (base : Word) (n : ℕ) (a : Word) : Prop :=
  base.toNat ≤ a.toNat ∧ a.toNat < base.toNat + n

def Apart (a : Word) (m : ℕ) (b : Word) (n : ℕ) : Prop :=
  a.toNat + m ≤ b.toNat ∨ b.toNat + n ≤ a.toNat

section Copy

variable {σ : Type} {n : ℕ} {dst src : Word} {c : FileProc σ}

theorem succ_toNat {a : Word} (h : a.toNat + 1 < 2 ^ 32) : (a + 1#32).toNat = a.toNat + 1 := by
  have h1 : (1#32).toNat = 1 := rfl
  rw [BitVec.toNat_add]
  omega

theorem copyBytes_fSize : (copyBytes n dst src c).fSize = c.fSize := by
  induction n generalizing dst src c with
  | zero => rfl
  | succ n ih => rw [copyBytes, ih]

theorem memcpy_fSize {len : Word} : (memcpy dst src len c).fSize = c.fSize :=
  copyBytes_fSize

theorem copyBytes_mem (hd : dst.toNat + n < 2 ^ 32) (hs : src.toNat + n < 2 ^ 32)
    (hap : Apart dst n src n) (a : Word) :
    (InRange dst n a → (copyBytes n dst src c).mem a = c.mem (src + (a - dst))) ∧
      (¬InRange dst n a → (copyBytes n dst src c).mem a = c.mem a) := by
  induction n generalizing dst src c with
  | zero => exact ⟨fun h => absurd h (by unfold InRange; omega), fun _ => rfl⟩
  | succ n ih =>
    have hd1 := succ_toNat (a := dst) (by omega)
    have hs1 := succ_toNat (a := src) (by omega)
    obtain ⟨hin, hout⟩ := @ih (dst + 1#32) (src + 1#32) { c with
        mem := Function.update c.mem dst (c.mem src), touched := dst :: src :: c.touched }
      (by omega) (by omega) (by unfold Apart at hap ⊢; omega)
    refine ⟨fun h => ?_, fun h => ?_⟩
    · by_cases ha : a = dst
      · subst ha
        rw [copyBytes, hout (by unfold InRange; omega), BitVec.sub_self, BitVec.add_zero]
        exact Function.update_self ..
      · have hne : a.toNat ≠ dst.toNat := fun e => ha (BitVec.eq_of_toNat_eq e)
        have hfar : src + 1#32 + (a - (dst + 1#32)) = src + (a - dst) := by bv_omega
        have hother : src + (a - dst) ≠ dst := by
          unfold Apart at hap
          unfold InRange at h
          bv_omega
        rw [copyBytes, hin (by unfold InRange at h ⊢; omega), hfar]
        exact Function.update_of_ne hother ..
    · have hne : a ≠ dst := by
        rintro rfl
        exact h (by unfold InRange; omega)
      rw [copyBytes, hout (by unfold InRange at h ⊢; omega)]
      exact Function.update_of_ne hne ..

theorem copyBytes_touched (hd : dst.toNat + n < 2 ^ 32) (hs : src.toNat + n < 2 ^ 32) {a : Word}
    (h : a ∈ (copyBytes n dst src c).touched) :
    a ∈ c.touched ∨ InRange dst n a ∨ InRange src n a := by
  induction n generalizing dst src c with
  | zero => exact .inl h
  | succ n ih =>
    have hd1 := succ_toNat (a := dst) (by omega)
    have hs1 := succ_toNat (a := src) (by omega)
    rcases ih (by omega) (by omega) h with h | h | h
    · rcases List.mem_cons.mp h with rfl | h
      · exact .inr (.inl (by unfold InRange; omega))
      · rcases List.mem_cons.mp h with rfl | h
        · exact .inr (.inr (by unfold InRange; omega))
        · exact .inl h
    · exact .inr (.inl (by unfold InRange at h ⊢; omega))
    · exact .inr (.inr (by unfold InRange at h ⊢; omega))

theorem memcpy_eq {len : Word} (hd : dst.toNat + len.toNat < 2 ^ 32) :
    memcpy dst src len c = copyBytes len.toNat dst src c := by
  have hsum : (dst + len).toNat = dst.toNat + len.toNat := by
    rw [BitVec.toNat_add, Nat.mod_eq_of_lt hd]
  rw [memcpy, hsum, Nat.add_sub_cancel_left]

/-- Where the end wraps around nothing is copied. -/
theorem memcpy_wrapped {len : Word} (hd : 2 ^ 32 ≤ dst.toNat + len.toNat) :
    memcpy dst src len c = c := by
  have hsum : (dst + len).toNat ≤ dst.toNat := by
    have hlen := len.isLt
    have hdst := dst.isLt
    rw [BitVec.toNat_add]
    omega
  rw [memcpy, Nat.sub_eq_zero_of_le hsum]
  rfl

end Copy

/-! ## When the server grants a new size -/

section Grow

variable {σ : Type} {S : FileServer σ} {fdnum : ℕ} {c : FileProc σ}

/-- No request of the first loop of `ftruncate` is refused. -/
def GrantsPages (S : FileServer σ) (fileid : Word) : List ℕ → σ → Prop
  | [], _ => True
  | k :: ks, s =>
    ¬(S.map fileid (BitVec.ofNat 32 (4096 * k)) s).1.1.slt 0#32 ∧
      GrantsPages S fileid ks (S.map fileid (BitVec.ofNat 32 (4096 * k)) s).2

/-- The server grants the size and the pages that it makes necessary. -/
def Grants (S : FileServer σ) (fileid oldsize size : Word) (s : σ) : Prop :=
  ¬(S.setSize fileid size s).1.slt 0#32 ∧
    GrantsPages S fileid (List.range' (roundPage oldsize) (roundPage size - roundPage oldsize))
      (S.setSize fileid size s).2

/-- All that the requests for pages leave as it is. -/
structure Framed (fdnum : ℕ) (ks : List ℕ) (c c' : FileProc σ) : Prop where
  fSize : c'.fSize = c.fSize
  touched : c'.touched = c.touched
  mem : ∀ a, (∀ k ∈ ks, (fd2data fdnum).toNat / 4096 + k ≠ a.toNat / 4096) → c'.mem a = c.mem a

theorem mapPages_spec (S : FileServer σ) (fdnum : ℕ) (ks : List ℕ) (oldsize : Word) (c : FileProc σ) :
    ((mapPages S fdnum oldsize ks c).1 = none ↔ GrantsPages S c.fileid ks c.srv) ∧
      (∀ r, (mapPages S fdnum oldsize ks c).1 = some r → r.slt 0#32 = true) ∧
      Framed fdnum ks c (mapPages S fdnum oldsize ks c).2 := by
  induction ks generalizing c with
  | nil =>
    exact ⟨⟨fun _ => trivial, fun _ => rfl⟩, fun r h => (by cases h), rfl, rfl, fun _ _ => rfl⟩
  | cons k ks ih =>
    unfold mapPages GrantsPages
    by_cases hr : (S.map c.fileid (BitVec.ofNat 32 (4096 * k)) c.srv).1.1.slt 0#32 = true
    · simp only [hr, if_true]
      exact ⟨⟨fun h => (by cases h), fun h => absurd trivial h.1⟩,
        fun r h => (by rw [← Option.some.inj h]; exact hr), rfl, rfl, fun _ _ => rfl⟩
    · obtain ⟨hiff, hneg, hframe⟩ := ih (({ c with
        srv := (S.map c.fileid (BitVec.ofNat 32 (4096 * k)) c.srv).2 }).mapPage fdnum k
          (S.map c.fileid (BitVec.ofNat 32 (4096 * k)) c.srv).1.2)
      simp only [hr]
      refine ⟨⟨fun h => ⟨Bool.false_ne_true, hiff.mp h⟩, fun h => hiff.mpr h.2⟩, hneg, hframe.fSize,
        hframe.touched, fun a ha => ?_⟩
      refine (hframe.mem a fun k' hk' => ha k' (.tail _ hk')).trans ?_
      exact if_neg (ha k (.head _))

/-- An open regular file. -/
structure Regular (c : FileProc σ) : Prop where
  valid : c.fdValid = true
  file : devLookup c.devId = some .file

theorem ftruncate_spec (S : FileServer σ) (fdnum : ℕ) (h : Regular c) {size : Word} (hsize : ¬maxFileSize < size) :
    ((ftruncate S fdnum size c).1.slt 0#32 = true ↔ ¬Grants S c.fileid c.fSize size c.srv) ∧
      (ftruncate S fdnum size c).2.fSize = size ∧
      (ftruncate S fdnum size c).2.touched = c.touched ∧
      ∀ a, (∀ k ∈ List.range' (roundPage c.fSize) (roundPage size - roundPage c.fSize),
        (fd2data fdnum).toNat / 4096 + k ≠ a.toNat / 4096) →
          (ftruncate S fdnum size c).2.mem a = c.mem a := by
  unfold ftruncate Grants
  rw [if_neg hsize, if_neg (by rw [h.valid]; simp), if_neg (by rw [h.file]; simp)]
  by_cases hr : (S.setSize c.fileid size c.srv).1.slt 0#32 = true
  · simp only [hr, if_true]
    exact ⟨⟨fun _ hg => hg.1 trivial, fun _ => trivial⟩, trivial, trivial, fun _ _ => trivial⟩
  · obtain ⟨hiff, hneg, hframe⟩ := mapPages_spec S fdnum
      (List.range' (roundPage c.fSize) (roundPage size - roundPage c.fSize)) c.fSize
      { c with fSize := size, srv := (S.setSize c.fileid size c.srv).2 }
    simp only [hr]
    rcases hm : mapPages S fdnum c.fSize
      (List.range' (roundPage c.fSize) (roundPage size - roundPage c.fSize))
      { c with fSize := size, srv := (S.setSize c.fileid size c.srv).2 } with ⟨_ | r, c'⟩
    · rw [hm] at hiff hframe
      refine ⟨⟨fun hlt => (by cases hlt), fun hng => absurd ⟨Bool.false_ne_true, hiff.mp rfl⟩ hng⟩,
        hframe.fSize, hframe.touched, hframe.mem⟩
    · rw [hm] at hiff hneg hframe
      exact ⟨⟨fun _ hg => (by cases hiff.mpr hg.2), fun _ => hneg r rfl⟩, hframe.fSize,
        hframe.touched, hframe.mem⟩

end Grow

/-! ## Reading and writing inside the window -/

section Window

variable {σ : Type} {S : FileServer σ} {fdnum : ℕ} {c : FileProc σ} {buf n : Word}

/-- How many bytes there are to read. -/
def readCount (n : Word) (c : FileProc σ) : ℕ :=
  if c.fSize < c.fdOffset then 0 else min n.toNat (c.fSize.toNat - c.fdOffset.toNat)

/-- A buffer outside the window. -/
structure BufferOk (fdnum : ℕ) (buf : Word) (n : ℕ) : Prop where
  top : buf.toNat + n < 2 ^ 32
  apart : Apart buf n (fd2data fdnum) maxFileSize.toNat

/-- What `read` is to do: the bytes from the offset on, as many as there are. -/
structure ReadsRight (fdnum : ℕ) (buf n : Word) (c : FileProc σ) (x : Word × FileProc σ) :
    Prop where
  result : x.1.toNat = readCount n c
  copied : ∀ a, InRange buf (readCount n c) a →
    x.2.mem a = c.mem (fd2data fdnum + c.fdOffset + (a - buf))
  kept : ∀ a, ¬InRange buf (readCount n c) a → x.2.mem a = c.mem a
  inside : ∀ a ∈ x.2.touched, a ∈ c.touched ∨ InRange buf (readCount n c) a ∨
    InRange (fd2data fdnum) maxFileSize.toNat a

/-- A write that does not fit is refused, and another one stores its bytes. -/
def WritesRight (fdnum : ℕ) (buf n : Word) (c : FileProc σ) (x : Word × FileProc σ) : Prop :=
  if maxFileSize.toNat < c.fdOffset.toNat + n.toNat then x = (eNoDisk, c)
  else
    x.1 = n ∧
      (∀ a, InRange (fd2data fdnum + c.fdOffset) n.toNat a →
        x.2.mem a = c.mem (buf + (a - (fd2data fdnum + c.fdOffset)))) ∧
      -- pages that come new into the window bring bytes of their own
      (∀ a, ¬InRange (fd2data fdnum + c.fdOffset) n.toNat a →
        (InRange (fd2data fdnum) maxFileSize.toNat a →
          a.toNat < (fd2data fdnum).toNat + 4096 * roundPage c.fSize) → x.2.mem a = c.mem a) ∧
      ∀ a ∈ x.2.touched, a ∈ c.touched ∨ InRange buf n.toNat a ∨
        InRange (fd2data fdnum) maxFileSize.toNat a

/-- When a write does the right thing.  The count `2 ^ 32 - 8` is read back as the code
for a full disk, and `memcpy` does nothing with it. -/
def WriteFits (S : FileServer σ) (n : Word) (c : FileProc σ) : Prop :=
  if maxFileSize.toNat < c.fdOffset.toNat + n.toNat then
    c.fdOffset.toNat + n.toNat < 2 ^ 32 ∨ maxFileSize < c.fdOffset + n ∨
      n = eNoDisk ∧ c.fdOffset + n ≤ c.fSize
  else c.fdOffset + n ≤ c.fSize ∨ Grants S c.fileid c.fSize (c.fdOffset + n) c.srv

theorem fd2data_toNat (h : fdnum < 32) :
    (fd2data fdnum).toNat = 0x60000000 + 0x400000 * fdnum := by
  have hb : fileBase.toNat = 0x60000000 := rfl
  have hp : (0x400000#32).toNat = 0x400000 := rfl
  have hn : (BitVec.ofNat 32 fdnum).toNat = fdnum := by
    rw [BitVec.toNat_ofNat, Nat.mod_eq_of_lt (by omega)]
  rw [fd2data, BitVec.toNat_add, BitVec.toNat_mul, hn, hp, hb]
  omega

@[simp] theorem advance_fst (x : Word × FileProc σ) : (advance x).1 = x.1 := rfl

theorem advance_frame (x : Word × FileProc σ) : ∃ o, (advance x).2 = { x.2 with fdOffset := o } := by
  unfold advance
  split
  · exact ⟨_, rfl⟩
  · exact ⟨_, rfl⟩

theorem advance_mem (x : Word × FileProc σ) : (advance x).2.mem = x.2.mem := by
  obtain ⟨o, h⟩ := advance_frame x
  rw [h]

theorem advance_touched (x : Word × FileProc σ) : (advance x).2.touched = x.2.touched := by
  obtain ⟨o, h⟩ := advance_frame x
  rw [h]

theorem advance_fSize (x : Word × FileProc σ) : (advance x).2.fSize = x.2.fSize := by
  obtain ⟨o, h⟩ := advance_frame x
  rw [h]

theorem read_regular (h : Regular c) (hmode : c.omode &&& 3#32 ≠ 1#32) (other : DevCall σ) :
    read other fdnum buf n c = advance (fileRead fdnum buf n c.fdOffset c) := by
  unfold read
  rw [if_neg (by rw [h.valid]; simp), h.file]
  simp [hmode]

theorem write_regular (h : Regular c) (hmode : c.omode &&& 3#32 ≠ 0#32) (other : DevCall σ) :
    write S other fdnum buf n c = advance (fileWrite S fdnum buf n c.fdOffset c) := by
  unfold write
  rw [if_neg (by rw [h.valid]; simp), h.file]
  simp [hmode]

/-- A copy between the window and a buffer. -/
theorem inside_window {o len : ℕ} {a : Word} (hlen : o + len ≤ maxFileSize.toNat)
    {base : Word} (hbase : base.toNat = (fd2data fdnum).toNat + o) (h : InRange base len a) :
    InRange (fd2data fdnum) maxFileSize.toNat a := by
  unfold InRange at h ⊢
  omega

theorem fileRead_right (hfd : fdnum < 32) (hsize : c.fSize ≤ maxFileSize)
    (hbuf : BufferOk fdnum buf (readCount n c))
    (h : c.fSize < c.fdOffset ∨ c.fdOffset.toNat + n.toNat < 2 ^ 32) :
    ReadsRight fdnum buf n c (fileRead fdnum buf n c.fdOffset c) := by
  have hmax : maxFileSize.toNat = 0x400000 := rfl
  have hdata := fd2data_toNat hfd
  have hsizeNat : c.fSize.toNat ≤ maxFileSize.toNat := hsize
  unfold fileRead
  by_cases hlt : c.fSize < c.fdOffset
  · have hcount : readCount n c = 0 := if_pos hlt
    rw [if_pos hlt]
    refine ⟨hcount.symm, fun a ha => ?_, fun _ _ => rfl, fun a ha => .inl ha⟩
    rw [hcount] at ha
    unfold InRange at ha
    omega
  · have hsum := h.resolve_left hlt
    have hle : c.fdOffset.toNat ≤ c.fSize.toNat := Nat.not_lt.mp hlt
    have hcount : readCount n c = min n.toNat (c.fSize.toNat - c.fdOffset.toNat) := if_neg hlt
    obtain ⟨m, hm, hmNat⟩ : ∃ m : Word, (if c.fSize < c.fdOffset + n then c.fSize - c.fdOffset
        else n) = m ∧ m.toNat = readCount n c := by
      refine ⟨_, rfl, ?_⟩
      rw [hcount]
      have htot : (c.fdOffset + n).toNat = c.fdOffset.toNat + n.toNat := by
        rw [BitVec.toNat_add, Nat.mod_eq_of_lt hsum]
      have hsub : (c.fSize - c.fdOffset).toNat = c.fSize.toNat - c.fdOffset.toNat :=
        BitVec.toNat_sub_of_le hle
      split
      · next hgt =>
        have hgt : c.fSize.toNat < (c.fdOffset + n).toNat := hgt
        omega
      · next hgt =>
        have hgt : ¬c.fSize.toNat < (c.fdOffset + n).toNat := hgt
        omega
    have hbase : (fd2data fdnum + c.fdOffset).toNat = (fd2data fdnum).toNat + c.fdOffset.toNat := by
      rw [BitVec.toNat_add]
      omega
    have htop := hbuf.top
    have hap := hbuf.apart
    rw [if_neg hlt]
    simp only [hm]
    rw [memcpy_eq (by omega), hmNat]
    have hap' : Apart buf (readCount n c) (fd2data fdnum + c.fdOffset) (readCount n c) := by
      unfold Apart at hap ⊢
      omega
    refine ⟨hmNat, fun a ha => ?_, fun a ha => ?_, fun a ha => ?_⟩
    · exact (copyBytes_mem htop (by omega) hap' a).1 ha
    · exact (copyBytes_mem htop (by omega) hap' a).2 ha
    · rcases copyBytes_touched htop (by omega) ha with h | h | h
      · exact .inl h
      · exact .inr (.inl h)
      · exact .inr (.inr (inside_window (by omega) hbase h))

/-- `read` is right unless the end of the range wraps around. -/
theorem read_right_iff (hfd : fdnum < 32) (hreg : Regular c) (hmode : c.omode &&& 3#32 ≠ 1#32)
    (hsize : c.fSize ≤ maxFileSize) (hbuf : BufferOk fdnum buf (readCount n c))
    (other : DevCall σ) :
    ReadsRight fdnum buf n c (read other fdnum buf n c) ↔
      c.fSize < c.fdOffset ∨ c.fdOffset.toNat + n.toNat < 2 ^ 32 := by
  rw [read_regular hreg hmode]
  refine ⟨fun h => ?_, fun h => ?_⟩
  · by_contra hno
    obtain ⟨hle, hwrap⟩ := not_or.mp hno
    have hn := n.isLt
    have hsizeNat : c.fSize.toNat ≤ 0x400000 := hsize
    have hresult := h.result
    rw [advance_fst, fileRead, if_neg hle, readCount, if_neg hle] at hresult
    have htot : ¬c.fSize < c.fdOffset + n := by
      have hle : c.fdOffset.toNat ≤ c.fSize.toNat := Nat.not_lt.mp hle
      rw [BitVec.lt_def, BitVec.toNat_add]
      omega
    rw [if_neg htot] at hresult
    have hresult : n.toNat = min n.toNat (c.fSize.toNat - c.fdOffset.toNat) := hresult
    omega
  · obtain ⟨hresult, hcopied, hkept, hinside⟩ := fileRead_right hfd hsize hbuf h
    exact ⟨hresult, by rw [advance_mem]; exact hcopied, by rw [advance_mem]; exact hkept,
      by rw [advance_touched]; exact hinside⟩

/-- The copy at the end of `file_write`. -/
theorem fileWrite_copy (hfd : fdnum < 32) (hbuf : BufferOk fdnum buf n.toNat)
    (hfit : c.fdOffset.toNat + n.toNat ≤ maxFileSize.toNat) {c' : FileProc σ}
    (htouched : c'.touched = c.touched)
    (hmem : ∀ a, (InRange (fd2data fdnum) maxFileSize.toNat a →
      a.toNat < (fd2data fdnum).toNat + 4096 * roundPage c.fSize) → c'.mem a = c.mem a)
    {x : Word × FileProc σ}
    (hx : x = advance (n, memcpy (fd2data fdnum + c.fdOffset) buf n c')) :
    WritesRight fdnum buf n c x := by
  have hmax : maxFileSize.toNat = 0x400000 := rfl
  have hdata := fd2data_toNat hfd
  have hbase : (fd2data fdnum + c.fdOffset).toNat = (fd2data fdnum).toNat + c.fdOffset.toNat := by
    rw [BitVec.toNat_add]
    omega
  have htop := hbuf.top
  have hap := hbuf.apart
  have hap' : Apart (fd2data fdnum + c.fdOffset) n.toNat buf n.toNat := by
    unfold Apart at hap ⊢
    omega
  unfold WritesRight
  rw [if_neg (Nat.not_lt.mpr hfit), hx, advance_mem, advance_touched, advance_fst,
    memcpy_eq (by omega)]
  refine ⟨rfl, fun a ha => ?_, fun a ha hold => ?_, fun a ha => ?_⟩
  · refine ((copyBytes_mem (by omega) htop hap' a).1 ha).trans (hmem _ fun hin => ?_)
    have hsrc : (buf + (a - (fd2data fdnum + c.fdOffset))).toNat =
        buf.toNat + (a.toNat - (fd2data fdnum + c.fdOffset).toNat) := by
      unfold InRange at ha
      rw [BitVec.toNat_add, BitVec.toNat_sub_of_le ha.1]
      omega
    unfold InRange at ha hin
    unfold Apart at hap
    omega
  · exact ((copyBytes_mem (by omega) htop hap' a).2 ha).trans (hmem a hold)
  · rcases copyBytes_touched (by omega) htop ha with h | h | h
    · exact .inl (htouched ▸ h)
    · exact .inr (.inr (inside_window (by omega) hbase h))
    · exact .inr (.inl h)

/-- Past the end of the largest file `write` is right when it refuses, or when its
result is the count by chance. -/
theorem fileWrite_beyond (hfd : fdnum < 32) (hreg : Regular c) (hsize : c.fSize ≤ maxFileSize)
    (hbig : maxFileSize.toNat < c.fdOffset.toNat + n.toNat) :
    WritesRight fdnum buf n c (advance (fileWrite S fdnum buf n c.fdOffset c)) ↔
      WriteFits S n c := by
  have hmax : maxFileSize.toNat = 0x400000 := rfl
  have hsizeNat : c.fSize.toNat ≤ maxFileSize.toNat := hsize
  unfold WritesRight WriteFits
  rw [if_pos hbig, if_pos hbig]
  unfold fileWrite
  by_cases htot : maxFileSize < c.fdOffset + n
  · rw [if_pos htot]
    exact ⟨fun _ => .inr (.inl htot), fun _ => by simp [advance, eNoDisk]⟩
  · have hwrap : ¬c.fdOffset.toNat + n.toNat < 2 ^ 32 := by
      intro hlt
      refine htot ?_
      rw [BitVec.lt_def, BitVec.toNat_add, Nat.mod_eq_of_lt hlt]
      exact hbig
    simp only [hwrap, htot, false_or]
    by_cases hgrow : c.fSize < c.fdOffset + n
    · -- the size in the descriptor has changed
      rw [if_pos hgrow]
      obtain ⟨-, hfSize, -⟩ := ftruncate_spec S fdnum hreg htot
      refine ⟨fun h => ?_, fun h => absurd h.2 (BitVec.not_le.mpr hgrow)⟩
      have hne : c.fdOffset + n ≠ c.fSize := fun e => BitVec.lt_irrefl _ (e ▸ hgrow)
      have hgrown : (if (ftruncate S fdnum (c.fdOffset + n) c).1.slt 0#32 = true then
          ftruncate S fdnum (c.fdOffset + n) c
          else (n, memcpy (fd2data fdnum + c.fdOffset) buf n
            (ftruncate S fdnum (c.fdOffset + n) c).2)).2.fSize = c.fdOffset + n := by
        split
        · exact hfSize
        · rw [memcpy_fSize]
          exact hfSize
      have hsame := congrArg (fun x => x.2.fSize) h
      simp only [advance_fSize] at hsame
      exact absurd (hgrown.symm.trans hsame) hne
    · rw [if_neg hgrow]
      have hle : c.fdOffset + n ≤ c.fSize := BitVec.not_lt.mp hgrow
      refine ⟨fun h => ⟨(congrArg Prod.fst h : _), hle⟩, fun h => ?_⟩
      obtain ⟨rfl, -⟩ := h
      have hn : eNoDisk.toNat = 4294967288 := rfl
      have hdata := fd2data_toNat hfd
      have hleNat : (c.fdOffset + eNoDisk).toNat ≤ c.fSize.toNat := hle
      rw [BitVec.toNat_add] at hleNat
      rw [memcpy_wrapped (by rw [BitVec.toNat_add]; omega)]
      simp [advance, eNoDisk]

/-- Within the largest file `write` is right unless the server refuses the growth. -/
theorem fileWrite_within (hfd : fdnum < 32) (hreg : Regular c)
    (hbuf : BufferOk fdnum buf n.toNat)
    (hfit : c.fdOffset.toNat + n.toNat ≤ maxFileSize.toNat) :
    WritesRight fdnum buf n c (advance (fileWrite S fdnum buf n c.fdOffset c)) ↔
      WriteFits S n c := by
  have hmax : maxFileSize.toNat = 0x400000 := rfl
  have hbig := Nat.not_lt.mpr hfit
  have htotNat : (c.fdOffset + n).toNat = c.fdOffset.toNat + n.toNat := by
    rw [BitVec.toNat_add, Nat.mod_eq_of_lt (by omega)]
  have htot : ¬maxFileSize < c.fdOffset + n := by
    rw [BitVec.lt_def]
    omega
  unfold WriteFits
  rw [if_neg hbig]
  unfold fileWrite
  rw [if_neg htot]
  by_cases hgrow : c.fSize < c.fdOffset + n
  · obtain ⟨hneg, -, htouched, hmem⟩ := ftruncate_spec S fdnum hreg htot
    have hgrowNat : c.fSize.toNat < (c.fdOffset + n).toNat := hgrow
    simp only [if_pos hgrow, BitVec.not_le.mpr hgrow, false_or]
    by_cases hg : Grants S c.fileid c.fSize (c.fdOffset + n) c.srv
    · have hpos : ¬(ftruncate S fdnum (c.fdOffset + n) c).1.slt 0#32 = true :=
        fun h => hneg.mp h hg
      simp only [hpos, hg, iff_true]
      refine fileWrite_copy hfd hbuf hfit htouched (fun a hold => hmem a fun k hk e => ?_) rfl
      -- a page that has come is not below the old size
      have hdata := fd2data_toNat hfd
      have hk := List.mem_range'_1.mp hk
      have hnew := roundPage_eq (a := c.fdOffset + n) (by omega)
      have hold' := hold (by unfold InRange; omega)
      omega
    · have hlt := hneg.mpr hg
      simp only [hlt, hg, if_true, iff_false]
      intro h
      unfold WritesRight at h
      rw [if_neg hbig, advance_fst] at h
      rw [h.1] at hlt
      have hn : n.toNat < 2 ^ 31 := by omega
      rw [BitVec.slt_eq_decide, decide_eq_true_eq, BitVec.toInt_eq_toNat_of_lt (by omega)] at hlt
      simp at hlt
      omega
  · simp only [if_neg hgrow, BitVec.not_lt.mp hgrow, true_or, iff_true]
    exact fileWrite_copy hfd hbuf hfit rfl (fun _ _ => rfl) rfl

/-- `write` is right just when the sum of offset and count does not fool it, and the
server lets the file grow where it has to. -/
theorem write_right_iff (hfd : fdnum < 32) (hreg : Regular c) (hmode : c.omode &&& 3#32 ≠ 0#32)
    (hsize : c.fSize ≤ maxFileSize)
    (hbuf : c.fdOffset.toNat + n.toNat ≤ maxFileSize.toNat → BufferOk fdnum buf n.toNat)
    (other : DevCall σ) :
    WritesRight fdnum buf n c (write S other fdnum buf n c) ↔ WriteFits S n c := by
  rw [write_regular hreg hmode]
  by_cases hbig : maxFileSize.toNat < c.fdOffset.toNat + n.toNat
  · exact fileWrite_beyond hfd hreg hsize hbig
  · have hfit := Nat.not_lt.mp hbig
    exact fileWrite_within hfd hreg (hbuf hfit) hfit

end Window

/-- After any `seek`, `read` is right unless offset and count wrap around, and `write`
just when it `WriteFits`. -/
theorem file_window_iff {σ : Type} (S : FileServer σ) (fdnum : ℕ) (buf n offset : Word)
    (c : FileProc σ) (other : DevCall σ) (hfd : fdnum < 32) (hreg : Regular c)
    (hsize : c.fSize ≤ maxFileSize) :
    (c.omode &&& 3#32 ≠ 1#32 → BufferOk fdnum buf (readCount n (seek offset c).2) →
      (ReadsRight fdnum buf n (seek offset c).2 (read other fdnum buf n (seek offset c).2) ↔
        c.fSize < offset ∨ offset.toNat + n.toNat < 2 ^ 32)) ∧
      (c.omode &&& 3#32 ≠ 0#32 →
        (offset.toNat + n.toNat ≤ maxFileSize.toNat → BufferOk fdnum buf n.toNat) →
        (WritesRight fdnum buf n (seek offset c).2 (write S other fdnum buf n (seek offset c).2) ↔
          WriteFits S n (seek offset c).2)) := by
  have hseek : (seek offset c).2 = { c with fdOffset := offset } := by
    unfold seek
    rw [if_neg (by rw [hreg.valid]; simp)]
  rw [hseek]
  have hreg' : Regular { c with fdOffset := offset } := ⟨hreg.valid, hreg.file⟩
  exact ⟨fun hmode hbuf => read_right_iff hfd hreg' hmode hsize hbuf other,
    fun hmode hbuf => write_right_iff hfd hreg' hmode hsize hbuf other⟩

/-- A server that grants every request. -/
def willing : FileServer Word where
  setSize _ size _ := (0#32, size)
  map _ _ s := ((0#32, fun _ => 0#8), s)
  size _ s := s

/-- A program with a file of three bytes, open for reading and writing. -/
def threeBytes : FileProc Word where
  srv := 3#32
  fdValid := true
  devId := 102#32
  omode := 2#32
  fdOffset := 0#32
  fileid := 0#32
  fSize := 3#32
  pages k := k = 0
  mem a := a.setWidth 8
  touched := []

/-- Reading and appending ten bytes from the second one on. -/
theorem file_window_iff_ten :
    ReadsRight 0 0x1000#32 10#32 (seek 1#32 threeBytes).2
        (read (fun _ _ _ _ c => (0#32, c)) 0 0x1000#32 10#32 (seek 1#32 threeBytes).2) ∧
      WritesRight 0 0x1000#32 10#32 (seek 1#32 threeBytes).2
        (write willing (fun _ _ _ _ c => (0#32, c)) 0 0x1000#32 10#32
          (seek 1#32 threeBytes).2) := by
  obtain ⟨hread, hwrite⟩ := file_window_iff willing 0 0x1000#32 10#32 1#32 threeBytes
    (fun _ _ _ _ c => (0#32, c)) (by decide) ⟨rfl, rfl⟩ (by decide)
  refine ⟨(hread (by decide) ⟨by decide, .inl (by decide)⟩).mpr (.inr (by decide)),
    (hwrite (by decide) fun _ => ⟨by decide, .inl (by decide)⟩).mpr ?_⟩
  unfold WriteFits
  rw [if_neg (by decide)]
  exact .inr ⟨by decide, trivial⟩

/-- Reading `2 ^ 32 - 1` bytes from the second one on gives this count back, and writing
`2 ^ 32 - 4` bytes from the fifth one on is not refused as too long. -/
theorem file_window_fails :
    ¬ReadsRight 0 0x1000000#32 0xffffffff#32 (seek 1#32 threeBytes).2
        (read (fun _ _ _ _ c => (0#32, c)) 0 0x1000000#32 0xffffffff#32 (seek 1#32 threeBytes).2) ∧
      ¬WritesRight 0 0x1000000#32 0xfffffffc#32 (seek 4#32 threeBytes).2
        (write willing (fun _ _ _ _ c => (0#32, c)) 0 0x1000000#32 0xfffffffc#32
          (seek 4#32 threeBytes).2) := by
  refine ⟨fun h => absurd h.result (by decide), fun h => ?_⟩
  unfold WritesRight at h
  rw [if_pos (by decide)] at h
  exact absurd (congrArg Prod.fst h) (by decide)

/-! ## A size that is refused -/

section Refused

variable {σ : Type} {S : FileServer σ} {fdnum : ℕ} {c : FileProc σ}

/-- Both sizes and the pages of the window are as in `c`. -/
structure Unchanged (S : FileServer σ) (c c' : FileProc σ) : Prop where
  descriptor : c'.fSize = c.fSize
  server : S.size c.fileid c'.srv = c.fSize
  pages : c'.pages = c.pages

/-- `file_write` leaves what a failed `ftruncate` has left. -/
theorem fileWrite_refused {buf n offset : Word} (hgrow : c.fSize < offset + n)
    (h : (ftruncate S fdnum (offset + n) c).1.slt 0#32 = true) :
    fileWrite S fdnum buf n offset c = ftruncate S fdnum (offset + n) c := by
  unfold fileWrite
  by_cases hmax : maxFileSize < offset + n
  · rw [if_pos hmax, ftruncate, if_pos hmax]
  · rw [if_neg hmax, if_pos hgrow]
    exact if_pos h

/-- An `ftruncate` that fails, alone or for a write, has changed nothing just when the
size was too large anyway or was not to change. -/
theorem ftruncate_fails_iff {σ : Type} (S : FileServer σ) (fdnum : ℕ) (c : FileProc σ)
    (hrefused : ∀ id n s, (S.setSize id n s).1.slt 0#32 = true →
      S.size id (S.setSize id n s).2 = S.size id s)
    (hreg : Regular c) (hsame : S.size c.fileid c.srv = c.fSize) :
    (∀ size, (ftruncate S fdnum size c).1.slt 0#32 = true →
      (Unchanged S c (ftruncate S fdnum size c).2 ↔ maxFileSize < size ∨ size = c.fSize)) ∧
      ∀ buf n offset, c.fSize < offset + n →
        (ftruncate S fdnum (offset + n) c).1.slt 0#32 = true →
        (Unchanged S c (fileWrite S fdnum buf n offset c).2 ↔ maxFileSize < offset + n) := by
  have hall : ∀ size, (ftruncate S fdnum size c).1.slt 0#32 = true →
      (Unchanged S c (ftruncate S fdnum size c).2 ↔ maxFileSize < size ∨ size = c.fSize) := by
    intro size hneg
    by_cases hmax : maxFileSize < size
    · have hsame' : ftruncate S fdnum size c = (eNoDisk, c) := if_pos hmax
      rw [hsame']
      exact ⟨fun _ => .inl hmax, fun _ => ⟨rfl, hsame, rfl⟩⟩
    · obtain ⟨hgrants, hfSize, -⟩ := ftruncate_spec S fdnum hreg hmax
      refine ⟨fun h => .inr (hfSize.symm.trans h.descriptor), fun h => ?_⟩
      obtain rfl := h.resolve_left hmax
      -- without pages to ask for, it is the size that was refused
      have hset : (S.setSize c.fileid c.fSize c.srv).1.slt 0#32 = true := by
        by_contra hpos
        refine hgrants.mp hneg ⟨hpos, ?_⟩
        rw [Nat.sub_self]
        exact trivial
      have hrun : ftruncate S fdnum c.fSize c =
          ((S.setSize c.fileid c.fSize c.srv).1, { c with
            srv := (S.setSize c.fileid c.fSize c.srv).2 }) := by
        unfold ftruncate
        rw [if_neg hmax, if_neg (by rw [hreg.valid]; simp), if_neg (by rw [hreg.file]; simp)]
        exact if_pos hset
      rw [hrun]
      exact ⟨rfl, (hrefused _ _ _ hset).trans hsame, rfl⟩
  refine ⟨hall, fun buf n offset hgrow hneg => ?_⟩
  rw [fileWrite_refused hgrow hneg, hall _ hneg]
  exact or_iff_left fun e => BitVec.lt_irrefl _ (e ▸ hgrow)

end Refused

/-- A server whose disk is full. -/
def full : FileServer Word where
  setSize _ size _ := (0#32, size)
  map _ _ s := ((eNoDisk, fun _ => 0#8), s)
  size _ s := s

/-- The full disk refuses the second page, and the size in the descriptor stays. -/
theorem ftruncate_fails_iff_full :
    (ftruncate full 0 4097#32 threeBytes).1.slt 0#32 = true ∧
      (Unchanged full threeBytes (ftruncate full 0 4097#32 threeBytes).2 ↔
        maxFileSize < 4097#32 ∨ 4097#32 = threeBytes.fSize) := by
  have hneg : (ftruncate full 0 4097#32 threeBytes).1.slt 0#32 = true := by decide
  exact ⟨hneg, (ftruncate_fails_iff full 0 threeBytes (fun _ _ _ h =>
    absurd (show (0#32).slt 0#32 = true from h) (by decide)) ⟨rfl, rfl⟩ rfl).1 4097#32 hneg⟩

theorem ftruncate_fails : (ftruncate full 0 4097#32 threeBytes).1.slt 0#32 = true ∧
    ¬Unchanged full threeBytes (ftruncate full 0 4097#32 threeBytes).2 := by
  refine ⟨by decide, fun h => absurd h.descriptor (by decide)⟩

end User
end RvMos
