/-
Making a file system on the host (`tools/fsformat.c`).

The tool has the disk in memory, block after block, and the superblock apart from it.
Blocks are handed out in order and never given back.  A `struct File *` is a place in the
superblock or in a block of the disk.  An access beyond the last block is outside the
array; nothing in the tool checks for it.  The host has the byte order of the target.
-/
import RvMos.Fs.File

namespace RvMos

namespace Fsformat

open Fs (Byte)

/-! ## The host -/

/-- A file or a directory of the host: a directory has its entries in the order of
`readdir`, without `.` and `..`.  The name is the last part of the path. -/
inductive Node where
  | file (name data : List Byte)
  | dir (name : List Byte) (entries : List Node)

/-- How the tool stops: an assertion, an access outside its arrays, or `exit`. -/
inductive Abort where
  | assert (expr : String)
  | wild
  | exit (code : ℕ)
  deriving DecidableEq, Repr

/-! ## The disk in memory -/

def nblock : ℕ := 1024
def by2blk : ℕ := 4096
def bit2blk : ℕ := 32768
def ndirect : ℕ := 10
def nindirect : ℕ := 1024
def file2blk : ℕ := 16

/-- `disk[b].data` for each block, `super` under `none`, and `nextbno`. -/
structure Image where
  mem : Option ℕ → Page
  nextbno : ℕ

/-- `struct File *`: the words of a record start at a word of a block or of `super`. -/
structure Ptr where
  block : Option ℕ
  base : ℕ
  deriving DecidableEq, Repr

/-- `&super.s_root`. -/
def sRoot : Ptr := ⟨none, 2⟩

/-- Record `j` of a block. -/
def record (b j : ℕ) : Ptr := ⟨some b, 64 * j⟩

/-- The fields of `struct File` by their words. -/
def fSize : ℕ := 32
def fType : ℕ := 33
def fDirect (i : ℕ) : ℕ := 34 + i
def fIndirect : ℕ := 44

def pageByte (p : Page) (y : ℕ) : Byte := (p (Fin.ofNat 1024 (y / 4)) >>> (y % 4 * 8)).setWidth 8

def pageSetByte (p : Page) (y : ℕ) (v : Byte) : Page := fun o =>
  if o = Fin.ofNat 1024 (y / 4) then
    (p o &&& ~~~(0xff#32 <<< (y % 4 * 8))) ||| (v.setWidth 32 <<< (y % 4 * 8))
  else p o

def pageSetBytes (p : Page) (y : ℕ) : List Byte → Page
  | [] => p
  | v :: vs => pageSetBytes (pageSetByte p y v) (y + 1) vs

namespace Image

def word (m : Image) (p : Ptr) (k : ℕ) : Word := m.mem p.block (Fin.ofNat 1024 (p.base + k))

def setPage (m : Image) (o : Option ℕ) (q : Page) : Image :=
  { m with mem := Function.update m.mem o q }

def setWord (m : Image) (p : Ptr) (k : ℕ) (w : Word) : Image :=
  m.setPage p.block (Function.update (m.mem p.block) (Fin.ofNat 1024 (p.base + k)) w)

/-- The bytes of a record from its start. -/
def setName (m : Image) (p : Ptr) (bs : List Byte) : Image :=
  m.setPage p.block (pageSetBytes (m.mem p.block) (4 * p.base) bs)

end Image

/-! ## The code -/

/-- `memset(p + y, c, BY2BLK - y)` with a word of `c`, at a whole word. -/
def memset (p : Page) (y : ℕ) (c : Word) : Page := fun o => if y ≤ 4 * o.val then c else p o

def nbitblock : ℕ := (nblock + bit2blk - 1) / bit2blk

/-- The blocks of the bitmap after `init_disk`. -/
def initBits (b : ℕ) : Page :=
  let ones := memset (fun _ => 0#32) 0 0xffffffff#32
  if nblock ≠ nbitblock * bit2blk ∧ b = 2 + (nbitblock - 1) then
    memset ones (nblock % bit2blk / 8) 0#32
  else ones

def initDisk : Image :=
  let m : Image :=
    { mem := fun o => match o with
        | none => fun _ => 0#32
        | some b => if 2 ≤ b ∧ b < 2 + nbitblock then initBits b else fun _ => 0#32
      nextbno := 2 + nbitblock }
  let m := m.setWord ⟨none, 0⟩ 0 Fs.fsMagic
  let m := m.setWord ⟨none, 0⟩ 1 (BitVec.ofNat 32 nblock)
  let m := m.setWord sRoot fType 1#32
  m.setName sRoot [47#8, 0#8]

/-- An access to a block of the array. -/
def inArray (b : ℕ) : Except Abort Unit := if b < nblock then .ok () else .error .wild

def nextBlock (m : Image) : Except Abort (ℕ × Image) := do
  inArray m.nextbno
  pure (m.nextbno, { m with nextbno := m.nextbno + 1 })

/-- The index block of a file, a new one where it has none. -/
def indexBlock (m : Image) (f : Ptr) : Except Abort Image := do
  if m.word f fIndirect = 0#32 then
    let (b, m) ← nextBlock m
    pure (m.setWord f fIndirect (BitVec.ofNat 32 b))
  else pure m

def saveBlockLink (m : Image) (f : Ptr) (nblk bno : ℕ) : Except Abort Image :=
  if nblk < nindirect then
    if nblk < ndirect then pure (m.setWord f (fDirect nblk) (BitVec.ofNat 32 bno))
    else do
      let m ← indexBlock m f
      let ind := (m.word f fIndirect).toNat
      inArray ind
      pure (m.setWord ⟨some ind, 0⟩ nblk (BitVec.ofNat 32 bno))
  else .error (.assert "nblk < NINDIRECT")

def makeLinkBlock (m : Image) (dirf : Ptr) (nblk : ℕ) : Except Abort (ℕ × Image) := do
  let (bno, m) ← nextBlock m
  let m ← saveBlockLink m dirf nblk bno
  pure (bno, m.setWord dirf fSize (m.word dirf fSize + BitVec.ofNat 32 by2blk))

/-- The number of block `i` of a directory. -/
def blockNumber (m : Image) (dirf : Ptr) (i : ℕ) : Except Abort ℕ :=
  if i < ndirect then pure (m.word dirf (fDirect i)).toNat
  else do
    let ind := (m.word dirf fIndirect).toNat
    inArray ind
    pure (m.word ⟨some ind, 0⟩ i).toNat

/-- The first record of a block whose name is empty. -/
def freeRecord (m : Image) (bno : ℕ) : Option Ptr :=
  ((List.range file2blk).map (record bno)).find? fun f => pageByte (m.mem f.block) (4 * f.base) = 0#8

/-- The outer loop of `create_file`. -/
def findRecord (m : Image) (dirf : Ptr) : List ℕ → Except Abort (Option Ptr)
  | [] => pure none
  | i :: is => do
    let bno ← blockNumber m dirf i
    inArray bno
    match freeRecord m bno with
    | some f => pure (some f)
    | none => findRecord m dirf is

def createFile (m : Image) (dirf : Ptr) : Except Abort (Ptr × Image) := do
  let nblk := (m.word dirf fSize).toNat / by2blk
  match ← findRecord m dirf (List.range nblk) with
  | some f => pure (f, m)
  | none =>
    let (bno, m) ← makeLinkBlock m dirf nblk
    pure (record bno 0, m)

/-- `read(fd, disk[nextbno].data, BY2BLK)`, with the bytes that are left of the file. -/
def readBlock (m : Image) (rest : List Byte) : Except Abort Image := do
  inArray m.nextbno
  pure (m.setPage (some m.nextbno) (pageSetBytes (m.mem (some m.nextbno)) 0 (rest.take by2blk)))

/-- The loop of `write_file`.  A round takes at least one byte of the file, so as many
rounds as it has bytes are enough. -/
def writeBlocks (target : Ptr) : ℕ → ℕ → List Byte → Image → Except Abort Image
  | _, _, [], m => pure m
  | 0, _, _, m => pure m
  | n + 1, iblk, rest, m => do
    let m ← readBlock m rest
    let (bno, m) ← nextBlock m
    let m ← saveBlockLink m target iblk bno
    writeBlocks target n (iblk + 1) (rest.drop by2blk) m

/-- `write_file`, for a name that with its terminator fits into a record. -/
def writeFile (m : Image) (dirf : Ptr) (name data : List Byte) : Except Abort Image := do
  let (target, m) ← createFile m dirf
  let m := m.setName target (name ++ [0#8])
  let m := m.setWord target fSize (BitVec.ofNat 32 data.length)
  let m := m.setWord target fType 0#32
  writeBlocks target data.length 0 data m

/-- `strncpy(dst, src, n)`. -/
def strncpyBytes (n : ℕ) (src : List Byte) : List Byte :=
  src.take n ++ List.replicate (n - src.length) 0#8

/-- `write_directory` up to its loop: the new record, with its name and type. -/
def openDirectory (m : Image) (dirf : Ptr) (name : List Byte) : Except Abort (Ptr × Image) := do
  let (pdir, m) ← createFile m dirf
  let m := m.setName pdir (strncpyBytes 127 name)
  if pageByte (m.mem pdir.block) (4 * pdir.base + 127) ≠ 0#8 then .error (.exit 1)
  else pure (pdir, m.setWord pdir fType 1#32)

mutual

/-- `write_file` or `write_directory`, as the kind of the node says. -/
def write (dirf : Ptr) (m : Image) : Node → Except Abort Image
  | .file name data => writeFile m dirf name data
  | .dir name entries => do
    let (pdir, m) ← openDirectory m dirf name
    writeAll pdir m entries

/-- The loop over the entries of a directory. -/
def writeAll (dirf : Ptr) (m : Image) : List Node → Except Abort Image
  | [] => pure m
  | n :: ns => do
    let m ← write dirf m n
    writeAll dirf m ns

end

/-- `flush_bitmap` for one block. -/
def clearBit (m : Image) (i : ℕ) : Image :=
  let p : Ptr := ⟨some (2 + i / bit2blk), 0⟩
  m.setWord p (i % bit2blk / 32) (m.word p (i % bit2blk / 32) &&& ~~~(1#32 <<< (i % 32)))

def flushBitmap (m : Image) : Image := (List.range m.nextbno).foldl clearBit m

/-- `memcpy(disk[1].data, &super, sizeof(super))`. -/
def copySuper (m : Image) : Image :=
  m.setPage (some 1) fun o => if o.val < 66 then m.mem none o else m.mem (some 1) o

/-- The blocks that `finish_fs` writes to the file, for the arguments of `main` after the
name of the file. -/
def fsformat (args : List Node) : Except Abort (ℕ → Page) :=
  if args.isEmpty then .error (.exit 1)
  else do
    let m ← writeAll sRoot initDisk args
    let m := copySuper (flushBitmap m)
    pure fun b => if b < nblock then m.mem (some b) else fun _ => 0#32

end Fsformat
end RvMos
