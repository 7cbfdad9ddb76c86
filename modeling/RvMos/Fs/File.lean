/-
Files and directories in the block cache (`fs/fs.c`, second half).

A `struct File*` is the address of 256 bytes in a cached block.  A path is the
byte string up to its terminator; the pointer that `walk_path` moves along it is
what is left of the string.
-/
import RvMos.Fs.Cache

namespace RvMos

open Lib

namespace Fs

open Sys

/-! ## The layout of `struct File` -/

def maxNameLen : Nat := 128
def ndirect : Word := 10#32
def nindirect : Word := 1024#32
def by2file : Word := 256#32
def file2blk : Nat := 16
def ftypeDir : Word := 1#32

def fSize (f : Word) : Word := f + 128#32
def fType (f : Word) : Word := f + 132#32
def fDirect (f i : Word) : Word := f + 136#32 + 4#32 * i
def fIndirect (f : Word) : Word := f + 176#32
def fDir (f : Word) : Word := f + 180#32

/-- `&super->s_root`. -/
def sRoot : Word := superVa + 8#32

/-! ## Blocks of a file -/

/-- A slot for a block number gets a new block where it is empty. -/
def fillSlot (ptr : Word) (alloc : Bool) : Proc Unit := do
  when ((← load ptr) = 0#32) do
    if alloc then
      let r ← allocBlock
      store ptr r
    else throw .notFound

/-- `file_block_walk`; the result is the slot that holds the block number. -/
def fileBlockWalk (f filebno : Word) (alloc : Bool) : Proc Word := do
  if filebno < ndirect then pure (fDirect f filebno)
  else if filebno < nindirect then do
    fillSlot (fIndirect f) alloc
    let blk ← readBlock (← load (fIndirect f))
    pure (blk + 4#32 * filebno)
  else throw .inval

def fileMapBlock (f filebno : Word) (alloc : Bool) : Proc Word := do
  let ptr ← fileBlockWalk f filebno alloc
  fillSlot ptr alloc
  load ptr

/-- A slot gives its block back. -/
def emptySlot (ptr : Word) : Proc Unit := do
  let b ← load ptr
  when (b ≠ 0#32) do
    freeBlock b
    store ptr 0#32

def fileClearBlock (f filebno : Word) : Proc Unit := do
  emptySlot (← fileBlockWalk f filebno false)

def fileGetBlock (f filebno : Word) : Proc Word := do
  readBlock (← fileMapBlock f filebno true)

def fileDirty (f offset : Word) : Proc Unit := do
  dirtyBlock (← fileMapBlock f (offset / by2blk) false)

/-! ## Directories -/

/-- `strcmp(name, p) == 0` for a string in the server's memory. -/
def strEq : List Byte → Word → Proc Bool
  | [], p => do pure ((← loadByte p) = 0#8)
  | c :: cs, p => do
    if (← loadByte p) = c then strEq cs (p + 1#32) else pure false

def strcpy (p : Word) : List Byte → Proc Unit
  | [] => storeByte p 0#8
  | c :: cs => do
    storeByte p c
    strcpy (p + 1#32) cs

/-- The addresses of the files of a block. -/
def blockFiles (blk : Word) : List Word :=
  (List.range file2blk).map fun j => blk + by2file * BitVec.ofNat 32 j

/-- The inner loop of `dir_lookup`. -/
def lookupIn (dir : Word) (name : List Byte) : List Word → Proc (Option Word)
  | [] => pure none
  | f :: fs => do
    if ← strEq name f then
      store (fDir f) dir
      pure (some f)
    else lookupIn dir name fs

/-- The outer loop of `dir_lookup`. -/
def lookupBlocks (dir : Word) (name : List Byte) : List ℕ → Proc Word
  | [] => throw .notFound
  | i :: is => do
    let blk ← fileGetBlock dir (BitVec.ofNat 32 i)
    match ← lookupIn dir name (blockFiles blk) with
    | some f => pure f
    | none => lookupBlocks dir name is

def dirLookup (dir : Word) (name : List Byte) : Proc Word := do
  let nblock := (← load (fSize dir)) / by2blk
  lookupBlocks dir name (List.range nblock.toNat)

/-- The inner loop of `dir_alloc_file`. -/
def freeEntry : List Word → Proc (Option Word)
  | [] => pure none
  | f :: fs => do
    if (← loadByte f) = 0#8 then pure (some f) else freeEntry fs

/-- The outer loop of `dir_alloc_file`. -/
def freeEntryIn (dir : Word) : List ℕ → Proc (Option Word)
  | [] => pure none
  | i :: is => do
    let blk ← fileGetBlock dir (BitVec.ofNat 32 i)
    match ← freeEntry (blockFiles blk) with
    | some f => pure (some f)
    | none => freeEntryIn dir is

def dirAllocFile (dir : Word) : Proc Word := do
  let size ← load (fSize dir)
  let nblock := size / by2blk
  match ← freeEntryIn dir (List.range nblock.toNat) with
  | some f => pure f
  | none => do
    store (fSize dir) ((← load (fSize dir)) + by2blk)
    fileGetBlock dir nblock

/-! ## Paths -/

def slash : Byte := 47#8

def skipSlash (p : List Byte) : List Byte := p.dropWhile (· = slash)

/-- What `walk_path` leaves in its result and its out parameters: a file and the
directory it is in, the directory that lacks the last element, or an error. -/
inductive Walk where
  | found (dir : Option Word) (file : Word)
  | missing (dir : Word) (lastelem : List Byte)
  | failed (e : Err)

/-- The loop of `walk_path`.  A round takes at least one byte off the path, so as
many rounds as the path has bytes are enough. -/
def walkLoop : ℕ → Option Word → Word → List Byte → Proc Walk
  | _, dir, file, [] => pure (.found dir file)
  | 0, _, _, _ => throw .badPath
  | n + 1, _, file, path => do
    let dir := file
    let name := path.takeWhile (· ≠ slash)
    let rest := path.dropWhile (· ≠ slash)
    if name.length ≥ maxNameLen then pure (.failed .badPath)
    else
      let path := skipSlash rest
      if (← load (fType dir)) ≠ ftypeDir then pure (.failed .notFound)
      else
        match ← attempt (dirLookup dir name) with
        | .error r =>
          if r = .notFound ∧ path = [] then pure (.missing dir name) else pure (.failed r)
        | .ok f => walkLoop n (some dir) f path

/-- `walk_path` on the bytes at `path`, which end at the first zero. -/
def walkPath (path : List Byte) : Proc Walk := do
  let p := skipSlash (path.takeWhile (· ≠ 0#8))
  walkLoop p.length none sRoot p

def fileOpen (path : List Byte) : Proc Word := do
  match ← walkPath path with
  | .found _ f => pure f
  | .missing _ _ => throw .notFound
  | .failed e => throw e

/-- `file_create`.  A failure of `dir_alloc_file` returns the code of `walk_path`. -/
def fileCreate (path : List Byte) : Proc Word := do
  match ← walkPath path with
  | .found _ _ => throw .fileExists
  | .failed e => throw e
  | .missing dir name => do
    match ← attempt (dirAllocFile dir) with
    | .error _ => throw .notFound
    | .ok f => do
      strcpy f name
      pure f

/-! ## Sizes -/

/-- `file_clear_block` for a range of blocks; its result is not looked at. -/
def clearBlocks (f : Word) (lo hi : ℕ) : Proc Unit :=
  each (fun b => do let _ ← attempt (fileClearBlock f (BitVec.ofNat 32 b))) (List.range' lo (hi - lo))

def fileTruncate (f newsize : Word) : Proc Unit := do
  let oldNblocks := (← load (fSize f)) / by2blk + 1#32
  let newNblocks := if newsize = 0#32 then 0#32 else newsize / by2blk + 1#32
  clearBlocks f newNblocks.toNat oldNblocks.toNat
  when (newNblocks ≤ ndirect) (emptySlot (fIndirect f))
  store (fSize f) newsize

/-- One round of `file_flush`. -/
def flushBlock (f : Word) (bno : ℕ) : Proc Unit := do
  match ← attempt (fileMapBlock f (BitVec.ofNat 32 bno) false) with
  | .error _ => pure ()
  | .ok diskno => do
    when (← blockIsDirty diskno) (writeBlock diskno)

def fileFlush (f : Word) : Proc Unit := do
  let nblocks := (← load (fSize f)) / by2blk + 1#32
  each (flushBlock f) (List.range nblocks.toNat)

/-- `if (f->f_dir) file_flush(f->f_dir)`. -/
def flushDir (f : Word) : Proc Unit := do
  let d ← load (fDir f)
  when (d ≠ 0#32) (fileFlush d)

def fileSetSize (f newsize : Word) : Proc Unit := do
  when ((← load (fSize f)) > newsize) (fileTruncate f newsize)
  store (fSize f) newsize
  flushDir f

def syncBlock (i : ℕ) : Proc Unit := do
  when (← blockIsDirty (BitVec.ofNat 32 i)) (writeBlock (BitVec.ofNat 32 i))

def fsSync : Proc Unit := do
  let n ← nblocks
  each syncBlock (List.range n.toNat)

def fileClose (f : Word) : Proc Unit := do
  fileFlush f
  flushDir f

def fileRemove (path : List Byte) : Proc Unit := do
  let f ← fileOpen path
  fileTruncate f 0#32
  storeByte f 0#8
  fileFlush f
  flushDir f

end Fs
end RvMos
