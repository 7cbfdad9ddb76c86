/-
The block cache of the file server (`fs/fs.c`, first half).

The server keeps disk blocks in pages of its own address space, block `n` at
`DISKMAP + n * BY2BLK`, and reads and writes everything there in place: the
superblock, the bitmap, directories and files are words of these pages.  The
state has the pages that are mapped, each with its flag `PTE_DIRTY`, and the
disk.  A pointer is an address, so a pointer that was itself read from a block
may lead anywhere; an access to a page that is not mapped gets a zeroed one from
the kernel, as any first access of a program does.

`PTE_DIRTY` is bit 30 of the entry, the highest of the frame number: the page of
an entry that has it lies 4 GiB above memory, and its next access is an access
fault, to which the kernel's handler is a panic.  The accesses here do not stop
at a marked page: they reach the page the entry had before, as the server takes
it.  Where it matters that no page is marked, that is said.

Whether the kernel has a frame to give is decided outside: `grants` holds its
answers.  The requests' replies, the open table and the descriptor pages of
`fs/serv.c` are part of the state as well.
-/
import RvMos.Lib.Sys
import RvMos.Kern.Pmap

namespace RvMos

open Lib

namespace Fs

abbrev Byte := BitVec 8

/-- The part of `error.h` that the server and its system calls return. -/
inductive Err where
  | inval | noMem | noDisk | maxOpen | notFound | badPath | fileExists
  deriving DecidableEq, Repr

def Err.code : Err → Int
  | .inval => -3
  | .noMem => -4
  | .noDisk => -8
  | .maxOpen => -9
  | .notFound => -10
  | .badPath => -11
  | .fileExists => -12

/-- How the server stops: `user_panic`, a failed `user_assert`, an access that the
kernel answers with a panic, and the use of a variable that was never set. -/
inductive Stop where
  | panic (msg : String)
  | assert (expr : String)
  | kernel (msg : String)
  | unset
  deriving DecidableEq, Repr

/-- A mapped page. -/
structure Cached where
  data : Page
  dirty : Bool

/-- `struct Filefd`: a descriptor and a copy of the `struct File`, word by word. -/
structure Filefd where
  devId : Word
  offset : Word
  omode : Word
  fileid : Word
  file : Fin 64 → Word

/-- `struct Open`; `o_ff` is fixed and `ffRef` is the `pp_ref` of its page. -/
structure Open where
  file : Word
  fileid : Word
  mode : Word
  ffRef : BitVec 16
  ff : Filefd

/-- The arguments of a call of `ipc_send`. -/
structure Reply where
  whom : Word
  value : Word
  srcva : Word
  perm : Word
  deriving DecidableEq, Repr

structure Server where
  /-- the mapped pages by page number -/
  pages : Word → Option Cached
  /-- the blocks of the disk by their first sector -/
  disk : Word → Page
  /-- `super` and `bitmap` have been set -/
  super : Bool
  bitmap : Bool
  grants : List Bool
  opentab : Fin 1024 → Open
  sent : List Reply

abbrev Proc := Sys Stop Err Server

open Sys

/-! ## Constants -/

def by2blk : Word := 4096#32
def bit2blk : Word := 32768#32
def sect2blk : Word := 8#32
def diskmap : Word := 0x10000000#32
def diskmax : Word := 0x40000000#32
def fsMagic : Word := 0x68286097#32

/-! ## Memory -/

/-- The index of a word in its page. -/
def wordIdx (a : Word) : Index := Fin.ofNat 1024 (a.toNat / 4)

/-- The kernel's next answer to a request for a frame. -/
def granted : Proc Bool := do
  match (← get).grants with
  | [] => pure true
  | g :: gs => do
    modify fun s => { s with grants := gs }
    pure g

def setPage (va : Word) (c : Option Cached) : Proc Unit :=
  modify fun s => { s with pages := Function.update s.pages (vpn va) c }

def zeroCached : Cached := ⟨fun _ => 0#32, false⟩

/-- An access to a page that is not mapped goes through the kernel. -/
def touch (va : Word) : Proc Unit := do
  match (← get).pages (vpn va) with
  | some _ => pure ()
  | none =>
    if va < utemp ∨ utop ≤ va then halt (.kernel "load illegal page!\n")
    else if ← granted then setPage va (some zeroCached)
    else halt (.kernel "alloc page failed!\n")

def Server.word (s : Server) (va : Word) : Word :=
  match s.pages (vpn va) with
  | some c => c.data (wordIdx va)
  | none => 0#32

def Server.setWord (s : Server) (va w : Word) : Server :=
  match s.pages (vpn va) with
  | some c =>
    { s with
      pages := Function.update s.pages (vpn va)
        (some { c with data := Function.update c.data (wordIdx va) w }) }
  | none => s

def load (va : Word) : Proc Word := do
  touch va
  pure ((← get).word va)

def store (va w : Word) : Proc Unit := do
  touch va
  modify fun s => s.setWord va w

/-- The place of a byte in its word. -/
def byteShift (va : Word) : Nat := va.toNat % 4 * 8

def loadByte (va : Word) : Proc Byte := do
  let w ← load va
  pure ((w >>> byteShift va).setWidth 8)

def storeByte (va : Word) (b : Byte) : Proc Unit := do
  let w ← load va
  let mask := 0xff#32 <<< byteShift va
  store va ((w &&& ~~~mask) ||| (b.setWidth 32 <<< byteShift va))

/-! ## System calls -/

def illegalVa (va : Word) : Bool := va < utemp || utop ≤ va

/-- `ecall_mem_alloc`, for flags without `PTE_DIRTY`. -/
def memAlloc (va : Word) : Proc Unit := do
  if illegalVa va then throw .inval
  else if ← granted then setPage va (some zeroCached)
  else throw .noMem

/-- `ecall_mem_map` of a page on itself with `PTE_DIRTY`. -/
def memMapDirty (va : Word) : Proc Unit := do
  if illegalVa va then throw .inval
  else
    match (← get).pages (vpn va) with
    | none => throw .inval
    | some c => setPage va (some { c with dirty := true })

/-- `ecall_read_disk` of one block; the kernel writes through the address itself. -/
def readDisk (sector va : Word) : Proc Unit := do
  match (← get).pages (vpn va) with
  | some c => modify fun s =>
      { s with pages := Function.update s.pages (vpn va) (some { c with data := s.disk sector }) }
  | none =>
    if ← granted then
      modify fun s =>
        { s with pages := Function.update s.pages (vpn va) (some ⟨s.disk sector, false⟩) }
    else halt (.kernel "alloc page failed!\n")

/-- `ecall_write_disk` of one block. -/
def writeDisk (sector va : Word) : Proc Unit := do
  match (← get).pages (vpn va) with
  | some c => modify fun s => { s with disk := Function.update s.disk sector c.data }
  | none => halt (.kernel "load illegal page!\n")

/-! ## Blocks -/

def diskaddr (blockno : Word) : Proc Word := do
  let t := diskmap + by2blk * blockno
  if t > diskmax + diskmap then halt (.panic "the blockno is beyond disk's capacity!\n")
  else pure t

def vaIsMapped (va : Word) : Proc Bool := do
  pure ((← get).pages (vpn va)).isSome

def blockIsMapped (blockno : Word) : Proc Bool := do
  vaIsMapped (← diskaddr blockno)

def vaIsDirty (va : Word) : Proc Bool := do
  match (← get).pages (vpn va) with
  | some c => pure c.dirty
  | none => pure false

/-- `super`, once it is set. -/
def superVa : Word := diskmap + by2blk

def nblocks : Proc Word := load (superVa + 4#32)

/-- The address of the word of the bitmap that has the bit of a block. -/
def bitmapVa (blockno : Word) : Proc Word := do
  let base := if (← get).bitmap then diskmap + by2blk * 2#32 else 0#32
  pure (base + 4#32 * (blockno / 32#32))

def blockBit (blockno : Word) : Word := 1#32 <<< (blockno % 32#32).toNat

def blockIsFree (blockno : Word) : Proc Bool := do
  if (← get).super then
    if blockno ≥ (← nblocks) then pure false
    else
      let w ← load (← bitmapVa blockno)
      pure (w &&& blockBit blockno != 0#32)
  else pure false

/-- The two checks of `read_block`. -/
def checkBlock (blockno : Word) : Proc Unit := do
  when (← get).super do
    when (blockno ≥ (← nblocks)) (halt (.panic "reading non-existent block %08x\n"))
  when (← get).bitmap do
    when (← blockIsFree blockno) (halt (.panic "reading free block %08x\n"))

/-- `read_block`; the result is `*blk`. -/
def readBlock (blockno : Word) : Proc Word := do
  checkBlock blockno
  let va ← diskaddr blockno
  if ← blockIsMapped blockno then pure va
  else
    let _ ← attempt (memAlloc va)
    readDisk (blockno * sect2blk) va
    pure va

def mapBlock (blockno : Word) : Proc Unit := do
  if ← blockIsMapped blockno then pure ()
  else memAlloc (← diskaddr blockno)

def blockIsDirty (blockno : Word) : Proc Bool := do
  let va ← diskaddr blockno
  if ← vaIsMapped va then vaIsDirty va else pure false

def writeBlock (blockno : Word) : Proc Unit := do
  if ← blockIsMapped blockno then
    writeDisk (blockno * sect2blk) (← diskaddr blockno)
  else halt (.panic "write unmapped block %08x\n")

def dirtyBlock (blockno : Word) : Proc Unit := do
  let va ← diskaddr blockno
  if ← vaIsMapped va then
    if ← vaIsDirty va then pure () else memMapDirty va
  else throw .notFound

def freeBlock (blockno : Word) : Proc Unit := do
  if blockno = 0#32 ∨ blockno ≥ (← nblocks) then pure ()
  else
    let va ← bitmapVa blockno
    store va ((← load va) ||| blockBit blockno)

/-- The loop of `alloc_block_num` over the block numbers that are left. -/
def allocSearch : List ℕ → Proc Word
  | [] => throw .noDisk
  | b :: bs => do
    let blockno := BitVec.ofNat 32 b
    if ← blockIsFree blockno then
      let va ← bitmapVa blockno
      store va ((← load va) &&& ~~~blockBit blockno)
      writeBlock (blockno / bit2blk + 2#32)
      pure blockno
    else allocSearch bs

def allocBlockNum : Proc Word := do
  let n ← nblocks
  allocSearch (List.range' 3 (n.toNat - 3))

def allocBlock : Proc Word := do
  let bno ← allocBlockNum
  match ← attempt (mapBlock bno) with
  | .error e => do
    freeBlock bno
    throw e
  | .ok _ => pure bno

end Fs
end RvMos
