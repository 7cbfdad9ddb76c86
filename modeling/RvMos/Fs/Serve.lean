/-
The requests of the file server (`fs/serv.c`).

A request is what the handlers read from the page at `REQVA`.  `ipc_send` is one
entry in the log of replies: it tries again until the client is receiving, and
nothing else happens in the server meanwhile.
-/
import RvMos.Fs.File

namespace RvMos

open Lib

namespace Fs

open Sys

def maxopen : Word := 1024#32
def fileva : Word := 0x60000000#32
def oCreat : Word := 0x0100#32
def oMkdir : Word := 0x0800#32

/-- `devfile.dev_id`. -/
def devfileId : Word := 102#32

/-- `struct Fsreq_open` and its siblings, by request code. -/
inductive Req where
  | open (path : List Byte) (omode : Word)
  | map (fileid offset : Word)
  | setSize (fileid size : Word)
  | close (fileid : Word)
  | dirty (fileid offset : Word)
  | remove (path : List Byte)
  | sync

/-- `opentab[i].o_ff`. -/
def ffVa (i : Fin 1024) : Word := fileva + by2blk * BitVec.ofNat 32 i.val

def setOpen (i : Fin 1024) (f : Open → Open) : Proc Unit :=
  modify fun s => { s with opentab := Function.update s.opentab i (f (s.opentab i)) }

def ipcSend (whom value srcva perm : Word) : Proc Unit :=
  modify fun s => { s with sent := s.sent ++ [⟨whom, value, srcva, perm⟩] }

/-- `ipc_send(envid, r, 0, 0)` for an error code. -/
def sendErr (whom : Word) (e : Err) : Proc Unit := ipcSend whom (BitVec.ofInt 32 e.code) 0#32 0#32

def zeroFilefd : Filefd := ⟨0#32, 0#32, 0#32, 0#32, fun _ => 0#32⟩

/-! ## The open table -/

/-- `case 1` of `open_alloc`. -/
def selectOpen (i : Fin 1024) : Proc (Fin 1024) := do
  setOpen i fun o => { o with fileid := o.fileid + maxopen, ff := zeroFilefd }
  pure i

/-- `case 0` of `open_alloc`. -/
def allocFf (i : Fin 1024) : Proc Unit := do
  if ← granted then setOpen i fun o => { o with ffRef := 1#16 } else throw .noMem

def openAllocIn : List (Fin 1024) → Proc (Fin 1024)
  | [] => throw .maxOpen
  | i :: is => do
    let ref := ((← get).opentab i).ffRef
    if ref = 0#16 then
      allocFf i
      selectOpen i
    else if ref = 1#16 then selectOpen i
    else openAllocIn is

/-- `open_alloc`; the result is the entry, whose `o_fileid` the source returns. -/
def openAlloc : Proc (Fin 1024) := openAllocIn (List.finRange 1024)

def openLookup (fileid : Word) : Proc Open := do
  let o := (← get).opentab (Fin.ofNat 1024 (fileid % maxopen).toNat)
  if o.ffRef = 1#16 ∨ o.fileid ≠ fileid then throw .inval else pure o

/-! ## The handlers -/

/-- The middle of `serve_open`: the file for a path and a mode. -/
def openFile (path : List Byte) (omode : Word) : Proc Word := do
  if omode &&& oCreat = oCreat then fileCreate path
  else if omode &&& oMkdir = oMkdir then
    let f ← fileCreate path
    store (fType f) ftypeDir
    pure f
  else fileOpen path

/-- `*f`, word by word. -/
def copyFile (f : Word) : Proc (Fin 64 → Word) := do
  touch f
  touch (f + 252#32)
  let s ← get
  pure fun j => s.word (f + 4#32 * BitVec.ofNat 32 j.val)

/-- The end of `serve_open`. -/
def fillOpen (whom : Word) (o : Fin 1024) (f omode : Word) : Proc Unit := do
  let copy ← copyFile f
  setOpen o fun e =>
    { e with
      file := f
      mode := omode
      ff := { e.ff with file := copy, fileid := e.fileid, omode := omode, devId := devfileId } }
  ipcSend whom 0#32 (ffVa o) (pteR ||| pteW ||| pteU ||| pteLibrary)

/-- The first `if` of `serve_open`: a negative result of `open_alloc` is sent, and
the handler goes on.  The entry stays unset where there was none. -/
def allocOrSend (whom : Word) : Proc (Option (Fin 1024)) := do
  match ← attempt openAlloc with
  | .error e => do
    sendErr whom e
    pure none
  | .ok o => do
    let fileid := ((← get).opentab o).fileid
    when (fileid.slt 0#32) (ipcSend whom fileid 0#32 0#32)
    pure (some o)

/-- The rest of `serve_open` after `open_alloc`. -/
def openRest (whom : Word) (path : List Byte) (omode : Word) (o : Option (Fin 1024)) :
    Proc Unit := do
  match ← attempt (openFile path omode) with
  | .error e => sendErr whom e
  | .ok f =>
    match o with
    | none => halt .unset
    | some o => fillOpen whom o f omode

def serveOpen (whom : Word) (path : List Byte) (omode : Word) : Proc Unit := do
  openRest whom path omode (← allocOrSend whom)

def serveMap (whom fileid offset : Word) : Proc Unit := do
  match ← attempt (do fileGetBlock (← openLookup fileid).file (offset / by2blk)) with
  | .error e => sendErr whom e
  | .ok blk => ipcSend whom 0#32 blk (pteR ||| pteW ||| pteU ||| pteLibrary)

/-- A handler that answers 0 or the error of its work. -/
def answer (whom : Word) (m : Proc Unit) : Proc Unit := do
  match ← attempt m with
  | .error e => sendErr whom e
  | .ok () => ipcSend whom 0#32 0#32 0#32

def serveSetSize (whom fileid size : Word) : Proc Unit :=
  answer whom do fileSetSize (← openLookup fileid).file size

def serveClose (whom fileid : Word) : Proc Unit :=
  answer whom do
    let o ← openLookup fileid
    let _ ← attempt (fileClose o.file)
    pure ()

def serveRemove (whom : Word) (path : List Byte) : Proc Unit := answer whom (fileRemove path)

def serveDirty (whom fileid offset : Word) : Proc Unit :=
  answer whom do fileDirty (← openLookup fileid).file offset

def serveSync (whom : Word) : Proc Unit :=
  answer whom do
    let _ ← attempt fsSync
    pure ()

/-- The `switch` of `serve`, for the seven request codes. -/
def serveReq (whom : Word) : Req → Proc Unit
  | .open path omode => serveOpen whom path omode
  | .map fileid offset => serveMap whom fileid offset
  | .setSize fileid size => serveSetSize whom fileid size
  | .close fileid => serveClose whom fileid
  | .dirty fileid offset => serveDirty whom fileid offset
  | .remove path => serveRemove whom path
  | .sync => serveSync whom

end Fs
end RvMos
