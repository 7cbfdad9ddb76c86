/-
Physical pages and two-level page tables (`kern/pmap.c`).

The state is the `pp_ref` field of every `struct Page`, the free list and the
contents of every frame.  `page_free_list` is a list of frames: the code only
tests it for emptiness, takes its head and inserts at its head.  The counter is
the 16-bit `u_short` of the source.  `SET_TLB_FLUSH` has no counterpart, and so
the `asid` arguments that only feed it are left out.
-/
import RvMos.Kern.Mmu

namespace RvMos

/-- The contents of a frame, word by word. -/
abbrev Page := Index → Word

structure Pmap where
  ppRef : Frame → BitVec 16
  pageFreeList : List Frame
  mem : Frame → Page

/-- A `Pte*` or `Pde*`: a word of a frame. -/
structure PtePtr where
  frame : Frame
  idx : Index
  deriving DecidableEq, Repr

namespace Pmap

/-- `*p`. -/
def deref (s : Pmap) (p : PtePtr) : Word := s.mem p.frame p.idx

/-- `*p = w`. -/
def store (s : Pmap) (p : PtePtr) (w : Word) : Pmap :=
  { s with
    mem := Function.update s.mem p.frame (Function.update (s.mem p.frame) p.idx w) }

/-- `memset((void*)page2addr(pp),0,BY2PG)`. -/
def zeroPage (s : Pmap) (pp : Frame) : Pmap :=
  { s with mem := Function.update s.mem pp fun _ => 0#32 }

/-- `pp->pp_ref += 1`, in sixteen bits. -/
def incRef (s : Pmap) (pp : Frame) : Pmap :=
  { s with ppRef := Function.update s.ppRef pp (s.ppRef pp + 1) }

def pageAlloc (s : Pmap) : Except Errno (Frame × Pmap) :=
  match s.pageFreeList with
  | [] => .error .noMem
  | pp :: rest => .ok (pp, ({ s with pageFreeList := rest } : Pmap).zeroPage pp)

def pageFree (s : Pmap) (pp : Frame) : Except Halt Pmap :=
  if s.ppRef pp = 0 then .ok { s with pageFreeList := pp :: s.pageFreeList }
  else .error (.assert "pp->pp_ref == 0")

def pageDecref (s : Pmap) (pp : Frame) : Except Halt Pmap :=
  if s.ppRef pp = 0 then .error (.assert "pp->pp_ref > 0")
  else
    let s' : Pmap := { s with ppRef := Function.update s.ppRef pp (s.ppRef pp - 1) }
    if s'.ppRef pp = 0 then s'.pageFree pp else .ok s'

/-- `(Pte*)PADDR(PTE_ADDR(*pgdir_entryp)) + PTX(va)`.  The pointer is followed
by every caller, so an address outside memory is a stop. -/
def tableEntry (s : Pmap) (pde : PtePtr) (va : Word) : Except Halt PtePtr :=
  match addr2page (paddr (pteAddr (s.deref pde))) with
  | none => .error .wild
  | some t => .ok ⟨t, ptx va⟩

/-- `pgdir_walk`; the pointer result is `*ppte`, `none` for the null pointer. -/
def pgdirWalk (s : Pmap) (pgdir : Frame) (va : Word) (create : Bool) :
    Except Halt (Except Errno (Option PtePtr) × Pmap) :=
  let pde : PtePtr := ⟨pgdir, pdx va⟩
  if valid (s.deref pde) then
    (s.tableEntry pde va).map fun p => (.ok (some p), s)
  else if create then
    match s.pageAlloc with
    | .error e => .ok (.error e, s)
    | .ok (pp, s₁) =>
      let s₂ := (s₁.store pde (page2ptx pp ||| pteV)).incRef pp
      (s₂.tableEntry pde va).map fun p => (.ok (some p), s₂)
  else .ok (.ok none, s)

/-- `page_lookup`; `none` is the null page, and the pointer is `*ppte`. -/
def pageLookup (s : Pmap) (pgdir : Frame) (va : Word) :
    Except Halt (Option (Frame × PtePtr)) :=
  match s.pgdirWalk pgdir va false with
  | .error h => .error h
  | .ok (.ok (some p), _) =>
    if valid (s.deref p) then
      match addr2page (paddr (s.deref p)) with
      | none => .error (.panic "pa2page called with invalid ahdress: %x")
      | some pp => .ok (some (pp, p))
    else .ok none
  | .ok _ => .ok none

def pageRemove (s : Pmap) (pgdir : Frame) (va : Word) : Except Halt Pmap :=
  match s.pageLookup pgdir va with
  | .error h => .error h
  | .ok none => .ok s
  | .ok (some (pp, p)) => (s.pageDecref pp).map fun s' => s'.store p 0#32

/-- The tail of `page_insert`: the creating walk and the new entry. -/
def pageInsertNew (s : Pmap) (pgdir pp : Frame) (va perm : Word) :
    Except Halt (Except Errno Unit × Pmap) :=
  match s.pgdirWalk pgdir va true with
  | .error h => .error h
  | .ok (.error e, s') => .ok (.error e, s')
  | .ok (.ok none, _) => .error .wild
  | .ok (.ok (some p), s') => .ok (.ok (), (s'.store p (mkPte pp perm)).incRef pp)

def pageInsert (s : Pmap) (pgdir pp : Frame) (va perm : Word) :
    Except Halt (Except Errno Unit × Pmap) :=
  match s.pgdirWalk pgdir va false with
  | .error h => .error h
  | .ok (.ok (some p), _) =>
    if valid (s.deref p) then
      match addr2page (paddr (pteAddr (s.deref p))) with
      | none => .error (.panic "pa2page called with invalid ahdress: %x")
      | some old =>
        if old ≠ pp then
          match s.pageRemove pgdir va with
          | .error h => .error h
          | .ok s' => s'.pageInsertNew pgdir pp va perm
        else .ok (.ok (), s.store p (mkPte pp perm))
    else s.pageInsertNew pgdir pp va perm
  | .ok _ => s.pageInsertNew pgdir pp va perm

end Pmap
end RvMos
