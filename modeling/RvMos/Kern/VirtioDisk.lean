/-
The disk driver (`kern/virtio_disk.c`).

The driver talks to the device through registers and a queue in memory; the device itself
is not part of the kernel, so it is a parameter.  Pointers to the driver's own objects are
named by what they point to.  The queue and its requests lie where the kernel maps its
addresses to themselves, so their addresses mean the same to the device.  `tbuf` lies on the
kernel stack.  During the boot the stack is mapped to itself as well; `env_init` leaves its
pages out and `env_setup_vm` puts other frames in their places, so that in a system call the
device gets at the bytes of another page.
-/
import Mathlib.Order.Filter.AtTopBot.Basic
import RvMos.Kern.Mmu
import RvMos.Lib.Riscv
import RvMos.Lib.Writes

namespace RvMos
namespace Virtio

open Lib.Riscv (Byte Mem)

/-! ## The queue -/

def queueSize : ℕ := 32
def sectorSize : ℕ := 512

abbrev Sector := Fin 512 → Byte

inductive Pointer where
  | null
  | header (i : ℕ)
  | status (i : ℕ)
  | tbuf
  deriving DecidableEq, Repr

structure VirtqDesc where
  addr : Pointer
  len : Word
  flags : BitVec 16
  next : BitVec 16
  deriving DecidableEq, Repr

structure VirtqAvail where
  idx : BitVec 16
  ring : ℕ → BitVec 16

structure VirtqUsed where
  idx : BitVec 16
  ring : ℕ → Word × Word

structure VirtioBlkReq where
  type : Word
  reserved : Word
  sector : BitVec 64
  data : Pointer
  status : Byte
  deriving DecidableEq, Repr

/-- `struct virtqueue` with the tables that it points to. -/
structure Virtqueue where
  desc : ℕ → VirtqDesc
  avail : VirtqAvail
  used : VirtqUsed
  reqs : ℕ → VirtioBlkReq
  free : Byte

/-- Flags of a descriptor. -/
def descFNext : BitVec 16 := 1#16
def descFWrite : BitVec 16 := 2#16

/-- Types of a request. -/
def blkTIn : Word := 0#32
def blkTOut : Word := 1#32

namespace Virtqueue

def setDesc (q : Virtqueue) (i : ℕ) (d : VirtqDesc) : Virtqueue :=
  { q with desc := Function.update q.desc i d }

def setReq (q : Virtqueue) (i : ℕ) (r : VirtioBlkReq) : Virtqueue :=
  { q with reqs := Function.update q.reqs i r }

end Virtqueue

/-- Pages from `page_alloc` are clear. -/
def clearQueue : Virtqueue where
  desc _ := ⟨.null, 0, 0, 0⟩
  avail := ⟨0, fun _ => 0⟩
  used := ⟨0, fun _ => (0, 0)⟩
  reqs _ := ⟨0, 0, 0, .null, 0⟩
  free := 0

/-! ## Descriptors -/

def allocDesc (q : Virtqueue) : Option ℕ × Virtqueue :=
  match (List.range queueSize).find? fun i => q.free.setWidth 32 &&& (1#32 <<< i) ≠ 0#32 with
  | some i => (some i, { q with free := (q.free.setWidth 32 &&& ~~~(1#32 <<< i)).setWidth 8 })
  | none => (none, q)

def freeDesc (q : Virtqueue) (i : ℕ) : Virtqueue :=
  { q with free := (q.free.setWidth 32 ||| (1#32 <<< i)).setWidth 8 }

/-- The loop of `alloc_3desc`, with the descriptors that it has. -/
def allocDescs : ℕ → List ℕ → Virtqueue → Option (List ℕ) × Virtqueue
  | 0, idx, q => (some idx, q)
  | n + 1, idx, q =>
    match allocDesc q with
    | (some i, q) => allocDescs n (idx ++ [i]) q
    | (none, q) => (none, idx.foldl freeDesc q)

def alloc3desc (q : Virtqueue) : Option (List ℕ) × Virtqueue := allocDescs 3 [] q

def freeChain (q : Virtqueue) (idx : List ℕ) : Virtqueue := idx.foldl freeDesc q

/-! ## The device -/

/-- Registers of the device. -/
def diskMagicValue : ℕ := 0x000
def diskVersion : ℕ := 0x004
def diskDeviceid : ℕ := 0x008
def diskVendorid : ℕ := 0x00c
def diskDevicefeathers : ℕ := 0x010
def diskDevicefeathersSel : ℕ := 0x014
def diskDriverfeathers : ℕ := 0x020
def diskDriverfeathersSel : ℕ := 0x024
def diskQueuenumMax : ℕ := 0x034
def diskQueuenum : ℕ := 0x038
def diskQueueready : ℕ := 0x044
def diskQueuenotify : ℕ := 0x050
def diskInterruptStatus : ℕ := 0x060
def diskInterruptAck : ℕ := 0x064
def diskStatus : ℕ := 0x070
def diskQueuedescLow : ℕ := 0x080
def diskQueuedescHigh : ℕ := 0x084
def diskAvailLow : ℕ := 0x090
def diskAvailHigh : ℕ := 0x094
def diskUsedLow : ℕ := 0x0a0
def diskUsedHigh : ℕ := 0x0a4

/-- The device: its registers, and what it does to the queue and the buffer by itself
between two looks of the driver. -/
structure Device (δ : Type) where
  read : δ → ℕ → Word
  write : δ → ℕ → Word → δ
  work : δ → Virtqueue → Sector → δ × Virtqueue × Sector

/-- The kernel as far as the driver uses it.  `tbuf` is the buffer on the stack of
`disk_rw`, `mem` the memory that its callers see.  Where the stack is not mapped to itself,
`beneath` has what lies in the memory at the address of `tbuf`. -/
structure Machine (δ : Type) where
  queue : Virtqueue
  tbuf : Sector
  beneath : Option Sector
  mem : Mem
  pageFreeList : List Word
  dev : δ

/-- What the device finds at the address of `tbuf`. -/
def Machine.buffer {δ : Type} (s : Machine δ) : Sector := s.beneath.getD s.tbuf

def Machine.withBuffer {δ : Type} (s : Machine δ) (b : Sector) : Machine δ :=
  match s.beneath with
  | none => { s with tbuf := b }
  | some _ => { s with beneath := some b }

inductive Stop where
  | panic (msg : String)
  | polling
  deriving DecidableEq, Repr

/-! ## The code -/

section Code

variable {δ : Type}

/-- `GET(DISK_ADDRESS, reg) = v;` for registers one after the other. -/
def Device.writes (D : Device δ) (d : δ) (rs : List (ℕ × Word)) : δ :=
  rs.foldl (fun d r => D.write d r.1 r.2) d

/-- A page for the queue: `page_alloc` and the panic where there is none. -/
def allocPage : List Word → Except Stop (Word × List Word)
  | [] => .error (.panic "alloc page failed!\n")
  | p :: ps => .ok (p, ps)

def clearBits (w : Word) (bits : List ℕ) : Word := bits.foldl (fun w i => w &&& ~~~(1#32 <<< i)) w

/-- `disk_init`.  The status that it tests for `FEATHERS_OK` is its own variable. -/
def diskInit (D : Device δ) (s : Machine δ) : Except Stop (Machine δ) := do
  let d := s.dev
  if D.read d diskMagicValue ≠ 0x74726976#32 ∨ D.read d diskVersion ≠ 2#32 ∨
      D.read d diskDeviceid ≠ 2#32 ∨ D.read d diskVendorid ≠ 0x554d4551#32 then
    .error (.panic "failed to init the disk due to the check magic value ...\n")
  else
    let d := D.writes d [(diskStatus, 0#32), (diskStatus, 1#32), (diskStatus, 3#32),
      (diskDevicefeathersSel, 0#32)]
    -- read-only, write-back, several queues, any layout, event index, indirect descriptors
    let feathers := clearBits (D.read d diskDevicefeathers) [5, 11, 12, 27, 29, 28]
    let d := D.writes d [(diskDriverfeathers, feathers), (diskDevicefeathersSel, 1#32)]
    let feathers := D.read d diskDevicefeathers
    let d := D.writes d [(diskDriverfeathersSel, 1#32), (diskDriverfeathers, feathers), (diskStatus, 11#32)]
    if (11#32 : Word) &&& 8#32 = 0#32 then .error (.panic "disk featehrs is not ok after set!\n")
    else if D.read d diskQueueready ≠ 0#32 then
      .error (.panic "disk shouldn't be ready before set!\n")
    else if D.read d diskQueuenumMax = 0#32 ∨ (D.read d diskQueuenumMax).toNat < queueSize then
      .error (.panic "max queuesize is not enough!\n")
    else
      let (_, ps) ← allocPage s.pageFreeList
      let (desc, ps) ← allocPage ps
      let (avail, ps) ← allocPage ps
      let (used, ps) ← allocPage ps
      let d := D.writes d [(diskQueuenum, BitVec.ofNat 32 queueSize), (diskQueuedescLow, desc),
        (diskQueuedescHigh, 0#32), (diskAvailLow, avail), (diskAvailHigh, 0#32), (diskUsedLow, used),
        (diskUsedHigh, 0#32), (diskQueueready, 1#32), (diskStatus, 15#32)]
      pure { s with queue := { clearQueue with free := 0xff#8 }, pageFreeList := ps, dev := d }

/-- A round of the loop in `disk_rw_sector` up to its test. -/
def look (D : Device δ) (s : Machine δ) : Machine δ :=
  let d := D.write s.dev diskInterruptAck (D.read s.dev diskInterruptStatus &&& 3#32)
  let (d, q, b) := D.work d s.queue s.buffer
  { s with dev := d, queue := q }.withBuffer b

/-- The loop in `disk_rw_sector`. -/
def poll (D : Device δ) (i : ℕ) : ℕ → Machine δ → Except Stop (Machine δ)
  | 0, _ => .error .polling
  | n + 1, s =>
    let s := look D s
    if (s.queue.reqs i).status ≠ 3#8 then .ok s else poll D i n s

/-- What `disk_rw_sector` writes into the queue. -/
def request (q : Virtqueue) (i j k : ℕ) (sector : BitVec 64) (write : Bool) : Virtqueue :=
  let q := q.setReq i ⟨if write then blkTOut else blkTIn, 0#32, sector, .tbuf, 3#8⟩
  let q := q.setDesc i ⟨.header i, 16#32, descFNext, BitVec.ofNat 16 j⟩
  let q := q.setDesc j ⟨(q.reqs i).data, 512#32, (if write then 0#16 else descFWrite) ||| descFNext,
    BitVec.ofNat 16 k⟩
  let q := q.setDesc k ⟨.status i, 1#32, descFWrite, 0#16⟩
  { q with
    avail := ⟨q.avail.idx + 1, Function.update q.avail.ring (q.avail.idx.toNat % queueSize) (BitVec.ofNat 16 i)⟩
    used := { q.used with idx := q.used.idx + 1 } }

def diskRwSector (D : Device δ) (fuel : ℕ) (sector : BitVec 64) (write : Bool) (s : Machine δ) :
    Except Stop (Machine δ) :=
  match alloc3desc s.queue with
  | (some [i, j, k], q) => do
    let s := { s with
      queue := request q i j k sector write
      dev := D.write s.dev diskQueuenotify 0#32 }
    let s ← poll D i fuel s
    pure { s with queue := freeChain s.queue [i, j, k] }
  | _ => .error (.panic "disk_rw alloc 3 idx failed!\n")

/-- `for (j = 0; j < SECTOR_SIZE; ++j) tbuf[j] = t[j];` -/
def copyIn (m : Mem) (t : Word) : Sector := fun j => m (t + BitVec.ofNat 32 j.val)

/-- `for (j = 0; j < SECTOR_SIZE; ++j) t[j] = tbuf[j];` -/
def copyOut (m : Mem) (t : Word) (b : Sector) : Mem :=
  Lib.writes (fun j : Fin 512 => t + BitVec.ofNat 32 j.val) b (List.finRange 512) m

/-- A request of `disk_rw`: `nsecs` sectors from `sector` on, at `buf`. -/
structure Request where
  sector : BitVec 64
  write : Bool
  buf : Word
  nsecs : ℤ

namespace Request

def place (r : Request) (i : ℕ) : Word := r.buf + BitVec.ofNat 32 (sectorSize * i)

def sec (r : Request) (i : ℕ) : BitVec 64 := r.sector + BitVec.ofNat 64 i

end Request

/-- A round of the loop of `disk_rw`. -/
def diskRwRound (D : Device δ) (fuel : ℕ) (r : Request) (s : Machine δ) (i : ℕ) : Except Stop (Machine δ) := do
  let s := if r.write then { s with tbuf := copyIn s.mem (r.place i) } else s
  let s ← diskRwSector D fuel (r.sec i) r.write s
  pure (if r.write then s else { s with mem := copyOut s.mem (r.place i) s.tbuf })

/-- `disk_rw`, with the bytes that its buffer happens to have, and those beneath. -/
def diskRw (D : Device δ) (fuel : ℕ) (tbuf : Sector) (beneath : Option Sector) (r : Request)
    (s : Machine δ) : Except Stop (Machine δ) :=
  (List.range r.nsecs.toNat).foldlM (diskRwRound D fuel r) { s with tbuf := tbuf, beneath := beneath }

/-- `e_read_disk` and `e_write_disk`. -/
def ediskRequest (lowsec highsec : Word) (write : Bool) (buf : Word) (nsec : ℤ) : Request :=
  ⟨lowsec.setWidth 64 ||| (highsec.setWidth 64 <<< 32), write, buf, nsec⟩

end Code

/-! ## Three descriptors or none -/

/-- The descriptors `idx` were free, and have been taken. -/
structure Taken (q : Virtqueue) (idx : List ℕ) (q' : Virtqueue) : Prop where
  only : q' = { q with free := q'.free }
  nodup : idx.Nodup
  free : ∀ i ∈ idx, q.free.getLsbD i = true
  mask : ∀ x, q'.free.getLsbD x = (q.free.getLsbD x && decide (x ∉ idx))

section Descriptors

variable {q q' : Virtqueue} {idx : List ℕ} {i : ℕ}

theorem and_shift_ne_zero (x : Word) (hi : i < 32) : x &&& (1#32 <<< i) ≠ 0#32 ↔ x.getLsbD i = true := by
  rw [← BitVec.twoPow_eq, BitVec.and_twoPow]
  by_cases hb : x.getLsbD i = true
  · rw [if_pos hb]
    refine iff_of_true (fun h => ?_) hb
    have hbit := congrArg (fun w => BitVec.getLsbD w i) h
    simp [hi] at hbit
  · rw [if_neg hb]
    exact iff_of_false (fun h => h rfl) hb

/-- There are eight bits. -/
theorem lt_of_free (h : q.free.getLsbD i = true) : i < 8 := by
  by_contra hge
  rw [BitVec.getLsbD_of_ge _ _ (Nat.not_lt.mp hge)] at h
  cases h

theorem getLsbD_freeDesc (hi : i < 8) (x : ℕ) :
    (freeDesc q i).free.getLsbD x = (q.free.getLsbD x || decide (x = i)) := by
  show ((q.free.setWidth 32 ||| (1#32 <<< i)).setWidth 8).getLsbD x = _
  rw [← BitVec.twoPow_eq, BitVec.getLsbD_setWidth, BitVec.getLsbD_or, BitVec.getLsbD_setWidth,
    BitVec.getLsbD_twoPow]
  by_cases hx : x < 8
  · by_cases he : x = i
    · simp [he, hi, show i < 32 by omega]
    · simp [hx, he, show ¬i = x from fun h => he h.symm, show x < 32 by omega]
  · have hne : x ≠ i := by omega
    rw [decide_eq_false hx, decide_eq_false hne, BitVec.getLsbD_of_ge _ _ (Nat.not_lt.mp hx)]
    rfl

theorem getLsbD_freeChain (hi : ∀ i ∈ idx, i < 8) (x : ℕ) :
    (freeChain q idx).free.getLsbD x = (q.free.getLsbD x || decide (x ∈ idx)) := by
  induction idx generalizing q with
  | nil => simp [freeChain]
  | cons i idx ih =>
    have hstep : freeChain q (i :: idx) = freeChain (freeDesc q i) idx := rfl
    rw [hstep, ih fun j hj => hi j (List.mem_cons_of_mem _ hj),
      getLsbD_freeDesc (hi i (List.mem_cons_self ..)), Bool.or_assoc]
    congr 1
    simp [Bool.decide_or]

theorem freeChain_only : freeChain q idx = { q with free := (freeChain q idx).free } := by
  induction idx generalizing q with
  | nil => rfl
  | cons i idx ih =>
    have hstep : freeChain q (i :: idx) = freeChain (freeDesc q i) idx := rfl
    rw [hstep]
    exact ih

theorem Taken.free_back (h : Taken q idx q') {q'' : Virtqueue} (he : q''.free = q'.free) :
    (freeChain q'' idx).free = q.free := BitVec.eq_of_getLsbD_eq fun x _ => by
  rw [getLsbD_freeChain (fun i hi => lt_of_free (h.free i hi)), he, h.mask]
  by_cases hx : x ∈ idx
  · simp [hx, h.free x hx]
  · simp [hx]

/-- `free_chain` gives back what was taken. -/
theorem Taken.freeChain (h : Taken q idx q') : freeChain q' idx = q := by
  rw [freeChain_only, h.free_back rfl, h.only]

/-- `alloc_desc` takes one more, if there is one. -/
theorem Taken.allocDesc (h : Taken q idx q') :
    (∃ i q'', allocDesc q' = (some i, q'') ∧ Taken q (idx ++ [i]) q'') ∨
      (allocDesc q' = (none, q') ∧ ∀ x, q.free.getLsbD x = true → x ∈ idx) := by
  have hbit : ∀ i < 32, (q'.free.setWidth 32 &&& (1#32 <<< i) ≠ 0#32 ↔ q'.free.getLsbD i = true) :=
    fun i hi => by
      rw [and_shift_ne_zero _ hi, BitVec.getLsbD_setWidth, decide_eq_true hi, Bool.true_and]
  unfold Virtio.allocDesc
  cases hf : (List.range queueSize).find? fun i => q'.free.setWidth 32 &&& (1#32 <<< i) ≠ 0#32 with
  | none =>
    refine .inr ⟨rfl, fun x hx => ?_⟩
    by_contra hout
    have hx' : q'.free.getLsbD x = true := by
      rw [h.mask, hx, decide_eq_true hout]
      rfl
    have hlt : x < 32 := lt_trans (lt_of_free hx') (by omega)
    have hno := List.find?_range_eq_none.mp hf x hlt
    rw [Bool.not_eq_true', decide_eq_false_iff_not] at hno
    exact hno ((hbit x hlt).mpr hx')
  | some i =>
    have hlt : i < 32 := List.mem_range.mp (List.mem_of_find?_eq_some hf)
    have hset := List.find?_some hf
    rw [decide_eq_true_iff] at hset
    have hb : q'.free.getLsbD i = true := (hbit i hlt).mp hset
    have hb' := hb
    rw [h.mask, Bool.and_eq_true, decide_eq_true_iff] at hb'
    refine .inl ⟨i, _, rfl, ?_, ?_, fun j hj => ?_, fun x => ?_⟩
    · rw [h.only]
    · exact List.nodup_append.mpr ⟨h.nodup, List.nodup_singleton i, fun a ha c hc he => hb'.2 (by
        rw [List.mem_singleton] at hc
        rw [← hc, ← he]
        exact ha)⟩
    · rcases List.mem_append.mp hj with hj | hj
      · exact h.free j hj
      · rw [List.mem_singleton.mp hj]
        exact hb'.1
    · show ((q'.free.setWidth 32 &&& ~~~(1#32 <<< i)).setWidth 8).getLsbD x = _
      have hmask := h.mask x
      rw [← BitVec.twoPow_eq, BitVec.getLsbD_setWidth, BitVec.getLsbD_and, BitVec.getLsbD_setWidth,
        BitVec.getLsbD_not, BitVec.getLsbD_twoPow, hmask]
      by_cases hx : x < 8
      · by_cases he : x = i
        · simp [he, hlt]
        · simp [hx, he, show ¬i = x from fun h => he h.symm, show x < 32 by omega]
      · rw [decide_eq_false hx, BitVec.getLsbD_of_ge q.free _ (Nat.not_lt.mp hx)]
        rfl

theorem allocDescs_cases (n : ℕ) (h : Taken q idx q') :
    (∃ idx' q'', allocDescs n idx q' = (some idx', q'') ∧ Taken q idx' q'' ∧ idx'.length = idx.length + n) ∨
      (allocDescs n idx q' = (none, q) ∧
        ∃ all : List ℕ, all.length < idx.length + n ∧ ∀ x, q.free.getLsbD x = true → x ∈ all) := by
  induction n generalizing idx q' with
  | zero => exact .inl ⟨idx, q', rfl, h, rfl⟩
  | succ n ih =>
    rcases h.allocDesc with ⟨i, q'', ha, ht⟩ | ⟨ha, hall⟩
    · rw [allocDescs, ha]
      have hlen : (idx ++ [i]).length + n = idx.length + (n + 1) := by
        rw [List.length_append, List.length_singleton]
        omega
      rw [← hlen]
      exact ih ht
    · rw [allocDescs, ha]
      exact .inr ⟨congrArg (Prod.mk none) h.freeChain, idx, by omega, hall⟩

end Descriptors

/-- For every set of free descriptors, `alloc_3desc` either takes three different ones, and
`free_chain` gives exactly these back, or leaves the queue as it was, and then fewer than
three were free. -/
theorem alloc_3desc (q : Virtqueue) :
    (∃ idx q', alloc3desc q = (some idx, q') ∧ idx.length = 3 ∧ idx.Nodup ∧
      (∀ i ∈ idx, q.free.getLsbD i = true) ∧
      (∀ x, q'.free.getLsbD x = (q.free.getLsbD x && decide (x ∉ idx))) ∧ freeChain q' idx = q) ∨
    (alloc3desc q = (none, q) ∧
      ∃ all : List ℕ, all.length < 3 ∧ ∀ x, q.free.getLsbD x = true → x ∈ all) := by
  have hstart : Taken q [] q := ⟨rfl, List.nodup_nil, fun i hi => absurd hi (by simp), fun x => by simp⟩
  rcases allocDescs_cases 3 hstart with ⟨idx, q', ha, ht, hlen⟩ | hnone
  · exact .inl ⟨idx, q', ha, hlen, ht.nodup, ht.free, ht.mask, ht.freeChain⟩
  · exact .inr hnone

section Copies

variable {m : Mem} {t : Word} {b : Sector}

theorem copyOut_at (j : Fin 512) : copyOut m t b (t + BitVec.ofNat 32 j.val) = b j := by
  unfold copyOut
  refine Lib.writes_at (f := fun j : Fin 512 => t + BitVec.ofNat 32 j.val) (fun i _ j _ he => ?_)
    (List.mem_finRange j)
  have hval := congrArg BitVec.toNat ((BitVec.add_right_inj t).mp he)
  rw [BitVec.toNat_ofNat, BitVec.toNat_ofNat] at hval
  have hi := i.isLt
  have hj := j.isLt
  exact Fin.ext (by omega)

end Copies

/-! ## What the driver relies on -/

/-- The descriptors from `h` on ask for the sector of request `r`: its header, the buffer,
which the device writes if it is asked for a sector, and the status. -/
def Chain (q : Virtqueue) (h r : ℕ) : Prop :=
  ((q.reqs r).type = blkTIn ∨ (q.reqs r).type = blkTOut) ∧
  ∃ j k, q.desc h = ⟨.header r, 16#32, descFNext, j⟩ ∧
    q.desc j.toNat = ⟨.tbuf, 512#32,
      (if (q.reqs r).type = blkTOut then 0#16 else descFWrite) ||| descFNext, k⟩ ∧
    q.desc k.toNat = ⟨.status r, 1#32, descFWrite, 0#16⟩

abbrev Store := BitVec 64 → Sector

/-- The store after a sector has been asked to be written. -/
def put (capacity : BitVec 64) (S : Store) (sector : BitVec 64) (b : Sector) : Store :=
  if sector < capacity then Function.update S sector b else S

/-- What the standard says of a block device with one queue: a reset takes it back to the
start of the available ring; a request in the ring is done after finitely many looks, and
until then nothing changes.  `patience` bounds the number of looks. -/
structure Contract {δ : Type} (D : Device δ) where
  sectors : δ → Store
  seen : δ → BitVec 16
  capacity : BitVec 64
  patience : δ → ℕ
  sectors_write : ∀ d r v, sectors (D.write d r v) = sectors d
  seen_write : ∀ d r v, r ≠ diskStatus ∨ v ≠ 0#32 → seen (D.write d r v) = seen d
  seen_reset : ∀ d, seen (D.write d diskStatus 0#32) = 0#16
  patience_ack : ∀ d v, patience (D.write d diskInterruptAck v) ≤ patience d
  serves : ∀ d q b r, q.avail.idx = seen d + 1 →
    Chain q (q.avail.ring ((seen d).toNat % queueSize)).toNat r →
    (∃ d', D.work d q b = (d', q, b) ∧ sectors d' = sectors d ∧ seen d' = seen d ∧
      patience d' < patience d) ∨
    ∃ d' u b', D.work d q b = (d', ({ q with used := u } : Virtqueue).setReq r
        { q.reqs r with status := if (q.reqs r).sector < capacity then 0#8 else 1#8 }, b') ∧
      seen d' = q.avail.idx ∧
      ((q.reqs r).type = blkTOut → b' = b ∧ sectors d' = put capacity (sectors d) (q.reqs r).sector b) ∧
      ((q.reqs r).type = blkTIn → sectors d' = sectors d ∧
        ((q.reqs r).sector < capacity → b' = sectors d (q.reqs r).sector))

/-- A function of the fuel has a result from some fuel on. -/
def Ends {α : Type} (f : ℕ → Except Stop α) (a : α) : Prop := ∃ n, ∀ fuel, n < fuel → f fuel = .ok a

theorem Ends.bind {α β : Type} {f : ℕ → Except Stop α} {g : ℕ → α → Except Stop β} {a : α} {b : β}
    (hf : Ends f a) (hg : Ends (fun n => g n a) b) : Ends (fun n => f n >>= g n) b := by
  obtain ⟨n, hn⟩ := hf
  obtain ⟨m, hm⟩ := hg
  refine ⟨max n m, fun fuel hlt => ?_⟩
  simp only [hn fuel (by omega)]
  exact hm fuel (by omega)

section Driver

variable {δ : Type} {D : Device δ} {K : Contract D} {s : Machine δ} {q : Virtqueue} {i : ℕ}

/-- The stack is where it was, and the kernel's own side of `tbuf` is as before. -/
structure SameStack (s s' : Machine δ) : Prop where
  shared : s.beneath = none → s'.beneath = none
  apart : s.beneath ≠ none → s'.beneath ≠ none ∧ s'.tbuf = s.tbuf

theorem buffer_of_shared (h : s.beneath = none) : s.buffer = s.tbuf := by
  unfold Machine.buffer
  rw [h]
  rfl

theorem buffer_of_apart {b : Sector} (h : s.beneath = some b) : s.buffer = b := by
  unfold Machine.buffer
  rw [h]
  rfl

theorem withBuffer_cases (s : Machine δ) (b : Sector) :
    (s.beneath = none ∧ s.withBuffer b = { s with tbuf := b }) ∨
      (s.beneath ≠ none ∧ s.withBuffer b = { s with beneath := some b }) := by
  unfold Machine.withBuffer
  cases s.beneath with
  | none => exact .inl ⟨rfl, rfl⟩
  | some b' => exact .inr ⟨by simp, rfl⟩

theorem buffer_withBuffer (s : Machine δ) (b : Sector) : (s.withBuffer b).buffer = b := by
  rcases withBuffer_cases s b with ⟨h, heq⟩ | ⟨-, heq⟩
  · rw [heq]
    exact buffer_of_shared h
  · rw [heq]
    exact buffer_of_apart rfl

theorem withBuffer_self (s : Machine δ) : s.withBuffer s.buffer = s := by
  obtain ⟨queue, tbuf, beneath, mem, frames, dev⟩ := s
  cases beneath <;> rfl

theorem withBuffer_rest (s : Machine δ) (b : Sector) : (s.withBuffer b).queue = s.queue ∧
    (s.withBuffer b).dev = s.dev ∧ (s.withBuffer b).mem = s.mem ∧
    (s.withBuffer b).pageFreeList = s.pageFreeList := by
  rcases withBuffer_cases s b with ⟨-, heq⟩ | ⟨-, heq⟩
  · rw [heq]
    exact ⟨rfl, rfl, rfl, rfl⟩
  · rw [heq]
    exact ⟨rfl, rfl, rfl, rfl⟩

theorem sameStack_withBuffer (s : Machine δ) (b : Sector) : SameStack s (s.withBuffer b) := by
  rcases withBuffer_cases s b with ⟨h, heq⟩ | ⟨h, heq⟩
  · rw [heq]
    exact ⟨id, fun hne => absurd h hne⟩
  · rw [heq]
    exact ⟨fun h0 => absurd h0 h, fun _ => ⟨by simp, rfl⟩⟩

/-- Between requests all descriptors are free and the device has nothing to do. -/
structure Ready (K : Contract D) (s : Machine δ) : Prop where
  free : s.queue.free = 0xff#8
  idle : s.queue.avail.idx = K.seen s.dev

/-- Request `i` is in the ring. -/
structure Pending (K : Contract D) (s : Machine δ) (i : ℕ) : Prop where
  idx : s.queue.avail.idx = K.seen s.dev + 1
  chain : Chain s.queue (s.queue.avail.ring ((K.seen s.dev).toNat % queueSize)).toNat i
  status : (s.queue.reqs i).status = 3#8

/-- The device has answered request `i`. -/
structure Answered (K : Contract D) (s : Machine δ) (i : ℕ) (s' : Machine δ) : Prop where
  free : s'.queue.free = s.queue.free
  idle : s'.queue.avail.idx = K.seen s'.dev
  mem : s'.mem = s.mem
  frames : s'.pageFreeList = s.pageFreeList
  stack : SameStack s s'
  out : (s.queue.reqs i).type = blkTOut → s'.buffer = s.buffer ∧
    K.sectors s'.dev = put K.capacity (K.sectors s.dev) (s.queue.reqs i).sector s.buffer
  back : (s.queue.reqs i).type = blkTIn → K.sectors s'.dev = K.sectors s.dev ∧
    ((s.queue.reqs i).sector < K.capacity → s'.buffer = K.sectors s.dev (s.queue.reqs i).sector)

/-- A round of the loop: the device has answered, or the request is still in the ring. -/
theorem look_cases (h : Pending K s i) :
    (((look D s).queue.reqs i).status ≠ 3#8 ∧ Answered K s i (look D s)) ∨
      (∃ d, look D s = { s with dev := d } ∧ K.sectors d = K.sectors s.dev ∧ K.seen d = K.seen s.dev ∧
        K.patience d < K.patience s.dev) := by
  obtain ⟨d, hd⟩ : ∃ d, d = D.write s.dev diskInterruptAck (D.read s.dev diskInterruptStatus &&& 3#32) :=
    ⟨_, rfl⟩
  have hsec : K.sectors d = K.sectors s.dev := hd ▸ K.sectors_write ..
  have hseen : K.seen d = K.seen s.dev := hd ▸ K.seen_write _ _ _ (.inl (by decide))
  have hpat : K.patience d ≤ K.patience s.dev := hd ▸ K.patience_ack ..
  have hidx := h.idx
  have hchain := h.chain
  rw [← hseen] at hidx hchain
  rcases K.serves d s.queue s.buffer i hidx hchain with
    ⟨d', hw, hs', hn', hp'⟩ | ⟨d', u, b', hw, hn', hout, hin⟩
  · refine .inr ⟨d', ?_, hs'.trans hsec, hn'.trans hseen, by omega⟩
    unfold look
    simp only [← hd, hw]
    exact withBuffer_self { s with dev := d' }
  · rw [hsec] at hout hin
    obtain ⟨t, ht⟩ : ∃ t, t = ({ s with
        dev := d'
        queue := ({ s.queue with used := u } : Virtqueue).setReq i { s.queue.reqs i with
          status := if (s.queue.reqs i).sector < K.capacity then 0#8 else 1#8 } } : Machine δ) :=
      ⟨_, rfl⟩
    have hlook : look D s = t.withBuffer b' := by
      unfold look
      simp only [← hd, hw, ht]
    have hbuf := buffer_withBuffer t b'
    obtain ⟨hqueue, hdev, hmem, hframes⟩ := withBuffer_rest t b'
    have hstack : SameStack s (t.withBuffer b') := by
      obtain ⟨h₁, h₂⟩ := sameStack_withBuffer t b'
      rw [ht] at h₁ h₂ ⊢
      exact ⟨h₁, h₂⟩
    rw [ht] at hqueue hdev hmem hframes hbuf hstack
    rw [hlook, ht]
    refine .inl ⟨?_, ?_, ?_, hmem, hframes, hstack, fun h => ?_, fun h => ?_⟩
    · rw [hqueue]
      simp only [Virtqueue.setReq, Function.update_self]
      split_ifs <;> decide
    · rw [hqueue]
      rfl
    · rw [hqueue, hdev, hn']
      rfl
    · rw [hbuf, hdev]
      exact hout h
    · rw [hbuf, hdev]
      exact hin h

/-- The driver sees the answer after finitely many rounds. -/
theorem poll_ends (h : Pending K s i) :
    ∃ s', Answered K s i s' ∧ Ends (fun fuel => poll D i fuel s) s' := by
  obtain ⟨n, hn⟩ : ∃ n, n = K.patience s.dev := ⟨_, rfl⟩
  induction n using Nat.strong_induction_on generalizing s with
  | _ n ih =>
    rcases look_cases h with ⟨hst, ha⟩ | ⟨d, hlook, hsec, hseen, hpat⟩
    · refine ⟨_, ha, 0, fun fuel hf => ?_⟩
      obtain ⟨fuel, rfl⟩ : ∃ k, fuel = k + 1 := ⟨fuel - 1, by omega⟩
      show poll D i (fuel + 1) s = _
      rw [poll, if_pos hst]
    · have hpend : Pending K { s with dev := d } i := ⟨hseen ▸ h.idx, hseen ▸ h.chain, h.status⟩
      obtain ⟨s', ha, k, hend⟩ := ih (K.patience d) (by omega) hpend rfl
      refine ⟨s', ⟨ha.free, ha.idle, ha.mem, ha.frames, ⟨ha.stack.shared, ha.stack.apart⟩,
        hsec ▸ ha.out, hsec ▸ ha.back⟩, k + 1,
        fun fuel hf => ?_⟩
      obtain ⟨fuel, rfl⟩ : ∃ k, fuel = k + 1 := ⟨fuel - 1, by omega⟩
      show poll D i (fuel + 1) s = _
      rw [poll, hlook, if_neg (not_not.mpr h.status)]
      exact hend fuel (by omega)

/-- With all descriptors free there are three. -/
theorem alloc3desc_full (h : q.free = 0xff#8) : ∃ i j k q', alloc3desc q = (some [i, j, k], q') ∧
    Taken q [i, j, k] q' := by
  have hstart : Taken q [] q := ⟨rfl, List.nodup_nil, fun i hi => absurd hi (by simp), fun x => by simp⟩
  rcases allocDescs_cases 3 hstart with ⟨idx, q', ha, ht, hlen⟩ | ⟨-, all, hlen, hall⟩
  · obtain ⟨i, j, k, rfl⟩ := List.length_eq_three.mp hlen
    exact ⟨i, j, k, q', ha, ht⟩
  · have hsub : List.range 3 ⊆ all := fun x hx => hall x (by
      rw [h]
      have h8 : ∀ y : Fin 3, (0xff#8).getLsbD y.val = true := by decide
      exact h8 ⟨x, List.mem_range.mp hx⟩)
    have hle := (List.subperm_of_subset List.nodup_range hsub).length_le
    rw [List.length_range] at hle
    simp only [List.length_nil] at hlen
    omega

/-- The chain of a request is the one that the device looks for. -/
theorem request_pending {j k : ℕ} {q' : Virtqueue} {sector : BitVec 64} {write : Bool} (hr : Ready K s)
    (ht : Taken s.queue [i, j, k] q') : Pending K { s with
      queue := request q' i j k sector write
      dev := D.write s.dev diskQueuenotify 0#32 } i := by
  have hlt : ∀ x ∈ [i, j, k], x < 8 := fun x hx => lt_of_free (ht.free x hx)
  have hi := hlt i (by simp)
  have hj := hlt j (by simp)
  have hk := hlt k (by simp)
  obtain ⟨⟨hij, hik⟩, hjk⟩ : (i ≠ j ∧ i ≠ k) ∧ j ≠ k := by
    have hnd := ht.nodup
    simp only [List.nodup_cons, List.mem_cons, List.not_mem_nil, or_false, not_or] at hnd
    exact ⟨hnd.1, hnd.2.1⟩
  have havail : q'.avail = s.queue.avail := by rw [ht.only]
  have hseen : K.seen (D.write s.dev diskQueuenotify 0#32) = K.seen s.dev :=
    K.seen_write _ _ _ (.inl (by decide))
  have hval : ∀ x < 8, (BitVec.ofNat 16 x).toNat = x := fun x hx => by
    rw [BitVec.toNat_ofNat]
    omega
  have hring : (request q' i j k sector write).avail.ring ((K.seen s.dev).toNat % queueSize) =
      BitVec.ofNat 16 i := by
    show Function.update q'.avail.ring (q'.avail.idx.toNat % queueSize) _ _ = _
    rw [havail, hr.idle, Function.update_self]
  have hreq : (request q' i j k sector write).reqs i =
      ⟨if write then blkTOut else blkTIn, 0#32, sector, .tbuf, 3#8⟩ := Function.update_self ..
  refine ⟨?_, ?_, congrArg VirtioBlkReq.status hreq⟩
  · show q'.avail.idx + 1 = _
    rw [havail, hr.idle, hseen]
  · rw [hseen]
    simp only [hring, hval i hi]
    refine ⟨?_, BitVec.ofNat 16 j, BitVec.ofNat 16 k, ?_, ?_, ?_⟩
    · rw [hreq]
      cases write
      · exact .inl rfl
      · exact .inr rfl
    · show Function.update (Function.update (Function.update _ _ _) _ _) _ _ _ = _
      rw [Function.update_of_ne hik, Function.update_of_ne hij, Function.update_self]
    · rw [hval j hj, hreq]
      show Function.update (Function.update _ _ _) _ _ _ = _
      rw [Function.update_of_ne hjk, Function.update_self]
      have hdata : ((Virtqueue.setDesc (Virtqueue.setReq q' i ⟨if write then blkTOut else blkTIn, 0#32,
          sector, .tbuf, 3#8⟩) i ⟨.header i, 16#32, descFNext, BitVec.ofNat 16 j⟩).reqs i).data = .tbuf :=
        congrArg VirtioBlkReq.data hreq
      rw [hdata]
      cases write <;> rfl
    · rw [hval k hk]
      exact Function.update_self ..

/-- One sector goes out, or one comes in if the device has it. -/
theorem ends_diskRwSector (hr : Ready K s) (sector : BitVec 64) (write : Bool) :
    ∃ s', Ends (fun fuel => diskRwSector D fuel sector write s) s' ∧ Ready K s' ∧ s'.mem = s.mem ∧
      SameStack s s' ∧
      (write = true → s'.buffer = s.buffer ∧
        K.sectors s'.dev = put K.capacity (K.sectors s.dev) sector s.buffer) ∧
      (write = false → K.sectors s'.dev = K.sectors s.dev ∧
        (sector < K.capacity → s'.buffer = K.sectors s.dev sector)) := by
  obtain ⟨i, j, k, q', ha, ht⟩ := alloc3desc_full hr.free
  have hpend : Pending K { s with
      queue := request q' i j k sector write
      dev := D.write s.dev diskQueuenotify 0#32 } i := request_pending hr ht
  obtain ⟨s₂, hans, n, hend⟩ := poll_ends hpend
  have hsec : K.sectors (D.write s.dev diskQueuenotify 0#32) = K.sectors s.dev := K.sectors_write ..
  have hreq : (request q' i j k sector write).reqs i =
      ⟨if write then blkTOut else blkTIn, 0#32, sector, .tbuf, 3#8⟩ := Function.update_self ..
  have hout := hans.out
  have hback := hans.back
  simp only [hreq, hsec] at hout hback
  refine ⟨{ s₂ with queue := freeChain s₂.queue [i, j, k] }, ⟨n, fun fuel hf => ?_⟩, ⟨?_, ?_⟩, hans.mem,
    ⟨hans.stack.shared, hans.stack.apart⟩, fun hw => hout (by rw [hw]; rfl), fun hw => hback (by rw [hw]; rfl)⟩
  · beta_reduce at hend ⊢
    unfold diskRwSector
    rw [ha]
    simp only
    rw [hend fuel hf]
    rfl
  · rw [← hr.free]
    exact ht.free_back hans.free
  · exact hans.idle

/-- What `n` sectors of a request do to the store and to the memory.  On a stack that is
mapped to itself those that the device does not have are neither written nor read, and no
one is told.  On another stack the bytes beneath `tbuf` are written, and what comes back is
what `tbuf` has had in it. -/
def Moves (capacity : BitVec 64) (tbuf : Sector) (beneath : Option Sector) (r : Request) (n : ℕ)
    (S : Store) (m : Mem) (S' : Store) (m' : Mem) : Prop :=
  (r.write = true → m' = m ∧ S' = (List.range n).foldl
    (fun S i => put capacity S (r.sec i) (beneath.getD (copyIn m (r.place i)))) S) ∧
  (r.write = false → S' = S ∧ ∃ g : ℕ → Sector,
    (∀ i < n, if beneath = none then r.sec i < capacity → g i = S (r.sec i) else g i = tbuf) ∧
    m' = (List.range n).foldl (fun m i => copyOut m (r.place i) (g i)) m)

/-- A round writes what the device finds in the place of `tbuf`. -/
theorem ends_round_out (hr : Ready K s) (r : Request) (i : ℕ) (hw : r.write = true) :
    ∃ s', Ends (fun fuel => diskRwRound D fuel r s i) s' ∧ Ready K s' ∧ s'.mem = s.mem ∧
      s'.beneath = s.beneath ∧ K.sectors s'.dev = put K.capacity (K.sectors s.dev) (r.sec i)
        (s.beneath.getD (copyIn s.mem (r.place i))) := by
  have hr' : Ready K { s with tbuf := copyIn s.mem (r.place i) } := ⟨hr.free, hr.idle⟩
  obtain ⟨s', hend, hready, hmem, hstack, hout, -⟩ := ends_diskRwSector hr' (r.sec i) true
  obtain ⟨hbuf, hsec⟩ := hout rfl
  refine ⟨s', ?_, hready, hmem, ?_, hsec⟩
  · unfold diskRwRound
    rw [hw]
    exact hend.bind ⟨0, fun _ _ => rfl⟩
  · cases hb : s.beneath with
    | none => exact hstack.shared hb
    | some b =>
      have hne : s'.beneath ≠ none := (hstack.apart (by simp [hb])).1
      obtain ⟨b', hb'⟩ := Option.ne_none_iff_exists'.mp hne
      have hin : ({ s with tbuf := copyIn s.mem (r.place i) } : Machine δ).buffer = b :=
        buffer_of_apart hb
      rw [hb', ← hin, ← hbuf, buffer_of_apart hb']

/-- A round gives the caller what the kernel finds in `tbuf`. -/
theorem ends_round_back (hr : Ready K s) (r : Request) (i : ℕ) (hw : r.write = false) :
    ∃ s', Ends (fun fuel => diskRwRound D fuel r s i) s' ∧ Ready K s' ∧ SameStack s s' ∧
      K.sectors s'.dev = K.sectors s.dev ∧ s'.mem = copyOut s.mem (r.place i) s'.tbuf ∧
      (s.beneath = none → r.sec i < K.capacity → s'.tbuf = K.sectors s.dev (r.sec i)) := by
  obtain ⟨s', hend, hready, hmem, hstack, -, hback⟩ := ends_diskRwSector hr (r.sec i) false
  refine ⟨{ s' with mem := copyOut s'.mem (r.place i) s'.tbuf }, ?_, ⟨hready.free, hready.idle⟩,
    ⟨hstack.shared, hstack.apart⟩, (hback rfl).1, by rw [hmem], fun hb hlt => ?_⟩
  · unfold diskRwRound
    rw [hw]
    exact hend.bind ⟨0, fun _ _ => rfl⟩
  · exact (buffer_of_shared (hstack.shared hb)).symm.trans ((hback rfl).2 hlt)

theorem ends_rounds_out (hr : Ready K s) (r : Request) (n : ℕ) (hw : r.write = true) :
    ∃ s', Ends (fun fuel => (List.range n).foldlM (diskRwRound D fuel r) s) s' ∧ Ready K s' ∧
      s'.mem = s.mem ∧ s'.beneath = s.beneath ∧ K.sectors s'.dev = (List.range n).foldl
        (fun S i => put K.capacity S (r.sec i) (s.beneath.getD (copyIn s.mem (r.place i))))
        (K.sectors s.dev) := by
  induction n with
  | zero => exact ⟨s, ⟨0, fun _ _ => rfl⟩, hr, rfl, rfl, rfl⟩
  | succ n ih =>
    obtain ⟨s₁, hend, hready, hmem, hstack, hsec⟩ := ih
    obtain ⟨s', hend', hready', hmem', hstack', hsec'⟩ := ends_round_out hready r n hw
    refine ⟨s', ?_, hready', hmem'.trans hmem, hstack'.trans hstack, ?_⟩
    · simp only [List.range_succ, List.foldlM_append]
      exact hend.bind (hend'.bind ⟨0, fun _ _ => rfl⟩)
    · rw [List.range_succ, List.foldl_append, ← hsec, hsec', hmem, hstack]
      rfl

theorem ends_rounds_back (hr : Ready K s) (r : Request) (n : ℕ) (hw : r.write = false) :
    ∃ s', Ends (fun fuel => (List.range n).foldlM (diskRwRound D fuel r) s) s' ∧ Ready K s' ∧
      SameStack s s' ∧ K.sectors s'.dev = K.sectors s.dev ∧ ∃ g : ℕ → Sector,
        (∀ i < n, if s.beneath = none then r.sec i < K.capacity → g i = K.sectors s.dev (r.sec i)
          else g i = s.tbuf) ∧
        s'.mem = (List.range n).foldl (fun m i => copyOut m (r.place i) (g i)) s.mem := by
  induction n with
  | zero =>
    exact ⟨s, ⟨0, fun _ _ => rfl⟩, hr, ⟨id, fun h => ⟨h, rfl⟩⟩, rfl, fun _ => s.tbuf,
      fun i hi => absurd hi (Nat.not_lt_zero i), rfl⟩
  | succ n ih =>
    obtain ⟨s₁, hend, hready, hstack, hsec, g, hg, hmem⟩ := ih
    obtain ⟨s', hend', hready', hstack', hsec', hmem', hback⟩ := ends_round_back hready r n hw
    refine ⟨s', ?_, hready', ⟨fun h => hstack'.shared (hstack.shared h), fun h => ?_⟩,
      hsec'.trans hsec, Function.update g n s'.tbuf, fun i hi => ?_, ?_⟩
    · simp only [List.range_succ, List.foldlM_append]
      exact hend.bind (hend'.bind ⟨0, fun _ _ => rfl⟩)
    · obtain ⟨h₁, htbuf₁⟩ := hstack.apart h
      obtain ⟨h', htbuf'⟩ := hstack'.apart h₁
      exact ⟨h', htbuf'.trans htbuf₁⟩
    · by_cases he : i = n
      · rw [he, Function.update_self]
        split_ifs with hb
        · rw [← hsec]
          exact hback (hstack.shared hb)
        · obtain ⟨h₁, htbuf₁⟩ := hstack.apart hb
          exact (hstack'.apart h₁).2.trans htbuf₁
      · rw [Function.update_of_ne he]
        exact hg i (by omega)
    · have hsame : (List.range n).foldl (fun m i => copyOut m (r.place i) (Function.update g n s'.tbuf i))
          s.mem = (List.range n).foldl (fun m i => copyOut m (r.place i) (g i)) s.mem :=
        List.foldl_ext _ _ _ fun m i hi => by
          rw [Function.update_of_ne (Nat.ne_of_lt (List.mem_range.mp hi))]
      rw [List.range_succ, List.foldl_append, hsame, ← hmem, hmem', List.foldl_cons, List.foldl_nil,
        Function.update_self]

/-- `disk_rw` ends, and moves what it is asked for. -/
theorem ends_diskRw (hr : Ready K s) (tbuf : Sector) (beneath : Option Sector) (r : Request) :
    ∃ s', Ends (fun fuel => diskRw D fuel tbuf beneath r s) s' ∧ Ready K s' ∧
      Moves K.capacity tbuf beneath r r.nsecs.toNat (K.sectors s.dev) s.mem (K.sectors s'.dev) s'.mem := by
  have hr' : Ready K { s with tbuf := tbuf, beneath := beneath } := ⟨hr.free, hr.idle⟩
  cases hw : r.write with
  | true =>
    obtain ⟨s', hend, hready, hmem, -, hsec⟩ := ends_rounds_out hr' r r.nsecs.toNat hw
    exact ⟨s', hend, hready, fun _ => ⟨hmem, hsec⟩, fun h => absurd (hw.symm.trans h) (by simp)⟩
  | false =>
    obtain ⟨s', hend, hready, -, hsec, g, hg, hmem⟩ := ends_rounds_back hr' r r.nsecs.toNat hw
    exact ⟨s', hend, hready, fun h => absurd (hw.symm.trans h) (by simp), fun _ => ⟨hsec, g, hg, hmem⟩⟩

end Driver

/-! ## From the start of the kernel -/

/-- A request to the driver, or what other code does to the memory in between. -/
inductive Event where
  | diskRw (tbuf : Sector) (beneath : Option Sector) (r : Request)
  | other (f : Mem → Mem)

def run {δ : Type} (D : Device δ) (fuel : ℕ) : List Event → Machine δ → Except Stop (Machine δ)
  | [], s => pure s
  | .diskRw tbuf beneath r :: es, s => diskRw D fuel tbuf beneath r s >>= run D fuel es
  | .other f :: es, s => run D fuel es { s with mem := f s.mem }

/-- The same events for a store of sectors. -/
inductive Steps (capacity : BitVec 64) : List Event → Store → Mem → Store → Mem → Prop
  | done {S : Store} {m : Mem} : Steps capacity [] S m S m
  | diskRw {tbuf : Sector} {beneath : Option Sector} {r : Request} {es : List Event}
      {S S' T : Store} {m m' u : Mem} :
      Moves capacity tbuf beneath r r.nsecs.toNat S m S' m' → Steps capacity es S' m' T u →
      Steps capacity (.diskRw tbuf beneath r :: es) S m T u
  | other {f : Mem → Mem} {es : List Event} {S T : Store} {m u : Mem} :
      Steps capacity es S (f m) T u → Steps capacity (.other f :: es) S m T u

section Run

variable {δ : Type} {D : Device δ} {K : Contract D} {s s₀ : Machine δ}

theorem ends_run (hr : Ready K s) (es : List Event) : ∃ s', Ends (fun fuel => run D fuel es s) s' ∧
    Ready K s' ∧ Steps K.capacity es (K.sectors s.dev) s.mem (K.sectors s'.dev) s'.mem := by
  induction es generalizing s with
  | nil => exact ⟨s, ⟨0, fun _ _ => rfl⟩, hr, .done⟩
  | cons e es ih =>
    cases e with
    | diskRw tbuf beneath r =>
      obtain ⟨s₁, hend, hready, hmoves⟩ := ends_diskRw hr tbuf beneath r
      obtain ⟨s', hend', hready', hsteps⟩ := ih hready
      exact ⟨s', hend.bind hend', hready', .diskRw hmoves hsteps⟩
    | other f =>
      obtain ⟨s', hend, hready, hsteps⟩ := ih (s := { s with mem := f s.mem }) ⟨hr.free, hr.idle⟩
      exact ⟨s', hend, hready, .other hsteps⟩

theorem sectors_writes (K : Contract D) (d : δ) (rs : List (ℕ × Word)) :
    K.sectors (D.writes d rs) = K.sectors d := by
  induction rs generalizing d with
  | nil => rfl
  | cons r rs ih => exact (ih _).trans (K.sectors_write ..)

/-- Only a reset moves the device in the ring. -/
theorem seen_writes (K : Contract D) (d : δ) (rs : List (ℕ × Word))
    (h : ∀ r ∈ rs, r.1 ≠ diskStatus ∨ r.2 ≠ 0#32) : K.seen (D.writes d rs) = K.seen d := by
  induction rs generalizing d with
  | nil => rfl
  | cons r rs ih =>
    exact (ih _ fun r' hr' => h r' (List.mem_cons_of_mem _ hr')).trans
      (K.seen_write _ _ _ (h r (List.mem_cons_self ..)))

theorem bind_ok {α β : Type} {x : Except Stop α} {f : α → Except Stop β} {b : β}
    (h : (x >>= f) = .ok b) : ∃ a, x = .ok a ∧ f a = .ok b := by
  cases x with
  | error e => cases h
  | ok a => exact ⟨a, rfl, h⟩

/-- Where `disk_init` returns, the device is at the start of the empty ring. -/
theorem diskInit_ready (K : Contract D) (h : diskInit D s₀ = .ok s) :
    Ready K s ∧ K.sectors s.dev = K.sectors s₀.dev ∧ s.mem = s₀.mem := by
  unfold diskInit at h
  simp only at h
  split_ifs at h
  obtain ⟨⟨_, ps₁⟩, -, h⟩ := bind_ok h
  obtain ⟨⟨desc, ps₂⟩, -, h⟩ := bind_ok h
  obtain ⟨⟨avail, ps₃⟩, -, h⟩ := bind_ok h
  obtain ⟨⟨used, ps₄⟩, -, h⟩ := bind_ok h
  obtain rfl := Except.ok.inj h
  have hreset : ∀ rs : List (ℕ × Word), (∀ r ∈ rs, r.1 ≠ diskStatus ∨ r.2 ≠ 0#32) →
      K.seen (D.writes s₀.dev ((diskStatus, 0#32) :: rs)) = 0#16 := fun rs hrs =>
    (seen_writes K _ rs hrs).trans (K.seen_reset _)
  refine ⟨⟨rfl, Eq.symm ?_⟩, ?_, rfl⟩
  · rw [seen_writes, seen_writes, seen_writes]
    · exact hreset _ (by simp [diskStatus, diskDevicefeathersSel])
    · simp [diskStatus, diskDriverfeathers, diskDevicefeathersSel]
    · simp [diskStatus, diskDriverfeathers, diskDriverfeathersSel]
    · simp [diskStatus, diskQueuenum, diskQueuedescLow, diskQueuedescHigh, diskAvailLow, diskAvailHigh,
        diskUsedLow, diskUsedHigh, diskQueueready]
  · simp only [sectors_writes]

end Run

/-- Once `disk_init` has returned, every run of requests comes to its end, with all
descriptors free again, and does to memory and sectors what it would with a store of
sectors in the place of driver, queue and device. -/
theorem disk_run {δ : Type} {D : Device δ} (K : Contract D) {s₀ s : Machine δ}
    (h : diskInit D s₀ = .ok s) (es : List Event) : ∃ s' n, (∀ fuel, n < fuel → run D fuel es s = .ok s') ∧
    s'.queue.free = 0xff#8 ∧ Steps K.capacity es (K.sectors s₀.dev) s₀.mem (K.sectors s'.dev) s'.mem := by
  obtain ⟨hready, hsec, hmem⟩ := diskInit_ready K h
  obtain ⟨s', ⟨n, hend⟩, hready', hsteps⟩ := ends_run hready es
  rw [hsec, hmem] at hsteps
  exact ⟨s', n, hend, hready'.free, hsteps⟩

/-! ## A device that answers at once -/

/-- Its sectors, and the place in the available ring that it has come to. -/
structure Prompt where
  sectors : Store
  seen : BitVec 16

/-- What a device of eight sectors does with request `r`. -/
def Prompt.answer (d : Prompt) (q : Virtqueue) (b : Sector) (r : ℕ) : Prompt × Virtqueue × Sector :=
  let req := q.reqs r
  let out := req.type = blkTOut
  (⟨if out then put 8#64 d.sectors req.sector b else d.sectors, q.avail.idx⟩,
    q.setReq r { req with status := if req.sector < 8#64 then 0#8 else 1#8 },
    if out then b else if req.sector < 8#64 then d.sectors req.sector else b)

def promptDevice : Device Prompt where
  read _ r :=
    if r = diskMagicValue then 0x74726976#32
    else if r = diskVersion ∨ r = diskDeviceid then 2#32
    else if r = diskVendorid then 0x554d4551#32
    else if r = diskQueuenumMax then 1024#32
    else 0#32
  write d r v := if r = diskStatus ∧ v = 0#32 then { d with seen := 0#16 } else d
  work d q b :=
    match (q.desc (q.avail.ring (d.seen.toNat % queueSize)).toNat).addr with
    | .header r => d.answer q b r
    | _ => (d, q, b)

def promptContract : Contract promptDevice where
  sectors d := d.sectors
  seen d := d.seen
  capacity := 8#64
  patience _ := 0
  sectors_write d r v := by
    show (ite _ _ _ : Prompt).sectors = _
    split_ifs <;> rfl
  seen_write d r v h := by
    have hn : ¬(r = diskStatus ∧ v = 0#32) := fun he => h.elim (· he.1) (· he.2)
    exact congrArg Prompt.seen (if_neg hn)
  seen_reset d := congrArg Prompt.seen (if_pos ⟨rfl, rfl⟩)
  patience_ack _ _ := le_refl 0
  serves d q b r hidx hchain := by
    obtain ⟨htype, j, k, hh, -, -⟩ := hchain
    have hwork : promptDevice.work d q b = d.answer q b r := by
      show (match (q.desc (q.avail.ring (d.seen.toNat % queueSize)).toNat).addr with
        | .header r => d.answer q b r
        | _ => (d, q, b)) = _
      rw [hh]
    refine .inr ⟨(d.answer q b r).1, q.used, (d.answer q b r).2.2, hwork, rfl, fun hout => ⟨?_, ?_⟩,
      fun hin => ⟨?_, fun hlt => ?_⟩⟩
    · exact if_pos hout
    · exact if_pos hout
    · exact if_neg (by rw [hin]; decide)
    · exact (if_neg (by rw [hin]; decide)).trans (if_pos hlt)

/-- A machine with such a device, and the byte 7 in its memory. -/
def promptMachine : Machine Prompt where
  queue := clearQueue
  tbuf _ := 0#8
  beneath := none
  mem a := if a = 0x1000#32 then 7#8 else 0#8
  pageFreeList := [0x80400000#32, 0x80401000#32, 0x80402000#32, 0x80403000#32]
  dev := ⟨fun _ _ => 0#8, 5#16⟩

theorem promptMachine_starts : ∃ s, diskInit promptDevice promptMachine = .ok s := ⟨_, rfl⟩

/-- What a read of one sector leaves at the start of the buffer. -/
theorem Moves.first {capacity sector : BitVec 64} {tbuf : Sector} {beneath : Option Sector} {a : Word}
    {S S' : Store} {m m' : Mem} (h : Moves capacity tbuf beneath ⟨sector, false, a, 1⟩ 1 S m S' m')
    (hlt : sector < capacity) : m' a = if beneath = none then S sector 0 else tbuf 0 := by
  obtain ⟨-, g, hg, hm⟩ := h.2 rfl
  have hplace : Request.place ⟨sector, false, a, 1⟩ 0 = a := by simp [Request.place]
  have hsec : Request.sec ⟨sector, false, a, 1⟩ 0 = sector := by simp [Request.sec]
  have hout : m' a = g 0 0 := by
    rw [hm, List.range_one, List.foldl_cons, List.foldl_nil, hplace]
    simpa using copyOut_at (m := m) (t := a) (b := g 0) 0
  have h0 := hg 0 (by decide)
  rw [hsec] at h0
  rw [hout]
  split_ifs at h0 ⊢
  · rw [h0 hlt]
  · rw [h0]

/-- A sector that is written during the boot comes back although the memory has been
cleared, and does not come back on the stack of an environment. -/
def bootAndCall : List Event :=
  [.diskRw (fun _ => 0#8) none ⟨3#64, true, 0x1000#32, 1⟩, .other fun _ _ => 0#8,
    .diskRw (fun _ => 0#8) none ⟨3#64, false, 0x2000#32, 1⟩, .other fun _ _ => 0#8,
    .diskRw (fun _ => 5#8) (some fun _ => 0#8) ⟨3#64, false, 0x2000#32, 1⟩]

theorem disk_run_prompt : ∃ s s₁ s₂ n, diskInit promptDevice promptMachine = .ok s ∧
    (∀ fuel, n < fuel → run promptDevice fuel (bootAndCall.take 3) s = .ok s₁ ∧
      run promptDevice fuel bootAndCall s = .ok s₂) ∧
    s₁.mem 0x2000#32 = 7#8 ∧ s₂.mem 0x2000#32 = 5#8 := by
  obtain ⟨s, hs⟩ := promptMachine_starts
  obtain ⟨s₁, n₁, hend₁, -, hsteps₁⟩ := disk_run promptContract hs (bootAndCall.take 3)
  obtain ⟨s₂, n₂, hend₂, -, hsteps₂⟩ := disk_run promptContract hs bootAndCall
  refine ⟨s, s₁, s₂, max n₁ n₂, hs, fun fuel hf => ⟨hend₁ fuel (by omega), hend₂ fuel (by omega)⟩, ?_, ?_⟩
  · generalize s₁.mem = u at hsteps₁
    generalize promptContract.sectors s₁.dev = T at hsteps₁
    cases hsteps₁ with
    | diskRw h₁ hsteps =>
      cases hsteps with
      | other hsteps =>
        cases hsteps with
        | diskRw h₂ hsteps =>
          cases hsteps
          rw [h₂.first (by decide), if_pos rfl, (h₁.1 rfl).2]
          decide +kernel
  · generalize s₂.mem = u at hsteps₂
    generalize promptContract.sectors s₂.dev = T at hsteps₂
    cases hsteps₂ with
    | diskRw h₁ hsteps =>
      cases hsteps with
      | other hsteps =>
        cases hsteps with
        | diskRw h₂ hsteps =>
          cases hsteps with
          | other hsteps =>
            cases hsteps with
            | diskRw h₃ hsteps =>
              cases hsteps
              rw [h₃.first (by decide), if_neg (by simp)]

end Virtio
end RvMos
