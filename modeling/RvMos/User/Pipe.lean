/-
One reader and one writer of a pipe (`user/lib/pipe.c`).

A pipe is a page that both processes map, with two positions that run free and a
ring of bytes.  Nothing locks it: `pipe_read` and `pipe_write` look at the
positions, move a byte and advance their own position in statements of their
own, and the timer may come between any two of them.  `World` has the place
either process has reached, and one action is one statement of one process.

What `_pipe_is_closed` finds depends on reference counts outside the pipe; here
it may answer anything at any time.
-/
import RvMos.Lib.Run
import RvMos.Kern.Mmu

namespace RvMos

open Lib

abbrev Byte := BitVec 8

/-- `BY2PIPE`. -/
def by2pipe : Nat := 32

structure Pipe where
  rpos : Word
  wpos : Word
  buf : Fin by2pipe → Byte

namespace Pipe

/-- `pos % BY2PIPE`. -/
def slot (pos : Word) : Fin by2pipe := ⟨pos.toNat % by2pipe, Nat.mod_lt _ (by decide)⟩

/-! ## The two loops -/

/-- The statements of the loops, which have the same shape: the condition of the
`for`, the test of the positions, what is done on an empty or full pipe, and the
three statements of the other branch. -/
inductive Stmt where
  | loop
  | test
  | block
  | move
  | count
  | advance
  deriving DecidableEq, Repr

/-- A call of `pipe_read` or `pipe_write`: the buffer and length it was given, the
local `i`, and the next statement. -/
structure Call where
  buf : Word → Byte
  n : Word
  i : Word
  pc : Stmt

/-- The first `r` bytes of the buffer. -/
def Call.bytes (c : Call) (r : Word) : List Byte :=
  (List.range r.toNat).map fun j => c.buf (BitVec.ofNat 32 j)

inductive Outcome where
  | next (p : Pipe) (c : Call)
  | ret (r : Word)

def pipeRead (closed : Bool) (p : Pipe) (c : Call) : Outcome :=
  match c.pc with
  | .loop => if c.i < c.n then .next p { c with pc := .test } else .ret c.n
  | .test =>
    if p.rpos = p.wpos then .next p { c with pc := .block } else .next p { c with pc := .move }
  | .block =>
    if (0#32).slt c.i = true ∨ closed = true then .ret c.i
    else .next p { c with pc := .loop }
  | .move =>
    .next p { c with buf := Function.update c.buf c.i (p.buf (slot p.rpos)), pc := .count }
  | .count => .next p { c with i := c.i + 1#32, pc := .advance }
  | .advance => .next { p with rpos := p.rpos + 1#32 } { c with pc := .loop }

def pipeWrite (closed : Bool) (p : Pipe) (c : Call) : Outcome :=
  match c.pc with
  | .loop => if c.i < c.n then .next p { c with pc := .test } else .ret c.n
  | .test =>
    if p.wpos - p.rpos = BitVec.ofNat 32 by2pipe then .next p { c with pc := .block }
    else .next p { c with pc := .move }
  | .block => if closed = true then .ret c.i else .next p { c with pc := .loop }
  | .move =>
    .next { p with buf := Function.update p.buf (slot p.wpos) (c.buf c.i) }
      { c with pc := .count }
  | .count => .next p { c with i := c.i + 1#32, pc := .advance }
  | .advance => .next { p with wpos := p.wpos + 1#32 } { c with pc := .loop }

/-! ## Two processes -/

/-- `got` and `put` are the bytes of the calls that have returned. -/
structure World where
  pipe : Pipe
  reader : Option Call
  writer : Option Call
  got : List Byte
  put : List Byte

def Call.moved : Option Call → List Byte
  | none => []
  | some c => c.bytes c.i

/-- What the calls of `pipe_read` have put into their buffers. -/
def World.delivered (w : World) : List Byte := w.got ++ Call.moved w.reader

/-- What the calls of `pipe_write` have taken from their buffers. -/
def World.accepted (w : World) : List Byte := w.put ++ Call.moved w.writer

inductive Act where
  | callRead (buf : Word → Byte) (n : Word)
  | read (closed : Bool)
  | callWrite (buf : Word → Byte) (n : Word)
  | write (closed : Bool)

/-- A statement of the reader. -/
def World.doRead (w : World) (c : Call) : Outcome → World
  | .next p c' => { w with pipe := p, reader := some c' }
  | .ret r => { w with reader := none, got := w.got ++ c.bytes r }

/-- A statement of the writer. -/
def World.doWrite (w : World) (c : Call) : Outcome → World
  | .next p c' => { w with pipe := p, writer := some c' }
  | .ret r => { w with writer := none, put := w.put ++ c.bytes r }

def next (a : Act) (w : World) : Option World :=
  match a, w.reader, w.writer with
  | .callRead buf n, none, _ => some { w with reader := some ⟨buf, n, 0#32, .loop⟩ }
  | .read closed, some c, _ => some (w.doRead c (pipeRead closed w.pipe c))
  | .callWrite buf n, _, none => some { w with writer := some ⟨buf, n, 0#32, .loop⟩ }
  | .write closed, _, some c => some (w.doWrite c (pipeWrite closed w.pipe c))
  | _, _, _ => none

/-- A pipe with equal positions and nobody in it. -/
def Start (w : World) : Prop :=
  w.pipe.rpos = w.pipe.wpos ∧ w.reader = none ∧ w.writer = none ∧ w.got = [] ∧ w.put = []

def Step (w : World) (a : Act) (w' : World) : Prop := next a w = some w'

/-- The bytes between the two positions. -/
def queued (p : Pipe) : List Byte :=
  (List.range (p.wpos - p.rpos).toNat).map fun j => p.buf (slot (p.rpos + BitVec.ofNat 32 j))

/-- A process has counted a byte and not advanced its position yet. -/
def Call.behind : Option Call → ℕ
  | some c => if c.pc = .advance then 1 else 0
  | none => 0

/-! ## Positions and slots -/

theorem slot_add (p : Word) (j : ℕ) :
    (slot (p + BitVec.ofNat 32 j) : ℕ) = (p.toNat + j) % by2pipe := by
  simp only [slot, BitVec.toNat_add, BitVec.toNat_ofNat, by2pipe]
  omega

/-- Fewer than `BY2PIPE` positions in a row have different slots, also across the
wrap of the counter. -/
theorem slot_inj {p : Word} {a b : ℕ} (hab : a ≤ b) (hlt : b < a + by2pipe)
    (h : slot (p + BitVec.ofNat 32 a) = slot (p + BitVec.ofNat 32 b)) : a = b := by
  have heq := congrArg Fin.val h
  rw [slot_add, slot_add] at heq
  simp only [by2pipe] at heq hlt
  omega

theorem add_ofNat_succ (p : Word) (j : ℕ) :
    p + BitVec.ofNat 32 j + 1#32 = p + BitVec.ofNat 32 (j + 1) := by
  rw [BitVec.add_assoc]
  congr 1
  apply BitVec.eq_of_toNat_eq
  simp

theorem distance {p : Word} {a b : ℕ} (hab : a ≤ b) (hlt : b ≤ a + by2pipe) :
    (p + BitVec.ofNat 32 b - (p + BitVec.ofNat 32 a)).toNat = b - a := by
  have hp := p.isLt
  simp only [BitVec.toNat_sub, BitVec.toNat_add, BitVec.toNat_ofNat, by2pipe] at *
  omega

/-! ## The buffers of the calls -/

theorem bytes_succ {c : Call} (h : c.i < c.n) :
    c.bytes (c.i + 1#32) = c.bytes c.i ++ [c.buf c.i] := by
  have hn := c.n.isLt
  have hi : (c.i + 1#32).toNat = c.i.toNat + 1 := by
    rw [BitVec.lt_def] at h
    rw [BitVec.toNat_add]
    exact Nat.mod_eq_of_lt (by simp; omega)
  rw [Call.bytes, hi, List.range_succ, List.map_append]
  simp [Call.bytes]

/-- A store at `i` is not among the bytes before it. -/
theorem bytes_update (c : Call) (b : Byte) (pc : Stmt) :
    ({ c with buf := Function.update c.buf c.i b, pc := pc } : Call).bytes c.i = c.bytes c.i := by
  refine List.map_congr_left fun j hj => Function.update_of_ne (fun h => ?_) ..
  have hlt := List.mem_range.mp hj
  have hi := c.i.isLt
  rw [← h, BitVec.toNat_ofNat] at hlt
  omega

/-! ## The invariant -/

/-- A test has found a byte, or room for one. -/
def Stmt.moving : Stmt → Bool
  | .move | .count | .advance => true
  | _ => false

/-- The local `i` is within the length, and below it where the loop is inside. -/
structure Call.Bounded (c : Call) : Prop where
  le : c.i ≤ c.n
  lt : c.pc ≠ .loop → c.pc ≠ .advance → c.i < c.n

/-- The read position has passed `r` bytes and the write position `s`, from their
common start `p₀` on. -/
structure Fifo (p₀ : Word) (w : World) (r s : ℕ) : Prop where
  rpos : w.pipe.rpos = p₀ + BitVec.ofNat 32 r
  wpos : w.pipe.wpos = p₀ + BitVec.ofNat 32 s
  delivered : w.delivered.length = r + Call.behind w.reader
  accepted : w.accepted.length = s + Call.behind w.writer
  le : r ≤ s
  le_add : s ≤ r + by2pipe
  ready : ∀ c, w.reader = some c → c.pc.moving = true → r < s
  room : ∀ c, w.writer = some c → c.pc.moving = true → s < r + by2pipe
  taken : w.delivered <+: w.accepted
  held : ∀ j, r ≤ j → j < w.accepted.length →
    w.accepted[j]? = some (w.pipe.buf (slot (p₀ + BitVec.ofNat 32 j)))
  copied : ∀ c, w.reader = some c → c.pc = .count → w.accepted[r]? = some (c.buf c.i)
  stored : ∀ c, w.writer = some c → c.pc = .count → w.pipe.buf (slot w.pipe.wpos) = c.buf c.i
  reader : ∀ c, w.reader = some c → c.Bounded
  writer : ∀ c, w.writer = some c → c.Bounded

section Fifo

variable {p₀ : Word} {w : World} {r s : ℕ}

theorem fifo_start (h : Start w) : Fifo w.pipe.rpos w 0 0 := by
  obtain ⟨hpos, hr, hw, hg, hp⟩ := h
  have hd : w.delivered = [] := by simp [World.delivered, hr, hg, Call.moved]
  have ha : w.accepted = [] := by simp [World.accepted, hw, hp, Call.moved]
  refine ⟨by simp, by simp [hpos], ?_, ?_, le_rfl, Nat.zero_le _, ?_, ?_, ?_, ?_, ?_, ?_, ?_, ?_⟩
  · simp [hd, hr, Call.behind]
  · simp [ha, hw, Call.behind]
  · exact fun c hc => absurd (hr.symm.trans hc) (by simp)
  · exact fun c hc => absurd (hw.symm.trans hc) (by simp)
  · rw [hd]
    exact List.nil_prefix
  · exact fun j _ hj => absurd hj (by simp [ha])
  · exact fun c hc => absurd (hr.symm.trans hc) (by simp)
  · exact fun c hc => absurd (hw.symm.trans hc) (by simp)
  · exact fun c hc => absurd (hr.symm.trans hc) (by simp)
  · exact fun c hc => absurd (hw.symm.trans hc) (by simp)

/-- The reader moves on without touching the pipe or the count of its bytes. -/
theorem Fifo.readerStep (h : Fifo p₀ w r s) {o : Option Call} {got : List Byte}
    (hd : got ++ Call.moved o = w.delivered) (hb : Call.behind o = Call.behind w.reader)
    (hready : ∀ c, o = some c → c.pc.moving = true → r < s)
    (hcopied : ∀ c, o = some c → c.pc = .count → w.accepted[r]? = some (c.buf c.i))
    (hok : ∀ c, o = some c → c.Bounded) : Fifo p₀ { w with reader := o, got := got } r s := by
  have hd' : ({ w with reader := o, got := got } : World).delivered = w.delivered := hd
  refine ⟨h.rpos, h.wpos, ?_, h.accepted, h.le, h.le_add, hready, h.room, ?_, h.held, hcopied,
    h.stored, hok, h.writer⟩
  · rw [hd', h.delivered, hb]
  · rw [hd']
    exact h.taken

theorem Fifo.writerStep (h : Fifo p₀ w r s) {o : Option Call} {put : List Byte}
    (ha : put ++ Call.moved o = w.accepted) (hb : Call.behind o = Call.behind w.writer)
    (hroom : ∀ c, o = some c → c.pc.moving = true → s < r + by2pipe)
    (hstored : ∀ c, o = some c → c.pc = .count → w.pipe.buf (slot w.pipe.wpos) = c.buf c.i)
    (hok : ∀ c, o = some c → c.Bounded) : Fifo p₀ { w with writer := o, put := put } r s := by
  have ha' : ({ w with writer := o, put := put } : World).accepted = w.accepted := ha
  refine ⟨h.rpos, h.wpos, h.delivered, ?_, h.le, h.le_add, h.ready, hroom, ?_, ?_, ?_, hstored,
    h.reader, hok⟩
  · rw [ha', h.accepted, hb]
  · rw [ha']
    exact h.taken
  · rw [ha']
    exact h.held
  · rw [ha']
    exact h.copied

/-! ## Statements of the reader -/

theorem delivered_of_reader {c : Call} (hc : w.reader = some c) :
    w.delivered = w.got ++ c.bytes c.i := by
  rw [World.delivered, hc]
  rfl

theorem accepted_of_writer {c : Call} (hc : w.writer = some c) :
    w.accepted = w.put ++ c.bytes c.i := by
  rw [World.accepted, hc]
  rfl

theorem behind_of_ne {c : Call} (h : c.pc ≠ .advance) : Call.behind (some c) = 0 := if_neg h

/-- A statement that only goes to another one. -/
theorem Fifo.readerGoto (h : Fifo p₀ w r s) {c : Call} {pc : Stmt} (hc : w.reader = some c)
    (hpc : c.pc ≠ .advance) (hto : pc ≠ .advance) (hcount : pc ≠ .count)
    (hready : pc.moving = true → r < s) (hlt : pc ≠ .loop → c.i < c.n) :
    Fifo p₀ { w with reader := some { c with pc := pc } } r s := by
  refine h.readerStep (delivered_of_reader hc).symm ?_ ?_ ?_ ?_
  · rw [hc, behind_of_ne hpc, behind_of_ne hto]
  · intro d hd' hm
    obtain rfl := Option.some.inj hd'
    exact hready hm
  · intro d hd' hpc'
    obtain rfl := Option.some.inj hd'
    exact absurd hpc' hcount
  · intro d hd'
    obtain rfl := Option.some.inj hd'
    exact ⟨(h.reader c hc).le, fun hl _ => hlt hl⟩

/-- The reader returns the number of bytes it has moved. -/
theorem Fifo.readerReturn (h : Fifo p₀ w r s) {c : Call} (hc : w.reader = some c)
    (hpc : c.pc ≠ .advance) : Fifo p₀ { w with reader := none, got := w.got ++ c.bytes c.i } r s := by
  refine h.readerStep ?_ ?_ (fun _ hn => absurd hn (by simp)) (fun _ hn => absurd hn (by simp))
    fun _ hn => absurd hn (by simp)
  · rw [delivered_of_reader hc]
    exact List.append_nil _
  · rw [hc, behind_of_ne hpc]
    rfl

theorem Fifo.readMove (h : Fifo p₀ w r s) {c : Call} (hc : w.reader = some c)
    (hpc : c.pc = .move) :
    Fifo p₀ { w with reader := some { c with
      buf := Function.update c.buf c.i (w.pipe.buf (slot w.pipe.rpos)), pc := .count } } r s := by
  have hready : r < s := h.ready c hc (by rw [hpc]; rfl)
  have hbound := h.reader c hc
  have hlt : c.i < c.n := hbound.lt (by simp [hpc]) (by simp [hpc])
  refine h.readerStep ?_ ?_ (fun _ _ _ => hready) ?_ ?_
  · rw [delivered_of_reader hc]
    exact congrArg _ (bytes_update c _ _)
  · rw [hc, behind_of_ne (c := c) (by simp [hpc]), behind_of_ne (by simp)]
  · intro d hd' _
    obtain rfl := Option.some.inj hd'
    rw [h.held r le_rfl (by rw [h.accepted]; omega), ← h.rpos]
    exact congrArg some (Function.update_self c.i _ c.buf).symm
  · intro d hd'
    obtain rfl := Option.some.inj hd'
    exact ⟨hbound.le, fun _ _ => hlt⟩

/-- One more byte of a list that a given list starts. -/
theorem append_singleton_taken {ds as : List Byte} {b : Byte} (h : ds <+: as)
    (hb : as[ds.length]? = some b) : ds ++ [b] <+: as := by
  obtain ⟨t, rfl⟩ := h
  rw [List.getElem?_append_right le_rfl, Nat.sub_self] at hb
  cases t with
  | nil => exact absurd hb (by simp)
  | cons a t =>
    obtain rfl : a = b := Option.some.inj hb
    exact ⟨t, by simp⟩

theorem bounded_count {c : Call} (h : c.i < c.n) :
    ({ c with i := c.i + 1#32, pc := .advance } : Call).Bounded := by
  refine ⟨?_, fun _ hne => absurd rfl hne⟩
  have hn := c.n.isLt
  simp only [BitVec.lt_def, BitVec.le_def, BitVec.toNat_add, BitVec.toNat_ofNat] at h ⊢
  omega

theorem Fifo.readCount (h : Fifo p₀ w r s) {c : Call} (hc : w.reader = some c)
    (hpc : c.pc = .count) :
    Fifo p₀ { w with reader := some { c with i := c.i + 1#32, pc := .advance } } r s := by
  have hlt : c.i < c.n := (h.reader c hc).lt (by simp [hpc]) (by simp [hpc])
  have hlen : w.delivered.length = r := by
    rw [h.delivered, hc, behind_of_ne (by simp [hpc])]
    rfl
  have hd : ({ w with reader := some { c with i := c.i + 1#32, pc := .advance } } :
      World).delivered = w.delivered ++ [c.buf c.i] := by
    rw [delivered_of_reader hc, List.append_assoc, ← bytes_succ hlt]
    rfl
  refine ⟨h.rpos, h.wpos, ?_, h.accepted, h.le, h.le_add, ?_, h.room, ?_, h.held, ?_, h.stored,
    ?_, h.writer⟩
  · rw [hd, List.length_append, hlen]
    rfl
  · exact fun _ _ _ => h.ready c hc (by rw [hpc]; rfl)
  · rw [hd]
    exact append_singleton_taken h.taken (by rw [hlen]; exact h.copied c hc hpc)
  · intro d hd' hne
    obtain rfl := Option.some.inj hd'
    exact absurd hne (by simp)
  · intro d hd'
    obtain rfl := Option.some.inj hd'
    exact bounded_count hlt

theorem Fifo.readAdvance (h : Fifo p₀ w r s) {c : Call} (hc : w.reader = some c)
    (hpc : c.pc = .advance) :
    Fifo p₀ { w with pipe := { w.pipe with rpos := w.pipe.rpos + 1#32 },
                     reader := some { c with pc := .loop } } (r + 1) s := by
  have hready : r < s := h.ready c hc (by rw [hpc]; rfl)
  have hd : ({ w with pipe := { w.pipe with rpos := w.pipe.rpos + 1#32 },
                      reader := some { c with pc := .loop } } : World).delivered = w.delivered :=
    (delivered_of_reader hc).symm
  refine ⟨?_, h.wpos, ?_, h.accepted, hready, ?_, ?_, ?_, ?_, ?_, ?_, h.stored, ?_, h.writer⟩
  · show w.pipe.rpos + 1#32 = _
    rw [h.rpos, add_ofNat_succ]
  · rw [hd, h.delivered, hc]
    simp [Call.behind, hpc]
  · have := h.le_add
    omega
  · intro d hd' hm
    obtain rfl := Option.some.inj hd'
    exact absurd hm (by simp [Stmt.moving])
  · intro d hd' hm
    have := h.room d hd' hm
    omega
  · rw [hd]
    exact h.taken
  · exact fun j hj => h.held j (by omega)
  · intro d hd' hne
    obtain rfl := Option.some.inj hd'
    exact absurd hne (by simp)
  · intro d hd'
    obtain rfl := Option.some.inj hd'
    exact ⟨(h.reader c hc).le, fun hne => absurd rfl hne⟩

/-! ## Statements of the writer -/

theorem Fifo.writerGoto (h : Fifo p₀ w r s) {c : Call} {pc : Stmt} (hc : w.writer = some c)
    (hpc : c.pc ≠ .advance) (hto : pc ≠ .advance) (hcount : pc ≠ .count)
    (hroom : pc.moving = true → s < r + by2pipe) (hlt : pc ≠ .loop → c.i < c.n) :
    Fifo p₀ { w with writer := some { c with pc := pc } } r s := by
  refine h.writerStep (accepted_of_writer hc).symm ?_ ?_ ?_ ?_
  · rw [hc, behind_of_ne hpc, behind_of_ne hto]
  · intro d hd' hm
    obtain rfl := Option.some.inj hd'
    exact hroom hm
  · intro d hd' hpc'
    obtain rfl := Option.some.inj hd'
    exact absurd hpc' hcount
  · intro d hd'
    obtain rfl := Option.some.inj hd'
    exact ⟨(h.writer c hc).le, fun hl _ => hlt hl⟩

theorem Fifo.writerReturn (h : Fifo p₀ w r s) {c : Call} (hc : w.writer = some c)
    (hpc : c.pc ≠ .advance) : Fifo p₀ { w with writer := none, put := w.put ++ c.bytes c.i } r s := by
  refine h.writerStep ?_ ?_ (fun _ hn => absurd hn (by simp)) (fun _ hn => absurd hn (by simp))
    fun _ hn => absurd hn (by simp)
  · rw [accepted_of_writer hc]
    exact List.append_nil _
  · rw [hc, behind_of_ne hpc]
    rfl

/-- The slot behind the write position belongs to none of the bytes that wait. -/
theorem Fifo.writeMove (h : Fifo p₀ w r s) {c : Call} (hc : w.writer = some c)
    (hpc : c.pc = .move) :
    Fifo p₀ { w with
      pipe := { w.pipe with buf := Function.update w.pipe.buf (slot w.pipe.wpos) (c.buf c.i) },
      writer := some { c with pc := .count } } r s := by
  have hroom : s < r + by2pipe := h.room c hc (by rw [hpc]; rfl)
  have hbound := h.writer c hc
  have hlt : c.i < c.n := hbound.lt (by simp [hpc]) (by simp [hpc])
  have hlen : w.accepted.length = s := by
    rw [h.accepted, hc, behind_of_ne (by simp [hpc])]
    rfl
  have ha : ({ w with
      pipe := { w.pipe with buf := Function.update w.pipe.buf (slot w.pipe.wpos) (c.buf c.i) },
      writer := some { c with pc := .count } } : World).accepted = w.accepted :=
    (accepted_of_writer hc).symm
  refine ⟨h.rpos, h.wpos, h.delivered, ?_, h.le, h.le_add, h.ready, fun _ _ _ => hroom, ?_, ?_, ?_,
    ?_, h.reader, ?_⟩
  · rw [ha, hlen]
    rfl
  · rw [ha]
    exact h.taken
  · intro j hj hlt'
    rw [ha] at hlt' ⊢
    have hne : slot (p₀ + BitVec.ofNat 32 j) ≠ slot w.pipe.wpos := by
      intro heq
      rw [h.wpos] at heq
      have := slot_inj (by omega) (by omega) heq
      omega
    rw [h.held j hj hlt']
    exact congrArg some (Function.update_of_ne hne ..).symm
  · intro d hd' hd''
    rw [ha]
    exact h.copied d hd' hd''
  · intro d hd' _
    obtain rfl := Option.some.inj hd'
    exact Function.update_self ..
  · intro d hd'
    obtain rfl := Option.some.inj hd'
    exact ⟨hbound.le, fun _ _ => hlt⟩

theorem Fifo.writeCount (h : Fifo p₀ w r s) {c : Call} (hc : w.writer = some c)
    (hpc : c.pc = .count) :
    Fifo p₀ { w with writer := some { c with i := c.i + 1#32, pc := .advance } } r s := by
  have hlt : c.i < c.n := (h.writer c hc).lt (by simp [hpc]) (by simp [hpc])
  have hlen : w.accepted.length = s := by
    rw [h.accepted, hc, behind_of_ne (by simp [hpc])]
    rfl
  have ha : ({ w with writer := some { c with i := c.i + 1#32, pc := .advance } } :
      World).accepted = w.accepted ++ [c.buf c.i] := by
    rw [accepted_of_writer hc, List.append_assoc, ← bytes_succ hlt]
    rfl
  refine ⟨h.rpos, h.wpos, h.delivered, ?_, h.le, h.le_add, h.ready, ?_, ?_, ?_, ?_, ?_, h.reader, ?_⟩
  · rw [ha, List.length_append, hlen]
    rfl
  · exact fun _ _ _ => h.room c hc (by rw [hpc]; rfl)
  · rw [ha]
    exact h.taken.trans (List.prefix_append _ _)
  · intro j hj hlt'
    rw [ha] at hlt' ⊢
    rw [List.length_append, hlen] at hlt'
    by_cases hjs : j < s
    · rw [List.getElem?_append_left (by rwa [hlen])]
      exact h.held j hj (by rwa [hlen])
    · -- the new byte is the one stored at the write position
      obtain rfl : j = s := by
        simp only [List.length_singleton] at hlt'
        omega
      rw [List.getElem?_append_right (by rw [hlen]), hlen, Nat.sub_self, ← h.wpos]
      exact congrArg some (h.stored c hc hpc).symm
  · intro d hd' hd''
    rw [ha]
    have hcopied := h.copied d hd' hd''
    have hr : r < w.accepted.length := by
      rw [hlen]
      exact h.ready d hd' (by rw [hd'']; rfl)
    rw [List.getElem?_append_left hr]
    exact hcopied
  · intro d hd' hne
    obtain rfl := Option.some.inj hd'
    exact absurd hne (by simp)
  · intro d hd'
    obtain rfl := Option.some.inj hd'
    exact bounded_count hlt

theorem Fifo.writeAdvance (h : Fifo p₀ w r s) {c : Call} (hc : w.writer = some c)
    (hpc : c.pc = .advance) :
    Fifo p₀ { w with pipe := { w.pipe with wpos := w.pipe.wpos + 1#32 },
                     writer := some { c with pc := .loop } } r (s + 1) := by
  have hroom : s < r + by2pipe := h.room c hc (by rw [hpc]; rfl)
  have ha : ({ w with pipe := { w.pipe with wpos := w.pipe.wpos + 1#32 },
                      writer := some { c with pc := .loop } } : World).accepted = w.accepted :=
    (accepted_of_writer hc).symm
  refine ⟨h.rpos, ?_, h.delivered, ?_, ?_, hroom, ?_, ?_, ?_, ?_, ?_, ?_, h.reader, ?_⟩
  · show w.pipe.wpos + 1#32 = _
    rw [h.wpos, add_ofNat_succ]
  · rw [ha, h.accepted, hc]
    simp [Call.behind, hpc]
  · have := h.le
    omega
  · intro d hd' hm
    have := h.ready d hd' hm
    omega
  · intro d hd' hm
    obtain rfl := Option.some.inj hd'
    exact absurd hm (by simp [Stmt.moving])
  · rw [ha]
    exact h.taken
  · rw [ha]
    exact h.held
  · rw [ha]
    exact h.copied
  · intro d hd' hne
    obtain rfl := Option.some.inj hd'
    exact absurd hne (by simp)
  · intro d hd'
    obtain rfl := Option.some.inj hd'
    exact ⟨(h.writer c hc).le, fun hne => absurd rfl hne⟩

/-! ## Runs -/

/-- The loop is left with `i` at the length. -/
theorem bytes_n {c : Call} (h : c.Bounded) (hnot : ¬c.i < c.n) : c.bytes c.n = c.bytes c.i := by
  have hle := h.le
  rw [BitVec.le_def] at hle
  rw [BitVec.lt_def, not_lt] at hnot
  rw [BitVec.eq_of_toNat_eq (hle.antisymm hnot)]

/-- The positions are equal exactly when all bytes are taken. -/
theorem Fifo.not_empty (h : Fifo p₀ w r s) (hne : w.pipe.rpos ≠ w.pipe.wpos) : r < s := by
  refine lt_of_le_of_ne h.le fun heq => hne ?_
  rw [h.rpos, h.wpos, heq]

theorem Fifo.not_full (h : Fifo p₀ w r s)
    (hne : w.pipe.wpos - w.pipe.rpos ≠ BitVec.ofNat 32 by2pipe) : s < r + by2pipe := by
  refine lt_of_le_of_ne h.le_add fun heq => hne (BitVec.eq_of_toNat_eq ?_)
  rw [h.wpos, h.rpos, distance h.le h.le_add, heq]
  simp [by2pipe]

theorem Fifo.read (h : Fifo p₀ w r s) {c : Call} (hc : w.reader = some c) (closed : Bool) :
    ∃ r', Fifo p₀ (w.doRead c (pipeRead closed w.pipe c)) r' s := by
  have hbound := h.reader c hc
  unfold pipeRead
  cases hpc : c.pc with
  | loop =>
    refine ⟨r, ?_⟩
    simp only
    split
    · rename_i hlt
      exact h.readerGoto hc (by simp [hpc]) (by simp) (by simp)
        (fun hm => absurd hm (by simp [Stmt.moving])) fun _ => hlt
    · rename_i hnot
      have hret := h.readerReturn hc (by simp [hpc])
      rwa [← bytes_n hbound hnot] at hret
  | test =>
    refine ⟨r, ?_⟩
    have hlt := hbound.lt (by simp [hpc]) (by simp [hpc])
    simp only
    split
    · exact h.readerGoto hc (by simp [hpc]) (by simp) (by simp)
        (fun hm => absurd hm (by simp [Stmt.moving])) fun _ => hlt
    · rename_i hne
      exact h.readerGoto hc (by simp [hpc]) (by simp) (by simp) (fun _ => h.not_empty hne)
        fun _ => hlt
  | block =>
    refine ⟨r, ?_⟩
    simp only
    split
    · exact h.readerReturn hc (by simp [hpc])
    · exact h.readerGoto hc (by simp [hpc]) (by simp) (by simp)
        (fun hm => absurd hm (by simp [Stmt.moving])) fun hne => absurd rfl hne
  | move => exact ⟨r, h.readMove hc hpc⟩
  | count => exact ⟨r, h.readCount hc hpc⟩
  | advance => exact ⟨r + 1, h.readAdvance hc hpc⟩

theorem Fifo.write (h : Fifo p₀ w r s) {c : Call} (hc : w.writer = some c) (closed : Bool) :
    ∃ s', Fifo p₀ (w.doWrite c (pipeWrite closed w.pipe c)) r s' := by
  have hbound := h.writer c hc
  unfold pipeWrite
  cases hpc : c.pc with
  | loop =>
    refine ⟨s, ?_⟩
    simp only
    split
    · rename_i hlt
      exact h.writerGoto hc (by simp [hpc]) (by simp) (by simp)
        (fun hm => absurd hm (by simp [Stmt.moving])) fun _ => hlt
    · rename_i hnot
      have hret := h.writerReturn hc (by simp [hpc])
      rwa [← bytes_n hbound hnot] at hret
  | test =>
    refine ⟨s, ?_⟩
    have hlt := hbound.lt (by simp [hpc]) (by simp [hpc])
    simp only
    split
    · exact h.writerGoto hc (by simp [hpc]) (by simp) (by simp)
        (fun hm => absurd hm (by simp [Stmt.moving])) fun _ => hlt
    · rename_i hne
      exact h.writerGoto hc (by simp [hpc]) (by simp) (by simp) (fun _ => h.not_full hne)
        fun _ => hlt
  | block =>
    refine ⟨s, ?_⟩
    simp only
    split
    · exact h.writerReturn hc (by simp [hpc])
    · exact h.writerGoto hc (by simp [hpc]) (by simp) (by simp)
        (fun hm => absurd hm (by simp [Stmt.moving])) fun hne => absurd rfl hne
  | move => exact ⟨s, h.writeMove hc hpc⟩
  | count => exact ⟨s, h.writeCount hc hpc⟩
  | advance => exact ⟨s + 1, h.writeAdvance hc hpc⟩

theorem bounded_call (buf : Word → Byte) (n : Word) : (⟨buf, n, 0#32, .loop⟩ : Call).Bounded :=
  ⟨BitVec.le_def.mpr (Nat.zero_le _), fun hne => absurd rfl hne⟩

theorem Fifo.step (h : Fifo p₀ w r s) {a : Act} {w' : World} (hw : Step w a w') :
    ∃ r' s', Fifo p₀ w' r' s' := by
  unfold Step next at hw
  split at hw
  · rename_i buf n hr
    obtain rfl := Option.some.inj hw
    refine ⟨r, s, h.readerStep ?_ ?_ ?_ ?_ ?_⟩
    · rw [World.delivered, hr]
      simp [Call.moved, Call.bytes]
    · rw [hr]
      rfl
    · intro d hd' hm
      obtain rfl := Option.some.inj hd'
      exact absurd hm (by simp [Stmt.moving])
    · intro d hd' hm
      obtain rfl := Option.some.inj hd'
      exact absurd hm (by simp)
    · intro d hd'
      obtain rfl := Option.some.inj hd'
      exact bounded_call buf n
  · rename_i closed c hc
    obtain rfl := Option.some.inj hw
    obtain ⟨r', h'⟩ := h.read hc closed
    exact ⟨r', s, h'⟩
  · rename_i buf n hr
    obtain rfl := Option.some.inj hw
    refine ⟨r, s, h.writerStep ?_ ?_ ?_ ?_ ?_⟩
    · rw [World.accepted, hr]
      simp [Call.moved, Call.bytes]
    · rw [hr]
      rfl
    · intro d hd' hm
      obtain rfl := Option.some.inj hd'
      exact absurd hm (by simp [Stmt.moving])
    · intro d hd' hm
      obtain rfl := Option.some.inj hd'
      exact absurd hm (by simp)
    · intro d hd'
      obtain rfl := Option.some.inj hd'
      exact bounded_call buf n
  · rename_i closed c hc
    obtain rfl := Option.some.inj hw
    obtain ⟨s', h'⟩ := h.write hc closed
    exact ⟨r, s', h'⟩
  · exact absurd hw (by simp)

/-- The ring holds what the write position has passed and the read position has
not. -/
theorem Fifo.queued (h : Fifo p₀ w r s) :
    w.accepted.take s = w.delivered.take r ++ w.pipe.queued := by
  have hs : s ≤ w.accepted.length := by
    rw [h.accepted]
    omega
  have hqueued : w.pipe.queued = (w.accepted.take s).drop r := by
    refine List.ext_getElem? fun j => ?_
    unfold Pipe.queued
    rw [h.wpos, h.rpos, distance h.le h.le_add, List.getElem?_drop, List.getElem?_map]
    have hle := h.le
    by_cases hj : j < s - r
    · have hpos : p₀ + BitVec.ofNat 32 r + BitVec.ofNat 32 j = p₀ + BitVec.ofNat 32 (r + j) := by
        rw [BitVec.add_assoc, ← BitVec.ofNat_add]
      rw [List.getElem?_range hj, List.getElem?_take_of_lt (by omega),
        h.held (r + j) (by omega) (by omega), Option.map_some, hpos]
    · rw [List.getElem?_eq_none (by simp; omega), List.getElem?_eq_none (by simp; omega)]
      rfl
  have htaken : w.delivered.take r = (w.accepted.take s).take r := by
    obtain ⟨t, ht⟩ := h.taken
    have hr : r ≤ w.delivered.length := by
      rw [h.delivered]
      omega
    rw [List.take_take, min_eq_left h.le, ← ht, List.take_append_of_le_length hr]
  rw [hqueued, htaken, List.take_append_drop]

end Fifo

theorem fifo_of_run {hist : List Act} {w : World} (hrun : Run Start Step hist w) :
    ∃ p₀ r s, Fifo p₀ w r s := by
  refine Run.invariant (I := fun _ w => ∃ p₀ r s, Fifo p₀ w r s) ?_ ?_ hrun
  · exact fun w hw => ⟨w.pipe.rpos, 0, 0, fifo_start hw⟩
  · rintro _ w a w' ⟨p₀, r, s, h⟩ hw
    exact ⟨p₀, h.step hw⟩

/-- In every run the positions stay within a pipe of each other, what the readers
have got is an initial part of what the writers have put in, and the bytes between
the two positions are in the ring, in order. -/
theorem pipe_fifo {hist : List Act} {w : World} (hrun : Run Start Step hist w) :
    (w.pipe.wpos - w.pipe.rpos).toNat ≤ by2pipe ∧ w.delivered <+: w.accepted ∧
      w.accepted.take (w.accepted.length - Call.behind w.writer) =
        w.delivered.take (w.delivered.length - Call.behind w.reader) ++ w.pipe.queued := by
  obtain ⟨p₀, r, s, h⟩ := fifo_of_run hrun
  refine ⟨?_, h.taken, ?_⟩
  · rw [h.wpos, h.rpos, distance h.le h.le_add]
    have := h.le_add
    omega
  · have hr : w.delivered.length - Call.behind w.reader = r := by
      rw [h.delivered]
      omega
    have hs : w.accepted.length - Call.behind w.writer = s := by
      rw [h.accepted]
      omega
    rw [hr, hs]
    exact h.queued

/-- Both positions are about to wrap; two bytes are written, the reader has copied
the first and counted it. -/
theorem pipe_fifo_wrap : ∃ hist w, Run Start Step hist w ∧ w.pipe.wpos = 1#32 ∧
    w.delivered = [7#8] ∧ w.accepted = [7#8, 9#8] ∧
    (w.pipe.wpos - w.pipe.rpos).toNat ≤ by2pipe ∧ w.delivered <+: w.accepted ∧
      w.accepted.take (w.accepted.length - Call.behind w.writer) =
        w.delivered.take (w.delivered.length - Call.behind w.reader) ++ w.pipe.queued := by
  let w₀ : World := ⟨⟨0xffffffff#32, 0xffffffff#32, fun _ => 0#8⟩, none, none, [], []⟩
  let acts : List Act :=
    .callWrite (fun j => if j = 0#32 then 7#8 else 9#8) 2#32 :: List.replicate 11 (.write false) ++
      .callRead (fun _ => 0#8) 5#32 :: List.replicate 4 (.read false)
  have hend : ((Run.follow next acts w₀).map fun w => (w.pipe.wpos, w.delivered, w.accepted)) =
      some (1#32, [7#8], [7#8, 9#8]) := by
    decide +kernel
  obtain ⟨w, hw, heq⟩ := Option.map_eq_some_iff.mp hend
  simp only [Prod.mk.injEq] at heq
  obtain ⟨hpos, hd, ha⟩ := heq
  have hrun : Run Start Step _ w :=
    Run.of_follow (fun _ _ _ h => h) (.start (s := w₀) ⟨rfl, rfl, rfl, rfl, rfl⟩) hw
  exact ⟨_, w, hrun, hpos, hd, ha, pipe_fifo hrun⟩

end Pipe
end RvMos
