/-
Who has a pipe open (`user/lib/pipe.c`, `user/lib/fd.c`, `user/lib/fork.c`,
`user/lib/pageref.c`).

Descriptor `i` of a process is two pages: its `struct Fd` in the descriptor
table and the pipe's page in data region `i`.  A pipe has one `Fd` page for each
end and one data page, all shared between processes, and `_pipe_is_closed`
compares the reference counts of an `Fd` page and the data page.  Mapping and
unmapping are one system call for each page, and between any two of them other
processes run.

`World` has the two tables of mappings with their counters, and for every
process the place it has reached.  An action is one statement of the running
process, which makes at most one system call, or a switch to another process.
`ok` says whether the system call of the action succeeds.  The `turns` are a
record of how often a process was resumed since its last look at `env_runs`.
-/
import RvMos.Kern.Env
import RvMos.Lib.Run
import RvMos.Lib.Tally
import RvMos.User.Pipe

namespace RvMos
namespace PipeEnds

open Lib

/-! ## Descriptors -/

/-- A descriptor number below `MAXFD`. -/
abbrev Fd := Fin 32

/-- `O_RDONLY` and `O_WRONLY` in the `Fd` page. -/
inductive End where
  | read
  | write
  deriving DecidableEq, Repr

instance : Fintype End := ⟨{.read, .write}, fun e => by cases e <;> simp⟩

def End.other : End → End
  | read => write
  | write => read

/-- The pages below `USTACKTOP` that descriptors map, in the order of their
addresses: `FDTABLE` is below `FILEBASE`. -/
inductive Slot where
  | fd (i : Fd)
  | data (i : Fd)
  deriving DecidableEq, Repr

def forkOrder : List Slot :=
  (List.finRange 32).map Slot.fd ++ (List.finRange 32).map Slot.data

/-! ## Processes -/

/-- The statements of the loop of `_pipe_is_closed`, with its locals. -/
inductive Check where
  | runs
  | fdRef (runs : Word)
  | pipeRef (runs : Word) (fd : BitVec 16)
  | test (runs : Word) (fd pipe : BitVec 16)
  deriving DecidableEq, Repr

/-- The place a process has reached.  `k` is the pipe that `pipe` is making. -/
inductive Pc where
  | idle
  | pipe0
  | pipe1 (i₀ : Fd) (k : Nat)
  | pipe2 (i₀ i₁ : Fd) (k : Nat)
  | pipe3 (i₀ i₁ : Fd) (k : Nat)
  | err3 (i₀ i₁ : Fd) (k : Nat)
  | err2 (i₀ i₁ : Fd) (k : Nat)
  | err1 (i₀ : Fd) (k : Nat)
  /-- `close(i)`, as a call of its own or at the start of `dup(old, i)` -/
  | close (i : Fd) (old : Option Fd)
  | unmapFd (i : Fd) (old : Option Fd)
  | unmapData (i : Fd) (old : Option Fd)
  | fdClose (i : Fd) (old : Option Fd)
  | dupData (old new : Fd)
  | dupFd (old new : Fd)
  | dupErr (new : Fd)
  | dupErrData (new : Fd)
  | fork (child : EnvIdx) (todo : List Slot)
  | ask (i : Fd) (s : Check)
  | read (i : Fd) (c : Pipe.Call) (s : Option Check)
  | write (i : Fd) (c : Pipe.Call) (s : Option Check)

/-- `embryo` is a child whose parent has not made it runnable yet. -/
inductive Status where
  | free
  | embryo
  | ready
  deriving DecidableEq, Repr

structure World where
  fds : RefTable (EnvIdx × Fd) (End × Nat) 16
  datas : RefTable (EnvIdx × Fd) Nat 16
  status : EnvIdx → Status
  pc : EnvIdx → Pc
  runs : EnvIdx → Word
  turns : EnvIdx → Nat
  cur : EnvIdx
  /-- the pipes made so far -/
  fresh : Nat
  pipes : Nat → Pipe

namespace World

def fd (w : World) (p : EnvIdx) (i : Fd) : Option (End × Nat) := w.fds.slots (p, i)

def data (w : World) (p : EnvIdx) (i : Fd) : Option Nat := w.datas.slots (p, i)

/-- `pageref` of the `Fd` page at `i`. -/
def fdRef (w : World) (p : EnvIdx) (i : Fd) : BitVec 16 :=
  match w.fd p i with
  | none => 0#16
  | some x => w.fds.count x

/-- `pageref` of the data page at `i`. -/
def dataRef (w : World) (p : EnvIdx) (i : Fd) : BitVec 16 :=
  match w.data p i with
  | none => 0#16
  | some k => w.datas.count k

def goto (w : World) (p : EnvIdx) (pc : Pc) : World :=
  { w with pc := Function.update w.pc p pc }

def setFd (w : World) (p : EnvIdx) (i : Fd) (x : Option (End × Nat)) : World :=
  { w with fds := w.fds.set (p, i) x }

def setData (w : World) (p : EnvIdx) (i : Fd) (k : Option Nat) : World :=
  { w with datas := w.datas.set (p, i) k }

def setPipe (w : World) (k : Nat) (q : Pipe) : World :=
  { w with pipes := Function.update w.pipes k q }

/-- `fd_alloc`: the first free number below `MAXFD - 1`. -/
def fdAlloc (w : World) (p : EnvIdx) : Option Fd :=
  (List.finRange 32).find? fun i => decide (i.val < 31) && (w.fd p i).isNone

end World

/-! ## What is returned -/

/-- The result of `_pipe_is_closed` for an end of a pipe, and of `pipe_read` and
`pipe_write` with the length they were called with. -/
inductive Answer where
  | closed (e : End) (k : Nat) (b : Bool)
  | read (k : Nat) (n r : Word)
  | wrote (k : Nat) (n r : Word)
  deriving DecidableEq, Repr

/-- The library calls of a process; `fork` gets the child that `exofork` finds. -/
inductive Op where
  | pipe
  | dup (old new : Fd)
  | close (i : Fd)
  | fork (child : EnvIdx)
  | isClosed (i : Fd)
  | read (i : Fd) (buf : Word → Byte) (n : Word)
  | write (i : Fd) (buf : Word → Byte) (n : Word)

inductive Act where
  /-- `env_run` -/
  | run (p : EnvIdx)
  | call (op : Op)
  | step (ok : Bool)

/-! ## One statement -/

/-- `pipe_read` or `pipe_write`: the end it is for, its loop, and when it looks
whether the pipe is closed. -/
structure Io where
  mode : End
  run : Bool → Pipe → Pipe.Call → Pipe.Outcome
  looks : Pipe.Call → Bool
  pc : Fd → Pipe.Call → Option Check → Pc
  answer : Nat → Word → Word → Answer

/-- `pipe_read` looks on an empty pipe, with nothing read yet. -/
def reading : Io where
  mode := .read
  run := Pipe.pipeRead
  looks c := decide (c.pc = .block) && !(0#32).slt c.i
  pc := .read
  answer := .read

def writing : Io where
  mode := .write
  run := Pipe.pipeWrite
  looks c := decide (c.pc = .block)
  pc := .write
  answer := .wrote

namespace World

/-- A call that starts from `idle`; lookups of descriptors make no system call. -/
def start (w : World) (p : EnvIdx) : Op → Option World
  | .pipe => some (w.goto p .pipe0)
  | .dup old new =>
    match w.fd p old with
    | none => some w
    | some _ => some (w.goto p (.close new (some old)))
  | .close i => some (w.goto p (.close i none))
  | .fork child =>
    if w.status child = .free ∧ child ≠ p then
      some ({ w with
        status := Function.update w.status child .embryo
        pc := Function.update w.pc child .idle
        runs := Function.update w.runs child 0#32 }.goto p (.fork child forkOrder))
    else none
  | .isClosed i =>
    match w.fd p i with
    | none => some w
    | some _ => some (w.goto p (.ask i .runs))
  | .read i buf n =>
    match w.fd p i with
    | some (.read, _) => some (w.goto p (.read i ⟨buf, n, 0#32, .loop⟩ none))
    | _ => some w
  | .write i buf n =>
    match w.fd p i with
    | some (.write, _) => some (w.goto p (.write i ⟨buf, n, 0#32, .loop⟩ none))
    | _ => some w

/-- What follows `close(i)`. -/
def closed (w : World) (p : EnvIdx) (i : Fd) : Option Fd → World
  | none => w.goto p .idle
  | some old => w.goto p (.dupData old i)

/-- One page of the loop of `fork`; `duppage` ignores the result of its call. -/
def dupPage (w : World) (p child : EnvIdx) (ok : Bool) : Slot → World
  | .fd i =>
    match w.fd p i with
    | none => w
    | some x => if ok = true then w.setFd child i (some x) else w
  | .data i =>
    match w.data p i with
    | none => w
    | some k => if ok = true then w.setData child i (some k) else w

/-- A statement of `_pipe_is_closed`; the loop ends with the comparison. -/
def check (w : World) (p : EnvIdx) (i : Fd) : Check → Sum Check Bool
  | .runs => .inl (.fdRef (w.runs p))
  | .fdRef r => .inl (.pipeRef r (w.fdRef p i))
  | .pipeRef r f => .inl (.test r f (w.dataRef p i))
  | .test r f d => if r ≠ w.runs p then .inl .runs else .inr (decide (f = d))

/-- The record starts again with every look at `env_runs`. -/
def look (w : World) (p : EnvIdx) (s : Check) : World :=
  if s = .runs then { w with turns := Function.update w.turns p 0 } else w

/-- What a statement of `pipe_read` or `pipe_write` leads to. -/
def afterIo (w : World) (io : Io) (p : EnvIdx) (i : Fd) (k : Nat) (n : Word) :
    Pipe.Outcome → World × List Answer
  | .next q c => ((w.setPipe k q).goto p (io.pc i c none), [])
  | .ret r => (w.goto p .idle, [io.answer k n r])

/-- A statement of `pipe_read` or `pipe_write`, or of the `_pipe_is_closed` it has
called. -/
def ioStep (w : World) (io : Io) (p : EnvIdx) (i : Fd) (c : Pipe.Call) (s : Option Check) :
    Option (World × List Answer) :=
  match w.fd p i, w.data p i, s with
  | _, some k, none =>
    if io.looks c = true then some (w.goto p (io.pc i c (some .runs)), [])
    else some (w.afterIo io p i k c.n (io.run false (w.pipes k) c))
  | some (e, k₀), some k, some s =>
    match w.check p i s with
    | .inl s' => some ((w.look p s).goto p (io.pc i c (some s')), [])
    | .inr b =>
      let r := w.afterIo io p i k c.n (io.run b (w.pipes k) c)
      some (r.1, .closed e k₀ b :: r.2)
  | _, _, _ => none

def askStep (w : World) (p : EnvIdx) (i : Fd) (s : Check) : Option (World × List Answer) :=
  match w.fd p i with
  | none => none
  | some (e, k) =>
    match w.check p i s with
    | .inl s' => some ((w.look p s).goto p (.ask i s'), [])
    | .inr b => some (w.goto p .idle, [.closed e k b])

/-- A statement of `pipe` and of its error path. -/
def pipeStep (w : World) (p : EnvIdx) (ok : Bool) : Pc → World
  | .pipe0 =>
    match w.fdAlloc p, ok with
    | some i₀, true =>
      ({ w with fresh := w.fresh + 1 }.setFd p i₀ (some (.read, w.fresh))).goto p (.pipe1 i₀ w.fresh)
    | _, _ => w.goto p .idle
  | .pipe1 i₀ k =>
    match w.fdAlloc p, ok with
    | some i₁, true => (w.setFd p i₁ (some (.write, k))).goto p (.pipe2 i₀ i₁ k)
    | _, _ => w.goto p (.err1 i₀ k)
  | .pipe2 i₀ i₁ k =>
    if ok = true then
      ((w.setData p i₀ (some k)).setPipe k ⟨0#32, 0#32, fun _ => 0#8⟩).goto p (.pipe3 i₀ i₁ k)
    else w.goto p (.err2 i₀ i₁ k)
  | .pipe3 i₀ i₁ k =>
    match w.data p i₀, ok with
    | some d, true => (w.setData p i₁ (some d)).goto p .idle
    | _, _ => w.goto p (.err3 i₀ i₁ k)
  | .err3 i₀ i₁ k => (w.setData p i₀ none).goto p (.err2 i₀ i₁ k)
  | .err2 i₀ i₁ k => (w.setFd p i₁ none).goto p (.err1 i₀ k)
  | .err1 i₀ _ => (w.setFd p i₀ none).goto p .idle
  | _ => w

/-- A statement of `close`. -/
def closeStep (w : World) (p : EnvIdx) : Pc → World
  | .close i old =>
    match w.fd p i with
    | none => w.closed p i old
    | some _ => w.goto p (.unmapFd i old)
  | .unmapFd i old => (w.setFd p i none).goto p (.unmapData i old)
  | .unmapData i old => (w.setData p i none).goto p (.fdClose i old)
  | .fdClose i old => (w.setFd p i none).closed p i old
  | _ => w

/-- A statement of `dup` after its `close`. -/
def dupStep (w : World) (p : EnvIdx) (ok : Bool) : Pc → World
  | .dupData old new =>
    match w.data p old, ok with
    | none, _ => w.goto p (.dupFd old new)
    | some k, true => (w.setData p new (some k)).goto p (.dupFd old new)
    | some _, false => w.goto p (.dupErr new)
  | .dupFd old new =>
    match w.fd p old, ok with
    | some x, true => (w.setFd p new (some x)).goto p .idle
    | _, _ => w.goto p (.dupErr new)
  | .dupErr new => (w.setFd p new none).goto p (.dupErrData new)
  | .dupErrData new => (w.setData p new none).goto p .idle
  | _ => w

def forkStep (w : World) (p : EnvIdx) (ok : Bool) (child : EnvIdx) : List Slot → World
  | [] => { w with status := Function.update w.status child .ready }.goto p .idle
  | s :: todo => (w.dupPage p child ok s).goto p (.fork child todo)

def advance (w : World) (p : EnvIdx) (ok : Bool) : Option (World × List Answer) :=
  match w.pc p with
  | .idle => none
  | .pipe0 | .pipe1 .. | .pipe2 .. | .pipe3 .. | .err3 .. | .err2 .. | .err1 .. =>
    some (w.pipeStep p ok (w.pc p), [])
  | .close .. | .unmapFd .. | .unmapData .. | .fdClose .. => some (w.closeStep p (w.pc p), [])
  | .dupData .. | .dupFd .. | .dupErr .. | .dupErrData .. => some (w.dupStep p ok (w.pc p), [])
  | .fork child todo => some (w.forkStep p ok child todo, [])
  | .ask i s => w.askStep p i s
  | .read i c s => w.ioStep reading p i c s
  | .write i c s => w.ioStep writing p i c s

end World

def next (a : Act) (w : World) : Option (World × List Answer) :=
  match a with
  | .run p =>
    if w.status p = .ready then
      some ({ w with
        cur := p
        runs := Function.update w.runs p (w.runs p + 1#32)
        turns := Function.update w.turns p (w.turns p + 1) }, [])
    else none
  | .call op =>
    match w.pc w.cur with
    | .idle => (w.start w.cur op).map fun w' => (w', [])
    | _ => none
  | .step ok => w.advance w.cur ok

/-- Some processes with no descriptors. -/
def Start (w : World) : Prop :=
  w.fds = RefTable.empty ∧ w.datas = RefTable.empty ∧ (∀ p, w.status p ≠ .embryo) ∧
    (∀ p, w.pc p = .idle) ∧ w.status w.cur = .ready

/-! ## Rows -/

section Rows

variable {w w' : World} {p q c : EnvIdx} {i j : Fd}

@[simp] theorem fd_goto (pc : Pc) : (w.goto p pc).fd q j = w.fd q j := rfl

@[simp] theorem data_goto (pc : Pc) : (w.goto p pc).data q j = w.data q j := rfl

@[simp] theorem fd_setPipe (k : Nat) (r : Pipe) : (w.setPipe k r).fd q j = w.fd q j := rfl

@[simp] theorem data_setPipe (k : Nat) (r : Pipe) : (w.setPipe k r).data q j = w.data q j := rfl

@[simp] theorem fd_setData (k : Option Nat) : (w.setData p i k).fd q j = w.fd q j := rfl

@[simp] theorem data_setFd (x : Option (End × Nat)) : (w.setFd p i x).data q j = w.data q j := rfl

theorem fd_setFd (x : Option (End × Nat)) :
    (w.setFd p i x).fd q j = if q = p ∧ j = i then x else w.fd q j := by
  simp only [World.fd, World.setFd, RefTable.set, Function.update_apply, Prod.mk.injEq]

theorem data_setData (k : Option Nat) :
    (w.setData p i k).data q j = if q = p ∧ j = i then k else w.data q j := by
  simp only [World.data, World.setData, RefTable.set, Function.update_apply, Prod.mk.injEq]

theorem pc_goto (pc : Pc) : (w.goto p pc).pc q = if q = p then pc else w.pc q := by
  simp only [World.goto, Function.update_apply]

/-- `p` acts, and apart from its own things it changes at most the row and the
status of `c`.  A pipe that appears somewhere is one that `p` had or a new one. -/
structure Local (w w' : World) (p c : EnvIdx) : Prop where
  cur : w'.cur = w.cur
  row : ∀ q, q ≠ p → q ≠ c → ∀ i, w'.fd q i = w.fd q i ∧ w'.data q i = w.data q i
  ids : ∀ q i e k, w'.fd q i = some (e, k) →
    w.fd q i = some (e, k) ∨ (∃ j e', w.fd p j = some (e', k)) ∨ k = w.fresh ∧ w.fresh < w'.fresh
  pc : ∀ q, q ≠ p → q ≠ c → w'.pc q = w.pc q
  clock : ∀ q, q ≠ p → q ≠ c → w'.runs q = w.runs q ∧ w'.turns q = w.turns q
  status : ∀ q, q ≠ c → w'.status q = w.status q
  fresh : w.fresh ≤ w'.fresh

theorem Local.refl (w : World) (p c : EnvIdx) : Local w w p c :=
  ⟨rfl, fun _ _ _ _ => ⟨rfl, rfl⟩, fun _ _ _ _ h => .inl h, fun _ _ _ => rfl,
    fun _ _ _ => ⟨rfl, rfl⟩, fun _ _ => rfl, le_rfl⟩

theorem Local.goto (h : Local w w' p c) (pc : Pc) : Local w (w'.goto p pc) p c where
  cur := h.cur
  row := h.row
  ids := h.ids
  pc := fun q hq hc => by rw [pc_goto, if_neg hq, h.pc q hq hc]
  clock := h.clock
  status := h.status
  fresh := h.fresh

theorem Local.setPipe (h : Local w w' p c) (k : Nat) (r : Pipe) : Local w (w'.setPipe k r) p c :=
  ⟨h.cur, h.row, h.ids, h.pc, h.clock, h.status, h.fresh⟩

theorem Local.setFd (hq : q = p ∨ q = c) {x : Option (End × Nat)}
    (hx : ∀ e k, x = some (e, k) → ∃ j e', w.fd p j = some (e', k)) :
    Local w (w.setFd q i x) p c where
  cur := rfl
  row := by
    intro r hr hc j
    refine ⟨?_, rfl⟩
    rw [fd_setFd, if_neg]
    rintro ⟨h, -⟩
    rcases hq with rfl | rfl
    · exact hr h
    · exact hc h
  ids := by
    intro r j e k h
    rw [fd_setFd] at h
    split at h
    · exact .inr (.inl (hx e k h))
    · exact .inl h
  pc := fun _ _ _ => rfl
  clock := fun _ _ _ => ⟨rfl, rfl⟩
  status := fun _ _ => rfl
  fresh := le_rfl

theorem Local.setData (hq : q = p ∨ q = c) (k : Option Nat) : Local w (w.setData q i k) p c where
  cur := rfl
  row := by
    intro r hr hc j
    refine ⟨rfl, ?_⟩
    rw [data_setData, if_neg]
    rintro ⟨h, -⟩
    rcases hq with rfl | rfl
    · exact hr h
    · exact hc h
  ids := fun _ _ _ _ h => .inl h
  pc := fun _ _ _ => rfl
  clock := fun _ _ _ => ⟨rfl, rfl⟩
  status := fun _ _ => rfl
  fresh := le_rfl

end Rows

/-! ## The invariant -/

/-- A descriptor of `p` has its data page. -/
def Coherent (w : World) (p : EnvIdx) : Prop :=
  ∀ i e k, w.fd p i = some (e, k) → w.data p i = some k

/-- `p` is making pipe `k`, which nobody else has, at the numbers `is`. -/
structure Making (w : World) (p : EnvIdx) (k : Nat) (is : List Fd) : Prop where
  made : k < w.fresh
  own : ∀ q i e, w.fd q i = some (e, k) → q = p ∧ i ∈ is
  only : ∀ i ∈ is, ∀ e k', w.fd p i = some (e, k') → k' = k
  rest : ∀ i e k', w.fd p i = some (e, k') → k' ≠ k → w.data p i = some k'

/-- `p` has copied its descriptors to `child`, except for those in `todo`. -/
structure Copying (w : World) (p child : EnvIdx) (todo : List Slot) : Prop where
  fd : ∀ i, w.fd child i = none ∨ w.fd child i = w.fd p i
  data : ∀ i, w.data child i = none ∨ w.data child i = w.data p i
  done : ∀ i, Slot.data i ∉ todo → w.data child i = w.data p i

/-- `env_runs` has moved by the turns since it was read, and with none the counts
read are those of now. -/
def Checked (w : World) (p : EnvIdx) (i : Fd) : Check → Prop
  | .runs => True
  | .fdRef r => w.runs p = r + BitVec.ofNat 32 (w.turns p)
  | .pipeRef r f => w.runs p = r + BitVec.ofNat 32 (w.turns p) ∧
    (w.cur = p → w.turns p = 0 → f = w.fdRef p i)
  | .test r f d => w.runs p = r + BitVec.ofNat 32 (w.turns p) ∧
    (w.cur = p → w.turns p = 0 → f = w.fdRef p i ∧ d = w.dataRef p i)

/-- What holds of process `p` at each place. -/
def At (w : World) (p : EnvIdx) : Pc → Prop
  | .idle | .pipe0 | .close _ _ | .unmapFd _ _ => Coherent w p
  | .pipe1 i₀ k => Making w p k [i₀] ∧ w.fd p i₀ = some (.read, k)
  | .err1 i₀ k => Making w p k [i₀]
  | .pipe2 i₀ i₁ k | .err3 i₀ i₁ k | .err2 i₀ i₁ k => Making w p k [i₀, i₁]
  | .pipe3 i₀ i₁ k => Making w p k [i₀, i₁] ∧ w.data p i₀ = some k
  | .unmapData i _ | .fdClose i _ | .dupData _ i | .dupErr i | .dupErrData i =>
    Coherent w p ∧ w.fd p i = none
  | .dupFd old new => Coherent w p ∧ w.fd p new = none ∧
    ∀ e k, w.fd p old = some (e, k) → w.data p new = some k
  | .fork child todo => Coherent w p ∧ Copying w p child todo
  | .ask i s => Coherent w p ∧ Checked w p i s
  | .read i _ s => Coherent w p ∧ (∃ k, w.fd p i = some (.read, k)) ∧
    ∀ s', s = some s' → Checked w p i s'
  | .write i _ s => Coherent w p ∧ (∃ k, w.fd p i = some (.write, k)) ∧
    ∀ s', s = some s' → Checked w p i s'

structure Inv (w : World) : Prop where
  cur : w.status w.cur = .ready
  ids : ∀ p i e k, w.fd p i = some (e, k) → k < w.fresh
  free : ∀ p, w.status p = .free → ∀ i, w.fd p i = none ∧ w.data p i = none
  ready : ∀ p, w.status p = .ready → At w p (w.pc p)
  child : ∀ p x todo, w.status p = .ready → w.pc p = .fork x todo → w.status x = .embryo
  unborn : ∀ p, w.status p = .embryo → w.pc p = .idle
  unique : ∀ p q x todo todo', w.status p = .ready → w.status q = .ready →
    w.pc p = .fork x todo → w.pc q = .fork x todo' → p = q

/-! ### What others do -/

section Frame

variable {w w' : World} {p q c : EnvIdx} {i : Fd}

theorem Coherent.of_row (hrow : ∀ i, w'.fd q i = w.fd q i ∧ w'.data q i = w.data q i)
    (h : Coherent w q) : Coherent w' q := by
  intro i e k hfd
  rw [(hrow i).1] at hfd
  rw [(hrow i).2]
  exact h i e k hfd

theorem Making.frame (hl : Local w w' p c) (hq : q ≠ p) (hqc : q ≠ c) {k : Nat} {is : List Fd}
    (h : Making w q k is) : Making w' q k is := by
  have hrow := hl.row q hq hqc
  refine ⟨Nat.lt_of_lt_of_le h.made hl.fresh, ?_, ?_, ?_⟩
  · intro r i e hfd
    -- `p` cannot have brought the pipe in, since it does not have it.
    rcases hl.ids r i e k hfd with hold | ⟨j, e', hp⟩ | ⟨hk, -⟩
    · exact h.own r i e hold
    · exact absurd (h.own p j e' hp).1.symm hq
    · exact absurd h.made (by omega)
  · intro i hi e k' hfd
    rw [(hrow i).1] at hfd
    exact h.only i hi e k' hfd
  · intro i e k' hfd hk
    rw [(hrow i).1] at hfd
    rw [(hrow i).2]
    exact h.rest i e k' hfd hk

theorem Copying.frame {x : EnvIdx} {todo : List Slot}
    (hrow : ∀ i, w'.fd q i = w.fd q i ∧ w'.data q i = w.data q i)
    (hchild : ∀ i, w'.fd x i = w.fd x i ∧ w'.data x i = w.data x i) (h : Copying w q x todo) :
    Copying w' q x todo := by
  refine ⟨fun i => ?_, fun i => ?_, fun i hi => ?_⟩
  · rw [(hchild i).1, (hrow i).1]
    exact h.fd i
  · rw [(hchild i).2, (hrow i).2]
    exact h.data i
  · rw [(hchild i).2, (hrow i).2]
    exact h.done i hi

/-- A check of a process that is not running may have to be made again. -/
theorem Checked.frame (hcur : w'.cur ≠ q) (hruns : w'.runs q = w.runs q)
    (hturns : w'.turns q = w.turns q) {s : Check} (h : Checked w q i s) : Checked w' q i s := by
  cases s with
  | runs => trivial
  | fdRef r =>
    unfold Checked
    rw [hruns, hturns]
    exact h
  | pipeRef r f =>
    unfold Checked
    rw [hruns, hturns]
    exact ⟨h.1, fun hc => absurd hc hcur⟩
  | test r f d =>
    unfold Checked
    rw [hruns, hturns]
    exact ⟨h.1, fun hc => absurd hc hcur⟩

theorem At.frame (hl : Local w w' p c) (hcur : w.cur = p) (hq : q ≠ p) (hqc : q ≠ c) {pc : Pc}
    (hchild : ∀ x todo, pc = .fork x todo → x ≠ p ∧ x ≠ c) (h : At w q pc) : At w' q pc := by
  have hrow := hl.row q hq hqc
  have hcoh : Coherent w q → Coherent w' q := Coherent.of_row hrow
  have hnot : w'.cur ≠ q := by
    rw [hl.cur, hcur]
    exact Ne.symm hq
  obtain ⟨hruns, hturns⟩ := hl.clock q hq hqc
  have hcheck : ∀ {i s}, Checked w q i s → Checked w' q i s := Checked.frame hnot hruns hturns
  have hfd : ∀ i, w'.fd q i = w.fd q i := fun i => (hrow i).1
  have hdata : ∀ i, w'.data q i = w.data q i := fun i => (hrow i).2
  cases pc with
  | idle => exact hcoh h
  | pipe0 => exact hcoh h
  | close i old => exact hcoh h
  | unmapFd i old => exact hcoh h
  | pipe1 i₀ k => exact ⟨h.1.frame hl hq hqc, (hfd i₀).trans h.2⟩
  | err1 i₀ k => exact Making.frame hl hq hqc h
  | pipe2 i₀ i₁ k => exact Making.frame hl hq hqc h
  | err3 i₀ i₁ k => exact Making.frame hl hq hqc h
  | err2 i₀ i₁ k => exact Making.frame hl hq hqc h
  | pipe3 i₀ i₁ k => exact ⟨h.1.frame hl hq hqc, (hdata i₀).trans h.2⟩
  | unmapData i old => exact ⟨hcoh h.1, (hfd i).trans h.2⟩
  | fdClose i old => exact ⟨hcoh h.1, (hfd i).trans h.2⟩
  | dupData old new => exact ⟨hcoh h.1, (hfd new).trans h.2⟩
  | dupErr new => exact ⟨hcoh h.1, (hfd new).trans h.2⟩
  | dupErrData new => exact ⟨hcoh h.1, (hfd new).trans h.2⟩
  | dupFd old new =>
    refine ⟨hcoh h.1, (hfd new).trans h.2.1, fun e k hk => ?_⟩
    rw [hfd] at hk
    rw [hdata]
    exact h.2.2 e k hk
  | fork x todo =>
    obtain ⟨hxp, hxc⟩ := hchild x todo rfl
    exact ⟨hcoh h.1, h.2.frame hrow (hl.row x hxp hxc)⟩
  | ask i s => exact ⟨hcoh h.1, hcheck h.2⟩
  | read i call s =>
    obtain ⟨h₁, ⟨k, hk⟩, h₂⟩ := h
    exact ⟨hcoh h₁, ⟨k, (hfd i).trans hk⟩, fun s' hs => hcheck (h₂ s' hs)⟩
  | write i call s =>
    obtain ⟨h₁, ⟨k, hk⟩, h₂⟩ := h
    exact ⟨hcoh h₁, ⟨k, (hfd i).trans hk⟩, fun s' hs => hcheck (h₂ s' hs)⟩

/-- The children of other processes are neither `p` nor the child of `p`. -/
theorem Inv.child_ne (h : Inv w) (hp : w.status p = .ready) {x : EnvIdx} {todo : List Slot}
    (hq : w.status q = .ready) (hpc : w.pc q = .fork x todo) : x ≠ p := by
  intro hx
  have hx' := h.child q x todo hq hpc
  rw [hx, hp] at hx'
  cases hx'

/-- What is to be shown of the other process that a statement changes. -/
structure Touched (w w' : World) (c : EnvIdx) : Prop where
  alive : w'.status c ≠ .free
  ready : w'.status c = .ready → At w' c (w'.pc c)
  idle : w'.pc c = .idle
  notOther : ∀ q x todo, q ≠ w.cur → w.status q = .ready → w.pc q = .fork x todo → x ≠ c

/-- Forks of other processes than the one that runs were there before. -/
theorem Local.fork_old (hl : Local w w' w.cur c) (hc : c ≠ w.cur → Touched w w' c) {x : EnvIdx}
    {todo : List Slot} (hq : q ≠ w.cur) (hs : w'.status q = .ready) (hpc : w'.pc q = .fork x todo) :
    q ≠ c ∧ w.status q = .ready ∧ w.pc q = .fork x todo := by
  have hqc : q ≠ c := by
    rintro rfl
    rw [(hc hq).idle] at hpc
    cases hpc
  exact ⟨hqc, (hl.status q hqc).symm.trans hs, (hl.pc q hq hqc).symm.trans hpc⟩

/-- A process that forks does not fork the one that is touched. -/
theorem Inv.fork_apart (h : Inv w) (hc : c ≠ w.cur → Touched w w' c) {x : EnvIdx} {todo : List Slot}
    (hq : q ≠ w.cur) (hs : w.status q = .ready) (hpc : w.pc q = .fork x todo) : x ≠ c := by
  by_cases hcc : c = w.cur
  · rw [hcc]
    exact h.child_ne h.cur hs hpc
  · exact (hc hcc).notOther q x todo hq hs hpc

/-- No two processes fork the same child. -/
theorem Inv.fork_unique (h : Inv w) (hl : Local w w' w.cur c) (hc : c ≠ w.cur → Touched w w' c)
    (hfork : ∀ x todo, w'.pc w.cur = .fork x todo → x = c ∧ c ≠ w.cur ∧ w'.status c = .embryo)
    {x : EnvIdx} {todo todo' : List Slot} (hp : w'.status p = .ready) (hq : w'.status q = .ready)
    (hpx : w'.pc p = .fork x todo) (hqx : w'.pc q = .fork x todo') : p = q := by
  -- The child of the process that runs is nobody else's.
  have hone : ∀ r t t', r ≠ w.cur → w'.status r = .ready → w'.pc r = .fork x t →
      w'.pc w.cur = .fork x t' → False := by
    intro r t t' hr hs hrx hcx
    obtain ⟨hxc, hcc, -⟩ := hfork x t' hcx
    obtain ⟨-, hs', hrx'⟩ := hl.fork_old hc hr hs hrx
    exact (hc hcc).notOther r x t hr hs' hrx' hxc
  by_cases hcp : p = w.cur
  · by_cases hcq : q = w.cur
    · rw [hcp, hcq]
    · rw [hcp] at hpx
      exact (hone q todo' todo hcq hq hqx hpx).elim
  · by_cases hcq : q = w.cur
    · rw [hcq] at hqx
      exact (hone p todo todo' hcp hp hpx hqx).elim
    · obtain ⟨-, hp', hpx'⟩ := hl.fork_old hc hcp hp hpx
      obtain ⟨-, hq', hqx'⟩ := hl.fork_old hc hcq hq hqx
      exact h.unique p q x todo todo' hp' hq' hpx' hqx'

theorem Inv.local (h : Inv w) (hl : Local w w' w.cur c) (hst : w'.status w.cur = .ready)
    (hc : c ≠ w.cur → Touched w w' c)
    (hfork : ∀ x todo, w'.pc w.cur = .fork x todo → x = c ∧ c ≠ w.cur ∧ w'.status c = .embryo)
    (hat : At w' w.cur (w'.pc w.cur)) : Inv w' := by
  have hready : ∀ q, q ≠ w.cur → q ≠ c → w'.status q = w.status q ∧ w'.pc q = w.pc q :=
    fun q hq hqc => ⟨hl.status q hqc, hl.pc q hq hqc⟩
  have hcur : ∀ q, w'.status q ≠ .ready → q ≠ w.cur := by
    rintro q hq rfl
    exact hq hst
  refine ⟨?_, ?_, ?_, ?_, ?_, ?_, fun p q x todo todo' hp hq hpx hqx => ?_⟩
  · rw [hl.cur]
    exact hst
  · intro p i e k hfd
    rcases hl.ids p i e k hfd with hfd' | ⟨j, e', hp⟩ | ⟨hk, hlt⟩
    · exact Nat.lt_of_lt_of_le (h.ids p i e k hfd') hl.fresh
    · exact Nat.lt_of_lt_of_le (h.ids _ j e' k hp) hl.fresh
    · omega
  · intro p hp i
    have hne : p ≠ w.cur := hcur p (by rw [hp]; simp)
    have hpc : p ≠ c := by
      rintro rfl
      exact (hc hne).alive hp
    rw [(hl.row p hne hpc i).1, (hl.row p hne hpc i).2]
    exact h.free p ((hready p hne hpc).1.symm.trans hp) i
  · intro p hp
    by_cases hne : p = w.cur
    · rw [hne]
      exact hat
    · by_cases hpc : p = c
      · rw [hpc] at hp hne ⊢
        exact (hc hne).ready hp
      · obtain ⟨hs, hpc'⟩ := hready p hne hpc
        rw [hpc']
        have hp' := hs.symm.trans hp
        exact (h.ready p hp').frame hl rfl hne hpc fun x todo hx =>
          ⟨h.child_ne h.cur hp' hx, h.fork_apart hc hne hp' hx⟩
  · intro p x todo hp hx
    by_cases hne : p = w.cur
    · rw [hne] at hx
      obtain ⟨rfl, -, hemb⟩ := hfork x todo hx
      exact hemb
    · obtain ⟨hpc, hp', hx'⟩ := hl.fork_old hc hne hp hx
      rw [hl.status x (h.fork_apart hc hne hp' hx')]
      exact h.child p x todo hp' hx'
  · intro p hp
    have hne : p ≠ w.cur := hcur p (by rw [hp]; simp)
    by_cases hpc : p = c
    · rw [hpc] at hne ⊢
      exact (hc hne).idle
    · obtain ⟨hs, hpc'⟩ := hready p hne hpc
      rw [hpc']
      exact h.unborn p (hs.symm.trans hp)
  · exact h.fork_unique hl hc hfork hp hq hpx hqx

/-- A statement that changes nothing of other processes. -/
theorem Inv.alone (h : Inv w) (hl : Local w w' w.cur w.cur)
    (hst : w'.status w.cur = w.status w.cur) (hfork : ∀ x todo, w'.pc w.cur ≠ .fork x todo)
    (hat : At w' w.cur (w'.pc w.cur)) : Inv w' :=
  h.local hl (hst.trans h.cur) (fun hc => absurd rfl hc)
    (fun x todo hx => absurd hx (hfork x todo)) hat

end Frame

/-! ### Making a pipe -/

section Pipe

variable {w w' : World} {p q : EnvIdx} {i₀ i₁ : Fd} {k : Nat}

/-- What holds at a place depends on the mappings, and on the clocks where a check
is under way. -/
theorem At.of_maps (hf : w'.fds = w.fds) (hd : w'.datas = w.datas) (hfresh : w'.fresh = w.fresh)
    (hcheck : ∀ i s, Checked w q i s → Checked w' q i s) {pc : Pc} (h : At w q pc) :
    At w' q pc := by
  have hfd : ∀ r i, w'.fd r i = w.fd r i := by
    intro r i
    rw [World.fd, hf, ← World.fd]
  have hdata : ∀ r i, w'.data r i = w.data r i := by
    intro r i
    rw [World.data, hd, ← World.data]
  have hrow : ∀ r i, w'.fd r i = w.fd r i ∧ w'.data r i = w.data r i :=
    fun r i => ⟨hfd r i, hdata r i⟩
  have hcoh : Coherent w q → Coherent w' q := Coherent.of_row (hrow q)
  have hmake : ∀ {k l}, Making w q k l → Making w' q k l := by
    intro k l hm
    refine ⟨hfresh ▸ hm.made, ?_, ?_, ?_⟩
    · intro r i e h'
      exact hm.own r i e ((hfd r i).symm.trans h')
    · intro i hi e k' h'
      exact hm.only i hi e k' ((hfd q i).symm.trans h')
    · intro i e k' h' hk
      rw [hdata]
      exact hm.rest i e k' ((hfd q i).symm.trans h') hk
  cases pc with
  | idle => exact hcoh h
  | pipe0 => exact hcoh h
  | close i old => exact hcoh h
  | unmapFd i old => exact hcoh h
  | pipe1 i₀ k => exact ⟨hmake h.1, (hfd q i₀).trans h.2⟩
  | pipe2 i₀ i₁ k => exact hmake h
  | pipe3 i₀ i₁ k => exact ⟨hmake h.1, (hdata q i₀).trans h.2⟩
  | err3 i₀ i₁ k => exact hmake h
  | err2 i₀ i₁ k => exact hmake h
  | err1 i₀ k => exact hmake h
  | unmapData i old => exact ⟨hcoh h.1, (hfd q i).trans h.2⟩
  | fdClose i old => exact ⟨hcoh h.1, (hfd q i).trans h.2⟩
  | dupData old new => exact ⟨hcoh h.1, (hfd q new).trans h.2⟩
  | dupErr new => exact ⟨hcoh h.1, (hfd q new).trans h.2⟩
  | dupErrData new => exact ⟨hcoh h.1, (hfd q new).trans h.2⟩
  | dupFd old new =>
    refine ⟨hcoh h.1, (hfd q new).trans h.2.1, fun e k hk => ?_⟩
    rw [hdata]
    exact h.2.2 e k ((hfd q old).symm.trans hk)
  | fork x todo => exact ⟨hcoh h.1, h.2.frame (hrow q) (hrow x)⟩
  | ask i s => exact ⟨hcoh h.1, hcheck i s h.2⟩
  | read i c s =>
    obtain ⟨h₁, ⟨k, hk⟩, h₂⟩ := h
    exact ⟨hcoh h₁, ⟨k, (hfd q i).trans hk⟩, fun s' hs => hcheck i s' (h₂ s' hs)⟩
  | write i c s =>
    obtain ⟨h₁, ⟨k, hk⟩, h₂⟩ := h
    exact ⟨hcoh h₁, ⟨k, (hfd q i).trans hk⟩, fun s' hs => hcheck i s' (h₂ s' hs)⟩

theorem At.goto {pc pc' : Pc} (h : At w q pc) : At (w.goto p pc') q pc := by
  have hcheck : ∀ i s, Checked w q i s → Checked (w.goto p pc') q i s := by
    intro i s hs
    cases s <;> exact hs
  refine At.of_maps ?_ ?_ ?_ hcheck h <;> rfl

theorem Inv.goto (h : Inv w) (hl : Local w w' w.cur w.cur) (hst : w'.status = w.status) {pc : Pc}
    (hfork : ∀ x todo, pc ≠ .fork x todo) (hat : At w' w.cur pc) : Inv (w'.goto w.cur pc) := by
  have hpc : (w'.goto w.cur pc).pc w.cur = pc := by rw [pc_goto, if_pos rfl]
  refine h.alone (hl.goto pc) (congrFun hst _) ?_ ?_
  · rw [hpc]
    exact hfork
  · rw [hpc]
    exact hat.goto

theorem Making.first (hids : ∀ p i e k, w.fd p i = some (e, k) → k < w.fresh) (h : Coherent w p) :
    Making ({ w with fresh := w.fresh + 1 }.setFd p i₀ (some (.read, w.fresh))) p w.fresh [i₀] := by
  refine ⟨Nat.lt_succ_self _, ?_, ?_, ?_⟩
  · intro q i e hfd
    rw [fd_setFd] at hfd
    split at hfd
    · rename_i hqi
      exact ⟨hqi.1, List.mem_singleton.mpr hqi.2⟩
    · exact absurd (hids q i e _ hfd) (Nat.lt_irrefl _)
  · intro i hi e k' hfd
    rw [fd_setFd, if_pos ⟨rfl, List.mem_singleton.mp hi⟩] at hfd
    cases hfd
    rfl
  · intro i e k' hfd hk
    rw [fd_setFd] at hfd
    split at hfd
    · cases hfd
      exact absurd rfl hk
    · exact h i e k' hfd

theorem Local.newPipe (w : World) (p : EnvIdx) (i₀ : Fd) :
    Local w ({ w with fresh := w.fresh + 1 }.setFd p i₀ (some (.read, w.fresh))) p p where
  cur := rfl
  row := by
    intro q hq _ j
    refine ⟨?_, rfl⟩
    rw [fd_setFd, if_neg fun h => hq h.1]
    rfl
  ids := by
    intro q j e k hfd
    rw [fd_setFd] at hfd
    split at hfd
    · cases hfd
      exact .inr (.inr ⟨rfl, Nat.lt_succ_self _⟩)
    · exact .inl hfd
  pc := fun _ _ _ => rfl
  clock := fun _ _ _ => ⟨rfl, rfl⟩
  status := fun _ _ => rfl
  fresh := Nat.le_succ _

theorem Making.second (h : Making w p k [i₀]) :
    Making (w.setFd p i₁ (some (.write, k))) p k [i₀, i₁] := by
  refine ⟨h.made, ?_, ?_, ?_⟩
  · intro q i e hfd
    rw [fd_setFd] at hfd
    split at hfd
    · rename_i hqi
      exact ⟨hqi.1, by simp [hqi.2]⟩
    · obtain ⟨hq, hi⟩ := h.own q i e hfd
      exact ⟨hq, by simp [List.mem_singleton.mp hi]⟩
  · intro i hi e k' hfd
    rw [fd_setFd] at hfd
    split at hfd
    · cases hfd
      rfl
    · rename_i hne
      have hi₀ : i ∈ [i₀] := by
        have := fun h => hne ⟨rfl, h⟩
        simp_all
      exact h.only i hi₀ e k' hfd
  · intro i e k' hfd hk
    rw [fd_setFd] at hfd
    split at hfd
    · cases hfd
      exact absurd rfl hk
    · exact h.rest i e k' hfd hk

/-- The data page at a number of the new pipe may change. -/
theorem Making.setData {l : List Fd} {i : Fd} (h : Making w p k l) (hi : i ∈ l)
    (d : Option Nat) : Making (w.setData p i d) p k l := by
  refine ⟨h.made, h.own, h.only, ?_⟩
  intro j e k' hfd hk
  rw [data_setData, if_neg]
  · exact h.rest j e k' hfd hk
  · rintro ⟨-, rfl⟩
    exact hk (h.only j hi e k' hfd)

/-- Both numbers of the new pipe have its data page. -/
theorem Making.finish (h : Making w p k [i₀, i₁]) (hd : w.data p i₀ = some k) :
    Coherent (w.setData p i₁ (some k)) p := by
  intro i e k' hfd
  rw [data_setData]
  by_cases hk : k' = k
  · rw [hk] at hfd ⊢
    split
    · rfl
    · rename_i hne
      have hi := (h.own p i e hfd).2
      have hi₀ : i = i₀ := by
        have := fun h => hne ⟨rfl, h⟩
        simp_all
      rw [hi₀, hd]
  · rw [if_neg]
    · exact h.rest i e k' hfd hk
    · rintro ⟨-, rfl⟩
      exact hk (h.only i (by simp) e k' hfd)

/-- A number of the new pipe is given up. -/
theorem Making.unmap {l : List Fd} {i : Fd} (h : Making w p k (l ++ [i])) :
    Making (w.setFd p i none) p k l := by
  have hold : ∀ {q j x}, (w.setFd p i none).fd q j = some x → w.fd q j = some x := by
    intro q j x hfd
    rw [fd_setFd] at hfd
    split at hfd
    · cases hfd
    · exact hfd
  refine ⟨h.made, ?_, ?_, fun j e k' hfd hk => h.rest j e k' (hold hfd) hk⟩
  · intro q j e hfd
    obtain ⟨hq, hj⟩ := h.own q j e (hold hfd)
    refine ⟨hq, ?_⟩
    rcases List.mem_append.mp hj with hj | hj
    · exact hj
    · rw [fd_setFd, if_pos ⟨hq, List.mem_singleton.mp hj⟩] at hfd
      cases hfd
  · intro j hj e k' hfd
    exact h.only j (List.mem_append_left _ hj) e k' (hold hfd)

theorem Making.coherent (h : Making w p k []) : Coherent w p := by
  intro i e k' hfd
  by_cases hk : k' = k
  · rw [hk] at hfd
    exact absurd (h.own p i e hfd).2 (by simp)
  · exact h.rest i e k' hfd hk

/-- A statement of `pipe`. -/
theorem Inv.pipeStep (h : Inv w) (ok : Bool) {pc : Pc} (hat : At w w.cur pc) :
    Inv (w.pipeStep w.cur ok pc) := by
  have hstay := Local.refl w w.cur w.cur
  cases pc with
  | pipe0 =>
    simp only [World.pipeStep]
    split
    · refine h.goto (Local.newPipe w w.cur _) rfl (by simp) ⟨Making.first h.ids hat, ?_⟩
      rw [fd_setFd, if_pos ⟨rfl, rfl⟩]
    · exact h.goto hstay rfl (by simp) hat
  | pipe1 i₀ k =>
    simp only [World.pipeStep]
    split
    · refine h.goto (Local.setFd (.inl rfl) ?_) rfl (by simp) hat.1.second
      intro e k' hx
      cases hx
      exact ⟨i₀, .read, hat.2⟩
    · exact h.goto hstay rfl (by simp) hat.1
  | pipe2 i₀ i₁ k =>
    simp only [World.pipeStep]
    split
    · refine h.goto ((Local.setData (.inl rfl) _).setPipe _ _) rfl (by simp) ⟨?_, ?_⟩
      · have hm := Making.setData hat (List.mem_cons_self ..) (some k)
        exact ⟨hm.made, hm.own, hm.only, hm.rest⟩
      · rw [data_setPipe, data_setData, if_pos ⟨rfl, rfl⟩]
    · exact h.goto hstay rfl (by simp) hat
  | pipe3 i₀ i₁ k =>
    simp only [World.pipeStep, hat.2]
    split
    · rename_i hd
      cases hd
      exact h.goto (Local.setData (.inl rfl) _) rfl (by simp) (hat.1.finish hat.2)
    · exact h.goto hstay rfl (by simp) hat.1
  | err3 i₀ i₁ k =>
    exact h.goto (Local.setData (.inl rfl) _) rfl (by simp)
      (Making.setData hat (List.mem_cons_self ..) none)
  | err2 i₀ i₁ k =>
    exact h.goto (Local.setFd (.inl rfl) (by simp)) rfl (by simp) (Making.unmap (l := [i₀]) hat)
  | err1 i₀ k =>
    exact h.goto (Local.setFd (.inl rfl) (by simp)) rfl (by simp)
      (Making.unmap (l := []) hat).coherent
  | _ => exact h

end Pipe

/-! ### Closing and duplicating -/

section Close

variable {w w' : World} {p q : EnvIdx} {i : Fd}

theorem Coherent.unmapFd (h : Coherent w p) (i : Fd) :
    Coherent (w.setFd p i none) p ∧ (w.setFd p i none).fd p i = none := by
  refine ⟨fun j e k hfd => ?_, by rw [fd_setFd, if_pos ⟨rfl, rfl⟩]⟩
  rw [fd_setFd] at hfd
  split at hfd
  · cases hfd
  · exact h j e k hfd

/-- The data page of a number without a descriptor may change. -/
theorem Coherent.setData (h : Coherent w p) (hi : w.fd p i = none) (d : Option Nat) :
    Coherent (w.setData p i d) p ∧ (w.setData p i d).fd p i = none := by
  refine ⟨fun j e k hfd => ?_, hi⟩
  rw [fd_setData] at hfd
  rw [data_setData, if_neg]
  · exact h j e k hfd
  · rintro ⟨-, rfl⟩
    rw [hi] at hfd
    cases hfd

/-- `close` goes on with the rest of `dup`, if there is one. -/
theorem Inv.closed (h : Inv w) (hl : Local w w' w.cur w.cur) (hst : w'.status = w.status)
    (hc : Coherent w' w.cur) (hi : w'.fd w.cur i = none) (old : Option Fd) :
    Inv (w'.closed w.cur i old) := by
  cases old with
  | none => exact h.goto hl hst (by simp) hc
  | some old => exact h.goto hl hst (by simp) ⟨hc, hi⟩

theorem Inv.closeStep (h : Inv w) {pc : Pc} (hat : At w w.cur pc) :
    Inv (w.closeStep w.cur pc) := by
  have hstay := Local.refl w w.cur w.cur
  cases pc with
  | close i old =>
    simp only [World.closeStep]
    split
    · rename_i hi
      exact h.closed hstay rfl hat hi old
    · exact h.goto hstay rfl (by simp) hat
  | unmapFd i old =>
    exact h.goto (Local.setFd (.inl rfl) (by simp)) rfl (by simp) (Coherent.unmapFd hat i)
  | unmapData i old =>
    exact h.goto (Local.setData (.inl rfl) _) rfl (by simp) (hat.1.setData hat.2 none)
  | fdClose i old =>
    obtain ⟨hc, hi⟩ := hat.1.unmapFd i
    exact h.closed (Local.setFd (.inl rfl) (by simp)) rfl hc hi old
  | _ => exact h

/-- The new descriptor is mapped after its data page. -/
theorem Coherent.dup {old new : Fd} (h : Coherent w p) {x : End × Nat}
    (hold : w.fd p old = some x)
    (hd : ∀ e k, w.fd p old = some (e, k) → w.data p new = some k) :
    Coherent (w.setFd p new (some x)) p := by
  intro j e k hfd
  rw [fd_setFd] at hfd
  rw [data_setFd]
  split at hfd
  · rename_i hj
    rw [hj.2]
    exact hd e k (hold.trans hfd)
  · exact h j e k hfd

theorem Inv.dupStep (h : Inv w) (ok : Bool) {pc : Pc} (hat : At w w.cur pc) :
    Inv (w.dupStep w.cur ok pc) := by
  have hstay := Local.refl w w.cur w.cur
  cases pc with
  | dupData old new =>
    obtain ⟨hc, hnew⟩ := hat
    simp only [World.dupStep]
    split
    · rename_i hd
      refine h.goto hstay rfl (by simp) ⟨hc, hnew, fun e k hk => ?_⟩
      rw [hc old e k hk] at hd
      cases hd
    · rename_i k hd
      obtain ⟨hc', hnew'⟩ := hc.setData hnew (some k)
      refine h.goto (Local.setData (.inl rfl) _) rfl (by simp) ⟨hc', hnew', fun e k' hk => ?_⟩
      rw [fd_setData] at hk
      rw [hc old e k' hk] at hd
      rw [data_setData, if_pos ⟨rfl, rfl⟩, hd]
    · exact h.goto hstay rfl (by simp) ⟨hc, hnew⟩
  | dupFd old new =>
    obtain ⟨hc, hnew, hd⟩ := hat
    simp only [World.dupStep]
    split
    · rename_i x hx
      refine h.goto (Local.setFd (.inl rfl) ?_) rfl (by simp) (hc.dup hx hd)
      rintro e k ⟨⟩
      exact ⟨old, e, hx⟩
    · exact h.goto hstay rfl (by simp) ⟨hc, hnew⟩
  | dupErr new =>
    exact h.goto (Local.setFd (.inl rfl) (by simp)) rfl (by simp) (hat.1.unmapFd new)
  | dupErrData new =>
    exact h.goto (Local.setData (.inl rfl) _) rfl (by simp) (hat.1.setData hat.2 none).1
  | _ => exact h

end Close

/-! ### Forking -/

section Fork

variable {w w' : World} {p c : EnvIdx}

/-- The call for a data page succeeds. -/
def Copies (w : World) (p : EnvIdx) (ok : Bool) : Slot → Prop
  | .fd _ => True
  | .data i => w.data p i ≠ none → ok = true

theorem Local.dupPage (w : World) (p c : EnvIdx) (ok : Bool) (s : Slot) :
    Local w (w.dupPage p c ok s) p c := by
  cases s with
  | fd i =>
    simp only [World.dupPage]
    split
    · exact Local.refl w p c
    · rename_i x hx
      split
      · refine Local.setFd (.inr rfl) ?_
        rintro e k ⟨⟩
        exact ⟨i, e, hx⟩
      · exact Local.refl w p c
  | data i =>
    simp only [World.dupPage]
    split
    · exact Local.refl w p c
    · split
      · exact Local.setData (.inr rfl) _
      · exact Local.refl w p c

theorem dupPage_same (w : World) (p c : EnvIdx) (ok : Bool) (s : Slot) :
    (w.dupPage p c ok s).status = w.status ∧ (w.dupPage p c ok s).pc = w.pc := by
  cases s with
  | fd i =>
    simp only [World.dupPage]
    split
    · exact ⟨rfl, rfl⟩
    · split <;> exact ⟨rfl, rfl⟩
  | data i =>
    simp only [World.dupPage]
    split
    · exact ⟨rfl, rfl⟩
    · split <;> exact ⟨rfl, rfl⟩

theorem fd_dupPage (hne : c ≠ p) (ok : Bool) (s : Slot) (i : Fd) :
    (w.dupPage p c ok s).fd p i = w.fd p i ∧ (w.dupPage p c ok s).data p i = w.data p i := by
  cases s with
  | fd j =>
    simp only [World.dupPage]
    split
    · exact ⟨rfl, rfl⟩
    · split
      · exact ⟨by rw [fd_setFd, if_neg fun h => hne h.1.symm], rfl⟩
      · exact ⟨rfl, rfl⟩
  | data j =>
    simp only [World.dupPage]
    split
    · exact ⟨rfl, rfl⟩
    · split
      · exact ⟨rfl, by rw [data_setData, if_neg fun h => hne h.1.symm]⟩
      · exact ⟨rfl, rfl⟩

theorem Copying.dupPage (hne : c ≠ p) {ok : Bool} {s : Slot} {todo : List Slot}
    (h : Copying w p c (s :: todo)) (hok : Copies w p ok s) :
    Copying (w.dupPage p c ok s) p c todo := by
  cases s with
  | fd j =>
    have hdone : ∀ i, Slot.data i ∉ todo → w.data c i = w.data p i := by
      intro i hi
      exact h.done i (by simp [hi])
    simp only [World.dupPage]
    split
    · exact ⟨h.fd, h.data, hdone⟩
    · rename_i x hx
      split
      · refine ⟨fun i => ?_, h.data, hdone⟩
        rw [fd_setFd, fd_setFd, if_neg (fun h' : p = c ∧ i = j => hne h'.1.symm)]
        split
        · rename_i hi
          rw [hi.2, hx]
          exact .inr rfl
        · exact h.fd i
      · exact ⟨h.fd, h.data, hdone⟩
  | data j =>
    have hdone : ∀ i, Slot.data i ∉ todo → i ≠ j → w.data c i = w.data p i := by
      intro i hi hij
      exact h.done i (by simp [hi, hij])
    simp only [World.dupPage]
    split
    · rename_i hj
      refine ⟨h.fd, h.data, fun i hi => ?_⟩
      by_cases hij : i = j
      · rcases h.data i with hn | he
        · rw [hij] at hn ⊢
          rw [hn, hj]
        · exact he
      · exact hdone i hi hij
    · rename_i k hk
      have hok' : ok = true := hok (by rw [hk]; simp)
      have hset : ∀ i, (w.setData c j (some k)).data c i =
          if i = j then some k else w.data c i := by
        intro i
        rw [data_setData]
        simp
      have hown : ∀ i, (w.setData c j (some k)).data p i = w.data p i := by
        intro i
        rw [data_setData, if_neg (fun h' : p = c ∧ i = j => hne h'.1.symm)]
      rw [if_pos hok']
      refine ⟨h.fd, fun i => ?_, fun i hi => ?_⟩
      · rw [hset, hown]
        split
        · rename_i hij
          rw [hij, hk]
          exact .inr rfl
        · exact h.data i
      · rw [hset, hown]
        split
        · rename_i hij
          rw [hij, hk]
        · rename_i hij
          exact hdone i hi hij

theorem Copying.coherent (h : Copying w p c []) (hp : Coherent w p) : Coherent w c := by
  intro i e k hfd
  rcases h.fd i with hn | he
  · rw [hn] at hfd
    cases hfd
  · rw [he] at hfd
    rw [h.done i (by simp)]
    exact hp i e k hfd

/-- The child of the process that runs is nobody else's. -/
theorem Inv.notOther (h : Inv w) {todo : List Slot} (hpc : w.pc w.cur = .fork c todo) :
    ∀ q x todo', q ≠ w.cur → w.status q = .ready → w.pc q = .fork x todo' → x ≠ c := by
  intro q x todo' hq hs hx hxc
  rw [hxc] at hx
  exact hq (h.unique q w.cur c todo' todo hs h.cur hx hpc)

theorem Inv.forkStep (h : Inv w) {ok : Bool} {todo : List Slot}
    (hpc : w.pc w.cur = .fork c todo)
    (hok : ∀ s rest, todo = s :: rest → Copies w w.cur ok s) :
    Inv (w.forkStep w.cur ok c todo) := by
  have hchild := h.child w.cur c todo h.cur hpc
  have hne : c ≠ w.cur := h.child_ne h.cur h.cur hpc
  have hidle := h.unborn c hchild
  have hat := h.ready w.cur h.cur
  rw [hpc] at hat
  obtain ⟨hcoh, hcopy⟩ := hat
  cases todo with
  | nil =>
    simp only [World.forkStep]
    have hl : Local w { w with status := Function.update w.status c .ready } w.cur c :=
      ⟨rfl, fun _ _ _ _ => ⟨rfl, rfl⟩, fun _ _ _ _ h => .inl h, fun _ _ _ => rfl,
        fun _ _ _ => ⟨rfl, rfl⟩, fun q hq => Function.update_of_ne hq _ _, le_rfl⟩
    have hcpc : (World.goto { w with status := Function.update w.status c .ready } w.cur .idle).pc c =
        .idle := by
      rw [pc_goto, if_neg hne]
      exact hidle
    refine h.local (hl.goto .idle) ?_ (fun _ => ⟨?_, ?_, hcpc, h.notOther hpc⟩) ?_ ?_
    · exact (Function.update_of_ne hne.symm _ _).trans h.cur
    · simp [World.goto]
    · intro _
      rw [hcpc]
      exact hcopy.coherent hcoh
    · intro x todo hx
      rw [pc_goto, if_pos rfl] at hx
      cases hx
    · rw [pc_goto, if_pos rfl]
      exact hcoh
  | cons s todo =>
    simp only [World.forkStep]
    obtain ⟨hst, hpcs⟩ := dupPage_same w w.cur c ok s
    have hcpc : ((w.dupPage w.cur c ok s).goto w.cur (.fork c todo)).pc c = .idle := by
      rw [pc_goto, if_neg hne, hpcs]
      exact hidle
    have hstc : ((w.dupPage w.cur c ok s).goto w.cur (.fork c todo)).status c = .embryo :=
      (congrFun hst c).trans hchild
    refine h.local ((Local.dupPage w w.cur c ok s).goto _) ?_
      (fun _ => ⟨?_, ?_, hcpc, h.notOther hpc⟩) ?_ ?_
    · exact (congrFun hst _).trans h.cur
    · rw [hstc]
      simp
    · intro hr
      rw [hstc] at hr
      cases hr
    · intro x todo' hx
      rw [pc_goto, if_pos rfl] at hx
      cases hx
      exact ⟨rfl, hne, hstc⟩
    · rw [pc_goto, if_pos rfl]
      have hnew : At (w.dupPage w.cur c ok s) w.cur (.fork c todo) :=
        ⟨hcoh.of_row fun i => fd_dupPage hne ok s i, hcopy.dupPage hne (hok s todo rfl)⟩
      exact hnew.goto

theorem mem_forkOrder (i : Fd) : Slot.data i ∈ forkOrder := by
  simp [forkOrder]

/-- `exofork`: the child has no descriptors yet. -/
theorem Inv.startFork (h : Inv w) (hat : Coherent w w.cur) (hfree : w.status c = .free)
    (hne : c ≠ w.cur) :
    Inv (World.goto { w with
      status := Function.update w.status c .embryo
      pc := Function.update w.pc c .idle
      runs := Function.update w.runs c 0#32 } w.cur (.fork c forkOrder)) := by
  generalize hw : ({ w with
      status := Function.update w.status c .embryo
      pc := Function.update w.pc c .idle
      runs := Function.update w.runs c 0#32 } : World) = w₁
  have hl : Local w w₁ w.cur c := by
    rw [← hw]
    exact ⟨rfl, fun _ _ _ _ => ⟨rfl, rfl⟩, fun _ _ _ _ h => .inl h,
      fun q _ hq => Function.update_of_ne hq _ _,
      fun q _ hq => ⟨Function.update_of_ne hq _ _, rfl⟩,
      fun q hq => Function.update_of_ne hq _ _, le_rfl⟩
  have hstc : w₁.status c = .embryo := by
    rw [← hw]
    exact Function.update_self ..
  have hcpc : (w₁.goto w.cur (.fork c forkOrder)).pc c = .idle := by
    rw [pc_goto, if_neg hne, ← hw]
    exact Function.update_self ..
  have hrow : ∀ q i, w₁.fd q i = w.fd q i ∧ w₁.data q i = w.data q i := by
    intro q i
    rw [← hw]
    exact ⟨rfl, rfl⟩
  refine h.local (hl.goto _) ?_ (fun _ => ⟨?_, ?_, hcpc, ?_⟩) ?_ ?_
  · exact (hl.status _ hne.symm).trans h.cur
  · show w₁.status c ≠ .free
    rw [hstc]
    simp
  · intro hr
    rw [show (w₁.goto w.cur (.fork c forkOrder)).status c = .embryo from hstc] at hr
    cases hr
  · intro q x todo _ hs hx hxc
    have hx' := h.child q x todo hs hx
    rw [hxc, hfree] at hx'
    cases hx'
  · intro x todo hx
    rw [pc_goto, if_pos rfl] at hx
    cases hx
    exact ⟨rfl, hne, hstc⟩
  · rw [pc_goto, if_pos rfl]
    have hnew : At w₁ w.cur (.fork c forkOrder) := by
      refine ⟨hat.of_row (hrow _), fun i => .inl ?_, fun i => .inl ?_, fun i hi => ?_⟩
      · rw [(hrow c i).1]
        exact (h.free c hfree i).1
      · rw [(hrow c i).2]
        exact (h.free c hfree i).2
      · exact absurd (mem_forkOrder i) hi
    exact hnew.goto

end Fork

/-! ### Looking whether a pipe is closed -/

section Check

variable {w w' : World} {p : EnvIdx} {i : Fd} {k : Nat} {e : End}

theorem Local.look (w : World) (p : EnvIdx) (s : Check) : Local w (w.look p s) p p := by
  unfold World.look
  split
  · exact ⟨rfl, fun _ _ _ _ => ⟨rfl, rfl⟩, fun _ _ _ _ h => .inl h, fun _ _ _ => rfl,
      fun q hq _ => ⟨rfl, Function.update_of_ne hq _ _⟩, fun _ _ => rfl, le_rfl⟩
  · exact Local.refl w p p

theorem look_same (w : World) (p : EnvIdx) (s : Check) :
    (w.look p s).status = w.status ∧ (w.look p s).fds = w.fds ∧ (w.look p s).datas = w.datas := by
  unfold World.look
  split <;> exact ⟨rfl, rfl, rfl⟩

theorem Checked.next {s s' : Check} (h : Checked w p i s) (hs : w.check p i s = .inl s') :
    Checked (w.look p s) p i s' := by
  cases s with
  | runs =>
    cases hs
    simp [Checked, World.look]
  | fdRef r =>
    cases hs
    rw [World.look, if_neg (by simp)]
    exact ⟨h, fun _ _ => rfl⟩
  | pipeRef r f =>
    cases hs
    rw [World.look, if_neg (by simp)]
    exact ⟨h.1, fun hc ht => ⟨h.2 hc ht, rfl⟩⟩
  | test r f d =>
    simp only [World.check] at hs
    split at hs
    · cases hs
      trivial
    · cases hs

/-- The loop ends after a round in which the process was not interrupted, unless
`env_runs` has gone round. -/
theorem Checked.verdict {s : Check} {b : Bool} (h : Checked w w.cur i s)
    (hs : w.check w.cur i s = .inr b) (hturns : w.turns w.cur < 2 ^ 32) :
    b = decide (w.fdRef w.cur i = w.dataRef w.cur i) := by
  cases s with
  | runs => cases hs
  | fdRef r => cases hs
  | pipeRef r f => cases hs
  | test r f d =>
    obtain ⟨hruns, hnow⟩ := h
    simp only [World.check] at hs
    split at hs
    · cases hs
    · rename_i hr
      rw [not_not] at hr
      cases hs
      have hzero : w.turns w.cur = 0 := by
        rw [← hr] at hruns
        have h0 : BitVec.ofNat 32 (w.turns w.cur) = 0#32 := by
          rw [BitVec.self_eq_add_right] at hruns
          exact hruns
        have hnat := congrArg BitVec.toNat h0
        rw [BitVec.toNat_ofNat, Nat.mod_eq_of_lt hturns] at hnat
        exact hnat
      obtain ⟨hf, hd⟩ := hnow rfl hzero
      rw [hf, hd]

/-- A pipe that another process has is not one that `q` is making. -/
theorem At.paired {q : EnvIdx} {pc : Pc} (h : At w q pc) {j : Fd} {e' : End}
    (hp : w.fd p i = some (e, k)) (hne : p ≠ q) (hfd : w.fd q j = some (e', k)) :
    w.data q j = some k := by
  have hmake : ∀ {k' l}, Making w q k' l → w.data q j = some k := by
    intro k' l hm
    refine hm.rest j e' k hfd fun hk => ?_
    rw [hk] at hp
    exact hne (hm.own p i e hp).1
  cases pc with
  | idle => exact h j e' k hfd
  | pipe0 => exact h j e' k hfd
  | close x old => exact h j e' k hfd
  | unmapFd x old => exact h j e' k hfd
  | pipe1 i₀ k' => exact hmake h.1
  | err1 i₀ k' => exact hmake h
  | pipe2 i₀ i₁ k' => exact hmake h
  | err3 i₀ i₁ k' => exact hmake h
  | err2 i₀ i₁ k' => exact hmake h
  | pipe3 i₀ i₁ k' => exact hmake h.1
  | _ => exact h.1 j e' k hfd

/-- No child that `fork` is filling has an `Fd` page of the pipe without the data
page. -/
def NoGap (w : World) (k : Nat) : Prop :=
  ∀ c, w.status c = .embryo → ∀ i e, w.fd c i = some (e, k) → w.data c i = some k

/-- Equal counts mean that nobody has the other end. -/
theorem Inv.closed_right (h : Inv w) (hc : Coherent w w.cur) (hfd : w.fd w.cur i = some (e, k))
    (hgap : NoGap w k) (heq : w.fdRef w.cur i = w.dataRef w.cur i) :
    ∀ q j, w.fd q j ≠ some (e.other, k) := by
  have hpair : ∀ q j e', w.fd q j = some (e', k) → w.data q j = some k := by
    intro q j e' hq
    by_cases hcur : w.cur = q
    · rw [← hcur] at hq ⊢
      exact hc j e' k hq
    · cases hst : w.status q with
      | free =>
        rw [(h.free q hst j).1] at hq
        cases hq
      | embryo => exact hgap q hst j e' hq
      | ready => exact (h.ready q hst).paired hfd hcur hq
  have hdata := hc i e k hfd
  rw [World.fdRef, World.dataRef, hfd, hdata] at heq
  have hcard : Fintype.card (EnvIdx × Fd) < 2 ^ 16 := by
    rw [Fintype.card_prod, Fintype.card_fin, Fintype.card_fin]
    decide
  have htally := congrArg BitVec.toNat heq
  simp only [RefTable.count_toNat _ hcard] at htally
  have hother : (e, k) ≠ (e.other, k) := by
    cases e <;> simp [End.other]
  have hle := tally_add_le hother (m := w.fds.slots) (n := w.datas.slots) (h := k)
    (fun x hx => hpair x.1 x.2 e hx) (fun x hx => hpair x.1 x.2 e.other hx)
  have hzero : tally w.fds.slots (e.other, k) = 0 := by omega
  exact fun q j => tally_eq_zero.mp hzero (q, j)

/-- The result of a check is right. -/
def Answer.Right (w : World) : Answer → Prop
  | .closed e k b => b = true → ∀ p i, w.fd p i ≠ some (e.other, k)
  | .read k n r => r = 0#32 → n ≠ 0#32 → ∀ p i, w.fd p i ≠ some (.write, k)
  | .wrote k n r => r ≠ n → ∀ p i, w.fd p i ≠ some (.read, k)

/-- Where a check ends, `env_runs` has not gone round and no `fork` has left a
gap. -/
def Settled (w : World) (i : Fd) (s : Check) : Prop :=
  ∀ r f d, s = .test r f d →
    w.turns w.cur < 2 ^ 32 ∧ ∀ e k, w.fd w.cur i = some (e, k) → NoGap w k

/-- The condition on an action: the calls of `fork` for data pages succeed, and
checks are settled where they end. -/
def Careful (w : World) : Act → Prop
  | .run _ => True
  | .call _ => True
  | .step ok =>
    match w.pc w.cur with
    | .fork _ (s :: _) => Copies w w.cur ok s
    | .ask i s => Settled w i s
    | .read i _ (some s) => Settled w i s
    | .write i _ (some s) => Settled w i s
    | _ => True

instance (w : World) (p : EnvIdx) (ok : Bool) (s : Slot) : Decidable (Copies w p ok s) :=
  match s with
  | .fd _ => isTrue trivial
  | .data i => inferInstanceAs (Decidable (w.data p i ≠ none → ok = true))

instance (w : World) (k : Nat) : Decidable (NoGap w k) :=
  inferInstanceAs (Decidable (∀ c, w.status c = .embryo → ∀ i e, w.fd c i = some (e, k) →
    w.data c i = some k))

instance (w : World) (i : Fd) (s : Check) : Decidable (Settled w i s) :=
  match s with
  | .runs => isTrue fun _ _ _ h => by cases h
  | .fdRef _ => isTrue fun _ _ _ h => by cases h
  | .pipeRef _ _ => isTrue fun _ _ _ h => by cases h
  | .test r f d =>
    decidable_of_iff (w.turns w.cur < 2 ^ 32 ∧ ∀ x ∈ w.fd w.cur i, NoGap w x.2)
      ⟨fun h _ _ _ _ => ⟨h.1, fun e k hk => h.2 (e, k) hk⟩,
        fun h => ⟨(h r f d rfl).1, fun x hx => (h r f d rfl).2 x.1 x.2 hx⟩⟩

instance (w : World) (a : Act) : Decidable (Careful w a) := by
  unfold Careful
  split
  · exact inferInstance
  · exact inferInstance
  · split <;> exact inferInstance

theorem Inv.check_right (h : Inv w) (hc : Coherent w w.cur) {s : Check}
    (hs : Checked w w.cur i s) (hset : Settled w i s) (hb : w.check w.cur i s = .inr true)
    (hfd : w.fd w.cur i = some (e, k)) : ∀ q j, w.fd q j ≠ some (e.other, k) := by
  cases s with
  | test r f d =>
    obtain ⟨hturns, hgap⟩ := hset r f d rfl
    have heq := hs.verdict hb hturns
    exact h.closed_right hc hfd (hgap e k hfd) (of_decide_eq_true heq.symm)
  | runs => cases hb
  | fdRef r => cases hb
  | pipeRef r f => cases hb

theorem Coherent.look (h : Coherent w p) (s : Check) : Coherent (w.look p s) p := by
  obtain ⟨-, hf, hd⟩ := look_same w p s
  refine h.of_row fun j => ?_
  unfold World.fd World.data
  rw [hf, hd]
  exact ⟨rfl, rfl⟩

theorem fd_look (w : World) (p : EnvIdx) (s : Check) (q : EnvIdx) (j : Fd) :
    (w.look p s).fd q j = w.fd q j := by
  unfold World.fd
  rw [(look_same w p s).2.1]

theorem Inv.askStep (h : Inv w) {s : Check} (hpc : w.pc w.cur = .ask i s) (hset : Settled w i s)
    {l : List Answer} (hn : w.askStep w.cur i s = some (w', l)) :
    Inv w' ∧ ∀ a ∈ l, a.Right w' := by
  have hat := h.ready w.cur h.cur
  rw [hpc] at hat
  obtain ⟨hc, hs⟩ := hat
  unfold World.askStep at hn
  split at hn
  · cases hn
  · rename_i e k hfd
    split at hn
    · rename_i s' hcheck
      cases hn
      exact ⟨h.goto (Local.look w w.cur s) (look_same w w.cur s).1 (by simp)
        ⟨hc.look s, hs.next hcheck⟩, by simp⟩
    · rename_i b hcheck
      cases hn
      refine ⟨h.goto (Local.refl w w.cur w.cur) rfl (by simp) hc, ?_⟩
      intro a ha
      rw [List.mem_singleton.mp ha]
      intro hb
      rw [hb] at hcheck
      exact h.check_right hc hs hset hcheck hfd

/-! ### Reading and writing -/

theorem pipeRead_zero {b : Bool} {q : Pipe} {c : Pipe.Call} {r : Word}
    (h : Pipe.pipeRead b q c = .ret r) (hr : r = 0#32) (hn : c.n ≠ 0#32) : b = true := by
  unfold Pipe.pipeRead at h
  cases hpc : c.pc with
  | loop =>
    simp only [hpc] at h
    split at h
    · cases h
    · cases h
      exact absurd hr hn
  | block =>
    simp only [hpc] at h
    split at h
    · rename_i hor
      cases h
      rcases hor with hslt | hb
      · rw [hr] at hslt
        simp at hslt
      · exact hb
    · cases h
  | test =>
    simp only [hpc] at h
    split at h <;> cases h
  | move =>
    simp only [hpc] at h
    cases h
  | count =>
    simp only [hpc] at h
    cases h
  | advance =>
    simp only [hpc] at h
    cases h

theorem pipeWrite_short {b : Bool} {q : Pipe} {c : Pipe.Call} {r : Word}
    (h : Pipe.pipeWrite b q c = .ret r) (hr : r ≠ c.n) : b = true := by
  unfold Pipe.pipeWrite at h
  cases hpc : c.pc with
  | loop =>
    simp only [hpc] at h
    split at h
    · cases h
    · cases h
      exact absurd rfl hr
  | block =>
    simp only [hpc] at h
    split at h
    · assumption
    · cases h
  | test =>
    simp only [hpc] at h
    split at h <;> cases h
  | move =>
    simp only [hpc] at h
    cases h
  | count =>
    simp only [hpc] at h
    cases h
  | advance =>
    simp only [hpc] at h
    cases h

/-- What the two loops have in common: a call is at an end of its own kind, and
its result is right if that of the check was. -/
structure Io.Lawful (io : Io) : Prop where
  at_pc : ∀ w p i c s, At w p (io.pc i c s) ↔
    Coherent w p ∧ (∃ k, w.fd p i = some (io.mode, k)) ∧ ∀ s', s = some s' → Checked w p i s'
  not_fork : ∀ i c s x todo, io.pc i c s ≠ .fork x todo
  right : ∀ {w k b q c r}, io.run b q c = .ret r →
    (b = true → ∀ p i, w.fd p i ≠ some (io.mode.other, k)) → (io.answer k c.n r).Right w

theorem reading_lawful : reading.Lawful where
  at_pc _ _ _ _ _ := Iff.rfl
  not_fork _ _ _ _ _ h := by cases h
  right hr hb hz hn := hb (pipeRead_zero hr hz hn)

theorem writing_lawful : writing.Lawful where
  at_pc _ _ _ _ _ := Iff.rfl
  not_fork _ _ _ _ _ h := by cases h
  right hr hb hne := hb (pipeWrite_short hr hne)

variable {io : Io}

theorem Inv.afterIo (h : Inv w) (hio : io.Lawful) (hc : Coherent w w.cur)
    (hfd : ∃ k, w.fd w.cur i = some (io.mode, k)) (k : Nat) (n : Word) (o : Pipe.Outcome) :
    Inv (w.afterIo io w.cur i k n o).1 := by
  cases o with
  | next q c =>
    refine h.goto ((Local.refl w w.cur w.cur).setPipe k q) rfl (hio.not_fork i c none) ?_
    exact (hio.at_pc _ _ _ _ _).mpr ⟨hc, hfd, by simp⟩
  | ret r => exact h.goto (Local.refl w w.cur w.cur) rfl (by simp) hc

theorem fd_afterIo (w : World) (io : Io) (p : EnvIdx) (i : Fd) (k : Nat) (n : Word)
    (o : Pipe.Outcome) (q : EnvIdx) (j : Fd) : (w.afterIo io p i k n o).1.fd q j = w.fd q j := by
  cases o <;> rfl

theorem right_afterIo (hio : io.Lawful) {b : Bool} {q : Pipe} {c : Pipe.Call}
    (hb : b = true → ∀ p i, w.fd p i ≠ some (io.mode.other, k)) :
    ∀ a ∈ (w.afterIo io p i k c.n (io.run b q c)).2,
      a.Right (w.afterIo io p i k c.n (io.run b q c)).1 := by
  intro a ha
  cases ho : io.run b q c with
  | next q' c' =>
    rw [ho] at ha
    cases ha
  | ret r =>
    rw [ho] at ha
    rw [List.mem_singleton.mp ha]
    exact hio.right ho hb

theorem Inv.ioStep (h : Inv w) (hio : io.Lawful) {c : Pipe.Call} {s : Option Check}
    (hpc : w.pc w.cur = io.pc i c s) (hset : ∀ s', s = some s' → Settled w i s')
    {l : List Answer} (hn : w.ioStep io w.cur i c s = some (w', l)) :
    Inv w' ∧ ∀ a ∈ l, a.Right w' := by
  have hat := h.ready w.cur h.cur
  rw [hpc] at hat
  obtain ⟨hc, ⟨k₁, hk₁⟩, hs⟩ := (hio.at_pc _ _ _ _ _).mp hat
  unfold World.ioStep at hn
  split at hn
  · rename_i k hd
    split at hn
    · cases hn
      refine ⟨h.goto (Local.refl w w.cur w.cur) rfl (hio.not_fork _ _ _) ?_, by simp⟩
      refine (hio.at_pc _ _ _ _ _).mpr ⟨hc, ⟨k₁, hk₁⟩, ?_⟩
      rintro s' ⟨⟩
      trivial
    · obtain ⟨rfl, rfl⟩ := Prod.mk.inj (Option.some.inj hn)
      exact ⟨h.afterIo hio hc ⟨k₁, hk₁⟩ k c.n _, right_afterIo hio (by simp)⟩
  · rename_i e k₀ k s hfd hd
    rw [hk₁] at hfd
    cases hfd
    obtain rfl : k₁ = k := Option.some.inj ((hc i io.mode k₁ hk₁).symm.trans hd)
    split at hn
    · rename_i s' hcheck
      cases hn
      refine ⟨h.goto (Local.look w w.cur s) (look_same w w.cur s).1 (hio.not_fork _ _ _) ?_,
        by simp⟩
      refine (hio.at_pc _ _ _ _ _).mpr ⟨hc.look s, ⟨k₁, ?_⟩, ?_⟩
      · rw [fd_look, hk₁]
      · rintro s'' ⟨⟩
        exact (hs s rfl).next hcheck
    · rename_i b hcheck
      obtain ⟨rfl, rfl⟩ := Prod.mk.inj (Option.some.inj hn)
      have hright : b = true → ∀ q j, w.fd q j ≠ some (io.mode.other, k₁) := by
        rintro rfl
        exact h.check_right hc (hs s rfl) (hset s rfl) hcheck hk₁
      refine ⟨h.afterIo hio hc ⟨k₁, hk₁⟩ k₁ c.n _, ?_⟩
      intro a ha
      rcases List.mem_cons.mp ha with rfl | ha
      · intro hb q j
        rw [fd_afterIo]
        exact hright hb q j
      · exact right_afterIo hio hright a ha
  · cases hn

end Check

/-! ## Runs -/

section Runs

variable {w w' : World}

/-- A process that is resumed has one more turn. -/
theorem Inv.turn (h : Inv w) {p : EnvIdx} (hp : w.status p = .ready) :
    Inv { w with
      cur := p
      runs := Function.update w.runs p (w.runs p + 1#32)
      turns := Function.update w.turns p (w.turns p + 1) } := by
  generalize hw : ({ w with
      cur := p
      runs := Function.update w.runs p (w.runs p + 1#32)
      turns := Function.update w.turns p (w.turns p + 1) } : World) = w₁
  have hf : w₁.fds = w.fds := by rw [← hw]
  have hd : w₁.datas = w.datas := by rw [← hw]
  have hfresh : w₁.fresh = w.fresh := by rw [← hw]
  have hst : w₁.status = w.status := by rw [← hw]
  have hpc : w₁.pc = w.pc := by rw [← hw]
  have hcur : w₁.cur = p := by rw [← hw]
  have hcheck : ∀ q i s, Checked w q i s → Checked w₁ q i s := by
    intro q i s hs
    by_cases hq : q = p
    · have hruns : w₁.runs q = w.runs q + 1#32 := by
        rw [← hw, hq]
        exact Function.update_self ..
      have hturns : w₁.turns q = w.turns q + 1 := by
        rw [← hw, hq]
        exact Function.update_self ..
      have hclock : ∀ {r : Word}, w.runs q = r + BitVec.ofNat 32 (w.turns q) →
          w₁.runs q = r + BitVec.ofNat 32 (w₁.turns q) := by
        intro r hr
        rw [hruns, hturns, hr, BitVec.ofNat_add, BitVec.add_assoc]
      cases s with
      | runs => trivial
      | fdRef r => exact hclock hs
      | pipeRef r f => exact ⟨hclock hs.1, fun _ h0 => absurd h0 (by omega)⟩
      | test r f d => exact ⟨hclock hs.1, fun _ h0 => absurd h0 (by omega)⟩
    · refine hs.frame ?_ ?_ ?_
      · rw [hcur]
        exact Ne.symm hq
      · rw [← hw]
        exact Function.update_of_ne hq _ _
      · rw [← hw]
        exact Function.update_of_ne hq _ _
  refine ⟨?_, ?_, ?_, ?_, ?_, ?_, ?_⟩
  · rw [hst, hcur]
    exact hp
  · intro q i e k hfd
    rw [hfresh]
    rw [World.fd, hf] at hfd
    exact h.ids q i e k hfd
  · intro q hq i
    rw [hst] at hq
    unfold World.fd World.data
    rw [hf, hd]
    exact h.free q hq i
  · intro q hq
    rw [hst] at hq
    rw [hpc]
    exact (h.ready q hq).of_maps hf hd hfresh (hcheck q)
  · rw [hst, hpc]
    exact h.child
  · rw [hst, hpc]
    exact h.unborn
  · rw [hst, hpc]
    exact h.unique

theorem Inv.start (h : Inv w) (hpc : w.pc w.cur = .idle) {op : Op}
    (hn : w.start w.cur op = some w') : Inv w' := by
  have hat := h.ready w.cur h.cur
  rw [hpc] at hat
  have hc : Coherent w w.cur := hat
  have hstay := Local.refl w w.cur w.cur
  cases op with
  | pipe =>
    cases hn
    exact h.goto hstay rfl (by simp) hc
  | dup old new =>
    simp only [World.start] at hn
    split at hn
    · cases hn
      exact h
    · cases hn
      exact h.goto hstay rfl (by simp) hc
  | close i =>
    cases hn
    exact h.goto hstay rfl (by simp) hc
  | fork child =>
    simp only [World.start] at hn
    split at hn
    · rename_i hfree
      cases hn
      exact h.startFork hc hfree.1 hfree.2
    · cases hn
  | isClosed i =>
    simp only [World.start] at hn
    split at hn
    · cases hn
      exact h
    · cases hn
      exact h.goto hstay rfl (by simp) ⟨hc, trivial⟩
  | read i buf n =>
    simp only [World.start] at hn
    split at hn
    · rename_i k hfd
      cases hn
      exact h.goto hstay rfl (by simp) ⟨hc, ⟨k, hfd⟩, by simp⟩
    · cases hn
      exact h
  | write i buf n =>
    simp only [World.start] at hn
    split at hn
    · rename_i k hfd
      cases hn
      exact h.goto hstay rfl (by simp) ⟨hc, ⟨k, hfd⟩, by simp⟩
    · cases hn
      exact h

theorem Inv.advance (h : Inv w) {ok : Bool} (hcare : Careful w (.step ok)) {l : List Answer}
    (hn : w.advance w.cur ok = some (w', l)) : Inv w' ∧ ∀ a ∈ l, a.Right w' := by
  have hat := h.ready w.cur h.cur
  simp only [Careful] at hcare
  unfold World.advance at hn
  cases hpc : w.pc w.cur with
  | fork child todo =>
    rw [hpc] at hn hcare
    cases hn
    refine ⟨h.forkStep hpc ?_, by simp⟩
    rintro s rest rfl
    exact hcare
  | ask i s =>
    rw [hpc] at hn hcare
    exact h.askStep hpc hcare hn
  | read i c s =>
    rw [hpc] at hn hcare
    refine h.ioStep reading_lawful hpc ?_ hn
    rintro s' rfl
    exact hcare
  | write i c s =>
    rw [hpc] at hn hcare
    refine h.ioStep writing_lawful hpc ?_ hn
    rintro s' rfl
    exact hcare
  | idle =>
    rw [hpc] at hn
    cases hn
  | _ =>
    rw [hpc] at hn hat
    cases hn
    first
    | exact ⟨h.pipeStep ok hat, by simp⟩
    | exact ⟨h.closeStep hat, by simp⟩
    | exact ⟨h.dupStep ok hat, by simp⟩

/-- One action keeps the invariant and answers right. -/
theorem Inv.next (h : Inv w) {a : Act} (hcare : Careful w a) {l : List Answer}
    (hn : next a w = some (w', l)) : Inv w' ∧ ∀ x ∈ l, x.Right w' := by
  cases a with
  | run p =>
    simp only [PipeEnds.next] at hn
    split at hn
    · rename_i hp
      cases hn
      exact ⟨h.turn hp, by simp⟩
    · cases hn
  | call op =>
    simp only [PipeEnds.next] at hn
    split at hn
    · rename_i hpc
      obtain ⟨w₁, hw₁, heq⟩ := Option.map_eq_some_iff.mp hn
      cases heq
      exact ⟨h.start hpc hw₁, by simp⟩
    · cases hn
  | step ok => exact h.advance hcare hn

theorem start_inv (h : Start w) : Inv w := by
  obtain ⟨hf, hd, hst, hpc, hcur⟩ := h
  have hfd : ∀ p i, w.fd p i = none := by
    intro p i
    rw [World.fd, hf]
    rfl
  have hdata : ∀ p i, w.data p i = none := by
    intro p i
    rw [World.data, hd]
    rfl
  refine ⟨hcur, ?_, fun p _ i => ⟨hfd p i, hdata p i⟩, ?_, ?_, fun p hp => absurd hp (hst p), ?_⟩
  · intro p i e k h
    rw [hfd] at h
    cases h
  · intro p _
    rw [hpc]
    intro i e k h
    rw [hfd] at h
    cases h
  · intro p x todo _ h
    rw [hpc] at h
    cases h
  · intro p q x todo todo' _ _ h
    rw [hpc] at h
    cases h

/-- A step under the condition. -/
def Step (w : World) (a : Act) (w' : World) : Prop :=
  Careful w a ∧ ∃ l, next a w = some (w', l)

theorem inv_of_run {hist : List Act} (hrun : Run Start Step hist w) : Inv w := by
  refine Run.invariant (I := fun _ w => Inv w) (fun _ => start_inv) ?_ hrun
  rintro _ w a w' h ⟨hcare, l, hn⟩
  exact (h.next hcare hn).1

/-- In every run in which the calls of `fork` for data pages succeed and no check
of a pipe ends while a `fork` has mapped one of its `Fd` pages without the data
page, a pipe looks closed only when nobody has its other end, `pipe_read`
returns nothing only then, and `pipe_write` is cut short only then. -/
theorem looks_closed {hist : List Act} (hrun : Run Start Step hist w) {a : Act}
    (hcare : Careful w a) {l : List Answer} (hn : next a w = some (w', l)) :
    ∀ x ∈ l, x.Right w' :=
  ((inv_of_run hrun).next hcare hn).2

end Runs

/-! ## Two runs -/

/-- One process, which has no descriptors. -/
def oneProc : World where
  fds := RefTable.empty
  datas := RefTable.empty
  status := fun p => if p = 0 then .ready else .free
  pc := fun _ => .idle
  runs := fun _ => 0#32
  turns := fun _ => 0
  cur := 0
  fresh := 0
  pipes := fun _ => ⟨0#32, 0#32, fun _ => 0#8⟩

theorem oneProc_start : Start oneProc := by
  refine ⟨rfl, rfl, fun p => ?_, fun _ => rfl, rfl⟩
  unfold oneProc
  dsimp only
  split <;> simp

/-- Process 0 makes a pipe and forks process 1, which closes the write end. -/
def shared : List Act :=
  .call .pipe :: List.replicate 4 (.step true) ++ .call (.fork 1) :: List.replicate 65 (.step true) ++
    .run 1 :: .call (.close 1) :: List.replicate 4 (.step true)

/-- Process 0 closes the write end too, and process 1 asks whether the pipe is
closed. -/
def hungUp : List Act :=
  shared ++ .run 0 :: .call (.close 1) :: List.replicate 4 (.step true) ++
    [.run 1, .call (.isClosed 0), .step true, .step true, .step true]

theorem looks_closed_hung_up : ∃ hist w w' l, Run Start Step hist w ∧ Careful w (.step true) ∧
    next (.step true) w = some (w', l) ∧ l = [.closed .read 0 true] ∧ ∀ x ∈ l, x.Right w' := by
  let f : Act → World → Option World := fun a w =>
    if Careful w a then (next a w).map Prod.fst else none
  have hend : ((Run.follow f hungUp oneProc).bind fun w =>
      (next (.step true) w).map fun r => (decide (Careful w (.step true)), r.2)) =
      some (true, [.closed .read 0 true]) := by
    decide +kernel
  obtain ⟨w, hw, hr⟩ := Option.bind_eq_some_iff.mp hend
  obtain ⟨⟨w', l⟩, hn, hl⟩ := Option.map_eq_some_iff.mp hr
  obtain ⟨hcare, hl⟩ := Prod.mk.inj hl
  have hf : ∀ a w w', f a w = some w' → Step w a w' := by
    intro a w w' h
    by_cases hc : Careful w a
    · simp only [f, if_pos hc] at h
      obtain ⟨⟨w₁, l⟩, h₁, rfl⟩ := Option.map_eq_some_iff.mp h
      exact ⟨hc, l, h₁⟩
    · simp only [f, if_neg hc] at h
      cases h
  have hrun : Run Start Step _ w := Run.of_follow hf (.start oneProc_start) hw
  have hc := of_decide_eq_true hcare
  exact ⟨_, w, w', l, hrun, hc, hn, hl, looks_closed hrun hc hn⟩

/-- Process 0 forks again and is interrupted after it has mapped the `Fd` page of
the read end; process 1 asks whether the pipe is closed. -/
def interrupted : List Act :=
  shared ++ [.run 0, .call (.fork 2), .step true, .run 1, .call (.isClosed 0), .step true,
    .step true, .step true]

/-- The pipe looks closed to process 1 while process 0 has its write end. -/
theorem looks_closed_in_fork : ∃ hist w w',
    Run Start (fun w a w' => ∃ l, next a w = some (w', l)) hist w ∧
      next (.step true) w = some (w', [.closed .read 0 true]) ∧
      w'.fd 0 1 = some (.write, 0) := by
  let f : Act → World → Option World := fun a w => (next a w).map Prod.fst
  have hend : ((Run.follow f interrupted oneProc).bind (next (.step true))).map
      (fun r => (r.2, r.1.fd 0 1)) = some ([.closed .read 0 true], some (.write, 0)) := by
    decide +kernel
  obtain ⟨⟨w', l⟩, hr, hl⟩ := Option.map_eq_some_iff.mp hend
  obtain ⟨w, hw, hn⟩ := Option.bind_eq_some_iff.mp hr
  obtain ⟨hl, hfd⟩ := Prod.mk.inj hl
  have hf : ∀ a w w', f a w = some w' → ∃ l, next a w = some (w', l) := by
    intro a w w' h
    obtain ⟨⟨w₁, l⟩, h₁, rfl⟩ := Option.map_eq_some_iff.mp h
    exact ⟨l, h₁⟩
  exact ⟨_, w, w', Run.of_follow hf (.start oneProc_start) hw, hl ▸ hn, hfd⟩

end PipeEnds
end RvMos
