/-
The creation of descriptors (`open` of `user/lib/file.c`, `pipe` of `user/lib/pipe.c`,
`fd_alloc` of `user/lib/fd.c`, `fsipc_open` and `fsipc_map` of `user/lib/fsipc.c`).

A process is its page mappings, with what the pages of the descriptor table hold.  `Outside`
is what answers it: the kernel, for memory, and the file server.  The server's reply puts a
page under the address that the process waits with; the kernel does not report a page
that it had no room for (`e_ipc_try_send` drops the result of `page_insert`), so that
a reply may come without one.
-/
import RvMos.User.File
import RvMos.User.LoadSegment

namespace RvMos
namespace User

open Kern (retWord retWord_slt retWord_ne)

def eMaxOpen : Word := BitVec.ofInt 32 (-9)
def eBadPath : Word := BitVec.ofInt 32 (-11)

def maxNameLen : ℕ := 128
def maxFd : ℕ := 32

def fdTable : Word := fileBase - 0x400000#32

/-- `INDEX2FD(i)` -/
def index2fd (i : ℕ) : Word := fdTable + BitVec.ofNat 32 i * 4096#32

/-- `PTE_R | PTE_W | PTE_U | PTE_LIBRARY` -/
def sharedPerm : Word := pteR ||| pteW ||| pteU ||| pteLibrary

structure Mapping where
  frame : Frame
  perm : Word
  deriving DecidableEq

/-- `struct Filefd`, as far as it is used here. -/
structure Filefd where
  devId : Word
  omode : Word
  fileid : Word
  fSize : Word
  deriving DecidableEq

/-- The value of a reply that reports an error. -/
abbrev Refusal := { r : Word // r.slt 0#32 = true }

structure Outside (σ : Type) where
  /-- `e_mem_alloc` for the caller: the frame that it maps -/
  memAlloc : Word → Word → σ → Except Errno Frame × σ
  /-- `e_mem_map` in the caller's space, where the source is mapped -/
  memMap : Word → Word → Word → σ → Except Errno Unit × σ
  /-- the reply to `FSREQ_OPEN`: the page of the descriptor, and what it holds -/
  openFile : List Byte → Word → σ → Except Refusal (Option (Mapping × Filefd)) × σ
  /-- the reply to `FSREQ_MAP` -/
  mapFile : Word → Word → σ → Except Refusal (Option Mapping) × σ
  /-- an access where nothing is mapped: a zeroed page, or none and the kernel panics -/
  fault : Word → σ → Option Mapping × σ

structure Space (σ : Type) where
  pages : Word → Option Mapping
  fds : Frame → Filefd
  out : σ

section Calls

variable {σ : Type} (S : Outside σ)

def Space.map (p : Space σ) (va : Word) (m : Option Mapping) : Space σ :=
  { p with pages := Function.update p.pages va m }

def Space.setFd (p : Space σ) (f : Frame) (ff : Filefd) : Space σ :=
  { p with fds := Function.update p.fds f ff }

/-- `fd->fd_dev_id = …; fd->fd_omode = …;` -/
def Space.writeFd (p : Space σ) (fd devId omode : Word) : Space σ :=
  match p.pages fd with
  | none => p
  | some m => p.setFd m.frame { p.fds m.frame with devId := devId, omode := omode }

def memAlloc (va perm : Word) (p : Space σ) : Word × Space σ :=
  match S.memAlloc va perm p.out with
  | (.error e, out) => (retWord (.error e), { p with out })
  | (.ok f, out) => (0#32, { p.map va (some ⟨f, perm⟩) with out })

def memMap (srcva dstva perm : Word) (p : Space σ) : Word × Space σ :=
  match p.pages srcva with
  | none => (retWord (.error .inval), p)
  | some m =>
    match S.memMap srcva dstva perm p.out with
    | (.error e, out) => (retWord (.error e), { p with out })
    | (.ok (), out) => (0#32, { p.map dstva (some ⟨m.frame, perm⟩) with out })

/-- `ecall_mem_unmap(0, va)`, which cannot fail where programs have their pages. -/
def memUnmap (va : Word) (p : Space σ) : Space σ := p.map va none

/-- `fd_alloc`.  The last number is not tried. -/
def fdAlloc (pages : Word → Option Mapping) : Option ℕ :=
  (List.range (maxFd - 1)).find? fun fdno => (pages (index2fd fdno)).isNone

def pipe (pfd : ℕ × ℕ) (p : Space σ) : Word × (ℕ × ℕ) × Space σ :=
  match fdAlloc p.pages with
  | none => (eMaxOpen, pfd, p)
  | some fd0 =>
    let (r, p) := memAlloc S (index2fd fd0) sharedPerm p
    if r.slt 0#32 then (r, pfd, p)
    else
      match fdAlloc p.pages with
      | none => (eMaxOpen, pfd, memUnmap (index2fd fd0) p)
      | some fd1 =>
        let (r, p) := memAlloc S (index2fd fd1) sharedPerm p
        if r.slt 0#32 then (r, pfd, memUnmap (index2fd fd0) p)
        else
          let (x, p) := memAlloc S (fd2data fd0) sharedPerm p
          -- `(r = ecall_mem_alloc(…) < 0)`: the comparison comes first
          let r := if x.slt 0#32 then 1#32 else 0#32
          if r ≠ 0#32 then (r, pfd, memUnmap (index2fd fd0) (memUnmap (index2fd fd1) p))
          else
            let (r, p) := memMap S (fd2data fd0) (fd2data fd1) sharedPerm p
            if r.slt 0#32 then
              (r, pfd, memUnmap (index2fd fd0) (memUnmap (index2fd fd1)
                (memUnmap (fd2data fd0) p)))
            else
              let p := p.writeFd (index2fd fd0) 112#32 0#32
              (0#32, (fd0, fd1), p.writeFd (index2fd fd1) 112#32 1#32)

/-- `fsipc_open`, where `path` is the string up to its NUL. -/
def fsipcOpen (path : List Byte) (mode fd : Word) (p : Space σ) : Word × Space σ :=
  if maxNameLen ≤ path.length then (eBadPath, p)
  else
    match S.openFile path mode p.out with
    | (.error r, out) => (r, { p with out })
    | (.ok none, out) => (0#32, { p with out })
    | (.ok (some (m, ff)), out) => (0#32, { (p.map fd (some m)).setFd m.frame ff with out })

/-- `fsipc_map`.  The permissions it checks are those of the kernel, which sets `PTE_V`. -/
def fsipcMap (fileid offset dstva : Word) (p : Space σ) : Word × Space σ :=
  match S.mapFile fileid offset p.out with
  | (.error r, out) => (r, { p with out })
  | (.ok none, out) => (0#32, { p with out })
  | (.ok (some m), out) => (0#32, { p.map dstva (some m) with out })

/-- The reads through `ffd`. -/
def readFilefd (fd : Word) (p : Space σ) : Option (Filefd × Space σ) :=
  match p.pages fd with
  | some m => some (p.fds m.frame, p)
  | none =>
    match S.fault fd p.out with
    | (none, _) => none
    | (some m, out) =>
      let ff : Filefd := ⟨0#32, 0#32, 0#32, 0#32⟩
      some (ff, { (p.map fd (some m)).setFd m.frame ff with out })

/-- The loop of `open` from `i` on. -/
def mapFile (ff : Filefd) (va : Word) : ℕ → Word → Space σ → Option (Word × Space σ)
  | 0, _, _ => none
  | fuel + 1, i, p =>
    if i < ff.fSize then
      let (r, p) := fsipcMap S ff.fileid i (va + i) p
      if r ≠ 0#32 then some (r, p) else mapFile ff va fuel (i + 4096#32) p
    else some (0#32, p)

/-- `open`.  There is no result where the kernel panics and where the fuel for the loop does
not suffice. -/
def openFile (fuel : ℕ) (path : List Byte) (mode : Word) (p : Space σ) :
    Option (Word × Space σ) :=
  match fdAlloc p.pages with
  | none => some (eMaxOpen, p)
  | some fd =>
    let (r, p) := fsipcOpen S path mode (index2fd fd) p
    if r ≠ 0#32 then some (r, p)
    else do
      let (ff, p) ← readFilefd S (index2fd fd) p
      let (r, p) ← mapFile S ff (fd2data fd) fuel 0#32 p
      if r ≠ 0#32 then some (r, p) else some (BitVec.ofNat 32 fd, p)

end Calls

/-! ## What a failure leaves behind -/

/-- The same pages in the descriptor table and in the windows behind it. -/
def SamePages {σ : Type} (p p' : Space σ) : Prop :=
  ∀ va : Word, fdTable ≤ va → va.toNat < 0x68000000 → p'.pages va = p.pages va

/-- `open` returns, and a negative result comes with the pages as they were. -/
def OpenClean {σ : Type} (S : Outside σ) (path : List Byte) (mode : Word) (p : Space σ) : Prop :=
  ∃ fuel r p', openFile S fuel path mode p = some (r, p') ∧
    (r.slt 0#32 = true → SamePages p p')

/-- The descriptors in `pfd` are new and share a data page. -/
structure PipeMade {σ : Type} (p p' : Space σ) (pfd : ℕ × ℕ) : Prop where
  ne : pfd.1 ≠ pfd.2
  free : p.pages (index2fd pfd.1) = none ∧ p.pages (index2fd pfd.2) = none
  mapped : p'.pages (index2fd pfd.1) ≠ none ∧ p'.pages (index2fd pfd.2) ≠ none
  data : ∃ f, p'.pages (fd2data pfd.1) = some ⟨f, sharedPerm⟩ ∧
    p'.pages (fd2data pfd.2) = some ⟨f, sharedPerm⟩

def PipeClean {σ : Type} (S : Outside σ) (pfd : ℕ × ℕ) (p : Space σ) : Prop :=
  (pipe S pfd p).1 = 0#32 ∧ PipeMade p (pipe S pfd p).2.2 (pipe S pfd p).2.1 ∨
    (pipe S pfd p).1.slt 0#32 = true ∧ SamePages p (pipe S pfd p).2.2

/-- Memory for the data page, once there are two descriptors, and an empty window if it
cannot be mapped a second time. -/
def PipeSafe {σ : Type} (S : Outside σ) (p : Space σ) : Prop :=
  ∀ fd0 f0 s0 fd1 f1 s1, fdAlloc p.pages = some fd0 →
    S.memAlloc (index2fd fd0) sharedPerm p.out = (.ok f0, s0) →
    fdAlloc (Function.update p.pages (index2fd fd0) (some ⟨f0, sharedPerm⟩)) = some fd1 →
    S.memAlloc (index2fd fd1) sharedPerm s0 = (.ok f1, s1) →
    ∃ f s2, S.memAlloc (fd2data fd0) sharedPerm s1 = (.ok f, s2) ∧
      (p.pages (fd2data fd0) = none ∨
        (S.memMap (fd2data fd0) (fd2data fd1) sharedPerm s2).1 = .ok ())

/-- The server grants these pages of a file. -/
def GrantsFile {σ : Type} (S : Outside σ) (fileid : Word) : List ℕ → σ → Prop
  | [], _ => True
  | k :: ks, s =>
    (∃ m, (S.mapFile fileid (BitVec.ofNat 32 (4096 * k)) s).1 = .ok m) ∧
      GrantsFile S fileid ks (S.mapFile fileid (BitVec.ofNat 32 (4096 * k)) s).2

/-- The reply to `FSREQ_OPEN` for descriptor `fd` is a refusal, or all that `open` asks for after
it is granted. -/
def ReplySafe {σ : Type} (S : Outside σ) (fd : ℕ) :
    Except Refusal (Option (Mapping × Filefd)) × σ → Prop
  | (.error _, _) => True
  | (.ok none, s) => (S.fault (index2fd fd) s).1 ≠ none
  | (.ok (some (_, ff)), s) => ff.fSize ≤ 0xfffff000#32 ∧
      GrantsFile S ff.fileid (List.range ((ff.fSize.toNat + 4095) / 4096)) s

def OpenSafe {σ : Type} (S : Outside σ) (path : List Byte) (mode : Word) (p : Space σ) : Prop :=
  ∀ fd, fdAlloc p.pages = some fd → path.length < maxNameLen →
    ReplySafe S fd (S.openFile path mode p.out)

section Descriptors

variable {σ : Type} {S : Outside σ} {p : Space σ}

theorem index2fd_toNat {i : ℕ} (h : i < 32) : (index2fd i).toNat = 0x5fc00000 + 4096 * i := by
  have ht : fdTable.toNat = 0x5fc00000 := rfl
  have hp : (4096#32).toNat = 4096 := rfl
  have hn : (BitVec.ofNat 32 i).toNat = i := by
    rw [BitVec.toNat_ofNat, Nat.mod_eq_of_lt (by omega)]
  rw [index2fd, BitVec.toNat_add, BitVec.toNat_mul, hn, hp, ht]
  omega

theorem index2fd_ne {i j : ℕ} (hi : i < 32) (hj : j < 32) (h : i ≠ j) :
    index2fd i ≠ index2fd j := by
  intro heq
  have := congrArg BitVec.toNat heq
  rw [index2fd_toNat hi, index2fd_toNat hj] at this
  omega

theorem fd2data_ne {i j : ℕ} (hi : i < 32) (hj : j < 32) (h : i ≠ j) :
    fd2data i ≠ fd2data j := by
  intro heq
  have := congrArg BitVec.toNat heq
  rw [fd2data_toNat hi, fd2data_toNat hj] at this
  omega

theorem index2fd_ne_fd2data {i j : ℕ} (hi : i < 32) (hj : j < 32) : index2fd i ≠ fd2data j := by
  intro heq
  have := congrArg BitVec.toNat heq
  rw [index2fd_toNat hi, fd2data_toNat hj] at this
  omega

theorem fdAlloc_spec {pages : Word → Option Mapping} {i : ℕ} (h : fdAlloc pages = some i) :
    i < 32 ∧ pages (index2fd i) = none := by
  have hmem := List.mem_of_find?_eq_some h
  have hfree := List.find?_some h
  rw [List.mem_range, maxFd] at hmem
  exact ⟨by omega, Option.isNone_iff_eq_none.mp hfree⟩

theorem SamePages.refl (p : Space σ) : SamePages p p := fun _ _ _ => rfl

theorem memAlloc_of_ok {va perm : Word} {f : Frame} {s : σ}
    (h : S.memAlloc va perm p.out = (.ok f, s)) :
    ∃ p', memAlloc S va perm p = (0#32, p') ∧
      p'.pages = Function.update p.pages va (some ⟨f, perm⟩) ∧ p'.out = s := by
  rw [memAlloc, h]
  exact ⟨_, rfl, rfl, rfl⟩

theorem memAlloc_of_error {va perm : Word} {e : Errno} {s : σ}
    (h : S.memAlloc va perm p.out = (.error e, s)) :
    ∃ p', memAlloc S va perm p = (retWord (.error e), p') ∧ p'.pages = p.pages := by
  rw [memAlloc, h]
  exact ⟨_, rfl, rfl⟩

/-- The two ends of a mapping that is made a second time. -/
theorem memMap_cases (S : Outside σ) (dstva perm : Word) {srcva : Word} {m : Mapping}
    (h : p.pages srcva = some m) :
    (S.memMap srcva dstva perm p.out).1 = .ok () ∧
        (∃ p', memMap S srcva dstva perm p = (0#32, p') ∧
          p'.pages = Function.update p.pages dstva (some ⟨m.frame, perm⟩)) ∨
      (S.memMap srcva dstva perm p.out).1 ≠ .ok () ∧
        ∃ e p', memMap S srcva dstva perm p = (retWord (.error e), p') ∧ p'.pages = p.pages := by
  unfold memMap
  rw [h]
  rcases S.memMap srcva dstva perm p.out with ⟨e | u, s⟩
  · exact .inr ⟨by simp, e, _, rfl, rfl⟩
  · exact .inl ⟨rfl, _, rfl, rfl⟩

/-- A page that was not there is taken away again. -/
theorem update_undo {g : Word → Option Mapping} {va : Word} {m : Option Mapping}
    (h : g va = none) : Function.update (Function.update g va m) va none = g := by
  rw [Function.update_idem, ← h, Function.update_eq_self]

theorem writeFd_pages (p : Space σ) (fd devId omode : Word) :
    (p.writeFd fd devId omode).pages = p.pages := by
  unfold Space.writeFd
  split <;> rfl

theorem pipeClean_of_refused {pfd x : ℕ × ℕ} {r : Word} {q : Space σ}
    (h : pipe S pfd p = (r, x, q)) (hr : r.slt 0#32 = true) (hp : q.pages = p.pages) :
    PipeClean S pfd p := by
  refine .inr ?_
  rw [h]
  exact ⟨hr, fun va _ _ => congrFun hp va⟩

/-- In `q` two new descriptors have their pages, and the rest is as in `p`. -/
structure TwoFds (p q : Space σ) (fd0 fd1 : ℕ) : Prop where
  lt0 : fd0 < 32
  lt1 : fd1 < 32
  ne : fd0 ≠ fd1
  free0 : p.pages (index2fd fd0) = none
  free1 : p.pages (index2fd fd1) = none
  pages : ∃ m0 m1, q.pages = Function.update (Function.update p.pages (index2fd fd0) (some m0))
    (index2fd fd1) (some m1)

/-- The rest of `pipe`, from the data page on. -/
def pipeData (S : Outside σ) (pfd : ℕ × ℕ) (fd0 fd1 : ℕ) (p : Space σ) :
    Word × (ℕ × ℕ) × Space σ :=
  let (x, p) := memAlloc S (fd2data fd0) sharedPerm p
  let r := if x.slt 0#32 then 1#32 else 0#32
  if r ≠ 0#32 then (r, pfd, memUnmap (index2fd fd0) (memUnmap (index2fd fd1) p))
  else
    let (r, p) := memMap S (fd2data fd0) (fd2data fd1) sharedPerm p
    if r.slt 0#32 then
      (r, pfd, memUnmap (index2fd fd0) (memUnmap (index2fd fd1) (memUnmap (fd2data fd0) p)))
    else
      let p := p.writeFd (index2fd fd0) 112#32 0#32
      (0#32, (fd0, fd1), p.writeFd (index2fd fd1) 112#32 1#32)

section TwoFds

variable {q : Space σ} {fd0 fd1 : ℕ}

theorem TwoFds.fd_ne (h : TwoFds p q fd0 fd1) : index2fd fd1 ≠ index2fd fd0 :=
  index2fd_ne h.lt1 h.lt0 h.ne.symm

theorem TwoFds.undo (h : TwoFds p q fd0 fd1) : Function.update (Function.update q.pages
    (index2fd fd1) none) (index2fd fd0) none = p.pages := by
  obtain ⟨m0, m1, hq⟩ := h.pages
  rw [hq, update_undo (by rw [Function.update_of_ne h.fd_ne]; exact h.free1),
    update_undo h.free0]

theorem TwoFds.data (h : TwoFds p q fd0 fd1) :
    q.pages (fd2data fd0) = p.pages (fd2data fd0) := by
  obtain ⟨m0, m1, hq⟩ := h.pages
  rw [hq, Function.update_of_ne (index2fd_ne_fd2data h.lt1 h.lt0).symm,
    Function.update_of_ne (index2fd_ne_fd2data h.lt0 h.lt0).symm]

theorem TwoFds.mapped (h : TwoFds p q fd0 fd1) :
    q.pages (index2fd fd0) ≠ none ∧ q.pages (index2fd fd1) ≠ none := by
  obtain ⟨m0, m1, hq⟩ := h.pages
  rw [hq, Function.update_of_ne h.fd_ne.symm, Function.update_self, Function.update_self]
  exact ⟨Option.some_ne_none _, Option.some_ne_none _⟩

/-- `pipe` comes to the data page. -/
theorem pipe_of_two (pfd : ℕ × ℕ) {f0 f1 : Frame} {s0 s1 : σ} (h0 : fdAlloc p.pages = some fd0)
    (hm0 : S.memAlloc (index2fd fd0) sharedPerm p.out = (.ok f0, s0))
    (h1 : fdAlloc (Function.update p.pages (index2fd fd0) (some ⟨f0, sharedPerm⟩)) = some fd1)
    (hm1 : S.memAlloc (index2fd fd1) sharedPerm s0 = (.ok f1, s1)) :
    ∃ q, q.out = s1 ∧ TwoFds p q fd0 fd1 ∧ pipe S pfd p = pipeData S pfd fd0 fd1 q := by
  obtain ⟨hlt0, hfree0⟩ := fdAlloc_spec h0
  obtain ⟨hlt1, hfree1⟩ := fdAlloc_spec h1
  have hne : fd0 ≠ fd1 := by
    rintro rfl
    rw [Function.update_self] at hfree1
    cases hfree1
  rw [Function.update_of_ne (index2fd_ne hlt1 hlt0 hne.symm)] at hfree1
  obtain ⟨p0, hc0, hp0, ho0⟩ := memAlloc_of_ok hm0
  rw [← hp0] at h1
  rw [← ho0] at hm1
  obtain ⟨q, hc1, hq, hout⟩ := memAlloc_of_ok hm1
  refine ⟨q, hout, ⟨hlt0, hlt1, hne, hfree0, hfree1, _, _, by rw [hq, hp0]⟩, ?_⟩
  have hz : (0#32).slt 0#32 = false := rfl
  rw [pipe, h0]
  simp only [hc0, hz, Bool.false_eq_true, if_false, h1, hc1]
  rfl

/-- Without a data page the result of the comparison is returned. -/
theorem pipeData_full (pfd : ℕ × ℕ) (fd1 : ℕ) {e : Errno} {s : σ}
    (hm : S.memAlloc (fd2data fd0) sharedPerm q.out = (.error e, s)) :
    (pipeData S pfd fd0 fd1 q).1 = 1#32 := by
  obtain ⟨p2, hc, -⟩ := memAlloc_of_error hm
  rw [pipeData]
  simp only [hc, retWord_slt, if_true]
  rfl

theorem pipeData_made (h : TwoFds p q fd0 fd1) (pfd : ℕ × ℕ) {f : Frame} {s : σ}
    (hm : S.memAlloc (fd2data fd0) sharedPerm q.out = (.ok f, s))
    (hok : (S.memMap (fd2data fd0) (fd2data fd1) sharedPerm s).1 = .ok ()) :
    (pipeData S pfd fd0 fd1 q).1 = 0#32 ∧
      PipeMade p (pipeData S pfd fd0 fd1 q).2.2 (pipeData S pfd fd0 fd1 q).2.1 := by
  obtain ⟨p2, hc2, hp2, ho2⟩ := memAlloc_of_ok hm
  have hsrc : p2.pages (fd2data fd0) = some ⟨f, sharedPerm⟩ := by
    rw [hp2, Function.update_self]
  rcases memMap_cases S (fd2data fd1) sharedPerm hsrc with
    ⟨-, p3, hc3, hp3⟩ | ⟨hno, -⟩
  · have hrun : ∃ p', pipeData S pfd fd0 fd1 q = (0#32, (fd0, fd1), p') ∧
        p'.pages = p3.pages := by
      have hz : (0#32).slt 0#32 = false := rfl
      rw [pipeData]
      simp only [hc2, hc3, hz, Bool.false_eq_true, if_false, ne_eq, not_true_eq_false]
      exact ⟨_, rfl, by rw [writeFd_pages, writeFd_pages]⟩
    obtain ⟨p', hrun, hp'⟩ := hrun
    have hfd : ∀ i < 32, p'.pages (index2fd i) = q.pages (index2fd i) := fun i hi => by
      rw [hp', hp3, Function.update_of_ne (index2fd_ne_fd2data hi h.lt1), hp2,
        Function.update_of_ne (index2fd_ne_fd2data hi h.lt0)]
    rw [hrun]
    refine ⟨rfl, h.ne, ⟨h.free0, h.free1⟩, ⟨?_, ?_⟩, f, ?_, ?_⟩
    · rw [hfd fd0 h.lt0]
      exact h.mapped.1
    · rw [hfd fd1 h.lt1]
      exact h.mapped.2
    · rw [hp', hp3, Function.update_of_ne (fd2data_ne h.lt0 h.lt1 h.ne), hsrc]
    · rw [hp', hp3, Function.update_self]
  · rw [ho2] at hno
    exact absurd hok hno

/-- If the data page cannot be mapped twice, all three pages go. -/
theorem pipeData_refused (pfd : ℕ × ℕ) {f : Frame} {s : σ}
    (hm : S.memAlloc (fd2data fd0) sharedPerm q.out = (.ok f, s))
    (hno : (S.memMap (fd2data fd0) (fd2data fd1) sharedPerm s).1 ≠ .ok ()) :
    ∃ e p', pipeData S pfd fd0 fd1 q = (retWord (.error e), pfd, p') ∧
      p'.pages = Function.update (Function.update (Function.update q.pages (fd2data fd0) none)
        (index2fd fd1) none) (index2fd fd0) none := by
  obtain ⟨p2, hc2, hp2, ho2⟩ := memAlloc_of_ok hm
  have hsrc : p2.pages (fd2data fd0) = some ⟨f, sharedPerm⟩ := by
    rw [hp2, Function.update_self]
  rcases memMap_cases S (fd2data fd1) sharedPerm hsrc with
    ⟨hok, -⟩ | ⟨-, e, p3, hc3, hp3⟩
  · rw [ho2] at hok
    exact absurd hok hno
  · refine ⟨e, memUnmap (index2fd fd0) (memUnmap (index2fd fd1) (memUnmap (fd2data fd0) p3)),
      ?_, ?_⟩
    · have hz : (0#32).slt 0#32 = false := rfl
      rw [pipeData]
      simp only [hc2, hc3, hz, Bool.false_eq_true, if_false, ne_eq, not_true_eq_false, retWord_slt,
        if_true]
    · simp only [memUnmap, Space.map, hp3, hp2, Function.update_idem]

/-- The page of the second descriptor, and all that comes after it. -/
theorem pipe_two {pfd : ℕ × ℕ} {f0 f1 : Frame} {s0 s1 : σ} (h0 : fdAlloc p.pages = some fd0)
    (hm0 : S.memAlloc (index2fd fd0) sharedPerm p.out = (.ok f0, s0))
    (h1 : fdAlloc (Function.update p.pages (index2fd fd0) (some ⟨f0, sharedPerm⟩)) = some fd1)
    (hm1 : S.memAlloc (index2fd fd1) sharedPerm s0 = (.ok f1, s1)) :
    PipeClean S pfd p ↔ ∃ f s2, S.memAlloc (fd2data fd0) sharedPerm s1 = (.ok f, s2) ∧
      (p.pages (fd2data fd0) = none ∨
        (S.memMap (fd2data fd0) (fd2data fd1) sharedPerm s2).1 = .ok ()) := by
  obtain ⟨q, rfl, h, hpipe⟩ := pipe_of_two pfd h0 hm0 h1 hm1
  rcases hm2 : S.memAlloc (fd2data fd0) sharedPerm q.out with ⟨e | f, s2⟩
  · have hrun := pipeData_full pfd fd1 hm2
    refine iff_of_false ?_ (by rintro ⟨f, s2', heq, -⟩; cases heq)
    rintro (⟨hr, -⟩ | ⟨hr, -⟩)
    · rw [hpipe, hrun] at hr
      cases hr
    · rw [hpipe, hrun] at hr
      cases hr
  · by_cases hok : (S.memMap (fd2data fd0) (fd2data fd1) sharedPerm s2).1 = .ok ()
    · refine iff_of_true (.inl ?_) ⟨f, s2, rfl, .inr hok⟩
      rw [hpipe]
      exact pipeData_made h pfd hm2 hok
    · obtain ⟨e, p', hrun, hpages⟩ := pipeData_refused pfd hm2 hok
      rw [← hpipe] at hrun
      constructor
      · rintro (⟨hr, -⟩ | ⟨-, hsame⟩)
        · rw [hrun] at hr
          exact absurd hr (retWord_ne e)
        · -- what was in the window is gone
          have hlow : fdTable ≤ fd2data fd0 := by
            rw [BitVec.le_def, fd2data_toNat h.lt0]
            exact Nat.le_trans (by decide) (Nat.le_add_right _ _)
          have hhigh : (fd2data fd0).toNat < 0x68000000 := by
            have := h.lt0
            rw [fd2data_toNat h.lt0]
            omega
          have hgone := hsame (fd2data fd0) hlow hhigh
          rw [hrun, hpages, Function.update_of_ne (index2fd_ne_fd2data h.lt0 h.lt0).symm,
            Function.update_of_ne (index2fd_ne_fd2data h.lt1 h.lt0).symm,
            Function.update_self] at hgone
          exact ⟨f, s2, rfl, .inl hgone.symm⟩
      · rintro ⟨f', s2', heq, hempty | hok'⟩
        · refine pipeClean_of_refused hrun (retWord_slt e) ?_
          rw [hpages, ← h.undo, ← h.data.trans hempty, Function.update_eq_self]
        · cases heq
          exact absurd hok' hok

end TwoFds

theorem pipe_clean_iff (pfd : ℕ × ℕ) : PipeClean S pfd p ↔ PipeSafe S p := by
  cases h0 : fdAlloc p.pages with
  | none =>
    refine iff_of_true (pipeClean_of_refused (q := p) (r := eMaxOpen) (x := pfd) ?_ rfl rfl) ?_
    · rw [pipe, h0]
    · intro fd0 _ _ _ _ _ hfd0
      rw [h0] at hfd0
      cases hfd0
  | some fd0 =>
    obtain ⟨-, hfree0⟩ := fdAlloc_spec h0
    have hz : (0#32).slt 0#32 = false := rfl
    rcases hm0 : S.memAlloc (index2fd fd0) sharedPerm p.out with ⟨e | f0, s0⟩
    · obtain ⟨p0, hc0, hp0⟩ := memAlloc_of_error hm0
      refine iff_of_true (pipeClean_of_refused (x := pfd) ?_ (retWord_slt e) hp0) ?_
      · rw [pipe, h0]
        simp only [hc0, retWord_slt, if_true]
      · rintro fd0' _ _ _ _ _ hfd0 hok
        cases h0.symm.trans hfd0
        cases hm0.symm.trans hok
    obtain ⟨p0, hc0, hp0, ho0⟩ := memAlloc_of_ok hm0
    cases h1 : fdAlloc p0.pages with
    | none =>
      refine iff_of_true (pipeClean_of_refused (x := pfd) (r := eMaxOpen)
        (q := memUnmap (index2fd fd0) p0) ?_ rfl ?_) ?_
      · rw [pipe, h0]
        simp only [hc0, hz, Bool.false_eq_true, if_false, h1]
      · simp only [memUnmap, Space.map, hp0, update_undo hfree0]
      · rintro fd0' _ _ _ _ _ hfd0 hok hfd1
        cases h0.symm.trans hfd0
        cases hm0.symm.trans hok
        rw [← hp0, h1] at hfd1
        cases hfd1
    | some fd1 =>
      rcases hm1 : S.memAlloc (index2fd fd1) sharedPerm s0 with ⟨e | f1, s1⟩
      · rw [← ho0] at hm1
        obtain ⟨p1, hc1, hp1⟩ := memAlloc_of_error hm1
        refine iff_of_true (pipeClean_of_refused (x := pfd) (q := memUnmap (index2fd fd0) p1)
          ?_ (retWord_slt e) ?_) ?_
        · rw [pipe, h0]
          simp only [hc0, hz, Bool.false_eq_true, if_false, h1, hc1, retWord_slt, if_true]
        · simp only [memUnmap, Space.map, hp1, hp0, update_undo hfree0]
        · rintro fd0' _ _ _ _ _ hfd0 hok hfd1 hok1
          cases h0.symm.trans hfd0
          cases hm0.symm.trans hok
          rw [← hp0] at hfd1
          cases h1.symm.trans hfd1
          rw [ho0] at hm1
          cases hm1.symm.trans hok1
      · rw [hp0] at h1
        rw [pipe_two h0 hm0 h1 hm1]
        constructor
        · rintro hsafe fd0' _ _ _ _ _ hfd0 hok hfd1 hok1
          cases h0.symm.trans hfd0
          cases hm0.symm.trans hok
          cases h1.symm.trans hfd1
          cases hm1.symm.trans hok1
          exact hsafe
        · exact fun hsafe => hsafe fd0 f0 s0 fd1 f1 s1 h0 hm0 h1 hm1

/-! ## The pages of a file -/

theorem fsipcMap_cases (S : Outside σ) (fileid offset dstva : Word) (p : Space σ) :
    ∃ p', p'.out = (S.mapFile fileid offset p.out).2 ∧
      (∀ va, p.pages va ≠ none → p'.pages va ≠ none) ∧
      ((∃ m, (S.mapFile fileid offset p.out).1 = .ok m) ∧
          fsipcMap S fileid offset dstva p = (0#32, p') ∨
        ∃ r : Refusal, (S.mapFile fileid offset p.out).1 = .error r ∧
          fsipcMap S fileid offset dstva p = (r.1, p')) := by
  unfold fsipcMap
  rcases S.mapFile fileid offset p.out with ⟨r | m, s⟩
  · exact ⟨{ p with out := s }, rfl, fun _ h => h, .inr ⟨r, rfl, rfl⟩⟩
  · cases m with
    | none => exact ⟨{ p with out := s }, rfl, fun _ h => h, .inl ⟨⟨_, rfl⟩, rfl⟩⟩
    | some m =>
      refine ⟨_, rfl, fun va h => ?_, .inl ⟨⟨_, rfl⟩, rfl⟩⟩
      by_cases hva : va = dstva
      · subst hva
        exact (Function.update_self va (some m) p.pages).trans_ne (Option.some_ne_none _)
      · exact (Function.update_of_ne hva (some m) p.pages).trans_ne h

theorem Refusal.ne_zero (r : Refusal) : r.1 ≠ 0#32 := by
  intro h
  have := r.2
  rw [h] at this
  cases this

/-- The loop returns 0 or a refusal, and keeps what is mapped. -/
theorem mapFile_result {ff : Filefd} {va : Word} {fuel : ℕ} {i r : Word} {p' : Space σ}
    (h : mapFile S ff va fuel i p = some (r, p')) :
    (r = 0#32 ∨ r.slt 0#32 = true) ∧ ∀ a, p.pages a ≠ none → p'.pages a ≠ none := by
  induction fuel generalizing i p with
  | zero => cases h
  | succ fuel ih =>
    rw [mapFile] at h
    obtain ⟨p₁, -, hkeep, hcall⟩ := fsipcMap_cases S ff.fileid i (va + i) p
    by_cases hi : i < ff.fSize
    · rw [if_pos hi] at h
      rcases hcall with ⟨-, hcall⟩ | ⟨r', -, hcall⟩
      · simp only [hcall, ne_eq, not_true_eq_false, if_false] at h
        obtain ⟨hr, hkeep'⟩ := ih h
        exact ⟨hr, fun a ha => hkeep' a (hkeep a ha)⟩
      · simp only [hcall, ne_eq, r'.ne_zero, not_false_eq_true, if_true] at h
        cases h
        exact ⟨.inr r'.2, hkeep⟩
    · rw [if_neg hi] at h
      cases h
      exact ⟨.inl rfl, fun _ ha => ha⟩

/-- The offset starts again at 0 before it comes to such a size. -/
theorem mapFile_endless {ff : Filefd} {va : Word} (hsize : ¬ff.fSize ≤ 0xfffff000#32) {fuel : ℕ}
    {i : Word} (hi : i.toNat % 4096 = 0) {p' : Space σ} :
    mapFile S ff va fuel i p ≠ some (0#32, p') := by
  induction fuel generalizing i p with
  | zero => exact fun h => by cases h
  | succ fuel ih =>
    have hlt : i < ff.fSize := by
      rw [BitVec.le_def, BitVec.toNat_ofNat] at hsize
      rw [BitVec.lt_def]
      omega
    have hnext : (i + 4096#32).toNat % 4096 = 0 := by
      rw [BitVec.toNat_add, BitVec.toNat_ofNat]
      omega
    obtain ⟨p₁, -, -, hcall⟩ := fsipcMap_cases S ff.fileid i (va + i) p
    rw [mapFile, if_pos hlt]
    rcases hcall with ⟨-, hcall⟩ | ⟨r', -, hcall⟩
    · simp only [hcall, ne_eq, not_true_eq_false, if_false]
      exact ih hnext
    · simp only [hcall, ne_eq, r'.ne_zero, not_false_eq_true, if_true]
      exact fun h => r'.ne_zero (Prod.ext_iff.mp (Option.some.inj h)).1

/-- The loop from page `k` on, `m` pages before the end. -/
theorem mapFile_iff {ff : Filefd} (va : Word) (hsize : ff.fSize ≤ 0xfffff000#32) {k m : ℕ}
    (hm : k + m = (ff.fSize.toNat + 4095) / 4096) :
    (∃ fuel p', mapFile S ff va fuel (BitVec.ofNat 32 (4096 * k)) p = some (0#32, p')) ↔
      GrantsFile S ff.fileid (List.range' k m) p.out := by
  rw [BitVec.le_def, BitVec.toNat_ofNat] at hsize
  induction m generalizing k p with
  | zero =>
    refine iff_of_true ⟨1, p, ?_⟩ trivial
    rw [mapFile, if_neg]
    rw [BitVec.lt_def, BitVec.toNat_ofNat]
    omega
  | succ m ih =>
    have hi : BitVec.ofNat 32 (4096 * k) < ff.fSize := by
      rw [BitVec.lt_def, BitVec.toNat_ofNat]
      omega
    have hnext : BitVec.ofNat 32 (4096 * k) + 4096#32 = BitVec.ofNat 32 (4096 * (k + 1)) := by
      rw [← BitVec.ofNat_add, Nat.mul_succ]
    obtain ⟨p₁, hout, -, hcall⟩ := fsipcMap_cases S ff.fileid (BitVec.ofNat 32 (4096 * k))
      (va + BitVec.ofNat 32 (4096 * k)) p
    have hrest := ih (p := p₁) (k := k + 1) (by omega)
    rw [List.range'_succ, GrantsFile, ← hout, ← hrest]
    rcases hcall with ⟨hok, hcall⟩ | ⟨r', hno, hcall⟩
    · have hstep : ∀ fuel, mapFile S ff va (fuel + 1) (BitVec.ofNat 32 (4096 * k)) p =
          mapFile S ff va fuel (BitVec.ofNat 32 (4096 * (k + 1))) p₁ := fun fuel => by
        simp only [mapFile, if_pos hi, hcall, ne_eq, not_true_eq_false, if_false, hnext]
      constructor
      · rintro ⟨_ | fuel, p', h⟩
        · cases h
        · exact ⟨hok, fuel, p', (hstep fuel) ▸ h⟩
      · rintro ⟨-, fuel, p', h⟩
        exact ⟨fuel + 1, p', (hstep fuel).trans h⟩
    · refine iff_of_false ?_ ?_
      · rintro ⟨_ | fuel, p', h⟩
        · cases h
        · simp only [mapFile, if_pos hi, hcall, ne_eq, r'.ne_zero, not_false_eq_true,
            if_true] at h
          exact r'.ne_zero (Prod.ext_iff.mp (Option.some.inj h)).1
      · rintro ⟨⟨m', hok⟩, -⟩
        rw [hno] at hok
        cases hok

/-! ## `open` -/

theorem openClean_of_refused {path : List Byte} {mode r : Word} {q : Space σ}
    (h : openFile S 0 path mode p = some (r, q)) (hp : q.pages = p.pages) :
    OpenClean S path mode p :=
  ⟨0, r, q, h, fun _ va _ _ => congrFun hp va⟩

theorem number_slt : ∀ fd < 32, (BitVec.ofNat 32 fd).slt 0#32 = false := by
  decide

/-- `open` once the page of the descriptor is there. -/
theorem open_opened {path : List Byte} {mode : Word} {fd : ℕ} (ff : Filefd) (q : Space σ)
    (hfd : fdAlloc p.pages = some fd) (hpage : q.pages (index2fd fd) ≠ none)
    (hrun : ∀ fuel, openFile S fuel path mode p =
      (mapFile S ff (fd2data fd) fuel 0#32 q).bind fun x =>
        if x.1 ≠ 0#32 then some x else some (BitVec.ofNat 32 fd, x.2)) :
    OpenClean S path mode p ↔ ff.fSize ≤ 0xfffff000#32 ∧
      GrantsFile S ff.fileid (List.range ((ff.fSize.toNat + 4095) / 4096)) q.out := by
  obtain ⟨hlt, hfree⟩ := fdAlloc_spec hfd
  have hloop : (∃ fuel p', mapFile S ff (fd2data fd) fuel 0#32 q = some (0#32, p')) ↔
      ff.fSize ≤ 0xfffff000#32 ∧
        GrantsFile S ff.fileid (List.range ((ff.fSize.toNat + 4095) / 4096)) q.out := by
    by_cases hsize : ff.fSize ≤ 0xfffff000#32
    · rw [List.range_eq_range', ← mapFile_iff (fd2data fd) hsize (Nat.zero_add _)]
      exact (and_iff_right hsize).symm
    · refine iff_of_false ?_ fun h => hsize h.1
      rintro ⟨fuel, p', h⟩
      exact mapFile_endless hsize rfl h
  rw [← hloop]
  constructor
  · rintro ⟨fuel, r, p', hopen, hclean⟩
    rw [hrun fuel] at hopen
    obtain ⟨⟨r', p''⟩, hmap, hres⟩ := Option.bind_eq_some_iff.mp hopen
    obtain ⟨hr, hkeep⟩ := mapFile_result hmap
    rcases hr with rfl | hr
    · exact ⟨fuel, p'', hmap⟩
    · have hne : r' ≠ 0#32 := Refusal.ne_zero ⟨r', hr⟩
      rw [if_pos hne] at hres
      cases hres
      have hlow : fdTable ≤ index2fd fd := by
        rw [BitVec.le_def, index2fd_toNat hlt]
        exact Nat.le_trans (by decide) (Nat.le_add_right _ _)
      have hhigh : (index2fd fd).toNat < 0x68000000 := by
        rw [index2fd_toNat hlt]
        omega
      exact absurd ((hclean hr _ hlow hhigh).trans hfree) (hkeep _ hpage)
  · rintro ⟨fuel, p', hmap⟩
    refine ⟨fuel, BitVec.ofNat 32 fd, p', by rw [hrun fuel, hmap]; rfl, fun hneg => ?_⟩
    rw [number_slt fd hlt] at hneg
    cases hneg

theorem open_clean_iff (path : List Byte) (mode : Word) :
    OpenClean S path mode p ↔ OpenSafe S path mode p := by
  cases hfd : fdAlloc p.pages with
  | none =>
    refine iff_of_true (openClean_of_refused (r := eMaxOpen) (q := p) ?_ rfl) ?_
    · rw [openFile, hfd]
    · intro fd hfd'
      rw [hfd] at hfd'
      cases hfd'
  | some fd =>
    obtain ⟨hlt, hfree⟩ := fdAlloc_spec hfd
    by_cases hlen : maxNameLen ≤ path.length
    · refine iff_of_true (openClean_of_refused (r := eBadPath) (q := p) ?_ rfl)
        fun _ _ h => absurd h (Nat.not_lt.mpr hlen)
      rw [openFile, hfd]
      simp only [fsipcOpen, if_pos hlen]
      rfl
    have hsafe : OpenSafe S path mode p ↔ ReplySafe S fd (S.openFile path mode p.out) :=
      ⟨fun h => h fd hfd (Nat.not_le.mp hlen), fun h fd' hfd' _ => by
        cases hfd.symm.trans hfd'
        exact h⟩
    rw [hsafe]
    rcases hreply : S.openFile path mode p.out with ⟨r | _ | ⟨m, ff⟩, s⟩
    · -- the server refuses
      refine iff_of_true (openClean_of_refused (r := r.1) (q := { p with out := s }) ?_ rfl) trivial
      rw [openFile, hfd]
      simp only [fsipcOpen, if_neg hlen, hreply, ne_eq, r.ne_zero, not_false_eq_true, if_true]
    · -- a reply without a page
      rcases hfault : S.fault (index2fd fd) s with ⟨_ | m, s'⟩
      · refine iff_of_false ?_ (fun h => h (by rw [hfault]))
        rintro ⟨fuel, r, p', hopen, -⟩
        rw [openFile, hfd] at hopen
        simp only [fsipcOpen, if_neg hlen, hreply, ne_eq, not_true_eq_false, if_false,
          readFilefd, hfree, hfault] at hopen
        cases hopen
      · have hmapped : (S.fault (index2fd fd) s).1 ≠ none := by
          rw [hfault]
          exact Option.some_ne_none m
        rw [open_opened ⟨0#32, 0#32, 0#32, 0#32⟩ { (p.map (index2fd fd) (some m)).setFd m.frame
          ⟨0#32, 0#32, 0#32, 0#32⟩ with out := s' } hfd ?_ ?_]
        · exact iff_of_true ⟨by decide, trivial⟩ hmapped
        · exact (Function.update_self (index2fd fd) (some m) p.pages).trans_ne (Option.some_ne_none m)
        · intro fuel
          rw [openFile, hfd]
          simp only [fsipcOpen, if_neg hlen, hreply, ne_eq, not_true_eq_false, if_false,
            readFilefd, hfree, hfault]
          rfl
    · obtain ⟨p₁, hp₁⟩ : ∃ p₁ : Space σ,
          p₁ = { (p.map (index2fd fd) (some m)).setFd m.frame ff with out := s } := ⟨_, rfl⟩
      have hpage : p₁.pages (index2fd fd) = some m := by
        rw [hp₁]
        exact Function.update_self (index2fd fd) (some m) p.pages
      have hff : p₁.fds m.frame = ff := by
        rw [hp₁]
        exact Function.update_self m.frame ff p.fds
      rw [open_opened ff p₁ hfd (hpage.trans_ne (Option.some_ne_none m)) ?_, hp₁]
      · rfl
      · intro fuel
        rw [openFile, hfd]
        simp only [fsipcOpen, if_neg hlen, hreply, ne_eq, not_true_eq_false, if_false, ← hp₁,
          readFilefd, hpage, hff]
        rfl

end Descriptors

/-- Which calls create descriptors or leave the pages as they were. -/
theorem descriptors_clean_iff {σ : Type} (S : Outside σ) (p : Space σ) (path : List Byte)
    (mode : Word) (pfd : ℕ × ℕ) :
    (OpenClean S path mode p ↔ OpenSafe S path mode p) ∧
      (PipeClean S pfd p ↔ PipeSafe S p) :=
  ⟨open_clean_iff path mode, pipe_clean_iff pfd⟩

/-- Memory for `n` pages, and a file of one page that cannot be had. -/
def scarce : Outside ℕ where
  memAlloc _ _ n := if n = 0 then (.error .noMem, 0) else (.ok 0, n - 1)
  memMap _ _ _ n := if n = 0 then (.error .noMem, 0) else (.ok (), n)
  openFile _ _ n := (.ok (some (⟨0, sharedPerm⟩, ⟨102#32, 0#32, 0#32, 4096#32⟩)), n)
  mapFile _ _ n := (.error ⟨eNoDisk, rfl⟩, n)
  fault _ n := (none, n)

def bare (n : ℕ) : Space ℕ where
  pages _ := none
  fds _ := ⟨0#32, 0#32, 0#32, 0#32⟩
  out := n

/-- `open` where the page of the file is refused, and `pipe` without memory for the data page. -/
theorem descriptors_fail : ¬OpenClean scarce [] 0#32 (bare 1) ∧ ¬PipeClean scarce (0, 0) (bare 2) := by
  constructor
  · rintro ⟨_ | fuel, r, p', h, hclean⟩
    · cases h
    · have hrun : openFile scarce (fuel + 1) [] 0#32 (bare 1) = some (eNoDisk,
          ((bare 1).map fdTable (some ⟨0, sharedPerm⟩)).setFd 0
            ⟨102#32, 0#32, 0#32, 4096#32⟩) := rfl
      rw [hrun] at h
      cases h
      exact absurd (hclean rfl fdTable (by decide) (by decide)) (by decide)
  · rintro (⟨h, -⟩ | ⟨h, -⟩)
    · exact absurd h (by decide)
    · exact absurd h (by decide)

/-! ## The calls of the kernel -/

section Kernel

open Kern

variable {L : Layout} {k k' : Kernel} {e : EnvIdx} {d : Frame} {pages : Word → Option Mapping}
  {va perm : Word} {r : Except Errno Unit}

/-- `pages` is what directory `d` maps below `UTOP`. -/
structure Shows (d : Frame) (k : Kernel) (pages : Word → Option Mapping) : Prop where
  pte : ∀ va : Word, va < utop → va.toNat % 4096 = 0 →
    k.pmap.pteOf d va = (pages va).elim 0#32 fun m => mkPte m.frame m.perm
  flags : ∀ va m, pages va = some m → FlagOnly m.perm

theorem vpn_ne {v : Word} (hv : v.toNat % 4096 = 0) (hva : va.toNat % 4096 = 0) (h : v ≠ va) :
    vpn v ≠ vpn va := by
  intro heq
  have := congrArg BitVec.toNat heq
  rw [vpn_toNat, vpn_toNat] at this
  exact h (BitVec.eq_of_toNat_eq (by omega))

/-- One entry is written, and no other that a program uses. -/
theorem Shows.update {X : Frame → Prop} {q : Pmap} {m : Option Mapping} (h : Shows d k pages)
    (hdir : k.pmap.Dir L d) (hal : va.toNat % 4096 = 0)
    (hl : Leaves L (fun x v => ¬(x = d ∧ vpn v = vpn va)) X k.pmap q)
    (hpte : q.pteOf d va = m.elim 0#32 fun m => mkPte m.frame m.perm)
    (hfl : ∀ m', m = some m' → FlagOnly m'.perm) :
    Shows d (k.setPmap q) (Function.update pages va m) where
  pte v hv hv4 := by
    by_cases heq : v = va
    · subst heq
      rw [Function.update_self]
      exact hpte
    · rw [Function.update_of_ne heq, ← h.pte v hv hv4]
      exact hl.pte d v hdir hv fun hno => vpn_ne hv4 hal heq hno.2
  flags v m' hm := by
    by_cases heq : v = va
    · subst heq
      rw [Function.update_self] at hm
      exact hfl m' hm
    · rw [Function.update_of_ne heq] at hm
      exact h.flags v m' hm

/-- A failed `e_mem_alloc` has moved no translation. -/
theorem eMemAlloc_fails (h : Filled L e d k) (hcur : k.curenv = some e)
    (hva : isIllegalVa va = false) (hfl : FlagOnly perm) {x : Errno}
    (hrun : eMemAlloc 0#32 va perm k = .ok (.error x, k')) (v : Word) :
    k'.pmap.pteOf d v = k.pmap.pteOf d v := by
  have htarget := target_zero hcur true
  obtain ⟨hdir, huser⟩ := h.isDir
  have hI := h.spaces.inv
  cases ha : k.pmap.pageAlloc with
  | error y =>
    have hnil : k.pmap.pageFreeList = [] := by
      unfold Pmap.pageAlloc at ha
      split at ha
      · assumption
      · cases ha
    rw [eMemAlloc_nil hva htarget hnil] at hrun
    cases hrun
    rfl
  | ok x =>
    obtain ⟨f, s₁⟩ := x
    have hk := Pmap.kept_alloc hI ha
    have hown := huser.own (pdx va) (personal_of_lt (lt_utop_of_legal hva))
    obtain ⟨-, -, href, -, -, -, hb, hr⟩ := hI.alloc ha
    have hzero : L.base f + s₁.refs L f < 65535 := by
      rw [← hk.inv.count f, href, hI.count f, hb, hr]
      decide
    rcases Pmap.pageInsert_spec hk.inv (hk.dirs d hdir)
      (Pmap.counted_of_own hk.inv.toForest hown) hfl (Pmap.not_free_of_alloc hI ha)
      (fun _ => hzero) with ⟨p, hp, -⟩ | ⟨hp, -⟩
    · rw [eMemAlloc_ok hva htarget h.dir ha hp] at hrun
      cases hrun
    · rw [eMemAlloc_ok hva htarget h.dir ha hp] at hrun
      cases hrun
      exact Pmap.pteOf_alloc hI hdir ha v

/-- What `memAlloc` does to the pages is what `e_mem_alloc` does to the caller's directory. -/
theorem memAlloc_kernel {σ : Type} {p : Space σ} (h : Filled L e d k) (hcur : k.curenv = some e)
    (hs : Shows d k p.pages) (hva : isIllegalVa va = false) (hal : va.toNat % 4096 = 0)
    (hfl : FlagOnly perm) (hrun : eMemAlloc 0#32 va perm k = .ok (r, k')) :
    ∃ x : Except Errno Frame, ∀ (S : Outside σ) (s : σ), S.memAlloc va perm p.out = (x, s) →
      (memAlloc S va perm p).1 = retWord (r.map fun _ => 0#32) ∧
        Shows d k' (memAlloc S va perm p).2.pages := by
  cases r with
  | error x =>
    refine ⟨.error x, fun S s hans => ?_⟩
    obtain ⟨p', hcall, hp'⟩ := memAlloc_of_error hans
    rw [hcall, hp']
    refine ⟨rfl, ⟨fun v hv hv4 => ?_, hs.flags⟩⟩
    rw [eMemAlloc_fails h hcur hva hfl hrun]
    exact hs.pte v hv hv4
  | ok u =>
    obtain ⟨-, f, s₁, ha, hins⟩ := memAlloc_of_run (target_zero hcur true) h.dir hrun
    rw [← Pmap.setPage_self s₁ f] at hins
    obtain ⟨q, rfl, hinserted, -, -, -, -, hl⟩ :=
      fresh_of_run h ha (lt_utop_of_legal hva) hfl (s₁.mem f) hins
    refine ⟨.ok f, fun S s hans => ?_⟩
    obtain ⟨p', hcall, hp', -⟩ := memAlloc_of_ok hans
    rw [hcall, hp']
    exact ⟨rfl, hs.update h.isDir.1 hal hl hinserted.pte fun m' hm => by cases hm; exact hfl⟩

theorem memMap_kernel {σ : Type} {p : Space σ} {srcva : Word} {m : Mapping} (h : Filled L e d k)
    (hcur : k.curenv = some e) (hs : Shows d k p.pages) (hsrc : isIllegalVa srcva = false)
    (hsal : srcva.toNat % 4096 = 0) (hva : isIllegalVa va = false) (hal : va.toNat % 4096 = 0)
    (hm : p.pages srcva = some m) (href : (k.pmap.ppRef m.frame).toNat < 65535)
    (hfl : FlagOnly perm) (hrun : eMemMap 0#32 srcva 0#32 va perm k = .ok (r, k')) :
    ∀ (S : Outside σ) (s : σ), S.memMap srcva va perm p.out = (r, s) →
      (memMap S srcva va perm p).1 = retWord (r.map fun _ => 0#32) ∧
        Shows d k' (memMap S srcva va perm p).2.pages := by
  intro S s hans
  have hf : entryFrame (k.pmap.pteOf d srcva) = some m.frame := by
    rw [hs.pte srcva (lt_utop_of_legal hsrc) hsal, hm]
    exact entryFrame_mkPte m.frame (hs.flags srcva m hm)
  unfold memMap
  rw [hm]
  rcases memMap_result h h (target_zero hcur true) (target_zero hcur false) hsrc hva hf href hfl with
    ⟨q, hins, hok⟩ | hno
  · rw [hok] at hrun
    cases hrun
    obtain ⟨hdir, huser⟩ := h.isDir
    have hI := h.spaces.inv
    obtain ⟨hdata, hff⟩ := Leaves.mapped hI hdir huser (lt_utop_of_legal hsrc) hf
    have hown := huser.own (pdx va) (personal_of_lt (lt_utop_of_legal hva))
    have hl : Leaves L (fun x v => ¬(x = d ∧ vpn v = vpn va)) (fun _ => False) k.pmap q :=
      .insert hI hdir hown hfl hdata hff (fun v hv => not_not.mpr ⟨rfl, hv⟩) hins
    simp only [hans]
    exact ⟨rfl, hs.update hdir hal hl hins.pte fun m' hm' => by cases hm'; exact hfl⟩
  · rw [hno] at hrun
    cases hrun
    simp only [hans]
    exact ⟨rfl, hs⟩

/-- `e_mem_unmap` succeeds. -/
theorem memUnmap_kernel {σ : Type} {p : Space σ} (h : Filled L e d k) (hcur : k.curenv = some e)
    (hs : Shows d k p.pages) (hva : isIllegalVa va = false) (hal : va.toNat % 4096 = 0) :
    ∃ k', eMemUnmap 0#32 va k = .ok (.ok (), k') ∧ Shows d k' (memUnmap va p).pages := by
  obtain ⟨hdir, huser⟩ := h.isDir
  have hI := h.spaces.inv
  have hown := huser.own (pdx va) (personal_of_lt (lt_utop_of_legal hva))
  obtain ⟨q, hq, hrem⟩ := Pmap.pageRemove_spec hI hdir (Pmap.counted_of_own hI.toForest hown)
  have hl : Leaves L (fun x v => ¬(x = d ∧ vpn v = vpn va)) (fun _ => False) k.pmap q :=
    .remove hI hdir hown (fun v hv => not_not.mpr ⟨rfl, hv⟩) hrem
  exact ⟨_, eMemUnmap_ok hva (target_zero hcur true) h.dir hq,
    hs.update hdir hal hl hrem.clear fun m' hm' => by cases hm'⟩

end Kernel

end User
end RvMos
