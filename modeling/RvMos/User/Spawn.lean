/-
Failures of `spawn` (`user/lib/spawn.c`) and `fork` (`user/lib/fork.c`).

Whatever the calls of the two answer is a value of `Answers`; `init_stack` and
`elf_load_seg` are calls here, with the page at `UTEMP` that they borrow in the caller.
`Parent` records what has happened outside the caller: the child, the descriptor of
the program, and the ids of the environments that a call has changed.  A call by id looks
at the low bits of the id only (`ENVX`), so that a call on an error code can succeed.
-/
import RvMos.Kern.Ecall
import RvMos.User.File

namespace RvMos
namespace User

open Kern (retWord retWord_slt retWord_ne)

def eNotExec : Word := BitVec.ofInt 32 (-13)

/-- `sizeof(Elf32_Ehdr)` -/
def ehdrSize : Word := 52#32
def ptLoad : Word := 1#32

/-- The bits of an entry that the calls take: `0xc00003ff`. -/
def permBits : Word := 0xc00003ff#32

/-- `elfbuf`, read as `Elf32_Ehdr` and as `Elf32_Phdr`.  The program headers are read over the
header of the file. -/
structure ElfBuf where
  /-- `elf_from` does not return `NULL` -/
  isElf : Bool
  entry : Word
  phoff : Word
  phentsize : BitVec 16
  phnum : BitVec 16
  pType : Word
  pOffset : Word

structure Answers (σ : Type) where
  openFile : σ → Word × σ
  readn : Word → σ → (Word × ElfBuf) × σ
  seek : Word → σ → Word × σ
  readMap : Word → σ → Word × σ
  close : σ → σ
  exofork : σ → Except Errno Word × σ
  /-- with the stack pointer, if the page of the arguments has been mapped -/
  initStack : Word → σ → Except Errno Word × σ
  /-- with `true` if some page has been mapped or unmapped in the environment -/
  loadSeg : Word → ElfBuf → σ → (Except Errno Unit × Bool) × σ
  setTrapframe : Word → Word → Word → σ → Except Errno Unit × σ
  /-- the entry of a page of the caller; zero where there is no table -/
  vpt : ℕ → σ → Word
  /-- a page of the caller, under its own address in the environment -/
  memMap : Word → ℕ → Word → σ → Except Errno Unit × σ
  setEnvStatus : Word → σ → Except Errno Unit × σ
  setCowEntry : Word → σ → Except Errno Unit × σ
  /-- of an environment that is not the child -/
  envDestroy : Word → σ → Except Errno Unit × σ

structure Parent (σ : Type) where
  out : σ
  child : Option Word
  started : Bool
  destroyed : Bool
  opened : ℕ
  closed : ℕ
  /-- the ids of the environments that have changed; 0 is the caller -/
  touched : List Word

section Calls

variable {σ : Type} (S : Answers σ)

def Parent.start (s : σ) : Parent σ := ⟨s, none, false, false, 0, 0, []⟩

/-- A call that changes environment `id` if it succeeds. -/
def onEnv {α : Type} (call : σ → Except Errno α × σ) (id : Word) (w : Parent σ) :
    Except Errno α × Parent σ :=
  match call w.out with
  | (.error e, out) => (.error e, { w with out })
  | (.ok a, out) => (.ok a, { w with out, touched := id :: w.touched })

def close (w : Parent σ) : Parent σ := { w with out := S.close w.out, closed := w.closed + 1 }

def exofork (w : Parent σ) : Word × Parent σ :=
  match S.exofork w.out with
  | (.error e, out) => (retWord (.error e), { w with out })
  | (.ok id, out) => (id, { w with out, child := some id })

def envDestroy (id : Word) (w : Parent σ) : Parent σ :=
  if w.child = some id then { w with destroyed := true } else (onEnv (S.envDestroy id) id w).2

def elfLoadSeg (id : Word) (buf : ElfBuf) (w : Parent σ) : Except Errno Unit × Parent σ :=
  let ((r, touches), out) := S.loadSeg id buf w.out
  (r, { w with out, touched := if touches then id :: w.touched else w.touched })

/-- The loop over the program headers, from number `i` at `off` on: whether none has failed.
`e_phnum` has 16 bits, so that the fuel is not used up before. -/
def loadSegments (child : Word) : ℕ → ℕ → Word → ElfBuf → Parent σ → Bool × Parent σ
  | 0, _, _, _, w => (true, w)
  | fuel + 1, i, off, buf, w =>
    if i < buf.phnum.toNat then
      let (x, out) := S.seek off w.out
      if x ≠ 0#32 then (false, { w with out })
      else
        let ((n, buf), out) := S.readn (buf.phentsize.setWidth 32) out
        if n ≠ buf.phentsize.setWidth 32 then (false, { w with out })
        else if buf.pType = ptLoad then
          let (x, out) := S.readMap buf.pOffset out
          if x ≠ 0#32 then (false, { w with out })
          else
            match elfLoadSeg S child buf { w with out } with
            | (.error _, w) => (false, w)
            | (.ok (), w) =>
              loadSegments child fuel (i + 1) (off + buf.phentsize.setWidth 32) buf w
        else
          loadSegments child fuel (i + 1) (off + buf.phentsize.setWidth 32) buf { w with out }
    else (true, w)

/-- The loop over the page tables. -/
def shareLibrary (child : Word) : List ℕ → Parent σ → Except Errno Unit × Parent σ
  | [], w => (.ok (), w)
  | pn :: pns, w =>
    let perm := S.vpt pn w.out &&& permBits
    if perm &&& pteV ≠ 0#32 ∧ perm &&& pteLibrary ≠ 0#32 then
      match onEnv (S.memMap child pn perm) child w with
      | (.error e, w) => (.error e, w)
      | (.ok (), w) => shareLibrary child pns w
    else shareLibrary child pns w

/-- The pages of the tables up to that of `USTACKTOP`. -/
@[irreducible] def spawnPages : List ℕ := List.range (((ustacktop >>> 22).toNat + 1) * 1024)

/-- `err:` -/
def spawnErr (r : Word) (w : Parent σ) : Word × Parent σ := (r, close S w)

/-- `err1:` -/
def spawnErr1 (child r : Word) (w : Parent σ) : Word × Parent σ :=
  spawnErr S r (envDestroy S child w)

/-- `err2:` -/
def spawnErr2 (child r : Word) (w : Parent σ) : Word × Parent σ := (r, envDestroy S child w)

/-- `spawn` from `ecall_set_trapframe` on. -/
def startChild (child entry sp : Word) (w : Parent σ) : Word × Parent σ :=
  match onEnv (S.setTrapframe child entry sp) child w with
  | (.error e, w) => spawnErr2 S child (retWord (.error e)) w
  | (.ok (), w) =>
    match shareLibrary S child spawnPages w with
    | (.error e, w) => spawnErr2 S child (retWord (.error e)) w
    | (.ok (), w) =>
      match onEnv (S.setEnvStatus child) child w with
      | (.error e, w) => spawnErr2 S child (retWord (.error e)) w
      | (.ok (), w) => (child, { w with started := w.child = some child })

def spawn (w : Parent σ) : Word × Parent σ :=
  let (fd, out) := S.openFile w.out
  if fd.slt 0#32 then (fd, { w with out })
  else
    let ((r, buf), out) := S.readn ehdrSize out
    let w := { w with out, opened := w.opened + 1 }
    if r ≠ ehdrSize then spawnErr S eNotExec w
    else if buf.isElf = false then spawnErr S eNotExec w
    else
      let (child, w) := exofork S w
      -- `u_int child`
      if child < 0#32 then spawnErr S eNotExec w
      else
        match onEnv (S.initStack child) child w with
        | (.error _, w) => spawnErr1 S child r w
        | (.ok sp, w) =>
          match loadSegments S child 65536 0 buf.phoff buf w with
          | (false, w) => spawnErr1 S child r w
          | (true, w) => startChild S child buf.entry sp (close S w)

def duppage (envid : Word) (vpn : ℕ) (perm : Word) (w : Parent σ) : Parent σ :=
  if perm &&& pteW = 0#32 ∨ perm &&& pteLibrary = pteLibrary ∨ perm &&& pteCow = pteCow then
    (onEnv (S.memMap envid vpn perm) envid w).2
  else
    let perm := (perm ||| pteCow) &&& ~~~pteW
    let w := (onEnv (S.memMap envid vpn perm) envid w).2
    (onEnv (S.memMap 0#32 vpn perm) 0#32 w).2

/-- The pages below `USTACKTOP`. -/
@[irreducible] def forkPages : List ℕ := List.range (ustacktop >>> 12).toNat

def dupPages (child : Word) : List ℕ → Parent σ → Parent σ
  | [], w => w
  | i :: is, w =>
    if S.vpt i w.out &&& pteV ≠ 0#32 then
      dupPages child is (duppage S child i (S.vpt i w.out &&& permBits) w)
    else dupPages child is w

/-- The registration of `cow_entry`, unless it is there. -/
def registerCow (registered : Bool) (self : Word) (s : σ) : Except Errno Unit × σ :=
  if registered then (.ok (), s) else S.setCowEntry self s

def fork (registered : Bool) (self : Word) (w : Parent σ) : Word × Parent σ :=
  match registerCow S registered self w.out with
  | (.error e, out) => (retWord (.error e), { w with out })
  | (.ok (), out) =>
    let (child, w) := exofork S { w with out }
    if child = 0#32 then (0#32, w)
    else
      let w := dupPages S child forkPages w
      let w := (onEnv (S.setCowEntry child) child w).2
      let w := (onEnv (S.setEnvStatus child) child w).2
      (child, w)

end Calls

/-! ## Clean failures -/

/-- The child runs, or a negative result, no environment but the child changed, the child gone if
there was one, and the descriptor closed as often as it was opened. -/
def SpawnClean {σ : Type} (x : Word × Parent σ) : Prop :=
  x.2.started = true ∨
    x.1.slt 0#32 = true ∧ (∀ id ∈ x.2.touched, x.2.child = some id) ∧
      (x.2.child ≠ none → x.2.destroyed = true) ∧ x.2.closed = x.2.opened

/-- `fork` fails cleanly where `exofork` fails. -/
def ForkClean {σ : Type} (S : Answers σ) (registered : Bool) (self : Word) (s : σ) : Prop :=
  ∀ s₁ e s₂, registerCow S registered self s = (.ok (), s₁) → S.exofork s₁ = (.error e, s₂) →
    (fork S registered self (.start s)).1.slt 0#32 = true ∧
      (fork S registered self (.start s)).2.touched = []

/-- The calls for the program headers from number `i` on succeed. -/
def SegmentsLoad {σ : Type} (S : Answers σ) (child : Word) : ℕ → ℕ → Word → ElfBuf → σ → Prop
  | 0, _, _, _, _ => True
  | fuel + 1, i, off, buf, s =>
    i < buf.phnum.toNat →
      let (x, s) := S.seek off s
      let ((n, buf), s) := S.readn (buf.phentsize.setWidth 32) s
      let next := SegmentsLoad S child fuel (i + 1) (off + buf.phentsize.setWidth 32) buf
      x = 0#32 ∧ n = buf.phentsize.setWidth 32 ∧
        if buf.pType = ptLoad then
          let (y, s) := S.readMap buf.pOffset s
          let ((r, _), s) := S.loadSeg child buf s
          y = 0#32 ∧ r = .ok () ∧ next s
        else next s

/-- What was read is no program, or `exofork`, `init_stack` and the calls for the program headers
succeed. -/
def ProgramLoads {σ : Type} (S : Answers σ) : (Word × ElfBuf) × σ → Prop
  | ((r, buf), s) => r ≠ ehdrSize ∨ buf.isElf = false ∨
    ∃ child s₁ sp s₂, S.exofork s = (.ok child, s₁) ∧ S.initStack child s₁ = (.ok sp, s₂) ∧
      SegmentsLoad S child 65536 0 buf.phoff buf s₂

def SpawnSafe {σ : Type} (S : Answers σ) (s : σ) : Prop :=
  (S.openFile s).1.slt 0#32 = true ∨ ProgramLoads S (S.readn ehdrSize (S.openFile s).2)

/-- The call fails, and `k` holds of the rest. -/
def Refused {σ α : Type} (k : σ → Prop) : Except Errno α × σ → Prop
  | (.error _, s) => k s
  | (.ok _, _) => False

/-- The calls of `duppage` for these pages all fail. -/
def PagesStay {σ : Type} (S : Answers σ) (id : Word) (k : σ → Prop) : List ℕ → σ → Prop
  | [], s => k s
  | i :: is, s =>
    if S.vpt i s &&& pteV ≠ 0#32 then
      let perm := S.vpt i s &&& permBits
      if perm &&& pteW = 0#32 ∨ perm &&& pteLibrary = pteLibrary ∨ perm &&& pteCow = pteCow then
        Refused (PagesStay S id k is) (S.memMap id i perm s)
      else
        Refused (fun s => Refused (PagesStay S id k is)
          (S.memMap 0#32 i ((perm ||| pteCow) &&& ~~~pteW) s))
          (S.memMap id i ((perm ||| pteCow) &&& ~~~pteW) s)
    else PagesStay S id k is s

/-- Where `exofork` fails, all calls on its error code fail, and no page of the caller is mapped
again without `PTE_W`. -/
def ForkSafe {σ : Type} (S : Answers σ) (registered : Bool) (self : Word) (s : σ) : Prop :=
  ∀ s₁ e s₂, registerCow S registered self s = (.ok (), s₁) → S.exofork s₁ = (.error e, s₂) →
    PagesStay S (retWord (.error e))
      (fun s => Refused (fun s => Refused (fun _ => True) (S.setEnvStatus (retWord (.error e)) s))
        (S.setCowEntry (retWord (.error e)) s)) forkPages s₂

section Fork

variable {σ : Type} {S : Answers σ}

/-- From `w` on, `f` changes no environment exactly where `k` holds. -/
def Tracks (f : Parent σ → Parent σ) (k : σ → Prop) (w : Parent σ) : Prop :=
  (w.touched = [] → ((f w).touched = [] ↔ k w.out)) ∧ (w.touched ≠ [] → (f w).touched ≠ [])

theorem onEnv_error {α : Type} {call : σ → Except Errno α × σ} {id : Word} {w : Parent σ} {e : Errno}
    {out : σ} (h : call w.out = (.error e, out)) :
    onEnv call id w = (.error e, { w with out }) := by
  rw [onEnv, h]

theorem onEnv_ok {α : Type} {call : σ → Except Errno α × σ} {id : Word} {w : Parent σ} {a : α}
    {out : σ} (h : call w.out = (.ok a, out)) :
    onEnv call id w = (.ok a, { w with out, touched := id :: w.touched }) := by
  rw [onEnv, h]

theorem Tracks.onEnv {α : Type} {f : Parent σ → Parent σ} {k : σ → Prop} (h : ∀ w, Tracks f k w)
    (call : σ → Except Errno α × σ) (id : Word) (w : Parent σ) :
    Tracks (fun w => f (onEnv call id w).2) (fun s => Refused k (call s)) w := by
  unfold Tracks
  rcases hcall : call w.out with ⟨e | a, out⟩
  · simp only [onEnv_error hcall, hcall, Refused]
    exact h { w with out }
  · simp only [onEnv_ok hcall, hcall, Refused]
    have hne := (h { w with out, touched := id :: w.touched }).2 (List.cons_ne_nil _ _)
    exact ⟨fun _ => iff_of_false hne fun hr => hr, fun _ => hne⟩

theorem Tracks.dupPages {f : Parent σ → Parent σ} {k : σ → Prop} (h : ∀ w, Tracks f k w)
    (id : Word) (is : List ℕ) (w : Parent σ) :
    Tracks (fun w => f (dupPages S id is w)) (PagesStay S id k is) w := by
  induction is generalizing w with
  | nil => exact h w
  | cons i is ih =>
    unfold Tracks User.dupPages PagesStay
    by_cases hv : S.vpt i w.out &&& pteV ≠ 0#32
    · simp only [if_pos hv]
      unfold duppage
      by_cases hp : (S.vpt i w.out &&& permBits) &&& pteW = 0#32 ∨
          (S.vpt i w.out &&& permBits) &&& pteLibrary = pteLibrary ∨
            (S.vpt i w.out &&& permBits) &&& pteCow = pteCow
      · simp only [if_pos hp]
        exact Tracks.onEnv ih _ id w
      · simp only [if_neg hp]
        exact Tracks.onEnv (Tracks.onEnv ih _ 0#32) _ id w
    · simp only [if_neg hv]
      exact ih w

theorem fork_clean_iff (registered : Bool) (self : Word) (s : σ) :
    ForkClean S registered self s ↔ ForkSafe S registered self s := by
  have hiff : ∀ s₁ e s₂, registerCow S registered self s = (.ok (), s₁) →
      S.exofork s₁ = (.error e, s₂) →
      ((fork S registered self (.start s)).1.slt 0#32 = true ∧
        (fork S registered self (.start s)).2.touched = [] ↔
      PagesStay S (retWord (.error e))
        (fun s => Refused (fun s => Refused (fun _ => True) (S.setEnvStatus (retWord (.error e)) s))
          (S.setCowEntry (retWord (.error e)) s)) forkPages s₂) := by
    intro s₁ e s₂ hreg hfork
    have hne := retWord_ne e
    have hrun : fork S registered self (.start s) = (retWord (.error e),
        (onEnv (S.setEnvStatus (retWord (.error e))) (retWord (.error e))
          (onEnv (S.setCowEntry (retWord (.error e))) (retWord (.error e))
            (dupPages S (retWord (.error e)) forkPages (.start s₂))).2).2) := by
      unfold fork
      rw [show (Parent.start s).out = s from rfl, hreg]
      simp only [exofork, Parent.start, hfork, hne, if_false]
    have hlast : ∀ w : Parent σ, Tracks id (fun _ => True) w := fun w =>
      ⟨fun h => iff_of_true h trivial, fun h => h⟩
    have htrack := Tracks.dupPages (S := S) (Tracks.onEnv (Tracks.onEnv hlast
      (S.setEnvStatus (retWord (.error e))) (retWord (.error e)))
        (S.setCowEntry (retWord (.error e))) (retWord (.error e))) (retWord (.error e)) forkPages
          (.start s₂)
    rw [hrun]
    exact (and_iff_right (retWord_slt e)).trans (htrack.1 rfl)
  exact ⟨fun h s₁ e s₂ hreg hfork => (hiff s₁ e s₂ hreg hfork).mp (h s₁ e s₂ hreg hfork),
    fun h s₁ e s₂ hreg hfork => (hiff s₁ e s₂ hreg hfork).mpr (h s₁ e s₂ hreg hfork)⟩

end Fork

section Spawn

variable {σ : Type} {S : Answers σ} {w w' w'' : Parent σ} {c id r : Word}

/-- Calls on environment `id` have been made since. -/
structure Later (id : Word) (w w' : Parent σ) : Prop where
  child : w'.child = w.child
  started : w'.started = w.started
  opened : w'.opened = w.opened
  closed : w'.closed = w.closed
  keeps : ∀ x ∈ w.touched, x ∈ w'.touched
  only : ∀ x ∈ w'.touched, x ∈ w.touched ∨ x = id

theorem Later.out (id : Word) (w : Parent σ) (out : σ) : Later id w { w with out } :=
  ⟨rfl, rfl, rfl, rfl, fun _ h => h, fun _ h => .inl h⟩

theorem Later.touch (id : Word) (w : Parent σ) (out : σ) :
    Later id w { w with out, touched := id :: w.touched } :=
  ⟨rfl, rfl, rfl, rfl, fun _ h => .tail _ h, fun _ h => (List.mem_cons.mp h).symm⟩

theorem Later.trans (h : Later id w w') (h' : Later id w' w'') : Later id w w'' where
  child := h'.child.trans h.child
  started := h'.started.trans h.started
  opened := h'.opened.trans h.opened
  closed := h'.closed.trans h.closed
  keeps x hx := h'.keeps x (h.keeps x hx)
  only x hx := (h'.only x hx).elim (h.only x) .inr

theorem onEnv_later {α : Type} (call : σ → Except Errno α × σ) (id : Word) (w : Parent σ) :
    Later id w (onEnv call id w).2 := by
  rcases hcall : call w.out with ⟨e | a, out⟩
  · rw [onEnv_error hcall]
    exact .out id w out
  · rw [onEnv_ok hcall]
    exact .touch id w out

theorem elfLoadSeg_later (id : Word) (buf : ElfBuf) (w : Parent σ) :
    Later id w (elfLoadSeg S id buf w).2 := by
  unfold elfLoadSeg
  obtain ⟨⟨r, touches⟩, out⟩ := S.loadSeg id buf w.out
  cases touches with
  | false => exact .out id w out
  | true => exact .touch id w out

/-- The loop over the program headers. -/
theorem loadSegments_spec (fuel i : ℕ) (off : Word) (buf : ElfBuf) (w : Parent σ) :
    Later c w (loadSegments S c fuel i off buf w).2 ∧
      ((loadSegments S c fuel i off buf w).1 = true ↔
        SegmentsLoad S c fuel i off buf w.out) := by
  induction fuel generalizing i off buf w with
  | zero => exact ⟨.out c w w.out, iff_of_true rfl trivial⟩
  | succ fuel ih =>
    unfold loadSegments SegmentsLoad
    by_cases hi : i < buf.phnum.toNat
    · rcases S.seek off w.out with ⟨x, s₁⟩
      rcases hread : S.readn (buf.phentsize.setWidth 32) s₁ with ⟨⟨n, buf'⟩, s₂⟩
      simp only [hi, if_true, true_implies, hread, ne_eq, ite_not]
      by_cases hx : x = 0#32
      · by_cases hn : n = buf'.phentsize.setWidth 32
        · simp only [hx, hn, if_true, true_and]
          by_cases hp : buf'.pType = ptLoad
          · rcases hmap : S.readMap buf'.pOffset s₂ with ⟨y, s₃⟩
            simp only [hp, if_true, hmap]
            by_cases hy : y = 0#32
            · have hseg := elfLoadSeg_later (S := S) c buf' { w with out := s₃ }
              rcases hload : S.loadSeg c buf' s₃ with ⟨⟨e | u, t⟩, s₄⟩
              · simp only [elfLoadSeg, hload, hy, if_true, reduceCtorEq, false_and, and_false,
                  Bool.false_eq_true, and_true] at hseg ⊢
                exact (Later.out c w s₃).trans hseg
              · simp only [elfLoadSeg, hload, hy, if_true, true_and] at hseg ⊢
                obtain ⟨hlater, hiff⟩ := ih (i + 1) (off + buf'.phentsize.setWidth 32) buf'
                  { w with out := s₄, touched := if t then c :: w.touched else w.touched }
                exact ⟨((Later.out c w s₃).trans hseg).trans hlater, hiff⟩
            · simp only [hy, if_false, false_and, Bool.false_eq_true, and_true]
              exact .out c w s₃
          · simp only [hp, if_false]
            obtain ⟨hlater, hiff⟩ := ih (i + 1) (off + buf'.phentsize.setWidth 32) buf'
              { w with out := s₂ }
            exact ⟨(Later.out c w s₂).trans hlater, hiff⟩
        · simp only [hx, hn, if_true, if_false, false_and, and_false, Bool.false_eq_true, and_true]
          exact .out c w s₂
      · simp only [hx, if_false, false_and, Bool.false_eq_true, and_true]
        exact .out c w s₁
    · simp only [hi, if_false, false_implies, and_true]
      exact .out c w w.out

theorem shareLibrary_later (pns : List ℕ) (w : Parent σ) :
    Later c w (shareLibrary S c pns w).2 := by
  induction pns generalizing w with
  | nil => exact .out c w w.out
  | cons pn pns ih =>
    unfold shareLibrary
    dsimp only
    split
    · have hcall := onEnv_later (S.memMap c pn (S.vpt pn w.out &&& permBits)) c w
      rcases hmap : onEnv (S.memMap c pn (S.vpt pn w.out &&& permBits)) c w with ⟨e | u, w₁⟩
      · rw [hmap] at hcall
        exact hcall
      · rw [hmap] at hcall
        exact hcall.trans (ih w₁)
    · exact ih w

/-- Nothing but the child has changed, and the descriptor has been closed. -/
structure Own (c : Word) (w : Parent σ) : Prop where
  child : w.child = some c
  only : ∀ x ∈ w.touched, x = c

/-- An environment has changed, and there is no child. -/
structure Foreign (w : Parent σ) : Prop where
  child : w.child = none
  started : w.started = false
  changed : w.touched ≠ []

theorem Own.later (h : Own c w) (hl : Later c w w') : Own c w' where
  child := hl.child.trans h.child
  only x hx := (hl.only x hx).elim (h.only x) id

theorem Foreign.later (h : Foreign w) (hl : Later id w w') : Foreign w' where
  child := hl.child.trans h.child
  started := hl.started.trans h.started
  changed hnil := by
    obtain ⟨x, hx⟩ := List.exists_mem_of_ne_nil _ h.changed
    have := hl.keeps x hx
    rw [hnil] at this
    cases this

theorem Foreign.not_clean (h : Foreign w) (r : Word) : ¬SpawnClean (r, w) := by
  rintro (hs | ⟨-, honly, -⟩)
  · rw [h.started] at hs
    cases hs
  · obtain ⟨x, hx⟩ := List.exists_mem_of_ne_nil _ h.changed
    have := honly x hx
    rw [h.child] at this
    cases this

theorem Foreign.envDestroy (h : Foreign w) (id : Word) : Foreign (envDestroy S id w) := by
  unfold User.envDestroy
  rw [if_neg (by rw [h.child]; exact Option.some_ne_none id |>.symm)]
  exact h.later (onEnv_later _ id w)

theorem spawnErr2_clean (h : Own c w) (hclosed : w.closed = w.opened) (e : Errno) :
    SpawnClean (spawnErr2 S c (retWord (.error e)) w) := by
  refine .inr ⟨retWord_slt e, ?_⟩
  unfold spawnErr2 envDestroy
  rw [if_pos h.child]
  exact ⟨fun x hx => by rw [h.only x hx]; exact h.child, fun _ => rfl, hclosed⟩

/-- A positive result without a child that runs. -/
theorem not_clean_of_size (hs : w.started = false) : ¬SpawnClean (ehdrSize, w) := by
  rintro (h | ⟨h, -⟩)
  · rw [hs] at h
    cases h
  · exact absurd h (show ¬ehdrSize.slt 0#32 = true by decide)

/-- From `ecall_set_trapframe` on, what fails is cleared away. -/
theorem startChild_clean (h : Own c w) (hclosed : w.closed = w.opened) (entry sp : Word) :
    SpawnClean (startChild S c entry sp w) := by
  obtain ⟨pages, hpages⟩ : ∃ pages, pages = spawnPages := ⟨_, rfl⟩
  unfold startChild
  rw [← hpages]
  have h₁ := onEnv_later (S.setTrapframe c entry sp) c w
  rcases hset : onEnv (S.setTrapframe c entry sp) c w with ⟨e | u, w₁⟩
  · rw [hset] at h₁
    exact spawnErr2_clean (h.later h₁) (by rw [h₁.closed, h₁.opened, hclosed]) e
  rw [hset] at h₁
  dsimp only
  have h₂ := h₁.trans (shareLibrary_later (S := S) pages w₁)
  rcases hshare : shareLibrary S c pages w₁ with ⟨e | u, w₂⟩
  · rw [hshare] at h₂
    exact spawnErr2_clean (h.later h₂) (by rw [h₂.closed, h₂.opened, hclosed]) e
  rw [hshare] at h₂
  dsimp only
  have h₃ := h₂.trans (onEnv_later (S.setEnvStatus c) c w₂)
  rcases hstatus : onEnv (S.setEnvStatus c) c w₂ with ⟨e | u, w₃⟩
  · rw [hstatus] at h₃
    exact spawnErr2_clean (h.later h₃) (by rw [h₃.closed, h₃.opened, hclosed]) e
  · rw [hstatus] at h₃
    exact .inl (decide_eq_true (h.later h₃).child)

theorem Foreign.startChild (h : Foreign w) (c entry sp : Word) :
    ¬SpawnClean (startChild S c entry sp w) := by
  obtain ⟨pages, hpages⟩ : ∃ pages, pages = spawnPages := ⟨_, rfl⟩
  unfold User.startChild
  rw [← hpages]
  have h₁ := onEnv_later (S.setTrapframe c entry sp) c w
  rcases hset : onEnv (S.setTrapframe c entry sp) c w with ⟨e | u, w₁⟩
  · rw [hset] at h₁
    exact ((h.later h₁).envDestroy c).not_clean _
  rw [hset] at h₁
  dsimp only
  have h₂ := h₁.trans (shareLibrary_later (S := S) pages w₁)
  rcases hshare : shareLibrary S c pages w₁ with ⟨e | u, w₂⟩
  · rw [hshare] at h₂
    exact ((h.later h₂).envDestroy c).not_clean _
  rw [hshare] at h₂
  dsimp only
  have h₃ := h₂.trans (onEnv_later (S.setEnvStatus c) c w₂)
  rcases hstatus : onEnv (S.setEnvStatus c) c w₂ with ⟨e | ⟨⟩, w₃⟩
  · rw [hstatus] at h₃
    exact ((h.later h₃).envDestroy c).not_clean _
  · rw [hstatus] at h₃
    have hf := h.later h₃
    have hne : w₃.child ≠ some c := hf.child.trans_ne (Option.some_ne_none c).symm
    have hno : decide (w₃.child = some c) = false := decide_eq_false hne
    exact Foreign.not_clean (w := { w₃ with started := decide (w₃.child = some c) })
      ⟨hf.child, hno, hf.changed⟩ c

theorem envDestroy_started (hs : w.started = false) : (envDestroy S c w).started = false := by
  unfold envDestroy
  split
  · exact hs
  · exact (onEnv_later _ c w).started.trans hs

/-- A failure before there is a child. -/
theorem clean_of_nothing (hr : r.slt 0#32 = true) (hchild : w.child = none) (ht : w.touched = [])
    (hclosed : w.closed = w.opened) : SpawnClean (r, w) := by
  refine .inr ⟨hr, fun x hx => ?_, fun hne => absurd hchild hne, hclosed⟩
  rw [show ((r, w) : Word × Parent σ).2.touched = w.touched from rfl, ht] at hx
  cases hx

/-- `spawn` with a child, from `init_stack` on. -/
theorem spawn_child {n : ℕ} {buf : ElfBuf} (h : Own c w) (hstarted : w.started = false)
    (hclosed : w.closed + 1 = w.opened) :
    SpawnClean (match onEnv (S.initStack c) c w with
      | (.error _, w) => spawnErr1 S c ehdrSize w
      | (.ok sp, w) =>
        match loadSegments S c n 0 buf.phoff buf w with
        | (false, w) => spawnErr1 S c ehdrSize w
        | (true, w) => startChild S c buf.entry sp (close S w)) ↔
      ∃ sp s₂, S.initStack c w.out = (.ok sp, s₂) ∧
        SegmentsLoad S c n 0 buf.phoff buf s₂ := by
  rcases hstack : S.initStack c w.out with ⟨e | sp, s₂⟩
  · rw [onEnv_error hstack]
    refine iff_of_false (not_clean_of_size (envDestroy_started hstarted)) ?_
    rintro ⟨sp, s₂', heq, -⟩
    cases heq
  rw [onEnv_ok hstack]
  dsimp only
  obtain ⟨hlater, hiff⟩ := loadSegments_spec (S := S) (c := c) n 0 buf.phoff buf
    { w with out := s₂, touched := c :: w.touched }
  have hl := (Later.touch c w s₂).trans hlater
  have hcond : (∃ sp' s₂', (Except.ok sp, s₂) = ((Except.ok sp' : Except Errno Word), s₂') ∧
      SegmentsLoad S c n 0 buf.phoff buf s₂') ↔ SegmentsLoad S c n 0 buf.phoff buf s₂ :=
    ⟨fun ⟨_, _, heq, hload⟩ => by cases heq; exact hload, fun hload => ⟨sp, s₂, rfl, hload⟩⟩
  rw [hcond, ← hiff]
  rcases hload : loadSegments S c n 0 buf.phoff buf
    { w with out := s₂, touched := c :: w.touched } with ⟨_ | _, w'⟩
  · rw [hload] at hl
    exact iff_of_false (not_clean_of_size (envDestroy_started (hl.started.trans hstarted)))
      Bool.false_ne_true
  · rw [hload] at hl
    have hown := h.later hl
    have hclosed' : w'.closed + 1 = w'.opened := by
      rw [hl.closed, hl.opened]
      exact hclosed
    exact iff_of_true (startChild_clean (w := close S w') ⟨hown.child, hown.only⟩ hclosed'
      buf.entry sp) rfl

/-- `spawn` with an error code for a child. -/
theorem spawn_foreign {n : ℕ} {buf : ElfBuf} (hchild : w.child = none) (hstarted : w.started = false) :
    ¬SpawnClean (match onEnv (S.initStack c) c w with
      | (.error _, w) => spawnErr1 S c ehdrSize w
      | (.ok sp, w) =>
        match loadSegments S c n 0 buf.phoff buf w with
        | (false, w) => spawnErr1 S c ehdrSize w
        | (true, w) => startChild S c buf.entry sp (close S w)) := by
  rcases hstack : S.initStack c w.out with ⟨e | sp, s₂⟩
  · rw [onEnv_error hstack]
    exact not_clean_of_size (envDestroy_started hstarted)
  rw [onEnv_ok hstack]
  dsimp only
  obtain ⟨hlater, -⟩ := loadSegments_spec (S := S) (c := c) n 0 buf.phoff buf
    { w with out := s₂, touched := c :: w.touched }
  have hforeign : Foreign { w with out := s₂, touched := c :: w.touched } :=
    ⟨hchild, hstarted, List.cons_ne_nil _ _⟩
  have hf := hforeign.later hlater
  rcases hload : loadSegments S c n 0 buf.phoff buf
    { w with out := s₂, touched := c :: w.touched } with ⟨_ | _, w'⟩
  · rw [hload] at hf
    exact not_clean_of_size (envDestroy_started hf.started)
  · rw [hload] at hf
    exact Foreign.startChild (w := close S w') ⟨hf.child, hf.started, hf.changed⟩ c buf.entry sp

theorem spawn_clean_iff (s : σ) : SpawnClean (spawn S (.start s)) ↔ SpawnSafe S s := by
  unfold spawn SpawnSafe
  rcases hopen : S.openFile s with ⟨fd, s₁⟩
  rcases hread : S.readn ehdrSize s₁ with ⟨⟨r, buf⟩, s₂⟩
  simp only [Parent.start, hopen, hread, ProgramLoads]
  by_cases hfd : fd.slt 0#32 = true
  · simp only [hfd, if_true, true_or, iff_true]
    exact clean_of_nothing hfd rfl rfl rfl
  simp only [hfd, if_false, Bool.false_eq_true, false_or]
  by_cases hr : r = ehdrSize
  · subst hr
    by_cases helf : buf.isElf = false
    · rw [if_neg (not_not.mpr rfl), if_pos helf]
      exact iff_of_true (clean_of_nothing rfl rfl rfl rfl) (.inr (.inl helf))
    rw [if_neg (not_not.mpr rfl), if_neg helf]
    -- an unsigned number is not below 0
    simp only [ne_eq, not_true_eq_false, helf, reduceCtorEq, false_or, BitVec.not_lt_zero, if_false]
    rcases hfork : S.exofork s₂ with ⟨e | c, s₃⟩
    · simp only [exofork, hfork]
      refine iff_of_false (spawn_foreign rfl rfl) ?_
      rintro ⟨c, s₁', sp, s₂', heq, -⟩
      cases heq
    · simp only [exofork, hfork]
      rw [spawn_child ⟨rfl, fun x hx => by cases hx⟩ rfl rfl]
      exact ⟨fun ⟨sp, s₄, hstack, hload⟩ => ⟨c, s₃, sp, s₄, rfl, hstack, hload⟩,
        fun ⟨c', s₃', sp, s₄, heq, hstack, hload⟩ => by cases heq; exact ⟨sp, s₄, hstack, hload⟩⟩
  · rw [if_pos hr]
    exact iff_of_true (clean_of_nothing rfl rfl rfl rfl) (.inl hr)

end Spawn

/-- When `spawn` and `fork` fail cleanly. -/
theorem spawn_fork_clean_iff {σ : Type} (S : Answers σ) (registered : Bool) (self : Word) (s : σ) :
    (SpawnClean (spawn S (.start s)) ↔ SpawnSafe S s) ∧
      (ForkClean S registered self s ↔ ForkSafe S registered self s) :=
  ⟨spawn_clean_iff s, fork_clean_iff registered self s⟩

/-- Everything succeeds, with a program without segments, but for the calls given. -/
def answering (exofork initStack : Except Errno Word) (trapframe : Except Errno Unit) :
    Answers Unit where
  openFile s := (3#32, s)
  readn n s := ((n, ⟨true, 0x400000#32, 52#32, 32#16, 0#16, 0#32, 0#32⟩), s)
  seek _ s := (0#32, s)
  readMap _ s := (0#32, s)
  close s := s
  exofork s := (exofork, s)
  initStack _ s := (initStack, s)
  loadSeg _ _ s := ((.ok (), false), s)
  setTrapframe _ _ _ s := (trapframe, s)
  vpt _ _ := pteV ||| pteR
  memMap _ _ _ s := (.ok (), s)
  setEnvStatus _ s := (.ok (), s)
  setCowEntry _ s := (.ok (), s)
  envDestroy _ s := (.ok (), s)

/-- `init_stack` fails in a child; `exofork` fails in `spawn` and the error code is rejected only
by `ecall_set_trapframe`; `exofork` fails in `fork`. -/
theorem spawn_fork_fail :
    ¬SpawnClean (spawn (answering (.ok 2049#32) (.error .noMem) (.ok ())) (.start ())) ∧
      ¬SpawnClean (spawn (answering (.error .noFreeEnv) (.ok 0#32) (.error .badEnv)) (.start ())) ∧
      ¬ForkClean (answering (.error .noFreeEnv) (.ok 0#32) (.ok ())) true 0#32 () := by
  refine ⟨?_, ?_, ?_⟩
  · rw [spawn_clean_iff]
    rintro (h | h | h | ⟨_, _, _, _, -, hstack, -⟩)
    · cases h
    · exact h rfl
    · cases h
    · cases hstack
  · rw [spawn_clean_iff]
    rintro (h | h | h | ⟨_, _, _, _, hfork, -⟩)
    · cases h
    · exact h rfl
    · cases h
    · cases hfork
  · have hlen : (ustacktop >>> 12).toNat = 521213 + 1 := by decide
    have hpages : forkPages = 0 :: (List.range 521213).map Nat.succ := by
      unfold forkPages
      exact (congrArg List.range hlen).trans List.range_succ_eq_map
    intro h
    have hsafe := (fork_clean_iff true 0#32 ()).mp h () .noFreeEnv () rfl rfl
    rw [hpages] at hsafe
    exact hsafe

end User
end RvMos
