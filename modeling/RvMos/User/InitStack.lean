/-
The arguments of a new program (`init_stack` of `user/lib/spawn.c`).

The function runs in the parent.  It lays out a page at `UTEMP`, with the strings
at its end and the pointers before them, as it is to be seen at the top of the
child's stack, and then maps it there.  What it reads of its arguments it reads
again in every round, as the source does.
-/
import RvMos.User.LoadSegment
import RvMos.Kern.Counters

namespace RvMos

open Lib

/-! ## Words of a page -/

namespace Page

def word (pg : Page) (o : ℕ) : Word :=
  pg (Fin.ofNat 1024 (o / 4))

def putWord (pg : Page) (o : ℕ) (w : Word) : Page :=
  Function.update pg (Fin.ofNat 1024 (o / 4)) w

/-- Consecutive words from offset `o` on. -/
def putWords (pg : Page) (o : ℕ) : List Word → Page
  | [] => pg
  | w :: ws => putWords (pg.putWord o w) (o + 4) ws

theorem ofNat_quarter_ne {i o : ℕ} (hi : i < 4096) (ho : o < 4096) (h : i / 4 ≠ o / 4) :
    Fin.ofNat 1024 (i / 4) ≠ Fin.ofNat 1024 (o / 4) := by
  intro he
  have := congrArg Fin.val he
  simp only [Fin.ofNat] at this
  omega

theorem word_putWord {pg : Page} {o i : ℕ} {w : Word} (ho : o < 4096) (hi : i < 4096)
    (ho4 : o % 4 = 0) (hi4 : i % 4 = 0) :
    (pg.putWord o w).word i = if i = o then w else pg.word i := by
  unfold word putWord
  by_cases h : i = o
  · rw [if_pos h, h, Function.update_self]
  · rw [if_neg h, Function.update_of_ne (ofNat_quarter_ne hi ho (by omega))]

theorem byte_putWord {pg : Page} {o i : ℕ} {w : Word} (ho : o < 4096) (hi : i < 4096)
    (h : i / 4 ≠ o / 4) : (pg.putWord o w).byte i = pg.byte i := by
  unfold byte putWord
  rw [Function.update_of_ne (ofNat_quarter_ne hi ho h)]

theorem word_putWords {pg : Page} {ws : List Word} {o i : ℕ} (ho : o + 4 * ws.length ≤ 4096)
    (hi : i < 4096) (ho4 : o % 4 = 0) (hi4 : i % 4 = 0) :
    (pg.putWords o ws).word i =
      if o ≤ i ∧ i < o + 4 * ws.length then ws.getD ((i - o) / 4) 0#32 else pg.word i := by
  induction ws generalizing pg o with
  | nil => rw [if_neg (by simp)]; rfl
  | cons w ws ih =>
    simp only [List.length_cons] at ho
    rw [putWords, ih (by omega) (by omega), word_putWord (by omega) hi ho4 hi4]
    by_cases h : i = o
    · subst h
      rw [if_neg (by omega), if_pos rfl, if_pos (by simp only [List.length_cons]; omega),
        Nat.sub_self]
      rfl
    · by_cases hin : o + 4 ≤ i ∧ i < o + 4 + 4 * ws.length
      · obtain ⟨n, hn⟩ : ∃ n, (i - o) / 4 = n + 1 := ⟨(i - o) / 4 - 1, by omega⟩
        rw [if_pos hin, if_pos (by simp only [List.length_cons]; omega), hn,
          show (i - (o + 4)) / 4 = n by omega]
        rfl
      · rw [if_neg hin, if_neg h, if_neg (by simp only [List.length_cons]; omega)]

theorem byte_putWords {pg : Page} {ws : List Word} {o i : ℕ} (ho : o + 4 * ws.length ≤ i)
    (hi : i < 4096) (ho4 : o % 4 = 0) : (pg.putWords o ws).byte i = pg.byte i := by
  induction ws generalizing pg o with
  | nil => rfl
  | cons w ws ih =>
    simp only [List.length_cons] at ho
    rw [putWords, ih (by omega) (by omega), byte_putWord (by omega) hi (by omega)]

theorem putBytes_append {pg : Page} {o : ℕ} {as bs : List (BitVec 8)} :
    pg.putBytes o (as ++ bs) = (pg.putBytes o as).putBytes (o + as.length) bs := by
  induction as generalizing pg o with
  | nil => rfl
  | cons a as ih =>
    rw [List.cons_append, putBytes, putBytes, ih, List.length_cons,
      show o + 1 + as.length = o + (as.length + 1) by omega]

end Page

/-! ## Memory as a program sees it -/

/-- The frame behind `va`, if the entry carries all of `flags`. -/
def Pmap.openFrame (s : Pmap) (d : Frame) (flags va : Word) : Option Frame :=
  (entryFrame (s.pteOf d va)).filter fun _ => s.pteOf d va &&& flags = flags

/-- The memory with other words in the frame `f`. -/
def Kernel.withPage (k : Kernel) (f : Frame) (pg : Page) : Kernel :=
  k.setPmap (k.pmap.setPage f pg)

namespace Kern

open Sys Elf

/-- A page that the running program uses; a fault is a stop. -/
def userFrame (flags va : Word) : Kern Frame := do
  let d ← dirOf (← get).curPgdir
  match (← get).pmap.openFrame d flags va with
  | none => halt .wild
  | some f => pure f

def userLoadByte (va : Word) : Kern Byte := do
  let f ← userFrame (pteR ||| pteU) va
  pure (((← get).pmap.mem f).byte (va.toNat % 4096))

def userLoadWord (va : Word) : Kern Word := do
  if va.toNat % 4 ≠ 0 then halt .wild
  else
    let f ← userFrame (pteR ||| pteU) va
    pure (((← get).pmap.mem f).word (va.toNat % 4096))

def userStoreWord (va w : Word) : Kern Unit := do
  if va.toNat % 4 ≠ 0 then halt .wild
  else
    let f ← userFrame (pteR ||| pteW ||| pteU) va
    modify fun k => k.setPmap (k.pmap.setPage f ((k.pmap.mem f).putWord (va.toNat % 4096) w))

/-! ## The function -/

/-- More rounds than there are addresses; who makes them all goes on for ever. -/
def addresses : ℕ := 4294967296

def strlenLoop : ℕ → Word → Word → Kern Word
  | 0, _, _ => halt .wild
  | fuel + 1, s, n => do
    if (← userLoadByte s) = 0#8 then pure n
    else strlenLoop fuel (s + 1#32) (n + 1#32)

def strlen (s : Word) : Kern Word :=
  strlenLoop addresses s 0#32

/-- `for (argc = 0; argv[argc]; ++argc) tot += strlen(argv[argc]) + 1`, with both. -/
def countArgs (argv : Word) : ℕ → Word → Word → Kern (Word × Word)
  | 0, _, _ => halt .wild
  | fuel + 1, argc, tot => do
    if (← userLoadWord (argv + 4#32 * argc)) = 0#32 then pure (argc, tot)
    else
      let len ← strlen (← userLoadWord (argv + 4#32 * argc))
      countArgs argv fuel (argc + 1#32) (tot + (len + 1#32))

/-- The loop over `j`, where `argvi` is the address of `argv[i]`. -/
def copyString (argvi : Word) : ℕ → Word → Word → Word → Kern Word
  | 0, _, _, _ => halt .wild
  | fuel + 1, ctemp, argvTemp, j => do
    let len ← strlen (← userLoadWord argvi)
    if j < len then
      userStoreByte ctemp (← userLoadByte argvTemp)
      copyString argvi fuel (ctemp + 1#32) (argvTemp + 1#32) (j + 1#32)
    else pure ctemp

def copyStrings (argv : Word) : List ℕ → Word → Kern Unit
  | [], _ => pure ()
  | i :: is, ctemp => do
    let argvTemp ← userLoadWord (argv + 4#32 * BitVec.ofNat 32 i)
    let ctemp ← copyString (argv + 4#32 * BitVec.ofNat 32 i) addresses ctemp argvTemp 0#32
    userStoreByte ctemp 0#8
    copyStrings argv is (ctemp + 1#32)

def storePointers (argv args : Word) : List ℕ → Word → Kern Word
  | [], ctemp => pure ctemp
  | i :: is, ctemp => do
    userStoreWord (args + 4#32 * BitVec.ofNat 32 i) ctemp
    let len ← strlen (← userLoadWord (argv + 4#32 * BitVec.ofNat 32 i))
    storePointers argv args is (ctemp + (len + 1#32))

/-- `ROUND(a, 4)` -/
def round4 (a : Word) : Word :=
  (a + 3#32) &&& ~~~3#32

/-- Where an address in the page at `UTEMP` is on the stack of the child. -/
def toStack (a : Word) : Word :=
  ustacktop - utemp - 4096#32 + a

def stackPerm : Word :=
  pteR ||| pteW ||| pteU

/-- Both exits through `error`. -/
def unmapTemp (r : Errno) : Kern Unit := do
  let _ ← attempt (eMemUnmap 0#32 utemp)
  throw r

def moveStack (child : Word) : Kern Unit := do
  match ← attempt (eMemMap 0#32 utemp child (ustacktop - 4096#32) stackPerm) with
  | .error r => unmapTemp r
  | .ok () =>
    match ← attempt (eMemUnmap 0#32 utemp) with
    | .error r => unmapTemp r
    | .ok () => pure ()

/-- The stores of `init_stack`; the result is for `*init_sp`. -/
def layStack (argv argc tot : Word) : Kern Word := do
  let strings := utemp + 4096#32 - tot
  let args := utemp + 4096#32 - round4 tot - 4#32 * (argc + 1#32)
  copyStrings argv (List.range argc.toNat) strings
  let ctemp ← storePointers argv args (List.range argc.toNat) (toStack strings)
  userStoreWord (args + 4#32 * argc) (ctemp - 1#32)
  userStoreWord (args - 4#32) (toStack args)
  userStoreWord (args - 8#32) argc
  pure (toStack (args - 8#32))

/-- `init_stack`, with what it leaves in `*init_sp`. -/
def initStack (child argv : Word) : Kern Word := do
  let (argc, tot) ← countArgs argv addresses 0#32 0#32
  if 4096#32 < round4 tot + 4#32 * (argc + 3#32) then throw .noMem
  else
    eMemAlloc 0#32 utemp stackPerm
    let sp ← layStack argv argc tot
    moveStack child
    pure sp

/-! ## Arguments in memory -/

/-- A string, by the bytes `B a b` at its addresses. -/
def CString (B : Word → Byte → Prop) : Word → List Byte → Prop
  | a, [] => B a 0#8
  | a, b :: bs => b ≠ 0#8 ∧ B a b ∧ CString B (a + 1#32) bs

/-- An array of pointers to strings with a null pointer at its end. -/
def ArgList (B : Word → Byte → Prop) (W : Word → Word → Prop) : Word → List (List Byte) → Prop
  | a, [] => W a 0#32
  | a, s :: ss => ∃ p, p ≠ 0#32 ∧ W a p ∧ CString B p s ∧ ArgList B W (a + 4#32) ss

section Memory

variable {B B' : Word → Byte → Prop} {W W' : Word → Word → Prop} {a : Word} {s : List Byte}
  {strs : List (List Byte)}

theorem CString.mono (hB : ∀ a b, B a b → B' a b) (h : CString B a s) : CString B' a s := by
  induction s generalizing a with
  | nil => exact hB _ _ h
  | cons b s ih => exact ⟨h.1, hB _ _ h.2.1, ih h.2.2⟩

theorem ArgList.mono (hB : ∀ a b, B a b → B' a b) (hW : ∀ a w, W a w → W' a w)
    (h : ArgList B W a strs) : ArgList B' W' a strs := by
  induction strs generalizing a with
  | nil => exact hW _ _ h
  | cons s ss ih =>
    obtain ⟨p, hp, hw, hs, hrest⟩ := h
    exact ⟨p, hp, hW _ _ hw, hs.mono hB, ih hrest⟩

theorem CString.lt (hB : ∀ a b, B a b → a < utop) (h : CString B a s) :
    a.toNat + s.length < utop.toNat := by
  induction s generalizing a with
  | nil => exact BitVec.lt_def.mp (hB _ _ h)
  | cons b s ih =>
    have hn := ih h.2.2
    have ha : a.toNat < utop.toNat := BitVec.lt_def.mp (hB _ _ h.2.1)
    have ht : utop.toNat = 0x7f400000 := rfl
    rw [BitVec.toNat_add] at hn
    have h1 : (1#32).toNat = 1 := rfl
    rw [List.length_cons]
    omega

theorem ArgList.lt (hW : ∀ a w, W a w → a < utop) (h : ArgList B W a strs) :
    a.toNat + 4 * strs.length < utop.toNat := by
  induction strs generalizing a with
  | nil => exact BitVec.lt_def.mp (hW _ _ h)
  | cons s ss ih =>
    obtain ⟨p, -, hw, -, hrest⟩ := h
    have hn := ih hrest
    have ha : a.toNat < utop.toNat := BitVec.lt_def.mp (hW _ _ hw)
    have ht : utop.toNat = 0x7f400000 := rfl
    rw [BitVec.toNat_add] at hn
    have h4 : (4#32).toNat = 4 := rfl
    rw [List.length_cons]
    omega

end Memory

/-- The bytes of the strings with their terminators, one after the other. -/
def flat (strs : List (List Byte)) : List Byte :=
  strs.flatMap (· ++ [0#8])

/-- Where the strings begin that are stored from `start` on. -/
def pointers (start : Word) : List (List Byte) → List Word
  | [] => []
  | s :: ss => start :: pointers (start + (BitVec.ofNat 32 s.length + 1#32)) ss

theorem flat_cons {s : List Byte} {ss : List (List Byte)} :
    flat (s :: ss) = s ++ 0#8 :: flat ss := by
  simp [flat]

theorem flat_append {ss ts : List (List Byte)} : flat (ss ++ ts) = flat ss ++ flat ts :=
  List.flatMap_append

theorem flat_split {strs : List (List Byte)} {i : ℕ} (hi : i < strs.length) :
    flat strs = flat (strs.take i) ++ (strs[i] ++ 0#8 :: flat (strs.drop (i + 1))) := by
  rw [← flat_cons, ← List.drop_eq_getElem_cons hi, ← flat_append, List.take_append_drop]

theorem pointers_get (start : Word) {strs : List (List Byte)} {i : ℕ} (hi : i < strs.length) :
    (pointers start strs)[i]? = some (start + BitVec.ofNat 32 (flat (strs.take i)).length) := by
  induction strs generalizing start i with
  | nil => exact absurd hi (Nat.not_lt_zero i)
  | cons s ss ih =>
    cases i with
    | zero =>
      show some start = some (start + 0#32)
      rw [BitVec.add_zero]
    | succ i =>
      show (pointers _ ss)[i]? = _
      rw [ih _ (by simpa using hi), List.take_succ_cons, flat_cons, List.length_append,
        List.length_cons, BitVec.ofNat_add, Nat.add_comm (flat _).length, BitVec.ofNat_add,
        BitVec.add_assoc, BitVec.add_assoc]

@[simp] theorem pointers_length {start : Word} {strs : List (List Byte)} :
    (pointers start strs).length = strs.length := by
  induction strs generalizing start with
  | nil => rfl
  | cons s ss ih => simp [pointers, ih]

/-! ## The page at `UTEMP` -/

/-- The running program with directory `d` reads `x` at `a`. -/
structure Reads {α : Type} (d : Frame) (k : Kernel) (read : Page → ℕ → α) (a : Word) (x : α) :
    Prop where
  lt : a < utop
  frame : (k.pmap.openFrame d (pteR ||| pteU) a).map
    (fun g => read (k.pmap.mem g) (a.toNat % 4096)) = some x

abbrev ReadsWord (d : Frame) (k : Kernel) (a w : Word) : Prop :=
  a.toNat % 4 = 0 ∧ Reads d k Page.word a w

section Load

variable {d : Frame} {k : Kernel} {a : Word}

theorem userFrame_ok (hcur : k.curPgdir = some d) {flags : Word} {g : Frame}
    (hg : k.pmap.openFrame d flags a = some g) : userFrame flags a k = .ok (.ok g, k) := by
  unfold userFrame
  rw [bind_of_ok (b := k) (t := k) rfl, hcur, bind_of_ok (dirOf_eq d),
    bind_of_ok (b := k) (t := k) rfl, hg]
  rfl

theorem userLoadByte_ok (hcur : k.curPgdir = some d) {b : Byte} (hr : Reads d k Page.byte a b) :
    userLoadByte a k = .ok (.ok b, k) := by
  obtain ⟨g, hg, hb⟩ := Option.map_eq_some_iff.mp hr.frame
  unfold userLoadByte
  rw [bind_of_ok (userFrame_ok hcur hg), ← hb]
  rfl

theorem userLoadWord_ok (hcur : k.curPgdir = some d) {w : Word} (hr : ReadsWord d k a w) :
    userLoadWord a k = .ok (.ok w, k) := by
  obtain ⟨g, hg, hb⟩ := Option.map_eq_some_iff.mp hr.2.frame
  unfold userLoadWord
  rw [if_neg (not_not.mpr hr.1), bind_of_ok (userFrame_ok hcur hg), ← hb]
  rfl

theorem strlenLoop_ok (hcur : k.curPgdir = some d) {s : List Byte}
    (hs : CString (Reads d k Page.byte) a s) {n : Word} {fuel : ℕ} (hfuel : s.length < fuel) :
    strlenLoop fuel a n k = .ok (.ok (n + BitVec.ofNat 32 s.length), k) := by
  induction s generalizing a n fuel with
  | nil =>
    obtain ⟨fuel, rfl⟩ : ∃ m, fuel = m + 1 := ⟨fuel - 1, by simp at hfuel; omega⟩
    rw [strlenLoop, bind_of_ok (userLoadByte_ok hcur hs), if_pos rfl]
    simp [pure]
  | cons b s ih =>
    obtain ⟨fuel, rfl⟩ : ∃ m, fuel = m + 1 := ⟨fuel - 1, by simp at hfuel; omega⟩
    obtain ⟨hb, hread, hrest⟩ := hs
    simp only [List.length_cons] at hfuel
    rw [strlenLoop, bind_of_ok (userLoadByte_ok hcur hread), if_neg hb, ih hrest (by omega),
      List.length_cons, BitVec.add_assoc, Nat.add_comm, BitVec.ofNat_add]

theorem string_lt {s : List Byte} (hs : CString (Reads d k Page.byte) a s) :
    s.length < addresses := by
  have hlt := hs.lt fun _ _ hr => hr.lt
  have htop : utop.toNat < addresses := by decide
  omega

theorem strlen_ok (hcur : k.curPgdir = some d) {s : List Byte}
    (hs : CString (Reads d k Page.byte) a s) :
    strlen a k = .ok (.ok (BitVec.ofNat 32 s.length), k) := by
  rw [strlen, strlenLoop_ok hcur hs (string_lt hs), BitVec.zero_add]

/-- The sum over the arguments wraps around at `2 ^ 32`. -/
theorem countArgs_ok (hcur : k.curPgdir = some d) (argv argc tot : Word)
    {strs : List (List Byte)}
    (hs : ArgList (Reads d k Page.byte) (ReadsWord d k) (argv + 4#32 * argc) strs) {fuel : ℕ}
    (hfuel : strs.length < fuel) :
    countArgs argv fuel argc tot k = .ok (.ok (argc + BitVec.ofNat 32 strs.length,
      tot + BitVec.ofNat 32 (flat strs).length), k) := by
  induction strs generalizing argc tot fuel with
  | nil =>
    obtain ⟨fuel, rfl⟩ : ∃ m, fuel = m + 1 := ⟨fuel - 1, by simp at hfuel; omega⟩
    rw [countArgs, bind_of_ok (userLoadWord_ok hcur hs), if_pos rfl]
    simp [pure, flat]
  | cons s ss ih =>
    obtain ⟨fuel, rfl⟩ : ∃ m, fuel = m + 1 := ⟨fuel - 1, by simp at hfuel; omega⟩
    obtain ⟨p, hp, hw, hstr, hrest⟩ := hs
    simp only [List.length_cons] at hfuel
    have hnext : argv + 4#32 * argc + 4#32 = argv + 4#32 * (argc + 1#32) := by bv_omega
    rw [hnext] at hrest
    rw [countArgs, bind_of_ok (userLoadWord_ok hcur hw), if_neg hp,
      bind_of_ok (userLoadWord_ok hcur hw), bind_of_ok (strlen_ok hcur hstr),
      ih _ _ hrest (by omega)]
    have hargc : argc + 1#32 + BitVec.ofNat 32 ss.length =
        argc + BitVec.ofNat 32 (s :: ss).length := by
      rw [List.length_cons, Nat.add_comm, BitVec.ofNat_add, BitVec.add_assoc]
    have htot : tot + (BitVec.ofNat 32 s.length + 1#32) + BitVec.ofNat 32 (flat ss).length =
        tot + BitVec.ofNat 32 (flat (s :: ss)).length := by
      rw [flat_cons, List.length_append, List.length_cons, BitVec.ofNat_add,
        Nat.add_comm (flat ss).length, BitVec.ofNat_add, BitVec.add_assoc, BitVec.add_assoc]
    rw [hargc, htot]

end Load

/-- The frame `f` is at `UTEMP` of the running program and holds no page table of it. -/
structure Temp (d f : Frame) (k : Kernel) : Prop where
  cur : k.curPgdir = some d
  entry : ∀ a, vpn a = vpn utemp →
    k.pmap.openFrame d (pteR ||| pteW ||| pteU) a = some f
  pte : ∀ pg a, (k.pmap.setPage f pg).pteOf d a = k.pmap.pteOf d a

/-- What is read does not depend on the words in the frame `f`. -/
def StaysByte (d f : Frame) (k : Kernel) (a : Word) (b : Byte) : Prop :=
  ∀ pg, Reads d (k.withPage f pg) Page.byte a b

def StaysWord (d f : Frame) (k : Kernel) (a w : Word) : Prop :=
  ∀ pg, ReadsWord d (k.withPage f pg) a w

section Temp

variable {d f : Frame} {k : Kernel} {pg : Page} {a : Word}

theorem Temp.curPgdir (h : Temp d f k) : (k.withPage f pg).curPgdir = some d :=
  h.cur

theorem Temp.openFrame (h : Temp d f k) (flags : Word) :
    (k.withPage f pg).pmap.openFrame d flags a = k.pmap.openFrame d flags a := by
  unfold Pmap.openFrame
  rw [show (k.withPage f pg).pmap.pteOf d a = _ from h.pte pg a]

theorem withPage_withPage (pg' : Page) : (k.withPage f pg).withPage f pg' = k.withPage f pg' := by
  show k.setPmap ((k.pmap.setPage f pg).setPage f pg') = _
  rw [Pmap.setPage_setPage]
  rfl

theorem withPage_mem : (k.withPage f pg).pmap.mem f = pg :=
  Pmap.setPage_mem_self ..

/-- The offset in the page of an address that is counted from `UTEMP` on. -/
theorem temp_offset {o : ℕ} (ho : o < 4096) :
    (utemp + BitVec.ofNat 32 o).toNat = 4186112 + o ∧ vpn (utemp + BitVec.ofNat 32 o) = vpn utemp := by
  have hn : (utemp + BitVec.ofNat 32 o).toNat = 4186112 + o := by
    have hu : utemp.toNat = 4186112 := rfl
    rw [BitVec.toNat_add, BitVec.toNat_ofNat]
    omega
  refine ⟨hn, ?_⟩
  have hu : utemp.toNat = 4186112 := rfl
  rw [← BitVec.toNat_inj, vpn_toNat, vpn_toNat]
  omega

theorem userStoreByte_ok (h : Temp d f k) {o : ℕ} (ho : o < 4096) (b : Byte) :
    userStoreByte (utemp + BitVec.ofNat 32 o) b (k.withPage f pg) =
      .ok (.ok (), k.withPage f (pg.putByte o b)) := by
  obtain ⟨hn, hv⟩ := temp_offset ho
  obtain ⟨hf, hfl⟩ := Option.filter_eq_some_iff.mp (h.entry _ hv)
  unfold userStoreByte
  rw [bind_of_ok (b := k.withPage f pg) (t := k.withPage f pg) rfl,
    show (k.withPage f pg).curPgdir = some d from h.cur, bind_of_ok (dirOf_eq d),
    bind_of_ok (b := k.withPage f pg) (t := k.withPage f pg) rfl,
    show (k.withPage f pg).pmap.pteOf d _ = _ from h.pte pg _, hf]
  simp only
  rw [bind_of_ok (b := k.withPage f pg) (t := k.withPage f pg) rfl,
    show (k.withPage f pg).pmap.pteOf d _ = _ from h.pte pg _,
    if_pos (of_decide_eq_true hfl)]
  show Except.ok (Except.ok (), (k.withPage f pg).withPage f _) = _
  rw [withPage_withPage, withPage_mem, hn, show (4186112 + o) % 4096 = o by omega]

theorem userStoreWord_ok (h : Temp d f k) {o : ℕ} (ho : o < 4096) (ho4 : o % 4 = 0) (w : Word) :
    userStoreWord (utemp + BitVec.ofNat 32 o) w (k.withPage f pg) =
      .ok (.ok (), k.withPage f (pg.putWord o w)) := by
  obtain ⟨hn, hv⟩ := temp_offset ho
  unfold userStoreWord
  rw [if_neg (by omega), bind_of_ok (userFrame_ok h.curPgdir ((h.openFrame _).trans (h.entry _ hv)))]
  show Except.ok (Except.ok (), (k.withPage f pg).withPage f _) = _
  rw [withPage_withPage, withPage_mem, hn, show (4186112 + o) % 4096 = o by omega]

theorem copyString_ok (h : Temp d f k) {argvi p : Word} {s : List Byte}
    (hw : StaysWord d f k argvi p) (hs : CString (StaysByte d f k) p s) {rest : List Byte}
    {o j fuel : ℕ} (hrest : CString (StaysByte d f k) a rest) (hj : j + rest.length = s.length)
    (ho : o + rest.length < 4096) (hfuel : rest.length < fuel) :
    copyString argvi fuel (utemp + BitVec.ofNat 32 o) a (BitVec.ofNat 32 j) (k.withPage f pg) =
      .ok (.ok (utemp + BitVec.ofNat 32 (o + rest.length)),
        k.withPage f (pg.putBytes o rest)) := by
  induction rest generalizing pg a o j fuel with
  | nil =>
    obtain ⟨fuel, rfl⟩ : ∃ m, fuel = m + 1 := ⟨fuel - 1, by simp at hfuel; omega⟩
    have hjs : j = s.length := hj
    rw [copyString, bind_of_ok (userLoadWord_ok h.curPgdir (hw pg)),
      bind_of_ok (strlen_ok h.curPgdir (hs.mono fun _ _ hb => hb pg)),
      if_neg (by rw [hjs]; exact BitVec.lt_irrefl _)]
    rfl
  | cons b rest ih =>
    obtain ⟨fuel, rfl⟩ : ∃ m, fuel = m + 1 := ⟨fuel - 1, by simp at hfuel; omega⟩
    obtain ⟨-, hread, hrest⟩ := hrest
    simp only [List.length_cons] at hfuel ho hj
    have hlen : s.length < 4294967296 := string_lt (hs.mono fun _ _ hb => hb pg)
    have hlt : BitVec.ofNat 32 j < BitVec.ofNat 32 s.length := by
      rw [BitVec.lt_def, BitVec.toNat_ofNat, BitVec.toNat_ofNat]
      omega
    rw [copyString, bind_of_ok (userLoadWord_ok h.curPgdir (hw pg)),
      bind_of_ok (strlen_ok h.curPgdir (hs.mono fun _ _ hb => hb pg)), if_pos hlt,
      bind_of_ok (userLoadByte_ok h.curPgdir (hread pg)),
      bind_of_ok (userStoreByte_ok h (by omega) b), BitVec.add_assoc, ← BitVec.ofNat_add,
      ← BitVec.ofNat_add, ih hrest (by omega) (by omega) (by omega), List.length_cons,
      show o + 1 + rest.length = o + (rest.length + 1) by omega]
    rfl

theorem copyStrings_ok (h : Temp d f k) {argv : Word} {strs : List (List Byte)} {i o : ℕ}
    (hs : ArgList (StaysByte d f k) (StaysWord d f k) (argv + 4#32 * BitVec.ofNat 32 i) strs)
    (ho : o + (flat strs).length ≤ 4096) :
    copyStrings argv (List.range' i strs.length) (utemp + BitVec.ofNat 32 o) (k.withPage f pg) =
      .ok (.ok (), k.withPage f (pg.putBytes o (flat strs))) := by
  induction strs generalizing pg i o with
  | nil => rfl
  | cons s ss ih =>
    obtain ⟨p, -, hw, hstr, hrest⟩ := hs
    rw [flat_cons, List.length_append, List.length_cons] at ho
    have hnext : argv + 4#32 * BitVec.ofNat 32 i + 4#32 =
        argv + 4#32 * BitVec.ofNat 32 (i + 1) := by
      rw [BitVec.ofNat_add]
      bv_omega
    rw [hnext] at hrest
    rw [List.length_cons, List.range'_succ, copyStrings,
      bind_of_ok (userLoadWord_ok h.curPgdir (hw pg)),
      bind_of_ok (copyString_ok h hw hstr (j := 0) hstr (Nat.zero_add _) (by omega)
        (string_lt (hstr.mono fun _ _ hb => hb pg))),
      bind_of_ok (userStoreByte_ok h (by omega) 0#8), BitVec.add_assoc, ← BitVec.ofNat_add,
      ih hrest (by omega), flat_cons, Page.putBytes_append, Page.putBytes, Nat.add_assoc]

theorem storePointers_ok (h : Temp d f k) {argv ctemp : Word} {strs : List (List Byte)} {i o : ℕ}
    (hs : ArgList (StaysByte d f k) (StaysWord d f k) (argv + 4#32 * BitVec.ofNat 32 i) strs)
    (ho : o + 4 * (i + strs.length) ≤ 4096) (ho4 : o % 4 = 0) :
    storePointers argv (utemp + BitVec.ofNat 32 o) (List.range' i strs.length) ctemp
        (k.withPage f pg) =
      .ok (.ok (ctemp + BitVec.ofNat 32 (flat strs).length),
        k.withPage f (pg.putWords (o + 4 * i) (pointers ctemp strs))) := by
  induction strs generalizing pg i ctemp with
  | nil =>
    show Except.ok (Except.ok ctemp, _) = _
    rw [show (flat []).length = 0 from rfl, BitVec.add_zero]
    rfl
  | cons s ss ih =>
    obtain ⟨p, -, hw, hstr, hrest⟩ := hs
    rw [List.length_cons] at ho
    have hnext : argv + 4#32 * BitVec.ofNat 32 i + 4#32 =
        argv + 4#32 * BitVec.ofNat 32 (i + 1) := by
      rw [BitVec.ofNat_add]
      bv_omega
    rw [hnext] at hrest
    have haddr : utemp + BitVec.ofNat 32 o + 4#32 * BitVec.ofNat 32 i =
        utemp + BitVec.ofNat 32 (o + 4 * i) := by
      rw [BitVec.ofNat_add, BitVec.ofNat_mul, BitVec.add_assoc]
    rw [List.length_cons, List.range'_succ, storePointers, haddr,
      bind_of_ok (userStoreWord_ok h (by omega) (by omega) ctemp),
      bind_of_ok (userLoadWord_ok h.curPgdir (hw _)),
      bind_of_ok (strlen_ok h.curPgdir (hstr.mono fun _ _ hb => hb _)),
      ih hrest (by omega)]
    have hsum : ctemp + (BitVec.ofNat 32 s.length + 1#32) + BitVec.ofNat 32 (flat ss).length =
        ctemp + BitVec.ofNat 32 (flat (s :: ss)).length := by
      rw [flat_cons, List.length_append, List.length_cons, BitVec.ofNat_add,
        Nat.add_comm (flat ss).length, BitVec.ofNat_add, BitVec.add_assoc, BitVec.add_assoc]
    rw [hsum, show o + 4 * (i + 1) = o + 4 * i + 4 by omega]
    rfl

end Temp

/-! ## What the child finds -/

/-- `USTACKTOP - BY2PG` -/
def stackPage : Word := 0x7f3fd000#32

/-- A word of the page at the top of the stack. -/
structure HoldsWord (pg : Page) (a w : Word) : Prop where
  inside : stackPage.toNat ≤ a.toNat ∧ a.toNat + 4 ≤ ustacktop.toNat
  aligned : a.toNat % 4 = 0
  word : pg.word (a.toNat % 4096) = w

/-- A string there with its terminator. -/
structure HoldsString (pg : Page) (a : Word) (s : List Byte) : Prop where
  inside : stackPage.toNat ≤ a.toNat ∧ a.toNat + s.length < ustacktop.toNat
  bytes : ∀ j < s.length, s[j]? = some (pg.byte (a.toNat % 4096 + j))
  terminator : pg.byte (a.toNat % 4096 + s.length) = 0#8

/-- The words that `_start` loads from `sp`, with the array and the strings behind them:
the array ends before the strings. -/
structure Arguments (pg : Page) (sp : Word) (strs : List (List Byte)) : Prop where
  argc : HoldsWord pg sp (BitVec.ofNat 32 strs.length)
  argv : ∃ (args : Word) (ps : List Word), HoldsWord pg (sp + 4#32) args ∧
    ps.length = strs.length ∧ ∀ i s p, strs[i]? = some s → ps[i]? = some p →
      HoldsWord pg (args + 4#32 * BitVec.ofNat 32 i) p ∧ HoldsString pg p s ∧
        args.toNat + 4 * strs.length ≤ p.toNat

/-- The bytes of the page that the strings take, in whole words. -/
def stringRoom (strs : List (List Byte)) : ℕ :=
  ((flat strs).length + 3) / 4 * 4

/-- The offset of the array. -/
def arrayAt (strs : List (List Byte)) : ℕ :=
  4096 - stringRoom strs - 4 * (strs.length + 1)

def atStack (o : ℕ) : Word :=
  stackPage + BitVec.ofNat 32 o

def filledPage (pg : Page) (strs : List (List Byte)) : Page :=
  ((((pg.putBytes (4096 - (flat strs).length) (flat strs)).putWords (arrayAt strs)
    (pointers (atStack (4096 - (flat strs).length)) strs)).putWord
      (arrayAt strs + 4 * strs.length) (atStack 4096 - 1#32)).putWord
        (arrayAt strs - 4) (atStack (arrayAt strs))).putWord
          (arrayAt strs - 8) (BitVec.ofNat 32 strs.length)

section Filled

variable {pg : Page} {strs : List (List Byte)}

theorem atStack_toNat {o : ℕ} (ho : o ≤ 4096) : (atStack o).toNat = 0x7f3fd000 + o := by
  have hs : stackPage.toNat = 0x7f3fd000 := rfl
  rw [atStack, BitVec.toNat_add, BitVec.toNat_ofNat]
  omega

theorem filledPage_byte (hfit : stringRoom strs + 4 * (strs.length + 3) ≤ 4096) {i : ℕ}
    (hi : i < (flat strs).length) :
    (flat strs)[i]? = some ((filledPage pg strs).byte (4096 - (flat strs).length + i)) := by
  have hroom : (flat strs).length ≤ stringRoom strs := by unfold stringRoom; omega
  have halign : arrayAt strs % 4 = 0 := by unfold arrayAt stringRoom; omega
  have hat : arrayAt strs = 4096 - stringRoom strs - 4 * (strs.length + 1) := rfl
  unfold filledPage
  rw [Page.byte_putWord (by omega) (by omega) (by omega),
    Page.byte_putWord (by omega) (by omega) (by omega),
    Page.byte_putWord (by omega) (by omega) (by omega),
    Page.byte_putWords (by rw [pointers_length]; omega) (by omega) halign,
    Page.byte_putBytes (by omega) (by omega), if_pos (by omega), Nat.add_sub_cancel_left,
    List.getD_eq_getElem _ _ hi, List.getElem?_eq_getElem hi]

theorem filledPage_pointer (hfit : stringRoom strs + 4 * (strs.length + 3) ≤ 4096) {i : ℕ}
    (hi : i < strs.length) :
    (filledPage pg strs).word (arrayAt strs + 4 * i) =
      atStack (4096 - (flat strs).length + (flat (strs.take i)).length) := by
  have halign : arrayAt strs % 4 = 0 := by unfold arrayAt stringRoom; omega
  have hat : arrayAt strs = 4096 - stringRoom strs - 4 * (strs.length + 1) := rfl
  have hget := pointers_get (atStack (4096 - (flat strs).length)) hi
  unfold filledPage
  rw [Page.word_putWord (by omega) (by omega) (by omega) (by omega), if_neg (by omega),
    Page.word_putWord (by omega) (by omega) (by omega) (by omega), if_neg (by omega),
    Page.word_putWord (by omega) (by omega) (by omega) (by omega), if_neg (by omega),
    Page.word_putWords (by rw [pointers_length]; omega) (by omega) halign (by omega),
    if_pos (by rw [pointers_length]; omega), Nat.add_sub_cancel_left,
    Nat.mul_div_cancel_left _ (by decide), List.getD_eq_getElem?_getD, hget, Option.getD_some]
  unfold atStack
  rw [BitVec.add_assoc, ← BitVec.ofNat_add]

/-- The page holds the arguments. -/
theorem filledPage_arguments (hfit : stringRoom strs + 4 * (strs.length + 3) ≤ 4096) :
    Arguments (filledPage pg strs) (atStack (arrayAt strs - 8)) strs := by
  have hs : stackPage.toNat = 0x7f3fd000 := rfl
  have ht : ustacktop.toNat = 0x7f3fe000 := rfl
  have hroom : (flat strs).length ≤ stringRoom strs := by unfold stringRoom; omega
  have halign : arrayAt strs % 4 = 0 := by unfold arrayAt stringRoom; omega
  have hat : arrayAt strs = 4096 - stringRoom strs - 4 * (strs.length + 1) := rfl
  have hsp := atStack_toNat (show arrayAt strs - 8 ≤ 4096 by omega)
  have hargs := atStack_toNat (show arrayAt strs ≤ 4096 by omega)
  have hsp4 : (atStack (arrayAt strs - 8) + 4#32).toNat = 0x7f3fd000 + (arrayAt strs - 4) := by
    have h4 : (4#32).toNat = 4 := rfl
    rw [BitVec.toNat_add]
    omega
  refine ⟨⟨by omega, by omega, ?_⟩, atStack (arrayAt strs),
    pointers (atStack (4096 - (flat strs).length)) strs, ⟨by omega, by omega, ?_⟩,
    pointers_length, fun i s p hgs hgp => ?_⟩
  · unfold filledPage
    rw [Page.word_putWord (by omega) (by omega) (by omega) (by omega), if_pos (by omega)]
  · unfold filledPage
    rw [Page.word_putWord (by omega) (by omega) (by omega) (by omega), if_neg (by omega),
      Page.word_putWord (by omega) (by omega) (by omega) (by omega), if_pos (by omega)]
  · obtain ⟨hi, rfl⟩ := List.getElem?_eq_some_iff.mp hgs
    rw [pointers_get _ hi] at hgp
    have hsplit := flat_split hi
    have hlen := congrArg List.length hsplit
    rw [List.length_append, List.length_append, List.length_cons] at hlen
    have hp : p = atStack (4096 - (flat strs).length + (flat (strs.take i)).length) := by
      rw [← Option.some.inj hgp]
      unfold atStack
      rw [BitVec.add_assoc, ← BitVec.ofNat_add]
    have hpn := atStack_toNat
      (show 4096 - (flat strs).length + (flat (strs.take i)).length ≤ 4096 by omega)
    have hslot : (atStack (arrayAt strs) + 4#32 * BitVec.ofNat 32 i).toNat =
        0x7f3fd000 + (arrayAt strs + 4 * i) := by
      rw [show 4#32 * BitVec.ofNat 32 i = BitVec.ofNat 32 (4 * i) by rw [BitVec.ofNat_mul],
        BitVec.toNat_add, BitVec.toNat_ofNat]
      omega
    have hbyte : ∀ j ≤ strs[i].length, (strs[i] ++ [0#8])[j]? =
        some ((filledPage pg strs).byte (p.toNat % 4096 + j)) := by
      intro j hj
      have hlt : (flat (strs.take i)).length + j < (flat strs).length := by omega
      have hb := @filledPage_byte pg strs hfit _ hlt
      have hcut : (flat strs)[(flat (strs.take i)).length + j]? = (strs[i] ++ [0#8])[j]? := by
        rw [hsplit, List.append_cons, List.getElem?_append_right (Nat.le_add_right ..),
          Nat.add_sub_cancel_left, List.getElem?_append_left (by simp; omega)]
      rw [hp, hpn, ← hcut, hb, show (0x7f3fd000 + (4096 - (flat strs).length +
        (flat (strs.take i)).length)) % 4096 + j =
          4096 - (flat strs).length + ((flat (strs.take i)).length + j) by omega]
    refine ⟨⟨by omega, by omega, ?_⟩, ⟨by rw [hp]; omega, fun j hj => ?_, ?_⟩, by rw [hp]; omega⟩
    · rw [hslot, show (0x7f3fd000 + (arrayAt strs + 4 * i)) % 4096 = arrayAt strs + 4 * i by omega,
        filledPage_pointer hfit hi, hp]
    · rw [← hbyte j (by omega), List.getElem?_append_left hj]
    · have := hbyte _ le_rfl
      rw [List.getElem?_append_right le_rfl, Nat.sub_self] at this
      exact (Option.some.inj this).symm

end Filled

theorem ofNat_back {u : Word} {m n : ℕ} (h : n ≤ m) :
    u + BitVec.ofNat 32 m - BitVec.ofNat 32 n = u + BitVec.ofNat 32 (m - n) := by
  have hm : BitVec.ofNat 32 m = BitVec.ofNat 32 (m - n) + BitVec.ofNat 32 n := by
    rw [← BitVec.ofNat_add, Nat.sub_add_cancel h]
  rw [hm, ← BitVec.add_assoc, BitVec.add_sub_cancel]

theorem round4_ofNat {n : ℕ} (hn : n + 3 < 2 ^ 32) :
    round4 (BitVec.ofNat 32 n) = BitVec.ofNat 32 ((n + 3) / 4 * 4) := by
  have hsum : BitVec.ofNat 32 n + 3#32 = BitVec.ofNat 32 (n + 3) := by rw [BitVec.ofNat_add]
  refine BitVec.eq_of_toNat_eq ?_
  rw [round4, hsum, and_not_low _ (k := 2) (by decide), BitVec.toNat_ofNat, BitVec.toNat_ofNat]
  omega

section Lay

variable {d f : Frame} {k : Kernel} {pg : Page} {argv : Word} {strs : List (List Byte)}

/-- What the stores leave in the page. -/
theorem layStack_ok (h : Temp d f k)
    (hs : ArgList (StaysByte d f k) (StaysWord d f k) argv strs)
    (hfit : stringRoom strs + 4 * (strs.length + 3) ≤ 4096) :
    layStack argv (BitVec.ofNat 32 strs.length) (BitVec.ofNat 32 (flat strs).length)
        (k.withPage f pg) =
      .ok (.ok (atStack (arrayAt strs - 8)), k.withPage f (filledPage pg strs)) := by
  have hroom : (flat strs).length ≤ stringRoom strs := by unfold stringRoom; omega
  have halign : arrayAt strs % 4 = 0 := by unfold arrayAt stringRoom; omega
  have hat : arrayAt strs = 4096 - stringRoom strs - 4 * (strs.length + 1) := rfl
  have hround : round4 (BitVec.ofNat 32 (flat strs).length) = BitVec.ofNat 32 (stringRoom strs) :=
    round4_ofNat (by omega)
  have hstrings : utemp + 4096#32 - BitVec.ofNat 32 (flat strs).length =
      utemp + BitVec.ofNat 32 (4096 - (flat strs).length) := ofNat_back (by omega)
  have hargs : utemp + 4096#32 - BitVec.ofNat 32 (stringRoom strs) -
      4#32 * (BitVec.ofNat 32 strs.length + 1#32) = utemp + BitVec.ofNat 32 (arrayAt strs) := by
    have hwords : 4#32 * (BitVec.ofNat 32 strs.length + 1#32) =
        BitVec.ofNat 32 (4 * (strs.length + 1)) := by
      rw [BitVec.ofNat_mul, BitVec.ofNat_add]
    rw [hwords, show utemp + 4096#32 - BitVec.ofNat 32 (stringRoom strs) = _ from
      ofNat_back (m := 4096) (by omega), ofNat_back (by omega)]
    rfl
  have hstack : ∀ o, toStack (utemp + BitVec.ofNat 32 o) = atStack o := by
    intro o
    rw [toStack, atStack, ← BitVec.add_assoc]
    rfl
  have hlast : utemp + BitVec.ofNat 32 (arrayAt strs) + 4#32 * BitVec.ofNat 32 strs.length =
      utemp + BitVec.ofNat 32 (arrayAt strs + 4 * strs.length) := by
    rw [BitVec.ofNat_add, BitVec.ofNat_mul, BitVec.add_assoc]
  have hend : atStack (4096 - (flat strs).length) + BitVec.ofNat 32 (flat strs).length =
      atStack 4096 := by
    rw [atStack, BitVec.add_assoc, ← BitVec.ofNat_add, Nat.sub_add_cancel (by omega)]
    rfl
  have hs0 : ArgList (StaysByte d f k) (StaysWord d f k) (argv + 4#32 * BitVec.ofNat 32 0) strs := by
    rw [show argv + 4#32 * BitVec.ofNat 32 0 = argv by simp]
    exact hs
  have hrange : List.range (BitVec.ofNat 32 strs.length).toNat = List.range' 0 strs.length := by
    rw [BitVec.toNat_ofNat, Nat.mod_eq_of_lt (by omega), List.range_eq_range']
  unfold layStack
  simp only [hround, hstrings, hargs, hstack, hlast, hrange]
  rw [bind_of_ok (copyStrings_ok h hs0 (by omega)),
    bind_of_ok (storePointers_ok h hs0 (by omega) halign), hend,
    bind_of_ok (userStoreWord_ok h (by omega) (by omega) _), ofNat_back (n := 4) (by omega),
    bind_of_ok (userStoreWord_ok h (by omega) (by omega) _), ofNat_back (n := 8) (by omega),
    bind_of_ok (userStoreWord_ok h (by omega) (by omega) _), hstack]
  rfl

end Lay

/-! ## The page moves to the child -/

section Move

variable {L : Layout} {k k' : Kernel} {e c : EnvIdx} {d ds f : Frame} {child : Word}

theorem Spawning.anyTarget (h : Spawning L e d c ds child k) : k.target child false = some e := by
  have ht := h.target
  unfold Kernel.target at ht ⊢
  by_cases h0 : child = 0#32
  · rw [if_pos h0] at ht ⊢
    exact ht
  · rw [if_neg h0, if_neg (by simp)]
    rw [if_neg h0, if_pos rfl, h.cur, Option.bind_some] at ht
    split at ht
    · cases ht
    · exact ht

/-- A run that returns has mapped the frame for the child. -/
theorem moveStack_of_run (h : Spawning L e d c ds child k)
    (hf : entryFrame (k.pmap.pteOf ds utemp) = some f) (href : (k.pmap.ppRef f).toNat ≤ 1)
    (hrun : moveStack child k = .ok (.ok (), k')) :
    ∃ p, k' = k.setPmap p ∧ entryFrame (p.pteOf d stackPage) = some f ∧
      p.mem f = k.pmap.mem f := by
  unfold moveStack at hrun
  obtain ⟨r, k₁, hmap, hrun⟩ := Sys.bind_ok hrun
  cases r with
  | error x =>
    obtain ⟨r', k₂, -, hthrow⟩ := Sys.bind_ok hrun
    cases hthrow
  | ok u =>
    obtain ⟨r, k₂, hunmap, hrun⟩ := Sys.bind_ok hrun
    cases r with
    | error x =>
      obtain ⟨r', k₃, -, hthrow⟩ := Sys.bind_ok hrun
      cases hthrow
    | ok u' =>
      cases hrun
      have hfl : FlagOnly stackPerm := by decide
      have hlt : stackPage < utop := by decide
      have hltt : utemp < utop := by decide
      obtain ⟨hdir, huser⟩ := h.isDir
      obtain ⟨hdirs, husers⟩ := h.parent.isDir
      obtain ⟨hdata, hff⟩ := Leaves.mapped h.spaces.inv hdirs husers hltt hf
      obtain ⟨-, p₁, hins, rfl⟩ := memMap_of_run h.parent h.toFilled (target_zero h.cur true)
        h.anyTarget hf (by omega) hfl (attempt_ok hmap)
      have hown := huser.own (pdx stackPage) (personal_of_lt hlt)
      have hl₁ : Leaves L (fun x v => ¬(x = d ∧ vpn v = vpn stackPage)) (· = f) k.pmap p₁ :=
        .insert h.spaces.inv hdir hown hfl hdata hff (fun v hv => not_not.mpr ⟨rfl, hv⟩) hins
      have h₁ := h.setPmap hl₁.kept
      obtain ⟨-, p₂, hrem, rfl⟩ := memUnmap_of_run h₁.parent (target_zero h₁.cur true)
        (attempt_ok hunmap)
      have howns := (h₁.parent.isDir.2).own (pdx utemp) (personal_of_lt hltt)
      have hl₂ : Leaves L (fun x v => ¬(x = ds ∧ vpn v = vpn utemp)) (· = f) p₁ p₂ :=
        .remove hl₁.kept.inv h₁.parent.isDir.1 howns (fun v hv => not_not.mpr ⟨rfl, hv⟩) hrem
      have hentry : p₁.pteOf d stackPage = mkPte f stackPerm := hins.pte
      have hne : f ≠ d := (hdir.ne_of_base hdata.base).symm
      refine ⟨p₂, rfl, ?_, ?_⟩
      · rw [hl₂.pte d stackPage (hl₁.kept.dirs d hdir) hlt fun ⟨hd, _⟩ => h.dirs_ne hd.symm,
          hentry, entryFrame_mkPte f hfl]
      · exact (hrem.data f (hdata.insert hff hins).not_table).trans
          (hins.data f hdata.not_table hff hne)

/-- With a frame at hand both calls succeed. -/
theorem moveStack_ok (h : Spawning L e d c ds child k)
    (hf : entryFrame (k.pmap.pteOf ds utemp) = some f) (href : (k.pmap.ppRef f).toNat ≤ 1)
    (hfree : k.pmap.pageFreeList ≠ []) : ∃ k', moveStack child k = .ok (.ok (), k') := by
  have hfl : FlagOnly stackPerm := by decide
  have hlt : stackPage < utop := by decide
  have hltt : utemp < utop := by decide
  obtain ⟨hdir, huser⟩ := h.isDir
  obtain ⟨hdirs, husers⟩ := h.parent.isDir
  have hI := h.spaces.inv
  obtain ⟨hdata, hff⟩ := Leaves.mapped hI hdirs husers hltt hf
  have hown := huser.own (pdx stackPage) (personal_of_lt hlt)
  have hc := Pmap.counted_of_own hI.toForest hown
  have hcs := Pmap.counted_of_own hI.toForest (husers.own _ (personal_of_lt hltt))
  obtain ⟨t, ht⟩ : ∃ t, k.pmap.tableOf ds (pdx utemp) = some t := by
    cases ht : k.pmap.tableOf ds (pdx utemp) with
    | none =>
      rw [Pmap.pteOf, ht, entryFrame_zero] at hf
      cases hf
    | some t => exact ⟨t, rfl⟩
  have hl := Pmap.pageLookup_eq hI.toForest hdirs hcs
  rw [hf, ht, Option.bind_some, Option.map_some] at hl
  rcases Pmap.pageInsert_spec hI hdir hc hfl hff (fun _ => by rw [← hI.count f]; omega) with
    ⟨p, hp, hins⟩ | ⟨-, -, hnil⟩
  · have hmap : eMemMap 0#32 utemp child (ustacktop - 4096#32) stackPerm k =
        .ok (.ok (), k.setPmap p) :=
      eMemMap_ok (by decide) (by decide) (target_zero h.cur true) h.anyTarget h.parent.dir h.dir
        hl hp
    have hl₁ : Leaves L (fun x v => ¬(x = d ∧ vpn v = vpn stackPage)) (· = f) k.pmap p :=
      .insert hI hdir hown hfl hdata hff (fun v hv => not_not.mpr ⟨rfl, hv⟩) hins
    have h₁ := h.setPmap hl₁.kept
    obtain ⟨hdirs₁, husers₁⟩ := h₁.parent.isDir
    obtain ⟨p', hp', -⟩ := Pmap.pageRemove_spec hl₁.kept.inv hdirs₁
      (Pmap.counted_of_own hl₁.kept.inv.toForest (husers₁.own (pdx utemp) (personal_of_lt hltt)))
    have hunmap : eMemUnmap 0#32 utemp (k.setPmap p) = .ok (.ok (), (k.setPmap p).setPmap p') :=
      eMemUnmap_ok (by decide) (target_zero h₁.cur true) h₁.parent.dir hp'
    refine ⟨(k.setPmap p).setPmap p', ?_⟩
    unfold moveStack
    rw [bind_of_ok (attempt_of_ok hmap)]
    simp only
    rw [bind_of_ok (attempt_of_ok hunmap)]
    rfl
  · exact absurd hnil hfree

end Move

/-! ## The arguments of the child -/

section Init

variable {L : Layout} {k k' : Kernel} {e c : EnvIdx} {d ds f : Frame} {child argv : Word}
  {strs : List (List Byte)}

/-- The arguments in the memory of the parent, outside the page at `UTEMP`. -/
def ArgsAt (d : Frame) (k : Kernel) : Word → List (List Byte) → Prop :=
  ArgList (fun a b => vpn a ≠ vpn utemp ∧ Reads d k Page.byte a b)
    fun a w => vpn a ≠ vpn utemp ∧ ReadsWord d k a w

theorem ArgsAt.reads (h : ArgsAt d k argv strs) :
    ArgList (Reads d k Page.byte) (ReadsWord d k) argv strs :=
  ArgList.mono (fun _ _ hb => hb.2) (fun _ _ hw => hw.2) h

/-- The page just allocated at `UTEMP`. -/
structure FreshTemp (L : Layout) (e : EnvIdx) (d : Frame) (c : EnvIdx) (ds : Frame) (child : Word)
    (f : Frame) (k k₁ : Kernel) : Prop where
  spawning : Spawning L e d c ds child k₁
  temp : Temp ds f k₁
  data : k₁.pmap.Data L f
  ref : (k₁.pmap.ppRef f).toNat ≤ 1
  free : f ∈ k.pmap.pageFreeList
  leaves : Leaves L (fun x v => ¬(x = ds ∧ vpn v = vpn utemp)) (· = f) k.pmap k₁.pmap

theorem freshTemp_of_run (h : Spawning L e d c ds child k)
    (hrun : eMemAlloc 0#32 utemp stackPerm k = .ok (.ok (), k')) :
    ∃ f, FreshTemp L e d c ds child f k k' := by
  have hfl : FlagOnly stackPerm := by decide
  obtain ⟨-, f, s, ha, hins⟩ := memAlloc_of_run (target_zero h.cur true) h.own hrun
  obtain ⟨-, hfree, -⟩ := h.spaces.inv.alloc ha
  rw [← Pmap.setPage_self s f] at hins
  obtain ⟨p, rfl, hinserted, hdata, -, -, href, hl⟩ :=
    fresh_of_run h.parent ha (by decide) hfl _ hins
  have h₁ := h.setPmap hl.kept
  refine ⟨f, h₁, ⟨h₁.curPgdir, fun a ha => ?_, fun pg a => ?_⟩, hdata, href, ?_, hl⟩
  · have hpte : p.pteOf ds a = mkPte f stackPerm := by
      obtain ⟨hi, hj⟩ := vpn_eq_iff.mp ha
      rw [← hinserted.pte, Pmap.pteOf, Pmap.pteOf, hi, hj]
    show p.openFrame ds _ a = some f
    unfold Pmap.openFrame
    rw [hpte, entryFrame_mkPte f hfl, Option.filter_some, if_pos]
    rw [mkPte_and_flags f stackPerm (by decide) (by decide)]
    decide
  · exact (Pmap.kept_setPage hl.kept.inv hdata pg).2 ds a h₁.parent.isDir.1
  · rw [hfree]
    exact List.mem_cons_self

/-- What was read outside the page is read as before, whatever its words are. -/
theorem FreshTemp.reads {α : Type} {read : Page → ℕ → α} {k₁ : Kernel}
    (h : FreshTemp L e d c ds child f k k₁) (h₀ : Spawning L e d c ds child k) {a : Word} {x : α}
    (ha : vpn a ≠ vpn utemp) (hx : Reads ds k read a x) (pg : Page) :
    Reads ds (k₁.withPage f pg) read a x := by
  obtain ⟨hdirs, husers⟩ := h₀.parent.isDir
  obtain ⟨g, hg, hread⟩ := Option.map_eq_some_iff.mp hx.frame
  obtain ⟨hentry, -⟩ := Option.filter_eq_some_iff.mp hg
  have hP : ¬(ds = ds ∧ vpn a = vpn utemp) := fun h => ha h.2
  have hff := (Leaves.mapped h₀.spaces.inv hdirs husers hx.lt hentry).2
  have hne : g ≠ f := by
    rintro rfl
    exact hff h.free
  refine ⟨hx.lt, ?_⟩
  have hopen : k₁.pmap.openFrame ds (pteR ||| pteU) a = some g := by
    unfold Pmap.openFrame
    rw [h.leaves.pte ds a hdirs hx.lt hP]
    exact hg
  rw [h.temp.openFrame, hopen, Option.map_some, ← hread]
  show some (read ((k₁.pmap.setPage f pg).mem g) _) = _
  rw [Pmap.setPage_mem_of_ne hne, h.leaves.mem ds a g hdirs husers hx.lt hP hentry hne]

theorem FreshTemp.args {k₁ : Kernel} (h : FreshTemp L e d c ds child f k k₁)
    (h₀ : Spawning L e d c ds child k) (hargs : ArgsAt ds k argv strs) :
    ArgList (StaysByte ds f k₁) (StaysWord ds f k₁) argv strs :=
  ArgList.mono (fun _ _ hb pg => h.reads h₀ hb.1 hb.2 pg)
    (fun _ _ hw pg => ⟨hw.2.1, h.reads h₀ hw.1 hw.2.2 pg⟩) hargs

/-- The check of `init_stack`, whose sum does not wrap around. -/
theorem size_check (hargs : ArgsAt ds k argv strs) (hint : (flat strs).length < 2 ^ 31) :
    4096#32 < round4 (BitVec.ofNat 32 (flat strs).length) +
        4#32 * (BitVec.ofNat 32 strs.length + 3#32) ↔
      4096 < stringRoom strs + 4 * (strs.length + 3) := by
  have hlt := hargs.reads.lt fun _ _ hw => hw.2.lt
  have ht : utop.toNat = 0x7f400000 := rfl
  have hsum : round4 (BitVec.ofNat 32 (flat strs).length) +
      4#32 * (BitVec.ofNat 32 strs.length + 3#32) =
        BitVec.ofNat 32 (stringRoom strs + 4 * (strs.length + 3)) := by
    have hwords : 4#32 * (BitVec.ofNat 32 strs.length + 3#32) =
        BitVec.ofNat 32 (4 * (strs.length + 3)) := by
      rw [BitVec.ofNat_mul, BitVec.ofNat_add]
    rw [round4_ofNat (by omega), hwords, ← BitVec.ofNat_add]
    rfl
  have hroom : stringRoom strs ≤ (flat strs).length + 3 := by
    unfold stringRoom
    omega
  rw [hsum, BitVec.lt_def, BitVec.toNat_ofNat, BitVec.toNat_ofNat]
  omega

/-- Up to the check. -/
theorem initStack_count (hcur : k.curPgdir = some ds) (hargs : ArgsAt ds k argv strs)
    (hint : (flat strs).length < 2 ^ 31) :
    initStack child argv k =
      if 4096 < stringRoom strs + 4 * (strs.length + 3) then .ok (.error .noMem, k)
      else (do
        eMemAlloc 0#32 utemp stackPerm
        let sp ← layStack argv (BitVec.ofNat 32 strs.length) (BitVec.ofNat 32 (flat strs).length)
        moveStack child
        pure sp : Kern Word) k := by
  have hlt := hargs.reads.lt fun _ _ hw => hw.2.lt
  have htop : utop.toNat < addresses := by decide
  have hcount := countArgs_ok hcur argv 0#32 0#32
    (by rw [BitVec.mul_zero, BitVec.add_zero]; exact hargs.reads)
    (show strs.length < addresses by omega)
  rw [BitVec.zero_add, BitVec.zero_add] at hcount
  unfold initStack
  rw [bind_of_ok hcount]
  simp only [size_check hargs hint]
  split
  · rfl
  · rfl

theorem FreshTemp.withPage {k₁ : Kernel} (h : FreshTemp L e d c ds child f k k₁) (pg : Page) :
    Spawning L e d c ds child (k₁.withPage f pg) ∧
      entryFrame ((k₁.withPage f pg).pmap.pteOf ds utemp) = some f ∧
      ((k₁.withPage f pg).pmap.ppRef f).toNat ≤ 1 := by
  refine ⟨h.spawning.setPmap (Pmap.kept_setPage h.spawning.spaces.inv h.data pg).1, ?_, h.ref⟩
  rw [show (k₁.withPage f pg).pmap.pteOf ds utemp = _ from h.temp.pte pg utemp]
  exact (Option.filter_eq_some_iff.mp (h.temp.entry utemp rfl)).1

theorem withPage_self : k.withPage f (k.pmap.mem f) = k := by
  unfold Kernel.withPage
  rw [Pmap.setPage_self]
  rfl

/-- With three frames at hand the first one is mapped at `UTEMP`, and one is left. -/
theorem memAlloc_temp (h : Spawning L e d c ds child k)
    (hmem : 3 ≤ k.pmap.pageFreeList.length) :
    ∃ k₁, eMemAlloc 0#32 utemp stackPerm k = .ok (.ok (), k₁) ∧ k₁.pmap.pageFreeList ≠ [] := by
  have hI := h.spaces.inv
  obtain ⟨f, rest, hl⟩ : ∃ f rest, k.pmap.pageFreeList = f :: rest := by
    cases hl : k.pmap.pageFreeList with
    | nil => simp [hl] at hmem
    | cons f rest => exact ⟨f, rest, rfl⟩
  obtain ⟨s, ha⟩ : ∃ s, k.pmap.pageAlloc = .ok (f, s) := by
    unfold Pmap.pageAlloc
    rw [hl]
    exact ⟨_, rfl⟩
  obtain ⟨hI₁, hfree, -⟩ := hI.alloc ha
  have hlen : k.pmap.pageFreeList.length = s.pageFreeList.length + 1 := by
    rw [hfree, List.length_cons]
  have hk₁ := h.setPmap (Pmap.kept_alloc hI ha)
  obtain ⟨hdirs, husers⟩ := hk₁.parent.isDir
  have hown := husers.own (pdx utemp) (personal_of_lt (show utemp < utop by decide))
  have hne : s.pageFreeList ≠ [] := by
    intro hnil
    rw [hnil, List.length_nil] at hlen
    omega
  obtain ⟨p, hp, -, hle, -⟩ := Pmap.pageInsert_grows hI₁ hdirs f stackPerm
    (Pmap.counted_of_own hI₁.toForest hown) hne (Pmap.not_free_of_alloc hI ha)
  refine ⟨k.setPmap p, eMemAlloc_ok (by decide) (target_zero h.cur true) h.own ha hp, fun hnil => ?_⟩
  have hnil' : p.pageFreeList = [] := hnil
  have hle' : s.pageFreeList.length ≤ p.pageFreeList.length +
    (if s.tableOf ds (pdx utemp) = none then 1 else 0) := hle
  rw [hnil', List.length_nil] at hle'
  split at hle' <;> omega

/-- The stores, whatever was in the frame. -/
theorem FreshTemp.layStack {k₁ : Kernel} (h : FreshTemp L e d c ds child f k k₁)
    (h₀ : Spawning L e d c ds child k) (hargs : ArgsAt ds k argv strs)
    (hfit : stringRoom strs + 4 * (strs.length + 3) ≤ 4096) :
    Kern.layStack argv (BitVec.ofNat 32 strs.length) (BitVec.ofNat 32 (flat strs).length) k₁ =
      .ok (.ok (atStack (arrayAt strs - 8)), k₁.withPage f (filledPage (k₁.pmap.mem f) strs)) := by
  have : Kern.layStack _ _ _ (k₁.withPage f (k₁.pmap.mem f)) = _ :=
    layStack_ok h.temp (h.args h₀ hargs) hfit
  rwa [withPage_self] at this

/-- A run that returns has filled the page and mapped it for the child. -/
theorem initStack_of_run (h : Spawning L e d c ds child k) (hargs : ArgsAt ds k argv strs)
    (hint : (flat strs).length < 2 ^ 31) {sp : Word}
    (hrun : initStack child argv k = .ok (.ok sp, k')) :
    ∃ f, entryFrame (k'.pmap.pteOf d stackPage) = some f ∧ Arguments (k'.pmap.mem f) sp strs := by
  rw [initStack_count h.curPgdir hargs hint] at hrun
  split at hrun
  · cases hrun
  · next hfit =>
    have hfit := Nat.not_lt.mp hfit
    obtain ⟨⟨⟩, k₁, halloc, hrun⟩ := Sys.bind_ok hrun
    obtain ⟨f, hfresh⟩ := freshTemp_of_run h halloc
    rw [bind_of_ok (hfresh.layStack h hargs hfit)] at hrun
    obtain ⟨⟨⟩, k₂, hmove, hrun⟩ := Sys.bind_ok hrun
    cases hrun
    obtain ⟨hspawn, hf, href⟩ := hfresh.withPage (filledPage (k₁.pmap.mem f) strs)
    obtain ⟨p, rfl, hentry, hpage⟩ := moveStack_of_run hspawn hf href hmove
    refine ⟨f, hentry, ?_⟩
    rw [show ((k₁.withPage f (filledPage (k₁.pmap.mem f) strs)).setPmap p).pmap.mem f = _ from
      hpage, withPage_mem]
    exact filledPage_arguments hfit

/-- With memory at hand arguments that fit are laid out. -/
theorem initStack_ok (h : Spawning L e d c ds child k) (hargs : ArgsAt ds k argv strs)
    (hint : (flat strs).length < 2 ^ 31) (hmem : 3 ≤ k.pmap.pageFreeList.length)
    (hfit : stringRoom strs + 4 * (strs.length + 3) ≤ 4096) :
    ∃ sp k', initStack child argv k = .ok (.ok sp, k') := by
  obtain ⟨k₁, halloc, hne⟩ := memAlloc_temp h hmem
  obtain ⟨f, hfresh⟩ := freshTemp_of_run h halloc
  obtain ⟨hspawn, hf, href⟩ := hfresh.withPage (filledPage (k₁.pmap.mem f) strs)
  obtain ⟨k₂, hmove⟩ := moveStack_ok hspawn hf href hne
  refine ⟨atStack (arrayAt strs - 8), k₂, ?_⟩
  rw [initStack_count h.curPgdir hargs hint, if_neg (Nat.not_lt.mpr hfit), bind_of_ok halloc,
    bind_of_ok (hfresh.layStack h hargs hfit), bind_of_ok hmove]
  rfl

/-- If `init_stack` returns, the page at the top of the child's stack holds the arguments.
With memory at hand it returns where they fit, and where they do not it refuses them before
anything is mapped. -/
theorem initStack_arguments (L : Layout) (k : Kernel) (e c : EnvIdx) (d ds : Frame)
    (child argv : Word) (strs : List (List Byte)) (h : Spawning L e d c ds child k)
    (hargs : ArgsAt ds k argv strs) (hint : (flat strs).length < 2 ^ 31) :
    (∀ sp k', initStack child argv k = .ok (.ok sp, k') →
      ∃ f, entryFrame (k'.pmap.pteOf d stackPage) = some f ∧
        Arguments (k'.pmap.mem f) sp strs) ∧
      (3 ≤ k.pmap.pageFreeList.length →
        (initStack child argv k = .ok (.error .noMem, k) ↔
          4096 < stringRoom strs + 4 * (strs.length + 3)) ∧
        (stringRoom strs + 4 * (strs.length + 3) ≤ 4096 →
          ∃ sp k', initStack child argv k = .ok (.ok sp, k'))) := by
  refine ⟨fun sp k' => initStack_of_run h hargs hint, fun hmem => ⟨⟨fun hrun => ?_, fun hfit => ?_⟩,
    initStack_ok h hargs hint hmem⟩⟩
  · by_contra hfit
    obtain ⟨sp, k', hok⟩ := initStack_ok h hargs hint hmem (Nat.not_lt.mp hfit)
    rw [hrun] at hok
    cases hok
  · rw [initStack_count h.curPgdir hargs hint, if_pos hfit]

/-- A store of the program keeps its memory in order. -/
theorem Filled.storeWord (h : Filled L e d k) (hcur : k.curPgdir = some d) {va w : Word}
    (hva : va < utop) (hrun : userStoreWord va w k = .ok (.ok (), k')) :
    ∃ p, k' = k.setPmap p ∧ Filled L e d k' := by
  unfold userStoreWord userFrame at hrun
  split at hrun
  · cases hrun
  · obtain ⟨g, k₁, hframe, hrun⟩ := Sys.bind_ok hrun
    rw [bind_of_ok (b := k) (t := k) rfl, hcur, bind_of_ok (dirOf_eq d),
      bind_of_ok (b := k) (t := k) rfl] at hframe
    cases hopen : k.pmap.openFrame d (pteR ||| pteW ||| pteU) va with
    | none =>
      rw [hopen] at hframe
      cases hframe
    | some f =>
      rw [hopen] at hframe
      cases hframe
      cases hrun
      have hf := (Option.filter_eq_some_iff.mp hopen).1
      have hdata := h.isDir.2.data va _ hva hf
      exact ⟨_, rfl, h.setPmap (Pmap.kept_setPage h.spaces.inv hdata _).1⟩

end Init

/-- A program with a page of data that may have a child. -/
def argsEnv : Kernel :=
  { wideEnv with envFreeList := [1] }

/-- The program stores a list of one argument and forks. -/
def prepareArgs : Kern Word := do
  eMemAlloc 0#32 0x500000#32 stackPerm
  userStoreWord 0x500000#32 0x500010#32
  userStoreWord 0x500010#32 0x6968#32
  eExofork

theorem prepareArgs_spaces {id : Word} {k' : Kernel}
    (hrun : prepareArgs argsEnv = .ok (.ok id, k')) : ∃ L, Spaces L k' := by
  have hlive : argsEnv.Live 0 := fun h => by cases h
  have h₀ : Filled (Pmap.privateLayout {2000} (keptAbove 1100)) 0 2000 argsEnv :=
    ⟨wideEnv_spaces.congr rfl rfl rfl rfl rfl, hlive, rfl⟩
  unfold prepareArgs at hrun
  obtain ⟨⟨⟩, k₁, halloc, hrun⟩ := Sys.bind_ok hrun
  obtain ⟨⟨⟩, k₂, hstore, hrun⟩ := Sys.bind_ok hrun
  obtain ⟨⟨⟩, k₃, hstore', hrun⟩ := Sys.bind_ok hrun
  obtain ⟨-, f, s, ha, hins⟩ := memAlloc_of_run (k := argsEnv) (e := 0) rfl h₀.dir halloc
  rw [← Pmap.setPage_self s f] at hins
  obtain ⟨p₁, rfl, -, -, -, -, -, hl⟩ := fresh_of_run h₀ ha (by decide) (by decide) _ hins
  obtain ⟨p₂, rfl, h₂⟩ := (h₀.setPmap hl.kept).storeWord rfl (by decide) hstore
  obtain ⟨p₃, rfl, h₃⟩ := h₂.storeWord rfl (by decide) hstore'
  have hnew : ∀ x ∈ (((argsEnv.setPmap p₁).setPmap p₂).setPmap p₃).envFreeList,
      ¬(((argsEnv.setPmap p₁).setPmap p₂).setPmap p₃).Live x := by
    intro x hx
    obtain rfl := List.mem_singleton.mp hx
    exact fun h => h rfl
  obtain ⟨⟨L, -, hL⟩, -⟩ := Sys.wp_ok (eExofork_spaces h₃.spaces hnew) hrun
  exact ⟨L, hL⟩

/-- A child gets the one argument of its parent. -/
theorem initStack_arguments_one :
    ∃ k sp k' f, prepareArgs argsEnv = .ok (.ok 2049#32, k) ∧
      initStack 2049#32 0x500000#32 k = .ok (.ok sp, k') ∧
      entryFrame (k'.pmap.pteOf 3 stackPage) = some f ∧
      Arguments (k'.pmap.mem f) sp [[0x68#8, 0x69#8]] := by
  have hrun : (accepted (prepareArgs argsEnv)).map (fun x => decide (x.1 = 2049#32 ∧
      x.2.curenv = some 0 ∧ (x.2.envs 0).pgdir = some 2000 ∧ (x.2.envs 1).pgdir = some 3 ∧
      x.2.target 2049#32 true = some 1 ∧ (x.2.envs 1).status ≠ .free ∧
      3 ≤ x.2.pmap.pageFreeList.length ∧
      [(0x500000#32, 0x500010#32), (0x500004#32, 0#32)].all (fun r =>
        (x.2.pmap.openFrame 2000 (pteR ||| pteU) r.1).map
          (fun g => (x.2.pmap.mem g).word (r.1.toNat % 4096)) == some r.2) ∧
      [(0x500010#32, 0x68#8), (0x500011#32, 0x69#8), (0x500012#32, 0#8)].all (fun r =>
        (x.2.pmap.openFrame 2000 (pteR ||| pteU) r.1).map
          (fun g => (x.2.pmap.mem g).byte (r.1.toNat % 4096)) == some r.2))) = some true := by
    decide +kernel
  obtain ⟨⟨id, k⟩, hk, hfacts⟩ := Option.map_eq_some_iff.mp hrun
  obtain ⟨rfl, hcur, hown, hdir, htarget, hlive, hmem, hall, hall'⟩ := of_decide_eq_true hfacts
  have hwords := fun r hr => eq_of_beq (List.all_eq_true.mp hall r hr)
  have hbytes := fun r hr => eq_of_beq (List.all_eq_true.mp hall' r hr)
  have hprep := accepted_eq_some.mp hk
  obtain ⟨L, hL⟩ := prepareArgs_spaces hprep
  have hargs : ArgsAt 2000 k 0x500000#32 [[0x68#8, 0x69#8]] :=
    ⟨0x500010#32, by decide, ⟨by decide, by decide, by decide, hwords (_, _) (by simp)⟩,
      ⟨by decide, ⟨by decide, by decide, hbytes (_, _) (by simp)⟩, by decide,
        ⟨by decide, by decide, hbytes (0x500011#32, _) (by simp)⟩,
        ⟨by decide, by decide, hbytes (0x500012#32, _) (by simp)⟩⟩,
      ⟨by decide, by decide, by decide, hwords (0x500004#32, _) (by simp)⟩⟩
  obtain ⟨hpage, hroom⟩ := initStack_arguments L k 1 0 3 2000 2049#32 0x500000#32 [[0x68#8, 0x69#8]]
    ⟨⟨hL, hlive, hdir⟩, hcur, hown, by decide, htarget⟩ hargs (by decide)
  obtain ⟨sp, k', hinit⟩ := (hroom hmem).2 (by decide)
  obtain ⟨f, hf, hargs'⟩ := hpage sp k' hinit
  exact ⟨k, sp, k', f, hprep, hinit, hf, hargs'⟩

end Kern
end RvMos
