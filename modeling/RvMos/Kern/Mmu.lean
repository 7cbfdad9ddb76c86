/-
Words, page-table entries and address arithmetic (`include/mmu.h`,
`include/pmap.h`, `include/error.h`).

The machine word is `BitVec 32`, so every shift and addition of the headers
wraps as it does on the target.  A `struct Page*` is its index in `pages`, and a
pointer to a page-table entry is the frame that holds it with the index of the
word.
-/
import Mathlib.Data.Fintype.Card
import Mathlib.Data.Fintype.Prod
import Mathlib.Tactic.Common
import Mathlib.Tactic.IntervalCases

namespace RvMos

abbrev Word := BitVec 32

/-- `npage`, fixed by `riscv32_detect_memory` at 256 MiB of 4 KiB pages. -/
def npage : Nat := 65536

/-- `struct Page*`: an index into `pages`. -/
abbrev Frame := Fin npage

instance : NeZero npage := ⟨by decide⟩

/-- The index of a word in a page, of an entry in a directory or a table. -/
abbrev Index := Fin 1024

instance indexNeZero : NeZero 1024 := ⟨by decide⟩

/-! ## Error codes and stops -/

/-- The kernel's part of `error.h`. -/
inductive Errno where
  | badEnv | inval | noMem | noE | noFreeEnv | ipcNotRecv
  deriving DecidableEq, Repr

/-- The integer a function returns for the error. -/
def Errno.code : Errno → Int
  | .badEnv => -2
  | .inval => -3
  | .noMem => -4
  | .noE => -5
  | .noFreeEnv => -6
  | .ipcNotRecv => -7

/-- The ways in which the kernel stops for good: a failed `assert`, a `panic`
and an access through a pointer that leads nowhere. -/
inductive Halt where
  | assert (expr : String)
  | panic (msg : String)
  | wild
  deriving DecidableEq, Repr

/-! ## Constants -/

def pgshift : Nat := 12
def ptshift : Nat := 10

def pteV : Word := 1#32 <<< 0
def pteR : Word := 1#32 <<< 1
def pteW : Word := 1#32 <<< 2
def pteX : Word := 1#32 <<< 3
def pteU : Word := 1#32 <<< 4
def pteG : Word := 1#32 <<< 5
def pteA : Word := 1#32 <<< 6
def pteD : Word := 1#32 <<< 7
def pteCow : Word := 1#32 <<< 8
def pteLibrary : Word := 1#32 <<< 9
def pteDirty : Word := 1#32 <<< 30

def kernstart : Word := 0x80000000#32
def kernend : Word := 0x80600000#32
def kstacktop : Word := 0x80600000#32
def ulim : Word := 0x80000000#32
def uvpt : Word := 0x7fc00000#32
def utop : Word := 0x7f400000#32
def uxstacktop : Word := utop
def ustacktop : Word := 0x7f3fe000#32
def ucow : Word := 0x3ff000#32
def utemp : Word := 0x3fe000#32

/-! ## Macros -/

def pdx (va : Word) : Index := Fin.ofNat 1024 ((va >>> 22) &&& 0x3ff#32).toNat
def ptx (va : Word) : Index := Fin.ofNat 1024 ((va >>> 12) &&& 0x3ff#32).toNat

def rounddown (a : Word) : Word := a &&& ~~~(4096#32 - 1#32)

def pteAddr (pte : Word) : Word := (pte &&& ~~~0x3ff#32) &&& ~~~(0x3#32 <<< 30)

def paddr (pte : Word) : Word := (pte >>> ptshift) <<< pgshift

def ppn (addr : Word) : Word := (addr - kernstart) >>> pgshift

/-- `addr2page`; `none` is its panic on an address outside memory. -/
def addr2page (addr : Word) : Option Frame :=
  if h : (ppn addr).toNat < npage then some ⟨(ppn addr).toNat, h⟩ else none

def page2addr (pp : Frame) : Word := (BitVec.ofNat 32 pp.val <<< pgshift) + kernstart

def page2ptx (pp : Frame) : Word := (page2addr pp >>> pgshift) <<< ptshift

/-- The word `page_insert` stores: `page2ptx(pp) | perm | PTE_V`. -/
def mkPte (pp : Frame) (perm : Word) : Word := page2ptx pp ||| perm ||| pteV

/-- The flag bits of an entry: the ten low bits and the two software bits at
the top. -/
def flagMask : Word := 0xc00003ff#32

/-- A permission word made only of flag bits. -/
def FlagOnly (perm : Word) : Prop := perm &&& ~~~flagMask = 0#32

instance (perm : Word) : Decidable (FlagOnly perm) :=
  inferInstanceAs (Decidable (perm &&& ~~~flagMask = 0#32))

/-- The valid bit of an entry. -/
def valid (pte : Word) : Bool := pte &&& pteV != 0#32

/-- The frame a valid entry points to, as `page_insert` computes it. -/
def entryFrame (pte : Word) : Option Frame :=
  if valid pte then addr2page (paddr (pteAddr pte)) else none

/-! ## Address arithmetic -/

/-- Rounding down to a multiple of a power of two. -/
theorem and_not_low (a : Word) {m : Word} {k : ℕ} (hm : m.toNat = 2 ^ k - 1) :
    (a &&& ~~~m).toNat = a.toNat / 2 ^ k * 2 ^ k := by
  have hdisj : (a &&& ~~~m) &&& (a &&& m) = 0#32 := by
    ext i hi
    simp only [BitVec.getElem_and, BitVec.getElem_not, BitVec.getElem_zero]
    cases a[i] <;> cases m[i] <;> rfl
  have hsplit : (a &&& ~~~m) + (a &&& m) = a := by
    rw [BitVec.add_eq_or_of_and_eq_zero _ _ hdisj]
    ext i hi
    simp only [BitVec.getElem_or, BitVec.getElem_and, BitVec.getElem_not]
    cases a[i] <;> cases m[i] <;> rfl
  have hlow : (a &&& m).toNat = a.toNat % 2 ^ k := by
    rw [BitVec.toNat_and, hm, Nat.and_two_pow_sub_one_eq_mod]
  have hsum : (a &&& ~~~m).toNat + (a &&& m).toNat = a.toNat := by
    conv_rhs => rw [← hsplit, BitVec.toNat_add_of_and_eq_zero hdisj]
  have hdiv := Nat.div_add_mod a.toNat (2 ^ k)
  rw [Nat.mul_comm] at hdiv
  omega

theorem rounddown_toNat (a : Word) : (rounddown a).toNat = a.toNat / 4096 * 4096 :=
  and_not_low a (k := 12) (by decide)

theorem page2addr_toNat (pp : Frame) : (page2addr pp).toNat = 0x80000000 + pp.val * 4096 := by
  have hlt : pp.val < 65536 := pp.isLt
  simp only [page2addr, pgshift, kernstart]
  bv_omega

theorem page2ptx_toNat (pp : Frame) : (page2ptx pp).toNat = 0x20000000 + pp.val * 1024 := by
  have hlt : pp.val < 65536 := pp.isLt
  have ha := page2addr_toNat pp
  simp only [page2ptx, pgshift, ptshift]
  bv_omega

theorem paddr_page2ptx (pp : Frame) : paddr (page2ptx pp) = page2addr pp := by
  have hlt : pp.val < 65536 := pp.isLt
  have ha := page2addr_toNat pp
  have hp := page2ptx_toNat pp
  simp only [paddr, pgshift, ptshift]
  bv_omega

theorem addr2page_page2addr (pp : Frame) : addr2page (page2addr pp) = some pp := by
  have hlt : pp.val < 65536 := pp.isLt
  have ha := page2addr_toNat pp
  have hp : (ppn (page2addr pp)).toNat = pp.val := by
    simp only [ppn, pgshift, kernstart]
    bv_omega
  unfold addr2page
  rw [dif_pos (by rw [hp]; exact pp.isLt)]
  exact congrArg some (Fin.ext hp)

theorem page2addr_injective {p q : Frame} (h : page2addr p = page2addr q) : p = q := by
  have hp := addr2page_page2addr p
  rw [h, addr2page_page2addr] at hp
  exact (Option.some.inj hp).symm

def vpn (va : Word) : Word := va >>> pgshift

theorem pdx_val (va : Word) : (pdx va).val = va.toNat / 4194304 := by
  have hlt := va.isLt
  have hmask : (0x3ff#32).toNat = 2 ^ 10 - 1 := by decide
  simp only [pdx, Fin.ofNat, BitVec.toNat_and, BitVec.toNat_ushiftRight, hmask,
    Nat.and_two_pow_sub_one_eq_mod, Nat.shiftRight_eq_div_pow]
  omega

theorem ptx_val (va : Word) : (ptx va).val = va.toNat / 4096 % 1024 := by
  have hmask : (0x3ff#32).toNat = 2 ^ 10 - 1 := by decide
  simp only [ptx, Fin.ofNat, BitVec.toNat_and, BitVec.toNat_ushiftRight, hmask,
    Nat.and_two_pow_sub_one_eq_mod, Nat.shiftRight_eq_div_pow]
  omega

theorem vpn_toNat (va : Word) : (vpn va).toNat = va.toNat / 4096 := by
  simp only [vpn, pgshift, BitVec.toNat_ushiftRight, Nat.shiftRight_eq_div_pow]

/-- The page of an address is its pair of table indices. -/
theorem vpn_eq_iff {va va' : Word} :
    vpn va = vpn va' ↔ pdx va = pdx va' ∧ ptx va = ptx va' := by
  have hv := vpn_toNat va
  have hv' := vpn_toNat va'
  constructor
  · intro h
    rw [h, hv'] at hv
    constructor
    · apply Fin.ext
      rw [pdx_val, pdx_val]
      omega
    · apply Fin.ext
      rw [ptx_val, ptx_val]
      omega
  · rintro ⟨hd, ht⟩
    have hd' := congrArg Fin.val hd
    have ht' := congrArg Fin.val ht
    rw [pdx_val, pdx_val] at hd'
    rw [ptx_val, ptx_val] at ht'
    apply BitVec.eq_of_toNat_eq
    rw [hv, hv']
    omega

/-! ## Entries -/

theorem pteAddr_eq_and (pte : Word) : pteAddr pte = pte &&& 0x3ffffc00#32 := by
  rw [pteAddr, BitVec.and_assoc]
  rfl

/-- `page_lookup` skips the mask of `PTE_ADDR`; the two top bits fall out of the
shift. -/
theorem paddr_pteAddr (pte : Word) : paddr (pteAddr pte) = paddr pte := by
  rw [pteAddr_eq_and, paddr, paddr, ptshift, pgshift, BitVec.ushiftRight_and_distrib,
    BitVec.shiftLeft_and_distrib]
  ext i hi
  interval_cases i <;> simp

theorem page2ptx_and (pp : Frame) : page2ptx pp &&& 0x3ffffc00#32 = page2ptx pp := by
  have hlt : pp.val < 65536 := pp.isLt
  have hp := page2ptx_toNat pp
  apply BitVec.eq_of_toNat_eq
  rw [BitVec.toNat_and, hp]
  apply Nat.eq_of_testBit_eq
  intro b
  have hform : 0x20000000 + pp.val * 1024 = (0x80000 + pp.val) <<< 10 := by
    rw [Nat.shiftLeft_eq]; omega
  have hmask : (0x3ffffc00#32).toNat = (2 ^ 20 - 1) <<< 10 := by decide
  rw [hform, hmask, ← Nat.shiftLeft_and_distrib, Nat.and_two_pow_sub_one_of_lt_two_pow (by omega)]

theorem flagOnly_and {perm : Word} (h : FlagOnly perm) : perm &&& 0x3ffffc00#32 = 0#32 := by
  have hmask : ~~~flagMask = 0x3ffffc00#32 := by decide
  rw [← hmask]
  exact h

theorem pteAddr_mkPte {perm : Word} (pp : Frame) (h : FlagOnly perm) :
    pteAddr (mkPte pp perm) = page2ptx pp := by
  rw [pteAddr_eq_and, mkPte, BitVec.and_or_distrib_right, BitVec.and_or_distrib_right,
    page2ptx_and, flagOnly_and h]
  have hv : pteV &&& 0x3ffffc00#32 = 0#32 := by decide
  rw [hv, BitVec.or_zero, BitVec.or_zero]

theorem valid_or_pteV (w : Word) : valid (w ||| pteV) = true := by
  have hne : (w ||| pteV) &&& pteV ≠ 0#32 := by
    intro h
    have hb := congrArg (fun v => v.getLsbD 0) h
    simp [pteV] at hb
  simpa [valid] using hne

theorem valid_mkPte (pp : Frame) (perm : Word) : valid (mkPte pp perm) = true :=
  valid_or_pteV _

theorem mkPte_ne_zero (t : Frame) (fl : Word) : mkPte t fl ≠ 0#32 := by
  intro h
  have hv := valid_mkPte t fl
  rw [h] at hv
  exact absurd hv (by decide)

theorem entryFrame_mkPte {perm : Word} (pp : Frame) (h : FlagOnly perm) :
    entryFrame (mkPte pp perm) = some pp := by
  rw [entryFrame, if_pos (valid_mkPte pp perm), pteAddr_mkPte pp h, paddr_page2ptx,
    addr2page_page2addr]

theorem flagOnly_zero : FlagOnly 0#32 := by decide

theorem mkPte_inj {t u : Frame} (h : mkPte t 0#32 = mkPte u 0#32) : t = u := by
  have hf := entryFrame_mkPte t flagOnly_zero
  rw [h, entryFrame_mkPte u flagOnly_zero] at hf
  exact (Option.some.inj hf).symm

/-- A directory entry is an entry without flags. -/
theorem mkPte_zero (pp : Frame) : mkPte pp 0#32 = page2ptx pp ||| pteV := by
  rw [mkPte, BitVec.or_zero]

theorem entryFrame_zero : entryFrame 0#32 = none := by decide

theorem valid_of_entryFrame {w : Word} {f : Frame} (h : entryFrame w = some f) :
    valid w = true := by
  unfold entryFrame at h
  by_cases hv : valid w = true
  · exact hv
  · rw [if_neg hv] at h; exact absurd h (by simp)

/-- The flags of a stored entry are the permission word with the valid bit. -/
theorem mkPte_flags {perm : Word} (pp : Frame) (h : FlagOnly perm) :
    mkPte pp perm &&& flagMask = perm ||| pteV := by
  have hp : page2ptx pp &&& flagMask = 0#32 := by
    rw [← page2ptx_and, BitVec.and_assoc]
    have : 0x3ffffc00#32 &&& flagMask = 0#32 := by decide
    rw [this, BitVec.and_zero]
  have hperm : perm &&& flagMask = perm := by
    have hsplit : perm = (perm &&& flagMask) ||| (perm &&& ~~~flagMask) := by
      rw [← BitVec.and_or_distrib_left]
      have : flagMask ||| ~~~flagMask = BitVec.allOnes 32 := by decide
      rw [this, BitVec.and_allOnes]
    rw [show perm &&& ~~~flagMask = 0#32 from h, BitVec.or_zero] at hsplit
    exact hsplit.symm
  have hv : pteV &&& flagMask = pteV := by decide
  rw [mkPte, BitVec.and_or_distrib_right, BitVec.and_or_distrib_right, hp, hperm, hv,
    BitVec.zero_or]

/-- The flags of an entry are those that were asked for. -/
theorem mkPte_and_flags (pp : Frame) (perm : Word) {m : Word} (hm : m &&& 0x3ffffc00#32 = 0#32)
    (hv : m &&& pteV = 0#32) : mkPte pp perm &&& m = perm &&& m := by
  have hp : page2ptx pp &&& m = 0#32 := by
    rw [← page2ptx_and pp, BitVec.and_assoc, BitVec.and_comm _ m, hm]
    simp
  unfold mkPte
  rw [BitVec.and_or_distrib_right, BitVec.and_or_distrib_right, hp, BitVec.and_comm pteV m, hv]
  simp

/-! ## Permission words -/

/-- The bits of an entry that hold the frame number. -/
def addrMask : Word := 0x3ffffc00#32

/-- All address bits of the permission word are bits of the frame number. -/
def NoStray (perm : Word) (pp : Frame) : Prop := perm &&& addrMask &&& ~~~page2ptx pp = 0#32

instance (perm : Word) (pp : Frame) : Decidable (NoStray perm pp) :=
  inferInstanceAs (Decidable (_ = _))

/-- A word adds nothing to another when its bits are bits of the other. -/
theorem or_eq_left_iff (a b : Word) : a ||| b = a ↔ b &&& ~~~a = 0#32 := by
  constructor
  · intro h
    apply BitVec.eq_of_getLsbD_eq
    intro i hi
    have hb := congrArg (fun w => BitVec.getLsbD w i) h
    simp only [BitVec.getLsbD_or] at hb
    simp only [BitVec.getLsbD_and, BitVec.getLsbD_not, BitVec.getLsbD_zero, hi, decide_true,
      Bool.true_and]
    cases ha : a.getLsbD i
    · rw [ha, Bool.false_or] at hb
      rw [hb, Bool.false_and]
    · rw [Bool.not_true, Bool.and_false]
  · intro h
    apply BitVec.eq_of_getLsbD_eq
    intro i hi
    have hb := congrArg (fun w => BitVec.getLsbD w i) h
    simp only [BitVec.getLsbD_and, BitVec.getLsbD_not, BitVec.getLsbD_zero, hi, decide_true,
      Bool.true_and] at hb
    rw [BitVec.getLsbD_or]
    cases ha : a.getLsbD i
    · rw [ha] at hb
      simpa using hb
    · rfl

/-- Without stray bits only the flags of the permission word count. -/
theorem mkPte_noStray {perm : Word} {pp : Frame} (h : NoStray perm pp) :
    mkPte pp perm = mkPte pp (perm &&& flagMask) := by
  have hsplit : perm = (perm &&& addrMask) ||| (perm &&& flagMask) := by
    rw [← BitVec.and_or_distrib_left, show addrMask ||| flagMask = BitVec.allOnes 32 by decide,
      BitVec.and_allOnes]
  have haddr : page2ptx pp ||| (perm &&& addrMask) = page2ptx pp := (or_eq_left_iff _ _).mpr h
  conv_lhs => rw [mkPte, hsplit, ← BitVec.or_assoc, haddr]
  rfl

theorem flagOnly_flags (perm : Word) : FlagOnly (perm &&& flagMask) := by
  rw [FlagOnly, BitVec.and_assoc, show flagMask &&& ~~~flagMask = 0#32 by decide, BitVec.and_zero]

theorem FlagOnly.noStray {perm : Word} (h : FlagOnly perm) (pp : Frame) : NoStray perm pp := by
  rw [NoStray, show perm &&& addrMask = 0#32 from flagOnly_and h, BitVec.zero_and]

end RvMos
