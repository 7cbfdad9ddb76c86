/-
Formatted output (`lib/print.c`).

`vprintfmt` walks over the format and hands text to the function `out` that its
caller passes.  A run is the list of these calls, oldest first.  A conversion
that takes an argument which the caller did not pass has no result.

The arithmetic is that of the machine: `int` and `long` have 32 bits and wrap,
so the least `int` is its own negative and the size of `buf` is the sum as an
unsigned number.  `buf` starts with what the stack held there.
-/
import RvMos.Lib.Buffer
import RvMos.Kern.Mmu
import Mathlib.Data.Nat.Digits.Defs

namespace RvMos

open Lib

namespace Common

abbrev Byte := BitVec 8

def ascii (c : Char) : Byte :=
  BitVec.ofNat 8 c.toNat

/-! ## Numbers -/

def digit (upcase : Bool) (tmp : ℕ) : Byte :=
  if tmp ≤ 9 then ascii '0' + BitVec.ofNat 8 tmp
  else if upcase then ascii 'A' + BitVec.ofNat 8 tmp - 10#8
  else ascii 'a' + BitVec.ofNat 8 tmp - 10#8

/-- The loop over the digits, lowest first; `p` is where the next one goes. -/
def putDigits (upcase : Bool) (base : ℕ) : ℕ → List Byte → ℕ → ℕ → Option (List Byte × ℕ)
  | 0, _, _, _ => none
  | fuel + 1, buf, p, u => do
    let buf ← Buffer.put buf p (digit upcase (u % base))
    if u / base = 0 then some (buf, p + 1)
    else putDigits upcase base fuel buf (p + 1) (u / base)

/-- Number of turns of the digit loop that suffices for 32 bits. -/
def maxDigits : ℕ := 32

def addSign (buf : List Byte) (p : ℕ) (negFlag : Bool) : Option (List Byte) :=
  if negFlag then Buffer.put buf p (ascii '-') else some buf

/-- The padding, with the sign already behind the digits. -/
def addPadding (buf : List Byte) (actualLength length : ℕ) (negFlag ladjust : Bool)
    (padc : Byte) : Option (List Byte) :=
  if negFlag ∧ ¬ladjust ∧ padc = ascii '0' then do
    let buf ← Buffer.fill buf (actualLength - 1) padc (length - actualLength)
    Buffer.put buf (length - 1) (ascii '-')
  else Buffer.fill buf actualLength padc (length - actualLength)

/-- `print_num`: the text it passes to `out`. -/
def printNum (stack : ℕ → Byte) (u : Word) (base : ℕ) (negFlag : Bool) (length : Word)
    (ladjust : Bool) (padc : Byte) (upcase : Bool) : Option (List Byte) := do
  let buf := (List.range (length + 70#32).toNat).map stack
  let (buf, p) ← putDigits upcase base maxDigits buf 0 u.toNat
  let buf ← addSign buf p negFlag
  let actualLength := if negFlag then p + 1 else p
  let length := if length.toInt < actualLength then actualLength else length.toNat
  let padc := if ladjust then ascii ' ' else padc
  let buf ← addPadding buf actualLength length negFlag ladjust padc
  let last := if ladjust then actualLength - 1 else length - 1
  let buf ← Buffer.swapEnds buf 0 last
  if length ≤ buf.length then some (buf.take length) else none

/-- The canonical numeral of `u`. -/
def numeral (base : ℕ) (upcase : Bool) (u : ℕ) : List Byte :=
  (Nat.toDigits base u).map fun c => ascii (if upcase then c.toUpper else c)

def sign (negFlag : Bool) : List Byte :=
  if negFlag then [ascii '-'] else []

/-- A signed numeral in a field of the given width. -/
def field (s d : List Byte) (width : ℕ) (ladjust : Bool) (padc : Byte) : List Byte :=
  let pad := width - (s ++ d).length
  if ladjust then s ++ d ++ List.replicate pad (ascii ' ')
  else if padc = ascii '0' then s ++ List.replicate pad (ascii '0') ++ d
  else List.replicate pad (ascii ' ') ++ s ++ d

theorem field_length {s d : List Byte} {width : ℕ} {ladjust : Bool} {padc : Byte} :
    (field s d width ladjust padc).length = max width (s ++ d).length := by
  unfold field
  split
  · simp; omega
  · split <;> simp <;> omega

theorem digit_eq {upcase : Bool} {d : ℕ} (hd : d < 16) :
    digit upcase d =
      ascii (if upcase then (Nat.digitChar d).toUpper else Nat.digitChar d) := by
  have hall : ∀ d < 16, ∀ up, digit up d =
      ascii (if up then (Nat.digitChar d).toUpper else Nat.digitChar d) := by decide
  exact hall d hd upcase

theorem numeral_lt {base u : ℕ} {upcase : Bool} (hb : 16 ≥ base) (hu : u < base) :
    numeral base upcase u = [digit upcase u] := by
  rw [numeral, Nat.toDigits_of_lt_base hu, List.map_singleton, digit_eq (by omega)]

theorem numeral_step {base u : ℕ} {upcase : Bool} (h2 : 1 < base) (hb : 16 ≥ base)
    (hu : base ≤ u) :
    numeral base upcase u = numeral base upcase (u / base) ++ [digit upcase (u % base)] := by
  have hmod : u % base < 16 := by
    have := Nat.mod_lt u (show 0 < base by omega)
    omega
  rw [numeral, Nat.toDigits_of_base_le h2 hu, List.map_append, List.map_singleton,
    digit_eq hmod, numeral]

theorem numeral_length_pos (base u : ℕ) (upcase : Bool) :
    0 < (numeral base upcase u).length := by
  rw [numeral, List.length_map]
  exact Nat.length_toDigits_pos

theorem numeral_length_le {base u : ℕ} {upcase : Bool} (h2 : 1 < base) (hu : u < 2 ^ 32) :
    (numeral base upcase u).length ≤ 32 := by
  rw [numeral, List.length_map, Nat.length_toDigits_le_iff h2 (by decide)]
  exact lt_of_lt_of_le hu (Nat.pow_le_pow_left h2 32)

/-- The digit loop leaves the numeral in the array, its last digit first. -/
theorem putDigits_at {base u fuel p : ℕ} {upcase : Bool} {l m r : List Byte}
    (h2 : 1 < base) (hb : 16 ≥ base) (hu : u < base ^ fuel) (hfuel : 0 < fuel)
    (hp : p = l.length) (hmid : m.length = (numeral base upcase u).length) :
    putDigits upcase base fuel (l ++ m ++ r) p u =
      some (l ++ (numeral base upcase u).reverse ++ r, p + m.length) := by
  induction fuel generalizing u p l m with
  | zero => omega
  | succ fuel ih =>
    obtain ⟨w, m, rfl⟩ : ∃ w t, m = w :: t := by
      cases m with
      | nil => exact absurd hmid (by simpa using (numeral_length_pos base u upcase).ne)
      | cons w t => exact ⟨w, t, rfl⟩
    have hput : Buffer.put (l ++ w :: m ++ r) p (digit upcase (u % base)) =
        some ((l ++ [digit upcase (u % base)]) ++ m ++ r) := by
      rw [List.append_assoc, List.cons_append, Buffer.put_at hp]
      simp
    simp only [putDigits, hput, Option.bind_eq_bind, Option.bind_some]
    by_cases hlt : u < base
    · -- the last digit
      rw [numeral_lt hb hlt] at hmid ⊢
      have hnil : m = [] := by simpa using hmid
      rw [if_pos (Nat.div_eq_of_lt hlt), Nat.mod_eq_of_lt hlt, hnil]
      simp
    · have hle : base ≤ u := by omega
      have hdiv : u / base ≠ 0 := by
        have := Nat.div_pos hle (by omega)
        omega
      have hpow : u / base < base ^ fuel := by
        rw [Nat.div_lt_iff_lt_mul (by omega), ← Nat.pow_succ]
        exact hu
      have hf : 0 < fuel := by
        cases fuel with
        | zero => exact absurd (Nat.lt_one_iff.mp hpow) hdiv
        | succ n => exact Nat.succ_pos n
      rw [numeral_step h2 hb hle] at hmid ⊢
      rw [if_neg hdiv, ih hpow hf (by simp [hp]) (by simpa using hmid)]
      simp
      omega

theorem exists_cut (l : List Byte) {n : ℕ} (h : n ≤ l.length) :
    ∃ xs ys, l = xs ++ ys ∧ xs.length = n :=
  ⟨l.take n, l.drop n, (List.take_append_drop n l).symm, by simp [h]⟩

/-- The size of `buf`, for a width that is not negative. -/
theorem bufSize {length : Word} (hlen : 0 ≤ length.toInt) :
    (length + 70#32).toNat = length.toInt.toNat + 70 := by
  have hlt := length.isLt
  have hsmall : 2 * length.toNat < 2 ^ 32 := by
    by_contra hge
    rw [BitVec.toInt_eq_toNat_cond, if_neg hge] at hlen
    omega
  rw [BitVec.toInt_eq_toNat_cond, if_pos hsmall, BitVec.toNat_add]
  simp
  omega

theorem field_of_pad {s d : List Byte} {n k : ℕ} {ladjust : Bool} {padc : Byte}
    (hn : n = (s ++ d).length + k) :
    field s d n ladjust padc =
      if ladjust then s ++ d ++ List.replicate k (ascii ' ')
      else if padc = ascii '0' then s ++ List.replicate k (ascii '0') ++ d
      else List.replicate k (ascii ' ') ++ s ++ d := by
  have hk : n - (s ++ d).length = k := by omega
  simp only [field, hk]

/-- Zeros between a sign and its digits: they overwrite the minus sign, and it is
put again at the far end. -/
theorem addPadding_zeros {d p₀ e : List Byte} {n : ℕ} (hn : n = (d.length + 1) + p₀.length) :
    addPadding ((sign true ++ d).reverse ++ p₀ ++ e) (d.length + 1) n true false (ascii '0') =
      some ((sign true ++ List.replicate p₀.length (ascii '0') ++ d).reverse ++ e) := by
  obtain ⟨q, z, hq⟩ : ∃ q z, ascii '-' :: p₀ = q ++ [z] :=
    ⟨_, _, (List.dropLast_append_getLast (List.cons_ne_nil _ _)).symm⟩
  have hqlen : q.length = p₀.length := by
    have := congrArg List.length hq
    simpa using this.symm
  have hstart : (sign true ++ d).reverse ++ p₀ ++ e = d.reverse ++ q ++ z :: e := by
    have : d.reverse ++ (ascii '-' :: p₀) ++ e = d.reverse ++ (q ++ [z]) ++ e := by rw [hq]
    simpa [sign] using this
  have hfill : Buffer.fill (d.reverse ++ q ++ z :: e) (d.length + 1 - 1) (ascii '0')
      (n - (d.length + 1)) =
      some (d.reverse ++ List.replicate q.length (ascii '0') ++ z :: e) := by
    have hk : n - (d.length + 1) = q.length := by omega
    rw [hk]
    exact Buffer.fill_at (by simp)
  have hput : Buffer.put (d.reverse ++ List.replicate q.length (ascii '0') ++ z :: e) (n - 1)
      (ascii '-') = some (d.reverse ++ List.replicate q.length (ascii '0') ++ ascii '-' :: e) :=
    Buffer.put_at (by simp; omega)
  rw [addPadding, if_pos (by simp), hstart, hfill, Option.bind_eq_bind, Option.bind_some, hput,
    hqlen]
  simp [sign]

/-- The reversal, with the padding on the side where it belongs. -/
theorem pad_at {d p₀ : List Byte} (e : List Byte) (negFlag ladjust : Bool) {padc : Byte}
    {n a : ℕ}
    (hd : d ≠ []) (hpad : padc = ascii ' ' ∨ padc = ascii '0')
    (ha : a = (sign negFlag ++ d).length) (hn : n = a + p₀.length) :
    ((addPadding ((sign negFlag ++ d).reverse ++ p₀ ++ e) a n negFlag ladjust
        (if ladjust then ascii ' ' else padc)).bind fun buf =>
      Buffer.swapEnds buf 0 (if ladjust then a - 1 else n - 1)) =
      some (field (sign negFlag) d n ladjust padc ++ e) := by
  have hpos : 0 < d.length := List.length_pos_of_ne_nil hd
  have hk : n - a = p₀.length := by omega
  have hapos : 0 < a := by rw [ha, List.length_append]; omega
  rw [field_of_pad (ha ▸ hn)]
  have hblank : addPadding ((sign negFlag ++ d).reverse ++ p₀ ++ e) a n negFlag ladjust (ascii ' ') =
      some ((sign negFlag ++ d).reverse ++ List.replicate p₀.length (ascii ' ') ++ e) := by
    rw [addPadding, if_neg (by rintro ⟨-, -, h⟩; exact absurd h (by decide)), hk]
    exact Buffer.fill_at (by rw [ha, List.length_reverse])
  cases ladjust with
  | true =>
    simp only [if_true]
    rw [hblank, Option.bind_some, List.append_assoc]
    have hswap := Buffer.swapEnds_at (l := []) (m := (sign negFlag ++ d).reverse)
      (r := List.replicate p₀.length (ascii ' ') ++ e) (i := 0) (j := a - 1) rfl
      (by rw [List.length_reverse, ← ha, List.length_nil]; omega)
    rw [List.nil_append, List.nil_append, List.reverse_reverse] at hswap
    rw [hswap, ← List.append_assoc]
  | false =>
    have hswap : ∀ r : List Byte, r.length = n →
        Buffer.swapEnds (r.reverse ++ e) 0 (n - 1) = some (r ++ e) := by
      intro r hr
      have h := Buffer.swapEnds_at (l := []) (m := r.reverse) (r := e) (i := 0) (j := n - 1)
        rfl (by rw [List.length_reverse, hr, List.length_nil]; omega)
      rwa [List.nil_append, List.nil_append, List.reverse_reverse] at h
    simp only [Bool.false_eq_true, if_false]
    rcases hpad with rfl | rfl
    · have hne : ascii ' ' ≠ ascii '0' := by decide
      rw [hblank, Option.bind_some, if_neg hne]
      have := hswap (List.replicate p₀.length (ascii ' ') ++ (sign negFlag ++ d))
        (by rw [List.length_append, List.length_replicate]; omega)
      simpa using this
    · rw [if_pos rfl]
      cases negFlag with
      | true =>
        have ha' : a = d.length + 1 := by rw [ha]; simp [sign]
        rw [ha', addPadding_zeros (by omega), Option.bind_some, hswap _ (by simp [sign]; omega)]
      | false =>
        rw [addPadding, if_neg (by simp), hk, Buffer.fill_at (by rw [ha, List.length_reverse]),
          Option.bind_some]
        have := hswap (List.replicate p₀.length (ascii '0') ++ (sign false ++ d))
          (by rw [List.length_append, List.length_replicate]; omega)
        simpa [sign] using this

theorem field_max {s d : List Byte} {w : ℕ} {ladjust : Bool} {padc : Byte} :
    field s d (max (s ++ d).length w) ladjust padc = field s d w ladjust padc := by
  have hk : max (s ++ d).length w - (s ++ d).length = w - (s ++ d).length := by omega
  simp only [field, hk]

theorem toNat_of_nonneg {length : Word} (hlen : 0 ≤ length.toInt) :
    length.toNat = length.toInt.toNat := by
  have h := BitVec.toInt_eq_toNat_cond length
  split at h <;> omega

theorem sign_length (negFlag : Bool) : (sign negFlag).length = if negFlag then 1 else 0 := by
  cases negFlag <;> rfl

/-- The digits and the sign, written backwards. -/
theorem putNumber_at {d₀ s₀ : List Byte} {u base : ℕ} {negFlag : Bool} (upcase : Bool)
    (rest : List Byte)
    (h2 : 1 < base) (hb : base ≤ 16) (hu : u < 2 ^ 32)
    (hd : d₀.length = (numeral base upcase u).length) (hs : s₀.length = (sign negFlag).length) :
    putDigits upcase base maxDigits (d₀ ++ (s₀ ++ rest)) 0 u =
        some ((numeral base upcase u).reverse ++ (s₀ ++ rest), d₀.length) ∧
      addSign ((numeral base upcase u).reverse ++ (s₀ ++ rest)) d₀.length negFlag =
        some ((sign negFlag ++ numeral base upcase u).reverse ++ rest) := by
  constructor
  · have hpow : u < base ^ maxDigits := lt_of_lt_of_le hu (Nat.pow_le_pow_left h2 32)
    have h := putDigits_at (l := []) (r := s₀ ++ rest) h2 hb hpow (by decide) rfl hd
    rwa [List.nil_append, List.nil_append, List.length_nil, Nat.zero_add] at h
  · cases negFlag with
    | true =>
      obtain ⟨c, rfl⟩ := List.length_eq_one_iff.mp hs
      rw [addSign, if_pos rfl, List.singleton_append, Buffer.put_at (by simp [hd])]
      simp [sign]
    | false =>
      have : s₀ = [] := List.length_eq_zero_iff.mp hs
      simp [this, sign, addSign]

theorem printNum_eq {stack : ℕ → Byte} {u : Word} {base : ℕ} {negFlag : Bool} {length : Word}
    {ladjust : Bool} {padc : Byte} {upcase : Bool} (h2 : 1 < base) (hb : base ≤ 16)
    (hlen : 0 ≤ length.toInt) (hpad : padc = ascii ' ' ∨ padc = ascii '0') :
    printNum stack u base negFlag length ladjust padc upcase =
      some (field (sign negFlag) (numeral base upcase u.toNat) length.toInt.toNat ladjust padc) := by
  obtain ⟨D, hD⟩ : ∃ D, numeral base upcase u.toNat = D := ⟨_, rfl⟩
  obtain ⟨a, ha⟩ : ∃ a, (sign negFlag ++ D).length = a := ⟨_, rfl⟩
  obtain ⟨w, hw⟩ : ∃ w, length.toInt.toNat = w := ⟨_, rfl⟩
  have hD32 : D.length ≤ 32 := hD ▸ numeral_length_le h2 u.isLt
  have hDne : D ≠ [] := List.ne_nil_of_length_pos (hD ▸ numeral_length_pos ..)
  have hS := sign_length negFlag
  have hSle : (sign negFlag).length ≤ 1 := by rw [hS]; split <;> omega
  have hlenA : a = D.length + (sign negFlag).length := by
    rw [← ha, List.length_append, Nat.add_comm]
  -- the buffer, cut where the parts of the text go
  have hsize : ((List.range (length + 70#32).toNat).map stack).length = w + 70 := by
    rw [List.length_map, List.length_range, bufSize hlen, hw]
  obtain ⟨d₀, r₁, hcut₁, hd₀⟩ := exists_cut ((List.range (length + 70#32).toNat).map stack)
    (n := D.length) (by omega)
  have hr₁ := congrArg List.length hcut₁
  rw [hsize, List.length_append] at hr₁
  obtain ⟨s₀, r₂, hcut₂, hs₀⟩ := exists_cut r₁ (n := (sign negFlag).length) (by omega)
  have hr₂ := congrArg List.length hcut₂
  rw [List.length_append] at hr₂
  obtain ⟨p₀, e, hcut₃, hp₀⟩ := exists_cut r₂ (n := max a w - a) (by omega)
  obtain ⟨hdigits, hsign⟩ := putNumber_at upcase (p₀ ++ e) h2 hb u.isLt (hD ▸ hd₀) hs₀
  rw [hD] at hdigits hsign
  have hactual : (if negFlag then d₀.length + 1 else d₀.length) = a := by
    rw [hlenA, hS, hd₀]; split <;> omega
  have hmax : (if length.toInt < (a : ℤ) then a else length.toNat) = max a w := by
    rw [toNat_of_nonneg hlen, hw]
    split <;> omega
  have hpadded := pad_at e negFlag ladjust hDne hpad ha.symm
    (show max a w = a + p₀.length by omega)
  have htake : (field (sign negFlag) D (max a w) ladjust padc).length = max a w := by
    rw [field_length, ha]
    omega
  obtain ⟨buf, hbuf, hrev⟩ := Option.bind_eq_some_iff.mp hpadded
  rw [List.append_assoc] at hbuf
  simp only [printNum, hcut₁, hcut₂, hcut₃, hdigits, hsign, hactual, hmax, hbuf, hrev,
    Option.bind_eq_bind, Option.bind_some, List.length_append, htake, Nat.le_add_right, if_true,
    List.take_left' htake]
  rw [← ha, field_max, hD, hw]

/-! ## The format -/

/-- A value passed for the format: an `int` or `long`, or the string a pointer
leads to. -/
inductive Arg where
  | word (w : Word)
  | text (s : List Byte)
  deriving DecidableEq, Repr

/-- The calls of `out`. -/
abbrev Out := List (List Byte)

def blanks (n : ℕ) : Out :=
  List.replicate n [ascii ' ']

def printChar (c : Byte) (length : Word) (ladjust : Bool) : Out :=
  let length := if length.toInt < 1 then 1 else length.toNat
  if ladjust then [c] :: blanks (length - 1) else blanks (length - 1) ++ [[c]]

def printStr (s : List Byte) (length : Word) (ladjust : Bool) : Out :=
  let length := if length.toInt < s.length then s.length else length.toNat
  if ladjust then s :: blanks (length - s.length) else blanks (length - s.length) ++ [s]

/-- What stands between `%` and the conversion. -/
structure Spec where
  width : Word
  ladjust : Bool
  padc : Byte
  longFlag : Bool
  deriving DecidableEq, Repr

def scanFlag (fmt : List Byte) : Bool × Byte × List Byte :=
  match fmt with
  | [] => (false, ascii ' ', [])
  | c :: rest =>
    if c = ascii '-' then (true, ascii ' ', rest)
    else if c = ascii '0' then (false, ascii '0', rest)
    else (false, ascii ' ', fmt)

def scanWidth (width : Word) : List Byte → Word × List Byte
  | [] => (width, [])
  | c :: rest =>
    if ascii '0' ≤ c ∧ c ≤ ascii '9' then
      scanWidth (width * 10#32 + c.setWidth 32 - (ascii '0').setWidth 32) rest
    else (width, c :: rest)

def scanLong (fmt : List Byte) : Bool × List Byte :=
  match fmt with
  | [] => (false, [])
  | c :: rest => if c = ascii 'l' then (true, rest) else (false, fmt)

def scanSpec (fmt : List Byte) : Spec × List Byte :=
  let (ladjust, padc, fmt) := scanFlag fmt
  let (width, fmt) := scanWidth 0#32 fmt
  let (longFlag, fmt) := scanLong fmt
  (⟨width, ladjust, padc, longFlag⟩, fmt)

/-- The next argument as a number.  `int` and `long` are the same 32 bits. -/
def nextWord : List Arg → Option (Word × List Arg)
  | .word w :: args => some (w, args)
  | _ => none

def nextText : List Arg → Option (List Byte × List Arg)
  | .text s :: args => some (s, args)
  | _ => none

/-- The cases of a number printed without a sign. -/
def printUnsigned (stack : ℕ → Byte) (spec : Spec) (base : ℕ) (upcase : Bool) (args : List Arg) :
    Option (Out × List Arg) := do
  let (num, args) ← nextWord args
  let text ← printNum stack num base false spec.width spec.ladjust spec.padc upcase
  some ([text], args)

/-- The cases `d` and `D`. -/
def printSigned (stack : ℕ → Byte) (spec : Spec) (args : List Arg) :
    Option (Out × List Arg) := do
  let (num, args) ← nextWord args
  let negFlag := decide (num.toInt < 0)
  let num := if negFlag then -num else num
  let text ← printNum stack num 10 negFlag spec.width spec.ladjust spec.padc false
  some ([text], args)

/-- The `switch` on the conversion character. -/
def convert (stack : ℕ → Byte) (spec : Spec) (c : Byte) (args : List Arg) :
    Option (Out × List Arg) :=
  if c = ascii 'b' then printUnsigned stack spec 2 false args
  else if c = ascii 'd' ∨ c = ascii 'D' then printSigned stack spec args
  else if c = ascii 'o' ∨ c = ascii 'O' then printUnsigned stack spec 8 false args
  else if c = ascii 'u' ∨ c = ascii 'U' then printUnsigned stack spec 10 false args
  else if c = ascii 'x' then printUnsigned stack spec 16 false args
  else if c = ascii 'X' then printUnsigned stack spec 16 true args
  else if c = ascii 'c' then do
    let (w, args) ← nextWord args
    some (printChar (w.setWidth 8) spec.width spec.ladjust, args)
  else if c = ascii 's' then do
    let (s, args) ← nextText args
    some (printStr s spec.width spec.ladjust, args)
  else some ([[c]], args)

/-- The loop of `vprintfmt`; the format is what is left of it up to the NUL.  Every
turn takes a character, so that the fuel of `vprintfmt` is enough. -/
def printLoop (stack : ℕ → Byte) : ℕ → List Byte → List Arg → Option Out
  | 0, _, _ => none
  | _ + 1, [], _ => some []
  | fuel + 1, c :: fmt, args =>
    if c = ascii '%' then do
      let (spec, fmt) := scanSpec fmt
      match fmt with
      | [] => some []
      | c :: fmt => do
        let (out, args) ← convert stack spec c args
        let outs ← printLoop stack fuel fmt args
        some (out ++ outs)
    else (printLoop stack fuel fmt args).map ([c] :: ·)

def vprintfmt (stack : ℕ → Byte) (fmt : List Byte) (args : List Arg) : Option Out :=
  printLoop stack (fmt.length + 1) fmt args

/-! ## Reading a number back -/

def isDigit (c : Byte) : Bool :=
  ascii '0' ≤ c && c ≤ ascii '9'

def readNat (ds : List Byte) : Option ℕ :=
  if ds ≠ [] ∧ ds.all isDigit then
    some (ds.foldl (fun n c => 10 * n + (c - ascii '0').toNat) 0)
  else none

/-- Decimal digits after an optional minus sign. -/
def readInt : List Byte → Option ℤ
  | [] => none
  | c :: ds =>
    if c = ascii '-' then (readNat ds).map fun n => -(n : ℤ)
    else (readNat (c :: ds)).map fun n => (n : ℤ)

theorem decimal_digit {d : ℕ} (hd : d < 10) :
    isDigit (digit false d) = true ∧ (digit false d - ascii '0').toNat = d := by
  have hall : ∀ d < 10, isDigit (digit false d) = true ∧
      (digit false d - ascii '0').toNat = d := by decide
  exact hall d hd

theorem readNat_numeral (n : ℕ) : readNat (numeral 10 false n) = some n := by
  have hne : numeral 10 false n ≠ [] := List.ne_nil_of_length_pos (numeral_length_pos 10 n false)
  have hread : (numeral 10 false n).all isDigit = true ∧
      (numeral 10 false n).foldl (fun n c => 10 * n + (c - ascii '0').toNat) 0 = n := by
    clear hne
    induction n using Nat.strong_induction_on with
    | _ n ih =>
      by_cases hlt : n < 10
      · obtain ⟨hdig, hval⟩ := decimal_digit hlt
        rw [numeral_lt (by decide) hlt, List.all_cons, List.all_nil, hdig, List.foldl_cons,
          List.foldl_nil, hval]
        exact ⟨rfl, by omega⟩
      · obtain ⟨hdig, hval⟩ := decimal_digit (Nat.mod_lt n (show 0 < 10 by decide))
        obtain ⟨hall, hfold⟩ := ih (n / 10) (by omega)
        rw [numeral_step (by decide) (by decide) (by omega), List.all_append, List.foldl_append,
          hall, hfold, List.foldl_cons, List.foldl_nil, hval]
        exact ⟨by simp [hdig], by omega⟩
  rw [readNat, if_pos ⟨hne, hread.1⟩, hread.2]

theorem readInt_numeral (negFlag : Bool) (n : ℕ) :
    readInt (sign negFlag ++ numeral 10 false n) = some (if negFlag then -(n : ℤ) else n) := by
  have hread := readNat_numeral n
  cases negFlag with
  | true => simp [sign, readInt, hread]
  | false =>
    obtain ⟨c, ds, hcons⟩ := List.exists_cons_of_ne_nil
      (List.ne_nil_of_length_pos (numeral_length_pos 10 n false))
    -- a digit is not the minus sign
    have hc : c ≠ ascii '-' := by
      rintro rfl
      rw [hcons, readNat, List.all_cons] at hread
      have : isDigit (ascii '-') = false := by decide
      simp [this] at hread
    rw [hcons] at hread ⊢
    simp [sign, readInt, hc, hread]

theorem toNat_neg_eq {v : Word} (h : v.toInt < 0) : ((-v).toNat : ℤ) = -v.toInt := by
  have hcond := BitVec.toInt_eq_toNat_cond v
  have hlt := v.isLt
  rw [BitVec.toNat_neg]
  split at hcond <;> omega

/-- A `%d` alone. -/
theorem vprintfmt_d {stack : ℕ → Byte} {v : Word} :
    vprintfmt stack [ascii '%', ascii 'd'] [.word v] =
      (printNum stack (if v.toInt < 0 then -v else v) 10 (decide (v.toInt < 0)) 0#32 false
        (ascii ' ') false).map fun text => [text] := by
  have hspec : scanSpec [ascii 'd'] = (⟨0#32, false, ascii ' ', false⟩, [ascii 'd']) := by decide
  have hb : ascii 'd' ≠ ascii 'b' := by decide
  simp only [vprintfmt, List.length_cons, List.length_nil, printLoop, if_true, hspec, convert, hb,
    if_false, true_or, printSigned, nextWord, Option.bind_eq_bind, Option.bind_some,
    decide_eq_true_eq]
  cases printNum stack (if v.toInt < 0 then -v else v) 10 (decide (v.toInt < 0)) 0#32 false
    (ascii ' ') false with
  | none => rfl
  | some text => rfl

/-- `print_num` passes to `out` exactly the number in its field, and what `%d` prints
is read back as the same `int`. -/
theorem printNum_prints (stack : ℕ → Byte) (u : Word) (base : ℕ)
    (hb : base = 2 ∨ base = 8 ∨ base = 10 ∨ base = 16) (negFlag : Bool) (length : Word)
    (hlen : 0 ≤ length.toInt) (ladjust : Bool) (padc : Byte)
    (hpad : padc = ascii ' ' ∨ padc = ascii '0') (upcase : Bool) :
    printNum stack u base negFlag length ladjust padc upcase =
        some (field (sign negFlag) (numeral base upcase u.toNat) length.toInt.toNat ladjust padc) ∧
      ∀ v : Word, ∃ text, vprintfmt stack [ascii '%', ascii 'd'] [.word v] = some [text] ∧
        readInt text = some v.toInt := by
  refine ⟨printNum_eq (by omega) (by omega) hlen hpad, fun v => ?_⟩
  have hprint : printNum stack (if v.toInt < 0 then -v else v) 10 (decide (v.toInt < 0)) 0#32 false
      (ascii ' ') false = some (field _ _ _ _ _) :=
    printNum_eq (by decide) (by decide) (by decide) (.inl rfl)
  have hfield : ∀ d, field (sign (decide (v.toInt < 0))) d (0#32).toInt.toNat false (ascii ' ') =
      sign (decide (v.toInt < 0)) ++ d := by
    intro d
    have hne : ascii ' ' ≠ ascii '0' := by decide
    simp [field, hne]
  rw [hfield] at hprint
  refine ⟨_, by rw [vprintfmt_d, hprint, Option.map_some], ?_⟩
  rw [readInt_numeral]
  by_cases hneg : v.toInt < 0
  · simp only [hneg, decide_true, if_true, toNat_neg_eq hneg, neg_neg]
  · have hnat := BitVec.toInt_eq_toNat_cond v
    simp only [hneg, decide_false, Bool.false_eq_true, if_false, Option.some.injEq]
    split at hnat <;> omega

theorem printNum_prints_field :
    printNum (fun _ => 7#8) 42#32 10 true 5#32 false (ascii '0') false =
        some [ascii '-', ascii '0', ascii '0', ascii '4', ascii '2'] ∧
      ∀ v : Word, ∃ text, vprintfmt (fun _ => 7#8) [ascii '%', ascii 'd'] [.word v] = some [text] ∧
        readInt text = some v.toInt := by
  have h := printNum_prints (fun _ => 7#8) 42#32 10 (.inr (.inr (.inl rfl))) true 5#32 (by decide)
    false (ascii '0') (.inr rfl) false
  refine ⟨h.1.trans ?_, h.2⟩
  decide

end Common
end RvMos
