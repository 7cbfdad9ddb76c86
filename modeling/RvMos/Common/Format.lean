/-
Formats and what they expand to.

A format is read as literal characters and directives, and the expansion of a directive
is the number in its field, the padded character or string, or the character itself.
The calls of `out` that `vprintfmt` makes are together the expansion of the format.

`int` and `long` have 32 bits.  A string lies below `ULIM`, so that its length is an
`int` that is not negative, and the stack is as deep as `print_num` needs it.
-/
import RvMos.Common.Print

namespace RvMos

open Lib

namespace Common

/-! ## Directives -/

inductive Flag where
  | plain
  | left
  | zero
  deriving DecidableEq, Repr

/-- `% [-|0] digits* [l] conv`; `conv` is missing where the format ends before it. -/
structure Directive where
  flag : Flag
  digits : List Byte
  long : Bool
  conv : Option Byte
  deriving DecidableEq, Repr

inductive Item where
  | literal (c : Byte)
  | directive (d : Directive)
  deriving DecidableEq, Repr

def Flag.chars : Flag → List Byte
  | .plain => []
  | .left => [ascii '-']
  | .zero => [ascii '0']

def longChars (long : Bool) : List Byte := if long then [ascii 'l'] else []

def Item.chars : Item → List Byte
  | .literal c => [c]
  | .directive d => ascii '%' :: (d.flag.chars ++ d.digits ++ longChars d.long ++
      d.conv.toList)

def takeFlag (cs : List Byte) : Flag × List Byte :=
  if cs.head? = some (ascii '-') then (.left, cs.tail)
  else if cs.head? = some (ascii '0') then (.zero, cs.tail)
  else (.plain, cs)

def takeLong (cs : List Byte) : Bool × List Byte :=
  if cs.head? = some (ascii 'l') then (true, cs.tail) else (false, cs)

/-- The directive behind a `%` and what follows it. -/
def takeDirective (cs : List Byte) : Directive × List Byte :=
  let (flag, cs) := takeFlag cs
  let (long, rest) := takeLong (cs.dropWhile isDigit)
  (⟨flag, cs.takeWhile isDigit, long, rest.head?⟩, rest.tail)

theorem takeFlag_length (cs : List Byte) : (takeFlag cs).2.length ≤ cs.length := by
  unfold takeFlag
  split
  · simp
  · split
    · simp
    · exact le_rfl

theorem takeLong_length (cs : List Byte) : (takeLong cs).2.length ≤ cs.length := by
  unfold takeLong
  split
  · simp
  · exact le_rfl

theorem takeDirective_length (cs : List Byte) : (takeDirective cs).2.length ≤ cs.length := by
  have hflag := takeFlag_length cs
  have hlong := takeLong_length ((takeFlag cs).2.dropWhile isDigit)
  have hdrop := (List.dropWhile_suffix isDigit (l := (takeFlag cs).2)).length_le
  simp only [takeDirective, List.length_tail]
  omega

/-- The items of a format. -/
def parse : List Byte → List Item
  | [] => []
  | c :: cs =>
    if c = ascii '%' then .directive (takeDirective cs).1 :: parse (takeDirective cs).2
    else .literal c :: parse cs
termination_by cs => cs.length
decreasing_by
  · exact Nat.lt_succ_of_le (takeDirective_length cs)
  · exact Nat.lt_succ_self cs.length

/-! ## Expansion -/

/-- The number that digits spell. -/
def value (ds : List Byte) : ℕ :=
  ds.foldl (fun n c => 10 * n + (c - ascii '0').toNat) 0

inductive Conv where
  | unsigned (base : ℕ) (upcase : Bool)
  | signed
  | char
  | string
  | itself (c : Byte)
  deriving DecidableEq, Repr

def conversion (c : Byte) : Conv :=
  if c = ascii 'b' then .unsigned 2 false
  else if c = ascii 'd' ∨ c = ascii 'D' then .signed
  else if c = ascii 'o' ∨ c = ascii 'O' then .unsigned 8 false
  else if c = ascii 'u' ∨ c = ascii 'U' then .unsigned 10 false
  else if c = ascii 'x' then .unsigned 16 false
  else if c = ascii 'X' then .unsigned 16 true
  else if c = ascii 'c' then .char
  else if c = ascii 's' then .string
  else .itself c

inductive Kind where
  | word
  | text
  deriving DecidableEq, Repr

def Arg.kind : Arg → Kind
  | .word _ => .word
  | .text _ => .text

/-- The argument that a conversion takes, if any. -/
def Conv.kind : Conv → Option Kind
  | .unsigned _ _ | .signed | .char => some .word
  | .string => some .text
  | .itself _ => none

def Directive.kind (d : Directive) : Option Kind :=
  d.conv.bind fun c => (conversion c).kind

def Item.kind : Item → Option Kind
  | .literal _ => none
  | .directive d => d.kind

/-- The directives take the arguments in order; there may be more than they take. -/
def Matches (items : List Item) (args : List Arg) : Prop :=
  items.filterMap Item.kind <+: args.map Arg.kind

namespace Directive

def width (d : Directive) : ℕ := value d.digits

def ladjust (d : Directive) : Bool := decide (d.flag = .left)

def padc (d : Directive) : Byte := if d.flag = .zero then ascii '0' else ascii ' '

/-- A text with blanks on one side. -/
def padded (d : Directive) (s : List Byte) : List Byte := field [] s d.width d.ladjust (ascii ' ')

/-- The text of a directive, and the arguments it leaves. -/
def expand (d : Directive) (args : List Arg) : Option (List Byte × List Arg) :=
  match d.conv.map conversion, args with
  | none, args => some ([], args)
  | some (.itself c), args => some ([c], args)
  | some (.unsigned base upcase), .word w :: args =>
    some (field [] (numeral base upcase w.toNat) d.width d.ladjust d.padc, args)
  | some .signed, .word w :: args =>
    some (field (sign (decide (w.toInt < 0))) (numeral 10 false w.toInt.natAbs) d.width d.ladjust
      d.padc, args)
  | some .char, .word w :: args => some (d.padded [w.setWidth 8], args)
  | some .string, .text s :: args => some (d.padded s, args)
  | _, _ => none

end Directive

/-- The text of a format. -/
def expand : List Item → List Arg → Option (List Byte)
  | [], _ => some []
  | .literal c :: items, args => (expand items args).map (c :: ·)
  | .directive d :: items, args =>
    (d.expand args).bind fun p => (expand items p.2).map (p.1 ++ ·)

/-! ## The scanner reads directives -/

theorem scanFlag_eq (cs : List Byte) :
    scanFlag cs = (decide ((takeFlag cs).1 = .left),
      if (takeFlag cs).1 = .zero then ascii '0' else ascii ' ', (takeFlag cs).2) := by
  cases cs with
  | nil => rfl
  | cons c cs =>
    unfold scanFlag takeFlag
    simp only [List.head?_cons, List.tail_cons, Option.some.injEq]
    by_cases hl : c = ascii '-'
    · simp only [if_pos hl, decide_true, reduceCtorEq, if_false]
    · by_cases hz : c = ascii '0'
      · simp only [if_neg hl, if_pos hz, decide_false, if_true, reduceCtorEq]
      · simp only [if_neg hl, if_neg hz, decide_false, if_false, reduceCtorEq]

theorem scanLong_eq (cs : List Byte) : scanLong cs = takeLong cs := by
  cases cs with
  | nil => rfl
  | cons c cs =>
    unfold scanLong takeLong
    simp only [List.head?_cons, List.tail_cons, Option.some.injEq]

theorem isDigit_iff {c : Byte} : isDigit c = true ↔ ascii '0' ≤ c ∧ c ≤ ascii '9' := by
  unfold isDigit
  rw [Bool.and_eq_true, decide_eq_true_iff, decide_eq_true_iff]

theorem scanWidth_digit {c : Byte} (hc : isDigit c = true) (n : ℕ) :
    BitVec.ofNat 32 n * 10#32 + c.setWidth 32 - (ascii '0').setWidth 32 =
      BitVec.ofNat 32 (10 * n + (c - ascii '0').toNat) := by
  obtain ⟨h0, -⟩ := isDigit_iff.mp hc
  have hle : (ascii '0').toNat ≤ c.toNat := h0
  have h48 : (ascii '0').toNat = 48 := rfl
  have hs48 : (ascii '0').setWidth 32 = 48#32 := rfl
  refine BitVec.eq_of_toNat_eq ?_
  rw [hs48]
  bv_omega

/-- The width wraps as the number that the digits spell. -/
theorem scanWidth_eq (cs : List Byte) (n : ℕ) :
    scanWidth (BitVec.ofNat 32 n) cs =
      (BitVec.ofNat 32 ((cs.takeWhile isDigit).foldl
        (fun n c => 10 * n + (c - ascii '0').toNat) n), cs.dropWhile isDigit) := by
  induction cs generalizing n with
  | nil => rfl
  | cons c cs ih =>
    unfold scanWidth
    by_cases hc : isDigit c = true
    · rw [if_pos (isDigit_iff.mp hc), scanWidth_digit hc, ih, List.takeWhile_cons_of_pos hc,
        List.dropWhile_cons_of_pos hc, List.foldl_cons]
    · rw [if_neg (mt isDigit_iff.mpr hc), List.takeWhile_cons_of_neg hc,
        List.dropWhile_cons_of_neg hc]
      rfl

/-- What the code keeps of a directive. -/
def Directive.spec (d : Directive) : Spec :=
  ⟨BitVec.ofNat 32 d.width, d.ladjust, d.padc, d.long⟩

theorem scanSpec_eq (cs : List Byte) :
    ∃ rest, scanSpec cs = ((takeDirective cs).1.spec, rest) ∧
      rest.head? = (takeDirective cs).1.conv ∧ rest.tail = (takeDirective cs).2 := by
  refine ⟨(takeLong ((takeFlag cs).2.dropWhile isDigit)).2, ?_, rfl, rfl⟩
  unfold scanSpec
  rw [scanFlag_eq]
  simp only
  rw [scanWidth_eq]
  simp only
  rw [scanLong_eq]
  rfl

/-! ## The conversions print the expansion -/

theorem convert_eq (stack : ℕ → Byte) (spec : Spec) (c : Byte) (args : List Arg) :
    convert stack spec c args =
      match conversion c with
      | .unsigned base upcase => printUnsigned stack spec base upcase args
      | .signed => printSigned stack spec args
      | .char => (nextWord args).bind fun p =>
          some (printChar (p.1.setWidth 8) spec.width spec.ladjust, p.2)
      | .string => (nextText args).bind fun p =>
          some (printStr p.1 spec.width spec.ladjust, p.2)
      | .itself c => some ([[c]], args) := by
  unfold convert conversion
  split_ifs <;> rfl

theorem conversion_base {c : Byte} {base : ℕ} {upcase : Bool}
    (h : conversion c = .unsigned base upcase) : 1 < base ∧ base ≤ 16 := by
  unfold conversion at h
  split_ifs at h <;> cases h <;> omega

theorem flatten_blanks (n : ℕ) : (blanks n).flatten = List.replicate n (ascii ' ') := by
  unfold blanks
  induction n with
  | zero => rfl
  | succ n ih => rw [List.replicate_succ, List.flatten_cons, ih, List.replicate_succ]; rfl

theorem toInt_ofNat {n : ℕ} (h : n < 2 ^ 31) : (BitVec.ofNat 32 n).toInt = n := by
  rw [BitVec.toInt_eq_toNat_cond, BitVec.toNat_ofNat, if_pos (by omega)]
  omega

theorem printStr_flatten {n : ℕ} (h : n < 2 ^ 31) (s : List Byte) (ladjust : Bool) :
    (printStr s (BitVec.ofNat 32 n) ladjust).flatten = field [] s n ladjust (ascii ' ') := by
  have hne : ascii ' ' ≠ ascii '0' := by decide
  have hlen : (if (BitVec.ofNat 32 n).toInt < s.length then s.length
      else (BitVec.ofNat 32 n).toNat) - s.length = n - s.length := by
    rw [toInt_ofNat h, BitVec.toNat_ofNat]
    split <;> omega
  unfold printStr field
  simp only [hlen, List.nil_append, if_neg hne]
  cases ladjust with
  | true => simp only [if_true, List.flatten_cons, flatten_blanks]
  | false =>
    simp only [Bool.false_eq_true, if_false, List.flatten_append, flatten_blanks,
      List.flatten_singleton, List.append_nil]

section Conversions

variable {stack : ℕ → Byte} {d : Directive}

theorem Directive.padc_or (d : Directive) : d.padc = ascii ' ' ∨ d.padc = ascii '0' := by
  unfold Directive.padc
  split
  · exact .inr rfl
  · exact .inl rfl

theorem printNum_field (hw : d.width < 2 ^ 31) {base : ℕ} (hb : 1 < base ∧ base ≤ 16) (u : Word)
    (negFlag upcase : Bool) :
    printNum stack u base negFlag d.spec.width d.spec.ladjust d.spec.padc upcase =
      some (field (sign negFlag) (numeral base upcase u.toNat) d.width d.ladjust d.padc) := by
  have hint : d.spec.width.toInt = d.width := toInt_ofNat hw
  have h : printNum stack u base negFlag d.spec.width d.spec.ladjust d.spec.padc upcase =
      some (field (sign negFlag) (numeral base upcase u.toNat) d.spec.width.toInt.toNat
        d.spec.ladjust d.spec.padc) :=
    printNum_eq hb.1 hb.2 (hint ▸ Int.natCast_nonneg d.width) d.padc_or
  rwa [hint, Int.toNat_natCast] at h

theorem natAbs_eq {w : Word} (h : w.toInt < 0) : (-w).toNat = w.toInt.natAbs := by
  have hneg := toNat_neg_eq h
  omega

theorem toNat_eq_natAbs {w : Word} (h : ¬w.toInt < 0) : w.toNat = w.toInt.natAbs := by
  have hnat := toNat_of_nonneg (not_lt.mp h)
  omega

theorem printUnsigned_expand (hw : d.width < 2 ^ 31) {base : ℕ} (hb : 1 < base ∧ base ≤ 16)
    (upcase : Bool) (w : Word) (args : List Arg) :
    printUnsigned stack d.spec base upcase (.word w :: args) =
      some ([field [] (numeral base upcase w.toNat) d.width d.ladjust d.padc], args) := by
  simp only [printUnsigned, nextWord, printNum_field hw hb, Option.bind_eq_bind, Option.bind_some]
  rfl

theorem printSigned_expand (hw : d.width < 2 ^ 31) (w : Word) (args : List Arg) :
    printSigned stack d.spec (.word w :: args) =
      some ([field (sign (decide (w.toInt < 0))) (numeral 10 false w.toInt.natAbs) d.width d.ladjust
        d.padc], args) := by
  have h10 : 1 < 10 ∧ 10 ≤ 16 := by omega
  simp only [printSigned, nextWord, printNum_field hw h10, Option.bind_eq_bind, Option.bind_some]
  by_cases hneg : w.toInt < 0
  · simp only [hneg, decide_true, if_true, natAbs_eq hneg]
  · simp only [hneg, decide_false, Bool.false_eq_true, if_false, toNat_eq_natAbs hneg]

theorem expand_kind {c : Byte} {args : List Arg} {r : List Byte × List Arg} {k : Kind}
    (hc : d.conv = some c) (hk : (conversion c).kind = some k) (h : d.expand args = some r) :
    ∃ a as, args = a :: as ∧ a.kind = k := by
  unfold Directive.expand at h
  rw [hc, Option.map_some] at h
  cases args with
  | nil => cases hconv : conversion c <;> simp [hconv, Conv.kind] at h hk
  | cons a as =>
    refine ⟨a, as, rfl, ?_⟩
    cases hconv : conversion c <;> rw [hconv] at h hk <;> cases a <;> cases h <;> cases hk <;> rfl

/-- The switch prints what the directive stands for. -/
theorem convert_expand (stack : ℕ → Byte) {c : Byte} {args rest : List Arg} {text : List Byte}
    (hw : d.width < 2 ^ 31) (hc : d.conv = some c) (h : d.expand args = some (text, rest)) :
    ∃ out, convert stack d.spec c args = some (out, rest) ∧ out.flatten = text := by
  have harg : ∀ k, (conversion c).kind = some k → ∃ a as, args = a :: as ∧ a.kind = k :=
    fun _ hk => expand_kind hc hk h
  unfold Directive.expand at h
  rw [hc, Option.map_some] at h
  rw [convert_eq]
  cases hconv : conversion c with
  | itself c =>
    rw [hconv] at h
    cases h
    exact ⟨[[c]], rfl, rfl⟩
  | string =>
    obtain ⟨⟨w⟩ | ⟨s⟩, as, rfl, ha⟩ := harg .text (by rw [hconv]; rfl)
    · cases ha
    · rw [hconv] at h
      cases h
      exact ⟨_, rfl, printStr_flatten hw s d.ladjust⟩
  | char =>
    obtain ⟨⟨w⟩ | ⟨s⟩, as, rfl, ha⟩ := harg .word (by rw [hconv]; rfl)
    · rw [hconv] at h
      cases h
      exact ⟨_, rfl, printStr_flatten hw [w.setWidth 8] d.ladjust⟩
    · cases ha
  | signed =>
    obtain ⟨⟨w⟩ | ⟨s⟩, as, rfl, ha⟩ := harg .word (by rw [hconv]; rfl)
    · rw [hconv] at h
      cases h
      exact ⟨_, printSigned_expand hw w _, List.flatten_singleton⟩
    · cases ha
  | unsigned base upcase =>
    obtain ⟨⟨w⟩ | ⟨s⟩, as, rfl, ha⟩ := harg .word (by rw [hconv]; rfl)
    · rw [hconv] at h
      cases h
      exact ⟨_, printUnsigned_expand hw (conversion_base hconv) upcase w _, List.flatten_singleton⟩
    · cases ha

end Conversions

/-! ## The loop prints the expansion -/

section Loop

variable {stack : ℕ → Byte} {fmt : List Byte} {args : List Arg}

theorem scanSpec_length {spec : Spec} {c : Byte} {tail : List Byte}
    (h : scanSpec fmt = (spec, c :: tail)) : tail.length ≤ fmt.length := by
  obtain ⟨rest, hscan, -, htail⟩ := scanSpec_eq fmt
  rw [hscan] at h
  cases h
  rw [List.tail_cons] at htail
  rw [htail]
  exact takeDirective_length fmt

/-- Fuel for every character is enough. -/
theorem printLoop_fuel {m n : ℕ} (hm : fmt.length < m) (hn : fmt.length < n) :
    printLoop stack m fmt args = printLoop stack n fmt args := by
  induction m generalizing n fmt args with
  | zero => exact absurd hm (Nat.not_lt_zero _)
  | succ m ih =>
    cases n with
    | zero => exact absurd hn (Nat.not_lt_zero _)
    | succ n =>
      cases fmt with
      | nil => rfl
      | cons c fmt =>
        rw [List.length_cons] at hm hn
        simp only [printLoop]
        by_cases hc : c = ascii '%'
        · rw [if_pos hc, if_pos hc]
          cases hscan : scanSpec fmt with
          | mk spec rest =>
            cases rest with
            | nil => rfl
            | cons c' tail =>
              have hlen := scanSpec_length hscan
              simp only
              congr 1
              funext p
              have hrest : printLoop stack m tail p.2 = printLoop stack n tail p.2 :=
                ih (by omega) (by omega)
              rw [hrest]
        · have hrest : printLoop stack m fmt args = printLoop stack n fmt args :=
            ih (by omega) (by omega)
          rw [if_neg hc, if_neg hc, hrest]

theorem vprintfmt_literal {c : Byte} (hc : c ≠ ascii '%') :
    vprintfmt stack (c :: fmt) args = (vprintfmt stack fmt args).map ([c] :: ·) := by
  unfold vprintfmt
  rw [printLoop, if_neg hc, List.length_cons]

theorem vprintfmt_stops {spec : Spec} (h : scanSpec fmt = (spec, [])) :
    vprintfmt stack (ascii '%' :: fmt) args = some [] := by
  unfold vprintfmt
  simp only [printLoop, if_true, h]

theorem vprintfmt_directive {spec : Spec} {c : Byte} {tail : List Byte}
    (h : scanSpec fmt = (spec, c :: tail)) :
    vprintfmt stack (ascii '%' :: fmt) args =
      (convert stack spec c args).bind fun p =>
        (vprintfmt stack tail p.2).map (p.1 ++ ·) := by
  have hlen := scanSpec_length h
  unfold vprintfmt
  simp only [printLoop, if_true, h, Option.bind_eq_bind]
  congr 1
  funext p
  have hrest : printLoop stack (ascii '%' :: fmt).length tail p.2 =
      printLoop stack (tail.length + 1) tail p.2 :=
    printLoop_fuel (by rw [List.length_cons]; omega) (by omega)
  rw [hrest]
  exact Option.map_eq_bind.symm

theorem expand_directive {d : Directive} {items : List Item} {text : List Byte}
    (h : expand (.directive d :: items) args = some text) :
    ∃ t rest ts, d.expand args = some (t, rest) ∧ expand items rest = some ts ∧ text = t ++ ts := by
  unfold expand at h
  obtain ⟨⟨t, rest⟩, hd, h⟩ := Option.bind_eq_some_iff.mp h
  obtain ⟨ts, hts, rfl⟩ := Option.map_eq_some_iff.mp h
  exact ⟨t, rest, ts, hd, hts, rfl⟩

/-- The calls of `out` are together what the format expands to. -/
theorem vprintfmt_expand {text : List Byte}
    (hw : ∀ d, .directive d ∈ parse fmt → d.width < 2 ^ 31)
    (h : expand (parse fmt) args = some text) :
    ∃ out, vprintfmt stack fmt args = some out ∧ out.flatten = text := by
  induction fmt using parse.induct generalizing args text with
  | case1 =>
    rw [parse] at h
    cases h
    exact ⟨[], rfl, rfl⟩
  | case2 cs ih =>
    rw [parse, if_pos rfl] at h hw
    obtain ⟨t, rest, ts, hd, hts, rfl⟩ := expand_directive h
    obtain ⟨tail, hscan, hconv, htail⟩ := scanSpec_eq cs
    have hdw := hw _ List.mem_cons_self
    cases tail with
    | nil =>
      -- the format ends in the directive
      rw [← htail, List.tail_nil, parse] at hts
      unfold Directive.expand at hd
      rw [← hconv] at hd
      cases hts
      cases hd
      exact ⟨[], vprintfmt_stops hscan, rfl⟩
    | cons c tail =>
      rw [List.tail_cons] at htail
      obtain ⟨out, hprint, hout⟩ := convert_expand stack hdw hconv.symm hd
      obtain ⟨outs, hrun, houts⟩ := ih (fun d hmem => hw d (List.mem_cons_of_mem _ hmem)) hts
      rw [← htail] at hrun
      refine ⟨out ++ outs, ?_, by rw [List.flatten_append, hout, houts]⟩
      rw [vprintfmt_directive hscan, hprint, Option.bind_some, hrun, Option.map_some]
  | case3 c cs hc ih =>
    rw [parse, if_neg hc] at h hw
    obtain ⟨ts, hts, rfl⟩ := Option.map_eq_some_iff.mp h
    obtain ⟨out, hrun, hout⟩ := ih (fun d hd => hw d (List.mem_cons_of_mem _ hd)) hts
    refine ⟨[c] :: out, ?_, by rw [List.flatten_cons, hout, List.singleton_append]⟩
    rw [vprintfmt_literal hc, hrun, Option.map_some]

end Loop

/-! ## Formats and arguments that fit -/

theorem Flag.chars_takeFlag (cs : List Byte) : (takeFlag cs).1.chars ++ (takeFlag cs).2 = cs := by
  unfold takeFlag
  by_cases hl : cs.head? = some (ascii '-')
  · obtain ⟨tail, rfl⟩ := List.head?_eq_some_iff.mp hl
    rw [if_pos hl]
    rfl
  · by_cases hz : cs.head? = some (ascii '0')
    · obtain ⟨tail, rfl⟩ := List.head?_eq_some_iff.mp hz
      rw [if_neg hl, if_pos hz]
      rfl
    · rw [if_neg hl, if_neg hz]
      rfl

theorem chars_takeLong (cs : List Byte) :
    longChars (takeLong cs).1 ++ (takeLong cs).2 = cs := by
  unfold takeLong
  by_cases hl : cs.head? = some (ascii 'l')
  · obtain ⟨tail, rfl⟩ := List.head?_eq_some_iff.mp hl
    rw [if_pos hl]
    rfl
  · rw [if_neg hl]
    rfl

theorem toList_head_append_tail (cs : List Byte) : cs.head?.toList ++ cs.tail = cs := by
  cases cs with
  | nil => rfl
  | cons c cs => rfl

theorem chars_takeDirective (cs : List Byte) :
    (Item.directive (takeDirective cs).1).chars ++ (takeDirective cs).2 = ascii '%' :: cs := by
  have hflag := Flag.chars_takeFlag cs
  have hdigits := List.takeWhile_append_dropWhile (p := isDigit) (l := (takeFlag cs).2)
  have hlong := chars_takeLong ((takeFlag cs).2.dropWhile isDigit)
  have hconv := toList_head_append_tail (takeLong ((takeFlag cs).2.dropWhile isDigit)).2
  simp only [Item.chars, takeDirective, List.cons_append, List.append_assoc]
  rw [hconv, hlong, hdigits, hflag]

/-- The items of a format spell it. -/
theorem chars_parse (fmt : List Byte) : (parse fmt).flatMap Item.chars = fmt := by
  induction fmt using parse.induct with
  | case1 =>
    rw [parse]
    rfl
  | case2 cs ih =>
    rw [parse, if_pos rfl, List.flatMap_cons, ih, chars_takeDirective]
  | case3 c cs hc ih =>
    rw [parse, if_neg hc, List.flatMap_cons, ih]
    rfl

section Arguments

variable {d : Directive} {items : List Item}

theorem kind_directive {c : Byte} (hc : d.conv = some c) :
    d.kind = (conversion c).kind := by
  unfold Directive.kind
  rw [hc, Option.bind_some]

theorem exists_expand_none (h : d.kind = none) (args : List Arg) :
    ∃ t, d.expand args = some (t, args) := by
  unfold Directive.expand
  cases hc : d.conv with
  | none => exact ⟨[], rfl⟩
  | some c =>
    rw [kind_directive hc] at h
    rw [Option.map_some]
    cases hconv : conversion c <;> rw [hconv] at h
    case itself c => exact ⟨[c], rfl⟩
    all_goals cases h

theorem exists_expand_some {a : Arg} (h : d.kind = some a.kind) (args : List Arg) :
    ∃ t, d.expand (a :: args) = some (t, args) := by
  unfold Directive.expand
  cases hc : d.conv with
  | none =>
    unfold Directive.kind at h
    rw [hc] at h
    cases h
  | some c =>
    rw [kind_directive hc] at h
    rw [Option.map_some]
    cases hconv : conversion c <;> rw [hconv] at h <;> cases a <;> cases h <;> exact ⟨_, rfl⟩

/-- A directive has an expansion if it is followed by the argument that it takes. -/
theorem exists_expand_directive {args : List Arg} (h : Matches (.directive d :: items) args) :
    ∃ t rest, d.expand args = some (t, rest) ∧ Matches items rest := by
  have hitem : (Item.directive d).kind = d.kind := rfl
  unfold Matches at h
  cases hkind : d.kind with
  | none =>
    rw [List.filterMap_cons_none (hitem.trans hkind)] at h
    obtain ⟨t, ht⟩ := exists_expand_none hkind args
    exact ⟨t, args, ht, h⟩
  | some k =>
    rw [List.filterMap_cons_some (hitem.trans hkind)] at h
    cases args with
    | nil => exact absurd (List.prefix_nil.mp h) (List.cons_ne_nil _ _)
    | cons a args =>
      rw [List.map_cons, List.cons_prefix_cons] at h
      obtain ⟨rfl, hrest⟩ := h
      obtain ⟨t, ht⟩ := exists_expand_some hkind args
      exact ⟨t, args, ht, hrest⟩

end Arguments

theorem exists_expand {items : List Item} {args : List Arg} (h : Matches items args) :
    ∃ text, expand items args = some text := by
  induction items generalizing args with
  | nil => exact ⟨[], rfl⟩
  | cons i items ih =>
    cases i with
    | literal c =>
      have hrest : Matches items args := h
      obtain ⟨text, htext⟩ := ih hrest
      exact ⟨c :: text, by unfold expand; rw [htext, Option.map_some]⟩
    | directive d =>
      obtain ⟨t, rest, hd, hrest⟩ := exists_expand_directive h
      obtain ⟨text, htext⟩ := ih hrest
      exact ⟨t ++ text, by unfold expand; rw [hd, Option.bind_some, htext, Option.map_some]⟩

end Common
end RvMos
