/-
The lexer of the shell (`_gettoken` and `gettoken` of `user/sh.c`).

The lexer works in the line itself.  It keeps one token of look-ahead in static
variables, and a word gets its NUL when the token after it is looked for: the
blank or symbol behind it is then overwritten.  The line is an array of bytes
with checked accesses and a pointer into it is an index; `none` is the null
pointer.
-/
import RvMos.Lib.Buffer
import RvMos.Common.Print

namespace RvMos

open Lib

namespace Sh

open Common

export Common (Byte)

abbrev Ptr := Option ℕ

def whitespace : List Byte :=
  [ascii ' ', ascii '\t', ascii '\r', ascii '\n']

def symbols : List Byte :=
  [ascii '<', ascii '|', ascii '>', ascii '&', ascii ';', ascii '(', ascii ')']

/-- `strchr` as a test.  It stops at the terminator, so that a NUL is not found. -/
def strchr (s : List Byte) (c : Byte) : Bool :=
  s.contains c

/-- `while (strchr(WHITESPACE, *s)) *s++ = 0`. -/
def skipBlanks : ℕ → List Byte → ℕ → Option (List Byte × ℕ)
  | 0, _, _ => none
  | fuel + 1, buf, s => do
    let c ← buf[s]?
    if strchr whitespace c then do
      let buf ← Buffer.put buf s 0#8
      skipBlanks fuel buf (s + 1)
    else some (buf, s)

/-- The end of the word at `s`. -/
def wordEnd : ℕ → List Byte → ℕ → Option ℕ
  | 0, _, _ => none
  | fuel + 1, buf, s => do
    let c ← buf[s]?
    if c ≠ 0#8 ∧ ¬strchr (whitespace ++ symbols) c then wordEnd fuel buf (s + 1)
    else some s

/-- `_gettoken`: the kind of the token, `*p1`, `*p2` and the line. -/
def findToken (buf : List Byte) : Ptr → Option (Byte × Ptr × Ptr × List Byte)
  | none => some (0#8, none, none, buf)
  | some s => do
    let (buf, s) ← skipBlanks (buf.length + 1) buf s
    let c ← buf[s]?
    if c = 0#8 then some (0#8, none, none, buf)
    else if strchr symbols c then do
      let buf ← Buffer.put buf s 0#8
      some (c, some s, some (s + 1), buf)
    else do
      let e ← wordEnd (buf.length + 1) buf s
      some (ascii 'w', some s, some e, buf)

/-- The line and the static variables of `gettoken`. -/
structure Lex where
  line : List Byte
  c : Byte
  nc : Byte
  np1 : Ptr
  np2 : Ptr
  deriving DecidableEq, Repr

/-- `gettoken(s, &t)`: the result, `t` afterwards, and the state. -/
def gettoken (l : Lex) (s t : Ptr) : Option (Byte × Ptr × Lex) :=
  match s with
  | some p => do
    let (nc, np1, np2, line) ← findToken l.line (some p)
    some (0#8, t, { l with line := line, nc := nc, np1 := np1, np2 := np2 })
  | none => do
    let c := l.nc
    let t := l.np1
    let (nc, np1, np2, line) ← findToken l.line l.np2
    some (c, t, ⟨line, c, nc, np1, np2⟩)

/-! ## The reference lexer -/

inductive Token where
  | symbol (c : Byte)
  | word (w : List Byte)
  deriving DecidableEq, Repr

def Token.kind : Token → Byte
  | .symbol c => c
  | .word _ => ascii 'w'

/-- A character of a word. -/
def ordinary (c : Byte) : Bool :=
  !whitespace.contains c && !symbols.contains c

/-- Blanks separate, a symbol is a token, and so is a maximal run of others. -/
def tokens : List Byte → List Token
  | [] => []
  | c :: cs =>
    if whitespace.contains c then tokens cs
    else if symbols.contains c then .symbol c :: tokens cs
    else .word (c :: cs.takeWhile ordinary) :: tokens (cs.dropWhile ordinary)
termination_by cs => cs.length
decreasing_by
  · simp
  · simp
  · simp only [List.length_cons]
    exact Nat.lt_succ_of_le (List.dropWhile_suffix ordinary).length_le

/-- The string at `p`. -/
def StringAt (line : List Byte) (p : ℕ) (w : List Byte) : Prop :=
  ∃ l r, line = l ++ w ++ 0#8 :: r ∧ l.length = p ∧ 0#8 ∉ w

theorem tokens_blanks {b cs : List Byte} (hb : ∀ c ∈ b, whitespace.contains c = true) :
    tokens (b ++ cs) = tokens cs := by
  induction b with
  | nil => rfl
  | cons c b ih =>
    rw [List.cons_append, tokens, if_pos (hb c (.head _)), ih fun d hd => hb d (.tail _ hd)]

theorem ordinary_iff {c : Byte} :
    ordinary c = true ↔ whitespace.contains c = false ∧ symbols.contains c = false := by
  simp [ordinary]

theorem tokens_symbol {c : Byte} {cs : List Byte} (hw : whitespace.contains c = false)
    (hs : symbols.contains c = true) : tokens (c :: cs) = .symbol c :: tokens cs := by
  rw [tokens, if_neg (Bool.eq_false_iff.mp hw), if_pos hs]

/-- A run of ordinary characters that cannot be made longer. -/
def Ends (cs : List Byte) : Prop :=
  ∀ c, cs.head? = some c → ordinary c = false

theorem tokens_word {c : Byte} {w cs : List Byte} (hw : ∀ d ∈ c :: w, ordinary d = true)
    (hcs : Ends cs) : tokens (c :: w ++ cs) = .word (c :: w) :: tokens cs := by
  obtain ⟨hblank, hsym⟩ := ordinary_iff.mp (hw c (.head _))
  have htake : (w ++ cs).takeWhile ordinary = w ∧ (w ++ cs).dropWhile ordinary = cs := by
    have hall : ∀ d ∈ w, ordinary d = true := fun d hd => hw d (.tail _ hd)
    rw [List.takeWhile_append_of_pos hall, List.dropWhile_append_of_pos hall]
    cases cs with
    | nil => simp
    | cons d cs => simp [hcs d rfl]
  rw [List.cons_append, tokens, if_neg (Bool.eq_false_iff.mp hblank),
    if_neg (Bool.eq_false_iff.mp hsym), htake.1, htake.2]

/-! ## One look-ahead -/

theorem skipBlanks_at {l b r : List Byte} {c : Byte} {fuel s : ℕ} (hs : s = l.length)
    (hb : ∀ d ∈ b, whitespace.contains d = true) (hc : whitespace.contains c = false)
    (hfuel : b.length < fuel) :
    skipBlanks fuel (l ++ b ++ c :: r) s =
      some (l ++ List.replicate b.length 0#8 ++ c :: r, s + b.length) := by
  induction b generalizing l fuel s with
  | nil =>
    obtain ⟨fuel, rfl⟩ : ∃ k, fuel = k + 1 := ⟨fuel - 1, by simp at hfuel; omega⟩
    have hget : (l ++ [] ++ c :: r)[s]? = some c := Buffer.get_at (by simpa using hs)
    simp only [skipBlanks, hget, Option.bind_eq_bind, Option.bind_some, strchr, hc,
      Bool.false_eq_true, if_false]
    simp
  | cons d b ih =>
    obtain ⟨fuel, rfl⟩ : ∃ k, fuel = k + 1 := ⟨fuel - 1, by simp at hfuel; omega⟩
    have hcut : l ++ d :: b ++ c :: r = l ++ d :: (b ++ c :: r) := by simp
    have hput : l ++ 0#8 :: (b ++ c :: r) = (l ++ [0#8]) ++ b ++ c :: r := by simp
    rw [hcut]
    simp only [skipBlanks, Buffer.get_at hs, Option.bind_eq_bind, Option.bind_some, strchr,
      hb d (.head _), if_true, Buffer.put_at hs]
    rw [hput, ih (by simp [hs]) (fun x hx => hb x (.tail _ hx)) (by simpa using hfuel)]
    simp [List.replicate_succ]
    omega

theorem wordEnd_at {l w r : List Byte} {c : Byte} {fuel s : ℕ} (hs : s = l.length)
    (hw : ∀ d ∈ w, ordinary d = true ∧ d ≠ 0#8) (hc : c = 0#8 ∨ ordinary c = false)
    (hfuel : w.length < fuel) :
    wordEnd fuel (l ++ w ++ c :: r) s = some (s + w.length) := by
  have hord : ∀ d : Byte, strchr (whitespace ++ symbols) d = !ordinary d := by
    intro d
    simp [strchr, ordinary]
  induction w generalizing l fuel s with
  | nil =>
    obtain ⟨fuel, rfl⟩ : ∃ k, fuel = k + 1 := ⟨fuel - 1, by simp at hfuel; omega⟩
    have hget : (l ++ [] ++ c :: r)[s]? = some c := Buffer.get_at (by simpa using hs)
    have hstop : ¬(c ≠ 0#8 ∧ ¬strchr (whitespace ++ symbols) c = true) := by
      rw [hord]
      rcases hc with rfl | hc
      · simp
      · simp [hc]
    simp only [wordEnd, hget, Option.bind_eq_bind, Option.bind_some, if_neg hstop]
    simp
  | cons d w ih =>
    obtain ⟨fuel, rfl⟩ : ∃ k, fuel = k + 1 := ⟨fuel - 1, by simp at hfuel; omega⟩
    obtain ⟨hd, hd0⟩ := hw d (.head _)
    have hgo : d ≠ 0#8 ∧ ¬strchr (whitespace ++ symbols) d = true := by
      rw [hord, hd]
      exact ⟨hd0, by decide⟩
    have hget : (l ++ d :: w ++ c :: r)[s]? = some d := by
      rw [List.append_assoc, List.cons_append, Buffer.get_at hs]
    have hcut : l ++ d :: w ++ c :: r = (l ++ [d]) ++ w ++ c :: r := by simp
    simp only [wordEnd, hget, Option.bind_eq_bind, Option.bind_some, if_pos hgo]
    rw [hcut, ih (by simp [hs]) (fun x hx => hw x (.tail _ hx)) (by simpa using hfuel)]
    simp
    omega

/-- What a look-ahead may find in the text `s` behind `p`, and what it leaves of the
line: blanks become NULs, and so does a symbol. -/
inductive Found (l s r : List Byte) : Byte → Ptr → Ptr → List Byte → Prop
  | nothing {b : List Byte} : s = b → tokens s = [] →
      Found l s r 0#8 none none (l ++ List.replicate b.length 0#8 ++ 0#8 :: r)
  | symbol {b t : List Byte} {c : Byte} : s = b ++ c :: t →
      tokens s = .symbol c :: tokens t →
      Found l s r c (some (l.length + b.length)) (some (l.length + b.length + 1))
        (l ++ List.replicate (b.length + 1) 0#8 ++ t ++ 0#8 :: r)
  | word {b w t : List Byte} : s = b ++ w ++ t →
      tokens s = .word w :: tokens t → Ends t → (Ends s → b ≠ []) →
      Found l s r (ascii 'w') (some (l.length + b.length)) (some (l.length + b.length + w.length))
        (l ++ List.replicate b.length 0#8 ++ w ++ t ++ 0#8 :: r)

/-- The first characters that satisfy `p`. -/
theorem exists_run (p : Byte → Bool) (s : List Byte) :
    ∃ b t, s = b ++ t ∧ (∀ d ∈ b, p d = true) ∧ ∀ c, t.head? = some c → p c = false := by
  induction s with
  | nil => exact ⟨[], [], rfl, by simp, by simp⟩
  | cons c s ih =>
    by_cases hc : p c = true
    · obtain ⟨b, t, rfl, hb, ht⟩ := ih
      refine ⟨c :: b, t, rfl, fun d hd => ?_, ht⟩
      rcases List.mem_cons.mp hd with rfl | hd
      · exact hc
      · exact hb d hd
    · refine ⟨[], c :: s, rfl, by simp, fun d hd => ?_⟩
      rw [← Option.some.inj hd]
      exact Bool.eq_false_iff.mpr hc

theorem findToken_at {l s r : List Byte} (h0 : 0#8 ∉ s) :
    ∃ nc np1 np2 line, findToken (l ++ s ++ 0#8 :: r) (some l.length) =
      some (nc, np1, np2, line) ∧ Found l s r nc np1 np2 line := by
  obtain ⟨b, t, rfl, hb, ht⟩ := exists_run (whitespace.contains ·) s
  have htok : tokens (b ++ t) = tokens t := tokens_blanks hb
  have hfuel : b.length < (l ++ (b ++ t) ++ 0#8 :: r).length + 1 := by simp; omega
  have hzero : whitespace.contains 0#8 = false := by decide
  cases t with
  | nil =>
    have hskip := skipBlanks_at (l := l) (r := r) rfl hb hzero hfuel
    have hget : (l ++ List.replicate b.length 0#8 ++ 0#8 :: r)[l.length + b.length]? = some 0#8 :=
      Buffer.get_at (by simp)
    refine ⟨_, _, _, _, ?_, .nothing (List.append_nil b) (htok.trans tokens.eq_1)⟩
    rw [List.append_nil] at hskip ⊢
    simp only [findToken, hskip, Option.bind_eq_bind, Option.bind_some, hget,
      if_true]
  | cons c t =>
    have hblank : whitespace.contains c = false := ht c rfl
    have hc0 : c ≠ 0#8 := fun h => h0 (by simp [h])
    have hskip := skipBlanks_at (l := l) (r := t ++ 0#8 :: r) rfl hb hblank hfuel
    have hline : l ++ (b ++ c :: t) ++ 0#8 :: r = l ++ b ++ c :: (t ++ 0#8 :: r) := by simp
    have hget : (l ++ List.replicate b.length 0#8 ++ c :: (t ++ 0#8 :: r))[l.length + b.length]? =
        some c := Buffer.get_at (by simp)
    by_cases hsym : symbols.contains c = true
    · -- a symbol
      have hput : Buffer.put (l ++ List.replicate b.length 0#8 ++ c :: (t ++ 0#8 :: r))
          (l.length + b.length) 0#8 =
          some (l ++ List.replicate (b.length + 1) 0#8 ++ t ++ 0#8 :: r) := by
        rw [Buffer.put_at (by simp)]
        simp [List.replicate_succ']
      refine ⟨_, _, _, _, ?_, .symbol rfl (htok.trans (tokens_symbol hblank hsym))⟩
      simp only [findToken, hline] at hskip ⊢
      simp only [hskip, Option.bind_eq_bind, Option.bind_some, hget, hc0, if_false, strchr, hsym,
        if_true, hput]
    · -- a word
      have hsym' : symbols.contains c = false := Bool.eq_false_iff.mpr hsym
      obtain ⟨w, rest, rfl, hw, hrest⟩ := exists_run ordinary t
      have hword : ∀ d ∈ c :: w, ordinary d = true ∧ d ≠ 0#8 := by
        intro d hd
        refine ⟨?_, fun h => h0 (by simp only [List.mem_append, List.mem_cons] at hd ⊢; grind)⟩
        rcases List.mem_cons.mp hd with rfl | hd
        · exact ordinary_iff.mpr ⟨hblank, hsym'⟩
        · exact hw d hd
      obtain ⟨e, r', he, hstop⟩ : ∃ e r', rest ++ 0#8 :: r = e :: r' ∧
          (e = 0#8 ∨ ordinary e = false) := by
        cases rest with
        | nil => exact ⟨0#8, r, rfl, .inl rfl⟩
        | cons e rest => exact ⟨e, rest ++ 0#8 :: r, rfl, .inr (hrest e rfl)⟩
      have hend : wordEnd ((l ++ List.replicate b.length 0#8 ++ (c :: w) ++ e :: r').length + 1)
          (l ++ List.replicate b.length 0#8 ++ (c :: w) ++ e :: r') (l.length + b.length) =
          some (l.length + b.length + (c :: w).length) :=
        wordEnd_at (by simp) hword hstop (by simp; omega)
      have hcut : l ++ List.replicate b.length 0#8 ++ c :: (w ++ rest ++ 0#8 :: r) =
          l ++ List.replicate b.length 0#8 ++ (c :: w) ++ e :: r' := by
        rw [← he]
        simp
      refine ⟨_, _, _, _, ?_, .word (b := b) (w := c :: w) (t := rest) (by simp)
        (htok.trans (tokens_word (fun d hd => (hword d hd).1) hrest)) hrest ?_⟩
      · rw [hcut] at hget
        simp only [findToken, hline] at hskip ⊢
        simp only [hskip, Option.bind_eq_bind, Option.bind_some, hcut, hget, hc0, if_false, strchr,
          hsym', Bool.false_eq_true, hend]
        rw [← he]
        simp
      · -- behind a word that has ended there must be a blank before the next word
        rintro hends rfl
        have := hends c rfl
        rw [ordinary_iff.mpr ⟨hblank, hsym'⟩] at this
        cases this

/-! ## Successive calls -/

theorem StringAt.mono {p q : List Byte} {i : ℕ} {w : List Byte} (h : StringAt p i w)
    (hpq : p <+: q) : StringAt q i w := by
  obtain ⟨l, r, rfl, hl, h0⟩ := h
  obtain ⟨t, rfl⟩ := hpq
  exact ⟨l, r ++ t, by simp, hl, h0⟩

/-- A state of the lexer.  `p` is the part of the line that no later call writes to, and
`rem` the tokens that are still to come, the look-ahead first. -/
inductive Ahead : Lex → List Byte → List Token → Prop
  | nothing {line : List Byte} {c : Byte} : Ahead ⟨line, c, 0#8, none, none⟩ line []
  | symbol {p rest r : List Byte} {c d : Byte} {i : Ptr} : 0#8 ∉ rest →
      Ahead ⟨p ++ rest ++ 0#8 :: r, d, c, i, some p.length⟩ p (.symbol c :: tokens rest)
  | word {q w rest r : List Byte} {d : Byte} : 0#8 ∉ rest → 0#8 ∉ w → Ends rest →
      Ahead ⟨q ++ w ++ rest ++ 0#8 :: r, d, ascii 'w', some q.length, some (q ++ w).length⟩
        (q ++ w) (.word w :: tokens rest)

theorem Ahead.line {l : Lex} {p : List Byte} {rem : List Token} (h : Ahead l p rem) :
    p <+: l.line := by
  cases h with
  | nothing => exact List.prefix_refl _
  | symbol => exact ⟨_, (List.append_assoc ..).symm⟩
  | word => exact ⟨_, (List.append_assoc ..).symm⟩

theorem Found.ahead {p s r line : List Byte} {nc d : Byte} {np1 np2 : Ptr} (h0 : 0#8 ∉ s)
    (h : Found p s r nc np1 np2 line) :
    ∃ p', Ahead ⟨line, d, nc, np1, np2⟩ p' (tokens s) ∧ p <+: p' ∧
      (Ends s → p ++ [0#8] <+: p') := by
  have hrep : ∀ (n : ℕ) (t : List Byte), n ≠ 0 →
      p ++ [0#8] <+: p ++ List.replicate n 0#8 ++ t := by
    intro n t hn
    obtain ⟨k, rfl⟩ := Nat.exists_eq_succ_of_ne_zero hn
    exact ⟨List.replicate k 0#8 ++ t, by simp [List.replicate_succ]⟩
  cases h with
  | @nothing b hs htok =>
    rw [htok]
    refine ⟨_, .nothing, ⟨List.replicate b.length 0#8 ++ 0#8 :: r, by simp⟩, fun _ => ?_⟩
    have := hrep (b.length + 1) r (by omega)
    rwa [List.replicate_succ', ← List.append_assoc, List.append_assoc _ [0#8],
      List.singleton_append] at this
  | @symbol b rest c hs htok =>
    rw [htok]
    have hlen : p.length + b.length + 1 = (p ++ List.replicate (b.length + 1) 0#8).length := by
      simp; omega
    rw [hlen]
    refine ⟨_, .symbol fun h => h0 (by simp [hs, h]), ⟨_, rfl⟩, fun _ => ?_⟩
    have := hrep (b.length + 1) [] (by omega)
    rwa [List.append_nil] at this
  | @word b w rest hs htok hends hb =>
    rw [htok]
    have hq : p.length + b.length = (p ++ List.replicate b.length 0#8).length := by simp
    have hlen : p.length + b.length + w.length =
        (p ++ List.replicate b.length 0#8 ++ w).length := by simp; omega
    rw [hlen, hq]
    refine ⟨_, .word (fun h => h0 (by simp [hs, h])) (fun h => h0 (by simp [hs, h])) hends,
      ⟨List.replicate b.length 0#8 ++ w, by simp⟩, fun h => ?_⟩
    exact hrep b.length w (fun hz => hb h (List.length_eq_zero_iff.mp hz))

/-- One call of `gettoken(0, &t)`. -/
theorem Ahead.step {l : Lex} {p : List Byte} {rem : List Token} (h : Ahead l p rem) :
    ∃ l' p', (∀ t, gettoken l none t = some ((rem.head?.map Token.kind).getD 0#8, l.np1, l')) ∧
      Ahead l' p' rem.tail ∧ p <+: p' ∧
      ∀ w, rem.head? = some (.word w) → ∃ i, l.np1 = some i ∧ StringAt p' i w := by
  cases h with
  | nothing => exact ⟨_, _, fun _ => rfl, .nothing, List.prefix_refl _, by simp⟩
  | @symbol _ rest r c d i h0 =>
    obtain ⟨nc, np1, np2, line, hfind, hfound⟩ := findToken_at (l := p) (r := r) h0
    obtain ⟨p', hahead, hp, -⟩ := hfound.ahead (d := c) h0
    refine ⟨_, p', fun t => ?_, hahead, hp, by simp⟩
    simp only [gettoken, hfind]
    simp [Token.kind]
  | @word q w rest r d h0 hw hends =>
    obtain ⟨nc, np1, np2, line, hfind, hfound⟩ := findToken_at (l := q ++ w) (r := r) h0
    obtain ⟨p', hahead, hp, hnul⟩ := hfound.ahead (d := ascii 'w') h0
    refine ⟨_, p', fun t => ?_, hahead, hp, ?_⟩
    · simp only [gettoken, hfind]
      simp [Token.kind]
    · intro w' hw'
      cases hw'
      exact ⟨_, rfl, StringAt.mono ⟨q, [], by simp, rfl, hw⟩ (hnul hends)⟩

/-- The state after a call, if it has a result. -/
def Lex.next (l : Lex) : Lex :=
  match gettoken l none none with
  | some (_, _, l') => l'
  | none => l

theorem Ahead.run {l : Lex} {p : List Byte} {ts : List Token} (h : Ahead l p ts) (n : ℕ) :
    ∃ p', Ahead (Lex.next^[n] l) p' (ts.drop n) ∧
      ∀ k < n, ∀ w, ts[k]? = some (.word w) →
        ∃ i, (Lex.next^[k] l).np1 = some i ∧ StringAt p' i w := by
  induction n with
  | zero => exact ⟨p, by simpa using h, fun k hk => absurd hk (by omega)⟩
  | succ n ih =>
    obtain ⟨q, hahead, hdone⟩ := ih
    obtain ⟨l', p', hcall, hahead', hq, hword⟩ := hahead.step
    have hnext : Lex.next^[n + 1] l = l' := by
      rw [Function.iterate_succ_apply', Lex.next, hcall none]
    rw [hnext]
    refine ⟨p', by rwa [List.tail_drop] at hahead', fun k hk w hkw => ?_⟩
    rcases Nat.lt_succ_iff_lt_or_eq.mp hk with hlt | rfl
    · obtain ⟨i, hi, hat⟩ := hdone k hlt w hkw
      exact ⟨i, hi, hat.mono hq⟩
    · exact hword w (by rw [List.head?_drop, hkw])

/-- Whatever the line holds and wherever it lies, the calls of `gettoken` return its tokens
in order and 0 for ever after them; the pointer to a word leads to that word from the call
that returns it on. -/
theorem gettoken_tokens (before s after : List Byte) (h0 : 0#8 ∉ s) (l : Lex)
    (hl : l.line = before ++ s ++ 0#8 :: after) (t₀ : Ptr) :
    ∃ (st : ℕ → Lex) (ptr : ℕ → Ptr),
      gettoken l (some before.length) t₀ = some (0#8, t₀, st 0) ∧
      ∀ n, (∀ t, gettoken (st n) none t =
          some (((tokens s)[n]?.map Token.kind).getD 0#8, ptr n, st (n + 1))) ∧
        ∀ k ≤ n, ∀ w, (tokens s)[k]? = some (.word w) →
          ∃ i, ptr k = some i ∧ StringAt (st (n + 1)).line i w := by
  obtain ⟨nc, np1, np2, line, hfind, hfound⟩ :=
    findToken_at (l := before) (r := after) h0
  obtain ⟨p, hahead, -, -⟩ := hfound.ahead (d := l.c) h0
  obtain ⟨l₀, hl₀⟩ : ∃ l₀ : Lex, l₀ = ⟨line, l.c, nc, np1, np2⟩ := ⟨_, rfl⟩
  rw [← hl₀] at hahead
  refine ⟨fun n => Lex.next^[n] l₀, fun n => (Lex.next^[n] l₀).np1, ?_,
    fun n => ⟨fun t => ?_, fun k hk w hkw => ?_⟩⟩
  · simp only [gettoken, hl, hfind, Function.iterate_zero, id_eq, hl₀]
    rfl
  · obtain ⟨p', hn, -⟩ := hahead.run n
    obtain ⟨l', -, hcall, -⟩ := hn.step
    have hnext : Lex.next^[n + 1] l₀ = l' := by
      rw [Function.iterate_succ_apply', Lex.next, hcall none]
    simp only [hcall t, hnext, List.head?_drop]
  · obtain ⟨p', hn, hdone⟩ := hahead.run (n + 1)
    obtain ⟨i, hi, hat⟩ := hdone k (by omega) w hkw
    exact ⟨i, hi, hat.mono hn.line⟩

/-- The line `ls|a`. -/
theorem gettoken_tokens_pipe :
    ∃ (st : ℕ → Lex) (ptr : ℕ → Ptr),
      gettoken ⟨[ascii 'l', ascii 's', ascii '|', ascii 'a', 0#8], 0#8, 0#8, none, none⟩ (some 0)
        none = some (0#8, none, st 0) ∧
      ∀ n, (∀ t, gettoken (st n) none t = some (((tokens [ascii 'l', ascii 's', ascii '|',
          ascii 'a'])[n]?.map Token.kind).getD 0#8, ptr n, st (n + 1))) ∧
        ∀ k ≤ n, ∀ w, (tokens [ascii 'l', ascii 's', ascii '|', ascii 'a'])[k]? = some (.word w) →
          ∃ i, ptr k = some i ∧ StringAt (st (n + 1)).line i w :=
  gettoken_tokens [] [ascii 'l', ascii 's', ascii '|', ascii 'a'] [] (by decide)
    ⟨[ascii 'l', ascii 's', ascii '|', ascii 'a', 0#8], 0#8, 0#8, none, none⟩ rfl none

end Sh
end RvMos
