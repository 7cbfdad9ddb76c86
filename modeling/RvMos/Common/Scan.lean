/-
`vprintfmt` with its pointer into the format (`lib/print.c`).

The pointer is the number of a character of the format, whose last one is the NUL, and a
read behind the NUL has no result.  The variables of a directive live on from one turn
of the loop to the next, so that they are part of the state.  `neg_flag` is not: it is 0
wherever the `switch` is entered and is read in the cases that set it only.
-/
import RvMos.Common.Format
import RvMos.Lib.While

namespace RvMos

open Lib

namespace Common
namespace Scan

/-- The pointer, the variables of a directive, the arguments left and the calls of `out`
so far. -/
structure State where
  fmt : ℕ
  spec : Spec
  args : List Arg
  out : Out
  deriving DecidableEq, Repr

section Scanner

variable (text : List Byte)

/-- `*fmt`. -/
def char (s : State) : Option Byte :=
  (text ++ [0#8])[s.fmt]?

/-- `while ((*fmt) && (*fmt != '%')) { out(data, fmt, 1); ++fmt; }`. -/
def literals : State → Option State :=
  whileLoop (fun s => (char text s).map fun c => decide (c ≠ 0#8 ∧ c ≠ ascii '%'))
    (fun s => (char text s).map fun c => { s with fmt := s.fmt + 1, out := s.out ++ [[c]] })
    (text.length + 1)

def flag (s : State) : Option State :=
  (char text s).map fun c =>
    if c = ascii '-' then
      { s with fmt := s.fmt + 1, spec := { s.spec with ladjust := true, padc := ascii ' ' } }
    else if c = ascii '0' then
      { s with fmt := s.fmt + 1, spec := { s.spec with padc := ascii '0' } }
    else s

/-- `while (*fmt >= '0' && *fmt <= '9') { width = width * 10 + *fmt - '0'; ++fmt; }`. -/
def width : State → Option State :=
  whileLoop (fun s => (char text s).map fun c => decide (ascii '0' ≤ c ∧ c ≤ ascii '9'))
    (fun s => (char text s).map fun c =>
      { s with
        fmt := s.fmt + 1
        spec := { s.spec with
          width := s.spec.width * 10#32 + c.setWidth 32 - (ascii '0').setWidth 32 } })
    (text.length + 1)

def long (s : State) : Option State :=
  (char text s).map fun c =>
    if c = ascii 'l' then { s with fmt := s.fmt + 1, spec := { s.spec with longFlag := true } }
    else s

/-- The `switch`, with the step back at the NUL. -/
def switch (stack : ℕ → Byte) (s : State) : Option State := do
  let c ← char text s
  if c = 0#8 then some { s with fmt := s.fmt - 1 }
  else do
    let (out, args) ← convert stack s.spec c s.args
    some { s with args := args, out := s.out ++ out }

/-- The variables of a directive, set back. -/
def start : Spec := ⟨0#32, false, ascii ' ', false⟩

/-- `for (;;)`. -/
def forever (stack : ℕ → Byte) : ℕ → State → Option State
  | 0, _ => none
  | fuel + 1, s => do
    let s ← literals text s
    let s := { s with spec := start }
    let c ← char text s
    if c = 0#8 then some s
    else do
      let s := { s with fmt := s.fmt + 1 }
      let s ← flag text s
      let s ← width text s
      let s ← long text s
      let s ← switch text stack s
      forever stack fuel { s with fmt := s.fmt + 1 }

end Scanner

def vprintfmt (stack : ℕ → Byte) (fmt : List Byte) (args : List Arg) : Option Out :=
  (forever fmt stack (fmt.length + 1) ⟨0, start, args, []⟩).map State.out

/-! ## Where the pointer is -/

/-- What is left of the format at a position. -/
def At (text rest : List Byte) (p : ℕ) : Prop :=
  ∃ l, text = l ++ rest ∧ p = l.length

section Position

variable {text rest : List Byte} {s : State} {c : Byte} {p : ℕ}

theorem At.next (h : At text (c :: rest) p) : At text rest (p + 1) := by
  obtain ⟨l, rfl, rfl⟩ := h
  exact ⟨l ++ [c], by simp, by simp⟩

theorem At.suffix (h : At text rest p) : rest <:+ text := by
  obtain ⟨l, rfl, -⟩ := h
  exact List.suffix_append l rest

theorem char_cons (h : At text (c :: rest) s.fmt) : char text s = some c := by
  obtain ⟨l, rfl, hp⟩ := h
  unfold char
  rw [hp, List.append_assoc]
  simp

theorem char_nil (h : At text [] s.fmt) : char text s = some 0#8 := by
  obtain ⟨l, rfl, hp⟩ := h
  unfold char
  rw [hp]
  simp

end Position

/-! ## The loops and the scanner of the list -/

section Loops

variable {text rest : List Byte} {s : State}

def ordinary (c : Byte) : Bool := decide (c ≠ ascii '%')

theorem ordinary_iff {c : Byte} : ordinary c = true ↔ c ≠ ascii '%' := decide_eq_true_iff

theorem literals_at (h : At text rest s.fmt) (h0 : 0#8 ∉ rest) :
    ∃ p, literals text s =
        some ⟨p, s.spec, s.args, s.out ++ (rest.takeWhile ordinary).map fun c => [c]⟩ ∧
      At text (rest.dropWhile ordinary) p := by
  unfold literals
  have hfuel : rest.length < text.length + 1 := Nat.lt_succ_of_le h.suffix.length_le
  generalize text.length + 1 = fuel at hfuel
  induction rest generalizing s fuel with
  | nil =>
    obtain ⟨fuel, rfl⟩ := Nat.exists_eq_add_one_of_ne_zero (Nat.ne_zero_of_lt hfuel)
    refine ⟨s.fmt, ?_, h⟩
    rw [whileLoop_stop (by rw [char_nil h]; rfl), List.takeWhile_nil, List.map_nil,
      List.append_nil]
  | cons c rest ih =>
    obtain ⟨fuel, rfl⟩ := Nat.exists_eq_add_one_of_ne_zero (Nat.ne_zero_of_lt hfuel)
    obtain ⟨hc0, h0⟩ := not_or.mp (mt List.mem_cons.mpr h0)
    have hchar := char_cons h
    by_cases hc : ordinary c = true
    · have htest : decide (c ≠ 0#8 ∧ c ≠ ascii '%') = true :=
        decide_eq_true ⟨Ne.symm hc0, ordinary_iff.mp hc⟩
      obtain ⟨p, hrun, hp⟩ := ih (s := ⟨s.fmt + 1, s.spec, s.args, s.out ++ [[c]]⟩) h.next h0 fuel
        (Nat.lt_of_succ_lt_succ hfuel)
      rw [List.takeWhile_cons_of_pos hc, List.dropWhile_cons_of_pos hc]
      refine ⟨p, ?_, hp⟩
      rw [whileLoop_turn (by rw [hchar, Option.map_some, htest]) (by rw [hchar, Option.map_some]),
        hrun, List.map_cons, List.append_assoc, List.singleton_append]
    · have htest : decide (c ≠ 0#8 ∧ c ≠ ascii '%') = false :=
        decide_eq_false fun hne => hc (ordinary_iff.mpr hne.2)
      rw [List.takeWhile_cons_of_neg hc, List.dropWhile_cons_of_neg hc, List.map_nil,
        List.append_nil]
      exact ⟨s.fmt, whileLoop_stop (by rw [hchar, Option.map_some, htest]), h⟩

theorem width_at (h : At text rest s.fmt) :
    ∃ p, width text s =
        some ⟨p, { s.spec with width := (scanWidth s.spec.width rest).1 }, s.args, s.out⟩ ∧
      At text (scanWidth s.spec.width rest).2 p := by
  unfold width
  have hfuel : rest.length < text.length + 1 := Nat.lt_succ_of_le h.suffix.length_le
  generalize text.length + 1 = fuel at hfuel
  induction rest generalizing s fuel with
  | nil =>
    obtain ⟨fuel, rfl⟩ := Nat.exists_eq_add_one_of_ne_zero (Nat.ne_zero_of_lt hfuel)
    exact ⟨s.fmt, whileLoop_stop (by rw [char_nil h]; rfl), h⟩
  | cons c rest ih =>
    obtain ⟨fuel, rfl⟩ := Nat.exists_eq_add_one_of_ne_zero (Nat.ne_zero_of_lt hfuel)
    have hchar := char_cons h
    unfold scanWidth
    by_cases hc : ascii '0' ≤ c ∧ c ≤ ascii '9'
    · obtain ⟨p, hrun, hp⟩ := ih (s := { s with
        fmt := s.fmt + 1
        spec := { s.spec with
          width := s.spec.width * 10#32 + c.setWidth 32 - (ascii '0').setWidth 32 } }) h.next fuel
        (Nat.lt_of_succ_lt_succ hfuel)
      rw [if_pos hc]
      refine ⟨p, ?_, hp⟩
      rw [whileLoop_turn (by rw [hchar, Option.map_some, decide_eq_true hc])
        (by rw [hchar, Option.map_some]), hrun]
    · rw [if_neg hc]
      exact ⟨s.fmt, whileLoop_stop (by rw [hchar, Option.map_some, decide_eq_false hc]), h⟩

theorem flag_at {q : ℕ} (h : At text rest q) (args : List Arg) (out : Out) :
    ∃ p, flag text ⟨q, start, args, out⟩ = some ⟨p, ⟨0#32, (scanFlag rest).1,
        (scanFlag rest).2.1, false⟩, args, out⟩ ∧ At text (scanFlag rest).2.2 p := by
  unfold flag
  cases rest with
  | nil =>
    rw [char_nil h]
    exact ⟨q, rfl, h⟩
  | cons c rest =>
    rw [char_cons h, Option.map_some]
    unfold scanFlag
    by_cases hl : c = ascii '-'
    · simp only [if_pos hl]
      exact ⟨q + 1, rfl, h.next⟩
    · by_cases hz : c = ascii '0'
      · simp only [if_neg hl, if_pos hz]
        exact ⟨q + 1, rfl, h.next⟩
      · simp only [if_neg hl, if_neg hz]
        exact ⟨q, rfl, h⟩

theorem long_at {q : ℕ} (h : At text rest q) (w : Word) (l : Bool) (c : Byte) (args : List Arg)
    (out : Out) :
    ∃ p, long text ⟨q, ⟨w, l, c, false⟩, args, out⟩ =
        some ⟨p, ⟨w, l, c, (scanLong rest).1⟩, args, out⟩ ∧ At text (scanLong rest).2 p := by
  unfold long
  cases rest with
  | nil =>
    rw [char_nil h]
    exact ⟨q, rfl, h⟩
  | cons c rest =>
    rw [char_cons h, Option.map_some]
    unfold scanLong
    by_cases hl : c = ascii 'l'
    · simp only [if_pos hl]
      exact ⟨q + 1, rfl, h.next⟩
    · simp only [if_neg hl]
      exact ⟨q, rfl, h⟩

/-- Flag, width and `l` are read as the scanner of the list reads them. -/
theorem scanSpec_at {q : ℕ} (h : At text rest q) (args : List Arg) (out : Out) :
    ∃ p, (((flag text ⟨q, start, args, out⟩).bind (width text)).bind (long text)) =
        some ⟨p, (scanSpec rest).1, args, out⟩ ∧ At text (scanSpec rest).2 p := by
  obtain ⟨p₁, hflag, h₁⟩ := flag_at h args out
  obtain ⟨p₂, hwidth, h₂⟩ := width_at (s := ⟨p₁, ⟨0#32, (scanFlag rest).1, (scanFlag rest).2.1,
    false⟩, args, out⟩) h₁
  obtain ⟨p₃, hlong, h₃⟩ := long_at h₂ (scanWidth 0#32 (scanFlag rest).2.2).1 (scanFlag rest).1
    (scanFlag rest).2.1 args out
  refine ⟨p₃, ?_, h₃⟩
  rw [hflag, Option.bind_some, hwidth, Option.bind_some]
  exact hlong

end Loops

/-! ## The two models -/

section Models

variable {stack : ℕ → Byte} {text rest : List Byte}

theorem vprintfmt_ordinary (rest : List Byte) (args : List Arg) :
    Common.vprintfmt stack rest args =
      (Common.vprintfmt stack (rest.dropWhile ordinary) args).map
        (((rest.takeWhile ordinary).map fun c => [c]) ++ ·) := by
  induction rest with
  | nil => rfl
  | cons c rest ih =>
    by_cases hc : ordinary c = true
    · rw [List.takeWhile_cons_of_pos hc, List.dropWhile_cons_of_pos hc,
        vprintfmt_literal (ordinary_iff.mp hc), ih, Option.map_map]
      rfl
    · rw [List.takeWhile_cons_of_neg hc, List.dropWhile_cons_of_neg hc, List.map_nil]
      exact Option.map_id'.symm

/-- What the ordinary characters leave is empty or begins with a `%`. -/
theorem dropWhile_ordinary {c : Byte} {tail : List Byte}
    (h : rest.dropWhile ordinary = c :: tail) : c = ascii '%' := by
  have hstop := List.head?_dropWhile_not ordinary rest
  rw [h] at hstop
  have hc : ordinary c = false := hstop
  exact not_not.mp fun hne => absurd (ordinary_iff.mpr hne) (by rw [hc]; exact Bool.false_ne_true)

/-- From a `%` on, the turn prints the directive and the loop goes on behind it. -/
theorem directive_eq {fuel p : ℕ} {tail : List Byte} (h : At text (ascii '%' :: tail) p)
    (h0 : 0#8 ∉ text) (args : List Arg) (out : Out)
    (hloop : ∀ s rest, At text rest s.fmt → rest.length ≤ tail.length →
      (forever text stack fuel s).map State.out =
        (Common.vprintfmt stack rest s.args).map (s.out ++ ·)) :
    (((((flag text ⟨p + 1, start, args, out⟩).bind (width text)).bind (long text)).bind
      (switch text stack)).bind fun s =>
        forever text stack fuel { s with fmt := s.fmt + 1 }).map State.out =
      (Common.vprintfmt stack (ascii '%' :: tail) args).map (out ++ ·) := by
  obtain ⟨q, hspec, hq⟩ := scanSpec_at h.next args out
  rw [hspec, Option.bind_some]
  cases hscan : scanSpec tail with
  | mk spec rest =>
    rw [hscan] at hq
    cases rest with
    | nil =>
      -- the pointer goes back to the last character and on to the NUL again
      have hq0 : q ≠ 0 := by
        obtain ⟨l, hl, rfl⟩ := hq
        obtain ⟨l', hl', -⟩ := h
        rintro h0
        rw [List.length_eq_zero_iff.mp h0] at hl
        rw [hl] at hl'
        simp at hl'
      have hback : q - 1 + 1 = q := Nat.sub_add_cancel (Nat.one_le_iff_ne_zero.mpr hq0)
      have hchar : char text ⟨q, spec, args, out⟩ = some 0#8 := char_nil hq
      have hswitch : switch text stack ⟨q, spec, args, out⟩ = some ⟨q - 1, spec, args, out⟩ := by
        unfold switch
        rw [hchar]
        rfl
      rw [hswitch, Option.bind_some, vprintfmt_stops hscan]
      simp only [hback]
      exact hloop ⟨q, spec, args, out⟩ [] hq (Nat.zero_le _)
    | cons c rest =>
      have hc : c ≠ 0#8 := by
        rintro rfl
        exact h0 (hq.suffix.mem List.mem_cons_self)
      have hchar : char text ⟨q, spec, args, out⟩ = some c := char_cons hq
      have hswitch : switch text stack ⟨q, spec, args, out⟩ =
          (convert stack spec c args).map fun r => ⟨q, spec, r.2, out ++ r.1⟩ := by
        unfold switch
        simp only [hchar, Option.bind_eq_bind, Option.bind_some, if_neg hc]
        exact Option.map_eq_bind.symm
      rw [hswitch, vprintfmt_directive hscan]
      cases convert stack spec c args with
      | none => rfl
      | some r =>
        rw [Option.map_some, Option.bind_some, Option.bind_some, Option.map_map]
        refine (hloop ⟨q + 1, spec, r.2, out ++ r.1⟩ rest hq.next (scanSpec_length hscan)).trans ?_
        congr 1
        funext o
        exact List.append_assoc out r.1 o

/-- The loop prints what is left of the format. -/
theorem forever_eq {fuel : ℕ} {s : State} (hfuel : rest.length < fuel)
    (h : At text rest s.fmt) (h0 : 0#8 ∉ text) :
    (forever text stack fuel s).map State.out =
      (Common.vprintfmt stack rest s.args).map (s.out ++ ·) := by
  induction fuel generalizing rest s with
  | zero => exact absurd hfuel (Nat.not_lt_zero _)
  | succ fuel ih =>
    obtain ⟨p, hlit, hp⟩ := literals_at h fun hmem => h0 (h.suffix.mem hmem)
    have hcomp : (s.out ++ ·) ∘ (((rest.takeWhile ordinary).map fun c => [c]) ++ ·) =
        ((s.out ++ (rest.takeWhile ordinary).map fun c => [c]) ++ ·) :=
      funext fun o => (List.append_assoc _ _ o).symm
    have hlen := (List.dropWhile_suffix ordinary (l := rest)).length_le
    rw [vprintfmt_ordinary, Option.map_map, hcomp]
    unfold forever
    simp only [hlit, Option.bind_eq_bind, Option.bind_some]
    generalize s.out ++ (rest.takeWhile ordinary).map (fun c => [c]) = out
    cases htail : rest.dropWhile ordinary with
    | nil =>
      rw [htail] at hp
      have hchar : char text ⟨p, start, s.args, out⟩ = some 0#8 := char_nil hp
      rw [hchar, Option.bind_some, if_pos rfl]
      exact congrArg some (List.append_nil out).symm
    | cons c tail =>
      obtain rfl := dropWhile_ordinary htail
      rw [htail] at hp hlen
      rw [List.length_cons] at hlen
      have hchar : char text ⟨p, start, s.args, out⟩ = some (ascii '%') := char_cons hp
      have hne : ascii '%' ≠ 0#8 := by decide
      rw [hchar, Option.bind_some, if_neg hne]
      have hturn := directive_eq hp h0 s.args out fun t rest' hat hle => ih (by omega) hat
      simp only [Option.bind_assoc] at hturn
      exact hturn

/-- The pointer stays inside the format and its NUL, and `out` is called as for the list. -/
theorem vprintfmt_eq (stack : ℕ → Byte) {fmt : List Byte} (h0 : 0#8 ∉ fmt) (args : List Arg) :
    vprintfmt stack fmt args = Common.vprintfmt stack fmt args := by
  have hat : At fmt fmt (⟨0, start, args, []⟩ : State).fmt := ⟨[], rfl, rfl⟩
  exact (forever_eq (Nat.lt_succ_self fmt.length) hat h0).trans Option.map_id'

end Models

end Scan
end Common
end RvMos
