/-
The buffered output of the user library (`user/lib/debugf.c`).

`vprintfmt` passes its text in pieces to `debug_output`, which gathers them in a buffer
of 1024 bytes and has it printed whenever a piece does not fit.  The sink keeps what has
been passed to `ecall_print_cons` and what the kernel has printed of it, oldest first.

No piece is so long that its length and the position in the buffer wrap as a `size_t`.
The buffer starts with what the stack held there.
-/
import RvMos.Common.Scan

namespace RvMos

open Lib

namespace Debugf

open Common

export Common (Byte)

def bufLen : ℕ := 1024

structure DebugCtx where
  buf : List Byte
  pos : ℕ
  deriving DecidableEq, Repr

structure Sink where
  ctx : DebugCtx
  handed : List (List Byte)
  printed : List Byte
  deriving DecidableEq, Repr

/-! ## The kernel's part -/

/-- The loop of `e_print_cons`: the index and the characters printed. -/
structure Printing where
  i : ℕ
  printed : List Byte

/-- `e_print_cons`: the characters it prints and its result. -/
def ePrintCons (s : List Byte) (num : ℕ) : Option (List Byte × Word) := do
  let p ← whileLoop (fun p : Printing => some (decide (p.i < num)))
    (fun p => s[p.i]?.map fun c => ⟨p.i + 1, p.printed ++ [c]⟩) (num + 1) ⟨0, []⟩
  some (p.printed, 0#32)

/-! ## The user's part -/

/-- `debug_flush`.  There is no result where it panics. -/
def debugFlush (t : Sink) : Option Sink :=
  if t.ctx.pos = 0 then some t
  else do
    let text ← Buffer.slice t.ctx.buf 0 t.ctx.pos
    let (printed, r) ← ePrintCons t.ctx.buf t.ctx.pos
    if r ≠ 0#32 then none
    else some ⟨⟨t.ctx.buf, 0⟩, t.handed ++ [text], t.printed ++ printed⟩

/-- The loop of `debug_output`: the bytes left of the piece, and the sink. -/
structure Piece where
  s : List Byte
  sink : Sink

/-- A turn of the loop fills the buffer and has it printed. -/
def fillUp (p : Piece) : Option Piece := do
  let n := bufLen - p.sink.ctx.pos
  let buf ← Buffer.copy p.sink.ctx.buf p.sink.ctx.pos (p.s.take n)
  let sink ← debugFlush { p.sink with ctx := ⟨buf, bufLen⟩ }
  some ⟨p.s.drop n, sink⟩

def debugOutput (s : List Byte) (t : Sink) : Option Sink := do
  let p ← whileLoop (fun p : Piece => some (decide (p.sink.ctx.pos + p.s.length > bufLen))) fillUp
    (s.length + t.ctx.pos + 1) ⟨s, t⟩
  let buf ← Buffer.copy p.sink.ctx.buf p.sink.ctx.pos p.s
  some { p.sink with ctx := ⟨buf, p.sink.ctx.pos + p.s.length⟩ }

/-- The calls of `out`, one after the other. -/
def outputs : Out → Sink → Option Sink
  | [], t => some t
  | s :: out, t => (debugOutput s t).bind (outputs out)

/-- `vdebugf`.  What `out` does has no effect on `vprintfmt`, so that its calls are made
when they are all known. -/
def vdebugf (stack junk : ℕ → Byte) (fmt : List Byte) (args : List Arg) : Option Sink := do
  let out ← Scan.vprintfmt stack fmt args
  let t ← outputs out ⟨⟨(List.range bufLen).map junk, 0⟩, [], []⟩
  debugFlush t

/-! ## Nothing is lost -/

/-- The sink keeps to its buffer, and the kernel prints what it is passed. -/
structure Sink.Ok (t : Sink) : Prop where
  size : t.ctx.buf.length = bufLen
  pos : t.ctx.pos ≤ bufLen
  printed : t.printed = t.handed.flatten

/-- What has been put out: what was passed on and what waits in the buffer. -/
def Sink.content (t : Sink) : List Byte :=
  t.handed.flatten ++ t.ctx.buf.take t.ctx.pos

section Output

variable {t : Sink} {s : List Byte} {num : ℕ}

theorem ePrintCons_eq (h : num ≤ s.length) : ePrintCons s num = some (s.take num, 0#32) := by
  have hloop : ∃ j ≤ num, whileLoop (fun p : Printing => some (decide (p.i < num)))
      (fun p => s[p.i]?.map fun c => ⟨p.i + 1, p.printed ++ [c]⟩) (num + 1) ⟨0, s.take 0⟩ =
        some ⟨j, s.take j⟩ ∧ True ∧ ¬j < num := by
    refine whileLoop_along (d := 1) (r := fun j => (⟨j, s.take j⟩ : Printing))
      (P := fun _ => True) Nat.one_pos (fun j _ => rfl)
      (fun j hj _ hlt => ?_) (Nat.zero_le _) trivial (Nat.lt_succ_self _)
    have hget : s[j]? = some s[j] := List.getElem?_eq_getElem (by omega)
    refine ⟨?_, hlt, trivial⟩
    simp only [hget, Option.map_some, List.take_append_getElem]
  obtain ⟨j, hj, hrun, -, hstop⟩ := hloop
  have hjn : j = num := by omega
  rw [List.take_zero, hjn] at hrun
  unfold ePrintCons
  rw [hrun]
  rfl

theorem debugFlush_ok (h : t.Ok) : ∃ t', debugFlush t = some t' ∧ t'.Ok ∧ t'.ctx.pos = 0 ∧
    t'.content = t.content := by
  unfold debugFlush
  by_cases hp : t.ctx.pos = 0
  · rw [if_pos hp]
    exact ⟨t, rfl, h, hp, rfl⟩
  · have hle : t.ctx.pos ≤ t.ctx.buf.length := h.size.symm ▸ h.pos
    have hslice : Buffer.slice t.ctx.buf 0 t.ctx.pos = some (t.ctx.buf.take t.ctx.pos) := by
      unfold Buffer.slice
      rw [if_pos (by omega), List.drop_zero]
    rw [if_neg hp, hslice, ePrintCons_eq hle]
    refine ⟨⟨⟨t.ctx.buf, 0⟩, t.handed ++ [t.ctx.buf.take t.ctx.pos],
      t.printed ++ t.ctx.buf.take t.ctx.pos⟩, rfl, ⟨h.size, Nat.zero_le _, ?_⟩, rfl, ?_⟩
    · simp only [h.printed, List.flatten_append, List.flatten_singleton]
    · simp only [Sink.content, List.flatten_append, List.flatten_singleton, List.take_zero,
        List.append_nil]

/-- Bytes that fit are put behind those that wait. -/
theorem put_ok (h : t.Ok) (hfit : t.ctx.pos + s.length ≤ bufLen) :
    ∃ buf, Buffer.copy t.ctx.buf t.ctx.pos s = some buf ∧
      Sink.Ok { t with ctx := ⟨buf, t.ctx.pos + s.length⟩ } ∧
      Sink.content { t with ctx := ⟨buf, t.ctx.pos + s.length⟩ } = t.content ++ s := by
  have hroom : t.ctx.pos + s.length ≤ t.ctx.buf.length := h.size.symm ▸ hfit
  have htake : (t.ctx.buf.take t.ctx.pos).length = t.ctx.pos := by
    rw [List.length_take]
    omega
  refine ⟨_, Buffer.copy_eq hroom, ⟨?_, hfit, h.printed⟩, ?_⟩
  · have hsize := h.size
    simp only [List.length_append, List.length_take, List.length_drop]
    omega
  · simp only [Sink.content, List.append_assoc]
    rw [← List.append_assoc (t.ctx.buf.take t.ctx.pos), List.take_left']
    rw [List.length_append, htake]

/-- Before a turn of the loop, with the text that is to be put out in all. -/
def Filling (text : List Byte) (k : ℕ) (p : Piece) : Prop :=
  p.sink.Ok ∧ p.sink.content ++ p.s = text ∧ k = p.s.length + p.sink.ctx.pos

theorem fillUp_ok {p : Piece} {text : List Byte} {k : ℕ} (h : Filling text k p)
    (hlong : p.sink.ctx.pos + p.s.length > bufLen) :
    ∃ p', fillUp p = some p' ∧ ∃ k' < k, Filling text k' p' := by
  obtain ⟨hok, htext, hk⟩ := h
  have hpos := hok.pos
  have hn : (p.s.take (bufLen - p.sink.ctx.pos)).length = bufLen - p.sink.ctx.pos := by
    rw [List.length_take]
    omega
  have hfull : p.sink.ctx.pos + (p.s.take (bufLen - p.sink.ctx.pos)).length = bufLen := by omega
  obtain ⟨buf, hcopy, hput, hcontent⟩ := put_ok hok hfull.le
  rw [hfull] at hput hcontent
  obtain ⟨t, hflush, ht, hzero, htc⟩ := debugFlush_ok hput
  refine ⟨⟨p.s.drop (bufLen - p.sink.ctx.pos), t⟩, ?_, _, ?_, ht, ?_, rfl⟩
  · unfold fillUp
    simp only [hcopy, hflush, Option.bind_eq_bind, Option.bind_some]
  · have hb : 0 < bufLen := by decide
    simp only [hzero, List.length_drop]
    omega
  · rw [htc, hcontent, List.append_assoc, List.take_append_drop, htext]

/-- `debug_output` adds its piece, of whatever length, to what is put out. -/
theorem debugOutput_ok (h : t.Ok) (s : List Byte) :
    ∃ t', debugOutput s t = some t' ∧ t'.Ok ∧ t'.content = t.content ++ s := by
  have hI : ∀ k p, Filling (t.content ++ s) k p →
      some (decide (p.sink.ctx.pos + p.s.length > bufLen)) = some false ∨
      some (decide (p.sink.ctx.pos + p.s.length > bufLen)) = some true ∧
        ∃ p', fillUp p = some p' ∧ ∃ k' < k, Filling (t.content ++ s) k' p' := by
    intro k p hp
    by_cases hlong : p.sink.ctx.pos + p.s.length > bufLen
    · exact .inr ⟨by rw [decide_eq_true hlong], fillUp_ok hp hlong⟩
    · exact .inl (by rw [decide_eq_false hlong])
  have hstart : Filling (t.content ++ s) (s.length + t.ctx.pos) ⟨s, t⟩ := ⟨h, rfl, rfl⟩
  obtain ⟨p, hrun, hstop, k, hok, htext, -⟩ := whileLoop_total hI hstart (Nat.lt_succ_self _)
  have hfit := not_lt.mp (of_decide_eq_false (Option.some.inj hstop))
  obtain ⟨buf, hcopy, hput, hcontent⟩ := put_ok hok hfit
  refine ⟨_, ?_, hput, hcontent.trans htext⟩
  unfold debugOutput
  simp only [hrun, hcopy, Option.bind_eq_bind, Option.bind_some]

theorem outputs_ok (h : t.Ok) (out : Out) :
    ∃ t', outputs out t = some t' ∧ t'.Ok ∧ t'.content = t.content ++ out.flatten := by
  induction out generalizing t with
  | nil => exact ⟨t, rfl, h, (List.append_nil _).symm⟩
  | cons s out ih =>
    obtain ⟨t₁, hone, h₁, hc₁⟩ := debugOutput_ok h s
    obtain ⟨t₂, hrest, h₂, hc₂⟩ := ih h₁
    refine ⟨t₂, ?_, h₂, ?_⟩
    · unfold outputs
      rw [hone, Option.bind_some, hrest]
    · rw [hc₂, hc₁, List.flatten_cons, List.append_assoc]

end Output

/-- For every format and arguments that fit it, `vprintfmt` stays inside the format, its
calls are together the expansion of the format, and through the buffer of `vdebugf` just
that text is passed to the kernel and printed. -/
theorem vdebugf_prints (stack junk : ℕ → Byte) (fmt : List Byte) (args : List Arg)
    (h0 : 0#8 ∉ fmt) (hw : ∀ d, .directive d ∈ parse fmt → d.width < 2 ^ 31)
    (hm : Matches (parse fmt) args) :
    (parse fmt).flatMap Item.chars = fmt ∧ ∃ text, expand (parse fmt) args = some text ∧
      (∃ out, Scan.vprintfmt stack fmt args = some out ∧ out.flatten = text) ∧
      ∃ t, vdebugf stack junk fmt args = some t ∧ t.handed.flatten = text ∧ t.printed = text := by
  obtain ⟨text, htext⟩ := exists_expand hm
  have hlist : ∃ out, vprintfmt stack fmt args = some out ∧ out.flatten = text :=
    vprintfmt_expand hw htext
  obtain ⟨out, hout, hflat⟩ := hlist
  rw [← Scan.vprintfmt_eq stack h0 args] at hout
  have hstart : Sink.Ok ⟨⟨(List.range bufLen).map junk, 0⟩, [], []⟩ :=
    ⟨by rw [List.length_map, List.length_range], Nat.zero_le _, rfl⟩
  obtain ⟨t₁, hrun, h₁, hc₁⟩ := outputs_ok hstart out
  obtain ⟨t₂, hflush, h₂, hzero, hc₂⟩ := debugFlush_ok h₁
  have hempty : Sink.content ⟨⟨(List.range bufLen).map junk, 0⟩, [], []⟩ = [] := rfl
  have hhanded : t₂.handed.flatten = text := by
    have hcontent : t₂.content = t₂.handed.flatten := by
      unfold Sink.content
      rw [hzero, List.take_zero, List.append_nil]
    rw [← hcontent, hc₂, hc₁, hempty, List.nil_append, hflat]
  refine ⟨chars_parse fmt, text, htext, ⟨out, hout, hflat⟩, t₂, ?_, hhanded,
    h₂.printed.trans hhanded⟩
  unfold vdebugf
  simp only [hout, hrun, hflush, Option.bind_eq_bind, Option.bind_some]

/-- `x%-5d%`: the last directive has no conversion. -/
def leftFormat : List Byte :=
  [ascii 'x', ascii '%', ascii '-', ascii '5', ascii 'd', ascii '%']

theorem parse_leftFormat : parse leftFormat = [.literal (ascii 'x'),
    .directive ⟨.left, [ascii '5'], false, some (ascii 'd')⟩,
    .directive ⟨.plain, [], false, none⟩] := by
  have hx : ascii 'x' ≠ ascii '%' := by decide
  have hd : takeDirective [ascii '-', ascii '5', ascii 'd', ascii '%'] =
      (⟨.left, [ascii '5'], false, some (ascii 'd')⟩, [ascii '%']) := by decide
  have hn : takeDirective [] = (⟨.plain, [], false, none⟩, []) := by decide
  rw [leftFormat, parse, if_neg hx, parse, if_pos rfl, hd, parse, if_pos rfl, hn, parse]

theorem vdebugf_prints_left :
    (parse leftFormat).flatMap Item.chars = leftFormat ∧
      ∃ text, expand (parse leftFormat) [.word (-42#32)] = some text ∧
        (∃ out, Scan.vprintfmt (fun _ => 7#8) leftFormat [.word (-42#32)] = some out ∧
          out.flatten = text) ∧
        ∃ t, vdebugf (fun _ => 7#8) (fun _ => 9#8) leftFormat [.word (-42#32)] = some t ∧
          t.handed.flatten = text ∧ t.printed = text := by
  refine vdebugf_prints (fun _ => 7#8) (fun _ => 9#8) leftFormat [.word (-42#32)] (by decide) ?_ ?_
  · rw [parse_leftFormat]
    intro d hd
    simp only [List.mem_cons, List.not_mem_nil, or_false, Item.directive.injEq, reduceCtorEq,
      false_or] at hd
    rcases hd with rfl | rfl
    · decide
    · decide
  · unfold Matches
    rw [parse_leftFormat]
    exact ⟨[], rfl⟩

end Debugf
end RvMos
