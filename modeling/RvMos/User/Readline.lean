/-
The line editor of the shell (`readline` of `user/sh.c`).

The text lies in `buf[0..allIndex)` and the cursor before `buf[curIndex]`.  The
console answers each `read(0, &ch, 1)`: `some ch` is the value that `ch` has after a
read of one byte, `none` any other result.  What the shell prints is collected
in `out`.  The indices stay below the size of a buffer, so that they do not wrap.
-/
import RvMos.Lib.Buffer
import RvMos.Common.Print

namespace RvMos

open Lib

namespace Sh

open Common

export Common (Byte)

def cursorRight : Byte := 67#8

def cursorLeft : Byte := 68#8

def cursorFormerRight : Byte := -1#8

def cursorFormerLeft : Byte := -2#8

def backspace : Byte := 8#8

structure Edit where
  buf : List Byte
  cur : ℕ
  all : ℕ
  out : List Byte
  deriving DecidableEq, Repr

def moveCursor (c : Byte) : List Byte :=
  [27#8, 91#8, c]

def deleteCharFromCmd (e : Edit) : Option Edit :=
  if 0 < e.cur then do
    let buf ← Buffer.shiftDown e.buf (e.cur - 1) (e.all - e.cur)
    let all := e.all - 1
    let cur := e.cur - 1
    let tail ← Buffer.slice buf cur (all - cur)
    some ⟨buf, cur, all, e.out ++ [backspace] ++ tail ++ [ascii ' '] ++
      List.replicate (all + 1 - cur) backspace⟩
  else some e

def addCharToCmd (e : Edit) (ch : Byte) : Option Edit := do
  let buf ← Buffer.shiftUp e.buf e.cur (e.all - e.cur)
  let buf ← Buffer.put buf e.cur ch
  let cur := e.cur + 1
  let all := e.all + 1
  let tail ← Buffer.slice buf cur (all - cur)
  some ⟨buf, cur, all, e.out ++ tail ++ List.replicate (all - cur) backspace⟩

def doWithDirection (e : Edit) (ch : Byte) : Edit :=
  if ch = cursorFormerRight then
    if e.cur < e.all then { e with cur := e.cur + 1, out := e.out ++ moveCursor cursorRight }
    else e
  else if ch = cursorFormerLeft then
    if 0 < e.cur then { e with cur := e.cur - 1, out := e.out ++ moveCursor cursorLeft }
    else e
  else e

def isNewline (ch : Byte) : Bool :=
  ch = ascii '\r' || ch = ascii '\n'

/-- Where `readline` is after the keys so far: it waits for one, in the editing
loop or in the loop that discards a line, it has returned, with the keys that it did
not read, or the shell has ended. -/
inductive Outcome where
  | waiting (e : Edit)
  | discarding (e : Edit)
  | returned (e : Edit) (rest : List (Option Byte))
  | exited
  deriving DecidableEq, Repr

/-- `while (read(0, buf, 1) == 1 && buf[0] != '\r' && buf[0] != '\n'); buf[0] = 0`. -/
def discardLine (e : Edit) : List (Option Byte) → Option Outcome
  | [] => some (.discarding e)
  | none :: ks => do
    let buf ← Buffer.put e.buf 0 0#8
    some (.returned { e with buf := buf } ks)
  | some ch :: ks => do
    let buf ← Buffer.put e.buf 0 ch
    if isNewline ch then do
      let buf ← Buffer.put buf 0 0#8
      some (.returned { e with buf := buf } ks)
    else discardLine { e with buf := buf } ks

/-- `readline(buf, n)` from the top of its loop. -/
def readline (n : ℕ) (e : Edit) : List (Option Byte) → Option Outcome
  | [] => if e.all < n then some (.waiting e) else discardLine e []
  | k :: ks =>
    if e.all < n then
      match k with
      | none => some .exited
      | some ch =>
        if ch.toInt < 0 then readline n (doWithDirection e ch) ks
        else if ch = backspace ∨ ch = 0x7f#8 then do
          let e ← deleteCharFromCmd e
          readline n e ks
        else if isNewline ch then do
          let buf ← Buffer.put e.buf e.all 0#8
          some (.returned { e with buf := buf } ks)
        else do
          let e ← addCharToCmd e ch
          readline n e ks
    else discardLine e (k :: ks)

/-! ## The two-stack editor -/

/-- The cursor is between `left`, whose top is the character before it, and `right`. -/
structure Editor where
  left : List Byte
  right : List Byte
  deriving DecidableEq, Repr

namespace Editor

def text (ed : Editor) : List Byte :=
  ed.left.reverse ++ ed.right

def size (ed : Editor) : ℕ :=
  ed.left.length + ed.right.length

theorem text_length (ed : Editor) : ed.text.length = ed.size := by
  simp [text, size]

def moveRight : Editor → Editor
  | ⟨l, c :: r⟩ => ⟨c :: l, r⟩
  | ed => ed

def moveLeft : Editor → Editor
  | ⟨c :: l, r⟩ => ⟨l, c :: r⟩
  | ed => ed

/-- A key that does not end the line. -/
def key (ed : Editor) (ch : Byte) : Editor :=
  if ch = cursorFormerRight then ed.moveRight
  else if ch = cursorFormerLeft then ed.moveLeft
  else if ch.toInt < 0 then ed
  else if ch = backspace ∨ ch = 0x7f#8 then { ed with left := ed.left.tail }
  else { ed with left := ch :: ed.left }

def keys (ks : List Byte) : Editor :=
  ks.foldl key ⟨[], []⟩

end Editor

/-- The buffer shows the text of the editor. -/
structure Shows (n : ℕ) (e : Edit) (ed : Editor) : Prop where
  size : e.buf.length = n
  cur : e.cur = ed.left.length
  all : e.all = ed.size
  text : ed.text <+: e.buf

/-! ## One key -/

theorem Shows.cut {n : ℕ} {e : Edit} {ed : Editor} (h : Shows n e ed) :
    ∃ r, e.buf = ed.left.reverse ++ ed.right ++ r :=
  h.text.imp fun _ hr => hr.symm

theorem Shows.delete {n : ℕ} {e : Edit} {ed : Editor} (h : Shows n e ed) :
    ∃ e', deleteCharFromCmd e = some e' ∧ Shows n e' { ed with left := ed.left.tail } := by
  obtain ⟨r, hbuf⟩ := h.cut
  obtain ⟨left, right⟩ := ed
  have hcur := h.cur
  have hall := h.all
  have hsize := h.size
  simp only [Editor.size] at hall
  cases left with
  | nil =>
    have hno : ¬0 < e.cur := by simp [hcur]
    exact ⟨e, if_neg hno, h⟩
  | cons c left =>
    simp only [List.length_cons] at hcur hall
    have hpos : 0 < e.cur := by omega
    have hcut : e.buf = left.reverse ++ c :: right ++ r := by rw [hbuf]; simp
    have hcount : e.all - e.cur = right.length := by omega
    obtain ⟨z, hshift⟩ := Buffer.shiftDown_at (l := left.reverse) (m := right) (r := r) (x := c)
      (i := e.cur - 1) (by simp; omega)
    have hslice : Buffer.slice (left.reverse ++ right ++ z :: r) (e.cur - 1)
        (e.all - 1 - (e.cur - 1)) = some right :=
      Buffer.slice_at (by simp; omega) (by omega)
    refine ⟨⟨left.reverse ++ right ++ z :: r, e.cur - 1, e.all - 1,
      e.out ++ [backspace] ++ right ++ [ascii ' '] ++
        List.replicate (e.all - 1 + 1 - (e.cur - 1)) backspace⟩, ?_, ?_⟩
    · simp only [deleteCharFromCmd, if_pos hpos, hcut, hcount, hshift, Option.bind_eq_bind,
        Option.bind_some, hslice]
    · refine ⟨?_, by simp only [List.tail_cons]; omega, ?_, ⟨z :: r, by simp [Editor.text]⟩⟩
      · rw [← hsize, hcut]
        simp
        omega
      · simp only [Editor.size, List.tail_cons]
        omega

theorem Shows.add {n : ℕ} {e : Edit} {ed : Editor} (h : Shows n e ed) (hlt : ed.size < n)
    (ch : Byte) :
    ∃ e', addCharToCmd e ch = some e' ∧ Shows n e' { ed with left := ch :: ed.left } := by
  obtain ⟨r, hbuf⟩ := h.cut
  have hcur := h.cur
  have hall := h.all
  have hsize := h.size
  simp only [Editor.size] at hall hlt
  obtain ⟨y, r, rfl⟩ : ∃ y t, r = y :: t := by
    cases r with
    | nil => rw [hbuf] at hsize; simp at hsize; omega
    | cons y t => exact ⟨y, t, rfl⟩
  have hcount : e.all - e.cur = ed.right.length := by omega
  obtain ⟨z, hshift⟩ := Buffer.shiftUp_at (l := ed.left.reverse) (m := ed.right) (r := r) (y := y)
    (i := e.cur) (by simp [hcur])
  have hput : Buffer.put (ed.left.reverse ++ z :: ed.right ++ r) e.cur ch =
      some ((ed.left.reverse ++ [ch]) ++ ed.right ++ r) := by
    rw [List.append_assoc, List.cons_append, Buffer.put_at (by simp [hcur])]
    simp
  have hslice : Buffer.slice ((ed.left.reverse ++ [ch]) ++ ed.right ++ r) (e.cur + 1)
      (e.all + 1 - (e.cur + 1)) = some ed.right :=
    Buffer.slice_at (by simp; omega) (by omega)
  refine ⟨⟨(ed.left.reverse ++ [ch]) ++ ed.right ++ r, e.cur + 1, e.all + 1,
    e.out ++ ed.right ++ List.replicate (e.all + 1 - (e.cur + 1)) backspace⟩, ?_, ?_⟩
  · simp only [addCharToCmd, hbuf, hcount, hshift, hput, Option.bind_eq_bind, Option.bind_some,
      hslice]
  · refine ⟨?_, by simp [hcur], ?_, ⟨r, by simp [Editor.text]⟩⟩
    · rw [← hsize, hbuf]
      simp
      omega
    · simp only [Editor.size, List.length_cons]
      omega

theorem Shows.direction {n : ℕ} {e : Edit} {ed : Editor} (h : Shows n e ed) {ch : Byte}
    (hneg : ch.toInt < 0) : Shows n (doWithDirection e ch) (ed.key ch) := by
  obtain ⟨left, right⟩ := ed
  obtain ⟨hsize, hcur, hall, htext⟩ := h
  simp only [Editor.size] at hall hcur
  unfold doWithDirection Editor.key
  by_cases hr : ch = cursorFormerRight
  · rw [if_pos hr, if_pos hr]
    cases right with
    | nil =>
      have hno : ¬e.cur < e.all := by simp at hall; omega
      rw [if_neg hno]
      exact ⟨hsize, hcur, hall, htext⟩
    | cons c right =>
      simp only [List.length_cons] at hall
      have hlt : e.cur < e.all := by omega
      rw [if_pos hlt]
      refine ⟨hsize, by simp [Editor.moveRight, hcur], ?_, ?_⟩
      · simp only [Editor.moveRight, Editor.size, List.length_cons]
        omega
      · simpa [Editor.moveRight, Editor.text] using htext
  · rw [if_neg hr, if_neg hr]
    by_cases hl : ch = cursorFormerLeft
    · rw [if_pos hl, if_pos hl]
      cases left with
      | nil =>
        have hno : ¬0 < e.cur := by simp [hcur]
        rw [if_neg hno]
        exact ⟨hsize, hcur, hall, htext⟩
      | cons c left =>
        simp only [List.length_cons] at hall hcur
        have hpos : 0 < e.cur := by omega
        rw [if_pos hpos]
        refine ⟨hsize, by simp only [Editor.moveLeft]; omega, ?_, ?_⟩
        · simp only [Editor.moveLeft, Editor.size, List.length_cons]
          omega
        · simpa [Editor.moveLeft, Editor.text] using htext
    · rw [if_neg hl, if_neg hl, if_pos hneg]
      exact ⟨hsize, hcur, hall, htext⟩

/-- A key that does not end the line is one step of the editor. -/
theorem Shows.key {n : ℕ} {e : Edit} {ed : Editor} (h : Shows n e ed) (hlt : ed.size < n)
    {ch : Byte} (hch : isNewline ch = false) :
    ∃ e', (∀ ks, readline n e (some ch :: ks) = readline n e' ks) ∧ Shows n e' (ed.key ch) := by
  have hall : e.all < n := by rw [h.all]; exact hlt
  by_cases hneg : ch.toInt < 0
  · refine ⟨doWithDirection e ch, fun ks => ?_, h.direction hneg⟩
    rw [readline, if_pos hall, if_pos hneg]
  · have hr : ch ≠ cursorFormerRight := by
      rintro rfl
      exact hneg (by decide)
    have hl : ch ≠ cursorFormerLeft := by
      rintro rfl
      exact hneg (by decide)
    have hkey : ed.key ch = if ch = backspace ∨ ch = 0x7f#8 then { ed with left := ed.left.tail }
        else { ed with left := ch :: ed.left } := by
      rw [Editor.key, if_neg hr, if_neg hl, if_neg hneg]
    rw [hkey]
    by_cases hdel : ch = backspace ∨ ch = 0x7f#8
    · obtain ⟨e', he, hshows⟩ := h.delete
      refine ⟨e', fun ks => ?_, by rwa [if_pos hdel]⟩
      simp only [readline, if_pos hall, if_neg hneg, if_pos hdel, he, Option.bind_eq_bind,
        Option.bind_some]
    · obtain ⟨e', he, hshows⟩ := h.add hlt ch
      refine ⟨e', fun ks => ?_, by rwa [if_neg hdel]⟩
      simp only [readline, if_pos hall, if_neg hneg, if_neg hdel, hch, he, Bool.false_eq_true,
        if_false, Option.bind_eq_bind, Option.bind_some]

/-! ## Runs -/

/-- Keys that do not end the line, read while the text is shorter than the buffer. -/
theorem Shows.keys {n : ℕ} {ks : List Byte} {e : Edit} {ed : Editor} (h : Shows n e ed)
    (hks : ∀ ch ∈ ks, isNewline ch = false)
    (hlt : ∀ p, p <+: ks → p ≠ ks → (p.foldl Editor.key ed).size < n) (rest : List (Option Byte)) :
    ∃ e', readline n e (ks.map some ++ rest) = readline n e' rest ∧
      Shows n e' (ks.foldl Editor.key ed) := by
  induction ks generalizing e ed with
  | nil => exact ⟨e, rfl, h⟩
  | cons ch ks ih =>
    have hsize : ed.size < n := hlt [] (List.nil_prefix) (by simp)
    obtain ⟨e₁, hstep, hshows⟩ := h.key hsize (hks ch (.head _))
    obtain ⟨e', hrun, hend⟩ := ih hshows (fun c hc => hks c (.tail _ hc)) fun p hp hne =>
      hlt (ch :: p) (List.cons_prefix_cons.mpr ⟨rfl, hp⟩) (by simpa using hne)
    exact ⟨e', (hstep _).trans hrun, hend⟩

theorem discardLine_returns {e : Edit} {ks : List Byte} (hpos : 0 < e.buf.length)
    (hks : ∀ ch ∈ ks, isNewline ch = false) {nl : Byte} (hnl : isNewline nl = true)
    (rest : List (Option Byte)) :
    ∃ e', discardLine e (ks.map some ++ some nl :: rest) = some (.returned e' rest) ∧
      e'.buf.length = e.buf.length ∧ e'.buf.head? = some 0#8 := by
  have hput : ∀ (b : List Byte) (x : Byte), 0 < b.length →
      Buffer.put b 0 x = some (x :: b.tail) := by
    intro b x hb
    obtain ⟨y, b, rfl⟩ := List.exists_cons_of_length_pos hb
    simp [Buffer.put]
  induction ks generalizing e with
  | nil =>
    refine ⟨{ e with buf := 0#8 :: e.buf.tail }, ?_, ?_, rfl⟩
    · simp [discardLine, hput _ _ hpos, hnl, hput]
    · simp
      omega
  | cons ch ks ih =>
    obtain ⟨e', hrun, hlen, hhead⟩ := ih (e := { e with buf := ch :: e.buf.tail }) (by simp)
      fun c hc => hks c (.tail _ hc)
    refine ⟨e', ?_, ?_, hhead⟩
    · simpa [discardLine, hput _ _ hpos, hks ch (.head _)] using hrun
    · rw [hlen]
      simp
      omega

theorem discardLine_isSome {e : Edit} (hpos : 0 < e.buf.length) (ks : List (Option Byte)) :
    ∃ o, discardLine e ks = some o := by
  have hput : ∀ (b : List Byte) (x : Byte), 0 < b.length →
      ∃ b', Buffer.put b 0 x = some b' ∧ 0 < b'.length := by
    intro b x hb
    exact ⟨b.set 0 x, if_pos hb, by simpa using hb⟩
  induction ks generalizing e with
  | nil => exact ⟨_, rfl⟩
  | cons k ks ih =>
    cases k with
    | none =>
      obtain ⟨b, hb, -⟩ := hput e.buf 0#8 hpos
      exact ⟨_, by rw [discardLine, hb]; rfl⟩
    | some ch =>
      obtain ⟨b, hb, hbpos⟩ := hput e.buf ch hpos
      simp only [discardLine, hb, Option.bind_eq_bind, Option.bind_some]
      split
      · obtain ⟨b', hb', -⟩ := hput b 0#8 hbpos
        exact ⟨_, by rw [hb']; rfl⟩
      · exact ih hbpos

theorem readline_full {n : ℕ} {e : Edit} (hfull : ¬e.all < n) (ks : List (Option Byte)) :
    readline n e ks = discardLine e ks := by
  cases ks with
  | nil => rw [readline, if_neg hfull]
  | cons k ks => cases k <;> rw [readline, if_neg hfull]

/-- The end of the line. -/
theorem Shows.newline {n : ℕ} {e : Edit} {ed : Editor} (h : Shows n e ed) (hlt : ed.size < n)
    {nl : Byte} (hnl : isNewline nl = true) (rest : List (Option Byte)) :
    ∃ e', readline n e (some nl :: rest) = some (.returned e' rest) ∧ e'.buf.length = n ∧
      ed.text ++ [0#8] <+: e'.buf := by
  have hall : e.all < n := by rw [h.all]; exact hlt
  have hkeys : ¬nl.toInt < 0 ∧ ¬(nl = backspace ∨ nl = 0x7f#8) := by
    have hor : nl = ascii '\r' ∨ nl = ascii '\n' := by simpa [isNewline] using hnl
    rcases hor with rfl | rfl <;> decide
  have hput : Buffer.put e.buf e.all 0#8 = some (e.buf.set e.all 0#8) :=
    if_pos (by rw [h.size]; exact hall)
  refine ⟨{ e with buf := e.buf.set e.all 0#8 }, ?_, by rw [List.length_set, h.size], ?_⟩
  · simp only [readline, if_pos hall, if_neg hkeys.1, if_neg hkeys.2, hnl, if_true, hput,
      Option.bind_eq_bind, Option.bind_some]
  · obtain ⟨r, hr⟩ := h.text
    obtain ⟨y, r, rfl⟩ : ∃ y t, r = y :: t := by
      cases r with
      | nil =>
        have hsize := h.size
        rw [← hr, List.append_nil, Editor.text_length] at hsize
        omega
      | cons y t => exact ⟨y, t, rfl⟩
    refine ⟨r, ?_⟩
    rw [← hr, h.all, ← Editor.text_length]
    simp

/-- No store outside the buffer, whatever the console answers. -/
theorem Shows.isSome {n : ℕ} {e : Edit} {ed : Editor} (h : Shows n e ed) (hn : 0 < n)
    (ks : List (Option Byte)) : ∃ o, readline n e ks = some o := by
  induction ks generalizing e ed with
  | nil =>
    unfold readline
    split
    · exact ⟨_, rfl⟩
    · exact ⟨_, rfl⟩
  | cons k ks ih =>
    by_cases hlt : e.all < n
    · have hsize : ed.size < n := h.all ▸ hlt
      cases k with
      | none => exact ⟨_, by rw [readline, if_pos hlt]⟩
      | some ch =>
        by_cases hch : isNewline ch = true
        · obtain ⟨e', he, -⟩ := h.newline hsize hch ks
          exact ⟨_, he⟩
        · obtain ⟨e', hstep, hshows⟩ := h.key hsize (Bool.eq_false_iff.mpr hch)
          rw [hstep]
          exact ih hshows
    · rw [readline_full hlt]
      exact discardLine_isSome (by rw [h.size]; exact hn) _

theorem shows_start {n : ℕ} {buf : List Byte} (hbuf : buf.length = n) (out : List Byte) :
    Shows n ⟨buf, 0, 0, out⟩ ⟨[], []⟩ :=
  ⟨hbuf, rfl, rfl, List.nil_prefix⟩

/-- The first keys after which the text has reached a size. -/
theorem exists_first_full {n : ℕ} {ks p : List Byte} (hp : p <+: ks)
    (hsize : n ≤ (Editor.keys p).size) :
    ∃ q, q <+: ks ∧ n ≤ (Editor.keys q).size ∧
      ∀ q', q' <+: q → q' ≠ q → (Editor.keys q').size < n := by
  classical
  have hex : ∃ k, n ≤ (Editor.keys (ks.take k)).size :=
    ⟨p.length, by rwa [← List.prefix_iff_eq_take.mp hp]⟩
  refine ⟨ks.take (Nat.find hex), List.take_prefix _ _, Nat.find_spec hex, fun q' hq' hne => ?_⟩
  have htake : q' = ks.take q'.length :=
    List.prefix_iff_eq_take.mp (hq'.trans (List.take_prefix _ _))
  have hlen : q'.length < Nat.find hex := by
    have hle := hq'.length_le
    rw [List.length_take] at hle
    refine lt_of_le_of_ne (by omega) fun heq => hne ?_
    rw [← heq]
    exact htake
  have := Nat.find_min hex hlen
  rw [← htake] at this
  omega

/-- `readline` is the two-stack editor, in a buffer of any size and for any keys. -/
theorem readline_edits (n : ℕ) (hn : 1 ≤ n) (buf out : List Byte) (hbuf : buf.length = n) :
    (∀ input, ∃ o, readline n ⟨buf, 0, 0, out⟩ input = some o) ∧
    ∀ ks, (∀ ch ∈ ks, isNewline ch = false) →
      ((∀ p, p <+: ks → (Editor.keys p).size < n) →
        (∃ e, readline n ⟨buf, 0, 0, out⟩ (ks.map some) = some (.waiting e) ∧
          e.buf.length = n ∧ e.cur = (Editor.keys ks).left.length ∧ e.cur ≤ e.all ∧ e.all < n ∧
          e.buf.take e.all = (Editor.keys ks).text) ∧
        ∀ nl rest, isNewline nl = true →
          ∃ e, readline n ⟨buf, 0, 0, out⟩ (ks.map some ++ some nl :: rest) =
              some (.returned e rest) ∧
            e.buf.length = n ∧ (Editor.keys ks).text ++ [0#8] <+: e.buf) ∧
      ((∃ p, p <+: ks ∧ (Editor.keys p).size = n) →
        ∀ nl rest, isNewline nl = true →
          ∃ e, readline n ⟨buf, 0, 0, out⟩ (ks.map some ++ some nl :: rest) =
              some (.returned e rest) ∧
            e.buf.length = n ∧ e.buf.head? = some 0#8) := by
  have hstart := shows_start hbuf out
  refine ⟨hstart.isSome hn, fun ks hks => ⟨fun hbelow => ⟨?_, fun nl rest hnl => ?_⟩, ?_⟩⟩
  · obtain ⟨e, hrun, hshows⟩ := hstart.keys hks (fun p hp _ => hbelow p hp) []
    have hsize : (Editor.keys ks).size < n := hbelow ks (List.prefix_refl _)
    have hall : e.all < n := hshows.all ▸ hsize
    refine ⟨e, ?_, hshows.size, hshows.cur, ?_, hall, ?_⟩
    · rw [List.append_nil] at hrun
      rw [hrun, readline, if_pos hall]
    · rw [hshows.cur, hshows.all]
      exact Nat.le_add_right _ _
    · rw [hshows.all, ← Editor.text_length]
      exact (List.prefix_iff_eq_take.mp hshows.text).symm
  · obtain ⟨e, hrun, hshows⟩ := hstart.keys hks (fun p hp _ => hbelow p hp) (some nl :: rest)
    rw [hrun]
    exact hshows.newline (hbelow ks (List.prefix_refl _)) hnl rest
  · rintro ⟨p, hp, hsize⟩ nl rest hnl
    obtain ⟨q, ⟨t, rfl⟩, hfull, hfirst⟩ := exists_first_full hp hsize.ge
    obtain ⟨e, hrun, hshows⟩ := hstart.keys (fun ch hch => hks ch (by simp [hch])) hfirst
      (t.map some ++ some nl :: rest)
    have hall : ¬e.all < n := by
      rw [hshows.all]
      exact not_lt.mpr hfull
    obtain ⟨e', hend, hlen, hhead⟩ := discardLine_returns (e := e) (by rw [hshows.size]; exact hn)
      (fun ch hch => hks ch (List.mem_append_right q hch)) hnl rest
    refine ⟨e', ?_, hlen.trans hshows.size, hhead⟩
    rw [List.map_append, List.append_assoc, hrun, readline_full hall, hend]

/-- A buffer of three bytes and the keys `a`, `b`, cursor left. -/
theorem readline_edits_left :
    ∃ e, readline 3 ⟨[7#8, 7#8, 7#8], 0, 0, []⟩
        ([ascii 'a', ascii 'b', cursorFormerLeft].map some) = some (.waiting e) ∧
      e.buf.length = 3 ∧
      e.cur = (Editor.keys [ascii 'a', ascii 'b', cursorFormerLeft]).left.length ∧
      e.cur ≤ e.all ∧ e.all < 3 ∧
      e.buf.take e.all = (Editor.keys [ascii 'a', ascii 'b', cursorFormerLeft]).text := by
  refine (((readline_edits 3 (by decide) [7#8, 7#8, 7#8] [] rfl).2
    [ascii 'a', ascii 'b', cursorFormerLeft] (by decide)).1 fun p hp => ?_).1
  have hall : ∀ p ∈ [ascii 'a', ascii 'b', cursorFormerLeft].inits,
      (Editor.keys p).size < 3 := by decide
  exact hall p ((List.mem_inits _ _).mpr hp)

end Sh
end RvMos
