/-
The buffers of the shell (`parsecmd` and `runcmd` of `user/sh.c`, and the beginning of
`spawn` in `user/lib/spawn.c`).

`argv` has `MAXARGS` cells and `tmpName` has `MAXNAMELEN`; a store outside is an
`overrun`.  What `open` and `fork` answer is a list of words.  An answer of 0 to `fork`
makes the run that of the child, so that the runs for all lists are the runs of all
processes of a line.
-/
import RvMos.User.Gettoken

namespace RvMos

open Lib

namespace Sh

open Common

def maxArgs : ℕ := 128
def maxNameLen : ℕ := 128

inductive Stop where
  | overrun
  /-- `exit()` or `user_panic`, after this message -/
  | exit (msg : String)
  | unfinished
  deriving DecidableEq

inductive Result where
  /-- `return 1` -/
  | empty
  /-- `spawn` goes on to open `tmpName`, with `argc` arguments -/
  | started (argc : ℕ) (tmpName : List Byte)
  deriving DecidableEq

/-- An access that must stay inside its array. -/
def inside {α : Type} : Option α → Except Stop α
  | none => .error .overrun
  | some a => .ok a

@[simp] theorem inside_some_bind {α β : Type} (a : α) (f : α → Except Stop β) :
    (inside (some a) >>= f) = f a := rfl

@[simp] theorem inside_none_bind {α β : Type} (f : α → Except Stop β) :
    (inside none >>= f) = .error .overrun := rfl

/-- `open(t, mode)`, and with `O_CREAT` if that fails. -/
def openFile : List Word → Except Stop (List Word)
  | [] => .ok []
  | fd :: os =>
    if fd.slt 0#32 then
      if (os.headD 0#32).slt 0#32 then .error (.exit "file can't be opened!\n") else .ok os.tail
    else .ok os

/-- `parsecmd` from the state with `argc` arguments on: the number of arguments, `argv`
and the lexer.  The calls on descriptors touch neither. -/
def parsecmd : ℕ → Lex → List Ptr → ℕ → List Word → Except Stop (ℕ × List Ptr × Lex)
  | 0, _, _, _, _ => .error .unfinished
  | fuel + 1, l, argv, argc, os => do
    let (c, t, l) ← inside (gettoken l none none)
    if c = 0#8 then pure (argc, argv, l)
    else if c = ascii 'w' then
      if maxArgs ≤ argc then .error (.exit "too many arguments\n")
      else
        let argv ← inside (Buffer.put argv argc t)
        parsecmd fuel l argv (argc + 1) os
    else if c = ascii '<' ∨ c = ascii '>' then
      let (c, _, l) ← inside (gettoken l none t)
      if c ≠ ascii 'w' then .error (.exit "syntax error : < not followed by word\n")
      else
        let os ← openFile os
        parsecmd fuel l argv argc os
    else if c = ascii '|' then
      if os.headD 0#32 = 0#32 then parsecmd fuel l argv 0 os.tail
      else pure (argc, argv, l)
    else parsecmd fuel l argv argc os

/-- The string at `p`, as far as its NUL. -/
def cstring (b : List Byte) (p : ℕ) : List Byte :=
  (b.drop p).takeWhile (· ≠ 0#8)

def doWithCmdName (tmpName prog : List Byte) : Option (List Byte) := do
  let tmpName ← Buffer.copy tmpName 0 prog
  let tmpName ← Buffer.put tmpName prog.length 0#8
  if strchr (cstring tmpName 0) (ascii '.') then pure tmpName
  else
    let tmpName ← Buffer.put tmpName prog.length (ascii '.')
    let tmpName ← Buffer.put tmpName (prog.length + 1) (ascii 'b')
    Buffer.put tmpName (prog.length + 2) 0#8

/-- `runcmd` after `parsecmd`, as far as the `open` of `spawn`. -/
def startCommand : ℕ × List Ptr × Lex → Except Stop Result
  | (argc, argv, l) => do
    if argc = 0 then pure .empty
    else
      let argv ← inside (Buffer.put argv argc none)
      let prog ← inside (argv.head?.join)
      let tmpName ← inside
        (doWithCmdName (List.replicate maxNameLen 0#8) (cstring l.line prog))
      pure (.started argc tmpName)

/-- `runcmd(s)`, where `l` holds the line and `argv` is not initialised. -/
def runcmd (l : Lex) (s : ℕ) (argv : List Ptr) (os : List Word) : Except Stop Result := do
  let (_, _, l) ← inside (gettoken l (some s) none)
  startCommand (← parsecmd (l.line.length + 1) l argv 0 os)

/-! ## The lines that fit -/

/-- A name that leaves room for its NUL, and for the suffix if it gets one. -/
def NameFits (w : List Byte) : Prop :=
  if ascii '.' ∈ w then w.length < maxNameLen else w.length + 2 < maxNameLen

/-- A command whose words are all there: there is room for the null pointer. -/
def CommandFits (ws : List (List Byte)) : Prop :=
  ∀ w, ws.head? = some w → ws.length < maxArgs ∧ NameFits w

/-- Every command of the line fits that is run at all: one with more words than `argv`
has cells is rejected, as is a redirection without a word, with all that follows. -/
def Fits : List (List Byte) → List Token → Prop
  | ws, [] => CommandFits ws
  | ws, .word w :: ts => maxArgs ≤ ws.length ∨ Fits (ws ++ [w]) ts
  | ws, .symbol c :: ts =>
    if c = ascii '<' ∨ c = ascii '>' then
      match ts with
      | .word _ :: ts => Fits ws ts
      | _ => True
    else if c = ascii '|' then CommandFits ws ∧ Fits [] ts
    else Fits ws ts

theorem fits_symbol (ws : List (List Byte)) (c : Byte) (ts : List Token) :
    Fits ws (.symbol c :: ts) =
      if c = ascii '<' ∨ c = ascii '>' then
        match ts with
        | .word _ :: ts => Fits ws ts
        | _ => True
      else if c = ascii '|' then CommandFits ws ∧ Fits [] ts
      else Fits ws ts := by
  rw [Fits.eq_def]

/-- A run without a store outside the arrays.  If it comes to the `open` of `spawn`, it
has an argument and a NUL behind the last one left in each of them. -/
def Harmless : Except Stop Result → Prop
  | .error (.exit _) => True
  | .error _ => False
  | .ok .empty => True
  | .ok (.started argc tmpName) => argc < maxArgs ∧ tmpName.length = maxNameLen ∧ 0#8 ∈ tmpName

/-! ## The name -/

theorem put_some {b : List Byte} {i : ℕ} {x : Byte} (h : i < b.length) :
    Buffer.put b i x = some (b.set i x) := if_pos h

theorem put_none {α : Type} {b : List α} {i : ℕ} {x : α} (h : b.length ≤ i) :
    Buffer.put b i x = none := if_neg (Nat.not_lt.mpr h)

theorem copy_none {b cs : List Byte} {i : ℕ} (hi : i ≤ b.length) (h : b.length < i + cs.length) :
    Buffer.copy b i cs = none := by
  induction cs generalizing b i with
  | nil => exact absurd h (by simpa using hi)
  | cons c cs ih =>
    rw [List.length_cons] at h
    by_cases hlt : i < b.length
    · rw [Buffer.copy, put_some hlt, Option.bind_some]
      exact ih (by rw [List.length_set]; exact hlt) (by rw [List.length_set]; omega)
    · rw [Buffer.copy, put_none (Nat.not_lt.mp hlt), Option.bind_none]

theorem copy_zeros {w : List Byte} {n : ℕ} (h : w.length ≤ n) :
    Buffer.copy (List.replicate n 0#8) 0 w = some (w ++ List.replicate (n - w.length) 0#8) := by
  have hcut : List.replicate n (0#8 : Byte) =
      [] ++ List.replicate w.length 0#8 ++ List.replicate (n - w.length) 0#8 := by
    rw [List.nil_append, ← List.replicate_add, Nat.add_sub_cancel' h]
  have hcopy := Buffer.copy_at (r := List.replicate (n - w.length) (0#8 : Byte))
    (show 0 = ([] : List Byte).length from rfl) (List.length_replicate (n := w.length) (a := 0#8))
  rw [hcut, hcopy, List.nil_append]

theorem cstring_at {w r : List Byte} (h0 : 0#8 ∉ w) : cstring (w ++ 0#8 :: r) 0 = w := by
  have hw : ∀ c ∈ w, decide (c ≠ 0#8) = true := fun c hc => by
    simp only [decide_eq_true_eq]
    rintro rfl
    exact h0 hc
  rw [cstring, List.drop_zero, List.takeWhile_append_of_pos hw]
  simp

/-- The name of a command in `tmpName`. -/
theorem doWithCmdName_spec {w : List Byte} (h0 : 0#8 ∉ w) :
    (NameFits w → ∃ tmp, doWithCmdName (List.replicate maxNameLen 0#8) w = some tmp ∧
      tmp.length = maxNameLen ∧ 0#8 ∈ tmp) ∧
    (¬NameFits w → doWithCmdName (List.replicate maxNameLen 0#8) w = none) := by
  have hmax : maxNameLen = 128 := rfl
  have hdot : ∀ b : List Byte, strchr b (ascii '.') = true ↔ ascii '.' ∈ b := by simp [strchr]
  unfold NameFits doWithCmdName
  by_cases hlen : w.length < 128
  · have hcopy : Buffer.copy (List.replicate maxNameLen 0#8) 0 w =
        some (w ++ List.replicate (128 - w.length) 0#8) := copy_zeros (by omega)
    obtain ⟨k, hk⟩ : ∃ k, 128 - w.length = k + 1 := ⟨127 - w.length, by omega⟩
    have hput : Buffer.put (w ++ List.replicate (128 - w.length) 0#8) w.length 0#8 =
        some (w ++ 0#8 :: List.replicate k 0#8) := by
      rw [hk, List.replicate_succ, Buffer.put_at rfl]
    have hfull : (w ++ 0#8 :: List.replicate k 0#8).length = 128 := by simp; omega
    simp only [hcopy, Option.bind_eq_bind, Option.bind_some, hput, cstring_at h0, hdot]
    by_cases hin : ascii '.' ∈ w
    · simp only [hin, if_true]
      exact ⟨fun _ => ⟨_, rfl, hfull, by simp⟩, fun h => absurd hlen h⟩
    · simp only [hin, if_false]
      rw [put_some (by omega), Option.bind_some]
      by_cases hb : w.length + 1 < 128
      · rw [put_some (by rw [List.length_set]; omega), Option.bind_some]
        refine ⟨fun h => ⟨_, put_some (by rw [List.length_set, List.length_set]; omega), ?_, ?_⟩,
          fun h => put_none (by rw [List.length_set, List.length_set]; omega)⟩
        · rw [List.length_set, List.length_set, List.length_set, hfull, hmax]
        · exact List.mem_set (by rw [List.length_set, List.length_set]; omega) _
      · rw [put_none (by rw [List.length_set]; omega)]
        exact ⟨fun h => by omega, fun _ => rfl⟩
  · refine ⟨fun h => absurd ?_ hlen, fun _ => ?_⟩
    · split at h <;> omega
    · by_cases hcopy : w.length = 128
      · have hfill : Buffer.copy (List.replicate maxNameLen 0#8) 0 w = some w := by
          rw [copy_zeros (by omega), hmax, hcopy, Nat.sub_self, List.replicate_zero,
            List.append_nil]
        simp only [hfill, Option.bind_eq_bind, Option.bind_some, put_none le_rfl, Option.bind_none]
      · have hnone : Buffer.copy (List.replicate maxNameLen 0#8) 0 w = none :=
          copy_none (Nat.zero_le _) (by rw [List.length_replicate, hmax]; omega)
        simp only [hnone, Option.bind_eq_bind, Option.bind_none]

/-! ## A command -/

/-- `P` decides whether all runs are harmless. -/
def Judged (run : List Word → Except Stop Result) (P : Prop) : Prop :=
  (P → ∀ os, Harmless (run os)) ∧ (¬P → ∃ os, run os = .error .overrun)

section

variable {run : List Word → Except Stop Result} {P Q : Prop}

theorem Judged.iff (h : Judged run P) : (∀ os, Harmless (run os)) ↔ P := by
  refine ⟨fun hall => by_contra fun hno => ?_, h.1⟩
  obtain ⟨os, hos⟩ := h.2 hno
  have := hall os
  rw [hos] at this
  exact this

theorem Judged.exit {msg : String} : Judged (fun _ => .error (.exit msg)) True :=
  ⟨fun _ _ => trivial, fun h => absurd trivial h⟩

theorem Judged.overrun (h : ¬P) : Judged (fun _ => .error .overrun) P :=
  ⟨fun hp => absurd hp h, fun _ => ⟨[], rfl⟩⟩

theorem Judged.openFile (h : Judged run P) : Judged (fun os => Sh.openFile os >>= run) P := by
  refine ⟨fun hp os => ?_, fun hno => ?_⟩
  · cases os with
    | nil => exact h.1 hp []
    | cons fd os =>
      unfold Sh.openFile
      dsimp only
      by_cases hfd : fd.slt 0#32
      · by_cases hagain : (os.headD 0#32).slt 0#32
        · rw [if_pos hfd, if_pos hagain]
          trivial
        · rw [if_pos hfd, if_neg hagain]
          exact h.1 hp os.tail
      · rw [if_neg hfd]
        exact h.1 hp os
  · obtain ⟨os, hos⟩ := h.2 hno
    exact ⟨0#32 :: os, hos⟩

theorem Judged.fork {x : Except Stop Result} (hx : Judged (fun _ => x) P) (h : Judged run Q) :
    Judged (fun os => if os.headD 0#32 = 0#32 then run os.tail else x) (P ∧ Q) := by
  refine ⟨fun hpq os => ?_, fun hno => ?_⟩
  · dsimp only
    split
    · exact h.1 hpq.2 os.tail
    · exact hx.1 hpq.1 os
  · rcases not_and_or.mp hno with hp | hq
    · obtain ⟨os, hos⟩ := hx.2 hp
      exact ⟨[1#32], hos⟩
    · obtain ⟨os, hos⟩ := h.2 hq
      exact ⟨0#32 :: os, hos⟩

end

/-- `argv` with the words so far, the first of which is a string that stays. -/
structure Held (p : List Byte) (argv : List Ptr) (ws : List (List Byte)) : Prop where
  size : argv.length = maxArgs
  first : ∀ w, ws.head? = some w → ∃ i, argv.head? = some (some i) ∧ StringAt p i w

theorem cstring_of_stringAt {line w : List Byte} {i : ℕ} (h : StringAt line i w) :
    cstring line i = w ∧ 0#8 ∉ w := by
  obtain ⟨l, r, rfl, rfl, h0⟩ := h
  refine ⟨?_, h0⟩
  have hdrop : (l ++ w ++ 0#8 :: r).drop l.length = w ++ 0#8 :: r := by
    rw [List.append_assoc, List.drop_left]
  rw [cstring, hdrop]
  exact cstring_at h0

theorem Held.push {p p' : List Byte} {argv : List Ptr} {ws : List (List Byte)} {w : List Byte}
    {i : ℕ} (h : Held p argv ws) (hlt : ws.length < maxArgs) (hp : p <+: p')
    (hi : StringAt p' i w) :
    ∃ argv', Buffer.put argv ws.length (some i) = some argv' ∧ Held p' argv' (ws ++ [w]) := by
  refine ⟨_, if_pos (by rw [h.size]; exact hlt), ?_, ?_⟩
  · rw [List.length_set, h.size]
  · intro v hv
    cases ws with
    | nil =>
      cases hv
      obtain ⟨a, argv', hargv⟩ : ∃ a argv', argv = a :: argv' := by
        cases argv with
        | nil => exact absurd h.size (by decide)
        | cons a argv' => exact ⟨a, argv', rfl⟩
      exact ⟨i, by rw [hargv]; rfl, hi⟩
    | cons u ws =>
      obtain ⟨j, hj, hat⟩ := h.first v hv
      refine ⟨j, ?_, hat.mono hp⟩
      rw [← hj, List.head?_eq_getElem?, List.head?_eq_getElem?, List.getElem?_set_ne (by simp)]

/-- What comes of a command whose words are all there. -/
theorem startCommand_spec {l : Lex} {p : List Byte} {argv : List Ptr} {ws : List (List Byte)}
    (h : Held p argv ws) (hp : p <+: l.line) :
    Judged (fun _ => startCommand (ws.length, argv, l)) (CommandFits ws) := by
  cases ws with
  | nil => exact ⟨fun _ _ => trivial, fun hno => absurd (fun w hw => by cases hw) hno⟩
  | cons w ws =>
    obtain ⟨i, hi, hat⟩ := h.first w rfl
    obtain ⟨hname, h0⟩ := cstring_of_stringAt (hat.mono hp)
    obtain ⟨hfits, hno⟩ := doWithCmdName_spec h0
    have hiff : CommandFits (w :: ws) ↔ (w :: ws).length < maxArgs ∧ NameFits w :=
      ⟨fun h => h w rfl, fun h v hv => by cases hv; exact h⟩
    rw [hiff]
    unfold startCommand
    simp only [List.length_cons, Nat.add_eq_zero_iff, Nat.one_ne_zero, and_false, if_false]
    by_cases hlt : ws.length + 1 < maxArgs
    · have hput : Buffer.put argv (ws.length + 1) none = some (argv.set (ws.length + 1) none) :=
        if_pos (by rw [h.size]; exact hlt)
      have hhead : (argv.set (ws.length + 1) none).head?.join = some i := by
        rw [List.head?_eq_getElem?, List.getElem?_set_ne (by simp), ← List.head?_eq_getElem?, hi]
        rfl
      simp only [hput, inside_some_bind, hhead, hname]
      by_cases hfit : NameFits w
      · obtain ⟨tmp, htmp, hlen, hmem⟩ := hfits hfit
        rw [htmp]
        exact ⟨fun _ _ => ⟨hlt, hlen, hmem⟩, fun hnot => absurd ⟨hlt, hfit⟩ hnot⟩
      · rw [hno hfit]
        exact Judged.overrun fun h => hfit h.2
    · have hput : Buffer.put argv (ws.length + 1) none = none :=
        put_none (by rw [h.size]; exact Nat.not_lt.mp hlt)
      simp only [hput, inside_none_bind]
      exact Judged.overrun fun h => hlt h.1

/-! ## The line -/

theorem symbol_of_mem_tokens {s : List Byte} {c : Byte} (h : .symbol c ∈ tokens s) :
    c ∈ symbols := by
  induction s using tokens.induct with
  | case1 => rw [tokens] at h; cases h
  | case2 d cs hblank ih =>
    rw [tokens, if_pos hblank] at h
    exact ih h
  | case3 d cs hblank hsym ih =>
    rw [tokens, if_neg hblank, if_pos hsym] at h
    rcases List.mem_cons.mp h with heq | h
    · cases heq
      simpa using hsym
    · exact ih h
  | case4 d cs hblank hsym ih =>
    rw [tokens, if_neg hblank, if_neg hsym] at h
    rcases List.mem_cons.mp h with heq | h
    · cases heq
    · exact ih h

theorem tokens_length_le (s : List Byte) : (tokens s).length ≤ s.length := by
  induction s using tokens.induct with
  | case1 => rw [tokens]; exact le_rfl
  | case2 d cs hblank ih =>
    rw [tokens, if_pos hblank, List.length_cons]
    exact Nat.le_succ_of_le ih
  | case3 d cs hblank hsym ih =>
    rw [tokens, if_neg hblank, if_pos hsym, List.length_cons, List.length_cons]
    exact Nat.succ_le_succ ih
  | case4 d cs hblank hsym ih =>
    have hdrop : (cs.dropWhile ordinary).length ≤ cs.length :=
      (List.dropWhile_suffix ordinary).length_le
    rw [tokens, if_neg hblank, if_neg hsym, List.length_cons, List.length_cons]
    omega

theorem Ahead.length_le {l : Lex} {p : List Byte} {ts : List Token} (h : Ahead l p ts) :
    ts.length ≤ l.line.length := by
  cases h with
  | nothing => exact Nat.zero_le _
  | @symbol _ rest =>
    have := tokens_length_le rest
    simp only [List.length_cons, List.length_append]
    omega
  | @word _ _ rest =>
    have := tokens_length_le rest
    simp only [List.length_cons, List.length_append]
    omega

theorem Held.mono {p p' : List Byte} {argv : List Ptr} {ws : List (List Byte)}
    (h : Held p argv ws) (hp : p <+: p') : Held p' argv ws where
  size := h.size
  first w hw :=
    let ⟨i, hi, hat⟩ := h.first w hw
    ⟨i, hi, hat.mono hp⟩

theorem Held.empty {p : List Byte} {argv : List Ptr} (h : argv.length = maxArgs) :
    Held p argv [] where
  size := h
  first _ hw := by cases hw

theorem symbol_ne {c : Byte} (h : c ∈ symbols) : c ≠ 0#8 ∧ c ≠ ascii 'w' := by
  constructor <;> rintro rfl <;> revert h <;> decide

/-- What comes of the rest of a line. -/
theorem parsecmd_spec {fuel : ℕ} {l : Lex} {p : List Byte} {ts : List Token}
    {argv : List Ptr} {ws : List (List Byte)} (ha : Ahead l p ts) (h : Held p argv ws)
    (hsym : ∀ c, .symbol c ∈ ts → c ∈ symbols) (hfuel : ts.length < fuel) :
    Judged (fun os => parsecmd fuel l argv ws.length os >>= startCommand) (Fits ws ts) := by
  induction fuel generalizing l p ts argv ws with
  | zero => exact absurd hfuel (Nat.not_lt_zero _)
  | succ fuel ih =>
    obtain ⟨l', p', hcall, ha', hp, hword⟩ := ha.step
    have hheld := h.mono hp
    cases ts with
    | nil =>
      have hstep : ∀ os, parsecmd (fuel + 1) l argv ws.length os =
          .ok (ws.length, argv, l') := fun os => by
        rw [parsecmd, hcall]
        rfl
      simp only [hstep]
      exact startCommand_spec hheld ha'.line
    | cons tok ts =>
      rw [List.length_cons, Nat.succ_lt_succ_iff] at hfuel
      rw [List.tail_cons] at ha'
      have hsym' : ∀ c, .symbol c ∈ ts → c ∈ symbols := fun c hc => hsym c (.tail _ hc)
      cases tok with
      | word w =>
        obtain ⟨i, hi, hat⟩ := hword w rfl
        have hstep : ∀ os, parsecmd (fuel + 1) l argv ws.length os =
            if maxArgs ≤ ws.length then .error (.exit "too many arguments\n")
            else inside (Buffer.put argv ws.length (some i)) >>= fun argv =>
              parsecmd fuel l' argv (ws.length + 1) os := fun os => by
          rw [parsecmd, hcall, hi]
          rfl
        simp only [hstep, Fits]
        by_cases hmax : maxArgs ≤ ws.length
        · simp only [hmax, if_true, true_or]
          exact Judged.exit
        · obtain ⟨argv', hput, hheld'⟩ := h.push (Nat.not_le.mp hmax) hp hat
          have hrest := ih ha' hheld' hsym' hfuel
          rw [List.length_append, List.length_singleton] at hrest
          simp only [hmax, if_false, hput, inside_some_bind, false_or]
          exact hrest
      | symbol c =>
        obtain ⟨hc0, hcw⟩ := symbol_ne (hsym c (.head _))
        have hc : gettoken l none none = some (c, l.np1, l') := hcall none
        rw [fits_symbol]
        by_cases hredir : c = ascii '<' ∨ c = ascii '>'
        · obtain ⟨l₂, p₂, hcall₂, ha₂, hp₂, -⟩ := ha'.step
          have hstep : ∀ os, parsecmd (fuel + 1) l argv ws.length os =
              if (ts.head?.map Token.kind).getD 0#8 ≠ ascii 'w' then
                .error (.exit "syntax error : < not followed by word\n")
              else openFile os >>= fun os => parsecmd fuel l₂ argv ws.length os := fun os => by
            rw [parsecmd, hc]
            simp only [inside_some_bind, hc0, hcw, hredir, if_true, if_false, hcall₂]
          simp only [hstep, if_pos hredir]
          rcases ts with - | ⟨c' | w, ts⟩
          · exact Judged.exit
          · have hc' : c' ≠ ascii 'w' := (symbol_ne (hsym' c' (.head _))).2
            simp only [List.head?_cons, Option.map_some, Option.getD_some, Token.kind, ne_eq, hc',
              not_false_eq_true, if_true]
            exact Judged.exit
          · have hrest := ih ha₂ (hheld.mono hp₂) (fun c hc => hsym' c (.tail _ hc))
              (Nat.lt_of_succ_lt hfuel)
            simp only [List.head?_cons, Option.map_some, Option.getD_some, Token.kind, ne_eq,
              not_true_eq_false, if_false, bind_assoc]
            exact hrest.openFile
        by_cases hpipe : c = ascii '|'
        · have hstep : ∀ os, (parsecmd (fuel + 1) l argv ws.length os >>= startCommand) =
              if os.headD 0#32 = 0#32 then parsecmd fuel l' argv 0 os.tail >>= startCommand
              else startCommand (ws.length, argv, l') := fun os => by
            rw [parsecmd, hc]
            simp only [inside_some_bind, hc0, hcw, hredir, if_pos hpipe, if_false]
            split <;> rfl
          simp only [hstep, if_neg hredir, if_pos hpipe]
          exact (startCommand_spec hheld ha'.line).fork (ih ha' (Held.empty h.size) hsym' hfuel)
        · have hstep : ∀ os, parsecmd (fuel + 1) l argv ws.length os =
              parsecmd fuel l' argv ws.length os := fun os => by
            rw [parsecmd, hc]
            simp only [inside_some_bind, hc0, hcw, hredir, hpipe, if_false]
          simp only [hstep, if_neg hredir, if_neg hpipe]
          exact ih ha' hheld hsym' hfuel

/-- Which lines the shell takes without a store outside its arrays, whatever `open` and `fork`
answer: those whose commands leave room for the null pointer and whose names leave room for the
suffix. -/
theorem runcmd_harmless_iff (before s after : List Byte) (h0 : 0#8 ∉ s) (l : Lex)
    (hl : l.line = before ++ s ++ 0#8 :: after) (argv : List Ptr) (hargv : argv.length = maxArgs) :
    (∀ os, Harmless (runcmd l before.length argv os)) ↔ Fits [] (tokens s) := by
  obtain ⟨nc, np1, np2, line, hfind, hfound⟩ := findToken_at (l := before) (r := after) h0
  obtain ⟨p, hahead, -, -⟩ := hfound.ahead (d := l.c) h0
  have hrun : ∀ os, runcmd l before.length argv os =
      parsecmd (line.length + 1) ⟨line, l.c, nc, np1, np2⟩ argv 0 os >>= startCommand := by
    intro os
    rw [runcmd, gettoken, hl, hfind]
    rfl
  simp only [hrun]
  exact (parsecmd_spec hahead (Held.empty hargv) (fun _ => symbol_of_mem_tokens)
    (Nat.lt_succ_of_le hahead.length_le)).iff

/-- The command `ls`. -/
theorem runcmd_harmless_iff_ls :
    (∀ os, Harmless (runcmd ⟨[ascii 'l', ascii 's', 0#8], 0#8, 0#8, none, none⟩ 0
      (List.replicate 128 none) os)) ↔ Fits [] (tokens [ascii 'l', ascii 's']) :=
  runcmd_harmless_iff [] [ascii 'l', ascii 's'] [] (by decide)
    ⟨[ascii 'l', ascii 's', 0#8], 0#8, 0#8, none, none⟩ rfl (List.replicate 128 none) rfl

/-- The first line has 128 words, and the name on the second has 126 characters. -/
theorem runcmd_overruns :
    ¬Harmless (runcmd ⟨(List.replicate 128 [ascii 'a', ascii ' ']).flatten ++ [0#8], 0#8, 0#8,
        none, none⟩ 0 (List.replicate 128 none) []) ∧
      ¬Harmless (runcmd ⟨List.replicate 126 (ascii 'a') ++ [0#8], 0#8, 0#8, none, none⟩ 0
        (List.replicate 128 none) []) := by
  have hwords : runcmd ⟨(List.replicate 128 [ascii 'a', ascii ' ']).flatten ++ [0#8], 0#8, 0#8,
      none, none⟩ 0 (List.replicate 128 none) [] = .error .overrun := by decide +kernel
  have hname : runcmd ⟨List.replicate 126 (ascii 'a') ++ [0#8], 0#8, 0#8, none, none⟩ 0
      (List.replicate 128 none) [] = .error .overrun := by decide +kernel
  rw [hwords, hname]
  exact ⟨id, id⟩

end Sh
end RvMos
