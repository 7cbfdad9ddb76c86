/-
Paths (`walk_path`).

A path names its components, the runs between its slashes.  The components lead
from the root through directories, and the walk ends in the file that they lead to
or at the first of them that leads nowhere.
-/
import Mathlib.Data.List.TakeWhile
import RvMos.Fs.Tree

namespace RvMos

open Lib

namespace Fs

open Sys

/-! ## Components -/

/-- The runs of a string between its slashes. -/
def runs (p : List Byte) : List (List Byte) := (p.splitOn slash).filter (· ≠ [])

/-- The components of a path, which ends at the first zero. -/
def components (path : List Byte) : List (List Byte) := runs (path.takeWhile (· ≠ 0#8))

section Components

variable {p : List Byte}

theorem runs_slash_cons (p : List Byte) : runs (slash :: p) = runs p := by
  have h := List.splitOn_append_cons_self (a := slash) [] p
  unfold runs
  rw [List.nil_append, List.splitOn_nil] at h
  rw [h]
  rfl

theorem runs_skipSlash (p : List Byte) : runs (skipSlash p) = runs p := by
  induction p with
  | nil => rfl
  | cons a p ih =>
    by_cases ha : a = slash
    · unfold skipSlash
      rw [List.dropWhile_cons_of_pos (by simpa using ha), ha, runs_slash_cons]
      exact ih
    · unfold skipSlash
      rw [List.dropWhile_cons_of_neg (by simpa using ha)]

theorem skipSlash_head (p : List Byte) : (skipSlash p).head? ≠ some slash := by
  intro h
  have hnot := List.head?_dropWhile_not (fun c => decide (c = slash)) p
  unfold skipSlash at h
  rw [h] at hnot
  exact absurd hnot (by decide)

theorem length_skipSlash (p : List Byte) : (skipSlash p).length ≤ p.length :=
  (List.dropWhile_sublist _).length_le

/-- What follows the first run is empty or starts with a slash. -/
theorem after_run (p : List Byte) :
    p.dropWhile (· ≠ slash) = [] ∨ ∃ r, p.dropWhile (· ≠ slash) = slash :: r := by
  cases h : p.dropWhile (· ≠ slash) with
  | nil => exact .inl rfl
  | cons a r =>
    have hnot := List.head?_dropWhile_not (fun c => decide (c ≠ slash)) p
    rw [h] at hnot
    have ha : a = slash := by simpa using hnot
    exact .inr ⟨r, ha ▸ rfl⟩

theorem not_mem_run (p : List Byte) : slash ∉ p.takeWhile (· ≠ slash) := fun h => by
  have hne := List.mem_takeWhile_imp h
  exact absurd hne (by simp)

theorem run_ne_nil (hp : p ≠ []) (hs : p.head? ≠ some slash) : p.takeWhile (· ≠ slash) ≠ [] := by
  cases p with
  | nil => exact absurd rfl hp
  | cons a p =>
    have ha : a ≠ slash := fun h => hs (congrArg some h)
    rw [List.takeWhile_cons_of_pos (by simpa using ha)]
    exact List.cons_ne_nil a _

theorem runs_append {name rest : List Byte} (hne : name ≠ []) (hmem : slash ∉ name)
    (hr : rest = [] ∨ ∃ r, rest = slash :: r) : runs (name ++ rest) = name :: runs rest := by
  have hkeep : decide (name ≠ []) = true := decide_eq_true hne
  rcases hr with rfl | ⟨r, rfl⟩
  · rw [List.append_nil]
    unfold runs
    rw [List.splitOn_eq_singleton hmem, List.filter_cons_of_pos (p := fun x => decide (x ≠ [])) hkeep]
    rfl
  · rw [runs_slash_cons]
    unfold runs
    rw [List.splitOn_append_cons_self_of_not_mem hmem,
      List.filter_cons_of_pos (p := fun x => decide (x ≠ [])) hkeep]

/-- The first run of a string, and the runs after the slashes that follow it. -/
theorem runs_eq (hp : p ≠ []) (hs : p.head? ≠ some slash) :
    runs p = p.takeWhile (· ≠ slash) :: runs (skipSlash (p.dropWhile (· ≠ slash))) := by
  have h := runs_append (run_ne_nil hp hs) (not_mem_run p) (after_run p)
  rw [List.takeWhile_append_dropWhile] at h
  rw [runs_skipSlash]
  exact h

theorem runs_eq_nil (hs : p.head? ≠ some slash) : runs p = [] ↔ p = [] := by
  refine ⟨fun h => ?_, fun h => h ▸ rfl⟩
  by_contra hp
  rw [runs_eq hp hs] at h
  exact List.cons_ne_nil _ _ h

theorem length_after_run (hp : p ≠ []) (hs : p.head? ≠ some slash) :
    (skipSlash (p.dropWhile (· ≠ slash))).length < p.length := by
  have hlen := congrArg List.length
    (List.takeWhile_append_dropWhile (p := fun c => decide (c ≠ slash)) (l := p))
  rw [List.length_append] at hlen
  have hpos := List.length_pos_iff.mpr (run_ne_nil hp hs)
  have hle := length_skipSlash (p.dropWhile (· ≠ slash))
  omega

/-- The bytes of a run are bytes of the string. -/
theorem mem_runs {c : List Byte} {a : Byte} (n : ℕ) (hn : p.length ≤ n) (hc : c ∈ runs p) (ha : a ∈ c) :
    a ∈ p := by
  induction n generalizing p with
  | zero =>
    obtain rfl : p = [] := List.length_eq_zero_iff.mp (by omega)
    exact absurd hc List.not_mem_nil
  | succ n ih =>
    have hle := length_skipSlash p
    have hsub : a ∈ skipSlash p → a ∈ p := fun hm => (List.dropWhile_sublist _).subset hm
    rw [← runs_skipSlash] at hc
    by_cases hp : skipSlash p = []
    · rw [hp] at hc
      exact absurd hc List.not_mem_nil
    · have hlt := length_after_run hp (skipSlash_head p)
      rw [runs_eq hp (skipSlash_head p)] at hc
      rcases List.mem_cons.mp hc with rfl | hc
      · exact hsub ((List.takeWhile_sublist _).subset ha)
      · have hm := ih (by omega) hc
        exact hsub ((List.dropWhile_sublist _).subset ((List.dropWhile_sublist _).subset hm))

/-- A component has no terminator. -/
theorem component_terminated {path c : List Byte} (hc : c ∈ components path) : 0#8 ∉ c := fun h0 => by
  have hne := List.mem_takeWhile_imp (mem_runs _ (le_refl _) hc h0)
  exact absurd hne (by simp)

end Components

/-! ## Following components -/

/-- The file that a component leads to from a file. -/
def Server.child (s : Server) (d : Word) (c : List Byte) : Option Word :=
  if c.length < maxNameLen ∧ s.IsDir d then s.lookup d c else none

/-- The file that components lead to from the root. -/
def Server.resolve (s : Server) (cs : List (List Byte)) : Option Word := cs.foldlM s.child sRoot

/-- The directory that the last of the components is looked up in. -/
def Server.parent (s : Server) (cs : List (List Byte)) : Option Word :=
  if cs = [] then none else s.resolve cs.dropLast

/-- `c` is the first component that leads nowhere: the ones before it lead to `d`. -/
def Server.Stuck (s : Server) (cs : List (List Byte)) (d : Word) (c : List Byte)
    (post : List (List Byte)) : Prop :=
  ∃ pre, cs = pre ++ c :: post ∧ s.resolve pre = some d ∧ s.child d c = none

/-- What `walk_path` reports about components. -/
inductive Outcome (s : Server) (cs : List (List Byte)) : Walk → Prop
  | reached {f : Word} : s.resolve cs = some f → Outcome s cs (.found (s.parent cs) f)
  | tooLong {d : Word} {c : List Byte} {post : List (List Byte)} : s.Stuck cs d c post →
      maxNameLen ≤ c.length → Outcome s cs (.failed .badPath)
  | lastMissing {d : Word} {c : List Byte} : s.Stuck cs d c [] → c.length < maxNameLen →
      s.IsDir d → Outcome s cs (.missing d c)
  | missing {d : Word} {c : List Byte} {post : List (List Byte)} : s.Stuck cs d c post →
      c.length < maxNameLen → (post ≠ [] ∨ ¬s.IsDir d) → Outcome s cs (.failed .notFound)

section Resolve

variable {s : Server} {cs pre post : List (List Byte)} {c : List Byte} {d : Word} {w w' : Walk}

theorem resolve_append (pre post : List (List Byte)) :
    s.resolve (pre ++ post) = (s.resolve pre).bind fun d => post.foldlM s.child d := by
  unfold Server.resolve
  exact List.foldlM_append

theorem resolve_concat (hpre : s.resolve pre = some d) : s.resolve (pre ++ [c]) = s.child d c := by
  rw [resolve_append, hpre]
  exact List.foldlM_cons.trans (bind_pure _)

theorem Server.Stuck.resolve (h : s.Stuck cs d c post) : s.resolve cs = none := by
  obtain ⟨pre, rfl, hpre, hc⟩ := h
  rw [resolve_append, hpre, Option.bind_some, List.foldlM_cons, hc]
  rfl

theorem Server.Stuck.ne_some {f : Word} (h : s.Stuck cs d c post) : s.resolve cs ≠ some f := by
  rw [h.resolve]
  exact (Option.some_ne_none f).symm

/-- Nothing is reached past the first component that leads nowhere. -/
theorem stuck_ends {d' : Word} {c' : List Byte} {as post' : List (List Byte)}
    (hpre : s.resolve pre = some d) (hc : s.child d c = none)
    (hpre' : s.resolve (pre ++ as) = some d') (he : c :: post = as ++ c' :: post') : as = [] := by
  cases as with
  | nil => rfl
  | cons a as =>
    obtain ⟨rfl, -⟩ := List.cons.inj he
    exact absurd hpre' (Server.Stuck.ne_some ⟨pre, rfl, hpre, hc⟩)

/-- There is only one first component that leads nowhere. -/
theorem Server.Stuck.unique {d' : Word} {c' : List Byte} {post' : List (List Byte)}
    (h : s.Stuck cs d c post) (h' : s.Stuck cs d' c' post') : d = d' ∧ c = c' ∧ post = post' := by
  obtain ⟨pre, rfl, hpre, hc⟩ := h
  obtain ⟨pre', he, hpre', hc'⟩ := h'
  have hsame : pre = pre' := by
    rcases List.append_eq_append_iff.mp he with ⟨as, rfl, has⟩ | ⟨bs, rfl, hbs⟩
    · rw [stuck_ends hpre hc hpre' has, List.append_nil]
    · rw [stuck_ends hpre' hc' hpre hbs, List.append_nil]
  subst hsame
  obtain ⟨hcc, hpost⟩ := List.cons.inj (List.append_cancel_left he)
  exact ⟨Option.some.inj (hpre.symm.trans hpre'), hcc, hpost⟩

/-- Components have one outcome. -/
theorem Outcome.unique (h : Outcome s cs w) (h' : Outcome s cs w') : w = w' := by
  cases h with
  | reached hf =>
    cases h' with
    | reached hf' => rw [Option.some.inj (hf.symm.trans hf')]
    | tooLong hs => exact absurd hf hs.ne_some
    | lastMissing hs => exact absurd hf hs.ne_some
    | missing hs => exact absurd hf hs.ne_some
  | tooLong hs hlen =>
    cases h' with
    | reached hf => exact absurd hf hs.ne_some
    | tooLong => rfl
    | lastMissing hs' hlt =>
      obtain ⟨-, rfl, -⟩ := hs.unique hs'
      exact absurd hlt (not_lt.mpr hlen)
    | missing hs' hlt =>
      obtain ⟨-, rfl, -⟩ := hs.unique hs'
      exact absurd hlt (not_lt.mpr hlen)
  | lastMissing hs hlt hdir =>
    cases h' with
    | reached hf => exact absurd hf hs.ne_some
    | tooLong hs' hlen =>
      obtain ⟨-, rfl, -⟩ := hs.unique hs'
      exact absurd hlt (not_lt.mpr hlen)
    | lastMissing hs' =>
      obtain ⟨rfl, rfl, -⟩ := hs.unique hs'
      rfl
    | missing hs' _ hor =>
      obtain ⟨rfl, -, rfl⟩ := hs.unique hs'
      exact absurd hor (not_or.mpr ⟨not_not.mpr rfl, not_not.mpr hdir⟩)
  | missing hs hlt hor =>
    cases h' with
    | reached hf => exact absurd hf hs.ne_some
    | tooLong hs' hlen =>
      obtain ⟨-, rfl, -⟩ := hs.unique hs'
      exact absurd hlt (not_lt.mpr hlen)
    | lastMissing hs' _ hdir =>
      obtain ⟨rfl, -, rfl⟩ := hs.unique hs'
      exact absurd hor (not_or.mpr ⟨not_not.mpr rfl, not_not.mpr hdir⟩)
    | missing => rfl

end Resolve

/-! ## The walk -/

/-- A round of the loop, with the run at the pointer and what comes after it. -/
def walkRound (n : ℕ) (dir : Word) (name path : List Byte) : Proc Walk := do
  if name.length ≥ maxNameLen then pure (.failed .badPath)
  else if (← load (fType dir)) ≠ ftypeDir then pure (.failed .notFound)
  else
    match ← attempt (dirLookup dir name) with
    | .error r =>
      if r = .notFound ∧ path = [] then pure (.missing dir name) else pure (.failed r)
    | .ok f => walkLoop n (some dir) f path

section Walk

variable {s s' : Server} {p name : List Byte} {f file : Word} {dir : Option Word}
  {pre : List (List Byte)} {n : ℕ}

theorem walkLoop_eq (hp : p ≠ []) : walkLoop (n + 1) dir file p =
    walkRound n file (p.takeWhile (· ≠ slash)) (skipSlash (p.dropWhile (· ≠ slash))) := by
  cases p with
  | nil => exact absurd rfl hp
  | cons a p => rfl

theorem child_eq_lookup (hlt : name.length < maxNameLen) (hd : s.IsDir file) :
    s.child file name = s.lookup file name := if_pos ⟨hlt, hd⟩

/-- What is looked up is a file of the tree. -/
theorem reached_lookup (hd : s.TreeDir file) (hne : name ≠ []) (hf : s.lookup file name = some f) :
    s.Reached f := by
  have hname : s.entryName f = name := by
    simpa using List.find?_some (p := fun f => decide (s.entryName f = name)) hf
  exact .entry hd.1 hd.2 (List.mem_of_find?_eq_some hf) (hname.symm ▸ hne)

theorem parent_concat (hfile : s.resolve pre = some file) : s.parent (pre ++ [name]) = some file := by
  unfold Server.parent
  rw [if_neg (List.append_ne_nil_of_right_ne_nil pre (List.cons_ne_nil name [])),
    List.dropLast_concat]
  exact hfile

/-- The file is found in the directory at one of the components. -/
def Server.OnPath (s : Server) (cs : List (List Byte)) (d f : Word) : Prop :=
  ∃ pre c post, cs = pre ++ c :: post ∧ s.resolve pre = some d ∧ s.child d c = some f

/-- The pages of the file that a walk ends in and of its directory are in the cache. -/
def Walk.Loaded (t : Server) : Walk → Prop
  | .found dir f => t.Cached f ∧ ∀ d, dir = some d → t.Cached d
  | .missing d _ => t.Cached d
  | .failed _ => True

/-- What a walk along components does. -/
def Walked (s s' : Server) (cs : List (List Byte)) (r : Except Err Walk) (t : Server) : Prop :=
  Marks s.Used (s.OnPath cs) s' t ∧ ∃ w, r = .ok w ∧ Outcome s cs w ∧ w.Loaded t

theorem wp_walkLoop_nil {E : Stop → Prop} (hfile : s.resolve pre = some file)
    (hdir : dir = s.parent pre) (hc : s'.Cached file) (hcd : ∀ d, dir = some d → s'.Cached d) :
    (walkLoop n dir file []).wp (Walked s s' (pre ++ runs [])) E s' := by
  have hend : walkLoop n dir file [] = pure (.found dir file) := by
    cases n with
    | zero => rfl
    | succ n => rfl
  have hruns : pre ++ runs [] = pre := List.append_nil pre
  rw [hdir] at hcd
  rw [hend, hruns, hdir]
  exact wp_pure.mpr ⟨refl_of (Marks _ _) s', _, rfl, .reached hfile, hc, hcd⟩

/-- The loop of `walk_path`, with the components before the pointer done. -/
theorem wp_walkLoop (ht : FileTree s) (n : ℕ) (hn : p.length ≤ n) (hs : p.head? ≠ some slash)
    (h0 : 0#8 ∉ p) (hfile : s.resolve pre = some file) (hdir : dir = s.parent pre)
    (hreach : s.Reached file) (h : Touches s.DirWords s s') (hc : s'.Cached file)
    (hcd : ∀ d, dir = some d → s'.Cached d) :
    (walkLoop n dir file p).wp (Walked s s' (pre ++ runs p)) (Starved s) s' := by
  induction n generalizing p file dir pre s' with
  | zero =>
    obtain rfl : p = [] := List.length_eq_zero_iff.mp (by omega)
    exact wp_walkLoop_nil hfile hdir hc hcd
  | succ n ih =>
    by_cases hp : p = []
    · subst hp
      exact wp_walkLoop_nil hfile hdir hc hcd
    have hshort := length_after_run hp hs
    have hne := run_ne_nil hp hs
    have hnext := skipSlash_head (p.dropWhile (· ≠ slash))
    have hnext0 : 0#8 ∉ skipSlash (p.dropWhile (· ≠ slash)) := fun hm =>
      h0 ((List.dropWhile_sublist _).subset ((List.dropWhile_sublist _).subset hm))
    have hname0 : 0#8 ∉ p.takeWhile (· ≠ slash) := fun hm =>
      h0 ((List.takeWhile_sublist _).subset hm)
    rw [walkLoop_eq hp, runs_eq hp hs]
    -- from here on the first run and what is left are two byte strings
    generalize p.takeWhile (· ≠ slash) = name at *
    generalize skipSlash (p.dropWhile (· ≠ slash)) = next at *
    have hstuck : s.child file name = none →
        s.Stuck (pre ++ name :: runs next) file name (runs next) := fun hnone =>
      ⟨pre, rfl, hfile, hnone⟩
    have hend : ∀ e t, Marks s.Used (s.OnPath (pre ++ name :: runs next)) s' t →
        Outcome s (pre ++ name :: runs next) (.failed e) →
        Walked s s' (pre ++ name :: runs next) (.ok (.failed e)) t := fun e t hmk ho =>
      ⟨hmk, _, rfl, ho, trivial⟩
    obtain ⟨b, x, hspot⟩ := ht.spot hreach
    have htype : s'.view (fType file) = s.view (fType file) :=
      hspot.view (k := 132) h (by omega) (by omega)
    unfold walkRound
    rw [wp_ite]
    refine ⟨fun hlong => wp_pure.mpr (hend _ _ (refl_of (Marks _ _) s')
      (.tooLong (hstuck (if_neg ?_)) hlong)), fun hlen => ?_⟩
    · exact fun hh => absurd hh.1 (not_lt.mpr hlong)
    have hlt := not_le.mp hlen
    rw [wp_bind]
    refine wp_load ((hspot.record hc).cached_field (n := 132) (by omega)) ?_
    simp only
    rw [htype, wp_ite]
    refine ⟨fun hnd => wp_pure.mpr (hend _ _ (refl_of (Marks _ _) s')
      (.missing (hstuck (if_neg ?_)) hlt (.inr hnd))), fun hd => ?_⟩
    · exact fun hh => hnd hh.2
    have hd : s.IsDir file := not_not.mp hd
    have hchild := child_eq_lookup hlt hd
    refine wp_attempt_seq (wp_dirLookup ht ⟨hreach, hd⟩ hname0 h hc) fun r t hr => ?_
    obtain ⟨hmark, hres⟩ := hr
    have hmark' : Marks s.Used (s.OnPath (pre ++ name :: runs next)) s' t := hmark.mono fun d f hdf =>
      ⟨pre, name, runs next, rfl, hdf.1 ▸ hfile, hdf.1 ▸ hchild.trans hdf.2⟩
    have hstep : ∀ d f, d = file ∧ s.lookup file name = some f → s.TreeDir d ∧ f ∈ s.files d := by
      rintro d f ⟨rfl, hf⟩
      exact ⟨⟨hreach, hd⟩, List.mem_of_find?_eq_some hf⟩
    have ht' : Touches s.DirWords s t := trans_of (Touches _) h (ht.touches_marks hstep hmark)
    obtain ⟨hnone, rfl⟩ | ⟨f, hf, rfl, hcf⟩ := hres
    · have hst := hstuck (hchild.trans hnone)
      simp only
      rw [wp_ite]
      refine ⟨fun hl => wp_pure.mpr ⟨hmark', _, rfl, ?_, hmark.cached _ hc⟩, fun hl =>
        wp_pure.mpr (hend _ _ hmark' (.missing hst hlt ?_))⟩
      · rw [(runs_eq_nil hnext).mpr hl.2] at hst ⊢
        exact .lastMissing hst hlt hd
      · exact .inl fun hr => hl ⟨trivial, (runs_eq_nil hnext).mp hr⟩
    · have hreach' := reached_lookup ⟨hreach, hd⟩ hne hf
      have hfile' := (resolve_concat hfile).trans (hchild.trans hf)
      have hcd' : ∀ d, some file = some d → t.Cached d := fun d hd =>
        Option.some.inj hd ▸ hmark.cached _ hc
      refine wp_conseq (ih (by omega) hnext hnext0 hfile' (parent_concat hfile).symm hreach' ht' hcf hcd')
        fun r u hr => ?_
      rw [List.append_assoc, List.singleton_append] at hr
      exact ⟨trans_of (Marks _ _) hmark' hr.1, hr.2⟩

/-- `walk_path` along the components of a path. -/
theorem wp_walkPath_from (ht : FileTree s) (h : Touches s.DirWords s s') (path : List Byte) :
    (walkPath path).wp (Walked s s' (components path)) (Starved s) s' := by
  have h0 : 0#8 ∉ skipSlash (path.takeWhile (· ≠ 0#8)) := fun hm => by
    have hne := List.mem_takeWhile_imp ((List.dropWhile_sublist _).subset hm)
    exact absurd hne (by simp)
  have hroot : s.Cached sRoot := ht.mounted.superblock.of_vpn (by decide)
  have hfile : s.resolve [] = some sRoot := rfl
  have hwalk := wp_walkLoop ht _ (le_refl _) (skipSlash_head (path.takeWhile (· ≠ 0#8))) h0
    hfile rfl .root h (h.cached _ hroot) fun _ hd => absurd hd.symm (Option.some_ne_none _)
  rw [List.nil_append, runs_skipSlash] at hwalk
  exact hwalk

theorem wp_walkPath (ht : FileTree s) (path : List Byte) :
    (walkPath path).wp (Walked s s (components path)) (Starved s) s :=
  wp_walkPath_from ht (refl_of (Touches _) s) path

end Walk

/-- `walk_path` resolves a path by its components. -/
theorem walk_path {s : Server} (ht : FileTree s) (path : List Byte) :
    (walkPath path).wp (fun r _ => ∃ w, r = .ok w ∧
      ∀ w', Outcome s (components path) w' ↔ w' = w) (Short s) s := by
  refine wp_mono (wp_walkPath ht path) (fun r _ hr => ?_) fun _ hc => hc.short
  obtain ⟨-, w, rfl, hw, -⟩ := hr
  exact ⟨w, rfl, fun w' => ⟨fun h => h.unique hw, fun h => h ▸ hw⟩⟩

/-- A disk whose root directory has the one file `a`. -/
def oneFile : Server :=
  afterInit [(1, 1, 8#32), (1, 34, 4096#32), (1, 35, ftypeDir), (1, 36, 3#32), (3, 0, 97#32)]

theorem oneFile_byte : ∀ f ∈ blockFiles (blockVa 3#32), f = blockVa 3#32 ∨ oneFile.byte f = 0#8 := by
  have hall : (blockFiles (blockVa 3#32)).all
      (fun f => f = blockVa 3#32 ∨ oneFile.byte f = 0#8) = true := by
    decide +kernel
  exact fun f hf => of_decide_eq_true (List.all_eq_true.mp hall f hf)

theorem oneFile_files : oneFile.files sRoot = blockFiles (blockVa 3#32) := by
  decide +kernel

theorem oneFile_reached {d : Word} (h : oneFile.Reached d) : d = sRoot ∨ d = blockVa 3#32 := by
  induction h with
  | root => exact .inl rfl
  | @entry d f _ hdir hf hne ih =>
    rcases ih with rfl | rfl
    · rw [oneFile_files] at hf
      exact .inr ((oneFile_byte f hf).resolve_right fun h0 => hne (entryName_eq_nil h0))
    · exact absurd hdir (by decide +kernel)

theorem oneFile_dir {d : Word} (h : oneFile.TreeDir d) : d = sRoot := by
  rcases oneFile_reached h.1 with hd | rfl
  · exact hd
  · exact absurd h.2 (by decide +kernel)

theorem oneFile_tree : FileTree oneFile := by
  have hn : oneFile.nblock sRoot = 1 := by decide +kernel
  have hp : oneFile.ptr sRoot 0 = 3#32 := by decide +kernel
  refine ⟨mounted_afterInit (by decide), fun d hd => ?_, fun d hd i hi => ?_, fun d hd h10 => ?_,
    fun d hd f hf => ?_, fun c hc => ?_⟩
  · rw [oneFile_dir hd, hn]
    omega
  · obtain rfl := oneFile_dir hd
    obtain rfl : i = 0 := by omega
    rw [hp]
    decide +kernel
  · obtain rfl := oneFile_dir hd
    omega
  · obtain rfl := oneFile_dir hd
    rw [oneFile_files] at hf
    rcases oneFile_byte f hf with rfl | h0
    · have hbyte : oneFile.byte (blockVa 3#32 + BitVec.ofNat 32 1) = 0#8 := by decide +kernel
      exact hbyte ▸ mem_bytesAt (by decide)
    · have hbyte : oneFile.byte (f + BitVec.ofNat 32 0) = 0#8 := by
        rw [BitVec.add_zero]
        exact h0
      exact hbyte ▸ mem_bytesAt (by decide)
  · obtain ⟨d, hd, i, hi, rfl⟩ := hc
    obtain rfl := oneFile_dir hd
    obtain rfl : i = 0 := by omega
    rw [hp]
    refine ⟨by decide, ?_, fun d hd h10 => ?_⟩
    · unfold Server.BitmapBlock
      decide +kernel
    · obtain rfl := oneFile_dir hd
      omega

theorem walk_path_slashes : FileTree oneFile ∧ components [slash, 97#8, slash] = [[97#8]] ∧
    (walkPath [slash, 97#8, slash]).wp (fun r _ => ∃ w, r = .ok w ∧
      ∀ w', Outcome oneFile (components [slash, 97#8, slash]) w' ↔ w' = w)
      (Short oneFile) oneFile :=
  ⟨oneFile_tree, by decide +kernel, walk_path oneFile_tree [slash, 97#8, slash]⟩

end Fs
end RvMos
