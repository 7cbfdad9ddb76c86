/-
Opening files and getting their blocks.

A tree whose files share no block stands all of this: the only words that change are the
`f_dir` of entries.  So clients that ask for blocks in any order get what a first client
would have got.
-/
import RvMos.Fs.NewFile

namespace RvMos

open Lib

namespace Fs

open Sys

/-! ## Opening a file and getting a block -/

/-- A client opens a path and gets the block of the file at an index. -/
def openBlock (path : List Byte) (n : ℕ) : Proc Word := do
  fileGetBlock (← fileOpen path) (BitVec.ofNat 32 n)

/-- Clients ask for blocks of files, one after the other. -/
def reads : List (List Byte × ℕ) → Proc (List (Except Err Word))
  | [] => pure []
  | q :: qs => do
    let r ← attempt (openBlock q.1 q.2)
    pure (r :: (← reads qs))

section Opened

variable {s t u : Server} {f c : Word} {k : Option ℕ} {n : ℕ}

/-- Files keep their pointers while paths are looked up. -/
theorem OwnTree.ptr_looked (ht : OwnTree s) (hf : s.Reached f) (h : Touches s.DirWords s u)
    (hn : n < 1024) : u.ptr f n = s.ptr f n := by
  obtain ⟨b, x, hp⟩ := ht.toFileTree.spot hf
  have hind : u.view (fIndirect f) = s.view (fIndirect f) := hp.view (k := 176) h (by omega) (by omega)
  unfold Server.ptr
  by_cases h10 : n < 10
  · rw [if_pos h10, if_pos h10, fDirect_eq]
    exact hp.view h (by omega) (by omega)
  · rw [if_neg h10, if_neg h10, hind]
    by_cases h0 : s.view (fIndirect f) = 0#32
    · rw [if_pos h0, if_pos h0]
    · rw [if_neg h0, if_neg h0]
      have hown : s.Owns f none (s.view (fIndirect f)) := ⟨rfl, h0⟩
      have hat := (at_blockVa (lt_capacity ht.mounted (ht.owned f hf _ _ hown).2.1.1)).add
        (n := 4 * n) (by omega)
      refine h.view fun hW => ?_
      rw [hat.blockOf_eq] at hW
      obtain ⟨⟨d, hd, i, hi, hc⟩, -⟩ := hW
      have hdir := ht.owns_dir hd hi
      rw [hc] at hdir
      exact absurd (ht.once f d hf hd.1 _ _ _ hown hdir).2 (by simp)

/-- The blocks of a file that is no directory are as before. -/
theorem OwnTree.block_looked (ht : OwnTree s) (hf : s.Reached f) (hnd : ¬s.IsDir f)
    (h : Touches s.DirWords s u) (ho : s.Owns f k c) : u.block c = s.block c := by
  funext o
  refine h.block c o fun hW => ?_
  obtain ⟨⟨d, hd, i, hi, rfl⟩, -⟩ := hW
  obtain ⟨rfl, -⟩ := ht.once f d hf hd.1 _ _ _ ho (ht.owns_dir hd hi)
  exact hnd hd.2

/-- The server has changed no word but the `f_dir` of entries of `s`, and keeps what `t` has
in its cache. -/
structure Looked (s t u : Server) : Prop where
  touches : Touches s.DirWords s u
  cached : ∀ va, t.Cached va → u.Cached va

/-- `file_open` gives the file that the path leads to. -/
theorem wp_fileOpen (ht : FileTree s) (h : Touches s.DirWords s t) (path : List Byte) :
    (fileOpen path).wp (fun r u => Looked s t u ∧
      match s.resolve (components path) with
      | some f => r = .ok f ∧ u.Cached f
      | none => ∃ e, r = .error e ∧ ((∀ c ∈ components path, c.length < maxNameLen) → e = .notFound))
      (Starved s) t := by
  unfold fileOpen
  rw [wp_bind]
  refine wp_conseq (wp_walkPath_from ht h path) fun r u ⟨hmark, w, hr, hw, hload⟩ => ?_
  have hpath : ∀ d f, s.OnPath (components path) d f → s.TreeDir d ∧ f ∈ s.files d := by
    rintro d f ⟨pre, c, post, he, hpre, hc⟩
    obtain ⟨hdir, hmem, -⟩ := child_mem hc
    refine ⟨⟨reached_resolve (fun c' hc' => ?_) hpre, hdir⟩, hmem⟩
    exact components_ne_nil path c' (he ▸ List.mem_append_left _ hc')
  have hlook : Looked s t u :=
    ⟨trans_of (Touches _) h (ht.touches_marks hpath hmark), hmark.cached⟩
  subst hr
  cases hw with
  | reached hf =>
    rw [hf]
    exact wp_pure.mpr ⟨hlook, rfl, hload.1⟩
  | tooLong hs hlen =>
    rw [hs.resolve]
    refine wp_throw.mpr ⟨hlook, _, rfl, fun hall => ?_⟩
    obtain ⟨pre, he, -⟩ := hs
    exact absurd (hall _ (he ▸ by simp)) (Nat.not_lt.mpr hlen)
  | lastMissing hs =>
    rw [hs.resolve]
    exact wp_throw.mpr ⟨hlook, _, rfl, fun _ => rfl⟩
  | missing hs =>
    rw [hs.resolve]
    exact wp_throw.mpr ⟨hlook, _, rfl, fun _ => rfl⟩

/-- The file that a path leads to has a block at the index. -/
def Asks (s : Server) (q : List Byte × ℕ) : Prop :=
  ∀ f, s.resolve (components q.1) = some f → q.2 < 1024 ∧ s.ptr f q.2 ≠ 0#32

/-- What a client gets for a path and an index. -/
def Gets (s t : Server) (q : List Byte × ℕ) (r : Except Err Word) : Prop :=
  match s.resolve (components q.1) with
  | some f => r = .ok (blockVa (s.ptr f q.2)) ∧ t.Cached (blockVa (s.ptr f q.2))
  | none => ∃ e, r = .error e ∧ ((∀ c ∈ components q.1, c.length < maxNameLen) → e = .notFound)

theorem Gets.later {q : List Byte × ℕ} {r : Except Err Word} (hg : Gets s t q r)
    (h : ∀ va, t.Cached va → u.Cached va) : Gets s u q r := by
  unfold Gets at hg ⊢
  cases hf : s.resolve (components q.1) with
  | none =>
    rw [hf] at hg
    exact hg
  | some f =>
    rw [hf] at hg
    exact ⟨hg.1, h _ hg.2⟩

theorem wp_openBlock (ht : OwnTree s) (h : Touches s.DirWords s t) {q : List Byte × ℕ} (hq : Asks s q) :
    (openBlock q.1 q.2).wp (fun r u => Looked s t u ∧ Gets s u q r) (Starved s) t := by
  unfold openBlock
  rw [wp_bind]
  refine wp_conseq (wp_fileOpen ht.toFileTree h q.1) fun r u ⟨hlook, hr⟩ => ?_
  have htouch := hlook.touches
  unfold Gets
  cases hf : s.resolve (components q.1) with
  | none =>
    rw [hf] at hr
    obtain ⟨e, rfl, he⟩ := hr
    exact ⟨hlook, e, rfl, he⟩
  | some f =>
    rw [hf] at hr
    obtain ⟨rfl, hc⟩ := hr
    obtain ⟨hn, hp⟩ := hq f hf
    have hreach := reached_resolve (components_ne_nil q.1) hf
    obtain ⟨b, x, hspot⟩ := ht.toFileTree.spot hreach
    have hptr := ht.ptr_looked hreach htouch hn
    have hused := (ht.owned f hreach (some q.2) _ ⟨hn, rfl, hp⟩).2.1
    have hind : u.view (fIndirect f) = s.view (fIndirect f) :=
      hspot.view (k := 176) htouch (by omega) (by omega)
    refine wp_fileGetBlock (ht.toFileTree.mounted_touched htouch) (hspot.record hc) hn (hptr ▸ hp)
      (hptr.symm ▸ ht.toFileTree.used htouch hused) (fun h10 => ?_) (fun v hv hcv => ?_)
      fun c hc => ht.toFileTree.starved htouch hc
    · refine hind.symm ▸ ht.toFileTree.used htouch (ht.owned f hreach none _ ⟨rfl, fun h0 => ?_⟩).2.1
      unfold Server.ptr at hp
      rw [if_neg h10, if_pos h0] at hp
      exact hp rfl
    · rw [hptr] at hcv ⊢
      exact ⟨⟨trans_of (Touches _) htouch hv.touches, fun va hva => hv.cached va (hlook.cached va hva)⟩,
        rfl, hcv⟩

/-- Any number of clients get the blocks that they ask for. -/
theorem wp_reads (ht : OwnTree s) (qs : List (List Byte × ℕ)) (hqs : ∀ q ∈ qs, Asks s q)
    (h : Touches s.DirWords s t) : (reads qs).wp (fun r u => Looked s t u ∧
      ∃ rs, r = .ok rs ∧ List.Forall₂ (Gets s u) qs rs) (Starved s) t := by
  induction qs generalizing t with
  | nil => exact wp_pure.mpr ⟨⟨h, fun _ => id⟩, [], rfl, .nil⟩
  | cons q qs ih =>
    unfold reads
    refine wp_attempt_seq (wp_openBlock ht h (hqs q (List.mem_cons_self ..))) fun r u ⟨hu, hg⟩ => ?_
    rw [wp_bind]
    refine wp_conseq (ih (fun q' hq' => hqs q' (List.mem_cons_of_mem _ hq')) hu.touches) ?_
    rintro _ v ⟨hv, rs, rfl, hrs⟩
    exact wp_pure.mpr ⟨⟨hv.touches, fun va hva => hv.cached va (hu.cached va hva)⟩, r :: rs, rfl,
      .cons (hg.later hv.cached) hrs⟩

end Opened

end Fs
end RvMos
