/-
Which fileids the open table accepts.

An entry of the table is in use while a client maps its descriptor page, which the
server reads off the reference count of the page: its own mapping is the first.
`Shared` has, besides the server, what the table stands for: the mappings of each
descriptor page outside the server, and the last id that was given out for an
entry with the file it was given for.  Only a client that has been sent a page can
map it, at the end of the request, and only a client that maps it can share it.
-/
import RvMos.Fs.Replies
import RvMos.Lib.Run

namespace RvMos

open Lib

namespace Fs

open Sys

/-! ## The system -/

structure Shared where
  server : Server
  maps : Fin 1024 → ℕ
  given : Fin 1024 → Option (Word × Word)

/-- A request with the client's answer to a page that it is sent, and what clients
do with the pages that they map. -/
inductive ClientEvent where
  | request (whom : Word) (req : Req) (taken : Bool)
  | share (i : Fin 1024)
  | drop (i : Fin 1024)

/-- `serve_init`, with `opentab` as the program starts. -/
def Server.serveInit (s : Server) : Server :=
  { s with
    opentab := fun i =>
      ⟨0#32, BitVec.ofNat 32 i.val, if i = 0 then 1#32 else 0#32, 0#16, zeroFilefd⟩ }

/-- The part of `serve_open` that chooses an entry and resolves the path. -/
def chooseOpen (whom : Word) (path : List Byte) (omode : Word) :
    Proc (Option (Fin 1024) × Word) := do
  let o ← allocOrSend whom
  let f ← openFile path omode
  pure (o, f)

/-- The entry that a request fills and the file for which it does. -/
def Server.opened (s : Server) (whom : Word) : Req → Option (Fin 1024 × Word)
  | .open path omode =>
    (accepted (chooseOpen whom path omode s)).bind fun x => x.1.1.map fun o => (o, x.1.2)
  | _ => none

/-- The `pp_ref` of a descriptor page. -/
def Server.setRef (s : Server) (i : Fin 1024) (n : BitVec 16) : Server :=
  { s with opentab := Function.update s.opentab i { s.opentab i with ffRef := n } }

namespace Shared

/-- One more mapping of a descriptor page. -/
def addMap (w : Shared) (i : Fin 1024) : Shared :=
  { w with
    server := w.server.setRef i ((w.server.opentab i).ffRef + 1#16)
    maps := Function.update w.maps i (w.maps i + 1) }

def dropMap (w : Shared) (i : Fin 1024) : Shared :=
  { w with
    server := w.server.setRef i ((w.server.opentab i).ffRef - 1#16)
    maps := Function.update w.maps i (w.maps i - 1) }

/-- After a request that has filled an entry the id is in the descriptor page. -/
def give (w : Shared) (s : Server) (i : Fin 1024) (f : Word) : Shared :=
  { w with
    server := s
    given := Function.update w.given i (some ((s.opentab i).ff.fileid, f)) }

def served (w : Shared) (s : Server) (taken : Bool) : Option (Fin 1024 × Word) → Shared
  | none => { w with server := s }
  | some (i, f) => if taken then (w.give s i f).addMap i else w.give s i f

def next : ClientEvent → Shared → Option Shared
  | .request whom req taken, w =>
    (accepted (serveReq whom req w.server)).map fun x =>
      w.served x.2 taken (w.server.opened whom req)
  | .share i, w => if 0 < w.maps i then some (w.addMap i) else none
  | .drop i, w => if 0 < w.maps i then some (w.dropMap i) else none

def Start (w : Shared) : Prop :=
  (∃ s : Server, w.server = s.serveInit) ∧ (∀ i, w.maps i = 0) ∧ ∀ i, w.given i = none

/-- A page gets less than 65535 mappings outside the server; with the server's own
mapping there are as many as `pp_ref` can count. -/
def Few (w : Shared) : ClientEvent → Prop
  | .share i => w.maps i < 65534
  | _ => True

def FewStep (w : Shared) (e : ClientEvent) (w' : Shared) : Prop :=
  w.Few e ∧ next e w = some w'

end Shared

/-- `&opentab[fileid % MAXOPEN]`. -/
def slotOf (fileid : Word) : Fin 1024 := Fin.ofNat 1024 (fileid % maxopen).toNat

/-- `open_lookup` accepts an id exactly if it is the last one that was given out for
its entry and a client maps the page; the file is the one it was given for. -/
structure LookupRight (w : Shared) (fileid : Word) : Prop where
  accepts : ∀ f, (∃ o, openLookup fileid w.server = .ok (.ok o, w.server) ∧ o.file = f) ↔
    w.given (slotOf fileid) = some (fileid, f) ∧ 0 < w.maps (slotOf fileid)
  refuses : (¬∃ f, w.given (slotOf fileid) = some (fileid, f) ∧ 0 < w.maps (slotOf fileid)) →
    openLookup fileid w.server = .ok (.error .inval, w.server)

/-- The id of an entry that no request has chosen yet. -/
def Server.NeverUsed (s : Server) (fileid : Word) : Prop :=
  fileid < maxopen ∧ (s.opentab (slotOf fileid)).ffRef = 0#16

/-! ## What a request does to the table -/

/-- The entry as `open_alloc` leaves it. -/
def Open.chosen (o : Open) : Open :=
  { o with fileid := o.fileid + maxopen, ffRef := 1#16, ff := zeroFilefd }

/-- The entry as `serve_open` leaves it. -/
def Open.filled (o : Open) (f omode : Word) (copy : Fin 64 → Word) : Open :=
  { o with
    file := f
    mode := omode
    ff := { o.ff with file := copy, fileid := o.fileid, omode := omode, devId := devfileId } }

section Table

variable {s s' : Server} {i : Fin 1024}

/-- `open_alloc` chooses an entry whose page no client maps, or leaves the table. -/
theorem openAllocIn_table (is : List (Fin 1024)) (s : Server) :
    (openAllocIn is).wp (fun r s' =>
      (∃ i, r = .ok i ∧ s.Idle i ∧
        s'.opentab = Function.update s.opentab i (s.opentab i).chosen) ∨
      (∃ e, r = .error e) ∧ s'.opentab = s.opentab) (fun _ => False) s := by
  induction is with
  | nil => exact wp_throw.mpr (.inr ⟨⟨_, rfl⟩, rfl⟩)
  | cons i is ih =>
    unfold openAllocIn
    rw [wp_get_bind, wp_ite]
    refine ⟨fun h0 => ?_, fun _ => ?_⟩
    · unfold allocFf selectOpen setOpen
      rw [wp_bind, wp_bind]
      refine wp_granted ?_
      simp only
      rw [wp_ite]
      refine ⟨fun _ => wp_modify.mpr ?_, fun _ => wp_throw.mpr (.inr ⟨⟨_, rfl⟩, rfl⟩)⟩
      refine wp_modify_bind.mpr (wp_pure.mpr (.inl ⟨i, rfl, .inl h0, ?_⟩))
      refine (Function.update_idem ..).trans ?_
      simp only [Function.update_self]
      rfl
    · rw [wp_ite]
      refine ⟨fun h1 => ?_, fun _ => ih⟩
      unfold selectOpen setOpen
      rw [wp_modify_bind, wp_pure]
      refine .inl ⟨i, rfl, .inr h1, ?_⟩
      show Function.update _ _ _ = _
      unfold Open.chosen
      rw [← h1]

theorem allocOrSend_table (whom : Word) (s : Server) :
    (allocOrSend whom).wp (fun r s' =>
      (∃ i, r = .ok (some i) ∧ s.Idle i ∧
        s'.opentab = Function.update s.opentab i (s.opentab i).chosen) ∨
      r = .ok none ∧ s'.opentab = s.opentab) (fun _ => False) s := by
  unfold allocOrSend
  refine wp_attempt_seq (openAllocIn_table _ s) fun r s₁ h => ?_
  rcases h with ⟨i, rfl, hidle, htab⟩ | ⟨⟨e, rfl⟩, htab⟩
  · simp only
    rw [wp_get_bind, wp_bind, wp_when]
    exact ⟨fun _ => wp_modify.mpr (wp_pure.mpr (.inl ⟨i, rfl, hidle, htab⟩)),
      fun _ => wp_pure.mpr (.inl ⟨i, rfl, hidle, htab⟩)⟩
  · exact wp_modify_bind.mpr (wp_pure.mpr (.inr ⟨rfl, htab⟩))

theorem fillOpen_table (whom : Word) (i : Fin 1024) (f omode : Word) (s : Server) :
    (fillOpen whom i f omode).wp (fun _ s' => ∃ copy,
      s'.opentab = Function.update s.opentab i ((s.opentab i).filled f omode copy))
      (fun _ => True) s := by
  unfold fillOpen
  have hcopy : (copyFile f).wp (fun r s' => (∃ w, r = .ok w) ∧ s'.opentab = s.opentab)
      (fun _ => True) s := by
    refine wp_of (fun r s' hr => ⟨?_, (within_copyFile f).opentab hr⟩) fun _ _ => trivial
    rcases copyFile_run f s with ⟨c, hc⟩ | ⟨w, s₁, h₁⟩
    · exact absurd (hc.symm.trans hr) (by simp)
    · exact ⟨w, (Prod.mk.inj (Except.ok.inj (hr.symm.trans h₁))).1⟩
  refine wp_seq hcopy (fun copy s₁ h => ?_) fun e s₁ h => absurd h.1 (by simp)
  unfold setOpen ipcSend
  rw [wp_modify_bind]
  refine wp_modify.mpr ⟨copy, ?_⟩
  rw [← h.2]
  rfl

/-- An open request leaves its path's entry filled if there is one; otherwise it has
chosen an entry that no client maps, or left the table. -/
theorem serveOpen_table {whom : Word} {path : List Byte} {omode : Word} {u : Unit}
    (h : accepted (serveOpen whom path omode s) = some (u, s')) :
    (s.opened whom (.open path omode) = none ∧ (s'.opentab = s.opentab ∨
      ∃ i, s.Idle i ∧ s'.opentab = Function.update s.opentab i (s.opentab i).chosen)) ∨
    ∃ i f copy, s.opened whom (.open path omode) = some (i, f) ∧ s.Idle i ∧
      s'.opentab = Function.update s.opentab i ((s.opentab i).chosen.filled f omode copy) := by
  have hrun := accepted_eq_some.mp h
  cases ha : allocOrSend whom s with
  | error c => exact absurd (wp_error (allocOrSend_table whom s) ha) id
  | ok x =>
    obtain ⟨r, s₁⟩ := x
    obtain ⟨o, rfl, htab⟩ : ∃ o, r = .ok o ∧ ((∃ i, o = some i ∧ s.Idle i ∧
        s₁.opentab = Function.update s.opentab i (s.opentab i).chosen) ∨
        o = none ∧ s₁.opentab = s.opentab) := by
      rcases wp_ok (allocOrSend_table whom s) ha with ⟨i, rfl, hi⟩ | ⟨rfl, hs⟩
      · exact ⟨some i, rfl, .inl ⟨i, rfl, hi⟩⟩
      · exact ⟨none, rfl, .inr ⟨rfl, hs⟩⟩
    have hbind : serveOpen whom path omode s = openRest whom path omode o s₁ := by
      unfold serveOpen
      rw [bind_of_ok ha]
    have hserve := hbind.symm.trans hrun
    have hopened : s.opened whom (.open path omode) =
        (accepted ((do pure (o, ← openFile path omode) : Proc _) s₁)).bind fun x =>
          x.1.1.map fun o => (o, x.1.2) := by
      unfold Server.opened chooseOpen
      dsimp only
      rewrite [bind_of_ok ha]
      rfl
    cases hf : openFile path omode s₁ with
    | error c =>
      have hstop : openRest whom path omode o s₁ = .error c := bind_of_stop (attempt_of_stop hf)
      exact absurd (hstop.symm.trans hserve) (by simp)
    | ok y =>
      obtain ⟨r₂, s₂⟩ := y
      have hsame : s₂.opentab = s₁.opentab := (within_openFile path omode).opentab hf
      have hrest : openRest whom path omode o s₁ = _ := bind_of_ok (attempt_of_ok hf)
      cases r₂ with
      | error e =>
        -- the path does not resolve; the entry stays chosen
        rw [bind_of_error hf] at hopened
        have hend : s'.opentab = s₂.opentab := by
          obtain ⟨-, rfl⟩ := Prod.mk.inj (Except.ok.inj (hrest.symm.trans hserve))
          rfl
        refine .inl ⟨hopened, ?_⟩
        rw [hend, hsame]
        rcases htab with ⟨i, -, hidle, ht⟩ | ⟨-, ht⟩
        · exact .inr ⟨i, hidle, ht⟩
        · exact .inl ht
      | ok f =>
        rw [bind_of_ok hf] at hopened
        rcases htab with ⟨i, rfl, hidle, ht⟩ | ⟨rfl, -⟩
        · obtain ⟨copy, hfill⟩ :=
            wp_ok (fillOpen_table whom i f omode s₂) (hrest.symm.trans hserve)
          refine .inr ⟨i, f, copy, hopened, hidle, ?_⟩
          rw [hfill, hsame, ht, Function.update_self, Function.update_idem]
        · exact absurd (hrest.symm.trans hserve) (by simp [halt])

/-- The table is as before. -/
def SameOpens (s s' : Server) : Prop := s'.opentab = s.opentab

instance : IsPreorder Server SameOpens where
  refl _ := rfl
  trans _ _ _ h h' := h'.trans h

theorem Within.opens {α : Type} {m : Proc α} (h : Silent m) :
    Keeps SameOpens (fun _ => True) m :=
  keeps_mono (fun _ _ h => h.2) (fun _ _ => trivial) h

theorem ipcSend_opens (whom value srcva perm : Word) :
    Keeps SameOpens (fun _ => True) (ipcSend whom value srcva perm) :=
  keeps_modify fun _ => rfl

theorem answer_opens {m : Proc Unit} (h : Silent m) (whom : Word) :
    Keeps SameOpens (fun _ => True) (answer whom m) := by
  refine keeps_bind (keeps_attempt h.opens) fun r => ?_
  cases r with
  | error e => exact ipcSend_opens _ _ _ _
  | ok u => exact ipcSend_opens _ _ _ _

/-- Only open requests change the table. -/
theorem serveReq_opens {whom : Word} {req : Req} (h : ∀ path omode, req ≠ .open path omode) :
    Keeps SameOpens (fun _ => True) (serveReq whom req) := by
  cases req with
  | «open» path omode => exact absurd rfl (h path omode)
  | map fileid offset =>
    refine keeps_bind (keeps_attempt (Within.opens ?_)) fun r => ?_
    · exact within_bind (within_openLookup fileid) fun o => within_fileGetBlock _ _
    · cases r with
      | error e => exact ipcSend_opens _ _ _ _
      | ok blk => exact ipcSend_opens _ _ _ _
  | setSize fileid size =>
    exact answer_opens (within_bind (within_openLookup fileid) fun o => by simp) whom
  | close fileid =>
    exact answer_opens (within_bind (within_openLookup fileid) fun o => by simp) whom
  | dirty fileid offset =>
    exact answer_opens (within_bind (within_openLookup fileid) fun o => silent_fileDirty _ _) whom
  | remove path => exact answer_opens (within_fileRemove path) whom
  | sync => exact answer_opens (by simp) whom

end Table

/-! ## The invariant -/

/-- What the table has for an entry with `n` mappings at clients, for which `g` was
given out last. -/
structure Entry (i : Fin 1024) (o : Open) (n : ℕ) (g : Option (Word × Word)) : Prop where
  few : n < 65535
  ref : o.ffRef.toNat = n + 1 ∨ o.ffRef = 0#16 ∧ n = 0 ∧ o.fileid = BitVec.ofNat 32 i.val
  given : 0 < n → g = some (o.fileid, o.file)

def OpenInv (w : Shared) : Prop :=
  ∀ i, Entry i (w.server.opentab i) (w.maps i) (w.given i)

section Inv

variable {w w' : Shared} {i : Fin 1024}

theorem OpenInv.idle (h : OpenInv w) (hi : w.server.Idle i) : w.maps i = 0 := by
  rcases (h i).ref with href | ⟨-, hn, -⟩
  · rcases hi with h0 | h1
    · rw [h0] at href
      exact absurd href (by simp)
    · rw [h1] at href
      have hone : (1#16).toNat = 1 := rfl
      omega
  · exact hn

/-- An entry that changes, and the others. -/
theorem OpenInv.update (h : OpenInv w) {o : Open}
    (ho : w'.server.opentab = Function.update w.server.opentab i o)
    (hm : ∀ j, j ≠ i → w'.maps j = w.maps j) (hg : ∀ j, j ≠ i → w'.given j = w.given j)
    (he : Entry i o (w'.maps i) (w'.given i)) : OpenInv w' := by
  intro j
  by_cases hj : j = i
  · subst hj
    rw [ho, Function.update_self]
    exact he
  · rw [ho, Function.update_of_ne hj, hm j hj, hg j hj]
    exact h j

theorem OpenInv.addMap (h : OpenInv w) (hn : w.maps i < 65534)
    (hg : w.given i = some ((w.server.opentab i).fileid, (w.server.opentab i).file))
    (href : (w.server.opentab i).ffRef ≠ 0#16) : OpenInv (w.addMap i) := by
  refine h.update (i := i) rfl (fun j hj => Function.update_of_ne hj ..) (fun _ _ => rfl) ?_
  have hmaps : (w.addMap i).maps i = w.maps i + 1 := Function.update_self ..
  rw [hmaps]
  refine ⟨by omega, .inl ?_, fun _ => hg⟩
  rcases (h i).ref with hr | ⟨h0, -⟩
  · show ((w.server.opentab i).ffRef + 1#16).toNat = _
    have hone : (1#16).toNat = 1 := rfl
    rw [BitVec.toNat_add, hr, hone]
    exact Nat.mod_eq_of_lt (by omega)
  · exact absurd h0 href

theorem OpenInv.dropMap (h : OpenInv w) (hpos : 0 < w.maps i) : OpenInv (w.dropMap i) := by
  refine h.update (i := i) rfl (fun j hj => Function.update_of_ne hj ..) (fun _ _ => rfl) ?_
  have hmaps : (w.dropMap i).maps i = w.maps i - 1 := Function.update_self ..
  rw [hmaps]
  have hfew := (h i).few
  refine ⟨by omega, .inl ?_, fun _ => (h i).given hpos⟩
  rcases (h i).ref with hr | ⟨-, hn, -⟩
  · show ((w.server.opentab i).ffRef - 1#16).toNat = _
    rw [BitVec.toNat_sub, hr]
    simp
    omega
  · omega

/-- An entry that `open_alloc` has chosen. -/
theorem entry_chosen (h : OpenInv w) (hi : w.server.Idle i) :
    Entry i (w.server.opentab i).chosen (w.maps i) (w.given i) := by
  have hn := h.idle hi
  exact ⟨(h i).few, .inl (by rw [hn]; rfl), fun hpos => absurd hpos (by omega)⟩

theorem openInv_request (h : OpenInv w) {whom : Word} {req : Req} {taken : Bool}
    (hn : Shared.next (.request whom req taken) w = some w') : OpenInv w' := by
  obtain ⟨⟨u, s'⟩, hacc, rfl⟩ := Option.map_eq_some_iff.mp hn
  have hsame : s'.opentab = w.server.opentab →
      OpenInv (w.served s' taken none) := fun ho i => ho ▸ h i
  by_cases hopen : ∃ path omode, req = .open path omode
  · obtain ⟨path, omode, rfl⟩ := hopen
    rw [serveReq] at hacc
    rcases serveOpen_table hacc with ⟨hnone, htab | ⟨i, hidle, htab⟩⟩ |
      ⟨i, f, copy, hsome, hidle, htab⟩
    · rw [hnone]
      exact hsame htab
    · rw [hnone]
      have hnew : OpenInv (w.served s' taken none) :=
        h.update htab (fun _ _ => rfl) (fun _ _ => rfl) (entry_chosen h hidle)
      exact hnew
    · rw [hsome]
      have hn := h.idle hidle
      have ho : s'.opentab i = (w.server.opentab i).chosen.filled f omode copy := by
        rw [htab, Function.update_self]
      have hgiven : (w.give s' i f).given i = some ((s'.opentab i).fileid, (s'.opentab i).file) := by
        show Function.update w.given i _ i = _
        rw [Function.update_self, ho]
        rfl
      have hinv : OpenInv (w.give s' i f) := by
        refine h.update (i := i) htab (fun _ _ => rfl)
          (fun j hj => Function.update_of_ne hj ..) ⟨(h i).few, .inl ?_, fun _ => ?_⟩
        · show (1#16).toNat = w.maps i + 1
          rw [hn]
          rfl
        · rw [hgiven, ho]
      cases taken with
      | false => exact hinv
      | true =>
        have hlt : (w.give s' i f).maps i < 65534 := by
          show w.maps i < 65534
          omega
        refine hinv.addMap hlt hgiven ?_
        show (s'.opentab i).ffRef ≠ 0#16
        rw [ho]
        show (1#16 : BitVec 16) ≠ 0#16
        decide
  · have hne : ∀ path omode, req ≠ .open path omode := fun path omode he =>
      hopen ⟨path, omode, he⟩
    have hnone : w.server.opened whom req = none := by
      cases req with
      | «open» path omode => exact absurd rfl (hne path omode)
      | _ => rfl
    rw [hnone]
    exact hsame (wp_ok (serveReq_opens hne w.server) (accepted_eq_some.mp hacc))

theorem openInv_step {e : ClientEvent} (h : OpenInv w) (hs : w.FewStep e w') : OpenInv w' := by
  obtain ⟨hfew, hn⟩ := hs
  cases e with
  | request whom req taken => exact openInv_request h hn
  | share i =>
    obtain ⟨hpos, rfl⟩ : 0 < w.maps i ∧ w.addMap i = w' := by
      simpa [Shared.next, Option.ite_none_right_eq_some] using hn
    refine h.addMap hfew ((h i).given hpos) fun h0 => ?_
    rcases (h i).ref with hr | ⟨-, hz, -⟩
    · rw [h0] at hr
      exact absurd hr (by simp)
    · omega
  | drop i =>
    obtain ⟨hpos, rfl⟩ : 0 < w.maps i ∧ w.dropMap i = w' := by
      simpa [Shared.next, Option.ite_none_right_eq_some] using hn
    exact h.dropMap hpos

theorem openInv_start (h : w.Start) : OpenInv w := by
  obtain ⟨⟨s, hs⟩, hm, hg⟩ := h
  intro i
  rw [hs, hm, hg]
  exact ⟨by omega, .inr ⟨rfl, rfl, rfl⟩, fun h => absurd h (by omega)⟩

theorem openInv_of_run {h : List ClientEvent} (hrun : Run Shared.Start Shared.FewStep h w) :
    OpenInv w :=
  Run.invariant (I := fun _ w => OpenInv w) (fun _ => openInv_start)
    (fun _ _ _ _ hi hs => openInv_step hi hs) hrun

end Inv

/-! ## Lookups -/

theorem slotOf_val {fileid : Word} (h : fileid < maxopen) :
    BitVec.ofNat 32 (slotOf fileid).val = fileid := by
  have hlt : fileid.toNat < 1024 := h
  have hmod : (fileid % maxopen).toNat = fileid.toNat := by
    rw [BitVec.toNat_umod]
    exact Nat.mod_eq_of_lt hlt
  have hval : (slotOf fileid).val = fileid.toNat := by
    show (fileid % maxopen).toNat % 1024 = fileid.toNat
    rw [hmod, Nat.mod_eq_of_lt hlt]
  rw [hval, BitVec.ofNat_toNat, BitVec.setWidth_eq]

theorem ofNat_lt_maxopen (i : Fin 1024) : BitVec.ofNat 32 i.val < maxopen := by
  show (BitVec.ofNat 32 i.val).toNat < 1024
  rw [BitVec.toNat_ofNat]
  exact lt_of_le_of_lt (Nat.mod_le _ _) i.isLt

/-- `open_lookup` reads one entry. -/
theorem openLookup_run (fileid : Word) (s : Server) :
    openLookup fileid s =
      if (s.opentab (slotOf fileid)).ffRef = 1#16 ∨ (s.opentab (slotOf fileid)).fileid ≠ fileid then
        .ok (.error .inval, s)
      else .ok (.ok (s.opentab (slotOf fileid)), s) := by
  unfold openLookup
  rw [bind_of_ok (m := get) rfl]
  show (if (s.opentab (slotOf fileid)).ffRef = 1#16 ∨
    (s.opentab (slotOf fileid)).fileid ≠ fileid then throw .inval
    else pure (s.opentab (slotOf fileid)) : Proc Open) s = _
  split_ifs
  · rfl
  · rfl

/-- An entry whose page is shared and whose id is asked for is the one given out. -/
theorem Entry.found {i : Fin 1024} {o : Open} {n : ℕ} {g : Option (Word × Word)} (h : Entry i o n g)
    (hone : o.ffRef ≠ 1#16) (hused : ¬(o.fileid < maxopen ∧ o.ffRef = 0#16)) :
    g = some (o.fileid, o.file) ∧ 0 < n := by
  rcases h.ref with hr | ⟨h0, -, hid⟩
  · have hpos : 0 < n := by
      by_contra hz
      obtain rfl : n = 0 := by omega
      exact hone (BitVec.eq_of_toNat_eq hr)
    exact ⟨h.given hpos, hpos⟩
  · exact absurd ⟨hid ▸ ofNat_lt_maxopen i, h0⟩ hused

/-- A page that a client maps is neither gone nor the server's alone. -/
theorem Entry.shared {i : Fin 1024} {o : Open} {n : ℕ} {g : Option (Word × Word)} (h : Entry i o n g)
    (hpos : 0 < n) : o.ffRef ≠ 1#16 := by
  intro hone
  rcases h.ref with hr | ⟨-, hz, -⟩
  · rw [hone] at hr
    have hval : (1#16).toNat = 1 := rfl
    omega
  · omega

/-- In every run in which no descriptor page gets 65535 mappings at clients,
`open_lookup` is right about an id exactly if it is not the first id of an entry that
was never chosen, and `open_alloc` chooses only entries that no client maps. -/
theorem open_table {h : List ClientEvent} {w : Shared}
    (hrun : Run Shared.Start Shared.FewStep h w) :
    (∀ fileid, LookupRight w fileid ↔ ¬w.server.NeverUsed fileid) ∧
      ∀ i s', openAlloc w.server = .ok (.ok i, s') → w.maps i = 0 := by
  have hinv := openInv_of_run hrun
  refine ⟨fun fileid => ?_, fun i s' hi => ?_⟩
  · have he := hinv (slotOf fileid)
    have hlook := openLookup_run fileid w.server
    have hfound : ∀ {o}, w.server.opentab (slotOf fileid) = o → ¬w.server.NeverUsed fileid →
        ¬(o.ffRef = 1#16 ∨ o.fileid ≠ fileid) →
        w.given (slotOf fileid) = some (fileid, o.file) ∧ 0 < w.maps (slotOf fileid) := by
      rintro o rfl hused hc
      obtain ⟨hone, hid⟩ := not_or.mp hc
      have hid := not_not.mp hid
      obtain ⟨hg, hpos⟩ := he.found hone fun h => hused ⟨hid ▸ h.1, h.2⟩
      exact ⟨hg.trans (by rw [hid]), hpos⟩
    refine ⟨fun hright hnever => ?_, fun hused => ⟨fun f => ⟨?_, ?_⟩, fun hno => ?_⟩⟩
    · obtain ⟨hlt, h0⟩ := hnever
      rcases he.ref with hr | ⟨-, hz, hid⟩
      · rw [h0] at hr
        exact absurd hr (by simp)
      · rw [slotOf_val hlt] at hid
        rw [if_neg (not_or.mpr ⟨by rw [h0]; decide, not_not.mpr hid⟩)] at hlook
        have hpos := ((hright.accepts _).mp ⟨_, hlook, rfl⟩).2
        omega
    · rintro ⟨o, hrun', rfl⟩
      rw [hlook] at hrun'
      split_ifs at hrun' with hc
      · exact absurd hrun' (by simp)
      · obtain rfl : w.server.opentab (slotOf fileid) = o := by simpa using hrun'
        exact hfound rfl hused hc
    · rintro ⟨hg, hpos⟩
      obtain ⟨hid, hfile⟩ : fileid = (w.server.opentab (slotOf fileid)).fileid ∧
          f = (w.server.opentab (slotOf fileid)).file := by
        simpa using hg.symm.trans (he.given hpos)
      rw [if_neg (not_or.mpr ⟨he.shared hpos, not_not.mpr hid.symm⟩)] at hlook
      exact ⟨_, hlook, hfile.symm⟩
    · by_cases hc : (w.server.opentab (slotOf fileid)).ffRef = 1#16 ∨
          (w.server.opentab (slotOf fileid)).fileid ≠ fileid
      · rw [if_pos hc] at hlook
        exact hlook
      · exact absurd ⟨_, hfound rfl hused hc⟩ hno
  · rcases wp_ok (openAllocIn_table _ w.server) hi with ⟨j, hj, hidle, -⟩ | ⟨⟨e, he⟩, -⟩
    · obtain rfl := Except.ok.inj hj
      exact hinv.idle hidle
    · exact absurd he (by simp)

/-- A server after `serve_init` with nothing in its cache. -/
def freshServer : Server := fullTable.serveInit

def freshShared : Shared := ⟨freshServer, fun _ => 0, fun _ => none⟩

theorem freshShared_start : freshShared.Start := ⟨⟨fullTable, rfl⟩, fun _ => rfl, fun _ => rfl⟩

/-- The steps of a run, by evaluation. -/
def fewNext (e : ClientEvent) (w : Shared) : Option Shared :=
  match e with
  | .share _ => none
  | e => Shared.next e w

theorem fewStep_of_fewNext (e : ClientEvent) (w w' : Shared) (h : fewNext e w = some w') :
    w.FewStep e w' := by
  cases e with
  | share i => exact absurd h (by simp [fewNext])
  | request whom req taken => exact ⟨trivial, h⟩
  | drop i => exact ⟨trivial, h⟩

/-- The root directory is opened with the first id of entry 0. -/
theorem open_table_root : ∃ h w, Run Shared.Start Shared.FewStep h w ∧
    w.given 0 = some (1024#32, sRoot) ∧ w.maps 0 = 1 ∧ LookupRight w 1024#32 := by
  have hend : ((Run.follow fewNext [.request 7#32 (.open [slash] 0#32) true] freshShared).map
      fun w => (w.given 0, w.maps 0)) = some (some (1024#32, sRoot), 1) := by
    decide +kernel
  obtain ⟨w, hw, heq⟩ := Option.map_eq_some_iff.mp hend
  obtain ⟨hg, hm⟩ := Prod.mk.inj heq
  have hrun := Run.of_follow fewStep_of_fewNext (.start freshShared_start) hw
  have hnot : ¬w.server.NeverUsed 1024#32 := fun h => absurd h.1 (by decide)
  exact ⟨_, w, hrun, hg, hm, ((open_table hrun).1 1024#32).mpr hnot⟩

/-- Right after the start the id 5, which was never given out, is accepted. -/
theorem open_table_fails : ¬∀ (h : List ClientEvent) (w : Shared) (fileid : Word),
    Run Shared.Start (fun w e w' => Shared.next e w = some w') h w → LookupRight w fileid := by
  intro hall
  have hright := hall [] freshShared 5#32 (.start freshShared_start)
  have haccept := (hright.accepts 0#32).mp ⟨_, rfl, rfl⟩
  exact absurd haccept.1 (by simp [freshShared])

end Fs
end RvMos
