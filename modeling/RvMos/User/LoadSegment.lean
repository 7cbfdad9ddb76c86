/-
The two mappers of `elf_load_seg`: `load_icode_mapper` of the kernel
(`kern/env.c`) and `spawn_mapper` of a program that starts another one
(`user/lib/spawn.c`).

Both are procedures over the kernel, and the calls of `spawn_mapper` are the
functions behind the system calls.  Bytes are parts of the words of a frame.
`spawn_mapper` stores through the page it has just mapped writable, so that a
fault there is a stop.
-/
import RvMos.Common.ElfLoader
import RvMos.User.CowEntry

namespace RvMos

open Lib

/-! ## Bytes of a page -/

def byteOf (w : Word) (lane : ℕ) : BitVec 8 :=
  (w >>> (8 * lane)).setWidth 8

theorem byteOf_setByte {w : Word} {b : BitVec 8} {i j : ℕ} (hi : i < 4) (hj : j < 4) :
    byteOf (Kern.setByte w j b) i = if i = j then b else byteOf w i := by
  have hmask : ∀ t < 32, (0xff#32).getLsbD t = decide (t < 8) := by decide
  ext n hn
  have hlt : 8 * i + n < 32 := by omega
  rw [byteOf, Kern.setByte, BitVec.getElem_setWidth, BitVec.getLsbD_ushiftRight,
    BitVec.getLsbD_or, BitVec.getLsbD_and, BitVec.getLsbD_not, BitVec.getLsbD_shiftLeft,
    BitVec.getLsbD_shiftLeft, BitVec.getLsbD_setWidth, hmask _ (by omega)]
  by_cases hij : i = j
  · subst hij
    simp [hlt, hn]
    omega
  · rw [if_neg hij, byteOf, BitVec.getElem_setWidth, BitVec.getLsbD_ushiftRight]
    by_cases hlow : 8 * i + n < 8 * j
    · simp [hlt, hlow]
    · have hhigh : 8 ≤ 8 * i + n - 8 * j := by omega
      simp [hlt, BitVec.getLsbD_of_ge b _ hhigh]
      omega

namespace Page

def byte (pg : Page) (o : ℕ) : BitVec 8 :=
  byteOf (pg (Fin.ofNat 1024 (o / 4))) (o % 4)

def putByte (pg : Page) (o : ℕ) (b : BitVec 8) : Page :=
  Function.update pg (Fin.ofNat 1024 (o / 4))
    (Kern.setByte (pg (Fin.ofNat 1024 (o / 4))) (o % 4) b)

/-- Consecutive bytes from offset `o` on. -/
def putBytes (pg : Page) (o : ℕ) : List (BitVec 8) → Page
  | [] => pg
  | b :: bs => putBytes (pg.putByte o b) (o + 1) bs

theorem byte_putByte {pg : Page} {o i : ℕ} {b : BitVec 8} (ho : o < 4096) (hi : i < 4096) :
    (pg.putByte o b).byte i = if i = o then b else pg.byte i := by
  have hfin : ∀ n, n < 4096 → (Fin.ofNat 1024 (n / 4)).val = n / 4 := by
    intro n hn
    simp only [Fin.ofNat]
    omega
  unfold byte putByte
  by_cases hw : i / 4 = o / 4
  · rw [hw, Function.update_self, byteOf_setByte (by omega) (by omega)]
    by_cases h : i = o
    · rw [if_pos h, if_pos (by omega)]
    · rw [if_neg h, if_neg (by omega)]
  · have hne : Fin.ofNat 1024 (i / 4) ≠ Fin.ofNat 1024 (o / 4) := by
      intro h
      have := congrArg Fin.val h
      rw [hfin i hi, hfin o ho] at this
      exact hw this
    rw [Function.update_of_ne hne, if_neg (by rintro rfl; exact hw rfl)]

theorem byte_putBytes {pg : Page} {bs : List (BitVec 8)} {o i : ℕ} (ho : o + bs.length ≤ 4096)
    (hi : i < 4096) :
    (pg.putBytes o bs).byte i =
      if o ≤ i ∧ i < o + bs.length then bs.getD (i - o) 0#8 else pg.byte i := by
  induction bs generalizing pg o with
  | nil => rw [if_neg (by simp)]; rfl
  | cons b bs ih =>
    simp only [List.length_cons] at ho
    rw [putBytes, ih (by omega), byte_putByte (by omega) hi]
    by_cases h : i = o
    · subst h
      rw [if_neg (by omega), if_pos rfl, if_pos (by simp), Nat.sub_self]
      rfl
    · by_cases hin : o + 1 ≤ i ∧ i < o + 1 + bs.length
      · obtain ⟨k, hk⟩ : ∃ k, i - o = k + 1 := ⟨i - o - 1, by omega⟩
        rw [if_pos hin, if_pos (by simp only [List.length_cons]; omega), hk,
          show i - (o + 1) = k by omega]
        rfl
      · rw [if_neg hin, if_neg h, if_neg (by simp only [List.length_cons]; omega)]

theorem byte_zero (o : ℕ) : byte (fun _ => 0#32) o = 0#8 := by
  simp [byte, byteOf]

end Page
namespace Kern

open Sys Elf

/-! ## The mappers -/

/-- `memcpy(page2addr(p) + offset, src, len)`.  The bytes of a frame that is
followed by another one are never exceeded by the callers. -/
def frameCopy (p : Frame) (offset : ℕ) (bs : List (BitVec 8)) : Kern Unit :=
  if offset + bs.length ≤ 4096 then
    modify fun k => k.setPmap (k.pmap.setPage p ((k.pmap.mem p).putBytes offset bs))
  else halt .wild

/-- `load_icode_mapper` of the environment `e`, byte for byte. -/
def mapIcode (e : EnvIdx) (c : MapCall) : Kern Unit := do
  let p ← pageAlloc
  match c.src with
  | none => pageInsert ((← get).envs e).pgdir p c.va c.perm
  | some bs => do
    frameCopy p c.offset bs
    pageInsert ((← get).envs e).pgdir p c.va c.perm

/-- A store of the running program to a page that it may write. -/
def userStoreByte (va : Word) (b : BitVec 8) : Kern Unit := do
  let d ← dirOf (← get).curPgdir
  match entryFrame ((← get).pmap.pteOf d va) with
  | none => halt .wild
  | some f =>
    if (← get).pmap.pteOf d va &&& (pteR ||| pteW ||| pteU) = pteR ||| pteW ||| pteU then
      modify fun k => k.setPmap (k.pmap.setPage f ((k.pmap.mem f).putByte (va.toNat % 4096) b))
    else halt .wild

def userCopy (va : Word) : List (BitVec 8) → Kern Unit
  | [] => pure ()
  | b :: bs => do
    userStoreByte va b
    userCopy (va + 1#32) bs

def spawnMapper (child : Word) (c : MapCall) : Kern Unit := do
  eMemAlloc child c.va c.perm
  match c.src with
  | none => pure ()
  | some bs => do
    match ← attempt (eMemMap child c.va 0#32 utemp c.perm) with
    | .error r => do
      let _ ← attempt (eMemUnmap child c.va)
      throw r
    | .ok () => do
      userCopy (utemp + BitVec.ofNat 32 c.offset) bs
      eMemUnmap 0#32 utemp

/-- The bytes that a program with directory `d` sees. -/
def imageOf (d : Frame) (k : Kernel) : Image := fun a =>
  (entryFrame (k.pmap.pteOf d (BitVec.ofNat 32 a))).map fun f => (k.pmap.mem f).byte (a % 4096)

section Mapper

variable {L : Layout} {k k' : Kernel} {e : EnvIdx} {d : Frame}

/-- The environment whose memory is filled. -/
structure Filled (L : Layout) (e : EnvIdx) (d : Frame) (k : Kernel) : Prop where
  spaces : Spaces L k
  live : k.Live e
  dir : (k.envs e).pgdir = some d

theorem Filled.isDir (h : Filled L e d k) : k.pmap.Dir L d ∧ Pmap.UserDir L k.pmap d := by
  obtain ⟨d', hd', hdir, huser⟩ := h.spaces.dir e h.live
  obtain rfl := Option.some.inj (h.dir.symm.trans hd')
  exact ⟨hdir, huser⟩

theorem Filled.setPmap (h : Filled L e d k) {p : Pmap} (hp : Pmap.Kept L k.pmap p) :
    Filled L e d (k.setPmap p) :=
  ⟨h.spaces.setPmap hp, h.live, h.dir⟩

/-- A new frame mapped at `va`, whatever else happens elsewhere, is a call laid over
the image. -/
theorem overlay_of_leaves {c : MapCall} {P : Frame → Word → Prop} {f : Frame} {p : Pmap}
    (h : Filled L e d k) (hff : f ∈ k.pmap.pageFreeList) (hfl : FlagOnly c.perm)
    (hl : Leaves L P (· = f) k.pmap p) (hP : ∀ v, vpn v ≠ vpn c.va → P d v)
    (hpte : p.pteOf d c.va = mkPte f c.perm)
    (hbyte : ∀ o < 4096, (p.mem f).byte o = c.byte o) {a : ℕ} (ha : a < utop.toNat) :
    imageOf d (k.setPmap p) a = Elf.overlay (imageOf d k) c a := by
  obtain ⟨hdir, huser⟩ := h.isDir
  have hsmall : utop.toNat < 2 ^ 32 := by decide
  have htoNat : (BitVec.ofNat 32 a).toNat = a := by
    rw [BitVec.toNat_ofNat, Nat.mod_eq_of_lt (by omega)]
  have hlt : BitVec.ofNat 32 a < utop := by
    rw [BitVec.lt_def, htoNat]
    exact ha
  have hsame : vpn (BitVec.ofNat 32 a) = vpn c.va ↔ a / 4096 = c.va.toNat / 4096 := by
    rw [← BitVec.toNat_inj, vpn_toNat, vpn_toNat, htoNat]
  unfold Elf.overlay imageOf
  by_cases hpage : a / 4096 = c.va.toNat / 4096
  · have hv := hsame.mpr hpage
    have hentry : p.pteOf d (BitVec.ofNat 32 a) = mkPte f c.perm := by
      rw [← hpte]
      obtain ⟨hi, hj⟩ := vpn_eq_iff.mp hv
      unfold Pmap.pteOf
      rw [hi, hj]
    rw [if_pos hpage]
    show (entryFrame (p.pteOf d _)).map _ = _
    rw [hentry, entryFrame_mkPte f hfl, Option.map_some]
    show some ((p.mem f).byte _) = _
    rw [hbyte _ (Nat.mod_lt _ (by decide))]
  · have hv := fun e => hpage (hsame.mp e)
    rw [if_neg hpage]
    show (entryFrame (p.pteOf d _)).map _ = _
    rw [hl.pte d _ hdir hlt (hP _ hv)]
    cases hf : entryFrame (k.pmap.pteOf d (BitVec.ofNat 32 a)) with
    | none => rfl
    | some g =>
      have hg := (Leaves.mapped h.spaces.inv hdir huser hlt hf).2
      have hne : g ≠ f := by
        rintro rfl
        exact hg hff
      show some ((p.mem g).byte _) = some ((k.pmap.mem g).byte _)
      rw [hl.mem d _ g hdir huser hlt (hP _ hv) hf hne]

/-- The bytes of a page that was zero before the copy. -/
theorem byte_of_copy {c : MapCall} {bs : List (BitVec 8)} (hsrc : c.src = some bs)
    (hlen : c.offset + bs.length ≤ 4096) {o : ℕ} (ho : o < 4096) :
    (Page.putBytes (fun _ => 0#32) c.offset bs).byte o = c.byte o := by
  rw [Page.byte_putBytes hlen ho, MapCall.byte, hsrc, Page.byte_zero]
  by_cases h : c.offset ≤ o
  · by_cases h' : o < c.offset + bs.length
    · rw [if_pos ⟨h, h'⟩]
      simp only [h, if_true]
    · rw [if_neg (by omega)]
      simp only [h, if_true]
      rw [List.getD_eq_default _ _ (by omega)]
  · rw [if_neg (by omega)]
    simp only [h, if_false]

theorem alloc_of_run {f : Frame} (h : pageAlloc k = .ok (.ok f, k')) :
    ∃ s, k.pmap.pageAlloc = .ok (f, s) ∧ k' = k.setPmap s := by
  cases ha : k.pmap.pageAlloc with
  | error x =>
    have hno : pageAlloc k = .ok (.error x, k) := onPmap_ok (s := k.pmap) (by rw [ha])
    rw [hno] at h
    cases h
  | ok x =>
    obtain ⟨g, s⟩ := x
    rw [pageAlloc_ok ha] at h
    cases h
    exact ⟨s, rfl, rfl⟩

/-- An insertion that returns, of a frame that is in use nowhere or once. -/
theorem insert_of_run {f : Frame} {va perm : Word} (hI : k.pmap.Inv L) (hd : k.pmap.Dir L d)
    (hc : k.pmap.Counted L d va) (hfl : FlagOnly perm) (hff : f ∉ k.pmap.pageFreeList)
    (href : (k.pmap.ppRef f).toNat < 65535)
    (h : pageInsert (some d) f va perm k = .ok (.ok (), k')) :
    ∃ p, k.pmap.Inserted L d f va perm p ∧ k' = k.setPmap p ∧
      (p.ppRef f).toNat ≤ (k.pmap.ppRef f).toNat + 1 := by
  rcases Pmap.pageInsert_spec hI hd hc hfl hff (fun _ => by rw [← hI.count f]; exact href) with
    ⟨p, hp, hins⟩ | ⟨hp, -⟩
  · rw [pageInsert_ok hp] at h
    cases h
    exact ⟨p, hins, rfl, Pmap.pageInsert_ref_le hI hd hc hff hp f⟩
  · rw [pageInsert_ok hp] at h
    cases h

/-- A frame from the free list, filled, and inserted where nothing else changes. -/
theorem fresh_of_run (h : Filled L e d k) {f : Frame} {s : Pmap} {va perm : Word}
    (ha : k.pmap.pageAlloc = .ok (f, s)) (hva : va < utop) (hfl : FlagOnly perm) (pg : Page)
    (hrun : pageInsert (some d) f va perm (k.setPmap (s.setPage f pg)) = .ok (.ok (), k')) :
    ∃ p, k' = k.setPmap p ∧ (s.setPage f pg).Inserted L d f va perm p ∧ p.Data L f ∧
      f ∉ (s.setPage f pg).pageFreeList ∧ p.mem f = pg ∧ (p.ppRef f).toNat ≤ 1 ∧
      Leaves L (fun x v => ¬(x = d ∧ vpn v = vpn va)) (· = f) k.pmap p := by
  obtain ⟨hdir, huser⟩ := h.isDir
  have hI := h.spaces.inv
  obtain ⟨hI₁, hfree, href, -, -, -, hb, hr⟩ := hI.alloc ha
  have hdata := Pmap.data_of_alloc hI ha
  have hff := Pmap.not_free_of_alloc hI ha
  have hk₁ := Pmap.kept_alloc hI ha
  have hk₂ := (Pmap.kept_setPage hI₁ hdata pg).1
  have hdir₂ := hk₂.dirs d (hk₁.dirs d hdir)
  have huser₂ := hk₂.user d (hk₁.dirs d hdir) (hk₁.user d hdir huser)
  have hown := huser₂.own (pdx va) (personal_of_lt hva)
  have hdata₂ := Pmap.Data.setPage hI₁ hdata pg
  have hzero : (s.ppRef f).toNat = 0 := by
    rw [href, hI.count f, hb, hr]
  obtain ⟨p, hins, rfl, hle⟩ := insert_of_run (k := k.setPmap (s.setPage f pg)) hk₂.inv hdir₂
    (Pmap.counted_of_own hk₂.inv.toForest hown) hfl hff
    (show (s.ppRef f).toNat < 65535 by omega) hrun
  have href₁ : (p.ppRef f).toNat ≤ 1 := by
    have : (p.ppRef f).toNat ≤ (s.ppRef f).toNat + 1 := hle
    omega
  have hne : f ≠ d := (hdir₂.ne_of_base hdata.base).symm
  refine ⟨p, rfl, hins, hdata₂.insert hff hins, hff, ?_, href₁, ?_⟩
  · exact (hins.data f hdata₂.not_table hff hne).trans (Pmap.setPage_mem_self ..)
  · have hother : ∀ va', vpn va' = vpn va → ¬¬(d = d ∧ vpn va' = vpn va) :=
      fun va' hv => not_not.mpr ⟨rfl, hv⟩
    have hset : Leaves L (fun x v => ¬(x = d ∧ vpn v = vpn va)) (· = f) s (s.setPage f pg) :=
      Leaves.setPage (X := (· = f)) hI₁ hdata rfl pg
    exact (Leaves.alloc hI ha).trans
      (hset.trans (.insert hk₂.inv hdir₂ hown hfl hdata₂ hff hother hins))

theorem frameCopy_ok {f : Frame} {o : ℕ} {bs : List (BitVec 8)} (hlen : o + bs.length ≤ 4096) :
    frameCopy f o bs k =
      .ok (.ok (), k.setPmap (k.pmap.setPage f ((k.pmap.mem f).putBytes o bs))) := by
  rw [frameCopy, if_pos hlen]
  rfl

/-- `load_icode_mapper` lays its call over the memory of the environment. -/
theorem lays_mapIcode : Lays utop.toNat (Filled L e d) (imageOf d) (mapIcode e) := by
  intro k c k' h hsrc hva hfl hrun
  have hlt : c.va < utop := by rwa [BitVec.lt_def]
  obtain ⟨f, k₁, halloc, hrun⟩ := Sys.bind_ok hrun
  obtain ⟨s, ha, rfl⟩ := alloc_of_run halloc
  have hI := h.spaces.inv
  obtain ⟨-, hfree, -, hmem, -⟩ := hI.alloc ha
  have hzero : s.mem f = fun _ => 0#32 := by rw [hmem, Function.update_self]
  -- what is in the frame before it is inserted
  obtain ⟨pg, hpg, hins⟩ : ∃ pg : Page, (∀ o < 4096, pg.byte o = c.byte o) ∧
      pageInsert (some d) f c.va c.perm (k.setPmap (s.setPage f pg)) = .ok (.ok (), k') := by
    cases hc : c.src with
    | none =>
      rw [hc] at hrun
      refine ⟨s.mem f, fun o _ => ?_, ?_⟩
      · rw [hzero, Page.byte_zero, MapCall.byte, hc]
      · rw [Pmap.setPage_self]
        have : ((k.setPmap s).envs e).pgdir = some d := h.dir
        exact this ▸ hrun
    | some bs =>
      rw [hc] at hrun
      simp only at hrun
      rw [bind_of_ok (frameCopy_ok (hsrc bs hc))] at hrun
      refine ⟨(s.mem f).putBytes c.offset bs, fun o ho => ?_, ?_⟩
      · rw [hzero]
        exact byte_of_copy hc (hsrc bs hc) ho
      · have : ((k.setPmap s).envs e).pgdir = some d := h.dir
        exact this ▸ hrun
  obtain ⟨p, rfl, hinserted, -, -, hpage, -, hl⟩ := fresh_of_run h ha hlt hfl pg hins
  refine ⟨h.setPmap hl.kept, fun a hlta => ?_⟩
  exact overlay_of_leaves h (by rw [hfree]; exact List.mem_cons_self) hfl hl
    (fun v hv hout => hv hout.2) hinserted.pte (by rw [hpage]; exact hpg) hlta

/-! ## The mapper of `spawn` -/

theorem memAlloc_of_run {envid va perm : Word} (he : k.target envid true = some e)
    (hd : (k.envs e).pgdir = some d) (h : eMemAlloc envid va perm k = .ok (.ok (), k')) :
    isIllegalVa va = false ∧ ∃ f s, k.pmap.pageAlloc = .ok (f, s) ∧
      pageInsert (some d) f va perm (k.setPmap s) = .ok (.ok (), k') := by
  cases hva : isIllegalVa va with
  | true =>
    rw [eMemAlloc_illegal hva] at h
    cases h
  | false =>
    unfold eMemAlloc at h
    rw [if_neg (by rw [hva]; simp), bind_of_ok (envid2env_eq he)] at h
    obtain ⟨f, k₁, halloc, h⟩ := Sys.bind_ok h
    obtain ⟨s, ha, rfl⟩ := alloc_of_run halloc
    refine ⟨rfl, f, s, ha, ?_⟩
    have : ((k.setPmap s).envs e).pgdir = some d := hd
    exact this ▸ h

theorem memUnmap_of_run (h : Filled L e d k) {envid va : Word} (he : k.target envid true = some e)
    (hrun : eMemUnmap envid va k = .ok (.ok (), k')) :
    isIllegalVa va = false ∧ ∃ p, k.pmap.Removed L d va p ∧ k' = k.setPmap p := by
  cases hva : isIllegalVa va with
  | true =>
    unfold eMemUnmap at hrun
    rw [if_pos hva] at hrun
    cases hrun
  | false =>
    obtain ⟨hdir, huser⟩ := h.isDir
    have hown := huser.own (pdx va) (personal_of_lt (lt_utop_of_legal hva))
    obtain ⟨p, hp, hrem⟩ := Pmap.pageRemove_spec h.spaces.inv hdir
      (Pmap.counted_of_own h.spaces.inv.toForest hown)
    rw [eMemUnmap_ok hva he h.dir hp] at hrun
    cases hrun
    exact ⟨rfl, p, hrem, rfl⟩

/-- Between live environments the frame behind `srcva` is inserted, or there is no memory for a
table. -/
theorem memMap_result {c : EnvIdx} {ds f : Frame} {srcid dstid srcva va perm : Word}
    (hs : Filled L e ds k) (hd : Filled L c d k) (hsrc : k.target srcid true = some e)
    (hdst : k.target dstid false = some c) (hva₁ : isIllegalVa srcva = false)
    (hva₂ : isIllegalVa va = false) (hf : entryFrame (k.pmap.pteOf ds srcva) = some f)
    (href : (k.pmap.ppRef f).toNat < 65535) (hfl : FlagOnly perm) :
    (∃ p, k.pmap.Inserted L d f va perm p ∧
        eMemMap srcid srcva dstid va perm k = .ok (.ok (), k.setPmap p)) ∨
      eMemMap srcid srcva dstid va perm k = .ok (.error .noMem, k) := by
  obtain ⟨hdirs, husers⟩ := hs.isDir
  obtain ⟨hdir, huser⟩ := hd.isDir
  have hI := hs.spaces.inv
  have hlts := lt_utop_of_legal hva₁
  have hcs := Pmap.counted_of_own hI.toForest (husers.own _ (personal_of_lt hlts))
  have hc := Pmap.counted_of_own hI.toForest (huser.own _ (personal_of_lt (lt_utop_of_legal hva₂)))
  have hff := (Leaves.mapped hI hdirs husers hlts hf).2
  obtain ⟨t, ht⟩ : ∃ t, k.pmap.tableOf ds (pdx srcva) = some t := by
    cases ht : k.pmap.tableOf ds (pdx srcva) with
    | none =>
      rw [Pmap.pteOf, ht, entryFrame_zero] at hf
      cases hf
    | some t => exact ⟨t, rfl⟩
  have hl := Pmap.pageLookup_eq hI.toForest hdirs hcs
  rw [hf, ht, Option.bind_some, Option.map_some] at hl
  rcases Pmap.pageInsert_spec hI hdir hc hfl hff (fun _ => by rw [← hI.count f]; exact href) with
    ⟨p, hp, hins⟩ | ⟨hp, -⟩
  · exact .inl ⟨p, hins, eMemMap_ok hva₁ hva₂ hsrc hdst hs.dir hd.dir hl hp⟩
  · exact .inr (eMemMap_ok hva₁ hva₂ hsrc hdst hs.dir hd.dir hl hp)

/-- The frame behind `srcva` of `e` is mapped at `va` of `c`. -/
theorem memMap_of_run {c : EnvIdx} {ds f : Frame} {srcid dstid srcva va perm : Word}
    (hs : Filled L e ds k) (hd : Filled L c d k) (hsrc : k.target srcid true = some e)
    (hdst : k.target dstid false = some c)
    (hf : entryFrame (k.pmap.pteOf ds srcva) = some f) (href : (k.pmap.ppRef f).toNat < 65535)
    (hfl : FlagOnly perm) (hrun : eMemMap srcid srcva dstid va perm k = .ok (.ok (), k')) :
    va < utop ∧ ∃ p, k.pmap.Inserted L d f va perm p ∧ k' = k.setPmap p := by
  by_cases hva : (isIllegalVa srcva || isIllegalVa va) = true
  · rw [eMemMap_illegal hva] at hrun
    cases hrun
  · obtain ⟨hva₁, hva₂⟩ := Bool.or_eq_false_iff.mp (Bool.eq_false_iff.mpr hva)
    rcases memMap_result hs hd hsrc hdst hva₁ hva₂ hf href hfl with ⟨p, hins, hok⟩ | hno
    · rw [hok] at hrun
      cases hrun
      exact ⟨lt_utop_of_legal hva₂, p, hins, rfl⟩
    · rw [hno] at hrun
      cases hrun

theorem attempt_ok {α : Type} {m : Kern α} {r : Except Errno α}
    (h : m.attempt k = .ok (.ok r, k')) : m k = .ok (r, k') := by
  cases hm : m k with
  | error c =>
    rw [attempt_of_stop hm] at h
    cases h
  | ok x =>
    obtain ⟨r', k₁⟩ := x
    rw [attempt_of_ok hm] at h
    cases h
    rfl

/-- Stores of the running program into a page of data. -/
theorem userCopy_of_run {va : Word} {f : Frame} {bs : List (BitVec 8)} {o : ℕ} (base : Word)
    (h : Filled L e d k) (hcur : k.curPgdir = some d) (hdata : k.pmap.Data L f)
    (hbase : base.toNat % 4096 = 0) (hlt : base.toNat + 4096 < 2 ^ 32)
    (hf : ∀ v, vpn v = vpn base → entryFrame (k.pmap.pteOf d v) = some f)
    (hva : va = base + BitVec.ofNat 32 o) (ho : o + bs.length ≤ 4096)
    (hrun : userCopy va bs k = .ok (.ok (), k')) :
    k' = k.setPmap (k.pmap.setPage f ((k.pmap.mem f).putBytes o bs)) := by
  induction bs generalizing k va o with
  | nil =>
    cases hrun
    rw [Page.putBytes, Pmap.setPage_self]
    rfl
  | cons b bs ih =>
    simp only [List.length_cons] at ho
    obtain ⟨⟨⟩, k₁, hbyte, hrest⟩ := Sys.bind_ok hrun
    have hvaNat : va.toNat = base.toNat + o := by
      rw [hva, BitVec.toNat_add, BitVec.toNat_ofNat]
      omega
    have hpage : vpn va = vpn base := by
      rw [← BitVec.toNat_inj, vpn_toNat, vpn_toNat]
      omega
    have hstore : k₁ = k.setPmap (k.pmap.setPage f ((k.pmap.mem f).putByte o b)) := by
      unfold userStoreByte at hbyte
      rw [bind_of_ok (b := k) (t := k) rfl, hcur, bind_of_ok (dirOf_eq d),
        bind_of_ok (b := k) (t := k) rfl, hf va hpage] at hbyte
      simp only at hbyte
      rw [bind_of_ok (b := k) (t := k) rfl] at hbyte
      split at hbyte
      · cases hbyte
        rw [show va.toNat % 4096 = o by omega]
      · cases hbyte
    subst hstore
    obtain ⟨hkept, hpte⟩ := Pmap.kept_setPage h.spaces.inv hdata ((k.pmap.mem f).putByte o b)
    have hdata₁ := Pmap.Data.setPage h.spaces.inv hdata ((k.pmap.mem f).putByte o b)
    have hrun' := ih (o := o + 1) (h.setPmap hkept) hcur hdata₁
      (fun v hv => by
        show entryFrame ((k.pmap.setPage f _).pteOf d v) = some f
        rw [hpte d v h.isDir.1]
        exact hf v hv)
      (by rw [hva, BitVec.add_assoc]; congr 1; simp [BitVec.ofNat_add]) (by omega) hrest
    rw [hrun', Page.putBytes]
    show k.setPmap _ = _
    congr 1
    show (k.pmap.setPage f _).setPage f (((k.pmap.setPage f _).mem f).putBytes (o + 1) bs) = _
    rw [Pmap.setPage_mem_self, Pmap.setPage_setPage]

/-- The running program `c`, with directory `ds`, fills its child. -/
structure Spawning (L : Layout) (e : EnvIdx) (d : Frame) (c : EnvIdx) (ds : Frame) (child : Word)
    (k : Kernel) : Prop extends Filled L e d k where
  cur : k.curenv = some c
  own : (k.envs c).pgdir = some ds
  ne : c ≠ e
  target : k.target child true = some e

section Spawn

variable {c : EnvIdx} {ds : Frame} {child : Word}

theorem Spawning.setPmap (h : Spawning L e d c ds child k) {p : Pmap}
    (hp : Pmap.Kept L k.pmap p) : Spawning L e d c ds child (k.setPmap p) :=
  ⟨h.toFilled.setPmap hp, h.cur, h.own, h.ne, h.target⟩

theorem Spawning.parent (h : Spawning L e d c ds child k) : Filled L c ds k :=
  ⟨h.spaces, (h.spaces.cur c h.cur).1, h.own⟩

theorem Spawning.dirs_ne (h : Spawning L e d c ds child k) : ds ≠ d := by
  rintro rfl
  exact h.ne (h.spaces.apart c e h.parent.live h.live (h.own.trans h.dir.symm))

theorem Spawning.curPgdir (h : Spawning L e d c ds child k) : k.curPgdir = some ds :=
  (h.spaces.cur c h.cur).2.trans h.own

/-- The part of `spawn_mapper` with a source, from the mapping at `UTEMP` on. -/
theorem copy_of_run (h : Spawning L e d c ds child k) {m : MapCall} {bs : List (BitVec 8)}
    {f : Frame} (hlen : m.offset + bs.length ≤ 4096) (hlt : m.va < utop) (hfl : FlagOnly m.perm)
    (hf : entryFrame (k.pmap.pteOf d m.va) = some f) (href : (k.pmap.ppRef f).toNat ≤ 1)
    {k₁ k₂ : Kernel} (hmap : eMemMap child m.va 0#32 utemp m.perm k = .ok (.ok (), k₁))
    (hcopy : userCopy (utemp + BitVec.ofNat 32 m.offset) bs k₁ = .ok (.ok (), k₂))
    (hunmap : eMemUnmap 0#32 utemp k₂ = .ok (.ok (), k')) :
    ∃ p, k' = k.setPmap p ∧ p.mem f = (k.pmap.mem f).putBytes m.offset bs ∧
      Leaves L (fun x v => ¬(x = ds ∧ vpn v = vpn utemp)) (· = f) k.pmap p := by
  obtain ⟨hdir, huser⟩ := h.isDir
  obtain ⟨hdirs, husers⟩ := h.parent.isDir
  have hI := h.spaces.inv
  obtain ⟨hdata, hff⟩ := Leaves.mapped hI hdir huser hlt hf
  obtain ⟨hltt, p₁, hins, rfl⟩ := memMap_of_run h.toFilled h.parent h.target
    (target_zero h.cur false) hf (by omega) hfl hmap
  have hown := husers.own (pdx utemp) (personal_of_lt hltt)
  have hno : ∀ v, vpn v = vpn utemp → ¬¬(ds = ds ∧ vpn v = vpn utemp) :=
    fun v hv => not_not.mpr ⟨rfl, hv⟩
  have hl₁ : Leaves L (fun x v => ¬(x = ds ∧ vpn v = vpn utemp)) (· = f) k.pmap p₁ :=
    .insert hI hdirs hown hfl hdata hff hno hins
  have h₁ := h.setPmap hl₁.kept
  have hdata₁ := hdata.insert hff hins
  have hne : f ≠ ds := (hdirs.ne_of_base hdata.base).symm
  obtain rfl := userCopy_of_run utemp h₁.parent h₁.curPgdir hdata₁ (by decide) (by decide)
    (fun v hv => by
      obtain ⟨hi, hj⟩ := vpn_eq_iff.mp hv
      have : p₁.pteOf ds v = p₁.pteOf ds utemp := by rw [Pmap.pteOf, Pmap.pteOf, hi, hj]
      show entryFrame (p₁.pteOf ds v) = some f
      rw [this, hins.pte, entryFrame_mkPte f hfl])
    rfl hlen hcopy
  have hl₂ : Leaves L (fun x v => ¬(x = ds ∧ vpn v = vpn utemp)) (· = f) p₁
      (p₁.setPage f ((p₁.mem f).putBytes m.offset bs)) :=
    Leaves.setPage (X := (· = f)) hins.inv hdata₁ rfl _
  have h₂ := h₁.setPmap hl₂.kept
  obtain ⟨-, p₃, hrem, rfl⟩ := memUnmap_of_run h₂.parent (target_zero h₂.cur true) hunmap
  have hl₃ : Leaves L (fun x v => ¬(x = ds ∧ vpn v = vpn utemp)) (· = f)
      (p₁.setPage f ((p₁.mem f).putBytes m.offset bs)) p₃ :=
    .remove hl₂.kept.inv h₂.parent.isDir.1 hown hno hrem
  refine ⟨p₃, rfl, ?_, hl₁.trans (hl₂.trans hl₃)⟩
  have hdata₂ := Pmap.Data.setPage hins.inv hdata₁ ((p₁.mem f).putBytes m.offset bs)
  rw [hrem.data f hdata₂.not_table]
  show (p₁.setPage f ((p₁.mem f).putBytes m.offset bs)).mem f = _
  rw [Pmap.setPage_mem_self, hins.data f hdata.not_table hff hne]

/-- `spawn_mapper` lays its call over the memory of the child. -/
theorem lays_spawnMapper :
    Lays utop.toNat (Spawning L e d c ds child) (imageOf d) (spawnMapper child) := by
  intro k m k' h hsrc hva hfl hrun
  have hlt : m.va < utop := by rwa [BitVec.lt_def]
  obtain ⟨⟨⟩, k₁, halloc, hrun⟩ := Sys.bind_ok hrun
  obtain ⟨-, f, s, ha, hins⟩ := memAlloc_of_run h.target h.dir halloc
  obtain ⟨-, hfree, -, hmem, -⟩ := h.spaces.inv.alloc ha
  have hzero : s.mem f = fun _ => 0#32 := by rw [hmem, Function.update_self]
  rw [← Pmap.setPage_self s f] at hins
  obtain ⟨p, rfl, hinserted, hdata, -, hpage, href, hl⟩ :=
    fresh_of_run h.toFilled ha hlt hfl _ hins
  have hfhead : f ∈ k.pmap.pageFreeList := by
    rw [hfree]
    exact List.mem_cons_self
  cases hc : m.src with
  | none =>
    rw [hc] at hrun
    cases hrun
    refine ⟨h.setPmap hl.kept, fun a hlta => ?_⟩
    refine overlay_of_leaves h.toFilled hfhead hfl hl (fun v hv hout => hv hout.2)
      hinserted.pte (fun o _ => ?_) hlta
    rw [hpage, hzero, Page.byte_zero, MapCall.byte, hc]
  | some bs =>
    rw [hc] at hrun
    obtain ⟨r, k₂, hattempt, hrun⟩ := Sys.bind_ok hrun
    cases r with
    | error x =>
      obtain ⟨r', k₃, -, hthrow⟩ := Sys.bind_ok hrun
      cases hthrow
    | ok u =>
      obtain ⟨⟨⟩, k₃, hcopy, hunmap⟩ := Sys.bind_ok hrun
      have h₁ := h.setPmap hl.kept
      obtain ⟨p', rfl, hpage', hl'⟩ := copy_of_run h₁ (hsrc bs hc) hlt hfl
        (by
          show entryFrame (p.pteOf d m.va) = some f
          rw [hinserted.pte, entryFrame_mkPte f hfl])
        href (attempt_ok hattempt) hcopy hunmap
      have hkept := hl.kept.trans hl'.kept
      refine ⟨h.setPmap hkept, fun a hlta => ?_⟩
      refine overlay_of_leaves (p := p') h.toFilled hfhead hfl
        (P := fun x v => ¬(x = d ∧ vpn v = vpn m.va) ∧ ¬(x = ds ∧ vpn v = vpn utemp))
        ((hl.mono (fun _ _ hP => hP.1) fun _ hX => hX).trans
          (hl'.mono (fun _ _ hP => hP.2) fun _ hX => hX))
        (fun v hv => ⟨fun hout => hv hout.2, fun hout => h.dirs_ne hout.1.symm⟩) ?_
        (fun o ho => ?_) hlta
      · rw [hl'.pte d m.va (hl.kept.dirs d h.isDir.1) hlt fun hout => h.dirs_ne hout.1.symm]
        exact hinserted.pte
      · rw [hpage', show (k.setPmap p).pmap.mem f = s.mem f from hpage, hzero]
        exact byte_of_copy hc (hsrc bs hc) ho

end Spawn

end Mapper

/-! ## The memory of a segment -/

/-- Who loads the segment into the environment `e`. -/
inductive Loader where
  | icode
  | spawn (c : EnvIdx) (ds : Frame) (child : Word)

def Loader.mapPage (e : EnvIdx) : Loader → MapCall → Kern Unit
  | .icode => mapIcode e
  | .spawn _ _ child => spawnMapper child

def Loader.Ready (L : Layout) (e : EnvIdx) (d : Frame) : Loader → Kernel → Prop
  | .icode => Filled L e d
  | .spawn c ds child => Spawning L e d c ds child

theorem Loader.lays (L : Layout) (e : EnvIdx) (d : Frame) (l : Loader) :
    Lays utop.toNat (l.Ready L e d) (imageOf d) (l.mapPage e) := by
  cases l with
  | icode => exact lays_mapIcode
  | spawn c ds child => exact lays_spawnMapper

/-- After a segment was loaded, its bytes are those of the file and zeros, just when it
`Fits`. -/
theorem elfLoadSeg_image (L : Layout) (e : EnvIdx) (d : Frame) (l : Loader) (k k' : Kernel)
    (ph : Phdr) (bin : ℕ → BitVec 8) (hready : l.Ready L e d k)
    (hfm : ph.filesz.toNat ≤ ph.memsz.toNat)
    (htop : ph.vaddr.toNat + ph.memsz.toNat ≤ utop.toNat)
    (hclear : ∀ i < ph.memsz.toNat, imageOf d k (ph.vaddr.toNat + i) = none)
    (hrun : elfLoadSeg (l.mapPage e) ph bin k = .ok (.ok (), k')) :
    (∀ i < ph.memsz.toNat, imageOf d k' (ph.vaddr.toNat + i) = some (ph.expected bin i)) ↔
      ph.Fits bin := by
  have hsmall : utop.toNat < 2 ^ 32 := by decide
  obtain ⟨-, himage⟩ := (l.lays L e d).segment hfm htop hsmall (by decide) hready hrun
  rw [← segmentImage_iff hfm (by omega) hclear]
  refine forall₂_congr fun i hi => ?_
  rw [himage _ (by omega)]

/-- A segment of four bytes of file and four of zeros at a page boundary. -/
theorem elfLoadSeg_image_aligned :
    ∃ k', elfLoadSeg (Loader.icode.mapPage 0) ⟨0x400000#32, 4#32, 8#32⟩ (BitVec.ofNat 8) wideEnv =
        .ok (.ok (), k') ∧
      ((∀ i < 8, imageOf 2000 k' (0x400000 + i) =
          some (Phdr.expected ⟨0x400000#32, 4#32, 8#32⟩ (BitVec.ofNat 8) i)) ↔
        Phdr.Fits ⟨0x400000#32, 4#32, 8#32⟩ (BitVec.ofNat 8)) := by
  have hsome : (accepted (elfLoadSeg (Loader.icode.mapPage 0) ⟨0x400000#32, 4#32, 8#32⟩
      (BitVec.ofNat 8) wideEnv)).isSome = true := by decide +kernel
  obtain ⟨⟨⟨⟩, k'⟩, hk⟩ := Option.isSome_iff_exists.mp hsome
  have hrun := accepted_eq_some.mp hk
  refine ⟨k', hrun, ?_⟩
  have hempty : ∀ i < 8, imageOf 2000 wideEnv (0x400000 + i) = none := by decide +kernel
  have hlive : wideEnv.Live 0 := fun h => by cases h
  exact elfLoadSeg_image (Pmap.privateLayout {2000} (keptAbove 1100)) 0 2000 .icode wideEnv k'
    ⟨0x400000#32, 4#32, 8#32⟩ (BitVec.ofNat 8) ⟨wideEnv_spaces, hlive, rfl⟩ (by decide) (by decide)
    hempty hrun

/-- The same segment sixteen bytes further: its zero part replaces the page with the bytes
of the file. -/
theorem elfLoadSeg_image_fails :
    ∃ k', (Loader.icode).Ready (Pmap.privateLayout {2000} (keptAbove 1100)) 0 2000 wideEnv ∧
      (∀ i < 8, imageOf 2000 wideEnv (0x400010 + i) = none) ∧
      elfLoadSeg (Loader.icode.mapPage 0) ⟨0x400010#32, 4#32, 8#32⟩
        (fun n => BitVec.ofNat 8 (n + 1)) wideEnv = .ok (.ok (), k') ∧
      ¬∀ i < 8, imageOf 2000 k' (0x400010 + i) =
        some (Phdr.expected ⟨0x400010#32, 4#32, 8#32⟩ (fun n => BitVec.ofNat 8 (n + 1)) i) := by
  have hbyte : (accepted (elfLoadSeg (Loader.icode.mapPage 0) ⟨0x400010#32, 4#32, 8#32⟩
      (fun n => BitVec.ofNat 8 (n + 1)) wideEnv)).map (fun x => imageOf 2000 x.2 0x400010) =
        some (some 0#8) := by decide +kernel
  obtain ⟨⟨⟨⟩, k'⟩, hk, hzero⟩ := Option.map_eq_some_iff.mp hbyte
  have hempty : ∀ i < 8, imageOf 2000 wideEnv (0x400010 + i) = none := by decide +kernel
  have hlive : wideEnv.Live 0 := fun h => by cases h
  refine ⟨k', ⟨wideEnv_spaces, hlive, rfl⟩, hempty, accepted_eq_some.mp hk, fun h => ?_⟩
  have h0 := h 0 (by decide)
  rw [Nat.add_zero, hzero] at h0
  exact absurd h0 (by decide)

end Kern
end RvMos
