/-
Address spaces.

`Spaces L k` says that the page structures of the kernel are those of a forest
`L`, and that every live environment has a directory of its own in it, which
owns all entries below `UTOP`.  `base_pgdir` is the template from which new
directories are copied.

The calls on memory and the page of a message change the page structures by
`page_alloc`, `page_insert` and `page_remove` only.  Each call has one lemma
that says which of these it made; what they do to a forest is known from
`pageInsert_spec` and `pageRemove_spec`.
-/
import RvMos.Kern.PageHistory
import RvMos.Kern.Messages

namespace RvMos

open Lib

/-! ## Owned entries -/

/-- The entries that no directory takes from the template: those of the user and
the window on the page tables. -/
def Personal (i : Index) : Prop := i < pdx utop ∨ i = pdx uvpt

instance (i : Index) : Decidable (Personal i) :=
  inferInstanceAs (Decidable (i < pdx utop ∨ i = pdx uvpt))

/-- The entries that `env_free` visits. -/
def Visited (i : Index) : Prop := Pmap.freeSkips i = false ∧ i.val < 1023

theorem personal_of_lt {va : Word} (h : va < utop) : Personal (pdx va) := by
  have hlt : va.toNat < 0x7f400000 := h
  have hu : (pdx utop).val = 509 := by decide
  have hv := pdx_val va
  refine .inl ?_
  show (pdx va).val < (pdx utop).val
  omega

theorem lt_utop_of_vpn {va va' : Word} (h : vpn va = vpn va') (hva : va' < utop) : va < utop := by
  have hv := congrArg BitVec.toNat h
  rw [vpn_toNat, vpn_toNat] at hv
  have hlt : va'.toNat < 0x7f400000 := hva
  show va.toNat < 0x7f400000
  omega

namespace Pmap

section Own

variable {L : Layout} {s s' : Pmap} {d : Frame}

theorem not_shared_of_owned (hF : s.Forest L) {t : Frame} {i : Index} (hown : L.own d i)
    (ht : s.tableOf d i = some t) : ¬L.shared t := by
  intro hsh
  have hb := hF.table_base (d, i) t ((pdeView_of_own hown).trans ht)
  have hpos := L.shared_base t hsh
  omega

/-- Entries of an owned table are counted. -/
theorem counted_of_own (hF : s.Forest L) {va : Word} (hown : L.own d (pdx va)) :
    s.Counted L d va := fun t ht hp =>
  not_shared_of_owned hF hown ht (L.plain_shared t _ hp)

/-- An owned entry governs the addresses of one page of one directory. -/
theorem sameSlot_of_own (hF : s.Forest L) {d' : Frame} {va va' : Word}
    (hown : L.own d (pdx va)) (hd' : s.Dir L d') (h : s.SameSlot d va d' va') :
    d' = d ∧ vpn va' = vpn va := by
  obtain ⟨t, ht, ht', hx⟩ := h
  rcases hd'.entries (pdx va') with hown' | ⟨u, hu, hm⟩
  · obtain ⟨rfl, hi⟩ := tableOf_inj hF hown hown' ht ht'
    exact ⟨rfl, vpn_eq_iff.mpr ⟨hi.symm, hx.symm⟩⟩
  · rw [tableOf, hm, entryFrame_mkPte u flagOnly_zero] at ht'
    obtain rfl := Option.some.inj ht'
    exact absurd hu (not_shared_of_owned hF hown ht)

/-- A mapped frame is not free. -/
theorem not_free_of_mapped (hI : s.Inv L) (hd : s.Dir L d) {va : Word} (hc : s.Counted L d va)
    {pp : Frame} (hf : entryFrame (s.pteOf d va) = some pp) :
    pp ∉ s.pageFreeList ∧ s.ppRef pp ≠ 0 := by
  cases ht : s.tableOf d (pdx va) with
  | none =>
    rw [pteOf, ht, entryFrame_zero] at hf
    exact absurd hf (by simp)
  | some t =>
    obtain ⟨htab, hm⟩ := hd.isTable hI.toForest ht
    rw [pteOf_of_table hm] at hf
    have hpos := Forest.refs_pos_of_pte htab (hc t ht) hf
    exact ⟨hI.not_free_of_refs (by omega), ppRef_ne_zero hI htab (hc t ht) hf⟩

theorem Dir.not_free (hI : s.Inv L) (hd : s.Dir L d) : d ∉ s.pageFreeList :=
  hI.not_free_of_refs (Nat.lt_of_lt_of_le hd.held (Nat.le_add_right _ _))

theorem table_not_free (hI : s.Inv L) {t : Frame} (ht : s.IsTable L t) : t ∉ s.pageFreeList := by
  intro hf
  obtain ⟨hb, hr⟩ := hI.free_unref t hf
  exact not_isTable_of_unref hb hr ht

/-- A frame of data, neither kept back nor a table. -/
structure Data (L : Layout) (s : Pmap) (f : Frame) : Prop where
  base : L.base f = 0
  not_table : ¬s.IsTable L f

/-- A directory that owns its personal entries and has data behind those below
`UTOP`. -/
structure UserDir (L : Layout) (s : Pmap) (d : Frame) : Prop where
  own : ∀ i, Personal i → L.own d i
  data : ∀ va f, va < utop → entryFrame (s.pteOf d va) = some f → s.Data L f

theorem data_of_alloc (hI : s.Inv L) {f : Frame} (ha : s.pageAlloc = .ok (f, s')) :
    s'.Data L f := by
  obtain ⟨-, -, -, -, hpde, -, hb, hr⟩ := hI.alloc ha
  refine ⟨hb, fun h => ?_⟩
  rw [isTable_congr hpde] at h
  exact not_isTable_of_unref hb hr h

theorem not_free_of_alloc (hI : s.Inv L) {f : Frame} (ha : s.pageAlloc = .ok (f, s')) :
    f ∉ s'.pageFreeList := by
  have hnd := hI.free_nodup
  rw [(hI.alloc ha).2.1] at hnd
  exact (List.nodup_cons.mp hnd).1

/-- New tables come from the free list. -/
theorem Data.insert {f pp : Frame} {va perm : Word} (h : s.Data L f) (hf : f ∉ s.pageFreeList)
    (hins : s.Inserted L d pp va perm s') : s'.Data L f :=
  ⟨h.base, fun ht => (hins.table f ht).elim h.not_table hf⟩

/-- A frame that is held and is neither a directory nor a table. -/
structure Held (L : Layout) (f : Frame) : Prop where
  base : 0 < L.base f
  not_own : ∀ i, ¬L.own f i
  not_shared : ¬L.shared f

theorem held_private {dirs kept : Finset Frame} {f : Frame} (hk : f ∈ kept) (hd : f ∉ dirs) :
    Held (privateLayout dirs kept) f := by
  refine ⟨?_, fun _ h => hd h, id⟩
  simp only [privateLayout, if_pos (Or.inr hk)]
  exact Nat.one_pos

theorem Held.not_isTable (hF : s.Forest L) {f : Frame} (h : Held L f) : ¬s.IsTable L f := by
  rintro (hsh | ⟨x, hx⟩)
  · exact h.not_shared hsh
  · have hb := hF.table_base x f hx
    have hpos := h.base
    omega

theorem Held.not_free (hI : s.Inv L) {f : Frame} (h : Held L f) : f ∉ s.pageFreeList :=
  hI.not_free_of_refs (Nat.lt_of_lt_of_le h.base (Nat.le_add_right _ _))

/-- The forest goes on: directories stay directories with the tables they have,
held frames keep their contents, and entries of shared tables are library entries
or not as they were. -/
structure Kept (L : Layout) (s s' : Pmap) : Prop where
  inv : s'.Inv L
  dirs : ∀ d, s.Dir L d → s'.Dir L d
  tables : ∀ d i t, s.Dir L d → s.tableOf d i = some t → s'.tableOf d i = some t
  held : ∀ f, Held L f → s'.mem f = s.mem f
  user : ∀ d, s.Dir L d → UserDir L s d → UserDir L s' d
  library : ∀ t j, L.shared t → s'.mem t j &&& pteLibrary = s.mem t j &&& pteLibrary

theorem Kept.refl (hI : s.Inv L) : Kept L s s :=
  ⟨hI, fun _ h => h, fun _ _ _ _ h => h, fun _ _ => rfl, fun _ _ h => h, fun _ _ _ => rfl⟩

theorem Kept.trans {s'' : Pmap} (h : Kept L s s') (h' : Kept L s' s'') : Kept L s s'' :=
  ⟨h'.inv, fun d hd => h'.dirs d (h.dirs d hd),
    fun d i t hd ht => h'.tables d i t (h.dirs d hd) (h.tables d i t hd ht),
    fun f hf => (h'.held f hf).trans (h.held f hf),
    fun d hd hu => h'.user d (h.dirs d hd) (h.user d hd hu),
    fun t j ht => (h'.library t j ht).trans (h.library t j ht)⟩

theorem Kept.counted (hF : s.Forest L) (h : Kept L s s') (hd : s.Dir L d) {va : Word}
    (hc : s.Counted L d va) : s'.Counted L d va := by
  cases ht : s.tableOf d (pdx va) with
  | none => exact counted_of_own h.inv.toForest (hd.none hF ht).1
  | some t =>
    intro u hu
    rw [h.tables d _ t hd ht] at hu
    exact Option.some.inj hu ▸ hc t ht

/-- Entries that lead to shared tables stay. -/
theorem Kept.word (h : Kept L s s') (hd : s.Dir L d) (i : Index) :
    L.own d i ∨ s'.mem d i = s.mem d i := by
  rcases hd.entries i with hown | ⟨t, -, hm⟩
  · exact .inl hown
  · have ht : s.tableOf d i = some t := by rw [tableOf, hm, entryFrame_mkPte t flagOnly_zero]
    have ht' := h.tables d i t hd ht
    rcases (h.dirs d hd).entries i with hown | ⟨u, -, hm'⟩
    · exact .inl hown
    · rw [tableOf, hm', entryFrame_mkPte u flagOnly_zero] at ht'
      rw [hm, hm', Option.some.inj ht']
      exact .inr rfl

/-- Entries that are not library entries stay so, unless their table is the
directory's own. -/
theorem Kept.libraryClear (h : Kept L s s') (hd : s.Dir L d) {va : Word}
    (hb : L.own d (pdx va) ∨ s.pteOf d va &&& pteLibrary = 0#32) :
    L.own d (pdx va) ∨ s'.pteOf d va &&& pteLibrary = 0#32 := by
  rcases hd.entries (pdx va) with hown | ⟨t, hsh, hm⟩
  · exact .inl hown
  · have ht : s.tableOf d (pdx va) = some t := by
      rw [tableOf, hm, entryFrame_mkPte t flagOnly_zero]
    refine hb.imp id fun hb => ?_
    rw [pteOf, ht] at hb
    rw [pteOf, h.tables d _ t hd ht]
    exact (h.library t _ hsh).trans hb

theorem kept_insert (hI : s.Inv L) {pp : Frame} {va perm : Word} {i : Index}
    (hd : s.Dir L d) (hown : L.own d i) (hfl : FlagOnly perm) (hpp : va < utop → s'.Data L pp)
    (hlib : L.own d (pdx va) ∨ s.pteOf d va &&& pteLibrary = perm &&& pteLibrary)
    (h : s.Inserted L d pp va perm s') : Kept L s s' := by
  refine ⟨h.inv, fun d' hd' => (h.dirs d' hd').1, fun d' j t hd' ht => ?_, fun f hf => ?_,
    fun d' hd' hu => ⟨hu.own, fun va' f hva' hf => ?_⟩, fun t j ht => ?_⟩
  · by_cases heq : (d', j) = (d, pdx va)
    · obtain ⟨rfl, rfl⟩ := Prod.mk.injEq .. ▸ heq
      exact h.kept t ht
    · rw [(h.dirs d' hd').2 j heq, ht]
  · refine h.data f (hf.not_isTable hI.toForest) (hf.not_free hI) fun e => ?_
    exact hf.not_own i (e ▸ hown)
  · have hown' := hu.own _ (personal_of_lt hva')
    by_cases hslot : s'.SameSlot d va d' va'
    · -- the entry that was stored
      obtain ⟨t, ht, ht', hx⟩ := hslot
      have hv := (sameSlot_of_own h.inv.toForest hown' (h.dirs d hd).1 ⟨t, ht', ht, hx.symm⟩).2
      have hpte : s'.pteOf d' va' = s'.pteOf d va := by rw [pteOf, pteOf, ht, ht', hx]
      rw [hpte, h.pte, entryFrame_mkPte pp hfl] at hf
      rw [← Option.some.inj hf]
      exact hpp (lt_utop_of_vpn hv hva')
    · rw [h.other d' va' hd' hslot] at hf
      have hdata := hu.data va' f hva' hf
      have hfree := not_free_of_mapped hI hd' (counted_of_own hI.toForest hown') hf
      exact hdata.insert hfree.1 h
  · by_cases hslot : s.tableOf d (pdx va) = some t ∧ j = ptx va
    · obtain ⟨htd, rfl⟩ := hslot
      have hlib := hlib.resolve_left fun ho => not_shared_of_owned hI.toForest ho htd ht
      have hpte : s.pteOf d va = s.mem t (ptx va) := by rw [pteOf, htd]
      have hpte' : s'.mem t (ptx va) = mkPte pp perm := by
        rw [← h.pte, pteOf, h.kept t htd]
      rw [hpte', mkPte_and_flags pp perm (by decide) (by decide), ← hlib, hpte]
    · rw [h.words t j (.inl ht) fun htd hj => hslot ⟨htd, hj⟩]

theorem kept_remove (hI : s.Inv L) {va : Word} (hd : s.Dir L d)
    (hlib : L.own d (pdx va) ∨ s.pteOf d va &&& pteLibrary = 0#32) (h : s.Removed L d va s') :
    Kept L s s' := by
  refine ⟨h.inv, fun d' hd' => (h.dirs d' hd').1,
    fun d' i t hd' ht => by rw [(h.dirs d' hd').2, ht],
    fun f hf => h.data f (hf.not_isTable hI.toForest),
    fun d' hd' hu => ⟨hu.own, fun va' f hva' hf => ?_⟩, fun t j ht => ?_⟩
  · by_cases hslot : s.SameSlot d va d' va'
    · obtain ⟨t, ht, ht', hx⟩ := hslot
      rw [← (h.dirs d hd).2] at ht
      rw [← (h.dirs d' hd').2] at ht'
      have hpte : s'.pteOf d' va' = s'.pteOf d va := by rw [pteOf, pteOf, ht, ht', hx]
      rw [hpte, h.clear, entryFrame_zero] at hf
      exact absurd hf (by simp)
    · rw [h.other d' va' hd' hslot] at hf
      have hdata := hu.data va' f hva' hf
      exact ⟨hdata.base, fun ht => hdata.not_table ((h.table f).mp ht)⟩
  · by_cases hslot : s.tableOf d (pdx va) = some t ∧ j = ptx va
    · obtain ⟨htd, rfl⟩ := hslot
      have hlib := hlib.resolve_left fun ho => not_shared_of_owned hI.toForest ho htd ht
      have hpte : s.pteOf d va = s.mem t (ptx va) := by rw [pteOf, htd]
      have hpte' : s'.mem t (ptx va) = 0#32 := by
        rw [← h.clear, pteOf, (h.dirs d hd).2, htd]
      rw [hpte', ← hpte, hlib]
      decide
    · rw [h.words t j fun htd hj => hslot ⟨htd, hj⟩]

/-- A change of the contents of frames that are neither directories, tables nor
held. -/
theorem kept_of_mem (hF : s.Forest L) (hI : s'.Inv L) (hpde : s'.pdeView L = s.pdeView L)
    (hmem : ∀ d, 0 < L.base d ∨ s.IsTable L d → s'.mem d = s.mem d) : Kept L s s' := by
  have htab : ∀ d i, s.Dir L d → s'.tableOf d i = s.tableOf d i := by
    intro d i hd
    unfold tableOf
    rw [hmem d (.inl hd.held)]
  refine ⟨hI, fun d hd => hd.congr (hmem d (.inl hd.held)), fun d i t hd ht => ?_, fun f hf =>
    hmem f (.inl hf.base), fun d hd hu => ⟨hu.own, fun va f hva hf => ?_⟩,
    fun t j ht => by rw [hmem t (.inr (.inl ht))]⟩
  · rw [htab d i hd, ht]
  · have hpte : s'.pteOf d va = s.pteOf d va := by
      rw [pteOf, pteOf, htab d _ hd]
      cases ht : s.tableOf d (pdx va) with
      | none => rfl
      | some t => exact congrFun (hmem t (.inr (hd.isTable hF ht).1)) _
    rw [hpte] at hf
    have hdata := hu.data va f hva hf
    exact ⟨hdata.base, fun ht => hdata.not_table ((isTable_congr hpde f).mp ht)⟩

theorem kept_alloc (hI : s.Inv L) {f : Frame} (ha : s.pageAlloc = .ok (f, s')) :
    Kept L s s' := by
  obtain ⟨hI', -, -, hmem, hpde, -, hb, hr⟩ := hI.alloc ha
  refine kept_of_mem hI.toForest hI' hpde fun d hd => ?_
  have hne : d ≠ f := by
    rintro rfl
    exact hd.elim (fun h => by omega) (not_isTable_of_unref hb hr)
  rw [hmem, Function.update_of_ne hne]

theorem Dir.alloc (hI : s.Inv L) {f : Frame} (ha : s.pageAlloc = .ok (f, s'))
    (hd : s.Dir L d) : s'.Dir L d :=
  (kept_alloc hI ha).dirs d hd

end Own

end Pmap

/-! ## Live environments -/

/-- The environment is not free. -/
def Kernel.Live (k : Kernel) (e : EnvIdx) : Prop := (k.envs e).status ≠ .free

theorem Kernel.live_of_status {k : Kernel} {e : EnvIdx} {st : EnvStatus}
    (h : (k.envs e).status = st) (hst : st ≠ .free) : k.Live e := by
  unfold Kernel.Live
  rw [h]
  exact hst

theorem Kernel.live_congr {k k' : Kernel} {c : EnvIdx}
    (h : (k'.envs c).status = (k.envs c).status) : k'.Live c ↔ k.Live c := by
  unfold Kernel.Live
  rw [h]

theorem Kernel.live_setEnv_of_ne {k : Kernel} {e c : EnvIdx} (f : Env → Env) (hc : c ≠ e) :
    (k.setEnv e f).Live c ↔ k.Live c :=
  Kernel.live_congr (by rw [Kernel.setEnv_of_ne f hc])

/-- The environments that live are the same when the changed one stays what it is. -/
theorem Kernel.live_setEnv {k : Kernel} {e : EnvIdx} {f : Env → Env}
    (h : (f (k.envs e)).status ≠ .free ↔ k.Live e) (c : EnvIdx) :
    (k.setEnv e f).Live c ↔ k.Live c := by
  by_cases hc : c = e
  · unfold Kernel.Live
    rw [hc, Kernel.setEnv_self]
    exact h
  · exact Kernel.live_setEnv_of_ne f hc

/-- The template of new directories: personal entries are clear, the others clear
or a shared table.  The tables that `env_free` visits have a library entry, which
keeps them from being given back, and no other entry that is not counted. -/
structure Template (L : Layout) (s : Pmap) (b : Frame) : Prop where
  held : Pmap.Held L b
  entries : ∀ i, s.mem b i = 0#32 ∨ ∃ t, L.shared t ∧ s.mem b i = mkPte t 0#32
  user : ∀ i, Personal i → s.mem b i = 0#32
  kstack : ∀ n < 3, s.Counted L b (kstacktop - BitVec.ofNat 32 ((n + 1) * 4096)) ∧
    s.pteOf b (kstacktop - BitVec.ofNat 32 ((n + 1) * 4096)) &&& pteLibrary = 0#32
  library : ∀ i t, Visited i → s.mem b i = mkPte t 0#32 →
    (∃ j, s.mem t j &&& pteLibrary ≠ 0#32) ∧
      ∀ j, L.plain t j → s.mem t j &&& pteLibrary ≠ 0#32

theorem Template.shared {L : Layout} {s : Pmap} {b : Frame} (h : Template L s b) {i : Index}
    {t : Frame} (ht : s.tableOf b i = some t) : L.shared t ∧ s.mem b i = mkPte t 0#32 := by
  rcases h.entries i with h0 | ⟨u, hu, hm⟩
  · rw [Pmap.tableOf, h0, entryFrame_zero] at ht
    exact absurd ht (by simp)
  · rw [Pmap.tableOf, hm, entryFrame_mkPte u flagOnly_zero] at ht
    exact Option.some.inj ht ▸ ⟨hu, hm⟩

/-- The template looks the same when shared tables keep their library entries. -/
theorem Template.congr {L L' : Layout} {s s' : Pmap} {b : Frame} (h : Template L s b)
    (hheld : Pmap.Held L' b) (hb : s'.mem b = s.mem b) (hsh : ∀ t, L.shared t → L'.shared t)
    (hpl : ∀ t j, L.shared t → L'.plain t j → L.plain t j)
    (hlib : ∀ t j, L.shared t → s'.mem t j &&& pteLibrary = s.mem t j &&& pteLibrary) :
    Template L' s' b := by
  have htab : ∀ i, s'.tableOf b i = s.tableOf b i := fun i => by
    unfold Pmap.tableOf
    rw [hb]
  refine ⟨hheld, fun i => ?_, fun i hi => ?_, fun n hn => ⟨fun t ht hp => ?_, ?_⟩, fun i t hi hm => ?_⟩
  · rw [hb]
    exact (h.entries i).imp id fun ⟨t, ht, hm⟩ => ⟨t, hsh t ht, hm⟩
  · rw [hb]
    exact h.user i hi
  · rw [htab] at ht
    exact (h.kstack n hn).1 t ht (hpl t _ (h.shared ht).1 hp)
  · have hbit := (h.kstack n hn).2
    unfold Pmap.pteOf at hbit ⊢
    rw [htab]
    cases ht : s.tableOf b (pdx (kstacktop - BitVec.ofNat 32 ((n + 1) * 4096))) with
    | none =>
      show 0#32 &&& pteLibrary = 0#32
      decide
    | some t =>
      rw [ht] at hbit
      exact (hlib t _ (h.shared ht).1).trans hbit
  · rw [hb] at hm
    have ht : s.tableOf b i = some t := by
      rw [Pmap.tableOf, hm, entryFrame_mkPte t flagOnly_zero]
    have hst := (h.shared ht).1
    obtain ⟨⟨j, hj⟩, hall⟩ := h.library i t hi hm
    refine ⟨⟨j, by rw [hlib t j hst]; exact hj⟩, fun j hp => ?_⟩
    rw [hlib t j hst]
    exact hall j (hpl t j hst hp)

structure Spaces (L : Layout) (k : Kernel) : Prop where
  inv : k.pmap.Inv L
  template : Template L k.pmap k.basePgdir
  dir : ∀ e, k.Live e → ∃ d, (k.envs e).pgdir = some d ∧ k.pmap.Dir L d ∧
    Pmap.UserDir L k.pmap d
  same : ∀ e d i, k.Live e → (k.envs e).pgdir = some d →
    L.own d i ∨ k.pmap.mem d i = k.pmap.mem k.basePgdir i
  apart : ∀ e e', k.Live e → k.Live e' → (k.envs e).pgdir = (k.envs e').pgdir → e = e'
  cur : ∀ c, k.curenv = some c → k.Live c ∧ k.curPgdir = (k.envs c).pgdir
  recv : ∀ e, (k.envs e).ipcRecving ≠ 0#32 → k.Live e ∧ (k.envs e).ipcDstva < utop

section Spaces

variable {L : Layout} {k : Kernel}

theorem Spaces.setPmap (h : Spaces L k) {p : Pmap} (hp : Pmap.Kept L k.pmap p) :
    Spaces L (k.setPmap p) := by
  have hb : p.mem k.basePgdir = k.pmap.mem k.basePgdir := hp.held _ h.template.held
  refine ⟨hp.inv, h.template.congr h.template.held hb (fun _ h => h) (fun _ _ _ h => h) hp.library,
    fun e he => ?_, fun e d i he hd => ?_, h.apart, h.cur, h.recv⟩
  · obtain ⟨d, hd, hdir, huser⟩ := h.dir e he
    exact ⟨d, hd, hp.dirs d hdir, hp.user d hdir huser⟩
  · obtain ⟨d', hd', hdir, -⟩ := h.dir e he
    obtain rfl := Option.some.inj ((show (k.envs e).pgdir = some d from hd).symm.trans hd')
    show L.own d i ∨ p.mem d i = p.mem k.basePgdir i
    rw [hb]
    rcases hp.word hdir i with hown | hw
    · exact .inl hown
    · rw [hw]
      exact h.same e d i he hd

/-- The directory of a live environment at an address of its own. -/
theorem Spaces.own (h : Spaces L k) {e : EnvIdx} (he : k.Live e) {va : Word} (hva : va < utop) :
    ∃ d, (k.envs e).pgdir = some d ∧ k.pmap.Dir L d ∧ L.own d (pdx va) ∧
      k.pmap.Counted L d va := by
  obtain ⟨d, hd, hdir, huser⟩ := h.dir e he
  have hi := huser.own (pdx va) (personal_of_lt hva)
  exact ⟨d, hd, hdir, hi, Pmap.counted_of_own h.inv.toForest hi⟩

/-- What a live environment has mapped below `UTOP` is data. -/
theorem Spaces.data (h : Spaces L k) {e : EnvIdx} (he : k.Live e) {d f : Frame} {va : Word}
    (hd : (k.envs e).pgdir = some d) (hva : va < utop)
    (hf : entryFrame (k.pmap.pteOf d va) = some f) : k.pmap.Data L f := by
  obtain ⟨d', hd', -, huser⟩ := h.dir e he
  obtain rfl := Option.some.inj (hd.symm.trans hd')
  exact huser.data va f hva hf

theorem lt_utop_of_legal {va : Word} (h : Kern.isIllegalVa va = false) : va < utop := by
  unfold Kern.isIllegalVa at h
  simp only [Bool.or_eq_false_iff, decide_eq_false_iff_not] at h
  exact BitVec.not_le.mp h.2

end Spaces

/-! ## Page functions as procedures -/

namespace Kern

open Sys

section PageProcs

variable {L : Layout} {k : Kernel} {d : Frame} {E : Halt → Prop}

theorem wp_pageAlloc {Q : Except Errno Frame → Kernel → Prop}
    (hnil : k.pmap.pageFreeList = [] → Q (.error .noMem) k)
    (hok : ∀ pp p, k.pmap.pageAlloc = .ok (pp, p) → Q (.ok pp) (k.setPmap p)) :
    pageAlloc.wp Q E k := by
  unfold pageAlloc
  refine wp_onPmap.mpr ⟨fun h hm => ?_, fun r p hm => ?_⟩
  · cases ha : k.pmap.pageAlloc with
    | error e => simp [ha] at hm
    | ok x => simp [ha] at hm
  · cases ha : k.pmap.pageAlloc with
    | error e =>
      simp only [ha, Except.ok.injEq, Prod.mk.injEq] at hm
      obtain ⟨rfl, rfl⟩ := hm
      unfold Pmap.pageAlloc at ha
      cases hl : k.pmap.pageFreeList with
      | nil =>
        rw [hl] at ha
        rw [← Except.error.inj ha]
        exact hnil hl
      | cons f rest => rw [hl] at ha; exact absurd ha (by simp)
    | ok x =>
      simp only [ha, Except.ok.injEq, Prod.mk.injEq] at hm
      obtain ⟨rfl, rfl⟩ := hm
      exact hok _ _ ha

/-- A `page_insert` into a well-kept forest. -/
theorem wp_pageInsert {Q : Except Errno Unit → Kernel → Prop} (hI : k.pmap.Inv L)
    (hd : k.pmap.Dir L d) {pp : Frame} {va perm : Word} (hc : k.pmap.Counted L d va)
    (hfl : FlagOnly perm) (hpp : pp ∉ k.pmap.pageFreeList)
    (hroom : entryFrame (k.pmap.pteOf d va) ≠ some pp → (k.pmap.ppRef pp).toNat < 65535)
    (hok : ∀ p, k.pmap.Inserted L d pp va perm p → Q (.ok ()) (k.setPmap p))
    (herr : k.pmap.pageFreeList = [] → Q (.error .noMem) k) :
    (pageInsert (some d) pp va perm).wp Q E k := by
  have hroom' : entryFrame (k.pmap.pteOf d va) ≠ some pp →
      L.base pp + k.pmap.refs L pp < 65535 := fun hne => by
    rw [← hI.count pp]
    exact hroom hne
  unfold pageInsert dirOf
  rw [wp_bind, wp_pure]
  refine wp_onPmap.mpr ?_
  rcases Pmap.pageInsert_spec hI hd hc hfl hpp hroom' with ⟨p, hr, hins⟩ | ⟨hr, -, hnil⟩
  · refine ⟨fun h hm => ?_, fun r p' hm => ?_⟩
    · rw [hr] at hm
      exact absurd hm (by simp)
    · rw [hr] at hm
      obtain ⟨rfl, rfl⟩ := Prod.mk.inj (Except.ok.inj hm)
      exact hok p hins
  · refine ⟨fun h hm => ?_, fun r p' hm => ?_⟩
    · rw [hr] at hm
      exact absurd hm (by simp)
    · rw [hr] at hm
      obtain ⟨rfl, rfl⟩ := Prod.mk.inj (Except.ok.inj hm)
      exact herr hnil

/-- A permission word without stray bits acts as its flags. -/
theorem pageInsert_flags {pp : Frame} {perm : Word} (h : NoStray perm pp) (pgdir : Option Frame)
    (va : Word) : pageInsert pgdir pp va perm = pageInsert pgdir pp va (perm &&& flagMask) := by
  have hp : ∀ (s : Pmap) (d : Frame),
      s.pageInsert d pp va perm = s.pageInsert d pp va (perm &&& flagMask) := by
    intro s d
    unfold Pmap.pageInsert Pmap.pageInsertNew
    rw [mkPte_noStray h]
  unfold pageInsert
  simp only [hp]

theorem wp_pageRemove {Q : Except Errno Unit → Kernel → Prop} (hI : k.pmap.Inv L)
    (hd : k.pmap.Dir L d) {va : Word} (hc : k.pmap.Counted L d va)
    (hok : ∀ p, k.pmap.Removed L d va p → Q (.ok ()) (k.setPmap p)) :
    (pageRemove (some d) va).wp Q E k := by
  unfold pageRemove dirOf
  rw [wp_bind, wp_pure]
  obtain ⟨p, hr, hrem⟩ := Pmap.pageRemove_spec hI hd hc
  refine wp_onPmap.mpr ⟨fun h hm => ?_, fun r p' hm => ?_⟩
  · rw [hr] at hm
    exact absurd hm (by simp [Except.map])
  · rw [hr] at hm
    obtain ⟨rfl, rfl⟩ := Prod.mk.inj (Except.ok.inj hm)
    exact hok p hrem

/-- `page_lookup` finds the frame of the entry that governs the address. -/
theorem wp_lookup {Q : Except Errno (Option (Frame × PtePtr)) → Kernel → Prop}
    (hI : k.pmap.Inv L) (hd : k.pmap.Dir L d) {va : Word} (hc : k.pmap.Counted L d va)
    (hnone : entryFrame (k.pmap.pteOf d va) = none → Q (.ok none) k)
    (hsome : ∀ pp t, entryFrame (k.pmap.pteOf d va) = some pp →
      k.pmap.tableOf d (pdx va) = some t → Q (.ok (some (pp, ⟨t, ptx va⟩))) k) :
    (pageLookup (some d) va).wp Q E k := by
  refine wp_pageLookup (Pmap.pageLookup_eq hI.toForest hd hc) ?_
  cases hf : entryFrame (k.pmap.pteOf d va) with
  | none => exact hnone hf
  | some pp =>
    cases ht : k.pmap.tableOf d (pdx va) with
    | none =>
      rw [Pmap.pteOf, ht, entryFrame_zero] at hf
      exact absurd hf (by simp)
    | some t => exact hsome pp t hf ht

end PageProcs

end Kern

/-! ## Calls on memory -/

/-- The changes that a call makes to the page structures, all of them at the
page of `va` in directory `d`. -/
inductive Edit (L : Layout) (s : Pmap) (d : Frame) (va : Word) : Pmap → Prop
  | same : Edit L s d va s
  | alloc {pp : Frame} {s₁ : Pmap} : s.pageAlloc = .ok (pp, s₁) → Edit L s d va s₁
  | fresh {pp : Frame} {perm : Word} {s₁ s' : Pmap} : s.pageAlloc = .ok (pp, s₁) →
      FlagOnly perm → s₁.Inserted L d pp va perm s' → Edit L s d va s'
  | insert {pp : Frame} {perm : Word} {s' : Pmap} : s.Data L pp → pp ∉ s.pageFreeList →
      FlagOnly perm → s.Inserted L d pp va perm s' → Edit L s d va s'
  | remove {s' : Pmap} : s.Removed L d va s' → Edit L s d va s'

section Edit

variable {L : Layout} {s s' : Pmap} {d : Frame} {va : Word}

theorem Edit.kept (hI : s.Inv L) (hd : s.Dir L d) (hown : L.own d (pdx va))
    (h : Edit L s d va s') : Pmap.Kept L s s' := by
  cases h with
  | same => exact .refl hI
  | alloc ha => exact Pmap.kept_alloc hI ha
  | fresh ha hfl hins =>
    have hk := Pmap.kept_alloc hI ha
    have hdata := (Pmap.data_of_alloc hI ha).insert (Pmap.not_free_of_alloc hI ha) hins
    exact hk.trans
      (Pmap.kept_insert hk.inv (hk.dirs d hd) hown hfl (fun _ => hdata) (.inl hown) hins)
  | insert hdata hfree hfl hins =>
    exact Pmap.kept_insert hI hd hown hfl (fun _ => hdata.insert hfree hins) (.inl hown) hins
  | remove hrem => exact Pmap.kept_remove hI hd (.inl hown) hrem

/-- Every other translation stays. -/
theorem Edit.other (hI : s.Inv L) (hown : L.own d (pdx va))
    (h : Edit L s d va s') {d' : Frame} {va' : Word} (hd' : s.Dir L d')
    (hne : ¬(d' = d ∧ vpn va' = vpn va)) : s'.pteOf d' va' = s.pteOf d' va' := by
  have hins : ∀ {s₁ : Pmap} {pp : Frame} {perm : Word}, s₁.Dir L d' →
      s₁.Inserted L d pp va perm s' → s'.pteOf d' va' = s₁.pteOf d' va' := by
    intro s₁ pp perm hd₁ hins
    refine hins.other d' va' hd₁ fun hslot => hne ?_
    exact Pmap.sameSlot_of_own hins.inv.toForest hown (hins.dirs d' hd₁).1 hslot
  cases h with
  | same => rfl
  | alloc ha => exact Pmap.pteOf_alloc hI hd' ha va'
  | fresh ha _ h₁ => exact (hins (hd'.alloc hI ha) h₁).trans (Pmap.pteOf_alloc hI hd' ha va')
  | insert _ _ _ h₁ => exact hins hd' h₁
  | remove hrem =>
    exact hrem.other d' va' hd' fun hslot =>
      hne (Pmap.sameSlot_of_own hI.toForest hown hd' hslot)

end Edit

/-- A call changed the page structures at an address below `UTOP` of the live
environment `tgt`, or not at all. -/
def Edited (L : Layout) (k : Kernel) (tgt : Option EnvIdx) (va : Word) (k' : Kernel) : Prop :=
  k' = k ∨ ∃ e d p, tgt = some e ∧ k.Live e ∧ (k.envs e).pgdir = some d ∧ va < utop ∧
    Edit L k.pmap d va p ∧ k' = k.setPmap p

theorem Edited.spaces {L : Layout} {k k' : Kernel} {tgt : Option EnvIdx} {va : Word}
    (h : Spaces L k) (hk : Edited L k tgt va k') : Spaces L k' := by
  rcases hk with rfl | ⟨e, d, p, -, he, hd, hva, hedit, rfl⟩
  · exact h
  · obtain ⟨d', hd', hdir, hown, -⟩ := h.own he hva
    obtain rfl := Option.some.inj (hd.symm.trans hd')
    exact h.setPmap (hedit.kept h.inv hdir hown)

/-- The counter of `pp` has room for one more reference, or the page of `va` in
the directory holds `pp` already. -/
def Pmap.Room (s : Pmap) (pgdir : Option Frame) (pp : Frame) (va : Word) : Prop :=
  ∀ d, pgdir = some d → entryFrame (s.pteOf d va) ≠ some pp → (s.ppRef pp).toNat < 65535

namespace Kern

open Sys

section Calls

variable {L : Layout} {k : Kernel}

/-- Only a missing environment stops a call on memory. -/
theorem wp_target {envid : Word} {checkperm : Bool} {Q : Except Errno EnvIdx → Kernel → Prop}
    (hok : ∀ e, k.target envid checkperm = some e → Q (.ok e) k)
    (herr : ∀ e, Q (.error e) k) : (envid2env envid checkperm).wp Q (· = .wild) k := by
  refine wp_conseq (envid2env_spec envid checkperm k) fun r k' hr => ?_
  obtain ⟨rfl, hres⟩ := hr
  cases r with
  | ok e => exact hok e (hres e rfl)
  | error e => exact herr e

/-- The lookup of an environment that is there. -/
theorem wp_envid2env {envid : Word} {checkperm : Bool} {e : EnvIdx} {E : Halt → Prop}
    {Q : Except Errno EnvIdx → Kernel → Prop} (he : k.target envid checkperm = some e)
    (hQ : Q (.ok e) k) : (envid2env envid checkperm).wp Q E k := by
  have hcur : ∀ {α : Type} {f : EnvIdx → Kern α} {c : EnvIdx}
      {Q : Except Errno α → Kernel → Prop}, k.curenv = some c → (f c).wp Q E k →
      (curenv >>= f).wp Q E k := by
    intro α f c Q hc hf
    unfold curenv
    rw [wp_bind, wp_get_bind, hc]
    exact wp_pure.mpr hf
  unfold Kernel.target at he
  unfold envid2env
  by_cases h0 : envid = 0#32
  · rw [if_pos h0] at he
    rw [if_pos h0]
    unfold curenv
    rw [wp_get_bind, he]
    exact wp_pure.mpr hQ
  · rw [if_neg h0] at he
    rw [if_neg h0]
    dsimp only
    cases checkperm with
    | false =>
      rw [if_neg (by simp)] at he ⊢
      rw [Option.some.inj he]
      exact wp_pure.mpr hQ
    | true =>
      rw [if_pos rfl] at he ⊢
      obtain ⟨c, hc, he⟩ := Option.bind_eq_some_iff.mp he
      refine hcur hc ?_
      rw [wp_get_bind]
      split at he
      · exact absurd he (by simp)
      · rename_i hok
        rw [if_neg hok, Option.some.inj he]
        exact wp_pure.mpr hQ

theorem eMemAlloc_edit (h : Spaces L k) {envid va perm : Word}
    (hfl : ∀ pp ∈ k.pmap.pageFreeList.head?, NoStray perm pp) (hlive : ∀ e, k.target envid true = some e → k.Live e) :
    (eMemAlloc envid va perm).wp (fun _ k' => Edited L k (k.target envid true) va k')
      (· = .wild) k := by
  unfold eMemAlloc
  rw [wp_ite]
  refine ⟨fun _ => wp_throw.mpr (.inl rfl), fun hva => ?_⟩
  have hva := lt_utop_of_legal (Bool.eq_false_iff.mpr hva)
  rw [wp_bind]
  refine wp_target (fun e he => ?_) fun _ => .inl rfl
  rw [he]
  have hle := hlive e he
  obtain ⟨d, hd, hdir, hown, -⟩ := h.own hle hva
  simp only
  rw [wp_bind]
  refine wp_pageAlloc (fun _ => .inl rfl) fun pp p ha => ?_
  have hk₁ := Pmap.kept_alloc h.inv ha
  obtain ⟨-, hfree, href, -, -, -, hb, hr⟩ := h.inv.alloc ha
  have hpp : pp ∉ p.pageFreeList := by
    have hnd := h.inv.free_nodup
    rw [hfree] at hnd
    exact (List.nodup_cons.mp hnd).1
  have hzero : (p.ppRef pp).toNat < 65535 := by
    rw [href, h.inv.count pp, hb, hr]
    decide
  simp only
  have hst : NoStray perm pp := hfl pp (by rw [hfree]; rfl)
  rw [wp_get_bind, show ((k.setPmap p).envs e).pgdir = some d from hd, pageInsert_flags hst]
  refine wp_pageInsert (k := k.setPmap p) hk₁.inv (hk₁.dirs d hdir)
    (Pmap.counted_of_own hk₁.inv.toForest hown) (flagOnly_flags perm) hpp (fun _ => hzero) ?_ ?_
  · intro p' hins
    exact .inr ⟨e, d, p', rfl, hle, hd, hva, .fresh ha (flagOnly_flags perm) hins, rfl⟩
  · intro _
    exact .inr ⟨e, d, p, rfl, hle, hd, hva, .alloc ha, rfl⟩

/-- `e_mem_map` between live environments inserts the frame it finds. -/
theorem wp_eMemMap (h : Spaces L k) {srcid srcva dstid dstva perm : Word} {src dst : EnvIdx}
    {d pp : Frame} {Q : Except Errno Unit → Kernel → Prop} {E : Halt → Prop}
    (hs : isIllegalVa srcva = false) (ht : isIllegalVa dstva = false)
    (hsrc : k.target srcid true = some src) (hdst : k.target dstid false = some dst)
    (hlive : k.Live src) (hd : (k.envs src).pgdir = some d)
    (hpp : entryFrame (k.pmap.pteOf d srcva) = some pp)
    (hins : (pageInsert (k.envs dst).pgdir pp dstva perm).wp Q E k) :
    (eMemMap srcid srcva dstid dstva perm).wp Q E k := by
  obtain ⟨d', hd', hdir, -, hc⟩ := h.own hlive (lt_utop_of_legal hs)
  obtain rfl := Option.some.inj (hd.symm.trans hd')
  unfold eMemMap
  rw [if_neg (by rw [hs, ht]; simp), wp_bind]
  refine wp_envid2env hsrc ?_
  simp only
  rw [wp_bind]
  refine wp_envid2env hdst ?_
  simp only
  rw [wp_get_bind, wp_bind, hd]
  refine wp_lookup h.inv hdir hc (fun hn => ?_) fun pp' t hpp' _ => ?_
  · rw [hpp] at hn
    exact absurd hn (by simp)
  · obtain rfl := Option.some.inj (hpp.symm.trans hpp')
    simp only
    rw [wp_get_bind]
    exact hins

theorem eMemMap_edit (h : Spaces L k) {srcid srcva dstid dstva perm : Word}
    (hfl : ∀ src d pp, k.target srcid true = some src → (k.envs src).pgdir = some d →
      entryFrame (k.pmap.pteOf d srcva) = some pp → NoStray perm pp)
    (hsrc : ∀ e, k.target srcid true = some e → k.Live e)
    (hdst : ∀ e, k.target dstid false = some e → k.Live e)
    (hroom : ∀ src dst d pp, k.target srcid true = some src → k.target dstid false = some dst →
      (k.envs src).pgdir = some d → entryFrame (k.pmap.pteOf d srcva) = some pp →
      k.pmap.Room (k.envs dst).pgdir pp dstva) :
    (eMemMap srcid srcva dstid dstva perm).wp
      (fun _ k' => Edited L k (k.target dstid false) dstva k') (· = .wild) k := by
  unfold eMemMap
  rw [wp_ite]
  refine ⟨fun _ => wp_throw.mpr (.inl rfl), fun hva => ?_⟩
  obtain ⟨hs, ht⟩ := Bool.or_eq_false_iff.mp (Bool.eq_false_iff.mpr hva)
  have hs := lt_utop_of_legal hs
  have ht := lt_utop_of_legal ht
  rw [wp_bind]
  refine wp_target (fun src hsrc' => ?_) fun _ => .inl rfl
  simp only
  rw [wp_bind]
  refine wp_target (fun dst hdst' => ?_) fun _ => .inl rfl
  obtain ⟨d, hd, hdir, -, hc⟩ := h.own (hsrc src hsrc') hs
  have hle := hdst dst hdst'
  obtain ⟨d', hd', hdir', hown', hc'⟩ := h.own hle ht
  simp only
  rw [wp_get_bind, wp_bind, hd]
  refine wp_lookup h.inv hdir hc (fun _ => wp_throw.mpr (.inl rfl)) fun pp t hpp _ => ?_
  simp only
  rw [wp_get_bind, hd', hdst', pageInsert_flags (hfl src d pp hsrc' hd hpp)]
  refine wp_pageInsert h.inv hdir' hc' (flagOnly_flags perm)
    (Pmap.not_free_of_mapped h.inv hdir hc hpp).1 ?_ ?_ ?_
  · exact hroom src dst d pp hsrc' hdst' hd hpp d' hd'
  · intro p hins
    have hdata := h.data (hsrc src hsrc') hd hs hpp
    have hfree := Pmap.not_free_of_mapped h.inv hdir hc hpp
    exact .inr ⟨dst, d', p, rfl, hle, hd', ht,
      .insert hdata hfree.1 (flagOnly_flags perm) hins, rfl⟩
  · exact fun _ => .inl rfl

theorem eMemUnmap_edit (h : Spaces L k) {envid va : Word}
    (hlive : ∀ e, k.target envid true = some e → k.Live e) :
    (eMemUnmap envid va).wp (fun _ k' => Edited L k (k.target envid true) va k')
      (· = .wild) k := by
  unfold eMemUnmap
  rw [wp_ite]
  refine ⟨fun _ => wp_throw.mpr (.inl rfl), fun hva => ?_⟩
  have hva := lt_utop_of_legal (Bool.eq_false_iff.mpr hva)
  rw [wp_bind]
  refine wp_target (fun e he => ?_) fun _ => .inl rfl
  have hle := hlive e he
  obtain ⟨d, hd, hdir, hown, hc⟩ := h.own hle hva
  simp only
  rw [wp_get_bind, hd, he]
  refine wp_pageRemove h.inv hdir hc fun p hrem => ?_
  exact .inr ⟨e, d, p, rfl, hle, hd, hva, .remove hrem, rfl⟩

end Calls

end Kern

/-! ## Switches and messages -/

section Switches

variable {L : Layout} {k : Kernel}

/-- `env_run` of a runnable environment. -/
theorem Spaces.ran (h : Spaces L k) {e : EnvIdx} (he : (k.envs e).status = .runnable) :
    Spaces L (Kern.ran k e) := by
  have hfield : ∀ {β : Type} (g : Env → β), (∀ v tf n, g { v with tf := tf, runs := n } = g v) →
      ∀ c, g ((Kern.ran k e).envs c) = g (k.envs c) := by
    intro β g hg c
    obtain ⟨n, hn⟩ := Kern.ran_envs k e c
    rw [hn, hg]
  have hst : ∀ c, (Kern.ran k e).Live c ↔ k.Live c := fun c =>
    Kernel.live_congr (hfield Env.status (fun _ _ _ => rfl) c)
  have hdir : ∀ c, ((Kern.ran k e).envs c).pgdir = (k.envs c).pgdir :=
    hfield Env.pgdir fun _ _ _ => rfl
  have hpmap : (Kern.ran k e).pmap = k.pmap ∧ (Kern.ran k e).basePgdir = k.basePgdir := by
    show (Kern.saved k).pmap = k.pmap ∧ (Kern.saved k).basePgdir = k.basePgdir
    unfold Kern.saved
    cases k.curenv with
    | none => exact ⟨rfl, rfl⟩
    | some c => exact ⟨rfl, rfl⟩
  refine ⟨hpmap.1 ▸ h.inv, ?_, fun c hc => ?_, fun c d i hc hd => ?_, fun c c' hc hc' => ?_,
    fun c hc => ?_, fun c hc => ?_⟩
  · rw [hpmap.1, hpmap.2]
    exact h.template
  · rw [hdir, hpmap.1]
    exact h.dir c ((hst c).mp hc)
  · rw [hdir] at hd
    rw [hpmap.1, hpmap.2]
    exact h.same c d i ((hst c).mp hc) hd
  · rw [hdir, hdir]
    exact h.apart c c' ((hst c).mp hc) ((hst c').mp hc')
  · obtain rfl : e = c := Option.some.inj hc
    exact ⟨(hst e).mpr (Kernel.live_of_status he (by simp)), rfl⟩
  · rw [hfield Env.ipcRecving fun _ _ _ => rfl] at hc
    rw [hst, hfield Env.ipcDstva fun _ _ _ => rfl]
    exact h.recv c hc

/-- A change of the queues, the count and the active frame. -/
theorem Spaces.congr (h : Spaces L k) {k' : Kernel} (hp : k'.pmap = k.pmap)
    (he : k'.envs = k.envs) (hb : k'.basePgdir = k.basePgdir) (hc : k'.curenv = k.curenv)
    (hd : k'.curPgdir = k.curPgdir) : Spaces L k' := by
  refine ⟨hp ▸ h.inv, ?_, ?_, ?_, ?_, ?_, ?_⟩
  · rw [hp, hb]
    exact h.template
  · unfold Kernel.Live
    rw [he, hp]
    exact h.dir
  · unfold Kernel.Live
    rw [he, hp, hb]
    exact h.same
  · unfold Kernel.Live
    rw [he]
    exact h.apart
  · unfold Kernel.Live
    rw [he, hc, hd]
    exact h.cur
  · unfold Kernel.Live
    rw [he]
    exact h.recv

/-- A change of one environment that keeps its directory and does not make it
free or live. -/
theorem Spaces.setEnv (h : Spaces L k) (e : EnvIdx) {f : Env → Env}
    (hd : (f (k.envs e)).pgdir = (k.envs e).pgdir)
    (hl : (f (k.envs e)).status ≠ .free ↔ k.Live e)
    (hr : (f (k.envs e)).ipcRecving ≠ 0#32 → k.Live e ∧ (f (k.envs e)).ipcDstva < utop) :
    Spaces L (k.setEnv e f) := by
  have hlive : ∀ c, (k.setEnv e f).Live c ↔ k.Live c := Kernel.live_setEnv hl
  have hdir : ∀ c, ((k.setEnv e f).envs c).pgdir = (k.envs c).pgdir :=
    k.setEnv_keeps Env.pgdir hd
  refine ⟨h.inv, h.template, fun c hc => ?_, fun c d i hc hd => ?_, fun c c' hc hc' => ?_,
    fun c hc => ?_, fun c hc => ?_⟩
  · rw [hdir]
    exact h.dir c ((hlive c).mp hc)
  · rw [hdir] at hd
    exact h.same c d i ((hlive c).mp hc) hd
  · rw [hdir, hdir]
    exact h.apart c c' ((hlive c).mp hc) ((hlive c').mp hc')
  · rw [hlive, hdir]
    exact h.cur c hc
  · rw [hlive]
    by_cases hce : c = e
    · rw [hce, Kernel.setEnv_self] at hc ⊢
      exact hr hc
    · rw [Kernel.setEnv_of_ne f hce] at hc ⊢
      exact h.recv c hc

end Switches

namespace Kern

open Sys

section Messages

variable {L : Layout} {k : Kernel}

theorem schedule_spaces (h : Spaces L k) (yield : Bool) :
    (schedule yield).wp (fun _ k' => Spaces L k') SchedStop k := by
  refine wp_conseq (schedule_ran yield k) fun r k' hr => ?_
  obtain ⟨-, q, n, e, he, rfl⟩ := hr
  refine Spaces.ran ?_ he
  exact h.congr rfl rfl rfl rfl rfl

theorem eIpcRecv_spaces (h : Spaces L k) (dstva : Word) :
    (eIpcRecv dstva).wp (fun _ k' => Spaces L k') SchedStop k := by
  unfold eIpcRecv
  rw [wp_ite]
  refine ⟨fun _ => wp_throw.mpr h, fun hlegal => ?_⟩
  have hdst : dstva < utop := by
    by_cases h0 : dstva = 0#32
    · rw [h0]
      decide
    · exact lt_utop_of_legal (Bool.eq_false_iff.mpr fun hill => hlegal ⟨h0, hill⟩)
  unfold curenv
  rw [wp_bind, wp_get_bind]
  cases hc : k.curenv with
  | none => exact wp_halt.mpr (.inl rfl)
  | some c =>
    have hlive := (h.cur c hc).1
    simp only [wp_pure, setEnv, wp_modify_bind]
    cases hq : k.envSchedList.remove c with
    | none =>
      refine wp_of (fun r k' hm => ?_) fun _ hm => ?_
      · simp [bind, schedRemove, Kernel.setEnv, hq] at hm
      · simp only [bind, schedRemove, Kernel.setEnv, hq, Except.error.injEq] at hm
        exact .inl hm.symm
    | some q =>
      rw [wp_bind]
      refine wp_schedRemove (q := q) hq ?_
      rw [wp_modify_bind]
      refine schedule_spaces (k := blocked k c dstva q) ?_ true
      refine Spaces.congr (k := k.setEnv c fun v =>
        { v with ipcRecving := 1#32, ipcDstva := dstva, status := .notRunnable }) ?_
        rfl rfl rfl rfl rfl
      exact h.setEnv c rfl ⟨fun _ => hlive, fun _ => by simp⟩ fun _ => ⟨hlive, hdst⟩

theorem delivered_spaces (h : Spaces L k) {c e : EnvIdx} (value perm : Word) (q : TailQueue EnvIdx)
    (hlive : k.Live e) : Spaces L (delivered k c e value perm q) := by
  refine Spaces.congr (k := k.setEnv e fun v =>
    { v with
      ipcValue := value
      ipcFrom := (k.envs c).id
      ipcPerm := pteV ||| perm
      ipcRecving := 0#32
      status := .runnable }) ?_ rfl rfl rfl rfl rfl
  exact h.setEnv e rfl ⟨fun _ => hlive, fun _ => by simp⟩ fun hr => absurd rfl hr

/-- The page of a message goes to the address that the receiver asked for. -/
theorem eIpcTrySend_edit (h : Spaces L k) {envid value srcva perm : Word}
    (hfl : ∀ e c d pp, k.target envid false = some e → (k.envs e).ipcRecving ≠ 0#32 →
      k.curenv = some c → (k.envs c).pgdir = some d →
      entryFrame (k.pmap.pteOf d srcva) = some pp → NoStray perm pp)
    (hroom : ∀ e c d pp, k.target envid false = some e → (k.envs e).ipcRecving ≠ 0#32 →
      k.curenv = some c → (k.envs c).pgdir = some d →
      entryFrame (k.pmap.pteOf d srcva) = some pp →
      k.pmap.Room (k.envs e).pgdir pp (k.envs e).ipcDstva) :
    (eIpcTrySend envid value srcva perm).wp (fun _ k' => k' = k ∨ ∃ e c q,
      k.target envid false = some e ∧ k.curenv = some c ∧ (k.envs e).ipcRecving ≠ 0#32 ∧
      Spaces L (delivered k c e value perm q) ∧
      Edited L (delivered k c e value perm q) (some e) (k.envs e).ipcDstva k') (· = .wild) k := by
  unfold eIpcTrySend
  rw [wp_ite]
  refine ⟨fun _ => wp_throw.mpr (.inl rfl), fun hill => ?_⟩
  rw [wp_bind]
  refine wp_target (fun e he => ?_) fun _ => .inl rfl
  simp only
  rw [wp_get_bind, wp_ite]
  refine ⟨fun _ => wp_throw.mpr (.inl rfl), fun hrecv => ?_⟩
  refine wp_seq (curenv_spec k) (fun c k₂ h₂ => ?_) fun _ _ h₂ => ?_
  · obtain ⟨rfl, c', hc', hcur⟩ := h₂
    obtain rfl := Except.ok.inj hc'
    obtain ⟨hlive, hdst⟩ := h.recv e hrecv
    rw [wp_modify_bind]
    cases hq : k₂.envSchedList.insertTail e with
    | none =>
      refine wp_of (fun r k' hm => ?_) fun _ hm => ?_
      · simp [bind, schedInsertTail, Kernel.setEnv, hq] at hm
      · simp only [bind, schedInsertTail, Kernel.setEnv, hq, Except.error.injEq] at hm
        exact hm.symm
    | some q =>
      rw [wp_bind]
      refine wp_schedInsertTail hq ?_
      show (if srcva ≠ 0#32 then _ else _ : Kern Unit).wp _ _ (delivered k₂ c e value perm q)
      have hsp : Spaces L (delivered k₂ c e value perm q) := delivered_spaces h value perm q hlive
      have hsame : Edited L (delivered k₂ c e value perm q) (some e) (k₂.envs e).ipcDstva
          (delivered k₂ c e value perm q) := .inl rfl
      rw [wp_ite]
      refine ⟨fun h0 => ?_, fun _ => wp_pure.mpr (.inr ⟨e, c, q, he, hcur, hrecv, hsp, hsame⟩)⟩
      have hs : srcva < utop :=
        lt_utop_of_legal (Bool.eq_false_iff.mpr fun hi => hill ⟨h0, hi⟩)
      -- the sender's directory and the receiver's, in the state with the message
      have hlc : (delivered k₂ c e value perm q).Live c := (hsp.cur c hcur).1
      have hle : (delivered k₂ c e value perm q).Live e := by
        simp [Kernel.Live, delivered, Kernel.setEnv]
      have hdirs : ∀ x, ((delivered k₂ c e value perm q).envs x).pgdir = (k₂.envs x).pgdir :=
        delivered_pgdir
      obtain ⟨d, hd, hdir, -, hcnt⟩ := hsp.own hlc hs
      obtain ⟨d', hd', hdir', -, hcnt'⟩ := hsp.own hle hdst
      rw [wp_get_bind, wp_bind, hd]
      refine wp_lookup hsp.inv hdir hcnt ?_ fun pp t hpp _ => ?_
      · exact fun _ => wp_throw.mpr (.inr ⟨e, c, q, he, hcur, hrecv, hsp, hsame⟩)
      · simp only
        rw [wp_get_bind]
        simp only [hd', delivered_dstva]
        refine wp_attempt_seq (R := fun _ k' => Edited L (delivered k₂ c e value perm q) (some e)
          (k₂.envs e).ipcDstva k') ?_ fun r k' hk' =>
            wp_pure.mpr (.inr ⟨e, c, q, he, hcur, hrecv, hsp, hk'⟩)
        rw [pageInsert_flags (hfl e c d pp he hrecv hcur ((hdirs c).symm.trans hd) hpp)]
        refine wp_pageInsert hsp.inv hdir' hcnt' (flagOnly_flags perm)
          (Pmap.not_free_of_mapped hsp.inv hdir hcnt hpp).1 ?_ ?_ ?_
        · exact hroom e c d pp he hrecv hcur ((hdirs c).symm.trans hd) hpp d'
            ((hdirs e).symm.trans hd')
        · intro p hins
          have hdata := hsp.data hlc hd hs hpp
          have hfree := Pmap.not_free_of_mapped hsp.inv hdir hcnt hpp
          exact .inr ⟨e, d', p, rfl, hle, hd', hdst,
            .insert hdata hfree.1 (flagOnly_flags perm) hins, rfl⟩
        · exact fun _ => .inl rfl
  · obtain ⟨-, c, hc, -⟩ := h₂
    exact absurd hc (by simp)

end Messages

end Kern

/-! ## New directories -/

/-- One more directory, which owns the entries in `O`. -/
def Layout.addDir (L : Layout) (p : Frame) (O : Index → Prop) (hp : L.base p = 0) : Layout where
  own d i := L.own d i ∨ d = p ∧ O i
  shared := L.shared
  plain := L.plain
  base := Function.update L.base p 1
  dir_base d i h := by
    by_cases hd : d = p
    · rw [hd, Function.update_self]
      exact Nat.one_pos
    · rw [Function.update_of_ne hd]
      exact L.dir_base d i (h.resolve_right fun h' => hd h'.1)
  shared_base t h := by
    by_cases ht : t = p
    · rw [ht, Function.update_self]
      exact Nat.one_pos
    · rw [Function.update_of_ne ht]
      exact L.shared_base t h
  apart t i h := by
    rintro (hown | ⟨rfl, -⟩)
    · exact L.apart t i h hown
    · have := L.shared_base t h
      omega
  plain_shared := L.plain_shared

namespace Pmap

/-- A copy of frame `b` in frame `p`, counted once. -/
def copyDir (s : Pmap) (p b : Frame) : Pmap :=
  { s.incRef p with mem := Function.update s.mem p (s.mem b) }

/-- The memory of `s'` is that of `s`, but the free frame `p` has become a copy of
the template `b`. -/
structure Copied (L : Layout) (s : Pmap) (b p : Frame) (s' : Pmap) : Prop where
  inv : s.Inv L
  template : Template L s b
  free : p ∈ s.pageFreeList
  other : ∀ f, f ≠ p → s'.mem f = s.mem f
  self : s'.mem p = s.mem b

namespace Copied

variable {L : Layout} {s s' s₁ : Pmap} {p b : Frame}

theorem fresh (h : Copied L s b p s') : L.base p = 0 := (h.inv.free_unref p h.free).1

/-- The layout in which the copy is one more directory.  It owns what is clear in
the template. -/
def layout (h : Copied L s b p s') : Layout := L.addDir p (fun i => s.mem b i = 0#32) h.fresh

theorem own (h : Copied L s b p s') {d : Frame} {i : Index} :
    h.layout.own d i ↔ L.own d i ∨ d = p ∧ s.mem b i = 0#32 := Iff.rfl

theorem own_of_ne (h : Copied L s b p s') {d : Frame} (hd : d ≠ p) {i : Index} :
    h.layout.own d i ↔ L.own d i :=
  h.own.trans ⟨fun ho => ho.resolve_right fun h' => hd h'.1, Or.inl⟩

theorem not_own (h : Copied L s b p s') (i : Index) : ¬L.own p i := not_own_of_base h.fresh i

theorem base_self (h : Copied L s b p s') : h.layout.base p = 1 := Function.update_self ..

theorem base_of_ne (h : Copied L s b p s') {f : Frame} (hf : f ≠ p) :
    h.layout.base f = L.base f := Function.update_of_ne hf ..

theorem ne_of_base (h : Copied L s b p s') {d : Frame} (hd : 0 < L.base d) : d ≠ p := by
  rintro rfl
  have := h.fresh
  omega

theorem not_isTable (h : Copied L s b p s') : ¬s.IsTable L p :=
  not_isTable_of_unref h.fresh (h.inv.free_unref p h.free).2

theorem mem_table (h : Copied L s b p s') {t : Frame} (ht : s.IsTable L t) :
    s'.mem t = s.mem t :=
  h.other t fun heq => h.not_isTable (heq ▸ ht)

/-! The forest is the old one: the copy owns clear entries only. -/

theorem pdeView_eq (h : Copied L s b p s') : s'.pdeView h.layout = s.pdeView L := by
  funext ⟨d, i⟩
  by_cases hd : d = p
  · subst hd
    have hnone : s.pdeView L (d, i) = none := if_neg (h.not_own i)
    rw [hnone]
    unfold pdeView
    split
    · rename_i ho
      have h0 := ((h.own.mp ho).resolve_left (h.not_own i)).2
      show entryFrame (s'.mem d i) = none
      rw [h.self, h0, entryFrame_zero]
    · rfl
  · by_cases ho : L.own d i
    · rw [pdeView_of_own ho, pdeView_of_own ((h.own_of_ne hd).mpr ho), h.other d hd]
    · unfold pdeView
      rw [if_neg ho, if_neg fun h' => ho ((h.own_of_ne hd).mp h')]

theorem isTable_iff (h : Copied L s b p s') {t : Frame} :
    s'.IsTable h.layout t ↔ s.IsTable L t := by
  unfold IsTable
  rw [h.pdeView_eq]
  exact Iff.rfl

theorem pteView_eq (h : Copied L s b p s') : s'.pteView h.layout = s.pteView L := by
  funext x
  unfold pteView
  by_cases hc : s.IsTable L x.1 ∧ ¬L.plain x.1 x.2
  · rw [if_pos hc, if_pos ⟨h.isTable_iff.mpr hc.1, hc.2⟩, h.mem_table hc.1]
  · rw [if_neg hc, if_neg fun h' => hc ⟨h.isTable_iff.mp h'.1, h'.2⟩]

theorem refs_eq (h : Copied L s b p s') (f : Frame) : s'.refs h.layout f = s.refs L f := by
  rw [refs, refs, h.pdeView_eq, h.pteView_eq]

theorem forest (h : Copied L s b p s') : s'.Forest h.layout := by
  refine ⟨fun d i ho => ?_, ?_, fun x t hx => ?_, fun t j ht hpl => ?_⟩
  · rcases h.own.mp ho with ho | ⟨rfl, h0⟩
    · rw [h.other d (h.ne_of_base (L.dir_base d i ho))]
      exact h.inv.pde d i ho
    · rw [h.self, h0]
      exact Or.inl rfl
  · rw [h.pdeView_eq]
    exact h.inv.pde_inj
  · rw [h.pdeView_eq] at hx
    rw [h.base_of_ne fun heq => h.not_isTable (heq ▸ Or.inr ⟨x, hx⟩)]
    exact h.inv.table_base x t hx
  · rw [h.mem_table (h.isTable_iff.mp ht)]
    exact h.inv.pte t j (h.isTable_iff.mp ht) hpl

/-! ## Directories after the copy -/

/-- Old directories keep their words, so they stay directories. -/
theorem dir (h : Copied L s b p s') {d : Frame} (hd : s.Dir L d) : s'.Dir h.layout d := by
  have hne := h.ne_of_base hd.held
  refine ⟨?_, hd.not_shared, fun i => ?_⟩
  · rw [h.base_of_ne hne]
    exact hd.held
  · rw [h.other d hne]
    exact (hd.entries i).imp Or.inl id

theorem pteOf_eq (h : Copied L s b p s') {d : Frame} (hd : s.Dir L d) (va : Word) :
    s'.pteOf d va = s.pteOf d va := by
  have htab : s'.tableOf d (pdx va) = s.tableOf d (pdx va) := by
    unfold tableOf
    rw [h.other d (h.ne_of_base hd.held)]
  unfold pteOf
  rw [htab]
  cases ht : s.tableOf d (pdx va) with
  | none => rfl
  | some t =>
    show s'.mem t (ptx va) = s.mem t (ptx va)
    rw [h.mem_table (hd.isTable h.inv.toForest ht).1]

theorem userDir (h : Copied L s b p s') {d : Frame} (hd : s.Dir L d) (hu : UserDir L s d) :
    UserDir h.layout s' d := by
  refine ⟨fun i hi => Or.inl (hu.own i hi), fun va f hva hf => ?_⟩
  rw [h.pteOf_eq hd] at hf
  have hc := counted_of_own h.inv.toForest (hu.own _ (personal_of_lt hva))
  have hfp : f ≠ p := by
    rintro rfl
    exact (not_free_of_mapped h.inv hd hc hf).1 h.free
  have hdata := hu.data va f hva hf
  refine ⟨?_, fun ht => hdata.not_table (h.isTable_iff.mp ht)⟩
  rw [h.base_of_ne hfp, hdata.base]

theorem mem_template (h : Copied L s b p s') : s'.mem b = s.mem b :=
  h.other b (h.ne_of_base h.template.held.base)

theorem keeps_template (h : Copied L s b p s') : Template h.layout s' b := by
  have hb := h.template.held
  have hne := h.ne_of_base hb.base
  have hheld : Held h.layout b := by
    refine ⟨?_, fun i ho => hb.not_own i ((h.own_of_ne hne).mp ho), hb.not_shared⟩
    rw [h.base_of_ne hne]
    exact hb.base
  exact h.template.congr hheld h.mem_template (fun _ ht => ht) (fun _ _ _ hp => hp)
    fun t j ht => by rw [h.mem_table (Or.inl ht)]

/-- The copy has the tables of the template. -/
theorem tableOf_self (h : Copied L s b p s') (i : Index) : s'.tableOf p i = s'.tableOf b i := by
  unfold tableOf
  rw [h.self, h.mem_template]

theorem dir_self (h : Copied L s b p s') : s'.Dir h.layout p := by
  refine ⟨?_, fun hsh => ?_, fun i => ?_⟩
  · rw [h.base_self]
    exact Nat.one_pos
  · have := L.shared_base p hsh
    have := h.fresh
    omega
  · rw [h.self]
    exact (h.template.entries i).imp (fun h0 => Or.inr ⟨rfl, h0⟩) id

theorem userDir_self (h : Copied L s b p s') : UserDir h.layout s' p := by
  refine ⟨fun i hi => Or.inr ⟨rfl, h.template.user i hi⟩, fun va f hva hf => ?_⟩
  have hnone : s'.tableOf p (pdx va) = none := by
    rw [tableOf, h.self, h.template.user _ (personal_of_lt hva), entryFrame_zero]
  rw [pteOf, hnone, entryFrame_zero] at hf
  exact absurd hf (by simp)

theorem kstack (h : Copied L s b p s') {n : Nat} (hn : n < 3) :
    s'.Counted h.layout p (kstacktop - BitVec.ofNat 32 ((n + 1) * 4096)) ∧
      s'.pteOf p (kstacktop - BitVec.ofNat 32 ((n + 1) * 4096)) &&& pteLibrary = 0#32 := by
  have hk := h.keeps_template.kstack n hn
  refine ⟨fun t ht => hk.1 t (by rw [← h.tableOf_self]; exact ht), ?_⟩
  unfold pteOf at hk ⊢
  rw [h.tableOf_self]
  exact hk.2

end Copied

section CopyDir

variable {L : Layout} {s s₁ : Pmap} {p b : Frame}

theorem copied_copyDir (hI : s.Inv L) (ht : Template L s b) (ha : s.pageAlloc = .ok (p, s₁)) :
    Copied L s b p (s₁.copyDir p b) := by
  obtain ⟨-, hfree, -, hmem, -, -, hp, -⟩ := hI.alloc ha
  refine ⟨hI, ht, by rw [hfree]; exact List.mem_cons_self, fun f hf => ?_, ?_⟩
  · show Function.update s₁.mem p (s₁.mem b) f = s.mem f
    rw [Function.update_of_ne hf, hmem, Function.update_of_ne hf]
  · have hbp : b ≠ p := by
      rintro rfl
      have := ht.held.base
      omega
    show Function.update s₁.mem p (s₁.mem b) p = s.mem b
    rw [Function.update_self, hmem, Function.update_of_ne hbp]

/-- A directory copied from the template joins the forest. -/
theorem inv_copyDir (h : Copied L s b p (s₁.copyDir p b)) (ha : s.pageAlloc = .ok (p, s₁)) :
    (s₁.copyDir p b).Inv h.layout := by
  obtain ⟨hI₁, hfree, href, -, -, -, hp, hr⟩ := h.inv.alloc ha
  have hnp : p ∉ s₁.pageFreeList := by
    have hnd := h.inv.free_nodup
    rw [hfree] at hnd
    exact (List.nodup_cons.mp hnd).1
  refine ⟨h.forest, hI₁.free_nodup, fun f hf => ?_, fun f => ?_⟩
  · have hf : f ∈ s₁.pageFreeList := hf
    rw [h.refs_eq, h.base_of_ne fun heq => hnp (heq ▸ hf)]
    exact h.inv.free_unref f (by rw [hfree]; exact List.mem_cons_of_mem _ hf)
  · show ((s₁.incRef p).ppRef f).toNat = _
    rw [h.refs_eq]
    by_cases hf : f = p
    · subst hf
      have hc := h.inv.count f
      rw [hp, hr] at hc
      rw [h.base_self, incRef_self, href, toNat_add_one (by omega), hr]
      omega
    · rw [h.base_of_ne hf, incRef_of_ne (Ne.symm hf), href]
      exact h.inv.count f

end CopyDir

end Pmap

/-- The translations below `UTOP` of the live environments of `k` are the same in
`s'` as in `s`. -/
def Kernel.SameBelow (k : Kernel) (s s' : Pmap) : Prop :=
  ∀ c d va, k.Live c → (k.envs c).pgdir = some d → va < utop → s'.pteOf d va = s.pteOf d va

theorem Kernel.SameBelow.trans {k : Kernel} {s s' s'' : Pmap} (h : k.SameBelow s s')
    (h' : k.SameBelow s' s'') : k.SameBelow s s'' := fun c d va hc hd hva =>
  (h' c d va hc hd hva).trans (h c d va hc hd hva)

/-- The environment `e` is free and has a directory `p` that nobody else has. -/
structure Newborn (L : Layout) (k : Kernel) (e : EnvIdx) (p : Frame) : Prop where
  spaces : Spaces L k
  dead : ¬k.Live e
  pgdir : (k.envs e).pgdir = some p
  dir : k.pmap.Dir L p
  user : Pmap.UserDir L k.pmap p
  same : ∀ i, L.own p i ∨ k.pmap.mem p i = k.pmap.mem k.basePgdir i
  kstack : ∀ n < 3, k.pmap.Counted L p (kstacktop - BitVec.ofNat 32 ((n + 1) * 4096)) ∧
    (L.own p (pdx (kstacktop - BitVec.ofNat 32 ((n + 1) * 4096))) ∨
      k.pmap.pteOf p (kstacktop - BitVec.ofNat 32 ((n + 1) * 4096)) &&& pteLibrary = 0#32)
  new : ∀ c, k.Live c → (k.envs c).pgdir ≠ some p

section Newborn

variable {L : Layout} {k : Kernel} {e : EnvIdx} {p : Frame}

theorem Newborn.setPmap (h : Newborn L k e p) {s : Pmap} (hs : Pmap.Kept L k.pmap s) :
    Newborn L (k.setPmap s) e p := by
  have hF := h.spaces.inv.toForest
  refine ⟨h.spaces.setPmap hs, h.dead, h.pgdir, hs.dirs p h.dir, hs.user p h.dir h.user,
    fun i => ?_, fun n hn => ⟨hs.counted hF h.dir (h.kstack n hn).1,
      hs.libraryClear h.dir (h.kstack n hn).2⟩, h.new⟩
  show L.own p i ∨ s.mem p i = s.mem k.basePgdir i
  rw [hs.held _ h.spaces.template.held]
  rcases hs.word h.dir i with hown | hw
  · exact .inl hown
  · rw [hw]
    exact h.same i

/-- Fields of the newborn that the address spaces do not see. -/
theorem Newborn.setEnv (h : Newborn L k e p) {f : Env → Env}
    (hd : (f (k.envs e)).pgdir = (k.envs e).pgdir)
    (hs : (f (k.envs e)).status = (k.envs e).status)
    (hr : (f (k.envs e)).ipcRecving = (k.envs e).ipcRecving) : Newborn L (k.setEnv e f) e p := by
  have hlive : ∀ c, (k.setEnv e f).Live c ↔ k.Live c := Kernel.live_setEnv (by rw [hs]; rfl)
  refine ⟨h.spaces.setEnv e hd (by rw [hs]; rfl) fun hne => ?_, fun hl => h.dead ((hlive e).mp hl),
    ?_, h.dir, h.user, h.same, h.kstack, fun c hc => ?_⟩
  · rw [hr] at hne
    exact absurd (h.spaces.recv e hne).1 h.dead
  · rw [Kernel.setEnv_self, hd]
    exact h.pgdir
  · rw [hlive] at hc
    rw [Kernel.setEnv_of_ne _ fun heq : c = e => h.dead (heq ▸ hc)]
    exact h.new c hc

theorem Newborn.congr (h : Newborn L k e p) {k' : Kernel} (hp : k'.pmap = k.pmap)
    (he : k'.envs = k.envs) (hb : k'.basePgdir = k.basePgdir) (hc : k'.curenv = k.curenv)
    (hd : k'.curPgdir = k.curPgdir) : Newborn L k' e p := by
  refine ⟨h.spaces.congr hp he hb hc hd, ?_, ?_, hp ▸ h.dir, hp ▸ h.user, ?_, hp ▸ h.kstack, ?_⟩
  · unfold Kernel.Live
    rw [he]
    exact h.dead
  · rw [he]
    exact h.pgdir
  · rw [hp, hb]
    exact h.same
  · unfold Kernel.Live
    rw [he]
    exact h.new

/-- The newborn becomes live. -/
theorem Newborn.enliven (h : Newborn L k e p) {f : Env → Env}
    (hd : (f (k.envs e)).pgdir = (k.envs e).pgdir)
    (hr : (f (k.envs e)).ipcRecving = (k.envs e).ipcRecving) : Spaces L (k.setEnv e f) := by
  have hlive : ∀ c, c ≠ e → ((k.setEnv e f).Live c ↔ k.Live c) := fun c hc =>
    Kernel.live_setEnv_of_ne f hc
  have hpd : ((k.setEnv e f).envs e).pgdir = some p := by
    rw [Kernel.setEnv_self, hd, h.pgdir]
  refine ⟨h.spaces.inv, h.spaces.template, fun c hc => ?_, fun c d i hc hd => ?_,
    fun c c' hc hc' heq => ?_, fun c hc => ?_, fun c hc => ?_⟩
  · by_cases hce : c = e
    · rw [hce]
      exact ⟨p, hpd, h.dir, h.user⟩
    · rw [Kernel.setEnv_of_ne f hce]
      exact h.spaces.dir c ((hlive c hce).mp hc)
  · by_cases hce : c = e
    · rw [hce, hpd] at hd
      exact Option.some.inj hd ▸ h.same i
    · rw [Kernel.setEnv_of_ne f hce] at hd
      exact h.spaces.same c d i ((hlive c hce).mp hc) hd
  · by_cases hce : c = e
    · by_cases hce' : c' = e
      · rw [hce, hce']
      · rw [hce, hpd, Kernel.setEnv_of_ne f hce'] at heq
        exact absurd heq.symm (h.new c' ((hlive c' hce').mp hc'))
    · by_cases hce' : c' = e
      · rw [hce', hpd, Kernel.setEnv_of_ne f hce] at heq
        exact absurd heq (h.new c ((hlive c hce).mp hc))
      · rw [Kernel.setEnv_of_ne f hce, Kernel.setEnv_of_ne f hce'] at heq
        exact h.spaces.apart c c' ((hlive c hce).mp hc) ((hlive c' hce').mp hc') heq
  · obtain ⟨hl, hcp⟩ := h.spaces.cur c hc
    have hce : c ≠ e := fun heq => h.dead (heq ▸ hl)
    rw [hlive c hce, Kernel.setEnv_of_ne f hce]
    exact ⟨hl, hcp⟩
  · by_cases hce : c = e
    · rw [hce, Kernel.setEnv_self, hr] at hc
      exact absurd (h.spaces.recv e hc).1 h.dead
    · rw [Kernel.setEnv_of_ne f hce] at hc ⊢
      rw [hlive c hce]
      exact h.spaces.recv c hc

theorem Newborn.own_zero (h : Newborn L k e p) : L.own p 0 := h.user.own 0 (by decide)

/-- An insertion into the new directory, also into a shared table, moves no
translation of a live environment below `UTOP`. -/
theorem Newborn.same_of_insert (h : Newborn L k e p) {q : Frame} {va perm : Word} {s : Pmap}
    (hins : k.pmap.Inserted L p q va perm s) : k.SameBelow k.pmap s := by
  intro c d va' hc hd hva'
  obtain ⟨d', hd', hdir', hown', -⟩ := h.spaces.own hc hva'
  obtain rfl := Option.some.inj (hd.symm.trans hd')
  refine hins.other d va' hdir' fun hslot => ?_
  obtain ⟨t, ht, ht', hx⟩ := hslot
  have hpd := Pmap.sameSlot_of_own hins.inv.toForest hown' (hins.dirs p h.dir).1
    ⟨t, ht', ht, hx.symm⟩
  exact h.new c hc (by rw [hd, hpd.1])

theorem Spaces.same_of_alloc (h : Spaces L k) {f : Frame} {s : Pmap}
    (ha : k.pmap.pageAlloc = .ok (f, s)) : k.SameBelow k.pmap s := by
  intro c d va hc hd hva
  obtain ⟨d', hd', hdir, -⟩ := h.own hc hva
  obtain rfl := Option.some.inj (hd.symm.trans hd')
  exact Pmap.pteOf_alloc h.inv hdir ha va

end Newborn

/-- The second layout owns more than the first only where the template of `k` is
clear. -/
def Kernel.Grown (k : Kernel) (L L' : Layout) : Prop :=
  ∀ d i, L'.own d i → L.own d i ∨ k.pmap.mem k.basePgdir i = 0#32

/-- A new directory, copied from the template. -/
theorem Spaces.copyDir {L : Layout} {k : Kernel} (h : Spaces L k) {e : EnvIdx} (he : ¬k.Live e)
    {p : Frame} {s : Pmap} (ha : k.pmap.pageAlloc = .ok (p, s)) :
    ∃ L', k.Grown L L' ∧ Newborn L' ((k.setPmap (s.copyDir p k.basePgdir)).setEnv e fun v =>
        { v with pgdir := some p }) e p ∧
      k.SameBelow k.pmap (s.copyDir p k.basePgdir) := by
  have hcp := Pmap.copied_copyDir h.inv h.template ha
  have hI' := Pmap.inv_copyDir hcp ha
  generalize s.copyDir p k.basePgdir = s' at hcp hI' ⊢
  -- the environment is dead, so the live ones are the same as before
  have hlive : ∀ c, Kernel.Live ((k.setPmap s').setEnv e fun v => { v with pgdir := some p }) c ↔
      k.Live c := Kernel.live_setEnv Iff.rfl
  have henv : ∀ c, k.Live c →
      ((k.setPmap s').setEnv e fun v => { v with pgdir := some p }).envs c = k.envs c := fun c hc =>
    Kernel.setEnv_of_ne _ fun heq : c = e => he (heq ▸ hc)
  have hrec : ∀ c, (((k.setPmap s').setEnv e fun v => { v with pgdir := some p }).envs
      c).ipcRecving = (k.envs c).ipcRecving :=
    (k.setPmap s').setEnv_keeps Env.ipcRecving rfl
  refine ⟨hcp.layout, fun d i => Or.imp id And.right,
    ⟨⟨hI', hcp.keeps_template, fun c hc => ?_, fun c d i hc hd => ?_, fun c c' hc hc' => ?_,
        fun c hc => ?_, fun c hc => ?_⟩,
      fun hl => he ((hlive e).mp hl), ?_, hcp.dir_self, hcp.userDir_self,
      fun i => .inr (congrFun (hcp.self.trans hcp.mem_template.symm) i),
      fun n hn => ⟨(hcp.kstack hn).1, .inr (hcp.kstack hn).2⟩,
      fun c hc => ?_⟩, fun c d va hc hd hva => ?_⟩
  · rw [hlive] at hc
    rw [henv c hc]
    obtain ⟨d, hd, hdir, huser⟩ := h.dir c hc
    exact ⟨d, hd, hcp.dir hdir, hcp.userDir hdir huser⟩
  · rw [hlive] at hc
    rw [henv c hc] at hd
    obtain ⟨d', hd', hdir, -⟩ := h.dir c hc
    obtain rfl := Option.some.inj (hd.symm.trans hd')
    show _ ∨ s'.mem d i = s'.mem k.basePgdir i
    rw [hcp.other d (hcp.ne_of_base hdir.held), hcp.mem_template]
    exact (h.same c d i hc hd).imp Or.inl id
  · rw [hlive] at hc hc'
    rw [henv c hc, henv c' hc']
    exact h.apart c c' hc hc'
  · have hcl := (h.cur c hc).1
    rw [hlive, henv c hcl]
    exact h.cur c hc
  · rw [hrec] at hc
    have hcl := (h.recv c hc).1
    rw [hlive, henv c hcl]
    exact h.recv c hc
  · rw [Kernel.setEnv_self]
  · rw [hlive] at hc
    rw [henv c hc]
    obtain ⟨d, hd, hdir, -⟩ := h.dir c hc
    rw [hd]
    exact fun heq => hcp.ne_of_base hdir.held (Option.some.inj heq)
  · obtain ⟨d', hd', hdir, -⟩ := h.own hc hva
    obtain rfl := Option.some.inj (hd.symm.trans hd')
    exact hcp.pteOf_eq hdir va

namespace Kern

open Sys

section Creation

variable {L : Layout} {k : Kernel} {e : EnvIdx} {p : Frame} {E : Halt → Prop}

/-- Live environments, their fields and their translations are those of `k₀`, and
the same one runs. -/
structure SameLive (k₀ k : Kernel) : Prop where
  live : ∀ c, k.Live c ↔ k₀.Live c
  envs : ∀ c, k₀.Live c → k.envs c = k₀.envs c
  below : k₀.SameBelow k₀.pmap k.pmap
  curenv : k.curenv = k₀.curenv
  active : k.active = k₀.active

theorem SameLive.refl (k : Kernel) : SameLive k k :=
  ⟨fun _ => Iff.rfl, fun _ _ => rfl, fun _ _ _ _ _ _ => rfl, rfl, rfl⟩

theorem SameLive.setPmap {k₀ : Kernel} (h : SameLive k₀ k) {s : Pmap}
    (hs : k.SameBelow k.pmap s) : SameLive k₀ (k.setPmap s) := by
  refine ⟨h.live, h.envs, h.below.trans fun c d va hc hd hva => ?_, h.curenv, h.active⟩
  refine hs c d va ((h.live c).mpr hc) ?_ hva
  rw [h.envs c hc]
  exact hd

theorem SameLive.setEnv {k₀ : Kernel} (h : SameLive k₀ k) (he : ¬k.Live e) {f : Env → Env}
    (hf : (f (k.envs e)).status = (k.envs e).status) : SameLive k₀ (k.setEnv e f) := by
  refine ⟨fun c => (Kernel.live_setEnv (by rw [hf]; rfl) c).trans (h.live c), fun c hc => ?_,
    h.below, h.curenv, h.active⟩
  rw [Kernel.setEnv_of_ne _ fun heq : c = e => he (heq ▸ (h.live c).mpr hc)]
  exact h.envs c hc

theorem SameLive.congr {k₀ k' : Kernel} (h : SameLive k₀ k) (he : k'.envs = k.envs)
    (hp : k'.pmap = k.pmap) (hc : k'.curenv = k.curenv) (ha : k'.active = k.active) :
    SameLive k₀ k' := by
  refine ⟨fun c => ?_, fun c hl => ?_, hp ▸ h.below, hc.trans h.curenv, ha.trans h.active⟩
  · rw [← h.live c]
    unfold Kernel.Live
    rw [he]
  · rw [he]
    exact h.envs c hl

/-- What a fresh page in the directory `p` does to the page structures: the page is
taken off the free list and inserted, where the insertion finds a frame for a
missing table. -/
structure NewPage (L : Layout) (p : Frame) (va perm : Word) (s : Pmap) (q : Frame) (s₁ s' : Pmap) :
    Prop where
  alloc : s.pageAlloc = .ok (q, s₁)
  insert : (s₁.pageInsert p q va perm = .ok (.ok (), s') ∧ s₁.Inserted L p q va perm s') ∨
    (s' = s₁ ∧ s₁.tableOf p (pdx va) = none ∧ s₁.pageFreeList = [])

/-- A fresh page goes into the new directory, or memory is short. -/
theorem wp_newPage {k₀ : Kernel} (h : Newborn L k e p) (hsame : SameLive k₀ k) {va perm : Word}
    (hc : k.pmap.Counted L p va)
    (hlib : L.own p (pdx va) ∨ k.pmap.pteOf p va &&& pteLibrary = 0#32) (hfl : FlagOnly perm)
    (hperm : perm &&& pteLibrary = 0#32) {m : Kern Unit}
    {Q : Except Errno Unit → Kernel → Prop}
    (herr : k.pmap.pageFreeList = [] → Q (.error .noMem) k)
    (hok : ∀ q s₁ s, NewPage L p va perm k.pmap q s₁ s → Newborn L (k.setPmap s) e p →
      SameLive k₀ (k.setPmap s) → m.wp Q E (k.setPmap s)) :
    (do
      let q ← pageAlloc
      let _ ← attempt (pageInsert (some p) q va perm)
      m : Kern Unit).wp Q E k := by
  rw [wp_bind]
  refine wp_pageAlloc herr fun q s₁ ha => ?_
  have hk₁ := Pmap.kept_alloc h.spaces.inv ha
  have h₁ := h.setPmap hk₁
  have hsame₁ := hsame.setPmap (h.spaces.same_of_alloc ha)
  obtain ⟨-, hfree, href, -, -, -, hb, hr⟩ := h.spaces.inv.alloc ha
  have hq : q ∉ s₁.pageFreeList := by
    have hnd := h.spaces.inv.free_nodup
    rw [hfree] at hnd
    exact (List.nodup_cons.mp hnd).1
  have hzero : L.base q + s₁.refs L q < 65535 := by
    have hcount : (s₁.ppRef q).toNat = L.base q + s₁.refs L q := h₁.spaces.inv.count q
    rw [← hcount, href, h.spaces.inv.count q, hb, hr]
    decide
  refine wp_attempt_seq (R := fun _ k' => ∃ s, k' = k.setPmap s ∧ NewPage L p va perm k.pmap q s₁ s ∧
    Newborn L (k.setPmap s) e p ∧ SameLive k₀ (k.setPmap s)) ?_ fun r k' hk' => ?_
  · unfold pageInsert dirOf
    rw [wp_bind, wp_pure]
    refine wp_onPmap.mpr ?_
    show (∀ c, _) ∧ _
    rcases Pmap.pageInsert_spec h₁.spaces.inv h₁.dir
      (hk₁.counted h.spaces.inv.toForest h.dir hc) hfl hq (fun _ => hzero) with
      ⟨s, hr, hins⟩ | ⟨hr, hnone, hnil⟩
    · have hdata := (Pmap.data_of_alloc h.spaces.inv ha).insert hq hins
      refine ⟨fun c hm => absurd (hr.symm.trans hm) (by simp), fun r s' hm => ?_⟩
      obtain ⟨-, rfl⟩ := Prod.mk.inj (Except.ok.inj (hr.symm.trans hm))
      exact ⟨s, rfl, ⟨ha, .inl ⟨hr, hins⟩⟩,
        h₁.setPmap (Pmap.kept_insert h₁.spaces.inv h₁.dir h.own_zero hfl (fun _ => hdata)
          (by rw [hperm]; exact hk₁.libraryClear h.dir hlib) hins),
        hsame₁.setPmap (h₁.same_of_insert hins)⟩
    · refine ⟨fun c hm => absurd (hr.symm.trans hm) (by simp), fun r s' hm => ?_⟩
      obtain ⟨-, rfl⟩ := Prod.mk.inj (Except.ok.inj (hr.symm.trans hm))
      exact ⟨s₁, rfl, ⟨ha, .inr ⟨rfl, hnone, hnil⟩⟩, h₁, hsame₁⟩
  · obtain ⟨s, rfl, hnp, hn, hs⟩ := hk'
    exact hok q s₁ s hnp hn hs

theorem mapStacks_newborn {k₀ : Kernel} (h : Newborn L k e p) (hsame : SameLive k₀ k) {n : Nat}
    (hn : n < 3) :
    (mapStacks p n).wp (fun _ k' => Newborn L k' e p ∧ SameLive k₀ k') E k := by
  have hux : ∀ m < 3, uxstacktop - BitVec.ofNat 32 ((m + 1) * 4096) < utop := by decide
  unfold mapStacks
  have hown := h.user.own _ (personal_of_lt (hux n hn))
  refine wp_newPage h hsame (Pmap.counted_of_own h.spaces.inv.toForest hown) (.inl hown)
    (by decide) (by decide) (fun _ => ⟨h, hsame⟩) fun _ _ s _ hs hsame' => ?_
  obtain ⟨hc, hlib⟩ := hs.kstack n hn
  refine wp_newPage hs hsame' hc hlib (by decide) (by decide) (fun _ => ⟨hs, hsame'⟩)
    fun _ _ s' _ hs' hsame'' => ?_
  exact wp_pure.mpr ⟨hs', hsame''⟩

/-- `env_setup_vm` gives a free environment a directory; when memory is short
the directory is lost. -/
theorem envSetupVm_newborn (h : Spaces L k) (he : ¬k.Live e) :
    (envSetupVm e).wp (fun r k' => SameLive k k' ∧ match r with
      | .ok _ => ∃ L' p, k.Grown L L' ∧ Newborn L' k' e p
      | .error _ => ∃ L', k.Grown L L' ∧ Spaces L' k') E k := by
  unfold envSetupVm
  rw [wp_bind]
  refine wp_pageAlloc (fun _ => ⟨.refl k, L, fun _ _ => .inl, h⟩) fun p s ha => ?_
  simp only
  rw [wp_modify_bind, wp_modify_bind]
  obtain ⟨L', hgrown, hnew, hbelow⟩ := h.copyDir he ha
  show (each (mapStacks p) [0, 1, 2]).wp _ _ ((k.setPmap (s.copyDir p k.basePgdir)).setEnv e
    fun v => { v with pgdir := some p })
  generalize hk₁ : ((k.setPmap (s.copyDir p k.basePgdir)).setEnv e
    fun v => { v with pgdir := some p }) = k₁ at hnew
  have hsame : SameLive k k₁ := by
    rw [← hk₁]
    exact ((SameLive.refl k).setPmap hbelow).setEnv he rfl
  refine wp_conseq (Q := fun _ k' => Newborn L' k' e p ∧ SameLive k k') ?_ fun r k' hr => ?_
  · have hround : ∀ n < 3, ∀ k', Newborn L' k' e p ∧ SameLive k k' →
        (mapStacks p n).wp (fun _ k' => Newborn L' k' e p ∧ SameLive k k') E k' :=
      fun n hn k' hk' => mapStacks_newborn hk'.1 hk'.2 hn
    simp only [each]
    refine wp_seq (hround 0 (by decide) _ ⟨hnew, hsame⟩) (fun _ k₂ h₂ => ?_) fun _ _ h₂ => h₂
    refine wp_seq (hround 1 (by decide) _ h₂) (fun _ k₃ h₃ => ?_) fun _ _ h₃ => h₃
    exact wp_seq (hround 2 (by decide) _ h₃) (fun _ k₄ h₄ => wp_pure.mpr h₄) fun _ _ h₄ => h₄
  · refine ⟨hr.2, ?_⟩
    cases r with
    | ok _ => exact ⟨L', p, hgrown, hr.1⟩
    | error _ => exact ⟨L', hgrown, hr.1.spaces⟩

/-- The rest of `env_alloc` fills in fields of the newborn. -/
def Nurses (k₀ : Kernel) (e : EnvIdx) (k k' : Kernel) : Prop :=
  ∀ L p, Newborn L k e p ∧ SameLive k₀ k → Newborn L k' e p ∧ SameLive k₀ k'

instance (k₀ : Kernel) (e : EnvIdx) : IsPreorder Kernel (Nurses k₀ e) where
  refl _ _ _ h := h
  trans _ _ _ h h' L p hk := h' L p (h L p hk)

theorem nurses_setEnv {k₀ : Kernel} {f : Env → Env} (hd : ∀ v, (f v).pgdir = v.pgdir)
    (hs : ∀ v, (f v).status = v.status) (hr : ∀ v, (f v).ipcRecving = v.ipcRecving) :
    Keeps (Nurses k₀ e) E (Kern.setEnv e f) :=
  keeps_modify fun _ _ _ h => ⟨h.1.setEnv (hd _) (hs _) (hr _), h.2.setEnv h.1.dead (hs _)⟩

theorem nurses_modify {k₀ : Kernel} {f : Kernel → Kernel} (hp : ∀ k, (f k).pmap = k.pmap)
    (he : ∀ k, (f k).envs = k.envs) (hb : ∀ k, (f k).basePgdir = k.basePgdir)
    (hc : ∀ k, (f k).curenv = k.curenv) (hd : ∀ k, (f k).curPgdir = k.curPgdir)
    (ha : ∀ k, (f k).active = k.active) : Keeps (Nurses k₀ e) E (modify f : Kern Unit) :=
  keeps_modify fun k _ _ h => ⟨h.1.congr (hp k) (he k) (hb k) (hc k) (hd k),
    h.2.congr (he k) (hp k) (hc k) (ha k)⟩

theorem nurses_asidAlloc {k₀ : Kernel} : Keeps (Nurses k₀ e) E asidAlloc := by
  refine keeps_bind keeps_get fun k => ?_
  dsimp only
  split
  · exact keeps_throw _
  · refine keeps_bind (nurses_modify ?_ ?_ ?_ ?_ ?_ ?_) fun _ => keeps_pure _
    all_goals exact fun _ => rfl

theorem nurses_mkenvid {k₀ : Kernel} : Keeps (Nurses k₀ e) E (mkenvid e) := by
  refine keeps_bind (nurses_modify ?_ ?_ ?_ ?_ ?_ ?_) fun _ => keeps_bind keeps_get fun _ =>
    keeps_pure _
  all_goals exact fun _ => rfl

/-- One step of `env_alloc` on the newborn. -/
theorem wp_nurse {k₀ : Kernel} {α : Type} {m : Kern α} {f : α → Kern EnvIdx}
    {Q : Except Errno EnvIdx → Kernel → Prop} (hm : Keeps (Nurses k₀ e) E m)
    (h : Newborn L k e p ∧ SameLive k₀ k)
    (hok : ∀ a k', Newborn L k' e p ∧ SameLive k₀ k' → (f a).wp Q E k')
    (herr : ∀ c k', Newborn L k' e p ∧ SameLive k₀ k' → Q (.error c) k') : (m >>= f).wp Q E k :=
  wp_seq (hm k) (fun a k' hk' => hok a k' (hk' L p h)) fun c k' hk' => herr c k' (hk' L p h)

/-- `env_alloc` prepares a free environment, or fails with what it has taken
lost.  Live environments see nothing of it. -/
theorem envAlloc_newborn (h : Spaces L k) (hfree : ∀ e ∈ k.envFreeList, ¬k.Live e)
    (parentId : Word) :
    (envAlloc parentId).wp (fun r k' => SameLive k k' ∧ match r with
      | .ok e => ∃ L' p, k.Grown L L' ∧ Newborn L' k' e p
      | .error _ => ∃ L', k.Grown L L' ∧ Spaces L' k') E k := by
  unfold envAlloc
  rw [wp_get_bind]
  cases hl : k.envFreeList with
  | nil => exact wp_throw.mpr ⟨.refl k, L, fun _ _ => .inl, h⟩
  | cons e rest =>
    have he : ¬k.Live e := hfree e (by rw [hl]; exact List.mem_cons_self)
    simp only
    refine wp_seq (envSetupVm_newborn h he) (fun _ k₁ hk₁ => ?_) fun _ _ hk₁ =>
      hk₁
    obtain ⟨hsame, L', p, hgrown, h₁⟩ := hk₁
    have herr : ∀ (c : Errno) k', Newborn L' k' e p ∧ SameLive k k' →
        SameLive k k' ∧ ∃ L', k.Grown L L' ∧ Spaces L' k' := fun _ _ h =>
      ⟨h.2, L', hgrown, h.1.spaces⟩
    refine wp_nurse (nurses_setEnv (by simp) (by simp) (by simp)) ⟨h₁, hsame⟩
      (fun _ k₂ h₂ => ?_) herr
    refine wp_nurse nurses_mkenvid h₂ (fun id k₃ h₃ => ?_) herr
    refine wp_nurse (nurses_setEnv (by simp) (by simp) (by simp)) h₃ (fun _ k₄ h₄ => ?_) herr
    refine wp_nurse nurses_asidAlloc h₄ (fun i k₅ h₅ => ?_) herr
    refine wp_nurse (nurses_setEnv (by simp) (by simp) (by simp)) h₅ (fun _ k₆ h₆ => ?_) herr
    refine wp_nurse (nurses_modify ?_ ?_ ?_ ?_ ?_ ?_) h₆ (fun _ k₇ h₇ => ?_) herr
    rotate_right
    · exact wp_pure.mpr ⟨h₇.2, L', p, hgrown, h₇.1⟩
    all_goals exact fun _ => rfl

/-- Live environments keep their fields and their translations. -/
def Spares (k k' : Kernel) : Prop :=
  (∀ c, k.Live c → k'.envs c = k.envs c) ∧ k.SameBelow k.pmap k'.pmap

theorem SameLive.spares {k' : Kernel} (h : SameLive k k') : Spares k k' := ⟨h.envs, h.below⟩

theorem SameLive.spares_enliven {k' : Kernel} (h : SameLive k k') (he : ¬k'.Live e)
    (f : Env → Env) : Spares k (k'.setEnv e f) := by
  refine ⟨fun c hc => ?_, h.below⟩
  rw [Kernel.setEnv_of_ne _ fun heq : c = e => he (heq ▸ (h.live c).mpr hc)]
  exact h.envs c hc

theorem eExofork_spaces (h : Spaces L k) (hfree : ∀ e ∈ k.envFreeList, ¬k.Live e) :
    eExofork.wp (fun _ k' => (∃ L', k.Grown L L' ∧ Spaces L' k') ∧ Spares k k') (· = .wild) k := by
  unfold eExofork
  refine wp_seq (curenv_spec k) (fun c k₁ hk₁ => ?_) fun _ _ hk₁ => ?_
  · obtain ⟨rfl, -⟩ := hk₁
    rw [wp_get_bind]
    refine wp_seq (envAlloc_newborn h hfree _) (fun e k₂ hk₂ => ?_) fun _ _ hk₂ => ?_
    · obtain ⟨hsame, L', p, hgrown, hnew⟩ := hk₂
      rw [wp_modify_bind, wp_get_bind, wp_pure]
      exact ⟨⟨L', hgrown, hnew.enliven rfl rfl⟩, hsame.spares_enliven hnew.dead _⟩
    · exact ⟨hk₂.2, hk₂.1.spares⟩
  · obtain ⟨-, c, hc, -⟩ := hk₁
    exact absurd hc (by simp)

/-- The segments of a program lie below `UTOP` and have flags only. -/
def Program.Fits (prog : Program) : Prop := ∀ pg ∈ prog.pages, pg.va < utop ∧ FlagOnly pg.perm

/-- A page of a program goes into a fresh frame of its live environment. -/
theorem loadIcodeMapper_spaces (h : Spaces L k) (he : k.Live e) {pg : ProgPage}
    (hva : pg.va < utop) (hfl : FlagOnly pg.perm) :
    (loadIcodeMapper e pg).wp (fun _ k' => Spaces L k' ∧ k'.Live e) E k := by
  obtain ⟨d, hd, hdir, hown, -⟩ := h.own he hva
  unfold loadIcodeMapper
  rw [wp_bind]
  refine wp_pageAlloc (fun _ => ⟨h, he⟩) fun q s ha => ?_
  obtain ⟨hI, hfree, href, -, hpde, hrefs, hb, hr⟩ := h.inv.alloc ha
  have hk₁ := Pmap.kept_alloc h.inv ha
  have hnt : ¬s.IsTable L q := Pmap.not_isTable_of_unref hb (by rw [hrefs, hr])
  -- the contents are written before the frame is mapped
  have hI₂ := hI.setData pg.page hnt (Pmap.not_own_of_base hb)
  have hpde₂ := (hI.toForest.setData { s with mem := Function.update s.mem q pg.page } hnt
    (Pmap.not_own_of_base hb) rfl).2.1
  have hk₂ : Pmap.Kept L s { s with mem := Function.update s.mem q pg.page } := by
    refine Pmap.kept_of_mem hI.toForest hI₂ hpde₂ fun f hf => ?_
    have hne : f ≠ q := by
      rintro rfl
      exact hf.elim (fun h => by omega) hnt
    exact Function.update_of_ne hne ..
  have h₂ := h.setPmap (hk₁.trans hk₂)
  have hq : q ∉ s.pageFreeList := by
    have hnd := h.inv.free_nodup
    rw [hfree] at hnd
    exact (List.nodup_cons.mp hnd).1
  have hzero : (s.ppRef q).toNat < 65535 := by
    rw [href, h.inv.count q, hb, hr]
    decide
  simp only
  rw [wp_modify_bind, wp_get_bind]
  show (pageInsert (k.envs e).pgdir q pg.va pg.perm).wp _ _
    (k.setPmap { s with mem := Function.update s.mem q pg.page })
  rw [hd]
  refine wp_pageInsert (k := k.setPmap { s with mem := Function.update s.mem q pg.page }) h₂.inv
    ((hk₁.trans hk₂).dirs d hdir) (Pmap.counted_of_own h₂.inv.toForest hown) hfl hq
    (fun _ => hzero) ?_ ?_
  · intro p hins
    have hdata : Pmap.Data L { s with mem := Function.update s.mem q pg.page } q :=
      ⟨hb, fun ht => hnt ((Pmap.isTable_congr hpde₂ q).mp ht)⟩
    exact ⟨h₂.setPmap (Pmap.kept_insert h₂.inv ((hk₁.trans hk₂).dirs d hdir) hown hfl
      (fun _ => hdata.insert hq hins) (.inl hown) hins), he⟩
  · exact fun _ => ⟨h₂, he⟩

theorem loadPages_spaces (h : Spaces L k) (he : k.Live e) {pages : List ProgPage}
    (hfit : ∀ pg ∈ pages, pg.va < utop ∧ FlagOnly pg.perm) :
    (each (loadIcodeMapper e) pages).wp (fun _ k' => Spaces L k' ∧ k'.Live e) E k := by
  induction pages generalizing k with
  | nil => exact wp_pure.mpr ⟨h, he⟩
  | cons pg pages ih =>
    obtain ⟨hva, hfl⟩ := hfit pg List.mem_cons_self
    rw [each]
    refine wp_seq (loadIcodeMapper_spaces h he hva hfl) (fun _ k' hk' => ?_) fun _ _ hk' => hk'
    exact ih hk'.1 hk'.2 fun pg' hpg' => hfit pg' (List.mem_cons_of_mem _ hpg')

/-- `env_create` adds an address space. -/
theorem envCreate_spaces (h : Spaces L k) (hfree : ∀ e ∈ k.envFreeList, ¬k.Live e)
    {prog : Program} (hfit : prog.Fits) (priority : Word) :
    (envCreate prog priority).wp (fun _ k' => (∃ L', k.Grown L L' ∧ Spaces L' k') ∧ ∃ e, k'.Live e)
      (fun c => c = .wild ∨ ∃ m, c = .panic m) k := by
  unfold envCreate
  refine wp_attempt_seq (envAlloc_newborn h hfree 0#32) fun r k₁ hk₁ => ?_
  cases r with
  | error _ => exact wp_halt.mpr (.inl rfl)
  | ok e =>
    obtain ⟨-, L', p, hgrown, hnew⟩ := hk₁
    have h₁ : Spaces L' (k₁.setEnv e fun v =>
        { v with pri := priority, status := .runnable }) := hnew.enliven rfl rfl
    have hlive : (k₁.setEnv e fun v =>
        { v with pri := priority, status := .runnable }).Live e := by
      simp [Kernel.Live, Kernel.setEnv]
    simp only [Kern.setEnv]
    rw [wp_modify_bind]
    generalize k₁.setEnv e (fun v => { v with pri := priority, status := .runnable }) = k₂
      at h₁ hlive
    unfold loadIcode
    rw [wp_bind]
    refine wp_attempt_seq (loadPages_spaces h₁ hlive hfit) fun r k₃ hk₃ => ?_
    cases r with
    | error _ => exact wp_halt.mpr (.inr ⟨_, rfl⟩)
    | ok _ =>
      simp only [Kern.setEnv, wp_modify, schedInsertHead]
      rw [wp_modify_bind, wp_pure]
      refine ⟨⟨L', hgrown, Spaces.congr (k := k₃.setEnv e fun v =>
        { v with tf := { v.tf with sepc := prog.entry } }) ?_ rfl rfl rfl rfl rfl⟩, e, ?_⟩
      · exact hk₃.1.setEnv e rfl Iff.rfl (hk₃.1.recv e)
      · simp only [Kernel.Live, Kernel.setEnv, Function.update_self]
        exact hk₃.2

end Creation

end Kern

/-- After `env_init` no environment is live. -/
theorem Spaces.envInit {L : Layout} {k : Kernel} (hI : k.pmap.Inv L)
    (ht : Template L k.pmap k.basePgdir) (hr : ∀ e, (k.envs e).ipcRecving = 0#32)
    (hc : k.curenv = none) : Spaces L k.envInit := by
  have hall : ∀ e, e ∈ List.finRange 1024 := List.mem_finRange
  unfold Kernel.envInit
  generalize List.finRange 1024 = es at hall ⊢
  obtain ⟨hp, hb, hcur, -⟩ := envInit_rest
    { k with envFreeList := [], envSchedList := k.envSchedList.init } es
  obtain ⟨-, -, hrec, hst⟩ := envInit_loop
    { k with envFreeList := [], envSchedList := k.envSchedList.init } es
  generalize es.foldr Kernel.envInitRound
    { k with envFreeList := [], envSchedList := k.envSchedList.init } = k' at *
  have hdead : ∀ e, ¬k'.Live e := fun e he => he (hst e (hall e))
  refine ⟨hp ▸ hI, by rw [hp, hb]; exact ht, fun e he => absurd he (hdead e),
    fun e _ _ he => absurd he (hdead e), fun e _ he => absurd he (hdead e), fun c h => ?_, fun e h => ?_⟩
  · rw [hcur, hc] at h
    exact absurd h (by simp)
  · exact absurd ((hrec e).trans (hr e)) h

/-! ## Small kernels -/

/-- The frames that are not among the `n` after the first. -/
def keptAbove (n : Nat) : Finset Frame := Finset.univ.filter fun f => ¬(1 ≤ f.val ∧ f.val ≤ n)

theorem mem_keptAbove {n : Nat} {f : Frame} : f ∈ keptAbove n ↔ ¬(1 ≤ f.val ∧ f.val ≤ n) := by
  simp [keptAbove]

/-- The `n` frames after the first are free, and all others are held once. -/
theorem Pmap.start_range {n : Nat} (hn : n < npage) {s : Pmap} {dirs : Finset Frame}
    (hdirs : ∀ d ∈ dirs, d ∈ keptAbove n ∧ ∀ i, s.mem d i = 0#32)
    (href : ∀ f, s.ppRef f = if 1 ≤ f.val ∧ f.val ≤ n then 0 else 1)
    (hfree : s.pageFreeList = (List.range n).map fun i => Fin.ofNat npage (i + 1)) :
    Pmap.Start dirs (keptAbove n) s := by
  have hval : ∀ i < n, (Fin.ofNat npage (i + 1)).val = i + 1 := fun i hi =>
    Nat.mod_eq_of_lt (by omega)
  have hmem : ∀ f : Frame, f ∈ s.pageFreeList ↔ 1 ≤ f.val ∧ f.val ≤ n := by
    intro f
    rw [hfree, List.mem_map]
    constructor
    · rintro ⟨i, hi, rfl⟩
      have hi := List.mem_range.mp hi
      have hv := hval i hi
      omega
    · intro hf
      refine ⟨f.val - 1, List.mem_range.mpr (by omega), Fin.ext ?_⟩
      rw [hval _ (by omega)]
      omega
  refine ⟨fun d hd => (hdirs d hd).2, fun f hf => ?_, fun f _ hf => ?_, ?_, fun f => ?_⟩
  · have hk : f ∈ keptAbove n := hf.elim (fun h => (hdirs f h).1) id
    rw [href, if_neg (mem_keptAbove.mp hk)]
  · rw [href, if_pos (by_contra fun h => hf (mem_keptAbove.mpr h))]
  · rw [hfree]
    refine List.Nodup.map_on (fun i hi j hj h => ?_) List.nodup_range
    have hv := congrArg Fin.val h
    rw [hval i (List.mem_range.mp hi), hval j (List.mem_range.mp hj)] at hv
    omega
  · rw [hmem, href]
    by_cases hk : 1 ≤ f.val ∧ f.val ≤ n
    · rw [if_pos hk]
      exact ⟨fun _ => rfl, fun _ => hk⟩
    · rw [if_neg hk]
      exact ⟨fun h => absurd h hk, fun h => absurd h (by decide)⟩

/-- An empty template. -/
theorem Template.zero {s : Pmap} {b : Frame} {dirs kept : Finset Frame} (hk : b ∈ kept)
    (hd : b ∉ dirs) (h0 : ∀ i, s.mem b i = 0#32) : Template (Pmap.privateLayout dirs kept) s b := by
  refine ⟨Pmap.held_private hk hd, fun i => .inl (h0 i), fun i _ => h0 i,
    fun _ _ => ⟨Pmap.counted_private _ _, ?_⟩, fun i t _ hm => ?_⟩
  · rw [Pmap.pteOf_of_clear (h0 _)]
    decide
  · have hv := valid_mkPte t 0#32
    rw [← hm, h0 i, Pmap.valid_zero] at hv
    exact absurd hv (by simp)

/-- One environment runs, and its directory is empty. -/
theorem Spaces.single {k : Kernel} {e : EnvIdx} {d : Frame} {kept : Finset Frame}
    (hstart : Pmap.Start {d} kept k.pmap)
    (ht : Template (Pmap.privateLayout {d} kept) k.pmap k.basePgdir)
    (hlive : ∀ c, k.Live c ↔ c = e) (hd : (k.envs e).pgdir = some d) (hcur : k.curenv = some e)
    (hcp : k.curPgdir = some d) (hrec : ∀ c, (k.envs c).ipcRecving = 0#32) :
    Spaces (Pmap.privateLayout {d} kept) k := by
  have hdir : ∀ c d', k.Live c → (k.envs c).pgdir = some d' → d' = d := by
    intro c d' hc hd'
    rw [(hlive c).mp hc, hd] at hd'
    exact (Option.some.inj hd').symm
  refine ⟨hstart.histInv.inv, ht, fun c hc => ?_, fun c d' i hc hd' => .inl ?_,
    fun c c' hc hc' _ => ?_, fun c hc => ?_, fun c hc => absurd (hrec c) hc⟩
  · refine ⟨d, by rw [(hlive c).mp hc]; exact hd,
      Pmap.dir_private _ (Finset.mem_singleton_self _), fun _ _ => Finset.mem_singleton_self _,
      fun va f _ hf => ?_⟩
    rw [Pmap.pteOf_of_clear (hstart.empty d (Finset.mem_singleton_self _) _), entryFrame_zero] at hf
    exact absurd hf (by simp)
  · rw [hdir c d' hc hd']
    exact Finset.mem_singleton_self _
  · rw [(hlive c).mp hc, (hlive c').mp hc']
  · obtain rfl : e = c := Option.some.inj (hcur.symm.trans hc)
    exact ⟨(hlive e).mpr rfl, hcp.trans hd.symm⟩

/-- The frames that `zeroKernel` keeps. -/
def zeroKept : Finset Frame := Finset.univ.filter fun f => ¬(1 ≤ f.val ∧ f.val ≤ 100)

theorem zeroKernel_start {dirs : Finset Frame} (hdirs : ∀ d ∈ dirs, d ∈ zeroKept) :
    Pmap.Start dirs zeroKept zeroKernel.pmap :=
  Pmap.start_range (by decide) (fun d hd => ⟨hdirs d hd, fun _ => rfl⟩) (fun _ => rfl) rfl

/-- Its template is empty. -/
theorem zeroKernel_template {dirs : Finset Frame} (hdirs : 0 ∉ dirs) :
    Template (Pmap.privateLayout dirs zeroKept) zeroKernel.pmap zeroKernel.basePgdir :=
  Template.zero (mem_keptAbove.mpr (by decide)) hdirs fun _ => rfl

theorem zeroKernel_spaces : Spaces (Pmap.privateLayout ∅ zeroKept) zeroKernel.envInit := by
  have hstart : Pmap.Start ∅ zeroKept zeroKernel.pmap :=
    zeroKernel_start fun d hd => absurd hd (Finset.notMem_empty d)
  exact Spaces.envInit hstart.histInv.inv (zeroKernel_template (Finset.notMem_empty _))
    (fun _ => rfl) rfl

end RvMos
