/-
Destroying an address space.

`env_free` clears the tables of a directory entry by entry and gives them back,
then gives back the directory.  It leaves alone what the kernel shares, and every
table with a library entry.  Owned tables that it leaves behind, those and the
table of the last entry, are never given back: their counters stay, and in the
forest without the directory they count as shared tables.
-/
import RvMos.Kern.Faults

namespace RvMos

open Lib

namespace Pmap

/-! ## Giving back a table -/

section DropTable

variable {L : Layout} {s : Pmap} {d t : Frame} {i : Index}

/-- An owned entry and its empty table. -/
theorem dropTable_forest (hF : s.Forest L) (hown : L.own d i) (hm : s.mem d i = mkPte t 0#32)
    (hz : ∀ j, s.mem t j = 0#32) {s' : Pmap} (hmem : s'.mem = (s.store ⟨d, i⟩ 0#32).mem) :
    s'.Forest L ∧ (∀ u, s'.IsTable L u ↔ s.IsTable L u ∧ u ≠ t) ∧
      ∀ g, s'.refs L g + (if t = g then 1 else 0) = s.refs L g := by
  have hold : s.pdeView L (d, i) = some t := by
    rw [pdeView_of_own hown, hm, entryFrame_mkPte t flagOnly_zero]
  have hnsh : ¬L.shared t := by
    intro hsh
    have hb := hF.table_base _ t hold
    have hpos := L.shared_base t hsh
    omega
  have hpde : s'.pdeView L = Function.update (s.pdeView L) (d, i) none := by
    funext x
    by_cases hx : x = (d, i)
    · subst hx
      rw [Function.update_self, pdeView_of_own hown, hmem, store_mem_self, entryFrame_zero]
    · rw [Function.update_of_ne hx]
      unfold pdeView
      rw [hmem, store_mem_of_ne _ hx]
  have hview : ∀ x u, s'.pdeView L x = some u ↔ s.pdeView L x = some u ∧ u ≠ t := by
    intro x u
    rw [hpde]
    by_cases hx : x = (d, i)
    · subst hx
      rw [Function.update_self, hold]
      exact ⟨fun h => absurd h (by simp), fun h => absurd (Option.some.inj h.1).symm h.2⟩
    · rw [Function.update_of_ne hx]
      refine ⟨fun h => ⟨h, ?_⟩, fun h => h.1⟩
      rintro rfl
      exact hx (hF.pde_inj x (d, i) u h hold)
  have htab : ∀ u, s'.IsTable L u ↔ s.IsTable L u ∧ u ≠ t := by
    intro u
    constructor
    · rintro (hsh | ⟨x, hx⟩)
      · exact ⟨.inl hsh, fun e => hnsh (e ▸ hsh)⟩
      · exact ⟨.inr ⟨x, ((hview x u).mp hx).1⟩, ((hview x u).mp hx).2⟩
    · rintro ⟨hsh | ⟨x, hx⟩, hne⟩
      · exact .inl hsh
      · exact .inr ⟨x, (hview x u).mpr ⟨hx, hne⟩⟩
  have hmt : ∀ u j, s.IsTable L u → s'.mem u j = s.mem u j := by
    intro u j hu
    rw [hmem, store_mem_of_ne _ (hF.own_ne hu hown).symm]
  have hpte : s'.pteView L = s.pteView L := by
    funext x
    unfold pteView
    by_cases hc : s'.IsTable L x.1 ∧ ¬L.plain x.1 x.2
    · have hx := ((htab x.1).mp hc.1).1
      rw [if_pos hc, if_pos ⟨hx, hc.2⟩, hmt _ _ hx]
    · rw [if_neg hc]
      by_cases hc' : s.IsTable L x.1 ∧ ¬L.plain x.1 x.2
      · -- the table that was given back, which is empty
        have hxt : x.1 = t := by
          by_contra hne
          exact hc ⟨(htab x.1).mpr ⟨hc'.1, hne⟩, hc'.2⟩
        rw [if_pos hc', hxt, hz, entryFrame_zero]
      · rw [if_neg hc']
  refine ⟨⟨fun d' i' hown' => ?_, fun x y u hx hy => ?_, fun x u hx => ?_, fun u j hu hp => ?_⟩,
    htab, fun g => ?_⟩
  · by_cases heq : (d', i') = (d, i)
    · obtain ⟨rfl, rfl⟩ := Prod.mk.injEq .. ▸ heq
      exact .inl (by rw [hmem, store_mem_self])
    · rw [hmem, store_mem_of_ne _ heq]
      exact hF.pde d' i' hown'
  · exact hF.pde_inj x y u ((hview x u).mp hx).1 ((hview y u).mp hy).1
  · exact hF.table_base x u ((hview x u).mp hx).1
  · have hu' := ((htab u).mp hu).1
    rw [hmt u j hu']
    exact hF.pte u j hu' hp
  · have hc := tally_clear hold hpde g
    rw [refs, refs, hpte]
    omega

theorem dropTable_inv (hI : s.Inv L) (hown : L.own d i) (hm : s.mem d i = mkPte t 0#32)
    (hz : ∀ j, s.mem t j = 0#32) : ((s.store ⟨d, i⟩ 0#32).dropRef t).Inv L := by
  obtain ⟨hF, -, hrefs⟩ := dropTable_forest hI.toForest hown hm hz
    (show ((s.store ⟨d, i⟩ 0#32).dropRef t).mem = _ from rfl)
  refine hI.decref (f := t) hF (fun g => ?_) rfl rfl
  have hr := hrefs g
  omega

end DropTable

/-! ## The loops of `env_free` -/

/-- What holds while directory `d` is taken apart: the other directories keep
their tables, their data and the translations of their own entries. -/
structure Stripped (L : Layout) (d : Frame) (s s' : Pmap) : Prop where
  inv : s'.Inv L
  dir : s'.Dir L d
  word : ∀ i, L.own d i ∨ s'.mem d i = s.mem d i
  dirs : ∀ d', d' ≠ d → s.Dir L d' → s'.Dir L d'
  words : ∀ d' i, d' ≠ d → s.Dir L d' → L.own d' i ∨ s'.mem d' i = s.mem d' i
  held : ∀ f, Held L f → s'.mem f = s.mem f
  user : ∀ d', d' ≠ d → s.Dir L d' → UserDir L s d' → UserDir L s' d'
  library : ∀ t j, L.shared t → s'.mem t j &&& pteLibrary = s.mem t j &&& pteLibrary
  pte : ∀ d' va, d' ≠ d → s.Dir L d' → L.own d' (pdx va) → s'.pteOf d' va = s.pteOf d' va

section Strip

variable {L : Layout} {s s' : Pmap} {d t : Frame} {i : Index}

theorem Stripped.refl (hI : s.Inv L) (hd : s.Dir L d) : Stripped L d s s :=
  ⟨hI, hd, fun _ => .inr rfl, fun _ _ h => h, fun _ _ _ _ => .inr rfl, fun _ _ => rfl,
    fun _ _ _ h => h, fun _ _ _ => rfl, fun _ _ _ _ _ => rfl⟩

theorem Stripped.trans {s'' : Pmap} (h : Stripped L d s s') (h' : Stripped L d s' s'') :
    Stripped L d s s'' := by
  refine ⟨h'.inv, h'.dir, fun i => ?_, fun d' hne hd' => h'.dirs d' hne (h.dirs d' hne hd'),
    fun d' i hne hd' => ?_, fun f hf => (h'.held f hf).trans (h.held f hf),
    fun d' hne hd' hu => h'.user d' hne (h.dirs d' hne hd') (h.user d' hne hd' hu),
    fun t j ht => (h'.library t j ht).trans (h.library t j ht),
    fun d' va hne hd' ho => (h'.pte d' va hne (h.dirs d' hne hd') ho).trans
      (h.pte d' va hne hd' ho)⟩
  · rcases h'.word i with ho | hw
    · exact .inl ho
    · exact (h.word i).imp id fun hw' => hw.trans hw'
  · rcases h'.words d' i hne (h.dirs d' hne hd') with ho | hw
    · exact .inl ho
    · exact (h.words d' i hne hd').imp id fun hw' => hw.trans hw'

/-- Removing pages of the directory. -/
theorem stripped_remove (hI : s.Inv L) (hd : s.Dir L d) {va : Word}
    (hlib : L.own d (pdx va) ∨ s.pteOf d va &&& pteLibrary = 0#32) (h : s.Removed L d va s') :
    Stripped L d s s' := by
  have hk := kept_remove hI hd hlib h
  refine ⟨h.inv, hk.dirs d hd, hk.word hd, fun d' _ hd' => hk.dirs d' hd',
    fun d' i _ hd' => hk.word hd' i, hk.held, fun d' _ hd' hu => hk.user d' hd' hu, hk.library,
    fun d' va' hne hd' ho => h.other d' va' hd' fun hslot => ?_⟩
  obtain ⟨t, ht, ht', hx⟩ := hslot
  exact hne (sameSlot_of_own hI.toForest ho hd ⟨t, ht', ht, hx.symm⟩).1.symm

/-- Giving back an empty table of the directory. -/
theorem stripped_dropTable (hI : s.Inv L) (hd : s.Dir L d) (hown : L.own d i)
    (hm : s.mem d i = mkPte t 0#32) (hz : ∀ j, s.mem t j = 0#32) :
    Stripped L d s ((s.store ⟨d, i⟩ 0#32).dropRef t) := by
  have hI' := dropTable_inv hI hown hm hz
  obtain ⟨-, htab, -⟩ := dropTable_forest hI.toForest hown hm hz
    (show ((s.store ⟨d, i⟩ 0#32).dropRef t).mem = _ from rfl)
  have hmem : ∀ f, f ≠ d → ((s.store ⟨d, i⟩ 0#32).dropRef t).mem f = s.mem f := by
    intro f hf
    funext j
    exact store_mem_of_ne _ fun e => hf (congrArg Prod.fst e)
  have hself : ∀ j, j ≠ i → ((s.store ⟨d, i⟩ 0#32).dropRef t).mem d j = s.mem d j := fun j hj =>
    store_mem_of_ne _ fun e => hj (congrArg Prod.snd e)
  have hpte : ∀ d' va, d' ≠ d → s.Dir L d' →
      ((s.store ⟨d, i⟩ 0#32).dropRef t).pteOf d' va = s.pteOf d' va := by
    intro d' va hne hd'
    unfold pteOf
    rw [tableOf, hmem d' hne, ← tableOf]
    cases ht : s.tableOf d' (pdx va) with
    | none => rfl
    | some u =>
      have hud : u ≠ d := fun e =>
        hI.table_not_own (hd'.isTable hI.toForest ht).1 i (e ▸ hown)
      exact congrFun (hmem u hud) _
  refine ⟨hI', ⟨hd.held, hd.not_shared, fun j => ?_⟩, fun j => ?_,
    fun d' hne hd' => hd'.congr (hmem d' hne), fun d' j hne _ => .inr (by rw [hmem d' hne]),
    fun f hf => hmem f fun e => hf.not_own i (e ▸ hown),
    fun d' hne hd' hu => ⟨hu.own, fun va f hva hf => ?_⟩,
    fun u j hu => by rw [hmem u fun e => L.apart u i hu (e ▸ hown)],
    fun d' va hne hd' _ => hpte d' va hne hd'⟩
  · by_cases hj : j = i
    · exact .inl (hj ▸ hown)
    · rw [hself j hj]
      exact hd.entries j
  · by_cases hj : j = i
    · exact .inl (hj ▸ hown)
    · exact .inr (hself j hj)
  · rw [hpte d' va hne hd'] at hf
    have hdata := hu.data va f hva hf
    exact ⟨hdata.base, fun h => hdata.not_table ((htab f).mp h).1⟩

theorem pdx_slot (i j : Index) :
    pdx ((BitVec.ofNat 32 i.val <<< 22) ||| (BitVec.ofNat 32 j.val <<< 12)) = i ∧
      ptx ((BitVec.ofNat 32 i.val <<< 22) ||| (BitVec.ofNat 32 j.val <<< 12)) = j := by
  have hi := i.isLt
  have hj := j.isLt
  have hv : ((BitVec.ofNat 32 i.val <<< 22) ||| (BitVec.ofNat 32 j.val <<< 12)).toNat =
      i.val * 4194304 + j.val * 4096 := by
    rw [BitVec.toNat_or]
    simp only [BitVec.toNat_shiftLeft, BitVec.toNat_ofNat, Nat.shiftLeft_eq]
    rw [show (i.val % 2 ^ 32 * 2 ^ 22) % 2 ^ 32 = i.val * 2 ^ 22 by omega,
      show (j.val % 2 ^ 32 * 2 ^ 12) % 2 ^ 32 = j.val * 2 ^ 12 by omega, Nat.or_comm,
      Nat.mul_comm i.val, Nat.or_comm,
      ← Nat.two_pow_add_eq_or_of_lt (b := j.val * 2 ^ 12) (by omega)]
    omega
  constructor
  · refine Fin.ext ?_
    rw [pdx_val, hv]
    omega
  · refine Fin.ext ?_
    rw [ptx_val, hv]
    omega

/-- The round of the inner loop that removes an entry clears it and leaves the other
words. -/
theorem pageRemove_entry (hI : s.Inv L) (hd : s.Dir L d) (ht : s.tableOf d i = some t)
    {j : Index} (hpl : ¬L.plain t j) (hlib : s.mem t j &&& pteLibrary = 0#32) :
    ∃ s₁, s.pageRemove d ((BitVec.ofNat 32 i.val <<< 22) ||| (BitVec.ofNat 32 j.val <<< 12)) =
        .ok s₁ ∧ Stripped L d s s₁ ∧ s₁.tableOf d i = some t ∧ s₁.mem t j = 0#32 ∧
      ∀ f j', (f = t → j' ≠ j) → s₁.mem f j' = s.mem f j' := by
  obtain ⟨hi, hj⟩ := pdx_slot i j
  generalize (BitVec.ofNat 32 i.val <<< 22) ||| (BitVec.ofNat 32 j.val <<< 12) = va at hi hj ⊢
  have htd : s.tableOf d (pdx va) = some t := by rw [hi]; exact ht
  have hc : s.Counted L d va := by
    intro u hu hp
    rw [htd] at hu
    obtain rfl := Option.some.inj hu
    exact hpl (hj ▸ hp)
  have hpte : s.pteOf d va &&& pteLibrary = 0#32 := by
    rw [pteOf, htd]
    show s.mem t (ptx va) &&& pteLibrary = 0#32
    rw [hj]
    exact hlib
  obtain ⟨s₁, hrem, hR⟩ := pageRemove_spec hI hd hc
  refine ⟨s₁, hrem, stripped_remove hI hd (.inr hpte) hR, by rw [(hR.dirs d hd).2, ht], ?_,
    fun f j' hne => hR.words f j' fun hu => hj ▸ hne (Option.some.inj (htd.symm.trans hu)).symm⟩
  have hclear := hR.clear
  rw [pteOf, (hR.dirs d hd).2, htd] at hclear
  rw [← hj]
  exact hclear

/-- After the inner loop: the flag tells of library entries, and where there is
none, no entry is valid. -/
theorem freeEntries_spec (js : List Index) (flag : Bool) (hI : s.Inv L) (hd : s.Dir L d)
    (ht : s.tableOf d i = some t)
    (hpl : ∀ j, L.plain t j → s.mem t j &&& pteLibrary ≠ 0#32) :
    ∃ flag' s', s.freeEntries d t i js flag = .ok (flag', s') ∧ Stripped L d s s' ∧
      s'.tableOf d i = some t ∧ (∀ j, s'.mem t j = s.mem t j ∨ s'.mem t j = 0#32) ∧
      (flag = true → flag' = true) ∧
      (∀ j ∈ js, s.mem t j &&& pteLibrary ≠ 0#32 → flag' = true) ∧
      (flag' = false → ∀ j ∈ js, valid (s'.mem t j) = false) := by
  induction js generalizing s flag with
  | nil =>
    exact ⟨flag, s, rfl, .refl hI hd, ht, fun _ => .inl rfl, id, fun _ h => absurd h List.not_mem_nil,
      fun _ _ h => absurd h List.not_mem_nil⟩
  | cons j js ih =>
    unfold freeEntries
    by_cases hlib : s.mem t j &&& pteLibrary ≠ 0#32
    · rw [if_pos hlib]
      obtain ⟨flag', s', hr, hstr, ht', hw, hmono, -, hval⟩ := ih true hI hd ht hpl
      have htrue := hmono rfl
      exact ⟨flag', s', hr, hstr, ht', hw, fun _ => htrue, fun _ _ _ => htrue,
        fun hf => absurd (hf.symm.trans htrue) (by simp)⟩
    · have hlib0 : s.mem t j &&& pteLibrary = 0#32 := not_not.mp hlib
      rw [if_neg hlib]
      by_cases hv : valid (s.mem t j) = true
      · -- the entry is removed
        rw [if_pos hv]
        obtain ⟨s₁, hrem, hstr₁, ht₁, hself, hother⟩ :=
          pageRemove_entry hI hd ht (fun hp => hpl j hp hlib0) hlib0
        have hpl₁ : ∀ j', L.plain t j' → s₁.mem t j' &&& pteLibrary ≠ 0#32 := by
          intro j' hp
          rw [hstr₁.library t j' (L.plain_shared t j' hp)]
          exact hpl j' hp
        obtain ⟨flag', s', hr, hstr, ht', hw, hmono, hmem, hval⟩ :=
          ih flag hstr₁.inv hstr₁.dir ht₁ hpl₁
        rw [hrem]
        refine ⟨flag', s', hr, hstr₁.trans hstr, ht', fun j' => ?_, hmono, fun j' hj' hne => ?_,
          fun hf j' hj' => ?_⟩
        · rcases hw j' with h | h
          · by_cases hne : j' = j
            · rw [h, hne, hself]
              exact .inr rfl
            · rw [h, hother t j' fun _ => hne]
              exact .inl rfl
          · exact .inr h
        · rcases List.mem_cons.mp hj' with rfl | hj'
          · exact absurd hne hlib
          · by_cases hjj : j' = j
            · rw [hjj] at hne
              exact absurd hne hlib
            · exact hmem j' hj' (by rw [hother t j' fun _ => hjj]; exact hne)
        · rcases List.mem_cons.mp hj' with rfl | hj'
          · have hz : s'.mem t j' = 0#32 := (hw j').elim (fun h => h.trans hself) id
            rw [hz]
            exact valid_zero
          · exact hval hf j' hj'
      · rw [if_neg hv]
        obtain ⟨flag', s', hr, hstr, ht', hw, hmono, hmem, hval⟩ := ih flag hI hd ht hpl
        refine ⟨flag', s', hr, hstr, ht', hw, hmono, fun j' hj' hne => ?_, fun hf j' hj' => ?_⟩
        · rcases List.mem_cons.mp hj' with rfl | hj'
          · exact absurd hne hlib
          · exact hmem j' hj' hne
        · rcases List.mem_cons.mp hj' with rfl | hj'
          · rcases hw j' with h | h
            · rw [h]
              exact Bool.eq_false_iff.mpr hv
            · rw [h]
              exact valid_zero
          · exact hval hf j' hj'

/-- The entries that the directory shares with the template and that `env_free`
visits have library entries. -/
def Pinned (L : Layout) (d : Frame) (s : Pmap) : Prop :=
  ∀ i t, Visited i → ¬L.own d i → s.mem d i = mkPte t 0#32 →
    L.shared t ∧ (∃ j, s.mem t j &&& pteLibrary ≠ 0#32) ∧
      ∀ j, L.plain t j → s.mem t j &&& pteLibrary ≠ 0#32

theorem Pinned.strip (h : Pinned L d s) (hs : Stripped L d s s') : Pinned L d s' := by
  intro i t hi hown hm
  rw [(hs.word i).resolve_left hown] at hm
  obtain ⟨hsh, ⟨j, hj⟩, hall⟩ := h i t hi hown hm
  refine ⟨hsh, ⟨j, by rw [hs.library t j hsh]; exact hj⟩, fun j hp => ?_⟩
  rw [hs.library t j hsh]
  exact hall j hp

theorem freeTable_spec (hI : s.Inv L) (hd : s.Dir L d) (hpin : Pinned L d s) (hi : i.val < 1023) :
    ∃ s', s.freeTable d i = .ok s' ∧ Stripped L d s s' := by
  unfold freeTable
  by_cases hskip : freeSkips i = true
  · rw [if_pos hskip]
    exact ⟨s, rfl, .refl hI hd⟩
  · rw [if_neg hskip]
    have hvis : Visited i := ⟨Bool.eq_false_iff.mpr hskip, hi⟩
    rcases hd.entry hI.toForest i with ⟨-, h0⟩ | ⟨t, hm, -⟩
    · rw [h0, if_neg (by rw [valid_zero]; simp)]
      exact ⟨s, rfl, .refl hI hd⟩
    · rw [hm, if_pos (valid_mkPte t 0#32), addr2page_mkPte t flagOnly_zero]
      have ht : s.tableOf d i = some t := by rw [tableOf, hm, entryFrame_mkPte t flagOnly_zero]
      have hpl : ∀ j, L.plain t j → s.mem t j &&& pteLibrary ≠ 0#32 := by
        intro j hp
        by_cases hown : L.own d i
        · exact absurd (L.plain_shared t j hp) (not_shared_of_owned hI.toForest hown ht)
        · exact (hpin i t hvis hown hm).2.2 j hp
      have hall : ∀ j, j ∈ List.finRange 1024 := List.mem_finRange
      simp only
      generalize List.finRange 1024 = js at hall ⊢
      obtain ⟨flag, s', hr, hstr, ht', -, -, hflag, hval⟩ := freeEntries_spec js false hI hd ht hpl
      rw [hr]
      cases flag with
      | true => exact ⟨s', rfl, hstr⟩
      | false =>
        have hown : L.own d i := by
          by_contra hown
          obtain ⟨-, ⟨j, hj⟩, -⟩ := hpin i t hvis hown hm
          exact absurd (hflag j (hall j) hj) (by simp)
        obtain ⟨htab', hm'⟩ := hstr.dir.isTable hstr.inv.toForest ht'
        have hz : ∀ j, s'.mem t j = 0#32 := by
          intro j
          have hp : ¬L.plain t j := fun hp =>
            not_shared_of_owned hI.toForest hown ht (L.plain_shared t j hp)
          rcases hstr.inv.pte t j htab' hp with h0 | ⟨f, fl, -, hw⟩
          · exact h0
          · have hv := hval rfl j (hall j)
            rw [hw, valid_mkPte] at hv
            exact absurd hv (by simp)
        have hne : (s'.store ⟨d, i⟩ 0#32).ppRef t ≠ 0 := by
          intro h0
          have hc := hstr.inv.count t
          rw [show s'.ppRef t = 0 from h0] at hc
          obtain ⟨-, -, hrefs⟩ := dropTable_forest hstr.inv.toForest hown hm' hz
            (show (s'.store ⟨d, i⟩ 0#32).mem = _ from rfl)
          have hrt := hrefs t
          rw [if_pos rfl] at hrt
          have hz0 : (0 : BitVec 16).toNat = 0 := rfl
          omega
        exact ⟨_, pageDecref_eq hne, hstr.trans (stripped_dropTable hstr.inv hstr.dir hown hm' hz)⟩

theorem freeTables_spec (is : List Index) (his : ∀ i ∈ is, i.val < 1023) {s : Pmap}
    (hI : s.Inv L) (hd : s.Dir L d) (hpin : Pinned L d s) :
    ∃ s', s.freeTables d is = .ok s' ∧ Stripped L d s s' := by
  induction is generalizing s with
  | nil => exact ⟨s, rfl, .refl hI hd⟩
  | cons i is ih =>
    obtain ⟨s₁, h₁, hstr₁⟩ := freeTable_spec hI hd hpin (his i List.mem_cons_self)
    obtain ⟨s₂, h₂, hstr₂⟩ := ih (fun j hj => his j (List.mem_cons_of_mem _ hj)) hstr₁.inv
      hstr₁.dir (hpin.strip hstr₁)
    unfold freeTables
    rw [h₁]
    exact ⟨s₂, h₂, hstr₁.trans hstr₂⟩

end Strip

/-! ## The forest without the directory -/

/-- The table `t` is left behind in directory `d`. -/
def Left (L : Layout) (s : Pmap) (d t : Frame) : Prop :=
  ∃ i, L.own d i ∧ s.tableOf d i = some t

section DropDir

variable {L : Layout} {s : Pmap} {d : Frame}

theorem Left.pdeView {t : Frame} (h : Left L s d t) : ∃ i, s.pdeView L (d, i) = some t := by
  obtain ⟨i, hown, ht⟩ := h
  exact ⟨i, by rw [pdeView_of_own hown]; exact ht⟩

open Classical in
/-- The layout in which `d` is no directory any more. -/
noncomputable def dropDir (L : Layout) (s : Pmap) (d : Frame) (hF : s.Forest L)
    (hd : s.Dir L d) : Layout where
  own d' i := L.own d' i ∧ d' ≠ d
  shared t := L.shared t ∨ Left L s d t
  plain := L.plain
  base f := if f = d then L.base d - 1 else L.base f + if Left L s d f then 1 else 0
  dir_base d' i h := by
    rw [if_neg h.2]
    have hb := L.dir_base d' i h.1
    omega
  shared_base t h := by
    have htd : t ≠ d := by
      rintro rfl
      rcases h with hsh | hl
      · exact hd.not_shared hsh
      · obtain ⟨i, hi⟩ := hl.pdeView
        exact hd.not_isTable hF (.inr ⟨_, hi⟩)
    rw [if_neg htd]
    rcases h with hsh | hl
    · have hb := L.shared_base t hsh
      omega
    · rw [if_pos hl]
      omega
  apart t i h := by
    rintro ⟨hown, -⟩
    rcases h with hsh | hl
    · exact L.apart t i hsh hown
    · obtain ⟨j, hj⟩ := hl.pdeView
      exact hF.table_not_own (.inr ⟨_, hj⟩) i hown
  plain_shared t j h := .inl (L.plain_shared t j h)

theorem dropDir_isTable (hF : s.Forest L) (hd : s.Dir L d) (u : Frame) :
    s.IsTable (dropDir L s d hF hd) u ↔ s.IsTable L u := by
  constructor
  · rintro ((hsh | hl) | ⟨x, hx⟩)
    · exact .inl hsh
    · obtain ⟨i, hi⟩ := hl.pdeView
      exact .inr ⟨_, hi⟩
    · have hown := own_of_pdeView hx
      refine .inr ⟨x, ?_⟩
      rw [show x = (x.1, x.2) from rfl, pdeView_of_own hown.1]
      rw [show x = (x.1, x.2) from rfl, pdeView_of_own hown] at hx
      exact hx
  · rintro (hsh | ⟨⟨d', i⟩, hx⟩)
    · exact .inl (.inl hsh)
    · have hown := own_of_pdeView hx
      by_cases hne : d' = d
      · subst hne
        refine .inl (.inr ⟨i, hown, ?_⟩)
        rw [pdeView_of_own hown] at hx
        exact hx
      · refine .inr ⟨(d', i), ?_⟩
        rw [pdeView_of_own (L := dropDir L s d hF hd) ⟨hown, hne⟩]
        rw [pdeView_of_own hown] at hx
        exact hx

theorem dropDir_pdeView (hF : s.Forest L) (hd : s.Dir L d) (x : Frame × Index) (u : Frame) :
    s.pdeView (dropDir L s d hF hd) x = some u ↔ s.pdeView L x = some u ∧ x.1 ≠ d := by
  obtain ⟨d', i⟩ := x
  constructor
  · intro hx
    have hown := own_of_pdeView hx
    rw [pdeView_of_own (L := dropDir L s d hF hd) hown] at hx
    rw [pdeView_of_own hown.1]
    exact ⟨hx, hown.2⟩
  · rintro ⟨hx, hne⟩
    have hown := own_of_pdeView hx
    rw [pdeView_of_own hown] at hx
    rw [pdeView_of_own (L := dropDir L s d hF hd) ⟨hown, hne⟩]
    exact hx

theorem dropDir_refs (hF : s.Forest L) (hd : s.Dir L d) (f : Frame) :
    (dropDir L s d hF hd).base f + s.refs (dropDir L s d hF hd) f + (if d = f then 1 else 0) =
      L.base f + s.refs L f := by
  have hpte : s.pteView (dropDir L s d hF hd) = s.pteView L := by
    funext x
    unfold pteView
    rw [dropDir_isTable]
    rfl
  have hbase : (dropDir L s d hF hd).base f =
      if f = d then L.base d - 1 else L.base f + (open Classical in if Left L s d f then 1 else 0) :=
    rfl
  -- a table that is left behind has no other reference from a directory
  have hpde : tally (s.pdeView (dropDir L s d hF hd)) f +
      (open Classical in if Left L s d f then 1 else 0) = tally (s.pdeView L) f := by
    by_cases hl : Left L s d f
    · obtain ⟨i, hi⟩ := hl.pdeView
      have hone : tally (s.pdeView L) f = 1 :=
        tally_eq_one hi fun y hy => hF.pde_inj y (d, i) f hy hi
      have hzero : tally (s.pdeView (dropDir L s d hF hd)) f = 0 := by
        refine tally_eq_zero.mpr fun x hx => ?_
        obtain ⟨hx, hne⟩ := (dropDir_pdeView hF hd x f).mp hx
        exact hne (congrArg Prod.fst (hF.pde_inj x (d, i) f hx hi))
      rw [if_pos hl, hone, hzero]
    · rw [if_neg hl, Nat.add_zero]
      refine tally_congr fun x => (dropDir_pdeView hF hd x f).trans ⟨fun h => h.1, fun h => ⟨h, ?_⟩⟩
      rintro rfl
      refine hl ⟨x.2, own_of_pdeView h, ?_⟩
      rw [show x = (x.1, x.2) from rfl, pdeView_of_own (own_of_pdeView h)] at h
      exact h
  have hnl : ¬Left L s d d := fun hl => by
    obtain ⟨i, hi⟩ := hl.pdeView
    exact hd.not_isTable hF (.inr ⟨_, hi⟩)
  have hheld := hd.held
  rw [refs, refs, hpte, hbase]
  by_cases hf : f = d
  · subst hf
    rw [if_neg hnl] at hpde
    rw [if_pos rfl, if_pos rfl]
    omega
  · rw [if_neg hf, if_neg (Ne.symm hf)]
    omega

theorem dropDir_forest (hF : s.Forest L) (hd : s.Dir L d) : s.Forest (dropDir L s d hF hd) := by
  refine ⟨fun d' i hown => hF.pde d' i hown.1, fun x y t hx hy => ?_, fun x t hx => ?_,
    fun t j ht hp => hF.pte t j ((dropDir_isTable hF hd t).mp ht) hp⟩
  · exact hF.pde_inj x y t ((dropDir_pdeView hF hd x t).mp hx).1
      ((dropDir_pdeView hF hd y t).mp hy).1
  · obtain ⟨hold, hne⟩ := (dropDir_pdeView hF hd x t).mp hx
    have htd : t ≠ d := fun e => hd.not_isTable hF (e ▸ .inr ⟨x, hold⟩)
    have hnl : ¬Left L s d t := fun hl => by
      obtain ⟨i, hi⟩ := hl.pdeView
      exact hne (congrArg Prod.fst (hF.pde_inj x (d, i) t hold hi))
    show (if t = d then L.base d - 1 else L.base t +
      (open Classical in if Left L s d t then 1 else 0)) = 0
    rw [if_neg htd, if_neg hnl, hF.table_base x t hold]

/-- `page_decref` of the directory. -/
theorem dropDir_inv (hI : s.Inv L) (hd : s.Dir L d) :
    s.pageDecref d = .ok (s.dropRef d) ∧
      (s.dropRef d).Inv (dropDir L s d hI.toForest hd) := by
  have hne : s.ppRef d ≠ 0 := by
    intro h0
    have hc := hI.count d
    have hpos := hd.held
    rw [h0] at hc
    have hz : (0 : BitVec 16).toNat = 0 := rfl
    omega
  have hF := dropDir_forest hI.toForest hd
  have hF' : (s.dropRef d).Forest (dropDir L s d hI.toForest hd) :=
    ⟨hF.pde, hF.pde_inj, hF.table_base, hF.pte⟩
  exact ⟨pageDecref_eq hne, hI.decref (f := d) hF' (dropDir_refs hI.toForest hd) rfl rfl⟩

/-- The other directories go on in the smaller forest. -/
theorem Dir.dropDir (hF : s.Forest L) (hd : s.Dir L d) {d' : Frame} (hd' : s.Dir L d')
    (hne : d' ≠ d) : (s.dropRef d).Dir (Pmap.dropDir L s d hF hd) d' := by
  refine ⟨?_, ?_, fun i => ?_⟩
  · show 0 < if d' = d then L.base d - 1 else _
    rw [if_neg hne]
    have hb := hd'.held
    omega
  · rintro (hsh | hl)
    · exact hd'.not_shared hsh
    · obtain ⟨i, hi⟩ := hl.pdeView
      exact hd'.not_isTable hF (.inr ⟨_, hi⟩)
  · rcases hd'.entries i with hown | ⟨t, hsh, hm⟩
    · exact .inl ⟨hown, hne⟩
    · exact .inr ⟨t, .inl hsh, hm⟩

theorem Data.dropDir (hF : s.Forest L) (hd : s.Dir L d) {f : Frame} (h : s.Data L f) :
    (s.dropRef d).Data (Pmap.dropDir L s d hF hd) f := by
  refine ⟨?_, fun ht => h.not_table ((dropDir_isTable hF hd f).mp ht)⟩
  have hfd : f ≠ d := (hd.ne_of_base h.base).symm
  have hnl : ¬Left L s d f := fun hl => by
    obtain ⟨i, hi⟩ := hl.pdeView
    exact h.not_table (.inr ⟨_, hi⟩)
  show (if f = d then L.base d - 1 else L.base f +
    (open Classical in if Left L s d f then 1 else 0)) = 0
  rw [if_neg hfd, if_neg hnl, h.base]

theorem UserDir.dropDir (hF : s.Forest L) (hd : s.Dir L d) {d' : Frame} (h : UserDir L s d')
    (hne : d' ≠ d) : UserDir (Pmap.dropDir L s d hF hd) (s.dropRef d) d' :=
  ⟨fun i hi => ⟨h.own i hi, hne⟩, fun va f hva hf => (h.data va f hva hf).dropDir hF hd⟩

theorem Held.dropDir (hF : s.Forest L) (hd : s.Dir L d) {i : Index} (hown : L.own d i) {b : Frame}
    (h : Held L b) : Held (Pmap.dropDir L s d hF hd) b := by
  have hbd : b ≠ d := fun e => h.not_own i (e ▸ hown)
  refine ⟨?_, fun i ho => h.not_own i ho.1, ?_⟩
  · show 0 < if b = d then L.base d - 1 else _
    rw [if_neg hbd]
    have hb := h.base
    omega
  · rintro (hsh | hl)
    · exact h.not_shared hsh
    · obtain ⟨i, hi⟩ := hl.pdeView
      exact h.not_isTable hF (.inr ⟨_, hi⟩)

end DropDir

/-- `env_free` takes the directory apart and gives it back. -/
theorem freeSpace_spec (hI : s.Inv L) (hd : s.Dir L d) (hpin : Pinned L d s) :
    ∃ (s' : Pmap) (h : Stripped L d s s'),
      s.freeSpace d = .ok (s'.dropRef d) ∧
        (s'.dropRef d).Inv (dropDir L s' d h.inv.toForest h.dir) := by
  have his : ∀ i ∈ (List.finRange 1024).take 1023, i.val < 1023 := by
    intro i hi
    obtain ⟨n, hn, rfl⟩ := List.mem_iff_getElem.mp hi
    rw [List.length_take] at hn
    rw [List.getElem_take, List.getElem_finRange]
    simp only [Fin.val_cast]
    omega
  unfold freeSpace
  generalize (List.finRange 1024).take 1023 = is at his ⊢
  obtain ⟨s', hr, hstr⟩ := freeTables_spec is his hI hd hpin
  obtain ⟨hdec, hI'⟩ := dropDir_inv hstr.inv hstr.dir
  refine ⟨s', hstr, ?_, hI'⟩
  rw [hr]
  exact hdec

end Pmap

/-! ## The other address spaces -/

section Spaces

variable {L : Layout} {k : Kernel} {e : EnvIdx} {d : Frame}

/-- What a directory shares with the template is pinned. -/
theorem Spaces.pinned (h : Spaces L k) (he : k.Live e) (hd : (k.envs e).pgdir = some d) :
    Pmap.Pinned L d k.pmap := by
  intro i t hi hown hm
  rw [(h.same e d i he hd).resolve_left hown] at hm
  have ht : k.pmap.tableOf k.basePgdir i = some t := by
    rw [Pmap.tableOf, hm, entryFrame_mkPte t flagOnly_zero]
  exact ⟨(h.template.shared ht).1, h.template.library i t hi hm⟩

/-- The kernel after the pages of `e` are given back and `e` is free. -/
theorem Spaces.destroyed (h : Spaces L k) (he : k.Live e) (hd : (k.envs e).pgdir = some d)
    (hrecv : (k.envs e).ipcRecving = 0#32) {s : Pmap} (hs : Pmap.Stripped L d k.pmap s)
    {k' : Kernel} (hI : (s.dropRef d).Inv (Pmap.dropDir L s d hs.inv.toForest hs.dir))
    (hp : k'.pmap = s.dropRef d) (hbase : k'.basePgdir = k.basePgdir)
    (hself : k'.envs e = { k.envs e with status := .free })
    (hother : ∀ c, c ≠ e → k'.envs c = k.envs c)
    (hcur : ∀ c, k'.curenv = some c → c ≠ e ∧ k.curenv = some c)
    (hpg : k'.curPgdir = k.curPgdir) :
    Spaces (Pmap.dropDir L s d hs.inv.toForest hs.dir) k' := by
  obtain ⟨d', hd', hdir, huser⟩ := h.dir e he
  obtain rfl := Option.some.inj (hd.symm.trans hd')
  have hown0 : L.own d 0 := huser.own 0 (by decide)
  have hlive : ∀ c, k'.Live c → c ≠ e ∧ k.Live c := by
    intro c hc
    have hne : c ≠ e := by
      rintro rfl
      refine hc ?_
      rw [hself]
    exact ⟨hne, (Kernel.live_congr (congrArg Env.status (hother c hne))).mp hc⟩
  -- the others have directories of their own
  have hne : ∀ c d', k.Live c → c ≠ e → (k.envs c).pgdir = some d' → d' ≠ d := by
    intro c d' hc hce hdc heq
    rw [heq] at hdc
    exact hce (h.apart c e hc he (hdc.trans hd.symm))
  have hb : k'.pmap.mem k.basePgdir = k.pmap.mem k.basePgdir := by
    rw [hp]
    exact hs.held _ h.template.held
  refine ⟨hp ▸ hI, ?_, fun c hc => ?_, fun c d' i hc hd' => ?_, fun c c' hc hc' heq => ?_,
    fun c hc => ?_, fun c hc => ?_⟩
  · rw [hbase]
    refine h.template.congr (Pmap.Held.dropDir _ _ hown0 h.template.held) hb
      (fun _ ht => .inl ht) (fun _ _ _ hpl => hpl) fun t j ht => ?_
    rw [hp]
    exact hs.library t j ht
  · obtain ⟨hce, hc⟩ := hlive c hc
    obtain ⟨d', hd', hdir', huser'⟩ := h.dir c hc
    have hdd := hne c d' hc hce hd'
    rw [hother c hce, hp]
    exact ⟨d', hd', Pmap.Dir.dropDir _ hs.dir (hs.dirs d' hdd hdir') hdd,
      Pmap.UserDir.dropDir _ hs.dir (hs.user d' hdd hdir' huser') hdd⟩
  · obtain ⟨hce, hc⟩ := hlive c hc
    rw [hother c hce] at hd'
    obtain ⟨d'', hd'', hdir', -⟩ := h.dir c hc
    obtain rfl := Option.some.inj (hd'.symm.trans hd'')
    have hdd := hne c d' hc hce hd'
    rw [hbase, hb]
    rcases hs.words d' i hdd hdir' with hown | hw
    · exact .inl ⟨hown, hdd⟩
    · refine (h.same c d' i hc hd').imp (fun hown => ⟨hown, hdd⟩) fun hm => ?_
      rw [hp, ← hm, ← hw]
      rfl
  · obtain ⟨hce, hc⟩ := hlive c hc
    obtain ⟨hce', hc'⟩ := hlive c' hc'
    rw [hother c hce, hother c' hce'] at heq
    exact h.apart c c' hc hc' heq
  · obtain ⟨hce, hck⟩ := hcur c hc
    obtain ⟨hl, hdc⟩ := h.cur c hck
    rw [hpg, hother c hce]
    exact ⟨(Kernel.live_congr (congrArg Env.status (hother c hce))).mpr hl, hdc⟩
  · have hce : c ≠ e := by
      rintro rfl
      rw [hself] at hc
      exact hc hrecv
    rw [hother c hce] at hc
    rw [hother c hce]
    obtain ⟨hl, hdst⟩ := h.recv c hc
    exact ⟨(Kernel.live_congr (congrArg Env.status (hother c hce))).mpr hl, hdst⟩

end Spaces

namespace Kern

open Sys

section EnvDestroy

variable {L : Layout} {k : Kernel} {e : EnvIdx}

/-- `env_free`, up to `curenv`, which `env_destroy` clears afterwards. -/
theorem envFree_spaces (h : Spaces L k) (he : k.Live e) (hrecv : (k.envs e).ipcRecving = 0#32) :
    (envFree e).wp (fun r k' => r = .ok () ∧ k'.curenv = k.curenv ∧
      ∃ L', k.Grown L L' ∧ ∀ cur, (∀ c, cur = some c → c ≠ e ∧ k.curenv = some c) →
        Spaces L' { k' with curenv := cur }) (· = .wild) k := by
  obtain ⟨d, hd, hdir, -⟩ := h.dir e he
  obtain ⟨s, hstr, hfree, hI⟩ := Pmap.freeSpace_spec h.inv hdir (h.pinned he hd)
  unfold envFree dirOf
  rw [wp_get_bind, hd, wp_bind, wp_pure]
  simp only
  rw [wp_bind]
  refine wp_onPmap.mpr ⟨fun c hm => ?_, fun r p hm => ?_⟩
  · rw [hfree] at hm
    exact absurd hm (by simp [Except.map])
  · rw [hfree] at hm
    obtain ⟨rfl, rfl⟩ := Prod.mk.inj (Except.ok.inj hm)
    simp only
    rw [wp_get_bind]
    unfold asidFree setEnv
    rw [wp_modify_bind, wp_modify_bind, wp_modify_bind]
    refine wp_of (fun r k' hm => ?_) fun c hm => ?_
    · unfold schedRemove at hm
      split at hm
      · exact absurd hm (by simp)
      · obtain ⟨rfl, rfl⟩ := Prod.mk.inj (Except.ok.inj hm)
        refine ⟨rfl, rfl, Pmap.dropDir L s d hstr.inv.toForest hstr.dir, fun _ _ ho => .inl ho.1,
          fun cur hcur => h.destroyed he hd hrecv hstr hI rfl rfl ?_ ?_ hcur rfl⟩
        · exact Function.update_self ..
        · intro c hc
          exact Function.update_of_ne hc ..
    · unfold schedRemove at hm
      split at hm
      · exact (Except.error.inj hm).symm
      · exact absurd hm (by simp)

/-- `env_destroy`: the directory leaves the forest, and the others go on. -/
theorem envDestroy_spaces (h : Spaces L k) (he : k.Live e)
    (hrecv : (k.envs e).ipcRecving = 0#32) :
    (envDestroy e).wp (fun _ k' => ∃ L', k.Grown L L' ∧ Spaces L' k') SchedStop k := by
  unfold envDestroy
  have hfree : (envFree e).wp (fun r k' => r = .ok () ∧ k'.curenv = k.curenv ∧
      ∃ L', k.Grown L L' ∧ ∀ cur, (∀ c, cur = some c → c ≠ e ∧ k.curenv = some c) →
        Spaces L' { k' with curenv := cur }) SchedStop k :=
    wp_mono (envFree_spaces h he hrecv) (fun _ _ hk => hk) fun _ hc => .inl hc
  refine wp_seq hfree (fun _ k₁ h₁ => ?_) fun _ k₁ h₁ => ?_
  · obtain ⟨-, hcur, L', hg, hL'⟩ := h₁
    rw [wp_get_bind, wp_ite]
    refine ⟨fun _ => ?_, fun hne => wp_pure.mpr ⟨L', hg, hL' k₁.curenv fun c hc => ⟨?_, ?_⟩⟩⟩
    · rw [wp_modify_bind]
      have hnone : Spaces L' { k₁ with curenv := none } := hL' none fun c hc => absurd hc (by simp)
      exact wp_seq (schedule_spaces hnone true) (fun _ _ hk => wp_pure.mpr ⟨L', hg, hk⟩)
        fun _ _ hk => ⟨L', hg, hk⟩
    · rintro rfl
      exact hne hc
    · exact hcur.symm.trans hc
  · exact absurd h₁.1 (by simp)

end EnvDestroy

end Kern

end RvMos
