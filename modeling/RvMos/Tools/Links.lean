/-
The blocks that `fsformat` hands out.

Blocks are handed out in order, so the ones that are left have never been written, and the
tool comes to its end exactly where the blocks it needs are there.  A record gets its blocks
one after the other; the eleventh brings the index block with it, which holds the pointers
from then on at the same places as the record would.
-/
import Mathlib.Data.List.GetD
import RvMos.Fs.Names
import RvMos.Tools.Fsformat

namespace RvMos

namespace Fsformat

open Fs (Byte byte_merge)

/-! ## Bytes of a page -/

section Bytes

variable {p : Page} {v : Byte} {bs : List Byte} {y y' : ℕ} {o : Index}

theorem index_inj {a b : ℕ} (ha : a < 1024) (hb : b < 1024) :
    (Fin.ofNat 1024 a : Index) = Fin.ofNat 1024 b ↔ a = b := by
  refine ⟨fun h => ?_, fun h => by rw [h]⟩
  have hv : a % 1024 = b % 1024 := congrArg Fin.val h
  rwa [Nat.mod_eq_of_lt ha, Nat.mod_eq_of_lt hb] at hv

theorem index_val {a : ℕ} (ha : a < 1024) : (Fin.ofNat 1024 a : Index).val = a :=
  Nat.mod_eq_of_lt ha

theorem pageByte_setByte (hy : y < 4096) (hy' : y' < 4096) :
    pageByte (pageSetByte p y v) y' = if y' = y then v else pageByte p y' := by
  unfold pageByte pageSetByte
  by_cases hw : y' / 4 = y / 4
  · rw [hw, if_pos rfl, byte_merge _ _ (Nat.mod_lt _ (by omega)) (Nat.mod_lt _ (by omega))]
    exact if_congr ⟨fun h => by omega, fun h => by omega⟩ rfl rfl
  · rw [if_neg fun h => hw ((index_inj (by omega) (by omega)).mp h), if_neg (by omega)]

theorem pageByte_setBytes (hlen : y + bs.length ≤ 4096) (hy' : y' < 4096) :
    pageByte (pageSetBytes p y bs) y' =
      if h : y ≤ y' ∧ y' - y < bs.length then bs.get ⟨y' - y, h.2⟩ else pageByte p y' := by
  induction bs generalizing p y with
  | nil => simp [pageSetBytes]
  | cons v vs ih =>
    rw [List.length_cons] at hlen
    rw [pageSetBytes, ih (by omega), pageByte_setByte (by omega) hy']
    by_cases he : y' = y
    · subst he
      simp
    · by_cases hin : y + 1 ≤ y' ∧ y' - (y + 1) < vs.length
      · have hsub : y' - y = y' - (y + 1) + 1 := by omega
        rw [dif_pos hin, dif_pos ⟨by omega, by rw [List.length_cons]; omega⟩]
        simp [hsub]
      · rw [dif_neg hin, if_neg he, dif_neg fun h => hin ⟨by omega, by
          have hlt := h.2
          rw [List.length_cons] at hlt
          omega⟩]

/-- Only the words that the bytes lie in change. -/
theorem pageSetBytes_of_ne (hlen : y + bs.length ≤ 4096)
    (h : 4 * o.val + 4 ≤ y ∨ y + bs.length ≤ 4 * o.val) : pageSetBytes p y bs o = p o := by
  induction bs generalizing p y with
  | nil => rfl
  | cons v vs ih =>
    rw [List.length_cons] at hlen h
    rw [pageSetBytes, ih (by omega) (by omega)]
    unfold pageSetByte
    refine if_neg fun ho => ?_
    have hv := congrArg Fin.val ho
    rw [index_val (by omega)] at hv
    omega

end Bytes

/-! ## What a step may change -/

/-- The words outside `W` are as before. -/
def Changes (W : Option ℕ → Index → Prop) (m m' : Image) : Prop :=
  ∀ o i, ¬W o i → m'.mem o i = m.mem o i

theorem Changes.trans {W : Option ℕ → Index → Prop} {m m' m'' : Image} (h : Changes W m m')
    (h' : Changes W m' m'') : Changes W m m'' := fun o i hW => (h' o i hW).trans (h o i hW)

theorem Changes.mono {W W' : Option ℕ → Index → Prop} {m m' : Image} (h : Changes W m m')
    (hW : ∀ o i, W o i → W' o i) : Changes W' m m' := fun o i hn => h o i fun hw => hn (hW o i hw)

/-- The words `lo` to `hi` of a record. -/
def InRecord (p : Ptr) (lo hi : ℕ) (o : Option ℕ) (i : Index) : Prop :=
  o = p.block ∧ p.base + lo ≤ i.val ∧ i.val < p.base + hi

/-- A block of a list. -/
def InBlocks (F : List ℕ) (o : Option ℕ) : Prop := ∃ b ∈ F, o = some b

/-- A block that was free when the next one was `n`. -/
def Above (n : ℕ) (o : Option ℕ) : Prop := ∃ b, n ≤ b ∧ o = some b

/-- The blocks that are left have never been written. -/
def Fresh (m : Image) : Prop := ∀ b, m.nextbno ≤ b → ∀ i, m.mem (some b) i = 0#32

section Words

variable {m m' : Image} {p q : Ptr} {k l n : ℕ} {w : Word} {W : Option ℕ → Index → Prop}

@[simp] theorem setWord_nextbno : (m.setWord p k w).nextbno = m.nextbno := rfl

@[simp] theorem setName_nextbno {bs : List Byte} : (m.setName p bs).nextbno = m.nextbno := rfl

theorem word_setWord (hk : p.base + k < 1024) (hl : q.base + l < 1024) :
    (m.setWord p k w).word q l =
      if q.block = p.block ∧ q.base + l = p.base + k then w else m.word q l := by
  unfold Image.setWord Image.setPage Image.word
  by_cases hb : q.block = p.block
  · simp only [hb, Function.update_self, true_and]
    by_cases hw : q.base + l = p.base + k
    · rw [hw, Function.update_self, if_pos rfl]
    · rw [Function.update_of_ne fun h => hw ((index_inj hl hk).mp h), if_neg hw]
  · simp only [Function.update_of_ne hb, hb, false_and, if_false]

theorem changes_setWord (hk : p.base + k < 1024) :
    Changes (InRecord p k (k + 1)) m (m.setWord p k w) := by
  intro o i hn
  unfold Image.setWord Image.setPage
  by_cases ho : o = p.block
  · subst ho
    simp only [Function.update_self]
    refine Function.update_of_ne (fun hi => hn ?_) ..
    have hv := congrArg Fin.val hi
    rw [index_val hk] at hv
    exact ⟨rfl, by omega, by omega⟩
  · simp only [Function.update_of_ne ho]

theorem changes_setName {bs : List Byte} (hp : 4 * p.base + bs.length ≤ 4096) (hlen : bs.length ≤ 128) :
    Changes (InRecord p 0 32) m (m.setName p bs) := by
  intro o i hn
  unfold Image.setName Image.setPage
  by_cases ho : o = p.block
  · subst ho
    simp only [Function.update_self]
    refine pageSetBytes_of_ne hp ?_
    by_contra hc
    exact hn ⟨rfl, by omega, by omega⟩
  · simp only [Function.update_of_ne ho]

theorem Changes.word (h : Changes W m m') (hl : q.base + l < 1024)
    (hW : ∀ i : Index, i.val = q.base + l → ¬W q.block i) : m'.word q l = m.word q l :=
  h _ _ (hW _ (index_val hl))

theorem Fresh.of_changes (hf : Fresh m) (hn : m.nextbno ≤ m'.nextbno) (h : Changes W m m')
    (hW : ∀ b i, m'.nextbno ≤ b → ¬W (some b) i) : Fresh m' := fun b hb i => by
  rw [h _ _ (hW b i hb)]
  exact hf b (le_trans hn hb) i

end Words

/-! ## Running to the end -/

/-- A step that needs `c` blocks has a result in `P` if they are there, and leaves the array
if not. -/
def Runs {α : Type} (img : α → Image) (r : Except Abort α) (n c : ℕ) (P : α → Prop) : Prop :=
  if n + c ≤ nblock then ∃ x, r = .ok x ∧ (img x).nextbno = n + c ∧ P x else r = .error .wild

section Runs

variable {α β : Type} {img : α → Image} {img' : β → Image} {r : Except Abort α}
  {f : α → Except Abort β} {n c d : ℕ} {P P' : α → Prop} {Q : β → Prop}

theorem Runs.bind (h : Runs img r n c P)
    (hf : ∀ x, P x → n + c ≤ nblock → (img x).nextbno = n + c → Runs img' (f x) (n + c) d Q) :
    Runs img' (r >>= f) n (c + d) Q := by
  unfold Runs at h ⊢
  by_cases hc : n + c ≤ nblock
  · rw [if_pos hc] at h
    obtain ⟨x, rfl, hn, hP⟩ := h
    have hx := hf x hP hc hn
    unfold Runs at hx
    rw [Nat.add_assoc] at hx
    exact hx
  · rw [if_neg hc] at h
    rw [if_neg (by omega), h]
    rfl

theorem Runs.of_ok {x : α} (hn : (img x).nextbno = n) (hle : n ≤ nblock) (hP : P x) :
    Runs img (.ok x) n 0 P := by
  unfold Runs
  rw [if_pos (show n + 0 ≤ nblock from hle)]
  exact ⟨x, rfl, hn, hP⟩

theorem Runs.mono_next (h : Runs img r n c P) (hP : ∀ x, P x → (img x).nextbno = n + c → P' x) :
    Runs img r n c P' := by
  unfold Runs at h ⊢
  split at h
  · rename_i hle
    rw [if_pos hle]
    obtain ⟨x, hx, hn, hp⟩ := h
    exact ⟨x, hx, hn, hP x hp hn⟩
  · rename_i hle
    rw [if_neg hle]
    exact h

theorem Runs.mono (h : Runs img r n c P) (hP : ∀ x, P x → P' x) : Runs img r n c P' :=
  h.mono_next fun x hx _ => hP x hx

end Runs

theorem ok_bind {α β : Type} (a : α) (f : α → Except Abort β) : (Except.ok a >>= f) = f a := rfl

theorem inArray_of_lt {b : ℕ} (h : b < nblock) : inArray b = .ok () := if_pos h

theorem runs_nextBlock (m : Image) :
    Runs Prod.snd (nextBlock m) m.nextbno 1
      (fun x => x = (m.nextbno, { m with nextbno := m.nextbno + 1 })) := by
  unfold Runs nextBlock
  by_cases h : m.nextbno < nblock
  · rw [if_pos (Nat.succ_le_of_lt h), inArray_of_lt h]
    exact ⟨_, rfl, rfl, rfl⟩
  · rw [if_neg (by omega), inArray, if_neg h]
    rfl

/-! ## The blocks of a record -/

/-- The number that a record has for its block `i`. -/
def Image.ptr (m : Image) (p : Ptr) (i : ℕ) : Word :=
  if i < ndirect then m.word p (fDirect i)
  else if m.word p fIndirect = 0#32 then 0#32
  else m.word ⟨some (m.word p fIndirect).toNat, 0⟩ i

/-- The record has the blocks `bs`, and the index block `ix` where these are more than ten. -/
structure Links (m : Image) (p : Ptr) (bs ix : List ℕ) : Prop where
  ptr : ∀ i < 1024, m.ptr p i = BitVec.ofNat 32 (bs.getD i 0)
  index : m.word p fIndirect = BitVec.ofNat 32 (ix.headD 0)
  indexed : ix.length = if bs.length ≤ 10 then 0 else 1

/-- The blocks of a record at `p`, apart from each other and from the one that `p` is in, have
been handed out before block `n`. -/
structure Placed (p : Ptr) (F : List ℕ) (n : ℕ) : Prop where
  room : p.base + 64 ≤ 1024
  self : ∀ b, p.block = some b → b ∉ F ∧ b < n
  range : ∀ b ∈ F, 3 ≤ b ∧ b < n
  nodup : F.Nodup

section Links

variable {m m' : Image} {p : Ptr} {F bs ix : List ℕ} {n n' b : ℕ} {W : Option ℕ → Index → Prop}

theorem Placed.length_lt (h : Placed p F n) (hn : n ≤ nblock) : F.length < 1024 := by
  have hsub : F ⊆ List.range' 3 (n - 3) := fun b hb => by
    have hr := h.range b hb
    rw [List.mem_range'_1]
    omega
  have hle := (List.subperm_of_subset h.nodup hsub).length_le
  rw [List.length_range'] at hle
  unfold nblock at hn
  omega

theorem Placed.mono (h : Placed p F n) (hn : n ≤ n') : Placed p F n' :=
  ⟨h.room, fun b hb => ⟨(h.self b hb).1, lt_of_lt_of_le (h.self b hb).2 hn⟩,
    fun b hb => ⟨(h.range b hb).1, lt_of_lt_of_le (h.range b hb).2 hn⟩, h.nodup⟩

theorem Placed.sublist {F' : List ℕ} (h : Placed p F n) (hs : F'.Sublist F) : Placed p F' n :=
  ⟨h.room, fun b hb => ⟨fun hF => (h.self b hb).1 (hs.subset hF), (h.self b hb).2⟩,
    fun b hb => h.range b (hs.subset hb), h.nodup.sublist hs⟩

/-- One block more. -/
theorem Placed.insert (h : Placed p F n) (h3 : 3 ≤ n) : Placed p (n :: F) (n + 1) := by
  refine ⟨h.room, fun b hb => ⟨fun hF => ?_, Nat.lt_succ_of_lt (h.self b hb).2⟩, fun b hb => ?_,
    List.nodup_cons.mpr ⟨fun hn => absurd (h.range n hn).2 (lt_irrefl n), h.nodup⟩⟩
  · rcases List.mem_cons.mp hF with rfl | hF
    · exact absurd (h.self b hb).2 (lt_irrefl b)
    · exact (h.self b hb).1 hF
  · rcases List.mem_cons.mp hb with rfl | hF
    · exact ⟨h3, Nat.lt_succ_self b⟩
    · exact ⟨(h.range b hF).1, Nat.lt_succ_of_lt (h.range b hF).2⟩

theorem ofNat_toNat_of_lt (hb : b < 1024) : (BitVec.ofNat 32 b).toNat = b := by
  rw [BitVec.toNat_ofNat]
  omega

theorem ofNat_ne_zero (h3 : 0 < b) (hb : b < 1024) : BitVec.ofNat 32 b ≠ 0#32 := fun h => by
  have hz := congrArg BitVec.toNat h
  rw [ofNat_toNat_of_lt hb] at hz
  exact absurd hz (by simp; omega)

theorem Links.noIndex (h : Links m p bs ix) (h10 : bs.length ≤ 10) : ix = [] := by
  have hlen := h.indexed
  rw [if_pos h10] at hlen
  exact List.length_eq_zero_iff.mp hlen

theorem Links.hasIndex (h : Links m p bs ix) (h10 : ¬bs.length ≤ 10) : ∃ x, ix = [x] := by
  have hlen := h.indexed
  rw [if_neg h10] at hlen
  exact List.length_eq_one_iff.mp hlen

/-- The pointers of a record depend on its words and on its index block. -/
theorem Links.frame (h : Links m p bs ix) (hp : Placed p (bs ++ ix) n) (hn : n ≤ nblock)
    (hc : Changes W m m') (hrec : ∀ i : Index, p.base + 34 ≤ i.val → i.val < p.base + 45 → ¬W p.block i)
    (hix : ∀ x ∈ ix, ∀ i, ¬W (some x) i) : Links m' p bs ix := by
  have hroom := hp.room
  have hind : m'.word p fIndirect = m.word p fIndirect :=
    hc.word (show p.base + 44 < 1024 by omega) fun i hi => hrec i (by rw [hi]; unfold fIndirect; omega)
      (by rw [hi]; unfold fIndirect; omega)
  refine ⟨fun i hi => ?_, hind.trans h.index, h.indexed⟩
  rw [← h.ptr i hi]
  unfold Image.ptr
  by_cases h10 : i < ndirect
  · rw [if_pos h10, if_pos h10]
    unfold ndirect at h10
    refine hc.word (by unfold fDirect; omega) fun j hj => hrec j ?_ ?_
    · rw [hj]
      unfold fDirect
      omega
    · rw [hj]
      unfold fDirect
      omega
  · rw [if_neg h10, if_neg h10, hind]
    by_cases h0 : m.word p fIndirect = 0#32
    · rw [if_pos h0, if_pos h0]
    · rw [if_neg h0, if_neg h0]
      have hb : ¬bs.length ≤ 10 := fun hle => by
        rw [h.index, h.noIndex hle] at h0
        exact h0 rfl
      obtain ⟨x, rfl⟩ := h.hasIndex hb
      have hx := (hp.range x (by simp)).2
      unfold nblock at hn
      rw [h.index]
      show m'.word ⟨some (BitVec.ofNat 32 x).toNat, 0⟩ i = m.word ⟨some (BitVec.ofNat 32 x).toNat, 0⟩ i
      rw [ofNat_toNat_of_lt (by omega)]
      exact hc.word (by simpa using hi) fun j _ => hix x (by simp) j

theorem Links.direct (h : Links m p bs ix) {i : ℕ} (hi : i < 10) :
    m.word p (fDirect i) = BitVec.ofNat 32 (bs.getD i 0) := by
  have hptr := h.ptr i (by omega)
  unfold Image.ptr at hptr
  rwa [if_pos (show i < ndirect from hi)] at hptr

theorem Links.indirect {x : ℕ} (h : Links m p bs [x]) (h3 : 0 < x) (hx : x < 1024) {i : ℕ}
    (h10 : 10 ≤ i) (hi : i < 1024) : m.word ⟨some x, 0⟩ i = BitVec.ofNat 32 (bs.getD i 0) := by
  have hptr := h.ptr i hi
  unfold Image.ptr at hptr
  rw [if_neg (show ¬i < ndirect by unfold ndirect; omega), h.index] at hptr
  rwa [if_neg (show ¬BitVec.ofNat 32 ([x].headD 0) = 0#32 from ofNat_ne_zero h3 hx),
    show (BitVec.ofNat 32 ([x].headD 0)).toNat = x from ofNat_toNat_of_lt hx] at hptr

/-- Pointers in the record and in an index block. -/
theorem links_of_index {x : ℕ} (h3 : 0 < x) (hx : x < 1024) (h10 : 10 < bs.length)
    (hind : m.word p fIndirect = BitVec.ofNat 32 x)
    (hdir : ∀ i < 10, m.word p (fDirect i) = BitVec.ofNat 32 (bs.getD i 0))
    (hblk : ∀ i, 10 ≤ i → i < 1024 → m.word ⟨some x, 0⟩ i = BitVec.ofNat 32 (bs.getD i 0)) :
    Links m p bs [x] := by
  refine ⟨fun i hi => ?_, hind, by rw [if_neg (by omega)]; rfl⟩
  unfold Image.ptr
  by_cases hlt : i < ndirect
  · rw [if_pos hlt]
    exact hdir i hlt
  · rw [if_neg hlt, hind, if_neg (ofNat_ne_zero h3 hx), ofNat_toNat_of_lt hx]
    exact hblk i (Nat.not_lt.mp hlt) hi

theorem getD_concat (bs : List ℕ) (b i : ℕ) :
    (bs ++ [b]).getD i 0 = if i = bs.length then b else bs.getD i 0 := by
  by_cases hi : i < bs.length
  · rw [if_neg (by omega), List.getD_append _ _ _ _ hi]
  · by_cases he : i = bs.length
    · subst he
      simp
    · rw [if_neg he, List.getD_eq_default _ _ (by simp; omega), List.getD_eq_default _ _ (by omega)]

/-- The number of blocks that block `k` of a record needs besides itself. -/
def indexCost (k : ℕ) : ℕ := if k = 10 then 1 else 0

/-- The record at `p` has the pointer of one more block. -/
structure Linked (p : Ptr) (m m' : Image) (bs ix : List ℕ) (b : ℕ) (ix' : List ℕ) : Prop where
  links : Links m' p (bs ++ [b]) ix'
  placed : Placed p (b :: (bs ++ ix')) m'.nextbno
  fresh : Fresh m'
  new : ∀ x ∈ ix', x ∈ ix ∨ m.nextbno ≤ x
  changes : Changes (fun o i => InRecord p 34 45 o i ∨ InBlocks ix' o) m m'

/-- A pointer of the record itself. -/
theorem linked_direct (hl : Links m p bs []) (hp : Placed p (b :: (bs ++ [])) m.nextbno) (hf : Fresh m)
    (h10 : bs.length < 10) :
    Linked p m (m.setWord p (fDirect bs.length) (BitVec.ofNat 32 b)) bs [] b [] := by
  have hroom := hp.room
  have hch := changes_setWord (m := m) (p := p) (k := fDirect bs.length)
    (w := BitVec.ofNat 32 b) (by unfold fDirect; omega)
  have hind : (m.setWord p (fDirect bs.length) (BitVec.ofNat 32 b)).word p fIndirect =
      m.word p fIndirect := by
    rw [word_setWord (by unfold fDirect; omega) (by unfold fIndirect; omega),
      if_neg (by unfold fDirect fIndirect; omega)]
  refine ⟨⟨fun i hi => ?_, hind.trans hl.index, ?_⟩, hp, ?_, fun x => .inl, ?_⟩
  · rw [getD_concat]
    unfold Image.ptr
    by_cases hi10 : i < ndirect
    · unfold ndirect at hi10
      rw [if_pos (show i < ndirect from hi10), word_setWord (by unfold fDirect; omega)
        (by unfold fDirect; omega)]
      by_cases he : i = bs.length
      · rw [if_pos ⟨rfl, by rw [he]⟩, if_pos he]
      · rw [if_neg (by unfold fDirect; omega), if_neg he, hl.direct hi10]
    · unfold ndirect at hi10
      rw [if_neg (show ¬i < ndirect from hi10), hind, hl.index,
        if_pos (show BitVec.ofNat 32 ([].headD 0) = 0#32 from rfl), if_neg (by omega),
        List.getD_eq_default _ _ (by omega)]
  · rw [if_pos (by simp; omega)]
    rfl
  · exact hf.of_changes (le_refl _) hch fun x i hx hW =>
      absurd (hp.self x hW.1.symm).2 (Nat.not_lt.mpr hx)
  · refine hch.mono fun o i hW => .inl ⟨hW.1, ?_, ?_⟩
    · have hlo := hW.2.1
      unfold fDirect at hlo
      omega
    · have hhi := hW.2.2
      unfold fDirect at hhi
      omega

/-- The record has the index block `x`, with room for the pointer of one more block. -/
structure Indexed (p : Ptr) (m m' : Image) (bs ix : List ℕ) (b x : ℕ) : Prop where
  index : m'.word p fIndirect = BitVec.ofNat 32 x
  placed : Placed p (b :: (bs ++ [x])) m'.nextbno
  cap : m'.nextbno ≤ nblock
  fresh : Fresh m'
  direct : ∀ i < 10, m'.word p (fDirect i) = BitVec.ofNat 32 (bs.getD i 0)
  indirect : ∀ i, 10 ≤ i → i < 1024 → m'.word ⟨some x, 0⟩ i = BitVec.ofNat 32 (bs.getD i 0)
  from_old : x ∈ ix ∨ m.nextbno ≤ x
  changes : Changes (fun o i => InRecord p 34 45 o i ∨ InBlocks [x] o) m m'

/-- The pointer goes into the index block. -/
theorem Indexed.runs_store {m₁ : Image} {x : ℕ} (h : Indexed p m m₁ bs ix b x) (h10 : 10 ≤ bs.length) :
    Runs id (do
      inArray (m₁.word p fIndirect).toNat
      pure (m₁.setWord ⟨some (m₁.word p fIndirect).toNat, 0⟩ bs.length (BitVec.ofNat 32 b)) :
        Except Abort Image) m₁.nextbno 0 (fun m' => ∃ ix', Linked p m m' bs ix b ix') := by
  have hbig : nblock = 1024 := rfl
  have hcap := h.cap
  have hroom := h.placed.room
  have hx := h.placed.range x (by simp)
  have hx0 : 0 < x := by omega
  have hx1 : x < 1024 := by omega
  have hlen := h.placed.length_lt h.cap
  rw [List.length_cons, List.length_append] at hlen
  have hself : p.block ≠ some x := fun hb => (h.placed.self x hb).1 (by simp)
  have hch₁ := changes_setWord (m := m₁) (p := ⟨some x, 0⟩) (k := bs.length)
    (w := BitVec.ofNat 32 b) (by simp; omega)
  have hrec : ∀ k, k < 64 → (m₁.setWord ⟨some x, 0⟩ bs.length (BitVec.ofNat 32 b)).word p k =
      m₁.word p k := fun k hk => by
    rw [word_setWord (by simp; omega) (by omega), if_neg fun h => hself h.1]
  rw [h.index, ofNat_toNat_of_lt hx1, inArray_of_lt (show x < nblock by omega)]
  refine Runs.of_ok rfl h.cap ⟨[x], links_of_index hx0 hx1 (by simp; omega) ?_ ?_ ?_, h.placed, ?_, ?_, ?_⟩
  · rw [hrec _ (by unfold fIndirect; omega)]
    exact h.index
  · intro i hi
    rw [hrec _ (by unfold fDirect; omega), h.direct i hi, getD_concat, if_neg (by omega)]
  · intro i hi10 hi
    rw [word_setWord (by simp; omega) (by simpa using hi), getD_concat]
    by_cases he : i = bs.length
    · rw [if_pos ⟨rfl, by rw [he]⟩, if_pos he]
    · rw [if_neg (by simpa using he), if_neg he, h.indirect i hi10 hi]
  · exact h.fresh.of_changes (le_refl _) hch₁ fun y i hy hW => by
      obtain rfl : y = x := Option.some.inj hW.1
      exact absurd hx.2 (Nat.not_lt.mpr hy)
  · intro y hy
    obtain rfl := List.mem_singleton.mp hy
    exact h.from_old
  · exact h.changes.trans (hch₁.mono fun o i hW => .inr ⟨x, by simp, hW.1⟩)

/-- The eleventh block of a record gets the index block. -/
theorem indexed_new (hl : Links m p bs []) (hp : Placed p (b :: (bs ++ [])) m.nextbno) (hf : Fresh m)
    (h10 : bs.length = 10) (hcap : m.nextbno + 1 ≤ nblock) :
    Indexed p m (({ m with nextbno := m.nextbno + 1 } : Image).setWord p fIndirect
      (BitVec.ofNat 32 m.nextbno)) bs [] b m.nextbno := by
  have hroom := hp.room
  have hroom' : p.base + fIndirect < 1024 := by
    unfold fIndirect
    omega
  have hch := changes_setWord (m := { m with nextbno := m.nextbno + 1 }) (p := p) (k := fIndirect)
    (w := BitVec.ofNat 32 m.nextbno) hroom'
  have h3 : 3 ≤ m.nextbno := by
    have hr := hp.range b (by simp)
    omega
  have hself : p.block ≠ some m.nextbno := fun h => absurd (hp.self _ h).2 (lt_irrefl _)
  refine ⟨?_, ?_, hcap, ?_, ?_, ?_, .inr (le_refl _), ?_⟩
  · rw [word_setWord hroom' hroom', if_pos ⟨rfl, rfl⟩]
  · have hins := hp.insert h3
    rw [List.append_nil] at hins
    have hperm : (m.nextbno :: b :: bs).Perm (b :: (bs ++ [m.nextbno])) :=
      (List.Perm.swap ..).trans (.cons _ (List.perm_append_singleton ..).symm)
    exact ⟨hins.room, fun y hy => ⟨fun h => (hins.self y hy).1 (hperm.mem_iff.mpr h), (hins.self y hy).2⟩,
      fun y hy => hins.range y (hperm.mem_iff.mpr hy), hperm.nodup_iff.mp hins.nodup⟩
  · refine Fresh.of_changes (m := { m with nextbno := m.nextbno + 1 })
      (fun y hy => hf y (by simp at hy; omega)) (le_refl _) hch fun y i hy hW => ?_
    have hlt := (hp.self y hW.1.symm).2
    simp at hy
    omega
  · intro i hi
    rw [word_setWord hroom' (by unfold fDirect; omega), if_neg (by unfold fDirect fIndirect; omega)]
    exact hl.direct hi
  · intro i hi10 hi
    rw [word_setWord hroom' (by simpa using hi), if_neg fun h => hself h.1.symm,
      List.getD_eq_default _ _ (by omega)]
    exact hf _ (le_refl _) _
  · refine Changes.mono (W := InRecord p fIndirect (fIndirect + 1)) hch fun o i hW => .inl ⟨hW.1, ?_, ?_⟩
    · have hlo := hW.2.1
      unfold fIndirect at hlo
      omega
    · have hhi := hW.2.2
      unfold fIndirect at hhi
      omega

/-- `save_block_link` of the block after the last one. -/
theorem runs_saveBlockLink (hl : Links m p bs ix) (hp : Placed p (b :: (bs ++ ix)) m.nextbno)
    (hf : Fresh m) (hle : m.nextbno ≤ nblock) :
    Runs id (saveBlockLink m p bs.length b) m.nextbno (indexCost bs.length)
      (fun m' => ∃ ix', Linked p m m' bs ix b ix') := by
  have hlen := hp.length_lt hle
  rw [List.length_cons, List.length_append] at hlen
  have hbig : nblock = 1024 := rfl
  unfold saveBlockLink
  rw [if_pos (show bs.length < nindirect by unfold nindirect; omega)]
  by_cases h10 : bs.length < 10
  · obtain rfl := hl.noIndex (by omega)
    rw [if_pos (show bs.length < ndirect from h10), indexCost, if_neg (by omega)]
    exact Runs.of_ok rfl hle ⟨[], linked_direct hl hp hf h10⟩
  · rw [if_neg (show ¬bs.length < ndirect from h10)]
    unfold indexBlock
    by_cases he : bs.length = 10
    · obtain rfl := hl.noIndex (by omega)
      rw [hl.index, if_pos (show BitVec.ofNat 32 ([].headD 0) = 0#32 from rfl), indexCost, if_pos he,
        bind_assoc]
      refine Runs.bind (d := 0) (runs_nextBlock m) ?_
      rintro _ rfl hle₁ -
      exact (indexed_new hl hp hf he hle₁).runs_store (Nat.not_lt.mp h10)
    · obtain ⟨x, rfl⟩ := hl.hasIndex (by omega)
      have hx := hp.range x (by simp)
      have hold : Indexed p m m bs [x] b x :=
        ⟨hl.index, hp, hle, hf, fun i hi => hl.direct hi,
          fun i h1 h2 => hl.indirect (by omega) (by omega) h1 h2, .inl (by simp), fun o i _ => rfl⟩
      rw [hl.index, if_neg (show ¬BitVec.ofNat 32 ([x].headD 0) = 0#32 from
        ofNat_ne_zero (b := x) (by omega) (by omega)), indexCost, if_neg he]
      exact hold.runs_store (Nat.not_lt.mp h10)

end Links

end Fsformat
end RvMos
