/-
The tree that `fsformat` lays out.

What is written for a file or a directory of the host lies in its record and in blocks of
its own.  `Rep` says that a record stands for a node, with the list of the blocks that the
node has.  It depends on no other word, so a directory that is being filled keeps it for
the entries that it has while the next one is written.
-/
import RvMos.Tools.Links

namespace RvMos

namespace Fsformat

open Fs (Byte)

/-! ## Records that stand for nodes -/

def Image.byte (m : Image) (p : Ptr) (k : ℕ) : Byte := pageByte (m.mem p.block) (4 * p.base + k)

/-- A name stands in a record. -/
structure Named (m : Image) (p : Ptr) (name : List Byte) : Prop where
  bytes : ∀ k (h : k < name.length), m.byte p k = name.get ⟨k, h⟩
  stop : m.byte p name.length = 0#8
  length : name.length < 128
  ne : name ≠ []
  clean : 0#8 ∉ name

/-- A record that has not been written. -/
def Blank (m : Image) (p : Ptr) : Prop := ∀ k < 64, m.word p k = 0#32

/-- The blocks have the bytes of a file. -/
def Holds (m : Image) (bs : List ℕ) (data : List Byte) : Prop :=
  ∀ y (h : y < data.length), pageByte (m.mem (some (bs.getD (y / 4096) 0))) (y % 4096) = data.get ⟨y, h⟩

/-- The record of entry `i` in the blocks of a directory. -/
def slot (bs : List ℕ) (i : ℕ) : Ptr := record (bs.getD (i / 16) 0) (i % 16)

/-- A directory with `k` entries: the records after them have not been written. -/
structure Slots (m : Image) (d : Ptr) (k : ℕ) (bs ix : List ℕ) : Prop where
  links : Links m d bs ix
  size : m.word d fSize = BitVec.ofNat 32 (4096 * bs.length)
  blank : ∀ j, k ≤ j → j < 16 * bs.length → Blank m (slot bs j)

mutual

/-- The record at `p` stands for a node, which has the blocks `F`. -/
def Rep (m : Image) : Ptr → Node → List ℕ → Prop
  | p, .file name data, F =>
    Named m p name ∧ m.word p fType = 0#32 ∧ m.word p fSize = BitVec.ofNat 32 data.length ∧
      ∃ bs ix, Links m p bs ix ∧ bs.length = (data.length + 4095) / 4096 ∧ Holds m bs data ∧
        F = bs ++ ix
  | p, .dir name es, F =>
    Named m p (name.take 127) ∧ m.word p fType = 1#32 ∧
      ∃ bs ix G, Slots m p es.length bs ix ∧ bs.length = (es.length + 15) / 16 ∧
        RepAll m bs 0 es G ∧ F = bs ++ ix ++ G

/-- The records of a directory from entry `i` on stand for the nodes. -/
def RepAll (m : Image) (bs : List ℕ) : ℕ → List Node → List ℕ → Prop
  | _, [], G => G = []
  | i, n :: ns, G => ∃ F G', Rep m (slot bs i) n F ∧ RepAll m bs (i + 1) ns G' ∧ G = F ++ G'

end

/-- The name that a record gets. -/
def Node.stored : Node → List Byte
  | .file name _ => name
  | .dir name _ => name.take 127

mutual

/-- Names that a host has, and none of a file that is too long for a record. -/
def Node.Ok : Node → Prop
  | .file name _ => name ≠ [] ∧ 0#8 ∉ name ∧ name.length < 128
  | .dir name es => name ≠ [] ∧ 0#8 ∉ name ∧ AllOk es

def AllOk : List Node → Prop
  | [] => True
  | n :: ns => n.Ok ∧ AllOk ns

end

/-! ## What a record depends on -/

/-- The record at `p` and the blocks `F`. -/
def Own (p : Ptr) (F : List ℕ) (o : Option ℕ) (i : Index) : Prop := InRecord p 0 64 o i ∨ InBlocks F o

section Frame

variable {m m' : Image} {p d : Ptr} {F G bs ix : List ℕ} {k n j : ℕ} {name : List Byte}
  {W : Option ℕ → Index → Prop}

theorem Changes.byte (h : Changes W m m') (hp : p.base + 64 ≤ 1024) (hk : k < 128)
    (hW : ∀ i, InRecord p 0 32 p.block i → ¬W p.block i) : m'.byte p k = m.byte p k := by
  unfold Image.byte pageByte
  rw [h _ _ (hW _ ⟨rfl, ?_, ?_⟩)]
  · rw [index_val (by omega)]
    omega
  · rw [index_val (by omega)]
    omega

theorem Named.frame (h : Named m p name) (hp : p.base + 64 ≤ 1024) (hc : Changes W m m')
    (hW : ∀ i, InRecord p 0 32 p.block i → ¬W p.block i) : Named m' p name := by
  have hlen := h.length
  refine ⟨fun k hk => ?_, ?_, hlen, h.ne, h.clean⟩
  · rw [hc.byte hp (by omega) hW]
    exact h.bytes k hk
  · rw [hc.byte hp hlen hW]
    exact h.stop

theorem Blank.frame (h : Blank m p) (hp : p.base + 64 ≤ 1024) (hc : Changes W m m')
    (hW : ∀ i, InRecord p 0 64 p.block i → ¬W p.block i) : Blank m' p := fun k hk => by
  rw [hc.word (by omega) fun i hi => hW i ⟨rfl, by omega, by omega⟩]
  exact h k hk

theorem Holds.frame {data : List Byte} (h : Holds m bs data) (hlen : data.length ≤ 4096 * bs.length)
    (hc : Changes W m m') (hW : ∀ b ∈ bs, ∀ i, ¬W (some b) i) : Holds m' bs data := fun y hy => by
  have hlt : y / 4096 < bs.length := by omega
  have hmem : bs.getD (y / 4096) 0 ∈ bs := by
    rw [List.getD_eq_getElem _ _ hlt]
    exact List.getElem_mem hlt
  unfold pageByte
  rw [hc _ _ (hW _ hmem _)]
  exact h y hy

theorem slot_mem (hj : j < 16 * bs.length) : bs.getD (j / 16) 0 ∈ bs := by
  have hlt : j / 16 < bs.length := by omega
  rw [List.getD_eq_getElem _ _ hlt]
  exact List.getElem_mem hlt

theorem slot_room (bs : List ℕ) (j : ℕ) : (slot bs j).base + 64 ≤ 1024 := by
  show 64 * (j % 16) + 64 ≤ 1024
  omega

/-- A record of a directory and the blocks of an entry are placed where those of the
directory are. -/
theorem Placed.slot (h : Placed d (bs ++ ix ++ G) n) (hj : j < 16 * bs.length) :
    Placed (slot bs j) G n := by
  have hmem := slot_mem hj
  refine ⟨slot_room bs j, fun b hb => ?_, fun b hb => h.range b (by simp [hb]), ?_⟩
  · obtain rfl := Option.some.inj hb
    have hleft := List.mem_append_left ix hmem
    refine ⟨fun hG => ?_, (h.range _ (List.mem_append_left G hleft)).2⟩
    exact (List.nodup_append.mp h.nodup).2.2 _ hleft _ hG rfl
  · exact (List.nodup_append.mp h.nodup).2.1

/-- Two records of a directory are apart. -/
theorem slot_apart (hnd : bs.Nodup) (hj : j < 16 * bs.length) (hk : k < 16 * bs.length)
    (hne : j ≠ k) {o : Option ℕ} {i : Index} (h : InRecord (slot bs j) 0 64 o i) :
    ¬InRecord (slot bs k) 0 64 o i := by
  rintro ⟨hk0, hk1, hk2⟩
  obtain ⟨hj0, hj1, hj2⟩ := h
  have hblk : bs.getD (j / 16) 0 = bs.getD (k / 16) 0 := Option.some.inj (hj0.symm.trans hk0)
  rw [List.getD_eq_getElem _ _ (show j / 16 < bs.length by omega),
    List.getD_eq_getElem _ _ (show k / 16 < bs.length by omega)] at hblk
  have hdiv := (List.Nodup.getElem_inj_iff hnd).mp hblk
  have hb : (slot bs j).base = 64 * (j % 16) := rfl
  have hb' : (slot bs k).base = 64 * (k % 16) := rfl
  omega

mutual

/-- A record stands for its node where its words and blocks are as before. -/
theorem Rep.frame (hn : n ≤ nblock) (hc : Changes W m m') : ∀ (node : Node) (p : Ptr) (F : List ℕ),
    Rep m p node F → Placed p F n → (∀ o i, Own p F o i → ¬W o i) → Rep m' p node F
  | .file name data, p, F, h, hp, hW => by
    unfold Rep at h ⊢
    obtain ⟨hname, htype, hsize, bs, ix, hl, hlen, hh, rfl⟩ := h
    have hroom := hp.room
    have hrec : ∀ i, InRecord p 0 64 p.block i → ¬W p.block i := fun i hi => hW _ _ (.inl hi)
    refine ⟨hname.frame hroom hc fun i hi => hrec i ⟨hi.1, hi.2.1, by have := hi.2.2; omega⟩, ?_, ?_,
      bs, ix, hl.frame hp hn hc (fun i h1 h2 => hrec i ⟨rfl, by omega, by omega⟩)
        (fun x hx i => hW _ _ (.inr ⟨x, by simp [hx], rfl⟩)), hlen, hh.frame (by omega) hc
        (fun b hb i => hW _ _ (.inr ⟨b, by simp [hb], rfl⟩)), rfl⟩
    · rw [hc.word (by unfold fType; omega) fun i hi => hrec i ⟨rfl, by omega, by unfold fType at hi; omega⟩]
      exact htype
    · rw [hc.word (by unfold fSize; omega) fun i hi => hrec i ⟨rfl, by omega, by unfold fSize at hi; omega⟩]
      exact hsize
  | .dir name es, p, F, h, hp, hW => by
    unfold Rep at h ⊢
    obtain ⟨hname, htype, bs, ix, G, hs, hlen, hall, rfl⟩ := h
    have hroom := hp.room
    have hrec : ∀ i, InRecord p 0 64 p.block i → ¬W p.block i := fun i hi => hW _ _ (.inl hi)
    have hblocks : ∀ b ∈ bs, ∀ i, ¬W (some b) i := fun b hb i => hW _ _ (.inr ⟨b, by simp [hb], rfl⟩)
    refine ⟨hname.frame hroom hc fun i hi => hrec i ⟨hi.1, hi.2.1, by have := hi.2.2; omega⟩, ?_,
      bs, ix, G, ⟨?_, ?_, fun j hj hlt => ?_⟩, hlen, ?_, rfl⟩
    · rw [hc.word (by unfold fType; omega) fun i hi => hrec i ⟨rfl, by omega, by unfold fType at hi; omega⟩]
      exact htype
    · exact hs.links.frame (hp.sublist (List.sublist_append_left ..)) hn hc
        (fun i h1 h2 => hrec i ⟨rfl, by omega, by omega⟩)
        (fun x hx i => hW _ _ (.inr ⟨x, by simp [hx], rfl⟩))
    · rw [hc.word (by unfold fSize; omega) fun i hi => hrec i ⟨rfl, by omega, by unfold fSize at hi; omega⟩]
      exact hs.size
    · exact (hs.blank j hj hlt).frame (slot_room bs j) hc fun i _ => hblocks _ (slot_mem hlt) i
    · exact RepAll.frame hn hc es bs 0 G hall (fun j _ hj => hp.slot (by omega))
        (fun j _ hj i _ => hblocks _ (slot_mem (by omega)) i)
        (fun b hb i => hW _ _ (.inr ⟨b, by simp [hb], rfl⟩))

theorem RepAll.frame (hn : n ≤ nblock) (hc : Changes W m m') : ∀ (es : List Node) (bs : List ℕ)
    (i : ℕ) (G : List ℕ), RepAll m bs i es G → (∀ j, i ≤ j → j < i + es.length → Placed (slot bs j) G n) →
    (∀ j, i ≤ j → j < i + es.length → ∀ x, InRecord (slot bs j) 0 64 (slot bs j).block x →
      ¬W (slot bs j).block x) →
    (∀ b ∈ G, ∀ x, ¬W (some b) x) → RepAll m' bs i es G
  | [], _, _, _, h, _, _, _ => by
    unfold RepAll at h ⊢
    exact h
  | node :: es, bs, i, G, h, hp, hrec, hG => by
    unfold RepAll at h ⊢
    obtain ⟨F, G', hr, hall, rfl⟩ := h
    rw [List.length_cons] at hp hrec
    refine ⟨F, G', Rep.frame hn hc node _ F hr
        ((hp i (le_refl i) (by omega)).sublist (List.sublist_append_left ..)) ?_,
      RepAll.frame hn hc es bs (i + 1) G' hall
        (fun j h1 h2 => (hp j (by omega) (by omega)).sublist (List.sublist_append_right ..))
        (fun j h1 h2 => hrec j (by omega) (by omega)) (fun b hb => hG b (by simp [hb])), rfl⟩
    rintro o x (hx | ⟨b, hb, rfl⟩)
    · obtain rfl := hx.1
      exact hrec i (le_refl i) (by omega) x hx
    · exact hG b (by simp [hb]) x

end

end Frame

/-! ## A record for the next entry -/

/-- The blocks that a directory takes for its entry number `k`. -/
def entryCost (k : ℕ) : ℕ := if k % 16 = 0 then 1 + indexCost (k / 16) else 0

/-- The directory has a record that has not been written for its entry number `k`. -/
structure Seated (m m' : Image) (d : Ptr) (k : ℕ) (bs ix bs' ix' : List ℕ) : Prop where
  links : Links m' d bs' ix'
  size : m'.word d fSize = BitVec.ofNat 32 (4096 * bs'.length)
  count : bs'.length = k / 16 + 1
  old : ∀ j < 16 * bs.length, slot bs' j = slot bs j
  blank : ∀ j, k ≤ j → j < 16 * bs'.length → Blank m' (slot bs' j)
  placed : Placed d (bs' ++ ix') m'.nextbno
  fresh : Fresh m'
  new : ∀ x ∈ bs' ++ ix', x ∈ bs ++ ix ∨ m.nextbno ≤ x
  changes : Changes (fun o i => InRecord d 32 33 o i ∨ InRecord d 34 45 o i ∨ InBlocks ix' o) m m'

section Seat

variable {m m' : Image} {d : Ptr} {F F' G bs ix : List ℕ} {b i k n n' t : ℕ}

/-- Blocks that are new are apart from those that were there. -/
theorem Placed.extend (h : Placed d (F ++ G) n) (h' : Placed d F' n') (hn : n ≤ n')
    (hnew : ∀ x ∈ F', x ∈ F ∨ n ≤ x) : Placed d (F' ++ G) n' := by
  have hG : ∀ x ∈ G, x < n := fun x hx => (h.range x (List.mem_append_right F hx)).2
  refine ⟨h.room, fun b hb => ⟨fun hF => ?_, (h'.self b hb).2⟩, fun b hb => ?_, ?_⟩
  · rcases List.mem_append.mp hF with hF | hF
    · exact (h'.self b hb).1 hF
    · exact (h.self b hb).1 (List.mem_append_right F hF)
  · rcases List.mem_append.mp hb with hb | hb
    · exact h'.range b hb
    · exact ⟨(h.range b (List.mem_append_right F hb)).1, lt_of_lt_of_le (hG b hb) hn⟩
  · have hnd := List.nodup_append.mp h.nodup
    refine List.nodup_append.mpr ⟨h'.nodup, hnd.2.1, fun x hx y hy he => ?_⟩
    subst he
    rcases hnew x hx with hF | hle
    · exact hnd.2.2 x hF x hy rfl
    · exact absurd (hG x hy) (Nat.not_lt.mpr hle)

theorem blockNumber_eq (hl : Links m d bs ix) (hp : Placed d (bs ++ ix) n) (hn : n ≤ nblock)
    (hi : i < bs.length) : blockNumber m d i = .ok (bs.getD i 0) := by
  have hlen := hp.length_lt hn
  rw [List.length_append] at hlen
  have hbig : nblock = 1024 := rfl
  have hlt : bs.getD i 0 < 1024 := by
    rw [List.getD_eq_getElem _ _ hi]
    have hr := hp.range bs[i] (List.mem_append_left ix (List.getElem_mem hi))
    omega
  unfold blockNumber
  by_cases h10 : i < 10
  · rw [if_pos (show i < ndirect from h10), hl.direct h10, ofNat_toNat_of_lt hlt]
    rfl
  · obtain ⟨x, rfl⟩ := hl.hasIndex (by omega)
    have hx := hp.range x (by simp)
    rw [if_neg (show ¬i < ndirect from h10), hl.index,
      show (BitVec.ofNat 32 ([x].headD 0)).toNat = x from ofNat_toNat_of_lt (b := x) (by omega)]
    simp only
    rw [inArray_of_lt (show x < nblock by omega)]
    show Except.ok (m.word ⟨some x, 0⟩ i).toNat = _
    rw [hl.indirect (by omega) (by omega) (Nat.not_lt.mp h10) (by omega), ofNat_toNat_of_lt hlt]

theorem freeRecord_none (h : ∀ t < 16, m.byte (record b t) 0 ≠ 0#8) : freeRecord m b = none := by
  unfold freeRecord
  rw [List.find?_map, List.find?_range_eq_none.mpr fun t ht => by simpa [Image.byte] using h t ht]
  rfl

theorem freeRecord_some (ht : t < 16) (hz : m.byte (record b t) 0 = 0#8)
    (h : ∀ u < t, m.byte (record b u) 0 ≠ 0#8) : freeRecord m b = some (record b t) := by
  unfold freeRecord
  have hfind : (List.range file2blk).find? ((fun f : Ptr =>
      decide (pageByte (m.mem f.block) (4 * f.base) = 0#8)) ∘ record b) = some t :=
    List.find?_range_eq_some.mpr ⟨by simpa [Image.byte] using hz, List.mem_range.mpr ht,
      fun u hu => by simpa [Image.byte] using h u hu⟩
  rw [List.find?_map, hfind]
  rfl

/-- The search of `create_file` comes to the first record after the entries. -/
theorem findRecord_eq (hl : Links m d bs ix) (hp : Placed d (bs ++ ix) n) (hn : n ≤ nblock)
    (hused : ∀ j < k, m.byte (slot bs j) 0 ≠ 0#8)
    (hblank : ∀ j, k ≤ j → j < 16 * bs.length → m.byte (slot bs j) 0 = 0#8) (c lo : ℕ)
    (hc : lo + c = bs.length) (hlo : 16 * lo ≤ k) : findRecord m d (List.range' lo c) =
      .ok (if k < 16 * bs.length then some (slot bs k) else none) := by
  induction c generalizing lo with
  | zero =>
    rw [if_neg (by omega)]
    rfl
  | succ c ih =>
    have hslot : ∀ t < 16, slot bs (16 * lo + t) = record (bs.getD lo 0) t := fun t ht => by
      unfold slot
      rw [show (16 * lo + t) / 16 = lo by omega, show (16 * lo + t) % 16 = t by omega]
    have hblk := hp.range (bs.getD lo 0) (List.mem_append_left ix (by
      rw [List.getD_eq_getElem _ _ (show lo < bs.length by omega)]
      exact List.getElem_mem _))
    rw [List.range'_succ, findRecord, blockNumber_eq hl hp hn (by omega)]
    rw [ok_bind, inArray_of_lt (by omega), ok_bind]
    by_cases hin : k < 16 * lo + 16
    · have hk : 16 * lo + (k - 16 * lo) = k := by omega
      have hrec := hslot (k - 16 * lo) (by omega)
      rw [hk] at hrec
      rw [freeRecord_some (t := k - 16 * lo) (by omega) ?_ fun u hu => ?_, if_pos (by omega), hrec]
      · rfl
      · rw [← hrec]
        exact hblank k (le_refl k) (by omega)
      · rw [← hslot u (by omega)]
        exact hused _ (by omega)
    · rw [freeRecord_none fun t ht => ?_]
      · exact ih (lo + 1) (by omega) (by omega)
      · rw [← hslot t ht]
        exact hused _ (by omega)

theorem Blank.byte {p : Ptr} (h : Blank m p) {y : ℕ} (hy : y < 256) :
    m.byte p y = 0#8 := by
  have hw := h (y / 4) (by omega)
  unfold Image.word at hw
  have hdiv : (4 * p.base + y) / 4 = p.base + y / 4 := by omega
  unfold Image.byte pageByte
  rw [hdiv, hw]
  simp

theorem slot_concat {j : ℕ} (hj : j < 16 * bs.length) : slot (bs ++ [b]) j = slot bs j := by
  unfold slot
  rw [List.getD_append _ _ _ _ (show j / 16 < bs.length by omega)]

/-- A directory gets the block `b` with records that have not been written. -/
theorem seated_linked {m₁ : Image} {ix' : List ℕ} (hs : Slots m d k bs ix)
    (hk : k = 16 * bs.length) (hp : Placed d (bs ++ ix) m.nextbno)
    (hf : Fresh m) (h : Linked d { m with nextbno := m.nextbno + 1 } m₁ bs ix m.nextbno ix')
    (hle : m₁.nextbno ≤ nblock) :
    Seated m (m₁.setWord d fSize (m₁.word d fSize + BitVec.ofNat 32 by2blk)) d k bs ix
      (bs ++ [m.nextbno]) ix' := by
  have hroom := hp.room
  have hp₁ := h.placed
  have hsz : d.base + fSize < 1024 := by
    unfold fSize
    omega
  have hch := changes_setWord (m := m₁) (p := d) (k := fSize)
    (w := m₁.word d fSize + BitVec.ofNat 32 by2blk) hsz
  have hsize₁ : m₁.word d fSize = BitVec.ofNat 32 (4096 * bs.length) := by
    rw [← hs.size]
    refine h.changes.word hsz fun i hi hW => ?_
    rcases hW with hW | ⟨x, hx, hb⟩
    · have hlo := hW.2.1
      unfold fSize at hi
      omega
    · exact (hp₁.self x hb).1 (List.mem_cons_of_mem _ (List.mem_append_right bs hx))
  have hplaced : Placed d (bs ++ [m.nextbno] ++ ix') m₁.nextbno := by
    have hperm : (m.nextbno :: (bs ++ ix')).Perm (bs ++ [m.nextbno] ++ ix') := by
      rw [List.append_assoc]
      exact List.perm_middle.symm
    exact ⟨hp₁.room, fun y hy => ⟨fun h => (hp₁.self y hy).1 (hperm.mem_iff.mpr h), (hp₁.self y hy).2⟩,
      fun y hy => hp₁.range y (hperm.mem_iff.mpr hy), hperm.nodup_iff.mp hp₁.nodup⟩
  -- no word outside the record and the index block has changed
  have hall : Changes (fun o i => InRecord d 32 33 o i ∨ InRecord d 34 45 o i ∨ InBlocks ix' o) m
      (m₁.setWord d fSize (m₁.word d fSize + BitVec.ofNat 32 by2blk)) :=
    Changes.trans (Changes.mono (m := { m with nextbno := m.nextbno + 1 }) h.changes fun o i => .inr)
      (hch.mono fun o i => .inl)
  have hself : ∀ b ∈ bs ++ [m.nextbno] ++ ix', d.block ≠ some b := fun b hb h =>
    (hplaced.self b h).1 hb
  refine ⟨?_, ?_, ?_, fun j hj => slot_concat hj, fun j h1 h2 => ?_, hplaced, ?_, fun x hx => ?_, hall⟩
  · refine h.links.frame (n := m₁.nextbno) hplaced hle hch (fun i h1 _ hW => ?_) fun x hx i hW => ?_
    · have hhi := hW.2.2
      unfold fSize at hhi
      omega
    · exact hself x (List.mem_append_right _ hx) hW.1.symm
  · rw [word_setWord hsz hsz, if_pos ⟨rfl, rfl⟩, hsize₁, List.length_append]
    unfold by2blk
    rw [← BitVec.ofNat_add]
    simp [Nat.mul_add]
  · rw [List.length_append]
    simp
    omega
  · rw [List.length_append, List.length_singleton] at h2
    have hj : (bs ++ [m.nextbno]).getD (j / 16) 0 = m.nextbno := by
      rw [getD_concat, if_pos (by omega)]
    intro l hl
    have hword : m.word (slot (bs ++ [m.nextbno]) j) l = 0#32 := by
      unfold Image.word slot
      rw [hj]
      exact hf _ (le_refl _) _
    refine (hall.word ?_ fun i _ => ?_).trans hword
    · have hr := slot_room (bs ++ [m.nextbno]) j
      omega
    · have hblk : (slot (bs ++ [m.nextbno]) j).block = some m.nextbno := congrArg some hj
      rw [hblk]
      rintro (h | h | ⟨x, hx, he⟩)
      · exact hself m.nextbno (by simp) h.1.symm
      · exact hself m.nextbno (by simp) h.1.symm
      · exact (List.nodup_append.mp hplaced.nodup).2.2 m.nextbno (by simp) x hx (Option.some.inj he)
  · refine h.fresh.of_changes (le_refl _) hch fun y i hy hW => ?_
    exact absurd (hp₁.self y hW.1.symm).2 (Nat.not_lt.mpr hy)
  · rcases List.mem_append.mp hx with hx | hx
    · rcases List.mem_append.mp hx with hx | hx
      · exact .inl (List.mem_append_left ix hx)
      · exact .inr (le_of_eq (List.mem_singleton.mp hx).symm)
    · rcases h.new x hx with hx | hx
      · exact .inl (List.mem_append_right bs hx)
      · exact .inr (Nat.le_of_succ_le hx)

/-- `create_file` takes the first free record, in a new block where there is none. -/
theorem runs_createFile (hs : Slots m d k bs ix) (hcount : bs.length = (k + 15) / 16)
    (hused : ∀ j < k, m.byte (slot bs j) 0 ≠ 0#8) (hp : Placed d (bs ++ ix) m.nextbno)
    (h3 : 3 ≤ m.nextbno) (hf : Fresh m) (hle : m.nextbno ≤ nblock) :
    Runs Prod.snd (createFile m d) m.nextbno (entryCost k) (fun x =>
      ∃ bs' ix', x.1 = slot bs' k ∧ Seated m x.2 d k bs ix bs' ix') := by
  have hlen := hp.length_lt hle
  rw [List.length_append] at hlen
  have hblank : ∀ j, k ≤ j → j < 16 * bs.length → m.byte (slot bs j) 0 = 0#8 := fun j h1 h2 =>
    (hs.blank j h1 h2).byte (by omega)
  have hnblk : (m.word d fSize).toNat / by2blk = bs.length := by
    rw [hs.size, BitVec.toNat_ofNat]
    unfold by2blk
    omega
  have hfind := findRecord_eq hs.links hp hle hused hblank bs.length 0 (by omega) (by omega)
  unfold createFile
  simp only [hnblk, List.range_eq_range', hfind]
  by_cases hfull : k < 16 * bs.length
  · rw [if_pos hfull, entryCost, if_neg (by omega)]
    exact Runs.of_ok rfl hle ⟨bs, ix, rfl, hs.links, hs.size, by omega, fun _ _ => rfl, hs.blank, hp, hf,
      fun x hx => .inl hx, fun _ _ _ => rfl⟩
  · rw [if_neg hfull, entryCost, if_pos (by omega), show k / 16 = bs.length by omega]
    rw [ok_bind]
    simp only
    unfold makeLinkBlock
    rw [bind_assoc]
    refine Runs.bind (runs_nextBlock m) ?_
    rintro _ rfl hle₁ -
    simp only
    rw [bind_assoc]
    refine Runs.bind (d := 0) (runs_saveBlockLink (m := { m with nextbno := m.nextbno + 1 }) ?_
      (hp.insert h3) (fun b hb => hf b (by simp at hb; omega)) hle₁) ?_
    · exact ⟨hs.links.ptr, hs.links.index, hs.links.indexed⟩
    rintro m₁ ⟨ix', hlink⟩ hle₂ hn₁
    have hblk : (bs ++ [m.nextbno]).getD (k / 16) 0 = m.nextbno := by
      rw [getD_concat, if_pos (by omega)]
    refine Runs.of_ok (by rw [setWord_nextbno]; exact hn₁) hle₂ ⟨bs ++ [m.nextbno], ix', ?_,
      seated_linked hs (by omega) hp hf hlink ((le_of_eq hn₁).trans hle₂)⟩
    show record m.nextbno 0 = slot (bs ++ [m.nextbno]) k
    rw [slot, hblk, show k % 16 = 0 by omega]

end Seat

/-! ## A file -/

/-- The blocks that a record needs for the `c` blocks from block `lo` on. -/
def linkCost (lo c : ℕ) : ℕ := c + if lo ≤ 10 ∧ 10 < lo + c then 1 else 0

section File

variable {m m' : Image} {p : Ptr} {F bs ix : List ℕ} {k n : ℕ} {name cs data done rest : List Byte}

theorem linkCost_succ (lo c : ℕ) : linkCost lo (c + 1) = 1 + (indexCost lo + linkCost (lo + 1) c) := by
  unfold linkCost indexCost
  split_ifs <;> omega

/-- The bytes of a record that gets its name. -/
theorem byte_setName (hb : Blank m p) (hp : p.base + 64 ≤ 1024) (hlen : cs.length ≤ 128) (hk : k < 128) :
    (m.setName p cs).byte p k = cs.getD k 0#8 := by
  have hold := hb.byte (y := k) (by omega)
  unfold Image.byte Image.setName Image.setPage at *
  simp only [Function.update_self]
  rw [pageByte_setBytes (by omega) (by omega), hold]
  by_cases hin : k < cs.length
  · rw [dif_pos ⟨by omega, by omega⟩, List.getD_eq_getElem _ _ hin]
    simp
  · rw [dif_neg (by omega), List.getD_eq_default _ _ (by omega)]

theorem named_of_bytes (h : ∀ k < 128, m.byte p k = name.getD k 0#8) (hlen : name.length < 128)
    (hne : name ≠ []) (h0 : 0#8 ∉ name) : Named m p name := by
  refine ⟨fun k hk => ?_, ?_, hlen, hne, h0⟩
  · rw [h k (by omega), List.getD_eq_getElem _ _ hk]
    rfl
  · rw [h _ hlen, List.getD_eq_default _ _ (le_refl _)]

/-- A record with no blocks. -/
theorem Links.nil (h : ∀ k, 34 ≤ k → k < 45 → m.word p k = 0#32) : Links m p [] [] := by
  refine ⟨fun i _ => ?_, h 44 (by omega) (by omega), rfl⟩
  unfold Image.ptr
  by_cases h10 : i < 10
  · rw [if_pos (show i < ndirect from h10)]
    exact h _ (by unfold fDirect; omega) (by unfold fDirect; omega)
  · rw [if_neg (show ¬i < ndirect from h10),
      if_pos (show m.word p fIndirect = 0#32 from h 44 (by omega) (by omega))]
    rfl

/-- A block is read in and handed out. -/
theorem runs_readNext (m : Image) (rest : List Byte) :
    Runs Prod.snd (do
      let m ← readBlock m rest
      nextBlock m) m.nextbno 1 (fun x => x = (m.nextbno,
        { m.setPage (some m.nextbno) (pageSetBytes (m.mem (some m.nextbno)) 0 (rest.take by2blk)) with
          nextbno := m.nextbno + 1 })) := by
  unfold Runs readBlock nextBlock
  by_cases h : m.nextbno < nblock
  · rw [if_pos (Nat.succ_le_of_lt h), inArray_of_lt h]
    refine ⟨_, ?_, rfl, rfl⟩
    show (do
      inArray m.nextbno
      pure _ : Except Abort (ℕ × Image)) = _
    rw [inArray_of_lt h]
    rfl
  · rw [if_neg (by omega), inArray, if_neg h]
    rfl

/-- The record at `p` has more blocks than it had: together they hold `data`. -/
structure Longer (p : Ptr) (m m' : Image) (bs ix bs' ix' : List ℕ) (data : List Byte) : Prop where
  links : Links m' p bs' ix'
  holds : Holds m' bs' data
  placed : Placed p (bs' ++ ix') m'.nextbno
  fresh : Fresh m'
  new : ∀ x ∈ bs', x ∈ bs ∨ m.nextbno ≤ x
  newIndex : ∀ x ∈ ix', x ∈ ix ∨ m.nextbno ≤ x
  changes : Changes (fun o i => InRecord p 34 45 o i ∨ InBlocks ix o ∨ Above m.nextbno o) m m'

theorem Longer.trans {m₂ : Image} {bs₁ ix₁ bs₂ ix₂ : List ℕ} {data' : List Byte}
    (h : Longer p m m' bs ix bs₁ ix₁ data) (h' : Longer p m' m₂ bs₁ ix₁ bs₂ ix₂ data')
    (hn : m.nextbno ≤ m'.nextbno) : Longer p m m₂ bs ix bs₂ ix₂ data' := by
  refine ⟨h'.links, h'.holds, h'.placed, h'.fresh, fun x hx => ?_, fun x hx => ?_, fun o i hW => ?_⟩
  · rcases h'.new x hx with hx | hx
    · exact h.new x hx
    · exact .inr (hn.trans hx)
  · rcases h'.newIndex x hx with hx | hx
    · exact h.newIndex x hx
    · exact .inr (hn.trans hx)
  · rw [h'.changes o i ?_, h.changes o i hW]
    rintro (hp | ⟨x, hx, ho⟩ | ⟨x, hx, ho⟩)
    · exact hW (.inl hp)
    · rcases h.newIndex x hx with hx | hx
      · exact hW (.inr (.inl ⟨x, hx, ho⟩))
      · exact hW (.inr (.inr ⟨x, hx, ho⟩))
    · exact hW (.inr (.inr ⟨x, hn.trans hx, ho⟩))

/-- The blocks of a file and one more hold its bytes and more. -/
theorem Holds.concat {cs : List Byte} {b : ℕ} (h : Holds m bs done) (hlen : done.length = 4096 * bs.length)
    (hcs : cs.length ≤ 4096) (hold : ∀ x ∈ bs, ∀ i, m'.mem (some x) i = m.mem (some x) i)
    (hnew : ∀ i, m'.mem (some b) i = pageSetBytes (m.mem (some b)) 0 cs i) :
    Holds m' (bs ++ [b]) (done ++ cs) := by
  intro y hy
  rw [List.length_append] at hy
  unfold pageByte
  rw [getD_concat]
  by_cases hin : y < done.length
  · have hlt : y / 4096 < bs.length := by omega
    have hmem : bs.getD (y / 4096) 0 ∈ bs := by
      rw [List.getD_eq_getElem _ _ hlt]
      exact List.getElem_mem hlt
    have hbyte := h y hin
    unfold pageByte at hbyte
    rw [if_neg (by omega), hold _ hmem, hbyte]
    simp [List.getElem_append_left hin]
  · have hbyte : pageByte (pageSetBytes (m.mem (some b)) 0 cs) (y % 4096) = _ :=
      pageByte_setBytes (by omega) (by omega)
    unfold pageByte at hbyte
    rw [if_pos (by omega), hnew, hbyte, dif_pos ⟨by omega, by omega⟩]
    have hsub : y % 4096 - 0 = y - done.length := by omega
    simp [hsub, List.getElem_append_right (Nat.not_lt.mp hin)]

/-- A round of the loop of `write_file`. -/
theorem runs_writeBlock (hl : Links m p bs ix) (hp : Placed p (bs ++ ix) m.nextbno)
    (hh : Holds m bs done) (hlen : done.length = 4096 * bs.length) (h3 : 3 ≤ m.nextbno)
    (hf : Fresh m) (hcap : m.nextbno ≤ nblock) :
    Runs id (do
      let x ← (do
        let m ← readBlock m rest
        nextBlock m)
      saveBlockLink x.2 p bs.length x.1) m.nextbno (1 + indexCost bs.length) (fun m' =>
        ∃ ix', Longer p m m' bs ix (bs ++ [m.nextbno]) ix' (done ++ rest.take by2blk)) := by
  refine Runs.bind (runs_readNext m rest) ?_
  rintro _ rfl hcap₁ -
  obtain ⟨m₁, hm₁⟩ : ∃ m₁ : Image, m₁ = { m.setPage (some m.nextbno)
      (pageSetBytes (m.mem (some m.nextbno)) 0 (rest.take by2blk)) with nextbno := m.nextbno + 1 } :=
    ⟨_, rfl⟩
  simp only [← hm₁]
  have hnext₁ : m₁.nextbno = m.nextbno + 1 := by rw [hm₁]
  have hc₁ : Changes (fun o _ => o = some m.nextbno) m m₁ := fun o i hW => by
    rw [hm₁]
    show Function.update m.mem _ _ o i = _
    rw [Function.update_of_ne hW]
  have hself : p.block ≠ some m.nextbno := fun h => absurd (hp.self _ h).2 (lt_irrefl _)
  have hlt : ∀ x ∈ bs ++ ix, x < m.nextbno := fun x hx => (hp.range x hx).2
  have hl₁ : Links m₁ p bs ix := hl.frame hp hcap hc₁ (fun i _ _ h => hself h) fun x hx i h => by
    obtain rfl := Option.some.inj h
    exact absurd (hlt _ (List.mem_append_right bs hx)) (lt_irrefl _)
  have hf₁ : Fresh m₁ := fun x hx i => by
    rw [hnext₁] at hx
    rw [hc₁ _ _ fun h => absurd (Option.some.inj h) (by omega)]
    exact hf x (by omega) i
  have hp₁ : Placed p (m.nextbno :: (bs ++ ix)) m₁.nextbno := hnext₁ ▸ hp.insert h3
  rw [← hnext₁]
  refine (runs_saveBlockLink hl₁ hp₁ hf₁ (hnext₁ ▸ hcap₁)).mono ?_
  rintro m₂ ⟨ix₂, hl₂, hp₂, hf₂, hnew₂, hc₂⟩
  have hperm : (m.nextbno :: (bs ++ ix₂)).Perm (bs ++ [m.nextbno] ++ ix₂) := by
    rw [List.append_assoc]
    exact List.perm_middle.symm
  have hp₂' : Placed p (bs ++ [m.nextbno] ++ ix₂) m₂.nextbno :=
    ⟨hp₂.room, fun y hy => ⟨fun h => (hp₂.self y hy).1 (hperm.mem_iff.mpr h), (hp₂.self y hy).2⟩,
      fun y hy => hp₂.range y (hperm.mem_iff.mpr hy), hperm.nodup_iff.mp hp₂.nodup⟩
  -- the blocks of the file itself keep their bytes while the pointer is stored
  have hkept : ∀ x ∈ bs ++ [m.nextbno], ∀ i : Index, m₂.mem (some x) i = m₁.mem (some x) i := by
    intro x hx i
    refine hc₂ _ _ ?_
    rintro (h | ⟨y, hy, he⟩)
    · exact (hp₂'.self x h.1.symm).1 (List.mem_append_left ix₂ hx)
    · exact (List.nodup_append.mp hp₂'.nodup).2.2 x hx y hy (Option.some.inj he)
  have hnew : ∀ x ∈ ix₂, x ∈ ix ∨ m.nextbno ≤ x := fun x hx =>
    (hnew₂ x hx).imp_right fun h => by omega
  refine ⟨ix₂, hl₂, hh.concat hlen (List.length_take_le ..) (fun x hx i => ?_) (fun i => ?_), hp₂', hf₂,
    fun x hx => ?_, hnew, fun o i hW => ?_⟩
  · rw [hkept x (List.mem_append_left _ hx), hc₁ _ _ fun h => absurd (hlt _ (List.mem_append_left ix hx))
      (by rw [Option.some.inj h]; exact lt_irrefl _)]
  · rw [hkept _ (by simp), hm₁]
    show Function.update m.mem (some m.nextbno) _ (some m.nextbno) _ = _
    rw [Function.update_self]
  · rcases List.mem_append.mp hx with h | h
    · exact .inl h
    · exact .inr (le_of_eq (List.mem_singleton.mp h).symm)
  · have habove : o ≠ some m.nextbno := fun ho => hW (.inr (.inr ⟨_, le_refl _, ho⟩))
    rw [hc₂ o i ?_, hc₁ o i habove]
    rintro (h | ⟨x, hx, ho⟩)
    · exact hW (.inl h)
    · rcases hnew x hx with h | h
      · exact hW (.inr (.inl ⟨x, h, ho⟩))
      · exact hW (.inr (.inr ⟨x, h, ho⟩))

theorem runs_noBlocks (hl : Links m p bs ix) (hp : Placed p (bs ++ ix) m.nextbno)
    (hh : Holds m bs done) (hf : Fresh m) (hcap : m.nextbno ≤ nblock) :
    Runs id (.ok m) m.nextbno (linkCost bs.length 0) (fun m' => ∃ bs' ix',
      Longer p m m' bs ix bs' ix' (done ++ []) ∧ bs'.length = bs.length + 0) := by
  rw [show linkCost bs.length 0 = 0 by unfold linkCost; split_ifs <;> omega, List.append_nil]
  exact Runs.of_ok rfl hcap ⟨bs, ix, ⟨hl, hh, hp, hf, fun x => .inl, fun x => .inl, fun _ _ _ => rfl⟩, rfl⟩

/-- The loop of `write_file`: the blocks get the bytes that are left. -/
theorem runs_writeBlocks (n : ℕ) (rest : List Byte) (hl : Links m p bs ix)
    (hp : Placed p (bs ++ ix) m.nextbno) (hh : Holds m bs done)
    (heq : rest ≠ [] → done.length = 4096 * bs.length) (hn : rest.length ≤ n) (h3 : 3 ≤ m.nextbno)
    (hf : Fresh m) (hcap : m.nextbno ≤ nblock) :
    Runs id (writeBlocks p n bs.length rest m) m.nextbno
      (linkCost bs.length ((rest.length + 4095) / 4096)) (fun m' => ∃ bs' ix',
        Longer p m m' bs ix bs' ix' (done ++ rest) ∧
        bs'.length = bs.length + (rest.length + 4095) / 4096) := by
  induction n generalizing m bs ix done rest with
  | zero =>
    obtain rfl := List.length_eq_zero_iff.mp (Nat.le_zero.mp hn)
    exact runs_noBlocks hl hp hh hf hcap
  | succ n ih =>
    cases rest with
    | nil => exact runs_noBlocks hl hp hh hf hcap
    | cons v vs =>
      obtain ⟨r, hr⟩ : ∃ r, r = v :: vs := ⟨_, rfl⟩
      have hpos : 0 < r.length := by rw [hr]; simp
      have hdone := heq (by simp)
      rw [← hr] at hn ⊢
      have hdrop : (r.drop by2blk).length = r.length - 4096 := List.length_drop
      have htake : (r.take by2blk).length = min 4096 r.length := List.length_take
      have hlen : (bs ++ [m.nextbno]).length = bs.length + 1 := by simp
      have hcount : (r.length + 4095) / 4096 = ((r.drop by2blk).length + 4095) / 4096 + 1 := by
        rw [hdrop]
        omega
      have hstep : writeBlocks p (n + 1) bs.length r m = (do
          let m ← (do
            let x ← (do
              let m ← readBlock m r
              nextBlock m)
            saveBlockLink x.2 p bs.length x.1)
          writeBlocks p n (bs.length + 1) (r.drop by2blk) m) := by
        rw [hr, bind_assoc, bind_assoc]
        rfl
      rw [hstep, hcount, linkCost_succ, ← Nat.add_assoc]
      refine Runs.bind (runs_writeBlock hl hp hh hdone h3 hf hcap) ?_
      rintro m₁ ⟨ix₁, h₁⟩ hcap₁ hnext₁
      have hge : m.nextbno + 1 ≤ m₁.nextbno := by
        show _ ≤ (id m₁).nextbno
        omega
      rw [← hlen, ← hnext₁]
      have hrec := ih (r.drop by2blk) h₁.links h₁.placed h₁.holds (fun hne => ?_) (by omega) (by omega)
        h₁.fresh ((le_of_eq hnext₁).trans hcap₁)
      · refine hrec.mono ?_
        rintro m' ⟨bs', ix', h', hlen'⟩
        rw [hlen] at hlen'
        rw [List.append_assoc, List.take_append_drop] at h'
        exact ⟨bs', ix', h₁.trans h' (by omega), by omega⟩
      · have hlen' := List.length_pos_iff.mpr hne
        rw [hdrop] at hlen'
        rw [List.length_append, htake, hlen]
        omega

end File

/-! ## Filling a directory -/

mutual

/-- The blocks that a node needs, its record apart. -/
def Node.cost : Node → ℕ
  | .file _ data => linkCost 0 ((data.length + 4095) / 4096)
  | .dir _ es => allCost 0 es

/-- The blocks that a directory with `i` entries needs for more entries. -/
def allCost : ℕ → List Node → ℕ
  | _, [] => 0
  | i, n :: ns => entryCost i + n.cost + allCost (i + 1) ns

end

/-- A directory with its entries, the records of these and the blocks of its own. -/
structure OpenDir (m : Image) (d : Ptr) (es : List Node) (bs ix G : List ℕ) : Prop where
  slots : Slots m d es.length bs ix
  count : bs.length = (es.length + 15) / 16
  reps : RepAll m bs 0 es G
  placed : Placed d (bs ++ ix ++ G) m.nextbno

/-- A directory whose next record is being written. -/
structure Hole (m : Image) (d : Ptr) (es : List Node) (bs ix G : List ℕ) : Prop where
  slots : Slots m d (es.length + 1) bs ix
  count : bs.length = es.length / 16 + 1
  reps : RepAll m bs 0 es G
  placed : Placed d (bs ++ ix ++ G) m.nextbno

/-- A record that has been written for a node, with new blocks only. -/
structure Written (m m' : Image) (c : Ptr) (node : Node) (F : List ℕ) : Prop where
  rep : Rep m' c node F
  placed : Placed c F m'.nextbno
  new : ∀ x ∈ F, m.nextbno ≤ x
  fresh : Fresh m'
  changes : Changes (fun o i => InRecord c 0 64 o i ∨ Above m.nextbno o) m m'

/-- A directory that has more entries than before. -/
structure Grown (m m' : Image) (d : Ptr) (bs ix G bs' ix' G' : List ℕ) : Prop where
  own : ∀ x ∈ bs' ++ ix', x ∈ bs ++ ix ∨ m.nextbno ≤ x
  below : ∀ x ∈ G', x ∈ G ∨ m.nextbno ≤ x
  fresh : Fresh m'
  changes : Changes (fun o i => InRecord d 32 33 o i ∨ InRecord d 34 45 o i ∨ InBlocks (bs ++ ix) o ∨
    Above m.nextbno o) m m'

section Fill

variable {m m' m₁ : Image} {c d : Ptr} {es : List Node} {node : Node}
  {F G bs ix bs' ix' : List ℕ} {i n n' : ℕ}

theorem RepAll.slots (h : RepAll m bs i es G)
    (hs : ∀ j, i ≤ j → j < i + es.length → slot bs' j = slot bs j) : RepAll m bs' i es G := by
  induction es generalizing i G with
  | nil =>
    unfold RepAll at h ⊢
    exact h
  | cons node es ih =>
    unfold RepAll at h ⊢
    obtain ⟨F, G', hr, hall, rfl⟩ := h
    rw [List.length_cons] at hs
    refine ⟨F, G', ?_, ih hall fun j h1 h2 => hs j (by omega) (by omega), rfl⟩
    rw [hs i (le_refl i) (by omega)]
    exact hr

theorem RepAll.concat (h : RepAll m bs i es G) (hr : Rep m (slot bs (i + es.length)) node F) :
    RepAll m bs i (es ++ [node]) (G ++ F) := by
  induction es generalizing i G with
  | nil =>
    unfold RepAll at h
    subst h
    unfold RepAll
    refine ⟨F, [], hr, ?_, by simp⟩
    unfold RepAll
    rfl
  | cons e es ih =>
    unfold RepAll at h
    obtain ⟨F', G', hr', hall, rfl⟩ := h
    rw [List.length_cons, show i + (es.length + 1) = i + 1 + es.length by omega] at hr
    rw [List.cons_append]
    unfold RepAll
    exact ⟨F', G' ++ F, hr', ih hall hr, by rw [List.append_assoc]⟩

theorem Rep.named (h : Rep m c node F) : Named m c node.stored := by
  cases node with
  | file name data =>
    unfold Rep at h
    exact h.1
  | dir name es =>
    unfold Rep at h
    exact h.1

theorem Named.first {name : List Byte} (h : Named m c name) : m.byte c 0 ≠ 0#8 := by
  have hpos := List.length_pos_iff.mpr h.ne
  rw [h.bytes 0 hpos]
  intro h0
  exact h.clean (h0 ▸ List.get_mem name ⟨0, hpos⟩)

theorem RepAll.used (h : RepAll m bs i es G) {j : ℕ} (h1 : i ≤ j) (h2 : j < i + es.length) :
    m.byte (slot bs j) 0 ≠ 0#8 := by
  induction es generalizing i G with
  | nil => exact absurd h2 (by simp; omega)
  | cons node es ih =>
    unfold RepAll at h
    obtain ⟨F, G', hr, hall, rfl⟩ := h
    rw [List.length_cons] at h2
    by_cases he : j = i
    · subst he
      exact hr.named.first
    · exact ih hall (by omega) (by omega)

/-- New blocks come behind those that were there. -/
theorem Placed.grow (h : Placed d F n) (hn : n ≤ n') (h3 : 3 ≤ n) (hG : ∀ x ∈ G, n ≤ x ∧ x < n')
    (hnd : G.Nodup) : Placed d (F ++ G) n' := by
  refine ⟨h.room, fun b hb => ⟨fun hF => ?_, lt_of_lt_of_le (h.self b hb).2 hn⟩, fun b hb => ?_, ?_⟩
  · rcases List.mem_append.mp hF with hF | hF
    · exact (h.self b hb).1 hF
    · exact absurd (h.self b hb).2 (Nat.not_lt.mpr (hG b hF).1)
  · rcases List.mem_append.mp hb with hb | hb
    · exact ⟨(h.range b hb).1, lt_of_lt_of_le (h.range b hb).2 hn⟩
    · exact ⟨le_trans h3 (hG b hb).1, (hG b hb).2⟩
  · refine List.nodup_append.mpr ⟨h.nodup, hnd, fun x hx y hy he => ?_⟩
    subst he
    exact absurd (h.range x hx).2 (Nat.not_lt.mpr (hG x hy).1)

/-- The directory stays as it is while its next record is written. -/
theorem Hole.frame (h : Hole m d es bs ix G) (hle : m.nextbno ≤ nblock) (hn : m.nextbno ≤ m'.nextbno)
    (hc : Changes (fun o i => InRecord (slot bs es.length) 0 64 o i ∨ Above m.nextbno o) m m') :
    Hole m' d es bs ix G := by
  have hcount := h.count
  have hroom := h.placed.room
  have hin : es.length < 16 * bs.length := by omega
  have hmem := slot_mem hin
  have hnd := List.nodup_append.mp h.placed.nodup
  have hnd' := List.nodup_append.mp hnd.1
  have habove : ∀ x ∈ bs ++ ix ++ G, ¬Above m.nextbno (some x) := by
    rintro x hx ⟨y, hy, he⟩
    obtain rfl := Option.some.inj he
    exact absurd (h.placed.range _ hx).2 (Nat.not_lt.mpr hy)
  have hself : ∀ i, ¬(InRecord (slot bs es.length) 0 64 d.block i ∨ Above m.nextbno d.block) := by
    rintro i (hi | ⟨b, hb, he⟩)
    · exact (h.placed.self _ hi.1).1 (List.mem_append_left G (List.mem_append_left ix hmem))
    · exact absurd (h.placed.self b he).2 (Nat.not_lt.mpr hb)
  have hother : ∀ x, x ∈ ix ∨ x ∈ G → ∀ i,
      ¬(InRecord (slot bs es.length) 0 64 (some x) i ∨ Above m.nextbno (some x)) := by
    rintro x hx i (hi | ha)
    · obtain rfl := Option.some.inj hi.1
      rcases hx with hx | hx
      · exact hnd'.2.2 _ hmem _ hx rfl
      · exact hnd.2.2 _ (List.mem_append_left ix hmem) _ hx rfl
    · refine habove x ?_ ha
      rcases hx with hx | hx
      · exact List.mem_append_left G (List.mem_append_right bs hx)
      · exact List.mem_append_right _ hx
  have hslots : ∀ j, j < 16 * bs.length → j ≠ es.length → ∀ i, InRecord (slot bs j) 0 64 (slot bs j).block i →
      ¬(InRecord (slot bs es.length) 0 64 (slot bs j).block i ∨ Above m.nextbno (slot bs j).block) := by
    rintro j hj hne i hi (hi' | ha)
    · exact slot_apart hnd'.1 hj hin hne hi hi'
    · exact habove _ (List.mem_append_left G (List.mem_append_left ix (slot_mem hj))) ha
  refine ⟨⟨?_, ?_, fun j h1 h2 => ?_⟩, hcount, ?_, h.placed.mono hn⟩
  · exact h.slots.links.frame (h.placed.sublist (List.sublist_append_left ..)) hle hc
      (fun i _ _ => hself i) fun x hx i => hother x (.inl hx) i
  · rw [hc.word (by unfold fSize; omega) fun i _ => hself i]
    exact h.slots.size
  · exact (h.slots.blank j h1 h2).frame (slot_room bs j) hc fun i => hslots j h2 (by omega) i
  · exact RepAll.frame hle hc es bs 0 G h.reps (fun j _ hj => h.placed.slot (by omega))
      (fun j _ hj i => hslots j (by omega) (by omega) i) fun b hb i => hother b (.inr hb) i

/-- The directory has its next entry. -/
theorem Hole.fill (h : Hole m d es bs ix G) (hle : m.nextbno ≤ nblock) (hn : m.nextbno ≤ m'.nextbno)
    (h3 : 3 ≤ m.nextbno) (hw : Written m m' (slot bs es.length) node F) :
    OpenDir m' d (es ++ [node]) bs ix (G ++ F) := by
  have hf := h.frame hle hn hw.changes
  have hcount := h.count
  have hlen : (es ++ [node]).length = es.length + 1 := by simp
  refine ⟨hlen ▸ hf.slots, by rw [hlen]; omega, hf.reps.concat ?_, ?_⟩
  · rw [Nat.zero_add]
    exact hw.rep
  · rw [← List.append_assoc]
    exact h.placed.grow hn h3 (fun x hx => ⟨hw.new x hx, (hw.placed.range x hx).2⟩) hw.placed.nodup

/-- A new record is the next one of the directory. -/
theorem Seated.hole (h : Seated m m' d es.length bs ix bs' ix') (ho : OpenDir m d es bs ix G)
    (hle : m.nextbno ≤ nblock) (hn : m.nextbno ≤ m'.nextbno) : Hole m' d es bs' ix' G := by
  have hcount := ho.count
  have hcount' := h.count
  have hplaced := ho.placed.extend h.placed hn h.new
  have hnd := List.nodup_append.mp hplaced.nodup
  have hnd' := List.nodup_append.mp hnd.1
  have hself : ∀ x, x ∈ bs' ++ ix' ∨ x ∈ G → d.block ≠ some x := fun x hx he => by
    refine (hplaced.self x he).1 ?_
    rcases hx with hx | hx
    · exact List.mem_append_left G hx
    · exact List.mem_append_right _ hx
  refine ⟨⟨h.links, h.size, fun j h1 h2 => h.blank j (by omega) h2⟩, hcount', ?_, hplaced⟩
  refine RepAll.slots ?_ fun j _ hj => h.old j (by omega)
  refine RepAll.frame hle h.changes es bs 0 G ho.reps (fun j _ hj => ho.placed.slot (by omega)) ?_ ?_
  · rintro j - hj i - hW
    have hmem : bs'.getD (j / 16) 0 ∈ bs' := slot_mem (by omega)
    have hblk : (slot bs j).block = some (bs'.getD (j / 16) 0) := by
      rw [← h.old j (by omega)]
      rfl
    rw [hblk] at hW
    rcases hW with hW | hW | ⟨x, hx, he⟩
    · exact hself _ (.inl (List.mem_append_left ix' hmem)) hW.1.symm
    · exact hself _ (.inl (List.mem_append_left ix' hmem)) hW.1.symm
    · exact hnd'.2.2 _ hmem _ hx (Option.some.inj he)
  · rintro b hb i (hW | hW | ⟨x, hx, he⟩)
    · exact hself b (.inr hb) hW.1.symm
    · exact hself b (.inr hb) hW.1.symm
    · exact hnd.2.2 _ (List.mem_append_right bs' hx) _ hb (Option.some.inj he).symm

/-! ## Writing a node -/

/-- A record that is to be filled: nothing of it is written, and its block is there. -/
structure Empty (m : Image) (c : Ptr) : Prop where
  blank : Blank m c
  placed : Placed c [] m.nextbno

/-- The name of a record that is to be filled. -/
theorem Empty.named {name cs : List Byte} (h : Empty m c) (hlen : cs.length ≤ 128)
    (hcs : ∀ k < 128, cs.getD k 0#8 = name.getD k 0#8) (hname : name.length < 128) (hne : name ≠ [])
    (h0 : 0#8 ∉ name) : Named (m.setName c cs) c name :=
  named_of_bytes (fun k hk => (byte_setName h.blank h.placed.room hlen hk).trans (hcs k hk)) hname hne h0

/-- The words after the name stay empty. -/
theorem Empty.words {cs : List Byte} (h : Empty m c) (hlen : cs.length ≤ 128) {k : ℕ} (hk : 32 ≤ k)
    (hk' : k < 64) : (m.setName c cs).word c k = 0#32 := by
  have hroom := h.placed.room
  rw [(changes_setName (by omega) hlen).word (by omega) fun i hi hW => by
    have hlt := hW.2.2
    omega]
  exact h.blank k hk'

theorem getD_terminated (name : List Byte) (k : ℕ) : (name ++ [0#8]).getD k 0#8 = name.getD k 0#8 := by
  by_cases hk : k < name.length
  · rw [List.getD_append _ _ _ _ hk]
  · rw [List.getD_append_right _ _ _ _ (Nat.not_lt.mp hk), List.getD_eq_default _ _ (Nat.not_lt.mp hk)]
    by_cases he : k - name.length = 0
    · rw [he]
      rfl
    · exact List.getD_eq_default _ _ (by simp; omega)

theorem getD_strncpy (name : List Byte) (k : ℕ) :
    (strncpyBytes 127 name).getD k 0#8 = (name.take 127).getD k 0#8 := by
  unfold strncpyBytes
  by_cases hk : k < (name.take 127).length
  · rw [List.getD_append _ _ _ _ hk]
  · rw [List.getD_append_right _ _ _ _ (Nat.not_lt.mp hk), List.getD_eq_default _ _ (Nat.not_lt.mp hk)]
    by_cases he : k - (name.take 127).length < 127 - name.length
    · exact List.getD_replicate _ he
    · exact List.getD_eq_default _ _ (by simpa using he)

/-- A record that has the name, the size and the type of a file and no blocks yet. -/
theorem file_started {name data : List Byte} (hE : Empty m c) (hok : (Node.file name data).Ok)
    (hf : Fresh m) : ∀ m₂, m₂ = ((m.setName c (name ++ [0#8])).setWord c fSize
      (BitVec.ofNat 32 data.length)).setWord c fType 0#32 →
    (Named m₂ c name ∧ m₂.word c fType = 0#32 ∧ m₂.word c fSize = BitVec.ofNat 32 data.length) ∧
      Links m₂ c [] [] ∧ Fresh m₂ ∧ m₂.nextbno = m.nextbno ∧ Changes (InRecord c 0 34) m m₂ := by
  rintro m₂ rfl
  have hroom := hE.placed.room
  have hsz : c.base + fSize < 1024 := by unfold fSize; omega
  have hty : c.base + fType < 1024 := by unfold fType; omega
  unfold Node.Ok at hok
  obtain ⟨hne, h0, hlen⟩ := hok
  have hcs : (name ++ [0#8]).length ≤ 128 := by
    rw [List.length_append]
    exact hlen
  have hname := hE.named hcs (fun k _ => getD_terminated name k) hlen hne h0
  have hc₁ : Changes (InRecord c 0 32) m (m.setName c (name ++ [0#8])) := changes_setName (by omega) hcs
  obtain ⟨m₁, hm₁⟩ : ∃ m₁, m₁ = m.setName c (name ++ [0#8]) := ⟨_, rfl⟩
  have hwords : ∀ k, 32 ≤ k → k < 64 → m₁.word c k = 0#32 := fun k h1 h2 => by
    rw [hm₁]
    exact hE.words hcs h1 h2
  rw [← hm₁] at hname hc₁ ⊢
  have hc₂ : Changes (InRecord c 32 34) m₁
      ((m₁.setWord c fSize (BitVec.ofNat 32 data.length)).setWord c fType 0#32) := by
    refine Changes.trans ((changes_setWord hsz).mono fun o i hW => ⟨hW.1, ?_, ?_⟩)
      ((changes_setWord hty).mono fun o i hW => ⟨hW.1, ?_, ?_⟩)
    · exact hW.2.1
    · have hlt := hW.2.2
      unfold fSize at hlt
      omega
    · have hlo := hW.2.1
      unfold fType at hlo
      omega
    · exact hW.2.2
  have hnext : m₁.nextbno = m.nextbno := by
    rw [hm₁]
    rfl
  have hc : Changes (InRecord c 0 34) m
      ((m₁.setWord c fSize (BitVec.ofNat 32 data.length)).setWord c fType 0#32) := by
    refine Changes.trans (hc₁.mono fun o i hW => ⟨hW.1, hW.2.1, ?_⟩) (hc₂.mono fun o i hW => ⟨hW.1, ?_, hW.2.2⟩)
    · have hlt := hW.2.2
      omega
    · have hlo := hW.2.1
      omega
  refine ⟨⟨hname.frame hroom hc₂ fun i hi hW => ?_, ?_, ?_⟩, Links.nil fun k h1 h2 => ?_,
    hf.of_changes (le_of_eq hnext.symm) hc fun b i hb hW => ?_, hnext, hc⟩
  · have h1 := hi.2.2
    have h2 := hW.2.1
    omega
  · rw [word_setWord hty hty, if_pos ⟨rfl, rfl⟩]
  · rw [word_setWord hty hsz, if_neg (by unfold fSize fType; omega), word_setWord hsz hsz,
      if_pos ⟨rfl, rfl⟩]
  · rw [hc₂.word (by omega) fun i hi hW => by
      have hlt := hW.2.2
      omega]
    exact hwords k (by omega) (by omega)
  · exact absurd (hE.placed.self b hW.1.symm).2 (Nat.not_lt.mpr ((le_of_eq hnext.symm).trans hb))

/-- `write_file` once it has its record. -/
theorem runs_fillFile {name data : List Byte} (hE : Empty m c) (hok : (Node.file name data).Ok)
    (h3 : 3 ≤ m.nextbno) (hf : Fresh m) (hle : m.nextbno ≤ nblock) :
    Runs id (writeBlocks c data.length 0 data (((m.setName c (name ++ [0#8])).setWord c fSize
      (BitVec.ofNat 32 data.length)).setWord c fType 0#32)) m.nextbno (Node.file name data).cost
      (fun m' => ∃ F, Written m m' c (.file name data) F) := by
  have hroom := hE.placed.room
  have hsz : c.base + fSize < 1024 := by unfold fSize; omega
  have hty : c.base + fType < 1024 := by unfold fType; omega
  have hstart := file_started hE hok hf
  generalize ((m.setName c (name ++ [0#8])).setWord c fSize
    (BitVec.ofNat 32 data.length)).setWord c fType 0#32 = m₂ at hstart ⊢
  obtain ⟨⟨hname, htype, hsize⟩, hlinks, hf₂, hnext, hc₂⟩ := hstart m₂ rfl
  have hholds : Holds m₂ [] [] := fun y hy => absurd hy (by simp)
  have hrun := runs_writeBlocks data.length data hlinks (hnext ▸ hE.placed) hholds (fun _ => rfl)
    (le_refl _) (hnext.symm ▸ h3) hf₂ (hnext.symm ▸ hle)
  rw [hnext] at hrun
  unfold Node.cost
  refine hrun.mono ?_
  rintro m' ⟨bs', ix', h', hlen'⟩
  have hc' := h'.changes
  rw [hnext] at hc'
  have hnew : ∀ x ∈ bs' ++ ix', m.nextbno ≤ x := fun x hx => by
    rcases List.mem_append.mp hx with hx | hx
    · exact hnext ▸ (h'.new x hx).resolve_left (by simp)
    · exact hnext ▸ (h'.newIndex x hx).resolve_left (by simp)
  have hkeep : ∀ i, InRecord c 0 34 c.block i →
      ¬(InRecord c 34 45 c.block i ∨ InBlocks [] c.block ∨ Above m.nextbno c.block) := by
    rintro i hi (h | ⟨x, hx, -⟩ | ⟨x, hx, he⟩)
    · have h1 := hi.2.2
      have h2 := h.2.1
      omega
    · simp at hx
    · exact absurd (hE.placed.self x he).2 (Nat.not_lt.mpr hx)
  refine ⟨bs' ++ ix', ?_, h'.placed, hnew, h'.fresh, fun o i hW => ?_⟩
  · unfold Rep
    refine ⟨hname.frame hroom hc' fun i hi => hkeep i ⟨hi.1, hi.2.1, by have := hi.2.2; omega⟩, ?_, ?_,
      bs', ix', h'.links, ?_, h'.holds, rfl⟩
    · rw [hc'.word hty fun i hi => hkeep i ⟨rfl, by omega, by unfold fType at hi; omega⟩]
      exact htype
    · rw [hc'.word hsz fun i hi => hkeep i ⟨rfl, by omega, by unfold fSize at hi; omega⟩]
      exact hsize
    · rw [hlen', List.length_nil, Nat.zero_add]
  · rw [hc' o i ?_, hc₂ o i ?_]
    · exact fun h => hW (.inl ⟨h.1, h.2.1, by have := h.2.2; omega⟩)
    · rintro (h | ⟨x, hx, -⟩ | h)
      · exact hW (.inl ⟨h.1, by have := h.2.1; omega, by have := h.2.2; omega⟩)
      · simp at hx
      · exact hW (.inr h)

/-- A record that has been opened as a directory without entries. -/
theorem opened_empty {name : List Byte} (hE : Empty m c) (hne : name ≠ []) (h0 : 0#8 ∉ name)
    (hf : Fresh m) :
    pageByte ((m.setName c (strncpyBytes 127 name)).mem c.block) (4 * c.base + 127) = 0#8 ∧
      ∀ m₂, m₂ = (m.setName c (strncpyBytes 127 name)).setWord c fType 1#32 →
        Named m₂ c (name.take 127) ∧ m₂.word c fType = 1#32 ∧ OpenDir m₂ c [] [] [] [] ∧ Fresh m₂ ∧
          Changes (InRecord c 0 64) m m₂ := by
  have hroom := hE.placed.room
  have hty : c.base + fType < 1024 := by unfold fType; omega
  have hlen : (name.take 127).length < 128 := by
    rw [List.length_take]
    omega
  have hcs : (strncpyBytes 127 name).length ≤ 128 := by
    unfold strncpyBytes
    rw [List.length_append, List.length_take, List.length_replicate]
    omega
  have hne' : name.take 127 ≠ [] := by
    intro h
    rcases List.take_eq_nil_iff.mp h with h | h
    · omega
    · exact hne h
  have hname := hE.named hcs (fun k _ => getD_strncpy name k) hlen hne' fun h => h0 (List.mem_of_mem_take h)
  refine ⟨?_, ?_⟩
  · have hlast := byte_setName hE.blank hroom hcs (k := 127) (by omega)
    rw [getD_strncpy, List.getD_eq_default _ _ (by rw [List.length_take]; omega)] at hlast
    exact hlast
  · rintro m₂ rfl
    have hc₁ : Changes (InRecord c 0 32) m (m.setName c (strncpyBytes 127 name)) :=
      changes_setName (by omega) hcs
    have hc₂ := changes_setWord (m := m.setName c (strncpyBytes 127 name)) (p := c) (k := fType)
      (w := 1#32) hty
    have hwords : ∀ k, 32 ≤ k → k < 64 → k ≠ 33 →
        ((m.setName c (strncpyBytes 127 name)).setWord c fType 1#32).word c k = 0#32 := fun k h1 h2 h => by
      rw [word_setWord hty (by omega), if_neg (by unfold fType; omega)]
      exact hE.words hcs h1 h2
    have hch : Changes (InRecord c 0 64) m
        ((m.setName c (strncpyBytes 127 name)).setWord c fType 1#32) := by
      refine Changes.trans (hc₁.mono fun o i hW => ⟨hW.1, hW.2.1, by have := hW.2.2; omega⟩)
        (hc₂.mono fun o i hW => ⟨hW.1, ?_, ?_⟩)
      · exact le_trans (by omega) hW.2.1
      · have hlt := hW.2.2
        unfold fType at hlt
        omega
    refine ⟨hname.frame hroom hc₂ fun i hi hW => ?_, ?_, ⟨⟨Links.nil fun k h1 h2 =>
      hwords k (by omega) (by omega) (by omega), hwords 32 (by omega) (by omega) (by omega),
      fun j _ hj => absurd hj (by simp)⟩, rfl, ?_, hE.placed⟩, ?_, hch⟩
    · have h1 := hi.2.2
      have h2 := hW.2.1
      unfold fType at h2
      omega
    · rw [word_setWord hty hty, if_pos ⟨rfl, rfl⟩]
    · unfold RepAll
      rfl
    · exact hf.of_changes (le_refl _) hch fun b i hb hW =>
        absurd (hE.placed.self b hW.1.symm).2 (Nat.not_lt.mpr hb)

/-- The next record of a directory is empty. -/
theorem Hole.empty (h : Hole m d es bs ix G) (hb : Blank m (slot bs es.length)) :
    Empty m (slot bs es.length) := by
  have hcount := h.count
  exact ⟨hb, (h.placed.slot (by omega)).sublist (List.nil_sublist G)⟩

/-- A record has been taken and written. -/
theorem Seated.grown (h : Seated m m₁ d es.length bs ix bs' ix') (hn : m.nextbno ≤ m₁.nextbno)
    (hw : Written m₁ m' (slot bs' es.length) node F) (G : List ℕ) :
    Grown m m' d bs ix G bs' ix' (G ++ F) := by
  have hcount := h.count
  refine ⟨h.new, fun x hx => ?_, hw.fresh, fun o i hW => ?_⟩
  · rcases List.mem_append.mp hx with hx | hx
    · exact .inl hx
    · exact .inr (le_trans hn (hw.new x hx))
  · have hold : ∀ x ∈ bs' ++ ix', o ≠ some x := fun x hx ho => by
      rcases h.new x hx with hx | hx
      · exact hW (.inr (.inr (.inl ⟨x, hx, ho⟩)))
      · exact hW (.inr (.inr (.inr ⟨x, hx, ho⟩)))
    rw [hw.changes o i ?_, h.changes o i ?_]
    · rintro (hd | hd | ⟨x, hx, ho⟩)
      · exact hW (.inl hd)
      · exact hW (.inr (.inl hd))
      · exact hold x (List.mem_append_right bs' hx) ho
    · rintro (hc | ⟨x, hx, ho⟩)
      · exact hold _ (List.mem_append_left ix' (slot_mem (by omega))) hc.1
      · exact hW (.inr (.inr (.inr ⟨x, le_trans hn hx, ho⟩)))

theorem Grown.trans {m₂ : Image} {bs₁ ix₁ G₁ bs₂ ix₂ G₂ : List ℕ}
    (h : Grown m m₁ d bs ix G bs₁ ix₁ G₁) (h' : Grown m₁ m₂ d bs₁ ix₁ G₁ bs₂ ix₂ G₂)
    (hn : m.nextbno ≤ m₁.nextbno) : Grown m m₂ d bs ix G bs₂ ix₂ G₂ := by
  refine ⟨fun x hx => ?_, fun x hx => ?_, h'.fresh, fun o i hW => ?_⟩
  · rcases h'.own x hx with hx | hx
    · exact h.own x hx
    · exact .inr (le_trans hn hx)
  · rcases h'.below x hx with hx | hx
    · exact h.below x hx
    · exact .inr (le_trans hn hx)
  · rw [h'.changes o i ?_, h.changes o i hW]
    rintro (hd | hd | ⟨x, hx, ho⟩ | ⟨x, hx, ho⟩)
    · exact hW (.inl hd)
    · exact hW (.inr (.inl hd))
    · rcases h.own x hx with hx | hx
      · exact hW (.inr (.inr (.inl ⟨x, hx, ho⟩)))
      · exact hW (.inr (.inr (.inr ⟨x, hx, ho⟩)))
    · exact hW (.inr (.inr (.inr ⟨x, le_trans hn hx, ho⟩)))

/-- A directory that has got all its entries. -/
theorem Grown.written {name : List Byte} {m₂ : Image} (hE : Empty m c) (hc : Changes (InRecord c 0 64) m m₁)
    (hn : m₁.nextbno = m.nextbno) (hname : Named m₁ c (name.take 127)) (htype : m₁.word c fType = 1#32)
    (ho : OpenDir m₂ c es bs ix G) (h : Grown m₁ m₂ c [] [] [] bs ix G) :
    Written m m₂ c (.dir name es) (bs ++ ix ++ G) := by
  have hroom := hE.placed.room
  have hkeep : ∀ i, InRecord c 0 32 c.block i ∨ InRecord c 33 34 c.block i →
      ¬(InRecord c 32 33 c.block i ∨ InRecord c 34 45 c.block i ∨ InBlocks ([] ++ []) c.block ∨
        Above m₁.nextbno c.block) := by
    rintro i hi (h | h | ⟨x, hx, -⟩ | ⟨x, hx, he⟩)
    · have h1 := h.2.1
      have h2 := h.2.2
      rcases hi with hi | hi
      · have := hi.2.2
        omega
      · have := hi.2.1
        omega
    · have h1 := h.2.1
      rcases hi with hi | hi
      · have := hi.2.2
        omega
      · have := hi.2.2
        omega
    · simp at hx
    · rw [hn] at hx
      exact absurd (hE.placed.self x he).2 (Nat.not_lt.mpr hx)
  refine ⟨?_, ho.placed, fun x hx => ?_, h.fresh, fun o i hW => ?_⟩
  · unfold Rep
    refine ⟨hname.frame hroom h.changes fun i hi => hkeep i (.inl hi), ?_, bs, ix, G, ho.slots, ho.count,
      ho.reps, rfl⟩
    rw [h.changes.word (by unfold fType; omega) fun i hi =>
      hkeep i (.inr ⟨rfl, by unfold fType at hi; omega, by unfold fType at hi; omega⟩)]
    exact htype
  · rw [← hn]
    rcases List.mem_append.mp hx with hx | hx
    · rcases h.own x hx with hx | hx
      · simp at hx
      · exact hx
    · rcases h.below x hx with hx | hx
      · simp at hx
      · exact hx
  · rw [h.changes o i ?_, hc o i fun hc => hW (.inl hc)]
    rintro (hd | hd | ⟨x, hx, -⟩ | ha)
    · exact hW (.inl ⟨hd.1, by have := hd.2.1; omega, by have := hd.2.2; omega⟩)
    · exact hW (.inl ⟨hd.1, by have := hd.2.1; omega, by have := hd.2.2; omega⟩)
    · simp at hx
    · exact hW (.inr (hn ▸ ha))

/-- `create_file` in a directory leaves it with a hole. -/
theorem OpenDir.runs_createFile (ho : OpenDir m d es bs ix G) (hf : Fresh m) (h3 : 3 ≤ m.nextbno)
    (hle : m.nextbno ≤ nblock) : Runs Prod.snd (createFile m d) m.nextbno (entryCost es.length) (fun x =>
      ∃ bs' ix', x.1 = slot bs' es.length ∧ Seated m x.2 d es.length bs ix bs' ix') :=
  Fsformat.runs_createFile ho.slots ho.count (fun _ hj => ho.reps.used (Nat.zero_le _) (by omega))
    (ho.placed.sublist (List.sublist_append_left ..)) h3 hf hle

end Fill

mutual

/-- A node is written into a directory: it stands there as the next entry. -/
theorem runs_write : ∀ (node : Node) {m : Image} {d : Ptr} {es : List Node} {bs ix G : List ℕ}, node.Ok →
    OpenDir m d es bs ix G → Fresh m → 3 ≤ m.nextbno → m.nextbno ≤ nblock →
    Runs id (write d m node) m.nextbno (entryCost es.length + node.cost) (fun m' => ∃ bs' ix' G',
      OpenDir m' d (es ++ [node]) bs' ix' G' ∧ Grown m m' d bs ix G bs' ix' G')
  | .file name data, m, d, es, bs, ix, G, hok, ho, hf, h3, hle => by
    unfold write writeFile
    refine Runs.bind (ho.runs_createFile hf h3 hle) ?_
    rintro ⟨c, m₁⟩ ⟨bs', ix', rfl, hs⟩ hle₁ hn₁
    have hn : m.nextbno ≤ m₁.nextbno := le_of_le_of_eq (Nat.le_add_right ..) hn₁.symm
    have hle₁' : m₁.nextbno ≤ nblock := le_of_eq_of_le hn₁ hle₁
    have hole := hs.hole ho hle hn
    have hcount := hole.count
    have hE := hole.empty (hs.blank _ (le_refl _) (by omega))
    rw [← hn₁]
    refine (runs_fillFile hE hok (le_trans h3 hn) hs.fresh hle₁').mono_next ?_
    rintro m' ⟨F, hw⟩ hn'
    have hn₂ : m₁.nextbno ≤ m'.nextbno := le_of_le_of_eq (Nat.le_add_right ..) hn'.symm
    exact ⟨bs', ix', G ++ F, hole.fill hle₁' hn₂ (le_trans h3 hn) hw, hs.grown hn hw G⟩
  | .dir name entries, m, d, es, bs, ix, G, hok, ho, hf, h3, hle => by
    unfold write openDirectory
    rw [bind_assoc]
    refine Runs.bind (ho.runs_createFile hf h3 hle) ?_
    rintro ⟨c, m₁⟩ ⟨bs', ix', rfl, hs⟩ hle₁ hn₁
    have hn : m.nextbno ≤ m₁.nextbno := le_of_le_of_eq (Nat.le_add_right ..) hn₁.symm
    have hle₁' : m₁.nextbno ≤ nblock := le_of_eq_of_le hn₁ hle₁
    have hole := hs.hole ho hle hn
    have hcount := hole.count
    have hE := hole.empty (hs.blank _ (le_refl _) (by omega))
    unfold Node.Ok at hok
    obtain ⟨hlast, hopen⟩ := opened_empty hE hok.1 hok.2.1 hs.fresh
    obtain ⟨hname, htype, hdir, hf₂, hc₂⟩ := hopen _ rfl
    simp only
    rw [if_neg (not_not.mpr hlast), ← hn₁]
    have hrun := runs_writeAll entries hok.2.2 hdir hf₂ (le_trans h3 hn) hle₁'
    refine Runs.mono_next hrun ?_
    rintro m' ⟨bs₂, ix₂, G₂, ho₂, hg₂⟩ hn'
    have hn₂ : m₁.nextbno ≤ m'.nextbno := le_of_le_of_eq (Nat.le_add_right ..) hn'.symm
    have hw := hg₂.written hE hc₂ rfl hname htype ho₂
    exact ⟨bs', ix', _, hole.fill hle₁' hn₂ (le_trans h3 hn) hw, hs.grown hn hw G⟩

/-- The entries of a directory are written, one after the other. -/
theorem runs_writeAll : ∀ (ns : List Node) {m : Image} {d : Ptr} {es : List Node} {bs ix G : List ℕ},
    AllOk ns → OpenDir m d es bs ix G → Fresh m → 3 ≤ m.nextbno → m.nextbno ≤ nblock →
    Runs id (writeAll d m ns) m.nextbno (allCost es.length ns) (fun m' => ∃ bs' ix' G',
      OpenDir m' d (es ++ ns) bs' ix' G' ∧ Grown m m' d bs ix G bs' ix' G')
  | [], m, d, es, bs, ix, G, _, ho, hf, _, hle => by
    unfold writeAll allCost
    exact Runs.of_ok rfl hle ⟨bs, ix, G, by rwa [List.append_nil], fun x => .inl, fun x => .inl, hf,
      fun _ _ _ => rfl⟩
  | node :: ns, m, d, es, bs, ix, G, hok, ho, hf, h3, hle => by
    unfold writeAll allCost
    unfold AllOk at hok
    refine Runs.bind (runs_write node hok.1 ho hf h3 hle) ?_
    rintro m₁ ⟨bs₁, ix₁, G₁, ho₁, hg₁⟩ hle₁ hn₁
    have hn : m.nextbno ≤ m₁.nextbno := le_of_le_of_eq (Nat.le_add_right ..) hn₁.symm
    have hlen : es.length + 1 = (es ++ [node]).length := by simp
    rw [← hn₁, hlen]
    refine (runs_writeAll ns hok.2 ho₁ hg₁.fresh (le_trans h3 hn) (le_of_eq_of_le hn₁ hle₁)).mono ?_
    rintro m₂ ⟨bs₂, ix₂, G₂, ho₂, hg₂⟩
    refine ⟨bs₂, ix₂, G₂, ?_, hg₁.trans hg₂ hn⟩
    rwa [List.append_assoc] at ho₂

end

end Fsformat
end RvMos
