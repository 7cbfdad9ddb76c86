/-
Loading a segment (`elf_load_seg` of `lib/elfloader.c`).

The function cuts a segment into pages and hands each to a mapper, of which there
is one in the kernel and one in `spawn`.  A call of the mapper replaces the page
of `va` as a whole: by the bytes of `src` from `offset` on, if there is a source,
and zeros.  `lay` is what calls do to the bytes of an address space.
-/
import RvMos.Lib.Sys
import RvMos.Kern.Mmu
import Mathlib.Data.List.GetD

namespace RvMos

open Lib

namespace Elf

abbrev Byte := BitVec 8

/-- The fields of a program header that the function reads. -/
structure Phdr where
  vaddr : Word
  filesz : Word
  memsz : Word

/-- The arguments of the mapper: `src` holds the `len` bytes, or is the null pointer. -/
structure MapCall where
  va : Word
  offset : ℕ
  perm : Word
  src : Option (List Byte)

/-- The values of `i` in `for (i = a; i < b; i += BY2PG)`. -/
def indices (a b : ℕ) : List ℕ :=
  (List.range ((b - a + 4095) / 4096)).map fun j => a + 4096 * j

/-- `PTE_U | PTE_R | PTE_W | PTE_X` -/
def segPerm : Word :=
  pteU ||| pteR ||| pteW ||| pteX

/-- `va - ROUNDDOWN(va, BY2PG)` -/
def Phdr.offset (ph : Phdr) : ℕ :=
  (ph.vaddr - rounddown ph.vaddr).toNat

/-- The bytes of the file that go to the first page, if it is not a whole one. -/
def Phdr.headSize (ph : Phdr) : ℕ :=
  if ph.offset ≠ 0 then min ph.filesz.toNat (4096 - ph.offset) else 0

def headCall (ph : Phdr) (bin : ℕ → Byte) : MapCall :=
  ⟨ph.vaddr, ph.offset, segPerm,
    some ((List.range (min ph.filesz.toNat (4096 - ph.offset))).map bin)⟩

def fileCall (ph : Phdr) (bin : ℕ → Byte) (i : ℕ) : MapCall :=
  ⟨ph.vaddr + BitVec.ofNat 32 i, 0, segPerm,
    some ((List.range (min (ph.filesz.toNat - i) 4096)).map fun t => bin (i + t))⟩

def zeroCall (ph : Phdr) (i : ℕ) : MapCall :=
  ⟨ph.vaddr + BitVec.ofNat 32 i, 0, segPerm, none⟩

/-- What `i` is after the loop over the file. -/
def Phdr.fileEnd (ph : Phdr) : ℕ :=
  ph.headSize + 4096 * (indices ph.headSize ph.filesz.toNat).length

section Load

variable {η ε σ : Type}

/-- `elf_load_seg`, with what the bytes at `bin` are. -/
def elfLoadSeg (mapPage : MapCall → Sys η ε σ Unit) (ph : Phdr) (bin : ℕ → Byte) :
    Sys η ε σ Unit := do
  Sys.when (ph.offset ≠ 0) (mapPage (headCall ph bin))
  Sys.each (fun i => mapPage (fileCall ph bin i)) (indices ph.headSize ph.filesz.toNat)
  Sys.each (fun i => mapPage (zeroCall ph i)) (indices ph.fileEnd ph.memsz.toNat)

end Load

/-! ## The bytes of an address space -/

/-- Which byte is at each address; `none` where nothing is mapped. -/
abbrev Image := ℕ → Option Byte

/-- The byte that a call puts at offset `o` of the page. -/
def MapCall.byte (c : MapCall) (o : ℕ) : Byte :=
  match c.src with
  | none => 0#8
  | some bs => if c.offset ≤ o then bs.getD (o - c.offset) 0#8 else 0#8

def overlay (I : Image) (c : MapCall) : Image := fun a =>
  if a / 4096 = c.va.toNat / 4096 then some (c.byte (a % 4096)) else I a

def lay (I : Image) (cs : List MapCall) : Image :=
  cs.foldl overlay I

@[simp] theorem lay_nil (I : Image) : lay I [] = I := rfl

@[simp] theorem lay_cons (I : Image) (c : MapCall) (cs : List MapCall) :
    lay I (c :: cs) = lay (overlay I c) cs := rfl

/-- Calls on consecutive pages. -/
theorem lay_pages {I : Image} {g : ℕ → MapCall} {n q a : ℕ}
    (hg : ∀ j < n, (g j).va.toNat / 4096 = q + j) :
    lay I ((List.range n).map g) a =
      if q ≤ a / 4096 ∧ a / 4096 < q + n then some ((g (a / 4096 - q)).byte (a % 4096)) else I a := by
  induction n with
  | zero => rw [if_neg (by omega)]; rfl
  | succ n ih =>
    have ih := ih fun j hj => hg j (by omega)
    have hn := hg n (by omega)
    have hstep : lay I ((List.range (n + 1)).map g) = overlay (lay I ((List.range n).map g)) (g n) := by
      rw [List.range_succ, List.map_append, lay, List.foldl_append]
      rfl
    rw [hstep, overlay, hn]
    by_cases ha : a / 4096 = q + n
    · have hsub : a / 4096 - q = n := by omega
      rw [if_pos ha, if_pos (by omega), hsub]
    · rw [if_neg ha, ih]
      by_cases hin : q ≤ a / 4096 ∧ a / 4096 < q + n
      · rw [if_pos hin, if_pos (by omega)]
      · rw [if_neg hin, if_neg (by omega)]

/-- The memory of a segment after its calls. -/
def segmentImage (I : Image) (ph : Phdr) (bin : ℕ → Byte) : Image :=
  lay (lay (if ph.offset ≠ 0 then overlay I (headCall ph bin) else I)
    ((indices ph.headSize ph.filesz.toNat).map (fileCall ph bin)))
    ((indices ph.fileEnd ph.memsz.toNat).map (zeroCall ph))

/-- The mapper does what `overlay` says, for calls that stay inside a page below
`top`. -/
def Lays {η ε σ : Type} (top : ℕ) (G : σ → Prop) (image : σ → Image)
    (mapPage : MapCall → Sys η ε σ Unit) : Prop :=
  ∀ s c s', G s → (∀ bs, c.src = some bs → c.offset + bs.length ≤ 4096) → c.va.toNat < top →
    FlagOnly c.perm → mapPage c s = .ok (.ok (), s') →
    G s' ∧ ∀ a < top, image s' a = overlay (image s) c a

theorem overlay_congr {I J : Image} {c : MapCall} {a : ℕ} (h : I a = J a) :
    overlay I c a = overlay J c a := by
  simp only [overlay, h]

theorem lay_congr {I J : Image} {cs : List MapCall} {a : ℕ} (h : I a = J a) :
    lay I cs a = lay J cs a := by
  induction cs generalizing I J with
  | nil => exact h
  | cons c cs ih => exact ih (overlay_congr h)

section Run

variable {η ε σ : Type} {top : ℕ} {G : σ → Prop} {image : σ → Image}
  {mapPage : MapCall → Sys η ε σ Unit} {s s' : σ}

theorem Lays.each (hm : Lays top G image mapPage) {g : ℕ → MapCall} {is : List ℕ}
    (hg : ∀ i ∈ is, (∀ bs, (g i).src = some bs → (g i).offset + bs.length ≤ 4096) ∧
      (g i).va.toNat < top ∧ FlagOnly (g i).perm)
    (hs : G s) (hrun : Sys.each (fun i => mapPage (g i)) is s = .ok (.ok (), s')) :
    G s' ∧ ∀ a < top, image s' a = lay (image s) (is.map g) a := by
  induction is generalizing s with
  | nil =>
    obtain ⟨-, rfl⟩ := Prod.mk.inj (Except.ok.inj hrun)
    exact ⟨hs, fun _ _ => rfl⟩
  | cons i is ih =>
    obtain ⟨⟨⟩, t, hcall, hrest⟩ := Sys.bind_ok hrun
    obtain ⟨hsrc, hva, hperm⟩ := hg i (.head _)
    obtain ⟨ht, himage⟩ := hm s (g i) t hs hsrc hva hperm hcall
    obtain ⟨hs', hlay⟩ := ih (fun j hj => hg j (.tail _ hj)) ht hrest
    exact ⟨hs', fun a ha => (hlay a ha).trans (lay_congr (himage a ha))⟩

end Run

/-! ## The calls of a segment -/

theorem Phdr.offset_eq (ph : Phdr) : ph.offset = ph.vaddr.toNat % 4096 := by
  have hdown := rounddown_toNat ph.vaddr
  have hlt := ph.vaddr.isLt
  rw [Phdr.offset, BitVec.toNat_sub, hdown]
  omega

theorem mem_indices {a b i : ℕ} (h : i ∈ indices a b) : i < b := by
  obtain ⟨j, hj, rfl⟩ := List.mem_map.mp h
  have := List.mem_range.mp hj
  omega

theorem va_toNat {ph : Phdr} {i : ℕ} (h : ph.vaddr.toNat + i < 2 ^ 32) :
    (ph.vaddr + BitVec.ofNat 32 i).toNat = ph.vaddr.toNat + i := by
  simp only [BitVec.toNat_add, BitVec.toNat_ofNat]
  omega

theorem flagOnly_segPerm : FlagOnly segPerm := by decide

section Segment

variable {η ε σ : Type} {top : ℕ} {G : σ → Prop} {image : σ → Image}
  {mapPage : MapCall → Sys η ε σ Unit} {s s' : σ} {ph : Phdr} {bin : ℕ → Byte}

/-- A run that returns has laid the calls of the segment over what was there. -/
theorem Lays.segment (hm : Lays top G image mapPage) (hfm : ph.filesz.toNat ≤ ph.memsz.toNat)
    (htop : ph.vaddr.toNat + ph.memsz.toNat ≤ top) (htop' : top < 2 ^ 32) (halign : top % 4096 = 0)
    (hs : G s) (hrun : elfLoadSeg mapPage ph bin s = .ok (.ok (), s')) :
    G s' ∧ ∀ a < top, image s' a = segmentImage (image s) ph bin a := by
  obtain ⟨⟨⟩, s₁, hhead, hrun⟩ := Sys.bind_ok hrun
  obtain ⟨⟨⟩, s₂, hfile, hzero⟩ := Sys.bind_ok hrun
  have hoff := ph.offset_eq
  have hstep : G s₁ ∧ ∀ a < top, image s₁ a =
      (if ph.offset ≠ 0 then overlay (image s) (headCall ph bin) else image s) a := by
    unfold Sys.when at hhead
    by_cases h0 : ph.offset ≠ 0
    · rw [if_pos h0] at hhead ⊢
      refine hm s (headCall ph bin) s₁ hs (fun bs hbs => ?_) ?_ flagOnly_segPerm hhead
      · cases hbs
        simp only [headCall, List.length_map, List.length_range]
        omega
      · simp only [headCall]
        omega
    · rw [if_neg h0] at hhead ⊢
      obtain ⟨-, rfl⟩ := Prod.mk.inj (Except.ok.inj hhead)
      exact ⟨hs, fun _ _ => rfl⟩
  obtain ⟨hs₁, himage₁⟩ := hstep
  obtain ⟨hs₂, himage₂⟩ := hm.each (fun i hi => by
    have := mem_indices hi
    refine ⟨fun bs hbs => ?_, ?_, flagOnly_segPerm⟩
    · cases hbs
      simp [fileCall]
    · simp only [fileCall]
      rw [va_toNat (by omega)]
      omega) hs₁ hfile
  obtain ⟨hs', himage'⟩ := hm.each (fun i hi => by
    have := mem_indices hi
    refine ⟨fun bs hbs => (by cases hbs), ?_, flagOnly_segPerm⟩
    simp only [zeroCall]
    rw [va_toNat (by omega)]
    omega) hs₂ hzero
  refine ⟨hs', fun a ha => (himage' a ha).trans ?_⟩
  exact lay_congr ((himage₂ a ha).trans (lay_congr (himage₁ a ha)))

end Segment

/-! ## When the memory of a segment is right -/

/-- The byte that belongs at offset `k` of the segment. -/
def Phdr.expected (ph : Phdr) (bin : ℕ → Byte) (k : ℕ) : Byte :=
  if k < ph.filesz.toNat then bin k else 0#8

/-- The zero part does not begin inside the first page behind file bytes; or what it
overwrites there is zero, and its steps from there still reach the last page. -/
def Phdr.Fits (ph : Phdr) (bin : ℕ → Byte) : Prop :=
  ph.vaddr.toNat % 4096 = 0 ∨ 4096 - ph.vaddr.toNat % 4096 ≤ ph.filesz.toNat ∨
    ph.memsz = ph.filesz ∨
    ((∀ k < ph.filesz.toNat, bin k = 0#8) ∧
      ph.vaddr.toNat % 4096 + ph.filesz.toNat +
        (ph.memsz.toNat - ph.filesz.toNat - 1) % 4096 < 4096)

section Fits

variable {ph : Phdr} {bin : ℕ → Byte} {I : Image}

theorem file_byte {o i : ℕ} (ho : o < 4096) :
    (fileCall ph bin i).byte o = ph.expected bin (i + o) := by
  simp only [MapCall.byte, fileCall, Nat.zero_le, if_true, Nat.sub_zero, Phdr.expected]
  by_cases h : i + o < ph.filesz.toNat
  · rw [if_pos h, List.getD_eq_getElem _ _ (by simp; omega)]
    simp
  · rw [if_neg h, List.getD_eq_default _ _ (by simp; omega)]

theorem head_byte {k : ℕ} (hk : ph.offset + k < 4096) :
    (headCall ph bin).byte (ph.offset + k) = ph.expected bin k := by
  simp only [MapCall.byte, headCall, Nat.le_add_right, if_true, Nat.add_sub_cancel_left,
    Phdr.expected]
  by_cases h : k < ph.filesz.toNat
  · rw [if_pos h, List.getD_eq_getElem _ _ (by simp; omega)]
    simp
  · rw [if_neg h, List.getD_eq_default _ _ (by simp; omega)]

/-- The loop over the zero part, from page `q` on. -/
theorem lay_zeros {J : Image} {e a : ℕ} (hv : ph.vaddr.toNat + ph.memsz.toNat < 2 ^ 32) :
    lay J ((indices e ph.memsz.toNat).map (zeroCall ph)) a =
      if (ph.vaddr.toNat + e) / 4096 ≤ a / 4096 ∧
          a / 4096 < (ph.vaddr.toNat + e) / 4096 + (ph.memsz.toNat - e + 4095) / 4096
      then some 0#8 else J a := by
  rw [indices, List.map_map, lay_pages (q := (ph.vaddr.toNat + e) / 4096)]
  · rfl
  · intro j hj
    simp only [Function.comp_apply, zeroCall]
    rw [va_toNat (by omega)]
    omega

/-- The loop over the file, from a page boundary on. -/
theorem lay_file {J : Image} {h k : ℕ} (hv : ph.vaddr.toNat + ph.filesz.toNat < 2 ^ 32)
    (halign : (ph.vaddr.toNat + h) % 4096 = 0) :
    lay J ((indices h ph.filesz.toNat).map (fileCall ph bin)) (ph.vaddr.toNat + k) =
      if h ≤ k ∧ k < h + 4096 * ((ph.filesz.toNat - h + 4095) / 4096)
      then some (ph.expected bin k) else J (ph.vaddr.toNat + k) := by
  rw [indices, List.map_map, lay_pages (q := (ph.vaddr.toNat + h) / 4096)]
  · by_cases hk : h ≤ k ∧ k < h + 4096 * ((ph.filesz.toNat - h + 4095) / 4096)
    · have hpage : (ph.vaddr.toNat + k) / 4096 - (ph.vaddr.toNat + h) / 4096 = (k - h) / 4096 := by
        omega
      have hbyte : h + 4096 * ((k - h) / 4096) + (ph.vaddr.toNat + k) % 4096 = k := by omega
      rw [if_pos hk, if_pos (by omega), hpage, Function.comp_apply,
        file_byte (Nat.mod_lt _ (by decide)), hbyte]
    · rw [if_neg hk, if_neg (by omega)]
  · intro j hj
    simp only [Function.comp_apply, fileCall]
    rw [va_toNat (by omega)]
    omega

/-- The first page, when the segment does not begin at a page boundary. -/
theorem head_at {k : ℕ} (h0 : ph.offset ≠ 0) (hk : ph.offset + k < 4096) :
    (if ph.offset ≠ 0 then overlay I (headCall ph bin) else I) (ph.vaddr.toNat + k) =
      some (ph.expected bin k) := by
  have hoff := ph.offset_eq
  have hpage : (ph.vaddr.toNat + k) / 4096 = ph.vaddr.toNat / 4096 := by omega
  have hmod : (ph.vaddr.toNat + k) % 4096 = ph.offset + k := by omega
  rw [if_pos h0, overlay, if_pos (by simpa [headCall] using hpage), hmod, head_byte hk]

/-- The pages are all different. -/
theorem segmentImage_aligned (hfm : ph.filesz.toNat ≤ ph.memsz.toNat)
    (hv : ph.vaddr.toNat + ph.memsz.toNat < 2 ^ 32)
    (halign : (ph.vaddr.toNat + ph.headSize) % 4096 = 0) {k : ℕ} (hk : k < ph.memsz.toNat) :
    segmentImage I ph bin (ph.vaddr.toNat + k) = some (ph.expected bin k) := by
  have hoff := ph.offset_eq
  have hend : ph.fileEnd =
      ph.headSize + 4096 * ((ph.filesz.toNat - ph.headSize + 4095) / 4096) := by
    rw [Phdr.fileEnd, indices, List.length_map, List.length_range]
  rw [segmentImage, lay_zeros hv]
  by_cases hzero : ph.fileEnd ≤ k
  · rw [if_pos (by omega), Phdr.expected, if_neg (by omega)]
  · rw [if_neg (by omega), lay_file (by omega) halign]
    by_cases hfile : ph.headSize ≤ k
    · rw [if_pos (by omega)]
    · rw [if_neg (by omega)]
      have h0 : ph.offset ≠ 0 := fun h => hfile (by simp [Phdr.headSize, h])
      have hhead : ph.headSize ≤ 4096 - ph.offset := by
        rw [Phdr.headSize, if_pos h0]
        exact Nat.min_le_right _ _
      exact head_at h0 (by omega)

/-- The file ends inside the first page: the zero part begins again there. -/
theorem segmentImage_short (I : Image) (bin : ℕ → Byte)
    (hv : ph.vaddr.toNat + ph.memsz.toNat < 2 ^ 32) (h0 : ph.offset ≠ 0) (hshort : ph.filesz.toNat < 4096 - ph.offset) (a : ℕ) :
    segmentImage I ph bin a =
      if ph.vaddr.toNat / 4096 ≤ a / 4096 ∧ a / 4096 < ph.vaddr.toNat / 4096 +
          (ph.memsz.toNat - ph.filesz.toNat + 4095) / 4096
      then some 0#8
      else (if ph.offset ≠ 0 then overlay I (headCall ph bin) else I) a := by
  have hoff := ph.offset_eq
  have hhead : ph.headSize = ph.filesz.toNat := by
    rw [Phdr.headSize, if_pos h0]
    omega
  have hnone : indices ph.headSize ph.filesz.toNat = [] := by
    rw [hhead, indices, Nat.sub_self]
    rfl
  have hend : ph.fileEnd = ph.filesz.toNat := by
    rw [Phdr.fileEnd, hnone, hhead]
    rfl
  have hpage : (ph.vaddr.toNat + ph.filesz.toNat) / 4096 = ph.vaddr.toNat / 4096 := by omega
  rw [segmentImage, lay_zeros hv, hnone, hend, hpage]
  rfl

theorem segmentImage_iff (hfm : ph.filesz.toNat ≤ ph.memsz.toNat)
    (hv : ph.vaddr.toNat + ph.memsz.toNat < 2 ^ 32)
    (hI : ∀ k < ph.memsz.toNat, I (ph.vaddr.toNat + k) = none) :
    (∀ k < ph.memsz.toNat,
      segmentImage I ph bin (ph.vaddr.toNat + k) = some (ph.expected bin k)) ↔ ph.Fits bin := by
  have hoff := ph.offset_eq
  by_cases h0 : ph.offset = 0
  · have halign : (ph.vaddr.toNat + ph.headSize) % 4096 = 0 := by
      rw [Phdr.headSize, if_neg (by simpa using h0)]
      omega
    exact iff_of_true (fun k hk => segmentImage_aligned hfm hv halign hk) (.inl (by omega))
  · by_cases hshort : 4096 - ph.offset ≤ ph.filesz.toNat
    · have halign : (ph.vaddr.toNat + ph.headSize) % 4096 = 0 := by
        rw [Phdr.headSize, if_pos h0]
        omega
      exact iff_of_true (fun k hk => segmentImage_aligned hfm hv halign hk)
        (.inr (.inl (by omega)))
    · have himage := segmentImage_short I bin hv h0 (by omega)
      constructor
      · intro h
        by_cases hms : ph.memsz = ph.filesz
        · exact .inr (.inr (.inl hms))
        · have hlt : ph.filesz.toNat < ph.memsz.toNat :=
            lt_of_le_of_ne hfm fun e => hms (BitVec.eq_of_toNat_eq e.symm)
          refine .inr (.inr (.inr ⟨fun k hk => ?_, ?_⟩))
          · -- the byte was overwritten
            have hbyte := h k (by omega)
            rw [himage, if_pos (by omega), Phdr.expected, if_pos hk] at hbyte
            exact (Option.some.inj hbyte).symm
          · -- the last byte is mapped
            by_contra hfar
            have hlast := h (ph.memsz.toNat - 1) (by omega)
            rw [himage, if_neg (by omega), if_pos h0, overlay,
              if_neg (by simp only [headCall]; omega), hI _ (by omega)] at hlast
            cases hlast
      · intro h k hk
        rw [himage]
        rcases h with h | h | h | ⟨hzero, hfar⟩
        · omega
        · omega
        · rw [h, if_neg (by omega)]
          rw [h] at hk
          exact head_at h0 (by omega)
        · have hexp : ph.expected bin k = 0#8 := by
            unfold Phdr.expected
            split
            · exact hzero k ‹_›
            · rfl
          by_cases hms : ph.memsz.toNat = ph.filesz.toNat
          · rw [if_neg (by omega)]
            exact head_at h0 (by omega)
          · rw [if_pos (by omega), hexp]

end Fits

end Elf
end RvMos
