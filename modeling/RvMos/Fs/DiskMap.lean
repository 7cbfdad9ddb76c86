/-
The window of the block cache (`diskaddr` of `fs/fs.c`).

The address of a block is a product and a sum of 32 bits with one comparison behind
them.  The product keeps the low twenty bits of the block number only, the sum may
pass zero again, and the comparison lets the first block behind the window through.
-/
import RvMos.Fs.Image

namespace RvMos

open Lib

namespace Fs

open Sys

/-- The bits of a block number that are left in its address. -/
def slot (b : Word) : ℕ := b.toNat % 2 ^ 20

/-- `diskaddr` panics, or the block lies in the window. -/
def InWindow (s : Server) (b : Word) : Prop :=
  (diskaddr b).wp
    (fun r _ => ∃ a, r = .ok a ∧ diskmap.toNat ≤ a.toNat ∧
      a.toNat + by2blk.toNat ≤ diskmap.toNat + diskmax.toNat)
    (fun c => ∃ msg, c = .panic msg) s

/-- The two blocks have one address only if they are the same block. -/
def Apart (s : Server) (b c : Word) : Prop :=
  ∀ a t t', diskaddr b s = .ok (.ok a, t) → diskaddr c s = .ok (.ok a, t') → b = c

/-- The block number is not the one behind the last, and its address has not passed zero. -/
def NoSlip (b : Word) : Prop := slot b ≠ 0x40000 ∧ slot b < 0xf0000

instance (b : Word) : Decidable (NoSlip b) := inferInstanceAs (Decidable (_ ∧ _))

section Window

variable {s : Server} {b c : Word}

theorem slot_lt (b : Word) : slot b < 2 ^ 20 := Nat.mod_lt _ (by decide)

theorem blockVa_toNat (b : Word) : (blockVa b).toNat = (2 ^ 28 + 4096 * slot b) % 2 ^ 32 := by
  have hd : diskmap.toNat = 2 ^ 28 := rfl
  have h4 : by2blk.toNat = 4096 := rfl
  unfold blockVa slot
  rw [BitVec.toNat_add, BitVec.toNat_mul, hd, h4]
  omega

theorem blockVa_eq_iff : blockVa b = blockVa c ↔ slot b = slot c := by
  have hb := slot_lt b
  have hc := slot_lt c
  rw [← BitVec.toNat_inj, blockVa_toNat, blockVa_toNat]
  omega

/-- What the comparison of `diskaddr` lets pass. -/
theorem blockVa_le_iff : ¬blockVa b > diskmax + diskmap ↔ slot b ≤ 0x40000 ∨ 0xf0000 ≤ slot b := by
  have hb := slot_lt b
  have hmax : (diskmax + diskmap).toNat = 0x50000000 := by decide
  rw [gt_iff_lt, BitVec.lt_def, hmax, blockVa_toNat]
  omega

theorem diskaddr_eq (s : Server) (b : Word) : diskaddr b s =
    if slot b ≤ 0x40000 ∨ 0xf0000 ≤ slot b then .ok (.ok (blockVa b), s)
    else .error (.panic "the blockno is beyond disk's capacity!\n") := by
  have hle := @blockVa_le_iff b
  unfold blockVa at hle ⊢
  unfold diskaddr
  by_cases h : slot b ≤ 0x40000 ∨ 0xf0000 ≤ slot b
  · rw [if_pos h, if_neg (hle.mpr h)]
    rfl
  · have hgt := not_not.mp (mt hle.mp h)
    rw [if_neg h, if_pos hgt]
    rfl

theorem diskaddr_ok_iff {a : Word} {t : Server} : diskaddr b s = .ok (.ok a, t) ↔
    (slot b ≤ 0x40000 ∨ 0xf0000 ≤ slot b) ∧ a = blockVa b ∧ t = s := by
  rw [diskaddr_eq]
  split
  · rename_i h
    constructor
    · rintro ⟨⟩
      exact ⟨h, rfl, rfl⟩
    · rintro ⟨-, rfl, rfl⟩
      rfl
  · rename_i h
    constructor
    · rintro ⟨⟩
    · exact fun hok => absurd hok.1 h

theorem inWindow_iff : InWindow s b ↔ NoSlip b := by
  have hd : diskmap.toNat = 0x10000000 := rfl
  have hm : diskmax.toNat = 0x40000000 := rfl
  have h4 : by2blk.toNat = 4096 := rfl
  have hb := slot_lt b
  have hval := blockVa_toNat b
  unfold InWindow wp NoSlip
  rw [diskaddr_eq, hd, hm, h4]
  by_cases h : slot b ≤ 0x40000 ∨ 0xf0000 ≤ slot b
  · rw [if_pos h]
    constructor
    · rintro ⟨a, ha, hlo, hhi⟩
      cases ha
      omega
    · intro hslip
      exact ⟨_, rfl, by omega, by omega⟩
  · rw [if_neg h]
    refine ⟨fun _ => by omega, fun _ => ⟨_, rfl⟩⟩

theorem apart_iff : Apart s b c ↔ b = c ∨ slot b ≠ slot c ∨
    (0x40000 < slot b ∧ slot b < 0xf0000) := by
  unfold Apart
  simp only [diskaddr_ok_iff]
  constructor
  · intro h
    by_cases hslot : slot b = slot c
    · by_cases hok : slot b ≤ 0x40000 ∨ 0xf0000 ≤ slot b
      · left
        exact h (blockVa b) s s ⟨hok, rfl, rfl⟩ ⟨hslot ▸ hok, blockVa_eq_iff.mpr hslot, rfl⟩
      · right; right
        omega
    · exact .inr (.inl hslot)
  · rintro (rfl | hne | hbad) a t t' ⟨hb, rfl, -⟩ ⟨-, heq, -⟩
    · rfl
    · exact absurd (blockVa_eq_iff.mp heq) hne
    · omega

end Window

/-- Two blocks have their own places in the window exactly if neither number slips
through the comparison and they differ in the bits that the address keeps. -/
theorem diskaddr_distinct_iff (s : Server) (b c : Word) :
    (InWindow s b ∧ InWindow s c ∧ Apart s b c) ↔
      NoSlip b ∧ NoSlip c ∧ (b = c ∨ slot b ≠ slot c ∨ 0x40000 < slot b) := by
  rw [inWindow_iff, inWindow_iff, apart_iff]
  refine and_congr_right fun hb => and_congr_right fun _ => or_congr_right (or_congr_right ?_)
  exact and_iff_left hb.2

/-- The block behind the last one gets an address behind the window, and blocks 1 and
2^20 + 1 get the same. -/
theorem diskaddr_distinct_fails :
    ¬∀ s b c, InWindow s b ∧ InWindow s c ∧ Apart s b c := by
  intro h
  let s : Server := ⟨fun _ => none, fun _ _ => 0#32, false, false, [],
    fun _ => ⟨0#32, 0#32, 0#32, 0#16, ⟨0#32, 0#32, 0#32, 0#32, fun _ => 0#32⟩⟩, []⟩
  have h1 := (h s 1#32 0x100001#32).2.2
  rw [apart_iff] at h1
  exact absurd h1 (by decide)

end Fs
end RvMos
