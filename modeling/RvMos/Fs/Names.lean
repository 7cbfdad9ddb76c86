/-
Writing a name (`strcpy` into a record).

A byte is stored by rewriting its word, so a store is seen at one address only.
`Written` says that a string stands at an address and that nothing else in memory
has changed.
-/
import RvMos.Fs.Tree

namespace RvMos

open Lib

namespace Fs

open Sys

/-! ## One byte -/

/-- A byte of a word whose byte at `i` has been replaced. -/
theorem byte_merge (w : Word) (v : Byte) {i j : ℕ} (hi : i < 4) (hj : j < 4) :
    ((((w &&& ~~~(0xff#32 <<< (i * 8))) ||| (v.setWidth 32 <<< (i * 8))) >>> (j * 8)).setWidth 8 : Byte) =
      if j = i then v else (w >>> (j * 8)).setWidth 8 := by
  have hmask : ∀ n, (0xff#32).getLsbD n = decide (n < 8) := fun n => by
    by_cases hn : n < 32
    · have hall : ∀ n : Fin 32, (0xff#32).getLsbD n.val = decide (n.val < 8) := by decide
      exact hall ⟨n, hn⟩
    · rw [BitVec.getLsbD_of_ge _ _ (not_lt.mp hn), decide_eq_false (by omega)]
  refine BitVec.eq_of_getLsbD_eq fun k hk => ?_
  simp only [BitVec.getLsbD_setWidth, BitVec.getLsbD_ushiftRight, BitVec.getLsbD_or, BitVec.getLsbD_and,
    BitVec.getLsbD_not, BitVec.getLsbD_shiftLeft, hmask, hk, decide_true, Bool.true_and]
  have hlt : j * 8 + k < 32 := by omega
  by_cases hji : j = i
  · subst hji
    have hsub : j * 8 + k - j * 8 = k := by omega
    have hge : ¬j * 8 + k < j * 8 := by omega
    have hk32 : k < 32 := by omega
    simp [hsub, hge, hk, hlt, hk32]
  · rw [if_neg hji]
    simp only [BitVec.getLsbD_setWidth, BitVec.getLsbD_ushiftRight, hk, decide_true, Bool.true_and]
    by_cases hlo : j * 8 + k < i * 8
    · simp [hlo, hlt]
    · have hge : ¬j * 8 + k - i * 8 < 8 := by omega
      have hout : v.getLsbD (j * 8 + k - i * 8) = false := BitVec.getLsbD_of_ge _ _ (by omega)
      simp [hlo, hlt, hge, hout]

/-- The state after `storeByte`. -/
def Server.setByte (s : Server) (va : Word) (v : Byte) : Server :=
  s.setWord va ((s.view va &&& ~~~(0xff#32 <<< byteShift va)) ||| (v.setWidth 32 <<< byteShift va))

section Bytes

variable {s s₁ s' : Server} {va va' b b' p : Word} {y y' : ℕ} {v c : Byte} {cs bs : List Byte}
  {E : Stop → Prop}

theorem wp_storeByte {Q : Except Err Unit → Server → Prop} (hc : s.Cached va)
    (hQ : Q (.ok ()) (s.setByte va v)) : (storeByte va v).wp Q E s := by
  unfold storeByte
  rw [wp_bind]
  exact wp_load hc (wp_store hc hQ)

theorem At.byteShift (h : At va b y) : byteShift va = y % 4 * 8 := by
  have hval := h.val
  unfold Fs.byteShift
  omega

theorem At.view_eq (h : At va b y) (h' : At va' b y') (hy : y' / 4 = y / 4) :
    s.view va' = s.view va := by
  unfold Server.view
  rw [h.blockOf_eq, h'.blockOf_eq, Fin.ext (h'.wordIdx_val.trans (hy.trans h.wordIdx_val.symm))]

theorem byte_setByte (hc : s.Cached va) (h : At va b y) (h' : At va' b' y') :
    (s.setByte va v).byte va' = if b' = b ∧ y' = y then v else s.byte va' := by
  unfold Server.setByte Server.byte
  rw [view_setWord_at hc h h', h.byteShift, h'.byteShift]
  by_cases hw : b' = b ∧ y' / 4 = y / 4
  · obtain ⟨rfl, hy⟩ := hw
    rw [if_pos ⟨rfl, hy⟩, byte_merge _ _ (Nat.mod_lt _ (by omega)) (Nat.mod_lt _ (by omega)),
      h.view_eq h' hy]
    exact if_congr ⟨fun he => ⟨rfl, by omega⟩, fun he => he.2 ▸ rfl⟩ rfl rfl
  · rw [if_neg hw, if_neg]
    rintro ⟨rfl, rfl⟩
    exact hw ⟨rfl, rfl⟩

/-! ## A string -/

/-- The bytes `bs` stand at byte `y` of block `b`, and nothing else has changed. -/
structure Written (s s' : Server) (p b : Word) (y : ℕ) (bs : List Byte) : Prop where
  touches : Touches (fun c o => c = b ∧ y / 4 ≤ o.val ∧ 4 * o.val < y + bs.length) s s'
  bytes : ∀ k (hk : k < bs.length), s'.byte (p + BitVec.ofNat 32 k) = bs.get ⟨k, hk⟩
  others : ∀ va b' y', At va b' y' → ¬(b' = b ∧ y ≤ y' ∧ y' < y + bs.length) →
    s'.byte va = s.byte va

theorem Written.nil (hp : At p b y) (hc : s.Cached p) : Written s (s.setByte p v) p b y [v] := by
  have hself : (s.setByte p v).byte p = v := by
    rw [byte_setByte hc hp hp, if_pos ⟨rfl, rfl⟩]
  refine ⟨touches_setWord hc ⟨hp.blockOf_eq, ?_⟩, fun k hk => ?_, fun va b' y' hat hn => ?_⟩
  · rw [hp.wordIdx_val, List.length_singleton]
    omega
  · obtain rfl : k = 0 := Nat.lt_one_iff.mp hk
    rw [BitVec.add_zero]
    exact hself
  · rw [byte_setByte hc hp hat, if_neg]
    rintro ⟨rfl, rfl⟩
    exact hn ⟨rfl, le_refl _, by simp⟩

theorem Written.cons (hp : At p b y) (hc : s.Cached p) (hy : y + 1 < 4096)
    (h : Written (s.setByte p v) s' (p + 1#32) b (y + 1) bs) : Written s s' p b y (v :: bs) := by
  have hself : (s.setByte p v).byte p = v := by
    rw [byte_setByte hc hp hp, if_pos ⟨rfl, rfl⟩]
  refine ⟨?_, fun k hk => ?_, fun va b' y' hat hn => ?_⟩
  · refine trans_of (Touches _) (touches_setWord hc ⟨hp.blockOf_eq, ?_⟩)
      (h.touches.mono fun c o hW => ⟨hW.1, ?_⟩)
    · rw [hp.wordIdx_val, List.length_cons]
      omega
    · have hlo := hW.2.1
      have hhi := hW.2.2
      rw [List.length_cons]
      omega
  · cases k with
    | zero =>
      rw [BitVec.add_zero, h.others p b y hp (by omega)]
      exact hself
    | succ k =>
      have hk' : k < bs.length := Nat.lt_of_succ_lt_succ hk
      have hb := h.bytes k hk'
      rw [add_one_add] at hb
      exact hb
  · rw [List.length_cons] at hn
    rw [h.others va b' y' hat (fun he => hn ⟨he.1, by omega, by omega⟩), byte_setByte hc hp hat, if_neg]
    rintro ⟨rfl, rfl⟩
    exact hn ⟨rfl, le_refl _, by omega⟩

/-- `strcpy` of a string that fits into the block. -/
theorem wp_strcpy {Q : Except Err Unit → Server → Prop} {name : List Byte} (hp : At p b y)
    (hlen : y + name.length < 4096) (hc : ∀ k ≤ name.length, s.Cached (p + BitVec.ofNat 32 k))
    (hQ : ∀ s', Written s s' p b y (name ++ [0#8]) → Q (.ok ()) s') : (strcpy p name).wp Q E s := by
  induction name generalizing s p y with
  | nil =>
    have hp0 := hc 0 (by omega)
    rw [BitVec.add_zero] at hp0
    exact wp_storeByte hp0 (hQ _ (.nil hp hp0))
  | cons c cs ih =>
    rw [List.length_cons] at hlen
    have hp0 := hc 0 (by omega)
    rw [BitVec.add_zero] at hp0
    unfold strcpy
    rw [wp_bind]
    refine wp_storeByte hp0 (ih (hp.add (n := 1) (by omega)) (by omega) (fun k hk => ?_) fun s' h => ?_)
    · rw [add_one_add]
      exact cached_setWord (hc (k + 1) (by rw [List.length_cons]; omega))
    · exact hQ s' (Written.cons hp hp0 (by omega) h)

/-- The bytes of a terminated string, up to its terminator. -/
theorem takeWhile_bytesAt {name : List Byte} {n : ℕ} (h0 : 0#8 ∉ name) (hn : name.length < n)
    (hb : ∀ k (hk : k < name.length), s.byte (p + BitVec.ofNat 32 k) = name.get ⟨k, hk⟩)
    (hend : s.byte (p + BitVec.ofNat 32 name.length) = 0#8) :
    (s.bytesAt p n).takeWhile (· ≠ 0#8) = name := by
  induction name generalizing p n with
  | nil =>
    cases n with
    | zero => exact absurd hn (by simp)
    | succ n =>
      rw [List.length_nil, BitVec.add_zero] at hend
      unfold Server.bytesAt
      rw [List.takeWhile_cons_of_neg (by simp [hend])]
  | cons c cs ih =>
    cases n with
    | zero => exact absurd hn (by simp)
    | succ n =>
      rw [List.length_cons] at hn hend
      obtain ⟨hc0, hcs⟩ := not_or.mp (mt List.mem_cons.mpr h0)
      have hhead := hb 0 (by simp)
      rw [BitVec.add_zero] at hhead
      have htail : (s.bytesAt (p + 1#32) n).takeWhile (· ≠ 0#8) = cs := by
        refine ih hcs (by omega) (fun k hk => ?_) ?_
        · rw [add_one_add]
          exact hb (k + 1) (by simpa using hk)
        · rw [add_one_add]
          exact hend
      unfold Server.bytesAt
      rw [hhead, List.takeWhile_cons_of_pos (by simpa using Ne.symm hc0), htail]
      rfl

/-- The name that has been written. -/
theorem Written.name {name : List Byte} (h : Written s s' p b y (name ++ [0#8])) (h0 : 0#8 ∉ name)
    (hlen : name.length < maxNameLen) : s'.entryName p = name := by
  have hle : (name ++ [0#8]).length = name.length + 1 := by simp
  refine takeWhile_bytesAt h0 hlen (fun k hk => ?_) ?_
  · rw [h.bytes k (by omega)]
    simp [List.getElem_append_left hk]
  · rw [h.bytes name.length (by omega)]
    simp

end Bytes

end Fs
end RvMos
