/-
A run of pages (`page_alloc_sequent` of `kern/pmap.c`).

The function walks once over `page_free_list`, which is taken here as the linked list
it is, and counts how many elements up to the current one lie a page below each other.
When the count is `n` it walks from the first of them to the current one, takes each
off the list and goes on through the link that the removed element still has.
-/
import RvMos.Kern.Pmap
import RvMos.Kern.Queue

namespace RvMos

open Lib

namespace PageRun

open Sys Queue

/-- `pp_ref`, and the contents of the frame that the page structure stands for. -/
structure Backed where
  ref : BitVec 16
  data : Page

/-- `memset((void*)page2addr(t),0,BY2PG)` and `t->pp_ref += 1`. -/
def Backed.claim (b : Backed) : Backed := ⟨b.ref + 1, fun _ => 0#32⟩

abbrev Pages := Heap Frame Backed

abbrev Run := Act Errno Frame Backed

def by2pg : Word := 4096#32

/-- The variables of the `LIST_FOREACH` loop. -/
structure Scan where
  first : Option Frame
  prev : Option Frame
  cnt : Word

/-- One round of the loop, at the page `pp`. -/
def Scan.step (v : Scan) (pp : Frame) : Run Scan := do
  if 0 < v.cnt.toInt then
    let prev ← deref v.prev
    if page2addr pp ≠ page2addr prev - by2pg then pure ⟨some pp, some pp, 0#32 + 1#32⟩
    else pure ⟨v.first, some pp, v.cnt + 1#32⟩
  else pure ⟨some pp, some pp, v.cnt + 1#32⟩

/-- The loop; its result is `first` and `pp` if `flag` was set. -/
def scan (n : Word) : ℕ → Option Frame → Scan → Run (Option (Option Frame × Frame))
  | 0, _, _ => halt .endless
  | fuel + 1, pp, v =>
    match pp with
    | none => pure none
    | some pp => do
      let v ← v.step pp
      if v.cnt = n then pure (some (v.first, pp))
      else scan n fuel (← getNext pp) v

/-- The second loop, up to the element behind `pp`. -/
def takeRun (pp : Frame) : ℕ → Option Frame → Run Unit
  | 0, _ => halt .endless
  | fuel + 1, t => do
    if t = (← getNext pp) then pure ()
    else
      let t ← deref t
      listRemove t
      setRest t Backed.claim
      takeRun pp fuel (← getNext t)

def pageAllocSequent (n : Word) : Run Frame := do
  if (← getFirst) = none then throw .noMem
  else
    match ← scan n (npage + 1) (← getFirst) ⟨none, none, 0#32⟩ with
    | none => throw .noMem
    | some (first, pp) => do
      takeRun pp (npage + 1) first
      pure pp

/-! ## Stretches -/

/-- Elements `j` and `j + 1` are there, and the second lies a page below the first. -/
def Steps (xs : List Frame) (j : ℕ) : Prop :=
  ∃ a b, xs[j]? = some a ∧ xs[j + 1]? = some b ∧ (page2addr b).toNat + 4096 = (page2addr a).toNat

/-- The `n` elements from `i` on lie a page below each other. -/
def Stretch (xs : List Frame) (i n : ℕ) : Prop :=
  i + n ≤ xs.length ∧ ∀ j, i ≤ j → j + 1 < i + n → Steps xs j

/-- The element at which `m` elements have been seen ends a run of `c` elements, and no
stretch of `n` has been seen. -/
structure Seen (xs : List Frame) (n m c : ℕ) : Prop where
  bound : c ≤ m ∧ m ≤ xs.length
  run : ∀ j, m - c ≤ j → j + 1 < m → Steps xs j
  cut : ∀ j, j + 1 = m - c → ¬Steps xs j
  pos : 0 < m → 0 < c
  short : c < n ∨ n = 0
  none : ∀ i, i + n ≤ m → 0 < n → ¬Stretch xs i n

section Stretches

variable {xs : List Frame} {n m c i : ℕ} {a b : Frame}

theorem steps_iff (ha : xs[m]? = some a) (hb : xs[m + 1]? = some b) :
    Steps xs m ↔ page2addr b = page2addr a - by2pg := by
  have ha' := page2addr_toNat a
  have hb' := page2addr_toNat b
  have hlt := a.isLt
  have hnp : npage = 65536 := rfl
  have h4 : by2pg.toNat = 4096 := rfl
  have hsub : (page2addr a - by2pg).toNat = (2 ^ 32 - 4096 + (page2addr a).toNat) % 2 ^ 32 := by
    rw [BitVec.toNat_sub, h4]
  have heq : page2addr b = page2addr a - by2pg ↔
      (page2addr b).toNat + 4096 = (page2addr a).toNat := by
    rw [← BitVec.toNat_inj, hsub]
    omega
  rw [heq]
  constructor
  · rintro ⟨a', b', h₁, h₂, h⟩
    obtain rfl := Option.some.inj (ha.symm.trans h₁)
    obtain rfl := Option.some.inj (hb.symm.trans h₂)
    exact h
  · exact fun h => ⟨a, b, ha, hb, h⟩

theorem seen_zero : Seen xs n 0 0 :=
  ⟨⟨le_rfl, Nat.zero_le _⟩, fun j _ hj => by omega, fun j hj => by omega, fun h => by omega,
    by omega, fun i hi hn => by omega⟩

/-- The next element goes on with the run. -/
theorem Seen.extend (h : Seen xs n m c) (hm : m < xs.length) (hc : 0 < c)
    (hstep : Steps xs (m - 1)) (hne : c + 1 ≠ n) : Seen xs n (m + 1) (c + 1) := by
  have hb := h.bound
  refine ⟨⟨by omega, hm⟩, fun j hlo hhi => ?_, fun j hj => ?_, fun _ => Nat.succ_pos c, ?_,
    fun i hi hn hs => ?_⟩
  · by_cases hj : j + 1 < m
    · exact h.run j (by omega) hj
    · obtain rfl : j = m - 1 := by omega
      exact hstep
  · exact h.cut j (by omega)
  · have := h.short
    omega
  · by_cases hle : i + n ≤ m
    · exact h.none i hle hn hs
    · have := h.short
      exact h.cut (m - c - 1) (by omega) (hs.2 (m - c - 1) (by omega) (by omega))

/-- The next element starts a run. -/
theorem Seen.restart (h : Seen xs n m c) (hm : m < xs.length)
    (hcut : ∀ j, j + 1 = m → ¬Steps xs j) (hne : 1 ≠ n) : Seen xs n (m + 1) 1 := by
  refine ⟨⟨by omega, hm⟩, fun j hlo hhi => by omega, fun j hj => hcut j (by omega),
    fun _ => Nat.one_pos, by omega, fun i hi hn hs => ?_⟩
  by_cases hle : i + n ≤ m
  · exact h.none i hle hn hs
  · exact hcut (m - 1) (by omega) (hs.2 (m - 1) (by omega) (by omega))

/-- The run with the next element is a stretch, and the first one. -/
theorem Seen.found (h : Seen xs n m c) (hm : m < xs.length) (hc : 0 < c)
    (hstep : Steps xs (m - 1)) (heq : c + 1 = n) :
    Stretch xs (m + 1 - n) n ∧ ∀ i, Stretch xs i n → m + 1 - n ≤ i := by
  have hb := h.bound
  refine ⟨⟨by omega, fun j hlo hhi => ?_⟩, fun i hs => ?_⟩
  · by_cases hj : j + 1 < m
    · exact h.run j (by omega) hj
    · obtain rfl : j = m - 1 := by omega
      exact hstep
  · by_contra hlt
    exact h.none i (by omega) (by omega) hs

/-- One element is a stretch of one. -/
theorem Seen.found_one (h : Seen xs 1 m c) (hm : m < xs.length) :
    Stretch xs m 1 ∧ ∀ i, Stretch xs i 1 → m ≤ i := by
  refine ⟨⟨by omega, fun j hlo hhi => by omega⟩, fun i hs => ?_⟩
  by_contra hlt
  exact h.none i (by omega) Nat.one_pos hs

end Stretches

/-! ## The first loop -/

section Scanning

variable {h : Pages} {xs : List Frame} {n : Word} {v : Scan} {m c : ℕ} {pp : Frame}

theorem length_le (hl : Lists h xs) : xs.length ≤ 65536 := by
  have hcard := hl.spells.nodup.length_le_card
  rwa [Fintype.card_fin] at hcard

theorem toInt_ofNat_small (hc : c ≤ 65536) : (BitVec.ofNat 32 c : Word).toInt = c := by
  have hval : (BitVec.ofNat 32 c : Word).toNat = c := by
    rw [BitVec.toNat_ofNat]
    omega
  rw [BitVec.toInt_eq_toNat_cond, hval, if_pos (by omega)]

theorem ofNat_eq_iff (hc : c ≤ 65536) : BitVec.ofNat 32 c = n ↔ c = n.toNat := by
  rw [← BitVec.toNat_inj, BitVec.toNat_ofNat, Nat.mod_eq_of_lt (by omega)]

/-- The variables after `m` elements, with a run of `c` at the end. -/
structure Tracks (xs : List Frame) (m c : ℕ) (v : Scan) : Prop where
  cnt : v.cnt = BitVec.ofNat 32 c
  first : 0 < c → v.first = xs[m - c]?
  prev : 0 < c → v.prev = xs[m - 1]?

/-- A round, when the run goes on. -/
theorem step_extend {Q : Except Errno Scan → Pages → Prop} {E : Fault → Prop} (ht : Tracks xs m c v)
    (hcm : c ≤ m) (hm : m < xs.length) (hsmall : c < 65536) (hc : 0 < c) (hpp : xs[m]? = some pp)
    (hstep : Steps xs (m - 1)) (hQ : ∀ v', Tracks xs (m + 1) (c + 1) v' → Q (.ok v') h) :
    (v.step pp).wp Q E h := by
  obtain ⟨q, hq⟩ : ∃ q, xs[m - 1]? = some q := ⟨_, List.getElem?_eq_getElem (by omega)⟩
  have hpp' : xs[m - 1 + 1]? = some pp := by rwa [show m - 1 + 1 = m by omega]
  have haddr := (steps_iff hq hpp').mp hstep
  unfold Scan.step
  rw [wp_ite]
  refine ⟨fun _ => ?_, fun hneg => ?_⟩
  · rw [ht.prev hc, hq, wp_bind]
    refine wp_deref ?_
    simp only
    rw [if_neg (not_not.mpr haddr)]
    refine wp_pure.mpr (hQ _ ⟨?_, fun _ => ?_, fun _ => ?_⟩)
    · rw [ht.cnt, BitVec.ofNat_add]
    · rw [ht.first hc, show m + 1 - (c + 1) = m - c by omega]
    · exact hpp.symm
  · rw [ht.cnt, toInt_ofNat_small (by omega)] at hneg
    omega

/-- A round that starts a run. -/
theorem step_restart {Q : Except Errno Scan → Pages → Prop} {E : Fault → Prop} (ht : Tracks xs m c v)
    (hcm : c ≤ m) (hm : m < xs.length) (hsmall : c < 65536) (hpp : xs[m]? = some pp)
    (hstep : 0 < c → ¬Steps xs (m - 1)) (hQ : ∀ v', Tracks xs (m + 1) 1 v' → Q (.ok v') h) :
    (v.step pp).wp Q E h := by
  have htracks : Tracks xs (m + 1) 1 ⟨some pp, some pp, 0#32 + 1#32⟩ :=
    ⟨rfl, fun _ => hpp.symm, fun _ => hpp.symm⟩
  unfold Scan.step
  rw [wp_ite]
  refine ⟨fun hpos => ?_, fun hneg => ?_⟩
  · have hc : 0 < c := by
      rw [ht.cnt, toInt_ofNat_small (by omega)] at hpos
      omega
    obtain ⟨q, hq⟩ : ∃ q, xs[m - 1]? = some q := ⟨_, List.getElem?_eq_getElem (by omega)⟩
    have hpp' : xs[m - 1 + 1]? = some pp := by rwa [show m - 1 + 1 = m by omega]
    have haddr := (steps_iff hq hpp').not.mp (hstep hc)
    rw [ht.prev hc, hq, wp_bind]
    refine wp_deref ?_
    simp only
    rw [if_pos haddr]
    exact wp_pure.mpr (hQ _ htracks)
  · have hc : c = 0 := by
      rw [ht.cnt, toInt_ofNat_small (by omega)] at hneg
      omega
    have hcnt : v.cnt + 1#32 = 0#32 + 1#32 := by rw [ht.cnt, hc]
    rw [hcnt]
    exact wp_pure.mpr (hQ _ htracks)

/-- What the first loop finds. -/
def Found (xs : List Frame) (n : ℕ) (r : Option (Option Frame × Frame)) : Prop :=
  match r with
  | some (first, pp) => ∃ i, 0 < n ∧ Stretch xs i n ∧ (∀ k, Stretch xs k n → i ≤ k) ∧
      first = xs[i]? ∧ xs[i + n - 1]? = some pp
  | none => 0 < n → ∀ i, ¬Stretch xs i n

theorem wp_scan (hl : Lists h xs) {fuel : ℕ} (hfuel : xs.length < m + fuel)
    (hs : Seen xs n.toNat m c) (ht : Tracks xs m c v) :
    (scan n fuel xs[m]? v).wp (fun r h' => h' = h ∧ ∃ x, r = .ok x ∧ Found xs n.toNat x)
      (fun _ => False) h := by
  have hlen := length_le hl
  induction fuel generalizing m c v with
  | zero =>
    have := hs.bound
    omega
  | succ fuel ih =>
    have hb := hs.bound
    cases hpp : xs[m]? with
    | none =>
      have hend : xs.length ≤ m := List.getElem?_eq_none_iff.mp hpp
      refine wp_pure.mpr ⟨rfl, none, rfl, fun hn i hstretch => ?_⟩
      exact hs.none i (by have := hstretch.1; omega) hn hstretch
    | some pp =>
      obtain ⟨hm, -⟩ := List.getElem?_eq_some_iff.mp hpp
      -- a round that has not reached `n` goes on
      have hnext : ∀ c' v', Tracks xs (m + 1) c' v' → c' ≤ 65536 →
          (c' ≠ n.toNat → Seen xs n.toNat (m + 1) c') →
          (c' = n.toNat → Found xs n.toNat (some (v'.first, pp))) →
          (if v'.cnt = n then pure (some (v'.first, pp))
            else do scan n fuel (← getNext pp) v' : Run _).wp
            (fun r h' => h' = h ∧ ∃ x, r = .ok x ∧ Found xs n.toNat x) (fun _ => False) h := by
        intro c' v' ht' hc' hseen hfound
        rw [wp_ite, ht'.cnt, ofNat_eq_iff hc']
        refine ⟨fun heq => wp_pure.mpr ⟨rfl, _, rfl, hfound heq⟩, fun hne => ?_⟩
        rw [wp_bind]
        refine wp_getNext (hl.holds_getElem hpp) ?_
        simp only
        rw [hl.next_getElem hpp]
        exact ih (by omega) (hseen hne) ht'
      unfold scan
      simp only
      rw [wp_bind]
      by_cases hgo : 0 < c ∧ Steps xs (m - 1)
      · refine step_extend ht hb.1 hm (by omega) hgo.1 hpp hgo.2 fun v' ht' => ?_
        refine hnext (c + 1) v' ht' (by omega) (hs.extend hm hgo.1 hgo.2) fun heq => ?_
        obtain ⟨hstretch, hleast⟩ := hs.found hm hgo.1 hgo.2 heq
        refine ⟨m + 1 - n.toNat, by omega, hstretch, hleast, ?_, ?_⟩
        · rw [ht'.first (Nat.succ_pos c), heq]
        · rw [← hpp]
          congr 1
          omega
      · refine step_restart ht hb.1 hm (by omega) hpp (fun hc hstep => hgo ⟨hc, hstep⟩) fun v' ht' => ?_
        have hcut : ∀ j, j + 1 = m → ¬Steps xs j := by
          rintro j rfl hstep
          exact hgo ⟨hs.pos (Nat.succ_pos j), hstep⟩
        refine hnext 1 v' ht' (by omega) (hs.restart hm hcut) fun heq => ?_
        rw [← heq] at hs ⊢
        obtain ⟨hstretch, hleast⟩ := hs.found_one hm
        refine ⟨m, Nat.one_pos, hstretch, hleast, ?_, hpp⟩
        rw [ht'.first Nat.one_pos, Nat.add_sub_cancel]

end Scanning

/-! ## The second loop -/

/-- The frames of `F` have been zeroed and counted once more, the others are as before. -/
def Claims (F : List Frame) (h h' : Pages) : Prop :=
  ∀ f, (h'.elem f).map Elem.rest =
    if f ∈ F then ((h.elem f).map Elem.rest).map Backed.claim else (h.elem f).map Elem.rest

section Taking

variable {h : Pages} {as bs run : List Frame} {pp t : Frame}

/-- One round: the first element of the run leaves the list. -/
theorem lists_claimed (hl : Lists h (as ++ t :: (run ++ bs))) :
    Lists ((h.removed (TailQueue.endCell .head as) (run ++ bs).head?).withRest t Backed.claim)
      (as ++ (run ++ bs)) := by
  have hremoved := lists_removed hl
  refine ⟨fun a ha => holds_withRest.mpr (hremoved.held a ha), ?_⟩
  rw [words_withRest]
  exact hremoved.spells

/-- The links of what is not in front of the run stay as they are. -/
theorem next_removed {n : Option Frame} (hl : Lists h (as ++ bs)) (hf : t ∉ as) :
    (h.removed (TailQueue.endCell .head as) n).words.next t = h.words.next t := by
  have hread : (h.removed (TailQueue.endCell .head as) n).words.read (.next t) =
      h.words.read (.next t) := by
    unfold Heap.removed
    rw [read_withCell fun a ha => holds_withBack.mpr (hl.holdsCell a ha), if_neg, read_withBack]
    exact fun heq => hf (mem_endCell heq.symm)
  exact hread

theorem claims_cons {h₁ h' : Pages} (hnd : t ∉ run) (h₁rest : ∀ f, (h₁.elem f).map Elem.rest =
      if f = t then ((h.elem f).map Elem.rest).map Backed.claim else (h.elem f).map Elem.rest)
    (hrun : Claims run h₁ h') : Claims (t :: run) h h' := by
  intro f
  rw [hrun f, h₁rest f]
  by_cases hft : f = t
  · rw [if_neg (hft ▸ hnd), if_pos hft, if_pos (hft ▸ List.mem_cons_self)]
  · by_cases hfr : f ∈ run
    · rw [if_pos hfr, if_neg hft, if_pos (List.mem_cons_of_mem t hfr)]
    · rw [if_neg hfr, if_neg hft, if_neg fun hmem => (List.mem_cons.mp hmem).elim hft hfr]

theorem wp_takeRun (hl : Lists h (as ++ (run ++ bs))) (hpp : h.Holds pp) (hpas : pp ∉ as)
    (hstop : h.words.next pp = bs.head?) {fuel : ℕ} (hfuel : run.length < fuel) :
    (takeRun pp fuel (run ++ bs).head?).wp
      (fun r h' => r = .ok () ∧ Lists h' (as ++ bs) ∧ Claims run h h') (fun _ => False) h := by
  induction run generalizing h fuel with
  | nil =>
    obtain ⟨fuel, rfl⟩ : ∃ k, fuel = k + 1 := ⟨fuel - 1, by simp at hfuel; omega⟩
    unfold takeRun
    rw [wp_bind]
    refine wp_getNext hpp ?_
    simp only
    rw [hstop, List.nil_append, if_pos rfl]
    refine wp_pure.mpr ⟨rfl, hl, fun f => ?_⟩
    rw [if_neg List.not_mem_nil]
  | cons t run ih =>
    obtain ⟨fuel, rfl⟩ : ∃ k, fuel = k + 1 := ⟨fuel - 1, by simp at hfuel; omega⟩
    have hl' : Lists h (as ++ t :: (run ++ bs)) := hl
    obtain ⟨hndas, hndt, hdisj⟩ := List.nodup_append.mp hl'.spells.nodup
    obtain ⟨htrest, -⟩ := List.nodup_cons.mp hndt
    have htas : t ∉ as := fun hta => hdisj t hta t List.mem_cons_self rfl
    have ht : h.Holds t := hl'.held t (List.mem_append_right as List.mem_cons_self)
    have hgo : ¬some t = bs.head? := fun heq =>
      htrest (List.mem_append_right run (List.mem_of_mem_head? heq.symm))
    have hremoved := lists_removed hl'
    have hheld : ∀ f, h.Holds f →
        (h.removed (TailQueue.endCell .head as) (run ++ bs).head?).Holds f := fun f hf =>
      holds_withCell.mpr (holds_withBack.mpr hf)
    have hclaimed := lists_claimed hl'
    unfold takeRun
    rw [wp_bind]
    refine wp_getNext hpp ?_
    simp only
    rw [hstop, wp_ite]
    refine ⟨fun heq => absurd heq hgo, fun _ => ?_⟩
    rw [wp_bind]
    refine wp_deref ?_
    simp only
    rw [wp_bind]
    refine wp_conseq (wp_of (Q := fun r h' => r = .ok () ∧
      h' = h.removed (TailQueue.endCell .head as) (run ++ bs).head?) (E := fun _ => False) ?_ ?_) ?_
    · intro r s' hrun
      rw [listRemove_eq hl'] at hrun
      cases hrun
      exact ⟨rfl, rfl⟩
    · intro c hrun
      rw [listRemove_eq hl'] at hrun
      cases hrun
    · rintro r h' ⟨rfl, rfl⟩
      simp only
      rw [wp_bind]
      refine wp_setRest (hheld t ht) ?_
      simp only
      rw [wp_bind]
      refine wp_getNext (holds_withRest.mpr (hheld t ht)) ?_
      simp only
      rw [words_withRest, next_removed hl' htas, hl'.spells.next_at]
      refine wp_conseq (ih hclaimed (holds_withRest.mpr (hheld pp hpp)) ?_ ?_) ?_
      · rw [words_withRest, next_removed hl' hpas, hstop]
      · simp at hfuel
        omega
      · rintro r h' ⟨hr, hlists, hclaims⟩
        refine ⟨hr, hlists, claims_cons (fun hmem => htrest (List.mem_append_left bs hmem))
          (fun f => ?_) hclaims⟩
        have hsame := (within_removed (h := h) (F := as ++ t :: (run ++ bs)) fun a ha => ha).rest f
        rw [rest_withRest, hsame]

end Taking

/-! ## Both loops -/

section Both

variable {h : Pages} {xs : List Frame} {n i : ℕ} {p f : Frame}

/-- The addresses of a stretch, counted from its last element. -/
theorem Stretch.addr (hs : Stretch xs i n) (hp : xs[i + n - 1]? = some p) {k : ℕ} (hk : k < n)
    (hf : xs[i + n - 1 - k]? = some f) :
    (page2addr f).toNat = (page2addr p).toNat + k * 4096 := by
  induction k generalizing f with
  | zero =>
    obtain rfl := Option.some.inj (hp.symm.trans hf)
    omega
  | succ k ih =>
    obtain ⟨a, b, ha, hb, hab⟩ := hs.2 (i + n - 1 - (k + 1)) (by omega) (by omega)
    rw [show i + n - 1 - (k + 1) + 1 = i + n - 1 - k by omega] at hb
    obtain rfl := Option.some.inj (hf.symm.trans ha)
    rw [← hab, ih (by omega) hb]
    omega

theorem mem_stretch_iff : f ∈ (xs.drop i).take n ↔ ∃ k < n, xs[i + k]? = some f := by
  rw [List.mem_iff_getElem?]
  constructor
  · rintro ⟨k, hk⟩
    rw [List.getElem?_take] at hk
    split at hk
    · rename_i hlt
      rw [List.getElem?_drop] at hk
      exact ⟨k, hlt, hk⟩
    · cases hk
  · rintro ⟨k, hlt, hk⟩
    refine ⟨k, ?_⟩
    rw [List.getElem?_take, if_pos hlt, List.getElem?_drop, hk]

/-- The frames of a stretch are the `n` pages from its last element on. -/
theorem Stretch.mem_iff (hs : Stretch xs i n) (hp : xs[i + n - 1]? = some p) :
    f ∈ (xs.drop i).take n ↔ ∃ k < n, (page2addr f).toNat = (page2addr p).toNat + k * 4096 := by
  rw [mem_stretch_iff]
  constructor
  · rintro ⟨k, hk, hf⟩
    refine ⟨n - 1 - k, by omega, hs.addr hp (by omega) ?_⟩
    rw [← hf]
    congr 1
    omega
  · rintro ⟨k, hk, haddr⟩
    have hlen := hs.1
    obtain ⟨g, hg⟩ : ∃ g, xs[i + n - 1 - k]? = some g := ⟨_, List.getElem?_eq_getElem (by omega)⟩
    have hgf : g = f := page2addr_injective
      (BitVec.eq_of_toNat_eq ((hs.addr hp hk hg).trans haddr.symm))
    refine ⟨n - 1 - k, by omega, ?_⟩
    rw [← hgf, ← hg, show i + (n - 1 - k) = i + n - 1 - k by omega]

/-- `first` and `pp` delimit a stretch: it is taken, in order. -/
theorem takeRun_stretch (hl : Lists h xs) (hn : 0 < n) (hs : Stretch xs i n)
    (hp : xs[i + n - 1]? = some p) : (takeRun p (npage + 1) xs[i]?).wp
      (fun r h' => r = .ok () ∧ Lists h' (xs.take i ++ xs.drop (i + n)) ∧
        Claims ((xs.drop i).take n) h h') (fun _ => False) h := by
  have hlen := length_le hl
  have hin := hs.1
  have hcut : (xs.drop i).take n ++ xs.drop (i + n) = xs.drop i := by
    rw [← List.drop_drop, List.take_append_drop]
  have hsplit : Lists h (xs.take i ++ ((xs.drop i).take n ++ xs.drop (i + n))) := by
    rw [hcut, List.take_append_drop]
    exact hl
  have hhead : ((xs.drop i).take n ++ xs.drop (i + n)).head? = xs[i]? := by
    rw [hcut, List.head?_drop]
  have hlast : p ∈ (xs.drop i).take n := by
    rw [mem_stretch_iff]
    refine ⟨n - 1, by omega, ?_⟩
    rw [← hp]
    congr 1
    omega
  have hpas : p ∉ xs.take i := fun hmem =>
    (List.nodup_append.mp hsplit.spells.nodup).2.2 p hmem p (List.mem_append_left _ hlast) rfl
  have hstop : h.words.next p = (xs.drop (i + n)).head? := by
    rw [hl.next_getElem hp, List.head?_drop]
    congr 1
    omega
  rw [← hhead]
  refine wp_takeRun hsplit (hl.holds_getElem hp) hpas hstop ?_
  have hnp : npage = 65536 := rfl
  rw [List.length_take, List.length_drop]
  omega

/-- Both loops, with the count as an unsigned number. -/
theorem wp_pageAllocSequent {n : Word} (hl : Lists h xs) : (pageAllocSequent n).wp (fun r h' =>
    (r = .error .noMem ∧ h' = h ∧ (0 < n.toNat → ∀ i, ¬Stretch xs i n.toNat)) ∨
    ∃ i p, r = .ok p ∧ 0 < n.toNat ∧ Stretch xs i n.toNat ∧
      (∀ k, Stretch xs k n.toNat → i ≤ k) ∧ xs[i + n.toNat - 1]? = some p ∧
      Lists h' (xs.take i ++ xs.drop (i + n.toNat)) ∧ Claims ((xs.drop i).take n.toNat) h h')
    (fun _ => False) h := by
  have hlen := length_le hl
  have hnp : npage = 65536 := rfl
  have hfirst : h.first = xs[0]? := by rw [hl.first_eq, List.head?_eq_getElem?]
  unfold pageAllocSequent
  rw [wp_bind]
  refine wp_getFirst ?_
  simp only
  rw [wp_ite]
  refine ⟨fun hempty => wp_throw.mpr (.inl ⟨rfl, rfl, fun hn i hs => ?_⟩), fun _ => ?_⟩
  · rw [hfirst, List.getElem?_eq_none_iff] at hempty
    have := hs.1
    omega
  · rw [wp_bind]
    refine wp_getFirst ?_
    simp only
    rw [wp_bind, hfirst]
    refine wp_conseq (wp_scan hl (by omega) seen_zero ⟨rfl, fun hc => ?_, fun hc => ?_⟩) ?_
    · exact absurd hc (lt_irrefl 0)
    · exact absurd hc (lt_irrefl 0)
    rintro r h' ⟨rfl, x, rfl, hx⟩
    cases x with
    | none => exact wp_throw.mpr (.inl ⟨rfl, rfl, hx⟩)
    | some x =>
      obtain ⟨first, p⟩ := x
      obtain ⟨i, hn, hs, hleast, rfl, hp⟩ := hx
      simp only
      rw [wp_bind]
      refine wp_conseq (takeRun_stretch hl hn hs hp) ?_
      rintro r h₂ ⟨rfl, hlists, hclaims⟩
      exact wp_pure.mpr (.inr ⟨i, p, rfl, hn, hs, hleast, hp, hlists, hclaims⟩)

/-- A negative count is too long for any stretch. -/
theorem stretch_toInt_iff {n : Word} (hl : Lists h xs) :
    (1 ≤ n.toInt ∧ Stretch xs i n.toInt.toNat) ↔ (0 < n.toNat ∧ Stretch xs i n.toNat) := by
  have hlen := length_le hl
  have hcond := BitVec.toInt_eq_toNat_cond n
  split at hcond
  · rw [show n.toInt.toNat = n.toNat by omega]
    exact and_congr_left fun _ => by omega
  · constructor
    · rintro ⟨h1, -⟩
      have := n.isLt
      omega
    · rintro ⟨-, hs⟩
      have := hs.1
      omega

end Both

/-- `page_alloc_sequent` finds the first stretch of `n` pages on the free list and takes
it off, or changes nothing. -/
theorem pageAllocSequent_first (h : Pages) (xs : List Frame) (hl : Lists h xs) (n : Word) :
    ((∃ p h', pageAllocSequent n h = .ok (.ok p, h')) ↔
      1 ≤ n.toInt ∧ ∃ i, Stretch xs i n.toInt.toNat) ∧
    (∀ i, 1 ≤ n.toInt → Stretch xs i n.toInt.toNat →
      (∀ k, Stretch xs k n.toInt.toNat → i ≤ k) →
      ∃ p h', pageAllocSequent n h = .ok (.ok p, h') ∧ xs[i + n.toInt.toNat - 1]? = some p ∧
        (∀ f, f ∈ (xs.drop i).take n.toInt.toNat ↔
          ∃ k < n.toInt.toNat, (page2addr f).toNat = (page2addr p).toNat + k * 4096) ∧
        Claims ((xs.drop i).take n.toInt.toNat) h h' ∧
        Lists h' (xs.take i ++ xs.drop (i + n.toInt.toNat))) ∧
    (¬(1 ≤ n.toInt ∧ ∃ i, Stretch xs i n.toInt.toNat) →
      pageAllocSequent n h = .ok (.error .noMem, h)) := by
  obtain ⟨r, h', hcall, hres⟩ := wp_run (wp_pageAllocSequent (n := n) hl)
  rcases hres with ⟨rfl, rfl, hno⟩ | ⟨i, p, rfl, hn, hs, hleast, hp, hlists, hclaims⟩
  · have hnone : ¬(1 ≤ n.toInt ∧ ∃ i, Stretch xs i n.toInt.toNat) := by
      rintro ⟨h1, i, hs⟩
      obtain ⟨hn, hs'⟩ := (stretch_toInt_iff hl).mp ⟨h1, hs⟩
      exact hno hn i hs'
    refine ⟨⟨?_, fun hex => absurd hex hnone⟩, fun i h1 hs _ => absurd ⟨h1, i, hs⟩ hnone,
      fun _ => hcall⟩
    rintro ⟨p, h', hok⟩
    rw [hcall] at hok
    cases hok
  · obtain ⟨h1, hs'⟩ := (stretch_toInt_iff hl).mpr ⟨hn, hs⟩
    have hval : n.toInt.toNat = n.toNat := by
      have hcond := BitVec.toInt_eq_toNat_cond n
      split at hcond <;> omega
    refine ⟨⟨fun _ => ⟨h1, i, hs'⟩, fun _ => ⟨p, h', hcall⟩⟩, fun k _ hk hkleast => ?_, fun hno =>
      absurd ⟨h1, i, hs'⟩ hno⟩
    rw [hval] at hk hkleast ⊢
    obtain rfl : i = k := le_antisymm (hleast k hk) (hkleast i hs)
    exact ⟨p, h', hcall, hp, fun f => hs.mem_iff hp, hclaims, hlists⟩

/-- Three free pages, two of them side by side. -/
def threePages : Pages where
  first := some 9
  last := none
  elem f :=
    if f = 9 then some ⟨some 7, some .head, ⟨0#16, fun _ => 1#32⟩⟩
    else if f = 7 then some ⟨some 6, some (.next 9), ⟨0#16, fun _ => 1#32⟩⟩
    else if f = 6 then some ⟨none, some (.next 7), ⟨0#16, fun _ => 1#32⟩⟩
    else none

theorem lists_threePages : Lists threePages [9, 7, 6] := by
  refine ⟨fun a ha => ?_, by decide, ⟨rfl, rfl, rfl, rfl, rfl, rfl, trivial⟩, rfl⟩
  rcases List.mem_cons.mp ha with rfl | ha
  · rfl
  · rcases List.mem_cons.mp ha with rfl | ha
    · rfl
    · rw [List.mem_singleton.mp ha]
      rfl

theorem pageAllocSequent_first_two : ∃ p h', pageAllocSequent 2#32 threePages = .ok (.ok p, h') := by
  refine (pageAllocSequent_first threePages [9, 7, 6] lists_threePages 2#32).1.mpr
    ⟨by decide, 1, by decide, fun j hlo hhi => ?_⟩
  have hj : j + 1 < 1 + 2 := hhi
  obtain rfl : j = 1 := by omega
  exact ⟨7, 6, rfl, rfl, by decide⟩

end PageRun
end RvMos
