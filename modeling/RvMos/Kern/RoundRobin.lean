/-
The order in which timer interrupts give environments the processor.

`schedule` keeps the rest of a time slice in a static count, which it lowers and
then sets to the priority of its choice on every call, also when the choice is
the environment that was running.  The count before a tick is therefore always
the full priority, and an environment leaves the processor after one tick or
never.  Where every priority is one the queue is served round and round.
-/
import Mathlib.Data.List.Destutter
import RvMos.Kern.Messages

namespace RvMos

open Lib

/-! ## Runs of timer interrupts -/

/-- Timer interrupts and nothing else, with the environments that get the
processor, oldest first. -/
inductive Ticks : Kernel → List EnvIdx → Kernel → Prop
  | none (k : Kernel) : Ticks k [] k
  | tick {k k₁ k' : Kernel} {tf : Trapframe} {e : EnvIdx} {es : List EnvIdx} :
      k.Step (.trap tf .timer) k₁ → k₁.curenv = some e → Ticks k₁ es k' → Ticks k (e :: es) k'

/-- What a scheduler with priorities promises about all ticks from a state on.  In
`order` a turn is a block of equal choices, so the turns between two turns of an
environment are the choices without their repetitions. -/
structure Kernel.RoundRobin (k : Kernel) : Prop where
  slice : ∀ {es : List EnvIdx} {k₁ k₂ : Kernel} {e : EnvIdx} {m : ℕ} {xs : List EnvIdx},
    Ticks k es k₁ → k₁.curenv = some e → k₁.envSchedList.Rep xs → e ∈ xs →
    Ticks k₁ (List.replicate m e) k₂ → (∃ c ∈ xs, c ≠ e) → m + 1 ≤ (k₁.envs e).pri.toNat
  order : ∀ {es mid : List EnvIdx} {k₁ k₂ : Kernel} {e : EnvIdx} {xs : List EnvIdx},
    Ticks k es k₁ → k₁.curenv = some e → k₁.envSchedList.Rep xs → e ∈ xs →
    Ticks k₁ (mid ++ [e]) k₂ → mid ≠ [] → e ∉ mid → mid.destutter (· ≠ ·) = xs.erase e

/-- The count has reached zero at the first tick after it was set. -/
def OneTick (pri : Word) : Prop := (pri - 1#32).sle 0#32 = true

instance (pri : Word) : Decidable (OneTick pri) := inferInstanceAs (Decidable (_ = true))

theorem oneTick_iff {pri : Word} (h : 0 < pri.toNat) :
    OneTick pri ↔ pri = 1#32 ∨ 2 ^ 31 < pri.toNat := by
  unfold OneTick
  rw [BitVec.sle_iff_toInt_le, BitVec.toInt_eq_toNat_cond, BitVec.toNat_sub_of_le (by
    rw [BitVec.le_def]
    exact h), ← BitVec.toNat_inj]
  have hlt := pri.isLt
  simp only [BitVec.toNat_ofNat, BitVec.toInt_zero]
  split <;> omega

/-- The queue holds the runnable environments. -/
structure Queued (k : Kernel) (xs : List EnvIdx) : Prop where
  rep : k.envSchedList.Rep xs
  mem : ∀ e, e ∈ xs ↔ (k.envs e).status = .runnable

/-- Also, the count is the priority of the environment that has the processor. -/
structure Scheduled (k : Kernel) (xs : List EnvIdx) : Prop extends Queued k xs where
  count : ∀ c, k.curenv = some c → k.schedCount = (k.envs c).pri

/-! ## One tick -/

/-- What a tick does: an environment with a longer slice keeps the processor, one
with a slice of a tick goes to the end of the queue, and without either the first
of the queue is chosen. -/
def Ticked (k : Kernel) (xs : List EnvIdx) (k' : Kernel) : Prop :=
  ∃ e ys, k'.curenv = some e ∧ Scheduled k' ys ∧ (∀ c, (k'.envs c).pri = (k.envs c).pri) ∧
    ((e ∈ xs ∧ k.curenv = some e ∧ ¬OneTick (k.envs e).pri ∧ ys = xs) ∨
      (∃ c ∈ xs, k.curenv = some c ∧ OneTick (k.envs c).pri ∧ ys = xs.erase c ++ [c] ∧
        ys.head? = some e) ∨
      ((∀ c ∈ xs, k.curenv ≠ some c) ∧ ys = xs ∧ xs.head? = some e))

namespace Kern

open Sys

variable {k : Kernel} {xs : List EnvIdx} {e : EnvIdx}

/-- The count is set and the choice gets the processor. -/
theorem scheduled_ran (h : Queued k xs) (e : EnvIdx) :
    Scheduled (ran { k with schedCount := (k.envs e).pri } e) xs ∧
      ∀ c, ((ran { k with schedCount := (k.envs e).pri } e).envs c).pri = (k.envs c).pri := by
  set k₁ : Kernel := { k with schedCount := (k.envs e).pri } with hk₁
  have hpri : ∀ c, ((ran k₁ e).envs c).pri = (k.envs c).pri := by
    intro c
    obtain ⟨n, hn⟩ := ran_envs k₁ e c
    rw [hn]
  have hsched : (ran k₁ e).envSchedList = k.envSchedList := by
    unfold ran saved
    split <;> rfl
  have hcount : (ran k₁ e).schedCount = (k.envs e).pri := by
    unfold ran saved
    split <;> rfl
  refine ⟨⟨⟨?_, fun c => ?_⟩, fun c hc => ?_⟩, hpri⟩
  · rw [hsched]
    exact h.rep
  · obtain ⟨n, hn⟩ := ran_envs k₁ e c
    rw [h.mem, hn]
  · obtain rfl : e = c := Option.some.inj hc
    rw [hcount, hpri]

/-- A choice that leaves the queue as `ys`. -/
def Chose (k : Kernel) (ys : List EnvIdx) (o : Option EnvIdx) (r : Except Errno (Option EnvIdx))
    (k' : Kernel) : Prop :=
  r = .ok o ∧ ∃ q, q.Rep ys ∧ k' = { k with envSchedList := q }

theorem pick_chose (h : Queued k xs) :
    (pick false).wp (fun r k' =>
      (∃ c ∈ xs, k.curenv = some c ∧ ¬k.schedCount.sle 0#32 = true ∧ Chose k xs (some c) r k') ∨
        (∃ c ∈ xs, k.curenv = some c ∧ k.schedCount.sle 0#32 = true ∧
          Chose k (xs.erase c ++ [c]) (xs.erase c ++ [c]).head? r k') ∨
        ((∀ c ∈ xs, k.curenv ≠ some c) ∧ Chose k xs xs.head? r k')) (fun _ => False) k := by
  have hfirst := h.rep.first_eq
  unfold pick
  rw [wp_get_bind]
  cases hc : k.curenv with
  | none => exact wp_pure.mpr (.inr (.inr ⟨fun _ _ => by simp, by rw [hfirst], _, h.rep, rfl⟩))
  | some c =>
    simp only [Bool.false_eq_true, false_or]
    rw [wp_ite]
    refine ⟨fun hst => ?_, fun hst => ?_⟩
    · refine wp_pure.mpr (.inr (.inr ⟨fun d hd heq => ?_, by rw [hfirst], _, h.rep, rfl⟩))
      obtain rfl : c = d := Option.some.inj heq
      exact hst ((h.mem c).mp hd)
    · have hmem : c ∈ xs := (h.mem c).mpr (not_not.mp hst)
      rw [wp_ite]
      refine ⟨fun hcount => ?_, fun hcount => ?_⟩
      · obtain ⟨q₁, hq₁, hrep₁⟩ := h.rep.remove hmem
        have hnot : c ∉ xs.erase c := h.rep.nodup.not_mem_erase
        obtain ⟨q₂, hq₂, hrep₂⟩ := hrep₁.insertTail hnot
        rw [wp_bind]
        refine wp_schedRemove hq₁ ?_
        rw [wp_bind]
        refine wp_schedInsertTail hq₂ ?_
        rw [wp_get_bind, wp_pure]
        refine .inr (.inl ⟨c, hmem, rfl, hcount, ?_, q₂, hrep₂, rfl⟩)
        exact congrArg _ hrep₂.first_eq
      · exact wp_pure.mpr (.inl ⟨c, hmem, rfl, hcount, rfl, _, h.rep, rfl⟩)

theorem mem_rotate {c : EnvIdx} (hc : c ∈ xs) (a : EnvIdx) : a ∈ xs.erase c ++ [c] ↔ a ∈ xs :=
  ((List.perm_append_singleton c _).trans (List.perm_cons_erase hc).symm).mem_iff

theorem exists_head (hne : xs ≠ []) : ∃ a, xs.head? = some a :=
  ⟨xs.head hne, List.head?_eq_some_head hne⟩

/-- The rest of `schedule` after a choice. -/
theorem runChosen_spec (h : Queued k xs) {ys : List EnvIdx} (hys : ∀ c, c ∈ ys ↔ c ∈ xs)
    {o : Option EnvIdx} {r : Except Errno (Option EnvIdx)} {k₁ : Kernel}
    (hch : Chose k ys o r k₁) (he : e ∈ xs)
    {Q : Except Errno Unit → Kernel → Prop} {E : Halt → Prop}
    (hQ : ∀ k', k'.curenv = some e → Scheduled k' ys →
      (∀ c, (k'.envs c).pri = (k.envs c).pri) → Q (.ok ()) k') :
    (do
      modify fun k => { k with schedCount := (k.envs e).pri }
      envRun e : Kern Unit).wp Q E k₁ := by
  obtain ⟨-, q, hq, rfl⟩ := hch
  have hqueued : Queued { k with envSchedList := q } ys :=
    ⟨hq, fun c => (hys c).trans (h.mem c)⟩
  obtain ⟨hsched, hpri⟩ := scheduled_ran hqueued e
  rw [wp_modify_bind]
  exact envRun_ran ((h.mem e).mp he) (hQ _ rfl hsched hpri)

/-- A tick never stops the kernel. -/
theorem handle_timer (h : Scheduled k xs) (hne : xs ≠ []) (tf : Trapframe) :
    (handle tf .timer).wp (fun r k' => r = .ok () ∧ Ticked k xs k') (fun _ => False) k := by
  set k₀ : Kernel := { k with active := tf, schedCount := k.schedCount - 1#32 } with hk₀
  have h₀ : Queued k₀ xs := ⟨h.rep, h.mem⟩
  unfold handle handler schedule
  rw [wp_modify_bind, wp_modify_bind]
  refine wp_seq (pick_chose h₀) (fun o k₁ hr => ?_) fun _ _ hr => ?_
  · rcases hr with ⟨c, hc, hcur, hcount, hch⟩ | ⟨c, hc, hcur, hcount, hch⟩ | ⟨hcur, hch⟩
    · obtain rfl : o = some c := Except.ok.inj hch.1
      refine runChosen_spec h₀ (fun _ => Iff.rfl) hch hc fun k' hk' hs hpri => ?_
      refine ⟨rfl, c, xs, hk', hs, hpri, .inl ⟨hc, hcur, ?_, rfl⟩⟩
      rw [OneTick, ← h.count c hcur]
      exact hcount
    · have hys := mem_rotate hc
      obtain ⟨e, he⟩ := exists_head (show xs.erase c ++ [c] ≠ [] by simp)
      obtain rfl : o = some e := (Except.ok.inj hch.1).trans he
      have hmem : e ∈ xs := (hys e).mp (List.mem_of_mem_head? he)
      refine runChosen_spec h₀ hys hch hmem fun k' hk' hs hpri => ?_
      refine ⟨rfl, e, _, hk', hs, hpri, .inr (.inl ⟨c, hc, hcur, ?_, rfl, he⟩)⟩
      rw [OneTick, ← h.count c hcur]
      exact hcount
    · obtain ⟨e, he⟩ := exists_head hne
      obtain rfl : o = some e := (Except.ok.inj hch.1).trans he
      have hmem : e ∈ xs := List.mem_of_mem_head? he
      refine runChosen_spec h₀ (fun _ => Iff.rfl) hch hmem fun k' hk' hs hpri => ?_
      exact ⟨rfl, e, xs, hk', hs, hpri, .inr (.inr ⟨hcur, rfl, he⟩)⟩
  · rcases hr with ⟨_, _, _, _, h', _⟩ | ⟨_, _, _, _, h', _⟩ | ⟨_, h', _⟩ <;> cases h'

end Kern

/-! ## Runs of ticks -/

section Ticks

variable {k k' : Kernel} {xs : List EnvIdx} {e : EnvIdx} {es : List EnvIdx}

theorem Scheduled.step (h : Scheduled k xs) (hne : xs ≠ []) {tf : Trapframe}
    (hstep : k.Step (.trap tf .timer) k') : Ticked k xs k' := by
  obtain ⟨-, r, hr⟩ := hstep
  exact (Sys.wp_ok (Kern.handle_timer h hne tf) hr).2

theorem Scheduled.exists_step (h : Scheduled k xs) (hne : xs ≠ []) :
    ∃ k', k.Step (.trap k.active .timer) k' ∧ Ticked k xs k' := by
  obtain ⟨r, k', hr, hq⟩ := Sys.wp_run (Kern.handle_timer h hne k.active)
  exact ⟨k', ⟨trivial, r, hr⟩, hq.2⟩

/-- The list after a tick is a permutation of the list before it. -/
theorem Ticked.perm (h : Ticked k xs k') : ∃ ys, ys.Perm xs ∧ Scheduled k' ys := by
  obtain ⟨e, ys, -, hs, -, ⟨-, -, -, rfl⟩ | ⟨c, hc, -, -, rfl, -⟩ | ⟨-, rfl, -⟩⟩ := h
  · exact ⟨_, .refl _, hs⟩
  · exact ⟨_, (List.perm_append_singleton c _).trans (List.perm_cons_erase hc).symm, hs⟩
  · exact ⟨_, .refl _, hs⟩

theorem Ticked.pri (h : Ticked k xs k') (c : EnvIdx) : (k'.envs c).pri = (k.envs c).pri := by
  obtain ⟨e, ys, -, -, hpri, -⟩ := h
  exact hpri c

theorem Ticks.head (h : Ticks k (e :: es) k') :
    ∃ k₁ tf, k.Step (.trap tf .timer) k₁ ∧ k₁.curenv = some e ∧ Ticks k₁ es k' := by
  obtain _ | ⟨hstep, hcur, hrest⟩ := h
  exact ⟨_, _, hstep, hcur, hrest⟩

/-- What stays along a run of ticks. -/
theorem Ticks.scheduled (h : Ticks k es k') (hs : Scheduled k xs) (hne : xs ≠ []) :
    (∃ ys, ys.Perm xs ∧ Scheduled k' ys) ∧ ∀ c, (k'.envs c).pri = (k.envs c).pri := by
  induction h generalizing xs with
  | none k => exact ⟨⟨xs, .refl _, hs⟩, fun _ => rfl⟩
  | tick hstep _ _ ih =>
    have ht := hs.step hne hstep
    obtain ⟨ys, hperm, hs₁⟩ := ht.perm
    have hne₁ : ys ≠ [] := fun hnil => hne (List.Perm.nil_eq (hnil ▸ hperm)).symm
    obtain ⟨⟨zs, hperm', hs'⟩, hpri⟩ := ih hs₁ hne₁
    exact ⟨⟨zs, hperm'.trans hperm, hs'⟩, fun c => (hpri c).trans (ht.pri c)⟩

/-- An environment with a slice of one tick hands the processor to the first of
the queue behind it. -/
theorem Ticked.rotate (h : Ticked k xs k') (hcur : k.curenv = some e) (he : e ∈ xs)
    (hone : OneTick (k.envs e).pri) :
    Scheduled k' (xs.erase e ++ [e]) ∧ k'.curenv = (xs.erase e ++ [e]).head? := by
  obtain ⟨c, ys, hc, hs, -, ⟨-, hcur', hlong, -⟩ | ⟨d, -, hcur', -, rfl, hhead⟩ | ⟨hno, -⟩⟩ := h
  · rw [Option.some.inj (hcur.symm.trans hcur')] at hone
    exact absurd hone hlong
  · obtain rfl : e = d := Option.some.inj (hcur.symm.trans hcur')
    exact ⟨hs, hc.trans hhead.symm⟩
  · exact absurd hcur (hno e he)

/-- An environment with a longer slice keeps the processor. -/
theorem Ticked.stay (h : Ticked k xs k') (hcur : k.curenv = some e) (he : e ∈ xs)
    (hlong : ¬OneTick (k.envs e).pri) : Scheduled k' xs ∧ k'.curenv = some e := by
  obtain ⟨c, ys, hc, hs, -, ⟨-, hcur', -, rfl⟩ | ⟨d, -, hcur', hone, -⟩ | ⟨hno, -⟩⟩ := h
  · exact ⟨hs, hc.trans (hcur'.symm.trans hcur)⟩
  · rw [Option.some.inj (hcur.symm.trans hcur')] at hlong
    exact absurd hone hlong
  · exact absurd hcur (hno e he)

/-! ## Slices of one tick -/

/-- The choices up to the next one of `e` are the environments in front of it. -/
theorem Ticks.until {c : EnvIdx} {as bs mid : List EnvIdx} (h : Ticks k (mid ++ [e]) k')
    (hs : Scheduled k (c :: as ++ e :: bs)) (hcur : k.curenv = some c)
    (hone : ∀ a ∈ c :: as ++ e :: bs, OneTick (k.envs a).pri) (hmid : e ∉ mid) :
    mid = as := by
  -- along `as`: every tick moves the head of the list to its end
  induction as generalizing k c bs mid with
  | nil =>
    cases mid with
    | nil => rfl
    | cons a mid =>
      obtain ⟨k₁, tf, hstep, ha, hrest⟩ := h.head
      obtain ⟨-, hnext⟩ := (hs.step (by simp) hstep).rotate hcur (by simp) (hone c (by simp))
      rw [ha, List.cons_append, List.erase_cons_head] at hnext
      exact absurd (List.mem_cons.mpr (.inl (Option.some.inj hnext).symm)) hmid
  | cons b as ih =>
    have hbe : b ≠ e := by
      rintro rfl
      exact absurd hs.rep.nodup (by simp)
    cases mid with
    | nil =>
      obtain ⟨k₁, tf, hstep, ha, hrest⟩ := h.head
      obtain ⟨-, hnext⟩ := (hs.step (by simp) hstep).rotate hcur (by simp) (hone c (by simp))
      rw [ha, List.cons_append, List.erase_cons_head] at hnext
      exact absurd (Option.some.inj hnext).symm hbe
    | cons a mid =>
      obtain ⟨k₁, tf, hstep, ha, hrest⟩ := h.head
      have ht := hs.step (by simp) hstep
      obtain ⟨hs₁, hnext⟩ := ht.rotate hcur (by simp) (hone c (by simp))
      rw [List.cons_append, List.erase_cons_head] at hs₁ hnext
      obtain rfl : a = b := Option.some.inj (ha.symm.trans hnext)
      have hshape : a :: as ++ e :: bs ++ [c] = a :: as ++ e :: (bs ++ [c]) := by simp
      rw [hshape] at hs₁
      have hone₁ : ∀ x ∈ a :: as ++ e :: (bs ++ [c]), OneTick (k₁.envs x).pri := by
        intro x hx
        rw [ht.pri]
        refine hone x ?_
        simp only [List.mem_append, List.mem_cons] at hx ⊢
        tauto
      rw [ih hrest hs₁ ha hone₁ fun hm => hmid (List.mem_cons_of_mem _ hm)]

/-- The first choice after one of `e`. -/
theorem Ticks.after {a : EnvIdx} (h : Ticks k (a :: es) k') (hs : Scheduled k xs)
    (hcur : k.curenv = some e) (he : e ∈ xs) (hone : OneTick (k.envs e).pri) :
    ∃ k₁, Scheduled k₁ (xs.erase e ++ [e]) ∧ k₁.curenv = some a ∧ Ticks k₁ es k' ∧
      (xs.erase e ++ [e]).head? = some a ∧ ∀ c, (k₁.envs c).pri = (k.envs c).pri := by
  obtain ⟨k₁, tf, hstep, ha, hrest⟩ := h.head
  have ht := hs.step (List.ne_nil_of_mem he) hstep
  obtain ⟨hs₁, hnext⟩ := ht.rotate hcur he hone
  exact ⟨k₁, hs₁, ha, hrest, hnext.symm.trans ha, ht.pri⟩

theorem slice_of_oneTick {m : ℕ} (hs : Scheduled k xs) (hcur : k.curenv = some e) (he : e ∈ xs)
    (hpos : 0 < (k.envs e).pri.toNat) (hone : OneTick (k.envs e).pri)
    (h : Ticks k (List.replicate m e) k') (hother : ∃ c ∈ xs, c ≠ e) :
    m + 1 ≤ (k.envs e).pri.toNat := by
  cases m with
  | zero => exact hpos
  | succ m =>
    obtain ⟨c, hc, hce⟩ := hother
    obtain ⟨-, -, -, -, hhead, -⟩ := h.after hs hcur he hone
    have hmem : c ∈ xs.erase e := (List.mem_erase_of_ne hce).mpr hc
    rw [List.head?_append_of_ne_nil _ (List.ne_nil_of_mem hmem)] at hhead
    exact absurd (List.mem_of_mem_head? hhead) hs.rep.nodup.not_mem_erase

theorem order_of_oneTick {mid : List EnvIdx} (hs : Scheduled k xs) (hcur : k.curenv = some e)
    (he : e ∈ xs) (hone : ∀ c ∈ xs, OneTick (k.envs c).pri) (h : Ticks k (mid ++ [e]) k')
    (hmid : mid ≠ []) (hnot : e ∉ mid) : mid.destutter (· ≠ ·) = xs.erase e := by
  have heq : mid = xs.erase e := by
    cases mid with
    | nil => exact absurd rfl hmid
    | cons a mid =>
      obtain ⟨k₁, hs₁, ha, hrest, hhead, hpri⟩ := h.after hs hcur he (hone e he)
      cases hxs : xs.erase e with
      | nil =>
        rw [hxs] at hhead
        exact absurd (List.mem_cons.mpr (.inl (Option.some.inj hhead))) hnot
      | cons b as =>
        rw [hxs] at hhead hs₁
        obtain rfl : b = a := Option.some.inj hhead
        have hone₁ : ∀ c ∈ b :: as ++ e :: [], OneTick (k₁.envs c).pri := by
          intro c hc
          rw [hpri]
          rw [← hxs] at hc
          exact hone c ((Kern.mem_rotate he c).mp hc)
        rw [hrest.until hs₁ ha hone₁ fun hm => hnot (List.mem_cons_of_mem _ hm)]
  rw [heq]
  exact List.destutter_of_isChain _ _ (List.Pairwise.isChain (hs.rep.nodup.erase e))

/-! ## Longer slices -/

theorem Scheduled.exists_stay (hs : Scheduled k xs) (hcur : k.curenv = some e) (he : e ∈ xs)
    (hlong : ¬OneTick (k.envs e).pri) (m : ℕ) : ∃ k', Ticks k (List.replicate m e) k' := by
  induction m generalizing k with
  | zero => exact ⟨k, .none k⟩
  | succ m ih =>
    obtain ⟨k₁, hstep, ht⟩ := hs.exists_step (List.ne_nil_of_mem he)
    obtain ⟨hs₁, hcur₁⟩ := ht.stay hcur he hlong
    obtain ⟨k', hrest⟩ := ih hs₁ hcur₁ (by rwa [ht.pri])
    exact ⟨k', .tick hstep hcur₁ hrest⟩

/-- The ticks reach an environment with a longer slice. -/
theorem Scheduled.exists_long {as bs : List EnvIdx} (hs : Scheduled k (as ++ e :: bs))
    (hcur : k.curenv = (as ++ e :: bs).head?) (hlong : ¬OneTick (k.envs e).pri) :
    ∃ es k' c, Ticks k es k' ∧ k'.curenv = some c ∧ c ∈ as ++ e :: bs ∧
      ¬OneTick (k.envs c).pri := by
  induction as generalizing k bs with
  | nil => exact ⟨[], k, e, .none k, hcur, by simp, hlong⟩
  | cons a as ih =>
    by_cases hone : OneTick (k.envs a).pri
    · obtain ⟨k₁, hstep, ht⟩ := hs.exists_step (by simp)
      obtain ⟨hs₁, hcur₁⟩ := ht.rotate hcur (by simp) hone
      have hshape : (a :: as ++ e :: bs).erase a ++ [a] = as ++ e :: (bs ++ [a]) := by simp
      rw [hshape] at hs₁ hcur₁
      obtain ⟨es, k', c, hrest, hc, hmem, hlong'⟩ := ih hs₁ hcur₁ (by rwa [ht.pri])
      obtain ⟨b, hb⟩ := Kern.exists_head (show as ++ e :: (bs ++ [a]) ≠ [] by simp)
      refine ⟨b :: es, k', c, .tick hstep (hcur₁.trans hb) hrest, hc, ?_, by rwa [ht.pri] at hlong'⟩
      simp only [List.mem_append, List.mem_cons] at hmem ⊢
      tauto
    · exact ⟨[], k, a, .none k, hcur, by simp, hone⟩

/-- From a scheduled state the ticks reach an environment with a longer slice,
whichever environment has the processor first. -/
theorem Scheduled.reach_long (hs : Scheduled k xs) (he : e ∈ xs)
    (hlong : ¬OneTick (k.envs e).pri) :
    ∃ es k' c, Ticks k es k' ∧ k'.curenv = some c ∧ c ∈ xs ∧ ¬OneTick (k.envs c).pri := by
  obtain ⟨k₁, hstep, ht⟩ := hs.exists_step (List.ne_nil_of_mem he)
  have hpri := ht.pri
  have hfrom : ∀ {a : EnvIdx} {ys : List EnvIdx}, k₁.curenv = some a → Scheduled k₁ ys →
      (∀ c, c ∈ ys ↔ c ∈ xs) → ys.head? = some a →
      ∃ es k' c, Ticks k es k' ∧ k'.curenv = some c ∧ c ∈ xs ∧ ¬OneTick (k.envs c).pri := by
    intro a ys ha hs₁ hys hhead
    obtain ⟨as, bs, rfl⟩ := List.append_of_mem ((hys e).mpr he)
    obtain ⟨es, k', c, hrun, hc, hmem, hlong'⟩ :=
      hs₁.exists_long (ha.trans hhead.symm) (by rwa [hpri])
    exact ⟨a :: es, k', c, .tick hstep ha hrun, hc, (hys c).mp hmem, by rwa [hpri] at hlong'⟩
  obtain ⟨a, ys, ha, hs₁, -, ⟨hmem, hcur, hlong', -⟩ | ⟨c, hc, -, -, rfl, hhead⟩ |
    ⟨-, rfl, hhead⟩⟩ := ht
  · exact ⟨[], k, a, .none k, hcur, hmem, hlong'⟩
  · exact hfrom ha hs₁ (Kern.mem_rotate hc) hhead
  · exact hfrom ha hs₁ (fun _ => Iff.rfl) hhead

theorem Scheduled.not_roundRobin (hs : Scheduled k xs) (he : e ∈ xs)
    (hlong : ¬OneTick (k.envs e).pri) (hlen : xs.length ≠ 1) : ¬k.RoundRobin := by
  intro h
  obtain ⟨es, k₁, c, hrun, hcur, hmem, hlong₁⟩ := hs.reach_long he hlong
  obtain ⟨⟨ys, hperm, hs₁⟩, hpri⟩ := hrun.scheduled hs (List.ne_nil_of_mem he)
  have hcys : c ∈ ys := hperm.mem_iff.mpr hmem
  obtain ⟨k₂, hstay⟩ := hs₁.exists_stay hcur hcys (by rwa [hpri]) (k₁.envs c).pri.toNat
  have hother : ∃ a ∈ ys, a ≠ c := by
    by_contra hall
    push Not at hall
    have hrep := List.eq_replicate_of_mem hall
    have hle : ys.length ≤ 1 := List.nodup_replicate.mp (hrep ▸ hs₁.rep.nodup)
    have hge : 0 < ys.length := List.length_pos_of_mem hcys
    rw [hperm.length_eq] at hle hge
    omega
  exact absurd (h.slice hrun hcur hs₁.rep hcys hstay hother) (by omega)

/-- With one environment every tick chooses it. -/
theorem Ticks.alone (h : Ticks k es k') (hs : Scheduled k [e]) : ∀ c ∈ es, c = e := by
  induction h with
  | none k => exact fun _ hc => absurd hc (by simp)
  | @tick k k₁ k' tf a es hstep ha hrest ih =>
    have ht := hs.step (by simp) hstep
    have hs₁ : Scheduled k₁ [e] := by
      obtain ⟨ys, hperm, hs₁⟩ := ht.perm
      rwa [List.perm_singleton.mp hperm] at hs₁
    have hae : a = e := by
      obtain ⟨b, ys, hb, -, -, ⟨hmem, -⟩ | ⟨c, hc, -, -, rfl, hhead⟩ | ⟨-, -, hhead⟩⟩ := ht
      · exact (Option.some.inj (ha.symm.trans hb)).trans (List.mem_singleton.mp hmem)
      · obtain rfl := List.mem_singleton.mp hc
        rw [List.erase_cons_head] at hhead
        exact Option.some.inj (ha.symm.trans (hb.trans hhead.symm))
      · exact Option.some.inj (ha.symm.trans (hb.trans hhead.symm))
    intro c hc
    rcases List.mem_cons.mp hc with rfl | hc
    · exact hae
    · exact ih hs₁ c hc

/-- The timer serves the queue round and round, each environment for at most its
priority, if and only if there is nobody to share the processor with or every
priority is one (or so large that the signed count starts below zero). -/
theorem priority_round_robin (hs : Scheduled k xs) (hne : xs ≠ [])
    (hpos : ∀ e ∈ xs, 0 < (k.envs e).pri.toNat) :
    k.RoundRobin ↔
      xs.length = 1 ∨ ∀ e ∈ xs, (k.envs e).pri = 1#32 ∨ 2 ^ 31 < (k.envs e).pri.toNat := by
  have hiff : ∀ e ∈ xs, (OneTick (k.envs e).pri ↔
      (k.envs e).pri = 1#32 ∨ 2 ^ 31 < (k.envs e).pri.toNat) := fun e he => oneTick_iff (hpos e he)
  -- the list and the priorities of a later state are those of `k`
  have hlater : ∀ {es : List EnvIdx} {k₁ : Kernel} {ys : List EnvIdx}, Ticks k es k₁ →
      k₁.envSchedList.Rep ys → Scheduled k₁ ys ∧ ys.Perm xs ∧
        ∀ c, (k₁.envs c).pri = (k.envs c).pri := by
    intro es k₁ ys hrun hys
    obtain ⟨⟨zs, hperm, hs₁⟩, hpri⟩ := hrun.scheduled hs hne
    obtain rfl := hs₁.rep.unique hys
    exact ⟨hs₁, hperm, hpri⟩
  constructor
  · intro h
    by_contra hnot
    push Not at hnot
    obtain ⟨hlen, e, he, hlong⟩ := hnot
    have hlong' : ¬OneTick (k.envs e).pri := fun hone => by
      rcases (hiff e he).mp hone with h' | h'
      · exact hlong.1 h'
      · exact absurd h' (not_lt.mpr hlong.2)
    exact hs.not_roundRobin he hlong' hlen h
  · rintro (hlen | hone)
    · obtain ⟨a, rfl⟩ := List.length_eq_one_iff.mp hlen
      refine ⟨fun hrun _ hrep he _ hother => ?_, fun hrun _ hrep he h hmid hnot => ?_⟩
      · obtain ⟨-, hperm, -⟩ := hlater hrun hrep
        rw [List.perm_singleton.mp hperm] at he hother
        obtain ⟨c, hc, hce⟩ := hother
        exact absurd (List.mem_singleton.mp hc) (List.mem_singleton.mp he ▸ hce)
      · obtain ⟨hs₁, hperm, -⟩ := hlater hrun hrep
        rw [List.perm_singleton.mp hperm] at he hs₁
        rw [List.mem_singleton.mp he] at h hnot
        obtain ⟨c, hc⟩ := List.exists_mem_of_ne_nil _ hmid
        have hca := h.alone hs₁ c (List.mem_append_left _ hc)
        exact absurd (hca ▸ hc) hnot
    · have hone' : ∀ e ∈ xs, OneTick (k.envs e).pri := fun e he => (hiff e he).mpr (hone e he)
      refine ⟨fun hrun hcur hrep he h hother => ?_, fun hrun hcur hrep he h hmid hnot => ?_⟩
      · obtain ⟨hs₁, hperm, hpri⟩ := hlater hrun hrep
        have hmem := hperm.mem_iff.mp he
        refine slice_of_oneTick hs₁ hcur he ?_ ?_ h hother
        · rw [hpri]
          exact hpos _ hmem
        · rw [hpri]
          exact hone' _ hmem
      · obtain ⟨hs₁, hperm, hpri⟩ := hlater hrun hrep
        refine order_of_oneTick hs₁ hcur he (fun c hc => ?_) h hmid hnot
        rw [hpri]
        exact hone' c (hperm.mem_iff.mp hc)

/-- Two environments of the same priority that have not run yet, queued as
`env_create` does it. -/
def twoEnvs (pri : Word) : Kernel :=
  { zeroKernel with
    envs := fun e =>
      if e = 0 ∨ e = 1 then { zeroKernel.envs e with status := .runnable, pri := pri }
      else zeroKernel.envs e
    envSchedList := (zeroKernel.envSchedList.init.insertHead 0).insertHead 1 }

theorem twoEnvs_scheduled (pri : Word) : Scheduled (twoEnvs pri) [1, 0] := by
  have hrep := ((TailQueue.Rep.init zeroKernel.envSchedList).insertHead
    (e := (0 : EnvIdx)) (by simp)).insertHead (e := (1 : EnvIdx)) (by simp)
  refine ⟨⟨hrep, fun e => ?_⟩, fun c hc => absurd hc (by simp [twoEnvs, zeroKernel])⟩
  simp only [twoEnvs, List.mem_cons, List.not_mem_nil, or_false]
  split
  · rename_i h
    exact iff_of_true h.symm rfl
  · rename_i h
    exact iff_of_false (fun h' => h h'.symm) (by simp [zeroKernel])

theorem twoEnvs_pri {pri : Word} (he : e ∈ [(1 : EnvIdx), 0]) :
    ((twoEnvs pri).envs e).pri = pri := by
  rcases List.mem_cons.mp he with rfl | he
  · rfl
  · obtain rfl := List.mem_singleton.mp he
    rfl

/-- The built-in images all have priority one. -/
theorem priority_round_robin_two : Scheduled (twoEnvs 1#32) [1, 0] ∧
    (∀ e ∈ [(1 : EnvIdx), 0], 0 < ((twoEnvs 1#32).envs e).pri.toNat) ∧
      (twoEnvs 1#32).RoundRobin := by
  have hpos : ∀ e ∈ [(1 : EnvIdx), 0], 0 < ((twoEnvs 1#32).envs e).pri.toNat := by
    intro e he
    rw [twoEnvs_pri he]
    decide
  exact ⟨twoEnvs_scheduled 1#32, hpos, (priority_round_robin (twoEnvs_scheduled 1#32) (by simp)
    hpos).mpr (.inr fun e he => .inl (twoEnvs_pri he))⟩

/-- With priority two the first of two environments keeps the processor. -/
theorem priority_round_robin_fails : ¬∀ k xs, Scheduled k xs → xs ≠ [] →
    (∀ e ∈ xs, 0 < (k.envs e).pri.toNat) → k.RoundRobin := by
  intro hall
  have hs := twoEnvs_scheduled 2#32
  have hpos : ∀ e ∈ [(1 : EnvIdx), 0], 0 < ((twoEnvs 2#32).envs e).pri.toNat := by
    intro e he
    rw [twoEnvs_pri he]
    decide
  have hlong : ¬OneTick ((twoEnvs 2#32).envs 1).pri := by
    rw [twoEnvs_pri (by simp)]
    decide
  exact hs.not_roundRobin (by simp) hlong (by simp) (hall _ _ hs (by simp) hpos)

end Ticks
end RvMos
