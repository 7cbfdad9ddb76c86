/-
Tail queues as sequences (`TAILQ` of `include/queue.h`, as `schedule` uses it).

The macros do to the words of a heap what the operations of `TailQueue` do, so a
well-formed queue stays one.  What they leave alone is said by `Within`: elements that
are neither on the queue nor the new one, and every field that is not a link.
-/
import RvMos.Kern.Queue

namespace RvMos

open Lib

namespace Queue

open Sys

/-- A well-formed `TAILQ`: its elements are in memory and the words spell it. -/
structure Tailq {α β : Type} (h : Heap α β) (xs : List α) : Prop where
  held : ∀ a ∈ xs, h.Holds a
  rep : h.words.Rep xs

section Tailq

variable {ε α β : Type} {h : Heap α β} {xs as bs : List α} {a b e l : α}

theorem Tailq.lists (hq : Tailq h xs) : Lists h xs := ⟨hq.held, hq.rep.spells⟩

theorem Tailq.last_eq (hq : Tailq h xs) : h.last = some (TailQueue.endCell .head xs) := hq.rep.last_eq

theorem Tailq.holdsCell (hq : Tailq h xs) : h.HoldsCell (TailQueue.endCell .head xs) :=
  fun a ha => hq.held a (mem_endCell ha)

theorem tailqInit_eq : (tailqInit : Act ε α β Unit) h =
    .ok (.ok (), (h.withFirst none).withLast (some .head)) := rfl

theorem tailq_init : Tailq ((h.withFirst none).withLast (some .head)) [] :=
  ⟨fun _ ha => absurd ha List.not_mem_nil, TailQueue.Rep.init h.words⟩

variable [DecidableEq α]

/-! ## `TAILQ_INSERT_HEAD` -/

/-- The first `if` of `TAILQ_INSERT_HEAD`. -/
def Heap.pushedFirst (h : Heap α β) (e : α) : Heap α β :=
  match h.first with
  | some x => (h.withNext e h.first).withPrev x (some (.next e))
  | none => (h.withNext e h.first).withLast (some (.next e))

def Heap.pushed (h : Heap α β) (e : α) : Heap α β :=
  ((h.pushedFirst e).withFirst (some e)).withPrev e (some .head)

theorem holds_pushedFirst : (h.pushedFirst e).Holds a ↔ h.Holds a := by
  unfold Heap.pushedFirst
  cases h.first with
  | none => simp
  | some x => simp

theorem tailqInsertHead_eq (hq : Tailq h xs) (he : h.Holds e) :
    (tailqInsertHead e : Act ε α β Unit) h = .ok (.ok (), h.pushed e) := by
  have hfirst : ∀ x, h.first = some x → h.Holds x := hq.lists.holds_first
  have hrest : ∀ h', h' = h.pushedFirst e → (do
      setFirst (some e)
      setPrev e (some .head) : Act ε α β Unit).wp
        (fun x t => x = .ok () ∧ t = h.pushed e) (fun _ => False) h' := by
    rintro h' rfl
    unfold setFirst
    rw [wp_modify_bind]
    exact wp_setPrev (holds_pushedFirst.mpr he) ⟨rfl, rfl⟩
  refine wp_eq ?_
  unfold tailqInsertHead
  rw [wp_bind]
  refine wp_getFirst ?_
  simp only
  rw [wp_bind]
  refine wp_setNext he ?_
  simp only
  rw [wp_ite]
  cases hf : h.first with
  | none =>
    refine ⟨fun hne => absurd rfl hne, fun _ => ?_⟩
    unfold setLast
    rw [wp_modify_bind]
    refine hrest _ ?_
    unfold Heap.pushedFirst
    simp only [hf]
  | some x =>
    refine ⟨fun _ => ?_, fun hne => absurd (by simp) hne⟩
    rw [wp_bind]
    refine wp_getFirst ?_
    simp only
    rw [wp_bind]
    show (deref h.first : Act ε α β α).wp _ _ _
    rw [hf]
    refine wp_deref ?_
    simp only
    rw [wp_bind]
    refine wp_setPrev (holds_withNext.mpr (hfirst x hf)) (hrest _ ?_)
    unfold Heap.pushedFirst
    simp only [hf]

theorem words_pushed (hq : Tailq h xs) (he : h.Holds e) :
    (h.pushed e).words = h.words.insertHead e := by
  have hfirst : ∀ x, h.first = some x → h.Holds x := hq.lists.holds_first
  have hwords : h.words.first = h.first := rfl
  unfold Heap.pushed TailQueue.insertHead
  rw [words_withPrev (holds_withFirst.mpr (holds_pushedFirst.mpr he)), words_withFirst, hwords]
  unfold Heap.pushedFirst
  cases hf : h.first with
  | none => rw [words_withLast, words_withNext he]
  | some x => rw [words_withPrev (holds_withNext.mpr (hfirst x hf)), words_withNext he]

theorem within_pushed {F : List α} (hq : Tailq h xs) (hF : ∀ a ∈ xs, a ∈ F) (he : e ∈ F) :
    Within F h (h.pushed e) := by
  unfold Heap.pushed Heap.pushedFirst
  refine (Within.withFirst ?_).withPrev he
  cases hf : h.first with
  | none => exact (within_self.withNext he).withLast
  | some x =>
    refine (within_self.withNext he).withPrev (hF x (List.mem_of_mem_head? ?_))
    exact hq.lists.first_eq ▸ hf

theorem tailq_pushed (hq : Tailq h xs) (he : h.Holds e) (hnew : e ∉ xs) :
    Tailq (h.pushed e) (e :: xs) := by
  refine ⟨fun a ha => ?_, words_pushed hq he ▸ hq.rep.insertHead hnew⟩
  refine holds_withPrev.mpr (holds_pushedFirst.mpr ?_)
  rcases List.mem_cons.mp ha with rfl | ha
  · exact he
  · exact hq.held a ha

/-! ## `TAILQ_INSERT_TAIL` -/

def Heap.appended (h : Heap α β) (c : Cell α) (e : α) : Heap α β :=
  (((h.withNext e none).withPrev e (some c)).withCell c (some e)).withLast (some (.next e))

theorem tailqInsertTail_eq (hq : Tailq h xs) (he : h.Holds e) :
    (tailqInsertTail e : Act ε α β Unit) h =
      .ok (.ok (), h.appended (TailQueue.endCell .head xs) e) := by
  have hlast := hq.last_eq
  have hcell := hq.holdsCell
  refine wp_eq ?_
  unfold tailqInsertTail
  rw [wp_bind]
  refine wp_setNext he ?_
  simp only
  rw [wp_bind]
  refine wp_getLast ?_
  simp only
  rw [wp_bind]
  refine wp_setPrev (holds_withNext.mpr he) ?_
  simp only
  rw [wp_bind]
  refine wp_getLast ?_
  simp only
  rw [wp_bind]
  show (deref h.last : Act ε α β (Cell α)).wp _ _ _
  rw [hlast]
  refine wp_deref ?_
  simp only
  rw [wp_bind]
  refine wp_store (fun a ha => by simpa using hcell a ha) (wp_modify.mpr ⟨rfl, ?_⟩)
  show Heap.withLast (Heap.withCell (Heap.withPrev _ e h.last) _ _) _ = _
  rw [hlast]
  rfl

theorem words_appended (hq : Tailq h xs) (he : h.Holds e) : h.words.insertTail e =
    some (h.appended (TailQueue.endCell .head xs) e).words := by
  have hlast : h.words.last = some (TailQueue.endCell .head xs) := hq.last_eq
  have hcell := hq.holdsCell
  unfold TailQueue.insertTail Heap.appended
  simp only [hlast]
  rw [words_withLast, words_withCell fun a ha => by simpa using hcell a ha,
    words_withPrev (holds_withNext.mpr he), words_withNext he]
  simp only [hlast]

theorem within_appended {F : List α} (hF : ∀ a ∈ xs, a ∈ F) (he : e ∈ F) :
    Within F h (h.appended (TailQueue.endCell .head xs) e) := by
  unfold Heap.appended
  refine ((((within_self.withNext he).withPrev he).withCell fun x hx => hF x ?_).withLast)
  exact mem_endCell hx

theorem tailq_appended (hq : Tailq h xs) (he : h.Holds e) (hnew : e ∉ xs) :
    Tailq (h.appended (TailQueue.endCell .head xs) e) (xs ++ [e]) := by
  obtain ⟨q', hq', hrep⟩ := hq.rep.insertTail hnew
  rw [words_appended hq he] at hq'
  obtain rfl := Option.some.inj hq'
  refine ⟨fun a ha => ?_, hrep⟩
  unfold Heap.appended
  simp only [holds_withLast, holds_withCell, holds_withPrev, holds_withNext]
  rcases List.mem_append.mp ha with ha | ha
  · exact hq.held a ha
  · rw [List.mem_singleton.mp ha]
    exact he

/-! ## `TAILQ_REMOVE` -/

/-- The first `if` of `TAILQ_REMOVE`. -/
def Heap.unlinkedBack (h : Heap α β) (c : Cell α) (n : Option α) : Heap α β :=
  match n with
  | some x => h.withPrev x (some c)
  | none => h.withLast (some c)

def Heap.unlinked (h : Heap α β) (c : Cell α) (n : Option α) : Heap α β :=
  (h.unlinkedBack c n).withCell c n

theorem holds_unlinkedBack {c : Cell α} {n : Option α} :
    (h.unlinkedBack c n).Holds a ↔ h.Holds a := by
  cases n with
  | none => exact Iff.rfl
  | some x => exact holds_withPrev

theorem tailqRemove_eq (hq : Tailq h (as ++ e :: bs)) :
    (tailqRemove e : Act ε α β Unit) h =
      .ok (.ok (), h.unlinked (TailQueue.endCell .head as) bs.head?) := by
  have hl := hq.lists
  have hheld : h.Holds e := hq.held e (List.mem_append_right as List.mem_cons_self)
  have hnext : h.words.next e = bs.head? := hl.spells.next_at
  have hprev := hl.spells.prev_at
  have hbs := hl.holds_after
  have heb : ∀ b, bs.head? = some b → e ≠ b := fun b hb heq => hl.not_after (heq ▸ hb)
  have hrest : ∀ h' : Heap α β, h' = h.unlinkedBack (TailQueue.endCell .head as) bs.head? → (do
      store (← deref (← getPrev e)) (← getNext e) : Act ε α β Unit).wp
        (fun x t => x = .ok () ∧ t = h.unlinked (TailQueue.endCell .head as) bs.head?)
        (fun _ => False) h' := by
    rintro h' rfl
    have hprev' : (h.unlinkedBack (TailQueue.endCell .head as) bs.head?).words.prev e =
        some (TailQueue.endCell .head as) := by
      cases hb : bs.head? with
      | none => exact hprev
      | some b =>
        unfold Heap.unlinkedBack
        rw [prev_withPrev (hbs b hb), if_neg (heb b hb), hprev]
    have hnext' : (h.unlinkedBack (TailQueue.endCell .head as) bs.head?).words.next e = bs.head? := by
      cases hb : bs.head? with
      | none => exact hnext.trans hb
      | some b => exact (read_withPrev (k := .next e)).trans (hnext.trans hb)
    rw [wp_bind]
    refine wp_getPrev (holds_unlinkedBack.mpr hheld) ?_
    simp only
    rw [hprev', wp_bind]
    refine wp_deref ?_
    simp only
    rw [wp_bind]
    refine wp_getNext (holds_unlinkedBack.mpr hheld) ?_
    simp only [hnext']
    exact wp_store (fun a ha => holds_unlinkedBack.mpr (hl.holdsCell a ha)) ⟨rfl, rfl⟩
  refine wp_eq ?_
  unfold tailqRemove
  rw [wp_bind]
  refine wp_getNext hheld ?_
  simp only
  rw [wp_ite]
  cases hb : bs.head? with
  | none =>
    refine ⟨fun hne => absurd (hnext.trans hb) hne, fun _ => ?_⟩
    rw [← hb, wp_bind]
    refine wp_getPrev hheld ?_
    simp only [hprev]
    unfold setLast
    rw [wp_modify_bind]
    exact hrest _ (by rw [hb]; rfl)
  | some b =>
    refine ⟨fun _ => ?_, fun hne => absurd (by rw [hnext, hb]; simp) hne⟩
    rw [← hb, wp_bind]
    refine wp_getNext hheld ?_
    simp only
    rw [hnext, hb, wp_bind]
    refine wp_deref ?_
    simp only
    rw [wp_bind]
    refine wp_getPrev hheld ?_
    simp only [hprev]
    rw [wp_bind]
    refine wp_setPrev (hbs b hb) ?_
    rw [← hb]
    exact hrest _ (by rw [hb]; rfl)

theorem words_unlinked (hq : Tailq h (as ++ e :: bs)) : h.words.remove e =
    some (h.unlinked (TailQueue.endCell .head as) bs.head?).words := by
  have hl := hq.lists
  have hnext : h.words.next e = bs.head? := hl.spells.next_at
  have hprev := hl.spells.prev_at
  unfold TailQueue.remove Heap.unlinked
  rw [words_withCell fun a ha => holds_unlinkedBack.mpr (hl.holdsCell a ha)]
  cases hb : bs.head? with
  | none =>
    have hn := hnext.trans hb
    simp only [hn, hprev]
    rfl
  | some b =>
    have hn := hnext.trans hb
    have hbe : e ≠ b := fun heq => hl.not_after (heq ▸ hb)
    unfold Heap.unlinkedBack
    rw [words_withPrev (hl.holds_after b hb)]
    simp only [hn, Function.update_of_ne hbe, hprev]

theorem within_unlinked {F : List α} (hF : ∀ a ∈ as ++ e :: bs, a ∈ F) :
    Within F h (h.unlinked (TailQueue.endCell .head as) bs.head?) := by
  have hback : ∀ x, bs.head? = some x → x ∈ F := fun x hx =>
    hF x (List.mem_append_right as (List.mem_cons_of_mem e (List.mem_of_mem_head? hx)))
  unfold Heap.unlinked
  refine Within.withCell ?_ fun x hx => hF x (List.mem_append_left _ (mem_endCell hx))
  cases hb : bs.head? with
  | none => exact within_self.withLast
  | some b => exact within_self.withPrev (hback b hb)

theorem tailq_unlinked (hq : Tailq h (as ++ e :: bs)) :
    Tailq (h.unlinked (TailQueue.endCell .head as) bs.head?) (as ++ bs) := by
  obtain ⟨q', hq', hrep⟩ := hq.rep.remove_split
  rw [words_unlinked hq] at hq'
  obtain rfl := Option.some.inj hq'
  refine ⟨fun a ha => holds_withCell.mpr (holds_unlinkedBack.mpr (hq.held a ?_)), hrep⟩
  rcases List.mem_append.mp ha with ha | ha
  · exact List.mem_append_left _ ha
  · exact List.mem_append_right as (List.mem_cons_of_mem e ha)

end Tailq

/-! ## The operations on tail queues -/

inductive TailqOp (α : Type) where
  | init
  | insertHead (elm : α)
  | insertTail (elm : α)
  | remove (elm : α)
  /-- the two macros of `schedule`, one after the other -/
  | rotate (elm : α)
  deriving DecidableEq, Repr

namespace TailqOp

variable {α β : Type} [DecidableEq α]

def run : TailqOp α → Act Empty α β Unit
  | .init => tailqInit
  | .insertHead e => tailqInsertHead e
  | .insertTail e => tailqInsertTail e
  | .remove e => tailqRemove e
  | .rotate e => do
    tailqRemove e
    tailqInsertTail e

/-- The operation on the sequence. -/
def on : TailqOp α → List α → List α
  | .init, _ => []
  | .insertHead e, xs => e :: xs
  | .insertTail e, xs => xs ++ [e]
  | .remove e, xs => xs.erase e
  | .rotate e, xs => xs.erase e ++ [e]

/-- The new element. -/
def new : TailqOp α → List α
  | .insertHead e => [e]
  | .insertTail e => [e]
  | _ => []

/-- A new element is in memory and not on the queue, any other one is on it. -/
def Ready (h : Heap α β) (xs : List α) : TailqOp α → Prop
  | .init => True
  | .insertHead e => h.Holds e ∧ e ∉ xs
  | .insertTail e => h.Holds e ∧ e ∉ xs
  | .remove e => e ∈ xs
  | .rotate e => e ∈ xs

end TailqOp

section Ops

variable {α β : Type} [DecidableEq α] {h : Heap α β} {xs : List α} {e : α}

theorem erase_at {as bs : List α} (hnd : (as ++ e :: bs).Nodup) :
    (as ++ e :: bs).erase e = as ++ bs := by
  have has : e ∉ as := fun ha => (List.nodup_append.mp hnd).2.2 e ha e List.mem_cons_self rfl
  rw [List.erase_append_right _ has, List.erase_cons_head]

theorem tailq_remove {ε : Type} {F : List α} (hq : Tailq h xs) (he : e ∈ xs)
    (hF : ∀ a ∈ xs, a ∈ F) : ∃ h', (tailqRemove e : Act ε α β Unit) h = .ok (.ok (), h') ∧
      Tailq h' (xs.erase e) ∧ Within F h h' := by
  obtain ⟨as, bs, rfl⟩ := List.append_of_mem he
  rw [erase_at hq.rep.nodup]
  exact ⟨_, tailqRemove_eq hq, tailq_unlinked hq, within_unlinked hF⟩

omit [DecidableEq α] in
theorem Within.holds {F : List α} {h' : Heap α β} (hw : Within F h h') (he : h.Holds e) :
    h'.Holds e := by
  have hrest := congrArg Option.isSome (hw.rest e)
  rw [Option.isSome_map, Option.isSome_map] at hrest
  exact hrest.trans he

end Ops

/-- Every operation on a well-formed tail queue does to it what it does to the sequence,
and leaves everything else alone. -/
theorem tailq_correct {α β : Type} [DecidableEq α] (h : Heap α β) (xs : List α)
    (hq : Tailq h xs) (op : TailqOp α) (hop : op.Ready h xs) :
    ∃ h', op.run h = .ok (.ok (), h') ∧ Tailq h' (op.on xs) ∧ Within (op.new ++ xs) h h' := by
  have hF : ∀ a ∈ xs, a ∈ op.new ++ xs := fun a ha => List.mem_append_right _ ha
  cases op with
  | init => exact ⟨_, tailqInit_eq, tailq_init, within_self.withFirst.withLast⟩
  | insertHead e =>
    exact ⟨_, tailqInsertHead_eq hq hop.1, tailq_pushed hq hop.1 hop.2,
      within_pushed hq hF List.mem_cons_self⟩
  | insertTail e =>
    exact ⟨_, tailqInsertTail_eq hq hop.1, tailq_appended hq hop.1 hop.2,
      within_appended hF List.mem_cons_self⟩
  | remove e => exact tailq_remove hq hop hF
  | rotate e =>
    have hremove : ∃ h₁, (tailqRemove e : Act Empty α β Unit) h = .ok (.ok (), h₁) ∧
        Tailq h₁ (xs.erase e) ∧ Within ((TailqOp.rotate e).new ++ xs) h h₁ := tailq_remove hq hop hF
    obtain ⟨h₁, hrun₁, hq₁, hw₁⟩ := hremove
    have he₁ : h₁.Holds e := hw₁.holds (hq.held e hop)
    have hnew : e ∉ xs.erase e := fun he => (List.Nodup.mem_erase_iff hq.rep.nodup).mp he |>.1 rfl
    refine ⟨_, (bind_of_ok hrun₁).trans (tailqInsertTail_eq hq₁ he₁), tailq_appended hq₁ he₁ hnew,
      hw₁.trans (within_appended (fun a ha => hF a (List.mem_of_mem_erase ha)) (hF e hop))⟩

/-- The queue of the elements 0, 1 and 2. -/
def threeElems : Heap ℕ Unit where
  first := some 0
  last := some (.next 2)
  elem
    | 0 => some ⟨some 1, some .head, ()⟩
    | 1 => some ⟨some 2, some (.next 0), ()⟩
    | 2 => some ⟨none, some (.next 1), ()⟩
    | _ => none

theorem threeElems_tailq : Tailq threeElems [0, 1, 2] := by
  refine ⟨fun a ha => ?_, by decide, ?_, rfl, rfl⟩
  · have ha' : a = 0 ∨ a = 1 ∨ a = 2 := by simpa using ha
    rcases ha' with rfl | rfl | rfl <;> rfl
  · exact ⟨rfl, rfl, rfl, rfl, rfl, rfl, trivial⟩

/-- The element in the middle goes to the end. -/
theorem tailq_correct_middle : ∃ h', (TailqOp.rotate 1).run threeElems = .ok (.ok (), h') ∧
    Tailq h' [0, 2, 1] ∧ Within [0, 1, 2] threeElems h' :=
  tailq_correct threeElems [0, 1, 2] threeElems_tailq (.rotate 1) (.tail 0 (.head _))

end Queue
end RvMos
