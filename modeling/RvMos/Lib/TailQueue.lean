/-
Intrusive tail queues.

The `TAILQ` macros keep a queue in the elements themselves: every element has a
`tqe_next` pointer and the address of the pointer that leads to it, and the head
has the first element and the address of the last `tqe_next`.  `TailQueue` holds
exactly these words.  An operation that writes through a null `tqe_prev` or
`tqh_last` has no result.

`Rep q xs` says that the words of `q` spell the list `xs`, and `Spells q xs` the same
of all words but `tqh_last`.  The operations are the list operations on represented
queues, and nothing is promised about an element that is removed without being on
the queue or inserted twice.
-/
import Mathlib.Data.List.Basic
import Mathlib.Logic.Function.Basic
import Mathlib.Tactic.Common

namespace RvMos
namespace Lib

/-- The address of a link word: `&head->tqh_first` or `&a->tqe_next`. -/
inductive Cell (α : Type) where
  | head
  | next (a : α)
  deriving DecidableEq, Repr

structure TailQueue (α : Type) where
  first : Option α
  last : Option (Cell α)
  next : α → Option α
  prev : α → Option (Cell α)

namespace TailQueue

variable {α : Type}

/-- The word at a link address. -/
def read (q : TailQueue α) : Cell α → Option α
  | .head => q.first
  | .next a => q.next a

/-- `TAILQ_INIT`. -/
def init (q : TailQueue α) : TailQueue α := { q with first := none, last := some .head }

section Ops

variable [DecidableEq α]

/-- `*c = v`. -/
def write (q : TailQueue α) (c : Cell α) (v : Option α) : TailQueue α :=
  match c with
  | .head => { q with first := v }
  | .next a => { q with next := Function.update q.next a v }

/-- `TAILQ_INSERT_HEAD`. -/
def insertHead (q : TailQueue α) (e : α) : TailQueue α :=
  let q₁ : TailQueue α := { q with next := Function.update q.next e q.first }
  let q₂ : TailQueue α := match q.first with
    | some a => { q₁ with prev := Function.update q₁.prev a (some (.next e)) }
    | none => { q₁ with last := some (.next e) }
  { q₂ with
    first := some e
    prev := Function.update q₂.prev e (some .head) }

/-- `TAILQ_INSERT_TAIL`. -/
def insertTail (q : TailQueue α) (e : α) : Option (TailQueue α) :=
  let q₁ : TailQueue α :=
    { q with
      next := Function.update q.next e none
      prev := Function.update q.prev e q.last }
  match q₁.last with
  | none => none
  | some c => some { q₁.write c (some e) with last := some (.next e) }

/-- `TAILQ_REMOVE`. -/
def remove (q : TailQueue α) (e : α) : Option (TailQueue α) :=
  let q₁ : TailQueue α := match q.next e with
    | some a => { q with prev := Function.update q.prev a (q.prev e) }
    | none => { q with last := q.prev e }
  match q₁.prev e with
  | none => none
  | some c => some (q₁.write c (q₁.next e))

theorem read_write_self (q : TailQueue α) (c : Cell α) (v : Option α) :
    (q.write c v).read c = v := by
  cases c with
  | head => rfl
  | next a => exact Function.update_self ..

theorem read_write_of_ne (q : TailQueue α) {c k : Cell α} (v : Option α) (h : k ≠ c) :
    (q.write c v).read k = q.read k := by
  cases c with
  | head =>
    cases k with
    | head => exact absurd rfl h
    | next b => rfl
  | next a =>
    cases k with
    | head => rfl
    | next b =>
      have hb : b ≠ a := fun e => h (by rw [e])
      exact Function.update_of_ne hb ..

@[simp] theorem write_prev (q : TailQueue α) (c : Cell α) (v : Option α) :
    (q.write c v).prev = q.prev := by
  cases c <;> rfl

@[simp] theorem write_last (q : TailQueue α) (c : Cell α) (v : Option α) :
    (q.write c v).last = q.last := by
  cases c <;> rfl

end Ops

/-! ## Represented lists -/

/-- The links from cell `c` through the elements of a list. -/
def Links (q : TailQueue α) : Cell α → List α → Prop
  | _, [] => True
  | c, a :: as => q.read c = some a ∧ q.prev a = some c ∧ q.Links (.next a) as

/-- The cell after the last element. -/
def endCell : Cell α → List α → Cell α
  | c, [] => c
  | _, a :: as => endCell (.next a) as

structure Rep (q : TailQueue α) (xs : List α) : Prop where
  nodup : xs.Nodup
  links : q.Links .head xs
  last_eq : q.last = some (endCell .head xs)
  stop : q.read (endCell .head xs) = none

theorem endCell_append (c : Cell α) (as bs : List α) :
    endCell c (as ++ bs) = endCell (endCell c as) bs := by
  induction as generalizing c with
  | nil => rfl
  | cons a as ih => exact ih (.next a)

/-- The end of a walk is its start or the link of a member. -/
theorem endCell_cases (c : Cell α) (as : List α) :
    endCell c as = c ∨ ∃ a ∈ as, endCell c as = .next a := by
  induction as generalizing c with
  | nil => exact Or.inl rfl
  | cons a as ih =>
    rcases ih (.next a) with h | ⟨b, hb, h⟩
    · exact Or.inr ⟨a, List.mem_cons_self, h⟩
    · exact Or.inr ⟨b, List.mem_cons_of_mem _ hb, h⟩

theorem links_append {q : TailQueue α} {c : Cell α} {as bs : List α} :
    q.Links c (as ++ bs) ↔ q.Links c as ∧ q.Links (endCell c as) bs := by
  induction as generalizing c with
  | nil => exact ⟨fun h => ⟨trivial, h⟩, fun h => h.2⟩
  | cons a as ih =>
    show _ ∧ _ ∧ q.Links (.next a) (as ++ bs) ↔ (_ ∧ _ ∧ q.Links (.next a) as) ∧ _
    rw [ih]
    exact ⟨fun h => ⟨⟨h.1, h.2.1, h.2.2.1⟩, h.2.2.2⟩, fun h => ⟨h.1.1, h.1.2.1, h.1.2.2, h.2⟩⟩

/-- Links survive a change of other words.  The word after the last element is
not among those that matter. -/
theorem links_congr {q q' : TailQueue α} {c : Cell α} {as : List α} (hnd : as.Nodup)
    (hc : ∀ a ∈ as, c ≠ .next a)
    (hread : ∀ k, k ≠ endCell c as → (k = c ∨ ∃ a ∈ as, k = .next a) → q'.read k = q.read k)
    (hprev : ∀ a ∈ as, q'.prev a = q.prev a) (h : q.Links c as) : q'.Links c as := by
  induction as generalizing c with
  | nil => trivial
  | cons a as ih =>
    obtain ⟨hr, hp, hl⟩ := h
    obtain ⟨ha, hnd'⟩ := List.nodup_cons.mp hnd
    have hend : c ≠ endCell c (a :: as) := by
      intro he
      rcases endCell_cases (.next a) as with h' | ⟨b, hb, h'⟩
      · exact hc a List.mem_cons_self (he.trans h')
      · exact hc b (List.mem_cons_of_mem _ hb) (he.trans h')
    refine ⟨?_, ?_, ih hnd' ?_ ?_ ?_ hl⟩
    · rw [hread c hend (Or.inl rfl), hr]
    · rw [hprev a List.mem_cons_self, hp]
    · intro b hb he
      obtain rfl : a = b := by injection he
      exact ha hb
    · intro k hk hcase
      refine hread k hk (Or.inr ?_)
      rcases hcase with rfl | ⟨b, hb, rfl⟩
      · exact ⟨a, List.mem_cons_self, rfl⟩
      · exact ⟨b, List.mem_cons_of_mem _ hb, rfl⟩
    · intro b hb
      exact hprev b (List.mem_cons_of_mem _ hb)

/-- The words of `q` spell a list, whatever `tqh_last` is. -/
structure Spells (q : TailQueue α) (xs : List α) : Prop where
  nodup : xs.Nodup
  links : q.Links .head xs
  stop : q.read (endCell .head xs) = none

namespace Spells

variable {q q' : TailQueue α} {xs as bs : List α} {e : α}

theorem rep (h : q.Spells xs) (hlast : q.last = some (endCell .head xs)) : q.Rep xs :=
  ⟨h.nodup, h.links, hlast, h.stop⟩

theorem unique_of_links {c : Cell α} {ys : List α} (hx : q.Links c xs)
    (hy : q.Links c ys) (hxe : q.read (endCell c xs) = none) (hye : q.read (endCell c ys) = none) :
    xs = ys := by
  induction xs generalizing c ys with
  | nil =>
    cases ys with
    | nil => rfl
    | cons b bs => exact absurd (hy.1.symm.trans hxe) (by simp)
  | cons a as ih =>
    cases ys with
    | nil => exact absurd (hx.1.symm.trans hye) (by simp)
    | cons b bs =>
      obtain rfl : a = b := Option.some.inj (hx.1.symm.trans hy.1)
      rw [ih hx.2.2 hy.2.2 hxe hye]

/-- The words spell one list only. -/
theorem unique {ys : List α} (hx : q.Spells xs) (hy : q.Spells ys) : xs = ys :=
  unique_of_links hx.links hy.links hx.stop hy.stop

/-- The word at a place of the list leads to what comes next. -/
theorem read_at (h : q.Spells (as ++ bs)) : q.read (endCell .head as) = bs.head? := by
  cases bs with
  | nil =>
    have hstop := h.stop
    rwa [List.append_nil] at hstop
  | cons b bs => exact (links_append.mp h.links).2.1

theorem next_at (h : q.Spells (as ++ e :: bs)) : q.next e = bs.head? := by
  have hsplit : q.Spells ((as ++ [e]) ++ bs) := by rwa [List.append_assoc]
  have hread := hsplit.read_at
  rwa [endCell_append] at hread

theorem prev_at (h : q.Spells (as ++ e :: bs)) : q.prev e = some (endCell .head as) :=
  (links_append.mp h.links).2.2.1

/-- The cell in front of a place of the list does not belong to an element behind it. -/
theorem cell_ne (hnd : (as ++ bs).Nodup) {b : α} (hb : b ∈ bs) :
    endCell .head as ≠ .next b := by
  intro heq
  rcases endCell_cases (.head : Cell α) as with h' | ⟨a, ha, h'⟩
  · exact absurd (h'.symm.trans heq) (by simp)
  · obtain rfl : a = b := by
      have := h'.symm.trans heq
      injection this
    exact (List.nodup_append.mp hnd).2.2 a ha a hb rfl

/-- Only the words of the head and of the elements matter. -/
theorem congr (h : q.Spells xs) (hfirst : q'.first = q.first)
    (hnext : ∀ a ∈ xs, q'.next a = q.next a) (hprev : ∀ a ∈ xs, q'.prev a = q.prev a) :
    q'.Spells xs := by
  have hread : ∀ k, (k = .head ∨ ∃ a ∈ xs, k = .next a) → q'.read k = q.read k := by
    rintro k (rfl | ⟨a, ha, rfl⟩)
    · exact hfirst
    · exact hnext a ha
  refine ⟨h.nodup, links_congr h.nodup (fun a _ => by simp) (fun k _ hk => hread k hk) hprev h.links, ?_⟩
  rw [hread _ (endCell_cases .head xs)]
  exact h.stop

/-- An element has been linked in between `as` and `bs`. -/
theorem insert (h : q.Spells (as ++ bs)) (he : e ∉ as ++ bs)
    (hin : q'.read (endCell .head as) = some e) (hprev : q'.prev e = some (endCell .head as))
    (hnext : q'.next e = bs.head?) (hback : ∀ b ∈ bs.head?, q'.prev b = some (.next e))
    (hread : ∀ k, k ≠ endCell .head as → k ≠ .next e → q'.read k = q.read k)
    (hprevs : ∀ a, a ≠ e → a ∉ bs.head? → q'.prev a = q.prev a) :
    q'.Spells (as ++ e :: bs) := by
  obtain ⟨hndas, hndbs, hdisj⟩ := List.nodup_append.mp h.nodup
  obtain ⟨hlas, hlbs⟩ := links_append.mp h.links
  have hea : ∀ a ∈ as, a ≠ e := fun a ha heq => he (heq ▸ List.mem_append_left bs ha)
  have heb : ∀ b ∈ bs, b ≠ e := fun b hb heq => he (heq ▸ List.mem_append_right as hb)
  have hnd : (as ++ e :: bs).Nodup := List.nodup_append.mpr
    ⟨hndas, List.nodup_cons.mpr ⟨fun hmem => heb e hmem rfl, hndbs⟩, fun a ha b hb => by
      rcases List.mem_cons.mp hb with rfl | hb
      · exact hea a ha
      · exact hdisj a ha b hb⟩
  have hfront : q'.Links .head as := by
    refine links_congr hndas (fun a _ => by simp) (fun k hk hcase => hread k hk ?_)
      (fun a ha => hprevs a (hea a ha) fun hb => ?_) hlas
    · rcases hcase with rfl | ⟨a, ha, rfl⟩
      · simp
      · intro heq
        injection heq with heq
        exact hea a ha heq
    · exact hdisj a ha a (List.mem_of_mem_head? hb) rfl
  cases bs with
  | nil =>
    refine ⟨hnd, links_append.mpr ⟨hfront, hin, hprev, trivial⟩, ?_⟩
    rw [endCell_append]
    exact hnext
  | cons b bs =>
    obtain ⟨hb, hndbs'⟩ := List.nodup_cons.mp hndbs
    have hcell : ∀ k, (k = .next b ∨ ∃ x ∈ bs, k = .next x) → q'.read k = q.read k := by
      rintro k (rfl | ⟨x, hx, rfl⟩)
      · refine hread _ (cell_ne h.nodup List.mem_cons_self).symm fun heq => ?_
        injection heq with heq
        exact heb b List.mem_cons_self heq
      · refine hread _ (cell_ne h.nodup (List.mem_cons_of_mem b hx)).symm fun heq => ?_
        injection heq with heq
        exact heb x (List.mem_cons_of_mem b hx) heq
    have hback' : q'.Links (.next b) bs := by
      refine links_congr hndbs' (fun x hx heq => ?_) (fun k _ hk => hcell k hk)
        (fun x hx => hprevs x (heb x (List.mem_cons_of_mem b hx)) fun hxb => ?_) hlbs.2.2
      · injection heq with heq
        exact hb (heq ▸ hx)
      · obtain rfl := Option.some.inj hxb
        exact hb hx
    refine ⟨hnd, links_append.mpr ⟨hfront, hin, hprev, hnext, hback b rfl, hback'⟩, ?_⟩
    have hstop := h.stop
    rw [endCell_append] at hstop ⊢
    exact (hcell _ (endCell_cases (.next b) bs)).trans hstop

/-- The element between `as` and `bs` has been taken out. -/
theorem erase (h : q.Spells (as ++ e :: bs)) (hout : q'.read (endCell .head as) = bs.head?)
    (hback : ∀ b ∈ bs.head?, q'.prev b = some (endCell .head as))
    (hread : ∀ k, k ≠ endCell .head as → q'.read k = q.read k)
    (hprevs : ∀ a ∉ bs.head?, q'.prev a = q.prev a) : q'.Spells (as ++ bs) := by
  obtain ⟨hndas, hnde, hdisj⟩ := List.nodup_append.mp h.nodup
  obtain ⟨heb, hndbs⟩ := List.nodup_cons.mp hnde
  obtain ⟨hlas, -, -, hlbs⟩ := links_append.mp h.links
  have hdisj' : ∀ a ∈ as, ∀ b ∈ bs, a ≠ b := fun a ha b hb =>
    hdisj a ha b (List.mem_cons_of_mem e hb)
  have hnd : (as ++ bs).Nodup := List.nodup_append.mpr ⟨hndas, hndbs, hdisj'⟩
  have hfront : q'.Links .head as := by
    refine links_congr hndas (fun a _ => by simp) (fun k hk _ => hread k hk)
      (fun a ha => hprevs a fun hb => ?_) hlas
    exact hdisj' a ha a (List.mem_of_mem_head? hb) rfl
  cases bs with
  | nil =>
    rw [List.append_nil] at hnd ⊢
    exact ⟨hnd, hfront, hout⟩
  | cons b bs =>
    obtain ⟨hb, hndbs'⟩ := List.nodup_cons.mp hndbs
    have hcell : ∀ k, (k = .next b ∨ ∃ x ∈ bs, k = .next x) → q'.read k = q.read k := by
      rintro k (rfl | ⟨x, hx, rfl⟩)
      · exact hread _ (cell_ne hnd List.mem_cons_self).symm
      · exact hread _ (cell_ne hnd (List.mem_cons_of_mem b hx)).symm
    have hback' : q'.Links (.next b) bs := by
      refine links_congr hndbs' (fun x hx heq => ?_) (fun k _ hk => hcell k hk)
        (fun x hx => hprevs x fun hxb => ?_) hlbs.2.2
      · injection heq with heq
        exact hb (heq ▸ hx)
      · obtain rfl := Option.some.inj hxb
        exact hb hx
    refine ⟨hnd, links_append.mpr ⟨hfront, hout, hback b rfl, hback'⟩, ?_⟩
    have hstop := h.stop
    rw [endCell_append] at hstop ⊢
    exact (hcell _ (endCell_cases (.next b) bs)).trans hstop

end Spells

namespace Rep

variable {q : TailQueue α} {xs : List α}

theorem spells (h : q.Rep xs) : q.Spells xs := ⟨h.nodup, h.links, h.stop⟩

theorem init (q : TailQueue α) : q.init.Rep [] :=
  ⟨List.nodup_nil, trivial, rfl, rfl⟩

/-- `TAILQ_FIRST` is the head of the list. -/
theorem first_eq (h : q.Rep xs) : q.first = xs.head? := by
  cases xs with
  | nil => exact h.stop
  | cons a as => exact h.links.1

/-- The words spell one list only. -/
theorem unique {ys : List α} (hx : q.Rep xs) (hy : q.Rep ys) : xs = ys :=
  hx.spells.unique hy.spells

section Ops

variable [DecidableEq α]

theorem insertHead (h : q.Rep xs) {e : α} (he : e ∉ xs) : (q.insertHead e).Rep (e :: xs) := by
  have hspells : (q.insertHead e).Spells ([] ++ e :: xs) := by
    have hne : ∀ b ∈ q.first, b ≠ e := by
      intro b hb heq
      rw [h.first_eq] at hb
      exact he (heq ▸ List.mem_of_mem_head? hb)
    have hxs : q.Spells ([] ++ xs) := h.spells
    refine hxs.insert he rfl (Function.update_self ..) ?_ ?_ ?_ ?_
    · rw [← h.first_eq]
      cases hf : q.first <;> simp [TailQueue.insertHead, hf]
    · rw [← h.first_eq]
      intro b hb
      have hbe := hne b hb
      rw [Option.mem_def] at hb
      simp [TailQueue.insertHead, hb, Function.update_of_ne hbe]
    · intro k hk hke
      cases k with
      | head => exact absurd rfl hk
      | next a =>
        have hae : a ≠ e := fun heq => hke (by rw [heq])
        cases hf : q.first <;>
          simp [TailQueue.insertHead, hf, read, Function.update_of_ne hae]
    · rw [← h.first_eq]
      intro a hae hab
      cases hf : q.first with
      | none => simp [TailQueue.insertHead, hf, Function.update_of_ne hae]
      | some b =>
        have hne' : a ≠ b := fun heq => hab (by rw [hf, heq]; rfl)
        simp [TailQueue.insertHead, hf, Function.update_of_ne hae, Function.update_of_ne hne']
  refine hspells.rep ?_
  cases xs with
  | nil =>
    have hf : q.first = none := h.first_eq
    simp [TailQueue.insertHead, hf, endCell]
  | cons a as =>
    have hf : q.first = some a := h.first_eq
    have hlast : (q.insertHead e).last = q.last := by simp [TailQueue.insertHead, hf]
    rw [hlast, h.last_eq]
    rfl

theorem insertTail (h : q.Rep xs) {e : α} (he : e ∉ xs) :
    ∃ q', q.insertTail e = some q' ∧ q'.Rep (xs ++ [e]) := by
  have hend : (.next e : Cell α) ≠ endCell .head xs := by
    intro heq
    rcases endCell_cases (.head : Cell α) xs with h' | ⟨a, ha, h'⟩
    · exact absurd (heq.trans h') (by simp)
    · obtain rfl : e = a := by
        have := heq.trans h'
        injection this
      exact he ha
  let q₁ : TailQueue α :=
    { q with
      next := Function.update q.next e none
      prev := Function.update q.prev e q.last }
  have hspells : q.Spells (xs ++ []) := by
    rw [List.append_nil]
    exact h.spells
  refine ⟨{ q₁.write (endCell .head xs) (some e) with last := some (.next e) }, ?_, ?_⟩
  · simp only [TailQueue.insertTail, h.last_eq, q₁]
  · refine Spells.rep (hspells.insert (by rwa [List.append_nil]) ?_ ?_ ?_ ?_ ?_ ?_) ?_
    · exact read_write_self ..
    · show (q₁.write _ _).prev e = _
      rw [write_prev, ← h.last_eq]
      exact Function.update_self ..
    · show (q₁.write _ _).read (.next e) = none
      rw [read_write_of_ne _ _ hend]
      exact Function.update_self ..
    · intro b hb
      cases hb
    · intro k hk hke
      refine (read_write_of_ne q₁ _ hk).trans ?_
      cases k with
      | head => rfl
      | next a => exact Function.update_of_ne (fun heq => hke (by rw [heq])) ..
    · intro a hae _
      show (q₁.write _ _).prev a = _
      rw [write_prev]
      exact Function.update_of_ne hae ..
    · rw [endCell_append]
      rfl

/-- The links after the element between `as` and `bs` was taken out. -/
theorem remove_split {as bs : List α} {e : α} (h : q.Rep (as ++ e :: bs)) :
    ∃ q', q.remove e = some q' ∧ q'.Rep (as ++ bs) := by
  have hn := h.spells.next_at
  have hp := h.spells.prev_at
  have hlast := h.last_eq
  rw [endCell_append] at hlast
  have heb : e ∉ bs := (List.nodup_cons.mp (List.nodup_append.mp h.nodup).2.1).1
  cases bs with
  | nil =>
    have hn' : q.next e = none := hn
    refine ⟨{ q with last := q.prev e }.write (endCell .head as) none, ?_, ?_⟩
    · simp only [TailQueue.remove, hn', hp]
    · refine Spells.rep (h.spells.erase (read_write_self ..) (fun b hb => by cases hb)
        (fun k hk => read_write_of_ne _ _ hk) fun a _ => ?_) ?_
      · rw [write_prev]
      · rw [write_last, List.append_nil]
        exact hp
  | cons b bs =>
    have hn' : q.next e = some b := hn
    have hbe : e ≠ b := fun heq => heb (heq ▸ List.mem_cons_self)
    refine ⟨{ q with prev := Function.update q.prev b (q.prev e) }.write (endCell .head as)
      (some b), ?_, ?_⟩
    · simp only [TailQueue.remove, hn', Function.update_of_ne hbe, hp]
    · refine Spells.rep (h.spells.erase (read_write_self ..) (fun x hx => ?_)
        (fun k hk => read_write_of_ne _ _ hk) fun a ha => ?_) ?_
      · obtain rfl := Option.some.inj hx
        rw [write_prev, ← hp]
        exact Function.update_self ..
      · have hab : a ≠ b := fun heq => ha (by rw [heq]; rfl)
        rw [write_prev]
        exact Function.update_of_ne hab ..
      · rw [write_last, endCell_append]
        exact hlast

theorem remove (h : q.Rep xs) {e : α} (he : e ∈ xs) :
    ∃ q', q.remove e = some q' ∧ q'.Rep (xs.erase e) := by
  obtain ⟨as, bs, rfl⟩ := List.append_of_mem he
  have hea : e ∉ as := by
    intro ha
    exact (List.nodup_append.mp h.nodup).2.2 e ha e List.mem_cons_self rfl
  obtain ⟨q', hq, hrep⟩ := h.remove_split
  refine ⟨q', hq, ?_⟩
  rw [List.erase_append_right _ hea, List.erase_cons_head]
  exact hrep

end Ops

end Rep
end TailQueue
end Lib
end RvMos
