/-
The macros of `include/queue.h`.

A heap has the words of one head and the elements that are in memory, each with the
two links of its field and whatever else it holds.  A macro reads and writes these
words one after the other, as its text does.  An access through a null pointer or to
an element that is not in memory has no result, so a run that has one has stayed
inside the heap; running a macro in a heap with fewer elements says which ones it
needs.
-/
import RvMos.Lib.Sys
import RvMos.Lib.TailQueue

namespace RvMos

open Lib

namespace Queue

/-- An access without a result, or a loop that has not ended. -/
inductive Fault where
  | null | wild | endless
  deriving DecidableEq, Repr

structure Elem (α β : Type) where
  next : Option α
  prev : Option (Cell α)
  rest : β

/-- `first` is `lh_first` or `tqh_first`; only a tail queue has `last`. -/
structure Heap (α β : Type) where
  first : Option α
  last : Option (Cell α)
  elem : α → Option (Elem α β)

abbrev Act (ε α β γ : Type) := Sys Fault ε (Heap α β) γ

open Sys

section Macros

variable {ε α β γ : Type} [DecidableEq α]

/-! ## Accesses -/

def Heap.withFirst (h : Heap α β) (v : Option α) : Heap α β := { h with first := v }

def Heap.withLast (h : Heap α β) (c : Option (Cell α)) : Heap α β := { h with last := c }

def Heap.withNext (h : Heap α β) (a : α) (v : Option α) : Heap α β :=
  { h with elem := Function.update h.elem a ((h.elem a).map fun x => { x with next := v }) }

def Heap.withPrev (h : Heap α β) (a : α) (c : Option (Cell α)) : Heap α β :=
  { h with elem := Function.update h.elem a ((h.elem a).map fun x => { x with prev := c }) }

def Heap.withRest (h : Heap α β) (a : α) (f : β → β) : Heap α β :=
  { h with elem := Function.update h.elem a ((h.elem a).map fun x => { x with rest := f x.rest }) }

def deref : Option γ → Act ε α β γ
  | none => halt .null
  | some a => pure a

def elemAt (a : α) : Act ε α β (Elem α β) := do
  match (← get).elem a with
  | some x => pure x
  | none => halt .wild

def getFirst : Act ε α β (Option α) := do pure (← get).first

def getLast : Act ε α β (Option (Cell α)) := do pure (← get).last

def getNext (a : α) : Act ε α β (Option α) := do pure (← elemAt a).next

def getPrev (a : α) : Act ε α β (Option (Cell α)) := do pure (← elemAt a).prev

def setFirst (v : Option α) : Act ε α β Unit := modify fun h => h.withFirst v

def setLast (c : Option (Cell α)) : Act ε α β Unit := modify fun h => h.withLast c

def setNext (a : α) (v : Option α) : Act ε α β Unit := do
  let _ ← elemAt a
  modify fun h => h.withNext a v

def setPrev (a : α) (c : Option (Cell α)) : Act ε α β Unit := do
  let _ ← elemAt a
  modify fun h => h.withPrev a c

def setRest (a : α) (f : β → β) : Act ε α β Unit := do
  let _ ← elemAt a
  modify fun h => h.withRest a f

/-- `*c = v`. -/
def store (c : Cell α) (v : Option α) : Act ε α β Unit :=
  match c with
  | .head => setFirst v
  | .next a => setNext a v

/-! ## Lists -/

/-- `LIST_INIT`. -/
def listInit : Act ε α β Unit := setFirst none

/-- `LIST_INSERT_AFTER`. -/
def listInsertAfter (listelm elm : α) : Act ε α β Unit := do
  setNext elm (← getNext listelm)
  setPrev (← deref (← getNext listelm)) (some (.next elm))
  setNext listelm (some elm)
  setPrev elm (some (.next listelm))

/-- `LIST_INSERT_BEFORE`. -/
def listInsertBefore (listelm elm : α) : Act ε α β Unit := do
  setPrev elm (← getPrev listelm)
  setNext elm (some listelm)
  store (← deref (← getPrev listelm)) (some elm)
  setPrev listelm (some (.next elm))

/-- `LIST_INSERT_HEAD`. -/
def listInsertHead (elm : α) : Act ε α β Unit := do
  let n ← getFirst
  setNext elm n
  when (n ≠ none) do
    setPrev (← deref (← getFirst)) (some (.next elm))
  setFirst (some elm)
  setPrev elm (some .head)

/-- `LIST_REMOVE`. -/
def listRemove (elm : α) : Act ε α β Unit := do
  when ((← getNext elm) ≠ none) do
    setPrev (← deref (← getNext elm)) (← getPrev elm)
  store (← deref (← getPrev elm)) (← getNext elm)

/-! ## Tail queues -/

/-- `TAILQ_INIT`. -/
def tailqInit : Act ε α β Unit := do
  setFirst none
  setLast (some .head)

/-- `TAILQ_INSERT_HEAD`. -/
def tailqInsertHead (elm : α) : Act ε α β Unit := do
  let n ← getFirst
  setNext elm n
  if n ≠ none then
    setPrev (← deref (← getFirst)) (some (.next elm))
  else setLast (some (.next elm))
  setFirst (some elm)
  setPrev elm (some .head)

/-- `TAILQ_INSERT_TAIL`. -/
def tailqInsertTail (elm : α) : Act ε α β Unit := do
  setNext elm none
  setPrev elm (← getLast)
  store (← deref (← getLast)) (some elm)
  setLast (some (.next elm))

/-- `TAILQ_REMOVE`. -/
def tailqRemove (elm : α) : Act ε α β Unit := do
  if (← getNext elm) ≠ none then
    setPrev (← deref (← getNext elm)) (← getPrev elm)
  else setLast (← getPrev elm)
  store (← deref (← getPrev elm)) (← getNext elm)

end Macros

/-! ## The words of a heap -/

section Words

variable {ε α β : Type} {h : Heap α β} {a b : α} {v : Option α} {c : Option (Cell α)}

/-- The link words, where an element that is not in memory has none. -/
def Heap.words (h : Heap α β) : TailQueue α where
  first := h.first
  last := h.last
  next a := (h.elem a).bind Elem.next
  prev a := (h.elem a).bind Elem.prev

def Heap.Holds (h : Heap α β) (a : α) : Prop := (h.elem a).isSome = true

@[simp] theorem words_withFirst : (h.withFirst v).words = { h.words with first := v } := rfl

@[simp] theorem words_withLast : (h.withLast c).words = { h.words with last := c } := rfl

@[simp] theorem holds_withFirst : (h.withFirst v).Holds b ↔ h.Holds b := Iff.rfl

@[simp] theorem holds_withLast : (h.withLast c).Holds b ↔ h.Holds b := Iff.rfl

variable [DecidableEq α]

/-- What the stores to an element have in common. -/
def Heap.change (h : Heap α β) (a : α) (f : Elem α β → Elem α β) : Heap α β :=
  { h with elem := Function.update h.elem a ((h.elem a).map f) }

section Change

variable {f : Elem α β → Elem α β}

theorem elem_change (h : Heap α β) (a b : α) (f : Elem α β → Elem α β) :
    (h.change a f).elem b = if b = a then (h.elem b).map f else h.elem b := by
  unfold Heap.change
  by_cases hb : b = a
  · rw [if_pos hb, hb]
    exact Function.update_self ..
  · rw [if_neg hb]
    exact Function.update_of_ne hb ..

theorem holds_change : (h.change a f).Holds b ↔ h.Holds b := by
  unfold Heap.Holds
  rw [elem_change]
  split
  · rw [Option.isSome_map]
  · exact Iff.rfl

/-- A field that the change leaves alone. -/
theorem bind_change {γ : Type} {g : Elem α β → Option γ} (hg : ∀ x, g (f x) = g x) :
    ((h.change a f).elem b).bind g = (h.elem b).bind g := by
  rw [elem_change]
  split
  · rw [Option.bind_map]
    exact congrArg _ (funext hg)
  · rfl

/-- A field that the change sets. -/
theorem bind_change_eq {γ : Type} {g : Elem α β → Option γ} {w : Option γ} (ha : h.Holds a)
    (hg : ∀ x, g (f x) = w) : (fun b => ((h.change a f).elem b).bind g) =
      Function.update (fun b => (h.elem b).bind g) a w := by
  obtain ⟨x, hx⟩ := Option.isSome_iff_exists.mp ha
  funext b
  rw [elem_change, Function.update_apply]
  by_cases hb : b = a
  · rw [if_pos hb, if_pos hb, hb, hx]
    exact hg x
  · rw [if_neg hb, if_neg hb]

end Change

theorem words_withNext (ha : h.Holds a) : (h.withNext a v).words =
    { h.words with next := Function.update h.words.next a v } := by
  unfold Heap.words
  congr 1
  · exact bind_change_eq ha fun _ => rfl
  · funext b
    exact bind_change (h := h) fun _ => rfl

theorem words_withPrev (ha : h.Holds a) : (h.withPrev a c).words =
    { h.words with prev := Function.update h.words.prev a c } := by
  unfold Heap.words
  congr 1
  · funext b
    exact bind_change (h := h) fun _ => rfl
  · exact bind_change_eq ha fun _ => rfl

@[simp] theorem words_withRest {f : β → β} : (h.withRest a f).words = h.words := by
  unfold Heap.words
  congr 1
  · funext b
    exact bind_change (h := h) fun _ => rfl
  · funext b
    exact bind_change (h := h) fun _ => rfl

theorem rest_withRest {f : β → β} : ((h.withRest a f).elem b).map Elem.rest =
    if b = a then ((h.elem b).map Elem.rest).map f else (h.elem b).map Elem.rest := by
  have helem := elem_change h a b fun x => { x with rest := f x.rest }
  refine (congrArg (Option.map Elem.rest) helem).trans ?_
  by_cases hb : b = a
  · rw [if_pos hb, if_pos hb, Option.map_map, Option.map_map]
    rfl
  · rw [if_neg hb, if_neg hb]

@[simp] theorem holds_withRest {f : β → β} : (h.withRest a f).Holds b ↔ h.Holds b :=
  holds_change (h := h)

@[simp] theorem holds_withNext : (h.withNext a v).Holds b ↔ h.Holds b := holds_change (h := h)

@[simp] theorem holds_withPrev : (h.withPrev a c).Holds b ↔ h.Holds b := holds_change (h := h)

end Words

/-! ## Rules of the accesses -/

section Rules

variable {ε α β γ : Type} {h : Heap α β} {a b : α} {v : Option α} {c : Option (Cell α)}
  {E : Fault → Prop}

theorem wp_deref {x : γ} {Q : Except ε γ → Heap α β → Prop} (hQ : Q (.ok x) h) :
    (deref (some x) : Act ε α β γ).wp Q E h := wp_pure.mpr hQ

theorem wp_elemAt {x : Elem α β} {Q : Except ε (Elem α β) → Heap α β → Prop}
    (ha : h.elem a = some x) (hQ : Q (.ok x) h) : (elemAt a).wp Q E h := by
  unfold elemAt
  rw [wp_get_bind, ha]
  exact wp_pure.mpr hQ

theorem wp_getFirst {Q : Except ε (Option α) → Heap α β → Prop} (hQ : Q (.ok h.first) h) :
    getFirst.wp Q E h := by
  unfold getFirst
  rw [wp_get_bind]
  exact wp_pure.mpr hQ

theorem wp_getLast {Q : Except ε (Option (Cell α)) → Heap α β → Prop} (hQ : Q (.ok h.last) h) :
    getLast.wp Q E h := by
  unfold getLast
  rw [wp_get_bind]
  exact wp_pure.mpr hQ

theorem wp_getNext {Q : Except ε (Option α) → Heap α β → Prop} (ha : h.Holds a)
    (hQ : Q (.ok (h.words.next a)) h) : (getNext a).wp Q E h := by
  obtain ⟨x, hx⟩ := Option.isSome_iff_exists.mp ha
  have hn : h.words.next a = x.next := congrArg (·.bind Elem.next) hx
  unfold getNext
  rw [wp_bind]
  refine wp_elemAt hx (wp_pure.mpr ?_)
  rwa [← hn]

theorem wp_getPrev {Q : Except ε (Option (Cell α)) → Heap α β → Prop} (ha : h.Holds a)
    (hQ : Q (.ok (h.words.prev a)) h) : (getPrev a).wp Q E h := by
  obtain ⟨x, hx⟩ := Option.isSome_iff_exists.mp ha
  have hp : h.words.prev a = x.prev := congrArg (·.bind Elem.prev) hx
  unfold getPrev
  rw [wp_bind]
  refine wp_elemAt hx (wp_pure.mpr ?_)
  rwa [← hp]

variable [DecidableEq α]

theorem wp_setNext {Q : Except ε Unit → Heap α β → Prop} (ha : h.Holds a)
    (hQ : Q (.ok ()) (h.withNext a v)) : (setNext a v).wp Q E h := by
  obtain ⟨x, hx⟩ := Option.isSome_iff_exists.mp ha
  unfold setNext
  rw [wp_bind]
  exact wp_elemAt hx (wp_modify.mpr hQ)

theorem wp_setPrev {Q : Except ε Unit → Heap α β → Prop} (ha : h.Holds a)
    (hQ : Q (.ok ()) (h.withPrev a c)) : (setPrev a c).wp Q E h := by
  obtain ⟨x, hx⟩ := Option.isSome_iff_exists.mp ha
  unfold setPrev
  rw [wp_bind]
  exact wp_elemAt hx (wp_modify.mpr hQ)

theorem wp_setRest {f : β → β} {Q : Except ε Unit → Heap α β → Prop} (ha : h.Holds a)
    (hQ : Q (.ok ()) (h.withRest a f)) : (setRest a f).wp Q E h := by
  obtain ⟨x, hx⟩ := Option.isSome_iff_exists.mp ha
  unfold setRest
  rw [wp_bind]
  exact wp_elemAt hx (wp_modify.mpr hQ)

/-- The element that a cell belongs to is in memory. -/
def Heap.HoldsCell (h : Heap α β) (k : Cell α) : Prop := ∀ a, k = .next a → h.Holds a

def Heap.withCell (h : Heap α β) (k : Cell α) (v : Option α) : Heap α β :=
  match k with
  | .head => h.withFirst v
  | .next a => h.withNext a v

theorem words_withCell {k : Cell α} (hk : h.HoldsCell k) :
    (h.withCell k v).words = h.words.write k v := by
  cases k with
  | head => rfl
  | next a => exact words_withNext (hk a rfl)

@[simp] theorem holds_withCell {k : Cell α} : (h.withCell k v).Holds b ↔ h.Holds b := by
  cases k with
  | head => exact Iff.rfl
  | next a => exact holds_withNext

theorem wp_store {k : Cell α} {Q : Except ε Unit → Heap α β → Prop} (hk : h.HoldsCell k)
    (hQ : Q (.ok ()) (h.withCell k v)) : (store k v).wp Q E h := by
  cases k with
  | head => exact wp_modify.mpr hQ
  | next a => exact wp_setNext (hk a rfl) hQ

/-- The back link of what follows, if anything does. -/
def Heap.withBack (h : Heap α β) (b : Option α) (c : Option (Cell α)) : Heap α β :=
  match b with
  | none => h
  | some b => h.withPrev b c

@[simp] theorem holds_withBack {o : Option α} : (h.withBack o c).Holds b ↔ h.Holds b := by
  cases o with
  | none => exact Iff.rfl
  | some a => exact holds_withPrev

/-! ## Words after an access -/

theorem next_withNext (ha : h.Holds a) :
    (h.withNext a v).words.next b = if b = a then v else h.words.next b := by
  rw [words_withNext ha]
  exact Function.update_apply ..

theorem prev_withPrev (ha : h.Holds a) :
    (h.withPrev a c).words.prev b = if b = a then c else h.words.prev b := by
  rw [words_withPrev ha]
  exact Function.update_apply ..

theorem read_withCell {k k' : Cell α} (hk : h.HoldsCell k) :
    (h.withCell k v).words.read k' = if k' = k then v else h.words.read k' := by
  rw [words_withCell hk]
  by_cases hkk : k' = k
  · rw [if_pos hkk, hkk, TailQueue.read_write_self]
  · rw [if_neg hkk, TailQueue.read_write_of_ne _ _ hkk]

theorem read_withNext {k : Cell α} (ha : h.Holds a) :
    (h.withNext a v).words.read k = if k = .next a then v else h.words.read k :=
  read_withCell (k := .next a) fun b hb => by
    injection hb with hb
    exact hb ▸ ha

theorem read_withFirst {k : Cell α} :
    (h.withFirst v).words.read k = if k = .head then v else h.words.read k :=
  read_withCell (k := .head) fun b hb => by cases hb

@[simp] theorem prev_withNext : (h.withNext a v).words.prev b = h.words.prev b := by
  by_cases ha : h.Holds a
  · rw [words_withNext ha]
  · have hnone : h.elem a = none := Option.not_isSome_iff_eq_none.mp ha
    unfold Heap.words Heap.withNext
    by_cases hb : b = a
    · simp [hb, hnone]
    · simp [Function.update_of_ne hb]

@[simp] theorem read_withPrev {k : Cell α} : (h.withPrev a c).words.read k = h.words.read k := by
  cases k with
  | head => rfl
  | next b =>
    unfold Heap.words Heap.withPrev TailQueue.read
    by_cases hb : b = a
    · cases hx : h.elem a <;> simp [hb, hx]
    · simp [Function.update_of_ne hb]

omit [DecidableEq α] in
@[simp] theorem prev_withFirst : (h.withFirst v).words.prev b = h.words.prev b := rfl

@[simp] theorem prev_withCell {k : Cell α} : (h.withCell k v).words.prev b = h.words.prev b := by
  cases k with
  | head => rfl
  | next a => exact prev_withNext

theorem prev_withBack {o : Option α} (ho : ∀ x ∈ o, h.Holds x) :
    (h.withBack o c).words.prev a = if a ∈ o then c else h.words.prev a := by
  cases o with
  | none => rfl
  | some b =>
    rw [Heap.withBack, prev_withPrev (ho b rfl)]
    exact if_congr (by simp [eq_comm]) rfl rfl

@[simp] theorem read_withBack {o : Option α} {k : Cell α} :
    (h.withBack o c).words.read k = h.words.read k := by
  cases o with
  | none => rfl
  | some b => exact read_withPrev

end Rules

/-! ## Lists -/

/-- A well-formed `LIST`: its elements are in memory and the words spell it. -/
structure Lists {α β : Type} (h : Heap α β) (xs : List α) : Prop where
  held : ∀ a ∈ xs, h.Holds a
  spells : h.words.Spells xs

section Lists

variable {ε α β : Type} {h : Heap α β} {xs as bs : List α} {a b e l : α}

theorem Lists.holdsCell (hl : Lists h (as ++ bs)) : h.HoldsCell (TailQueue.endCell .head as) := by
  intro a ha
  rcases TailQueue.endCell_cases (.head : Cell α) as with h' | ⟨b, hb, h'⟩
  · exact absurd (h'.symm.trans ha) (by simp)
  · obtain rfl : b = a := by
      have := h'.symm.trans ha
      injection this
    exact hl.held b (List.mem_append_left bs hb)

theorem Lists.first_eq (hl : Lists h xs) : h.first = xs.head? := by
  have hspells : h.words.Spells ([] ++ xs) := hl.spells
  exact hspells.read_at

/-- The link of an element leads to the next one. -/
theorem Lists.next_getElem {m : ℕ} (hl : Lists h xs) (ha : xs[m]? = some a) :
    h.words.next a = xs[m + 1]? := by
  obtain ⟨hm, rfl⟩ := List.getElem?_eq_some_iff.mp ha
  have hsplit : h.words.Spells (xs.take m ++ xs[m] :: xs.drop (m + 1)) := by
    rw [← List.drop_eq_getElem_cons hm, List.take_append_drop]
    exact hl.spells
  rw [hsplit.next_at, List.head?_drop]

theorem Lists.holds_getElem {m : ℕ} (hl : Lists h xs) (ha : xs[m]? = some a) : h.Holds a :=
  hl.held a (List.mem_of_getElem? ha)

/-- What follows an element is in memory, and is not that element. -/
theorem Lists.holds_after (hl : Lists h (as ++ e :: bs)) : ∀ x ∈ bs.head?, h.Holds x := fun x hx =>
  hl.held x (List.mem_append_right as (List.mem_cons_of_mem e (List.mem_of_mem_head? hx)))

theorem Lists.not_after (hl : Lists h (as ++ e :: bs)) : e ∉ bs.head? := fun he =>
  (List.nodup_cons.mp (List.nodup_append.mp hl.spells.nodup).2.1).1 (List.mem_of_mem_head? he)

theorem Lists.holds_first (hl : Lists h xs) : ∀ x ∈ h.first, h.Holds x := fun x hx =>
  hl.held x (List.mem_of_mem_head? (hl.first_eq ▸ hx))

theorem lists_withFirst : Lists (h.withFirst none) [] :=
  ⟨fun _ ha => absurd ha List.not_mem_nil, List.nodup_nil, trivial, rfl⟩

variable [DecidableEq α]

/-- The heap after `LIST_INSERT_HEAD`. -/
def Heap.insertedHead (h : Heap α β) (e : α) : Heap α β :=
  (((h.withNext e h.first).withBack h.first (some (.next e))).withFirst (some e)).withPrev e
    (some .head)

theorem listInsertHead_eq (hl : Lists h xs) (he : h.Holds e) :
    (listInsertHead e : Act ε α β Unit) h = .ok (.ok (), h.insertedHead e) := by
  refine wp_eq ?_
  have hfirst : ∀ x, h.first = some x → h.Holds x := hl.holds_first
  unfold listInsertHead
  rw [wp_bind]
  refine wp_getFirst ?_
  simp only
  rw [wp_bind]
  refine wp_setNext he ?_
  simp only
  rw [wp_bind, wp_when]
  have hrest : ∀ h', h'.Holds e → (h'.withFirst (some e)).withPrev e (some .head) =
      h.insertedHead e → (do
        setFirst (some e)
        setPrev e (some .head) : Act ε α β Unit).wp
          (fun x t => x = .ok () ∧ t = h.insertedHead e) (fun _ => False) h' := by
    intro h' he' heq
    unfold setFirst
    rw [wp_modify_bind]
    exact wp_setPrev he' ⟨rfl, heq⟩
  cases hf : h.first with
  | none =>
    refine ⟨fun hne => absurd rfl hne, fun _ => hrest _ (holds_withNext.mpr he) ?_⟩
    unfold Heap.insertedHead
    rw [hf]
    rfl
  | some x =>
    refine ⟨fun _ => ?_, fun hne => absurd (by simp) hne⟩
    rw [wp_bind]
    refine wp_getFirst ?_
    simp only
    rw [wp_bind]
    show (deref h.first : Act ε α β α).wp _ _ _
    rw [hf]
    refine wp_deref (wp_setPrev (holds_withNext.mpr (hfirst x hf)) ?_)
    refine hrest _ (holds_withPrev.mpr (holds_withNext.mpr he)) ?_
    unfold Heap.insertedHead
    rw [hf]
    rfl

theorem lists_insertedHead (hl : Lists h xs) (he : h.Holds e) (hnew : e ∉ xs) :
    Lists (h.insertedHead e) (e :: xs) := by
  have hback : ∀ x ∈ h.first, (h.withNext e h.first).Holds x := fun x hx =>
    holds_withNext.mpr (hl.holds_first x hx)
  have hne : ∀ x ∈ h.first, x ≠ e := fun x hx heq =>
    hnew (heq ▸ List.mem_of_mem_head? (hl.first_eq ▸ hx))
  have hprev : ∀ x, (h.insertedHead e).words.prev x = if x = e then some .head
      else if x ∈ h.first then some (.next e) else h.words.prev x := by
    intro x
    unfold Heap.insertedHead
    rw [prev_withPrev (by simpa using he), prev_withFirst, prev_withBack hback, prev_withNext]
  have hread : ∀ k, (h.insertedHead e).words.read k = if k = .head then some e
      else if k = .next e then h.first else h.words.read k := by
    intro k
    unfold Heap.insertedHead
    rw [read_withPrev, read_withFirst, read_withBack, read_withNext he]
  have hspells : h.words.Spells ([] ++ xs) := hl.spells
  refine ⟨fun a ha => ?_, hspells.insert hnew ?_ ?_ ?_ ?_ ?_ ?_⟩
  · unfold Heap.insertedHead
    simp only [holds_withPrev, holds_withFirst, holds_withBack, holds_withNext]
    rcases List.mem_cons.mp ha with rfl | ha
    · exact he
    · exact hl.held a ha
  · exact (hread .head).trans (if_pos rfl)
  · rw [hprev, if_pos rfl]
    rfl
  · rw [← hl.first_eq]
    exact (hread (.next e)).trans (by simp)
  · rw [← hl.first_eq]
    intro b hb
    rw [hprev, if_neg (hne b hb), if_pos hb]
  · intro k hk hke
    have hk' : k ≠ .head := hk
    rw [hread, if_neg hk', if_neg hke]
  · rw [← hl.first_eq]
    intro a hae hab
    rw [hprev, if_neg hae, if_neg hab]

/-- The heap after `LIST_INSERT_BEFORE` in front of an element that cell `c` leads to. -/
def Heap.insertedBefore (h : Heap α β) (c : Cell α) (l e : α) : Heap α β :=
  (((h.withPrev e (some c)).withNext e (some l)).withCell c (some e)).withPrev l (some (.next e))

theorem listInsertBefore_eq (hl : Lists h (as ++ l :: bs)) (he : h.Holds e) (hne : l ≠ e) :
    (listInsertBefore l e : Act ε α β Unit) h =
      .ok (.ok (), h.insertedBefore (TailQueue.endCell .head as) l e) := by
  have hheld : h.Holds l := hl.held l (List.mem_append_right as List.mem_cons_self)
  have hprev := hl.spells.prev_at
  have hcell : Heap.HoldsCell ((h.withPrev e (some (TailQueue.endCell .head as))).withNext e (some l))
      (TailQueue.endCell .head as) := fun a ha =>
    holds_withNext.mpr (holds_withPrev.mpr (hl.holdsCell a ha))
  refine wp_eq ?_
  unfold listInsertBefore
  rw [wp_bind]
  refine wp_getPrev hheld ?_
  simp only [hprev]
  rw [wp_bind]
  refine wp_setPrev he ?_
  simp only
  rw [wp_bind]
  refine wp_setNext (holds_withPrev.mpr he) ?_
  simp only
  rw [wp_bind]
  refine wp_getPrev (holds_withNext.mpr (holds_withPrev.mpr hheld)) ?_
  simp only
  rw [prev_withNext, prev_withPrev he, if_neg hne, hprev, wp_bind]
  refine wp_deref ?_
  simp only
  rw [wp_bind]
  refine wp_store hcell (wp_setPrev ?_ ⟨rfl, rfl⟩)
  exact holds_withCell.mpr (holds_withNext.mpr (holds_withPrev.mpr hheld))

theorem lists_insertedBefore (hl : Lists h (as ++ l :: bs)) (he : h.Holds e)
    (hnew : e ∉ as ++ l :: bs) :
    Lists (h.insertedBefore (TailQueue.endCell .head as) l e) (as ++ e :: l :: bs) := by
  have hheld : h.Holds l := hl.held l (List.mem_append_right as List.mem_cons_self)
  have hle : l ≠ e := fun heq => hnew (heq ▸ List.mem_append_right as List.mem_cons_self)
  obtain ⟨c, hc⟩ : ∃ c, TailQueue.endCell .head as = c := ⟨_, rfl⟩
  have hcell : h.HoldsCell c := hc ▸ hl.holdsCell
  have hnd : (as ++ [e]).Nodup := by
    refine List.nodup_append.mpr ⟨(List.nodup_append.mp hl.spells.nodup).1,
      List.nodup_cons.mpr ⟨List.not_mem_nil, List.nodup_nil⟩, fun a ha b hb hab => hnew ?_⟩
    rw [← List.mem_singleton.mp hb, ← hab]
    exact List.mem_append_left _ ha
  have hce : c ≠ .next e := fun heq =>
    TailQueue.Spells.cell_ne hnd List.mem_cons_self (hc.trans heq)
  have hprev : ∀ x, (h.insertedBefore c l e).words.prev x = if x = l then some (.next e)
      else if x = e then some c else h.words.prev x := by
    intro x
    unfold Heap.insertedBefore
    rw [prev_withPrev (by simpa using hheld), prev_withCell, prev_withNext, prev_withPrev he]
  have hread : ∀ k, (h.insertedBefore c l e).words.read k = if k = c then some e
      else if k = .next e then some l else h.words.read k := by
    intro k
    unfold Heap.insertedBefore
    rw [read_withPrev, read_withCell fun a ha => by simpa using hcell a ha,
      read_withNext (by simpa using he), read_withPrev]
  rw [hc]
  refine ⟨fun a ha => ?_, hl.spells.insert hnew ?_ ?_ ?_ ?_ ?_ ?_⟩
  · unfold Heap.insertedBefore
    simp only [holds_withPrev, holds_withCell, holds_withNext]
    rcases List.mem_append.mp ha with ha | ha
    · exact hl.held a (List.mem_append_left _ ha)
    · rcases List.mem_cons.mp ha with rfl | ha
      · exact he
      · exact hl.held a (List.mem_append_right as ha)
  · rw [hc, hread, if_pos rfl]
  · rw [hprev, if_neg hle.symm, if_pos rfl, hc]
  · exact (hread (.next e)).trans (by rw [if_neg hce.symm, if_pos rfl, List.head?_cons])
  · intro b hb
    obtain rfl := Option.some.inj hb
    rw [hprev, if_pos rfl]
  · intro k hk hke
    rw [hread, if_neg (hc ▸ hk), if_neg hke]
  · intro a hae hab
    rw [hprev, if_neg fun heq => hab (by rw [heq]; rfl), if_neg hae]

/-- The heap after `LIST_INSERT_AFTER`, when `b` follows. -/
def Heap.insertedAfter (h : Heap α β) (l e b : α) : Heap α β :=
  (((h.withNext e (some b)).withPrev b (some (.next e))).withNext l (some e)).withPrev e
    (some (.next l))

theorem listInsertAfter_eq (hl : Lists h (as ++ l :: b :: bs)) (he : h.Holds e) (hne : l ≠ e) :
    (listInsertAfter l e : Act ε α β Unit) h = .ok (.ok (), h.insertedAfter l e b) := by
  have hheld : h.Holds l := hl.held l (List.mem_append_right as List.mem_cons_self)
  have hheldb : h.Holds b :=
    hl.held b (List.mem_append_right as (List.mem_cons_of_mem l List.mem_cons_self))
  have hnext : h.words.next l = some b := hl.spells.next_at
  have hnext' : (h.withNext e (some b)).words.next l = some b := by
    rw [next_withNext he, if_neg hne, hnext]
  refine wp_eq ?_
  unfold listInsertAfter
  rw [wp_bind]
  refine wp_getNext hheld ?_
  simp only [hnext]
  rw [wp_bind]
  refine wp_setNext he ?_
  simp only
  rw [wp_bind]
  refine wp_getNext (holds_withNext.mpr hheld) ?_
  simp only
  rw [hnext', wp_bind]
  refine wp_deref ?_
  simp only
  rw [wp_bind]
  refine wp_setPrev (holds_withNext.mpr hheldb) ?_
  simp only
  rw [wp_bind]
  refine wp_setNext (by simpa using hheld) (wp_setPrev (by simpa using he) ⟨rfl, rfl⟩)

/-- Behind the last element the macro follows the null pointer. -/
theorem listInsertAfter_last (hl : Lists h (as ++ [l])) (he : h.Holds e) (hne : l ≠ e) :
    (listInsertAfter l e : Act ε α β Unit) h = .error .null := by
  have hheld : h.Holds l := hl.held l (List.mem_append_right as List.mem_cons_self)
  have hnext : h.words.next l = none := hl.spells.next_at
  have hnext' : (h.withNext e none).words.next l = none := by
    rw [next_withNext he, if_neg hne, hnext]
  have hstop : (listInsertAfter l e : Act ε α β Unit).wp (fun _ _ => False) (fun c => c = .null) h := by
    unfold listInsertAfter
    rw [wp_bind]
    refine wp_getNext hheld ?_
    simp only [hnext]
    rw [wp_bind]
    refine wp_setNext he ?_
    simp only
    rw [wp_bind]
    refine wp_getNext (holds_withNext.mpr hheld) ?_
    simp only
    rw [hnext', wp_bind]
    exact wp_halt.mpr rfl
  cases hrun : (listInsertAfter l e : Act ε α β Unit) h with
  | error c => rw [wp_error hstop hrun]
  | ok x => exact (wp_ok hstop hrun).elim

theorem lists_insertedAfter (hl : Lists h (as ++ l :: b :: bs)) (he : h.Holds e)
    (hnew : e ∉ as ++ l :: b :: bs) : Lists (h.insertedAfter l e b) (as ++ l :: e :: b :: bs) := by
  have hsplit : as ++ l :: b :: bs = (as ++ [l]) ++ b :: bs := by simp
  have hmeml : l ∈ as ++ l :: b :: bs := List.mem_append_right as List.mem_cons_self
  have hmemb : b ∈ as ++ l :: b :: bs :=
    List.mem_append_right as (List.mem_cons_of_mem l List.mem_cons_self)
  have hle : l ≠ e := fun heq => hnew (heq ▸ hmeml)
  have hbe : b ≠ e := fun heq => hnew (heq ▸ hmemb)
  have hend : TailQueue.endCell .head (as ++ [l]) = .next l := by
    rw [TailQueue.endCell_append]
    rfl
  have hprev : ∀ x, (h.insertedAfter l e b).words.prev x = if x = e then some (.next l)
      else if x = b then some (.next e) else h.words.prev x := by
    intro x
    unfold Heap.insertedAfter
    rw [prev_withPrev (by simpa using he), prev_withNext,
      prev_withPrev (by simpa using hl.held b hmemb), prev_withNext]
  have hread : ∀ k, (h.insertedAfter l e b).words.read k = if k = .next l then some e
      else if k = .next e then some b else h.words.read k := by
    intro k
    unfold Heap.insertedAfter
    rw [read_withPrev, read_withNext (by simpa using hl.held l hmeml), read_withPrev, read_withNext he]
  have hspells := hl.spells
  rw [hsplit] at hspells hnew
  have hgoal : (h.insertedAfter l e b).words.Spells ((as ++ [l]) ++ e :: b :: bs) := by
    refine hspells.insert hnew ?_ ?_ ?_ ?_ ?_ ?_
    · rw [hend, hread, if_pos rfl]
    · rw [hprev, if_pos rfl, hend]
    · refine (hread (.next e)).trans ?_
      rw [if_neg fun heq => hle (Cell.next.inj heq).symm, if_pos rfl, List.head?_cons]
    · intro x hx
      obtain rfl := Option.some.inj hx
      rw [hprev, if_neg hbe, if_pos rfl]
    · intro k hk hke
      rw [hread, if_neg (hend ▸ hk), if_neg hke]
    · intro a hae hab
      rw [hprev, if_neg hae, if_neg fun heq => hab (by rw [heq]; rfl)]
  refine ⟨fun a ha => ?_, by simpa using hgoal⟩
  unfold Heap.insertedAfter
  simp only [holds_withPrev, holds_withNext]
  rcases List.mem_append.mp ha with ha | ha
  · exact hl.held a (List.mem_append_left _ ha)
  · rcases List.mem_cons.mp ha with rfl | ha
    · exact hl.held a hmeml
    · rcases List.mem_cons.mp ha with rfl | ha
      · exact he
      · exact hl.held a (List.mem_append_right as (List.mem_cons_of_mem l ha))

/-- The heap after `LIST_REMOVE` of an element between cell `c` and `n`. -/
def Heap.removed (h : Heap α β) (c : Cell α) (n : Option α) : Heap α β :=
  (h.withBack n (some c)).withCell c n

theorem listRemove_eq (hl : Lists h (as ++ e :: bs)) :
    (listRemove e : Act ε α β Unit) h =
      .ok (.ok (), h.removed (TailQueue.endCell .head as) bs.head?) := by
  have hmem : e ∈ as ++ e :: bs := List.mem_append_right as List.mem_cons_self
  have hheld : h.Holds e := hl.held e hmem
  have hnext : h.words.next e = bs.head? := hl.spells.next_at
  have hprev := hl.spells.prev_at
  have hbs := hl.holds_after
  have heb := hl.not_after
  refine wp_eq ?_
  unfold listRemove
  rw [wp_bind]
  refine wp_getNext hheld ?_
  simp only
  rw [wp_bind, wp_when]
  have hrest : ∀ h' : Heap α β, h' = h.withBack bs.head? (some (TailQueue.endCell .head as)) → (do
      store (← deref (← getPrev e)) (← getNext e) : Act ε α β Unit).wp
        (fun x t => x = .ok () ∧ t = h.removed (TailQueue.endCell .head as) bs.head?)
        (fun _ => False) h' := by
    rintro h' rfl
    rw [wp_bind]
    refine wp_getPrev (holds_withBack.mpr hheld) ?_
    simp only
    rw [prev_withBack hbs, if_neg heb, hprev, wp_bind]
    refine wp_deref ?_
    simp only
    rw [wp_bind]
    refine wp_getNext (holds_withBack.mpr hheld) ?_
    have hread : (h.withBack bs.head? (some (TailQueue.endCell .head as))).words.next e = bs.head? :=
      (read_withBack (k := .next e)).trans hnext
    simp only [hread]
    exact wp_store (fun a ha => holds_withBack.mpr (hl.holdsCell a ha)) ⟨rfl, rfl⟩
  cases hb : bs.head? with
  | none =>
    refine ⟨fun hne => absurd (hnext.trans hb) hne, fun _ => ?_⟩
    rw [← hb]
    exact hrest h (by rw [hb]; rfl)
  | some b =>
    refine ⟨fun _ => ?_, fun hne => absurd (by rw [hnext, hb]; simp) hne⟩
    rw [← hb, wp_bind]
    refine wp_getNext hheld ?_
    simp only
    rw [hnext, hb, wp_bind]
    refine wp_deref ?_
    simp only
    rw [wp_bind]
    refine wp_getPrev hheld ?_
    simp only [hprev]
    refine wp_setPrev (hbs b hb) ?_
    rw [← hb]
    exact hrest _ (by rw [hb]; rfl)

theorem lists_removed (hl : Lists h (as ++ e :: bs)) :
    Lists (h.removed (TailQueue.endCell .head as) bs.head?) (as ++ bs) := by
  have hbs := hl.holds_after
  have hread : ∀ k, (h.removed (TailQueue.endCell .head as) bs.head?).words.read k =
      if k = TailQueue.endCell .head as then bs.head? else h.words.read k := by
    intro k
    unfold Heap.removed
    rw [read_withCell fun a ha => holds_withBack.mpr (hl.holdsCell a ha), read_withBack]
  have hprev : ∀ x, (h.removed (TailQueue.endCell .head as) bs.head?).words.prev x =
      if x ∈ bs.head? then some (TailQueue.endCell .head as) else h.words.prev x := by
    intro x
    unfold Heap.removed
    rw [prev_withCell, prev_withBack hbs]
  refine ⟨fun a ha => ?_, hl.spells.erase ?_ ?_ ?_ ?_⟩
  · unfold Heap.removed
    simp only [holds_withCell, holds_withBack]
    refine hl.held a ?_
    rcases List.mem_append.mp ha with ha | ha
    · exact List.mem_append_left _ ha
    · exact List.mem_append_right as (List.mem_cons_of_mem e ha)
  · rw [hread, if_pos rfl]
  · intro b hb
    rw [hprev, if_pos hb]
  · intro k hk
    rw [hread, if_neg hk]
  · intro a ha
    rw [hprev, if_neg ha]

end Lists

/-! ## What an operation reaches -/

section Reach

variable {α β : Type} {h h' h'' : Heap α β} {F : List α} {a b : α} {v : Option α}
  {c : Option (Cell α)}

/-- Outside `F` every element is as it was, and in it every field but the links is. -/
structure Within (F : List α) (h h' : Heap α β) : Prop where
  elem : ∀ a ∉ F, h'.elem a = h.elem a
  rest : ∀ a, (h'.elem a).map Elem.rest = (h.elem a).map Elem.rest

theorem within_self : Within F h h := ⟨fun _ _ => rfl, fun _ => rfl⟩

theorem Within.trans (h₁ : Within F h h') (h₂ : Within F h' h'') : Within F h h'' :=
  ⟨fun a ha => (h₂.elem a ha).trans (h₁.elem a ha), fun a => (h₂.rest a).trans (h₁.rest a)⟩

theorem Within.withFirst (hw : Within F h h') : Within F h (h'.withFirst v) := ⟨hw.elem, hw.rest⟩

theorem Within.withLast (hw : Within F h h') : Within F h (h'.withLast c) := ⟨hw.elem, hw.rest⟩

variable [DecidableEq α]

theorem Within.change {f : Elem α β → Elem α β} (hw : Within F h h') (ha : a ∈ F)
    (hf : ∀ x, (f x).rest = x.rest) : Within F h (h'.change a f) := by
  refine hw.trans ⟨fun b hb => ?_, fun b => ?_⟩
  · have hne : b ≠ a := fun heq => hb (heq ▸ ha)
    rw [elem_change, if_neg hne]
  · rw [elem_change]
    split
    · rw [Option.map_map]
      exact congrArg (Option.map · (h'.elem b)) (funext hf)
    · rfl

theorem Within.withNext (hw : Within F h h') (ha : a ∈ F) : Within F h (h'.withNext a v) :=
  hw.change ha fun _ => rfl

theorem Within.withPrev (hw : Within F h h') (ha : a ∈ F) : Within F h (h'.withPrev a c) :=
  hw.change ha fun _ => rfl

theorem Within.withBack {o : Option α} (hw : Within F h h') (ho : ∀ x ∈ o, x ∈ F) :
    Within F h (h'.withBack o c) := by
  cases o with
  | none => exact hw
  | some b => exact hw.withPrev (ho b rfl)

theorem Within.withCell {k : Cell α} (hw : Within F h h') (hk : ∀ x, k = .next x → x ∈ F) :
    Within F h (h'.withCell k v) := by
  cases k with
  | head => exact hw.withFirst
  | next a => exact hw.withNext (hk a rfl)

/-- The heap with the elements of `F` alone in memory. -/
def Heap.only (h : Heap α β) (F : List α) : Heap α β :=
  { h with elem := fun a => if a ∈ F then h.elem a else none }

@[simp] theorem only_withFirst : (h.withFirst v).only F = (h.only F).withFirst v := rfl

theorem only_change {f : Elem α β → Elem α β} : (h.change a f).only F = (h.only F).change a f := by
  have helem : ((h.change a f).only F).elem = ((h.only F).change a f).elem := by
    funext b
    simp only [Heap.only, elem_change]
    by_cases hb : b ∈ F
    · simp only [if_pos hb]
    · simp only [if_neg hb, Option.map_none, ite_self]
  exact congrArg (Heap.mk h.first h.last) helem

@[simp] theorem only_withNext : (h.withNext a v).only F = (h.only F).withNext a v :=
  only_change (h := h)

@[simp] theorem only_withPrev : (h.withPrev a c).only F = (h.only F).withPrev a c :=
  only_change (h := h)

@[simp] theorem only_withBack {o : Option α} : (h.withBack o c).only F = (h.only F).withBack o c := by
  cases o with
  | none => rfl
  | some b => exact only_withPrev

@[simp] theorem only_withCell {k : Cell α} : (h.withCell k v).only F = (h.only F).withCell k v := by
  cases k with
  | head => rfl
  | next a => exact only_withNext

theorem only_elem (ha : a ∈ F) : (h.only F).elem a = h.elem a := if_pos ha

theorem holds_only (ha : a ∈ F) : (h.only F).Holds a ↔ h.Holds a := by
  unfold Heap.Holds
  rw [only_elem ha]

theorem next_only (ha : a ∈ F) : (h.only F).words.next a = h.words.next a := by
  show ((h.only F).elem a).bind Elem.next = _
  rw [only_elem ha]
  rfl

theorem prev_only (ha : a ∈ F) : (h.only F).words.prev a = h.words.prev a := by
  show ((h.only F).elem a).bind Elem.prev = _
  rw [only_elem ha]
  rfl

theorem Lists.only {xs : List α} (hl : Lists h xs) (hF : ∀ a ∈ xs, a ∈ F) : Lists (h.only F) xs :=
  ⟨fun a ha => (holds_only (hF a ha)).mpr (hl.held a ha),
    hl.spells.congr rfl (fun a ha => next_only (hF a ha)) fun a ha => prev_only (hF a ha)⟩

end Reach

/-! ## The operations on lists -/

inductive ListOp (α : Type) where
  | init
  | insertHead (elm : α)
  | insertBefore (listelm elm : α)
  | insertAfter (listelm elm : α)
  | remove (elm : α)
  deriving DecidableEq, Repr

namespace ListOp

variable {α β : Type} [DecidableEq α]

def run : ListOp α → Act Empty α β Unit
  | .init => listInit
  | .insertHead e => listInsertHead e
  | .insertBefore l e => listInsertBefore l e
  | .insertAfter l e => listInsertAfter l e
  | .remove e => listRemove e

/-- The operation on the sequence. -/
def on : ListOp α → List α → List α
  | .init, _ => []
  | .insertHead e, xs => e :: xs
  | .insertBefore l e, xs => xs.flatMap fun a => if a = l then [e, l] else [a]
  | .insertAfter l e, xs => xs.flatMap fun a => if a = l then [l, e] else [a]
  | .remove e, xs => xs.erase e

/-- The new element. -/
def new : ListOp α → List α
  | .insertHead e => [e]
  | .insertBefore _ e => [e]
  | .insertAfter _ e => [e]
  | _ => []

/-- The new element is in memory and not on the list, and the other one is on it. -/
def Ready (h : Heap α β) (xs : List α) : ListOp α → Prop
  | .init => True
  | .insertHead e => h.Holds e ∧ e ∉ xs
  | .insertBefore l e => l ∈ xs ∧ h.Holds e ∧ e ∉ xs
  | .insertAfter l e => l ∈ xs ∧ h.Holds e ∧ e ∉ xs
  | .remove e => e ∈ xs

/-- The operation does to the list what it does to the sequence, and it needs nothing
but the head, the elements of the list and the new one. -/
def Correct (op : ListOp α) (h : Heap α β) (xs : List α) : Prop :=
  ∃ h', op.run h = .ok (.ok (), h') ∧ Lists h' (op.on xs) ∧ Within (op.new ++ xs) h h' ∧
    op.run (h.only (op.new ++ xs)) = .ok (.ok (), h'.only (op.new ++ xs))

theorem flatMap_at {as bs : List α} {l : α} {ys : List α} (hnd : (as ++ l :: bs).Nodup) :
    (as ++ l :: bs).flatMap (fun a => if a = l then ys else [a]) = as ++ ys ++ bs := by
  have hid : ∀ zs : List α, l ∉ zs →
      zs.flatMap (fun a => if a = l then ys else [a]) = zs := by
    intro zs hl
    induction zs with
    | nil => rfl
    | cons z zs ih =>
      obtain ⟨hz, hzs⟩ := not_or.mp (mt List.mem_cons.mpr hl)
      rw [List.flatMap_cons, if_neg (Ne.symm hz), ih hzs]
      rfl
  obtain ⟨-, hnd', hdisj⟩ := List.nodup_append.mp hnd
  obtain ⟨hbs, -⟩ := List.nodup_cons.mp hnd'
  have has : l ∉ as := fun ha => hdisj l ha l List.mem_cons_self rfl
  rw [List.flatMap_append, List.flatMap_cons, hid as has, hid bs hbs, if_pos rfl, List.append_assoc]

end ListOp

section ListOps

variable {α β : Type} {h : Heap α β} {xs as bs : List α} {e l b : α}

theorem mem_endCell {x : α} (hx : TailQueue.endCell .head as = .next x) : x ∈ as := by
  rcases TailQueue.endCell_cases (.head : Cell α) as with h' | ⟨a, ha, h'⟩
  · exact absurd (h'.symm.trans hx) (by simp)
  · obtain rfl : a = x := by
      have := h'.symm.trans hx
      injection this
    exact ha

variable [DecidableEq α]

theorem correct_init : (ListOp.init : ListOp α).Correct h xs :=
  ⟨h.withFirst none, rfl, lists_withFirst, within_self.withFirst, rfl⟩

theorem correct_insertHead (hl : Lists h xs) (he : h.Holds e) (hnew : e ∉ xs) :
    (ListOp.insertHead e).Correct h xs := by
  have hF : ∀ a ∈ xs, a ∈ [e] ++ xs := fun a ha => List.mem_append_right _ ha
  have heF : e ∈ [e] ++ xs := List.mem_append_left _ List.mem_cons_self
  refine ⟨_, listInsertHead_eq hl he, lists_insertedHead hl he hnew, ?_, ?_⟩
  · unfold Heap.insertedHead
    refine (((within_self.withNext heF).withBack fun x hx => ?_).withFirst).withPrev heF
    exact hF x (List.mem_of_mem_head? (hl.first_eq ▸ hx))
  · refine (listInsertHead_eq (hl.only hF) ((holds_only heF).mpr he)).trans ?_
    unfold Heap.insertedHead
    simp only [only_withPrev, only_withFirst, only_withBack, only_withNext]
    rfl

theorem correct_insertBefore (hl : Lists h xs) (hmem : l ∈ xs) (he : h.Holds e) (hnew : e ∉ xs) :
    (ListOp.insertBefore l e).Correct h xs := by
  obtain ⟨as, bs, rfl⟩ := List.append_of_mem hmem
  have hle : l ≠ e := fun heq => hnew (heq ▸ hmem)
  have hF : ∀ a ∈ as ++ l :: bs, a ∈ [e] ++ (as ++ l :: bs) := fun a ha =>
    List.mem_append_right _ ha
  have heF : e ∈ [e] ++ (as ++ l :: bs) := List.mem_append_left _ List.mem_cons_self
  refine ⟨_, listInsertBefore_eq hl he hle, ?_, ?_, ?_⟩
  · have hon : (ListOp.insertBefore l e).on (as ++ l :: bs) = as ++ e :: l :: bs := by
      refine (ListOp.flatMap_at hl.spells.nodup).trans ?_
      simp
    rw [hon]
    exact lists_insertedBefore hl he hnew
  · unfold Heap.insertedBefore
    refine (((within_self.withPrev heF).withNext heF).withCell fun x hx => ?_).withPrev (hF l hmem)
    exact hF x (List.mem_append_left _ (mem_endCell hx))
  · refine (listInsertBefore_eq (hl.only hF) ((holds_only heF).mpr he) hle).trans ?_
    unfold Heap.insertedBefore
    simp only [only_withPrev, only_withCell, only_withNext]
    rfl

theorem correct_insertAfter (hl : Lists h (as ++ l :: b :: bs)) (he : h.Holds e)
    (hnew : e ∉ as ++ l :: b :: bs) : (ListOp.insertAfter l e).Correct h (as ++ l :: b :: bs) := by
  have hmem : l ∈ as ++ l :: b :: bs := List.mem_append_right as List.mem_cons_self
  have hmemb : b ∈ as ++ l :: b :: bs :=
    List.mem_append_right as (List.mem_cons_of_mem l List.mem_cons_self)
  have hle : l ≠ e := fun heq => hnew (heq ▸ hmem)
  have hF : ∀ a ∈ as ++ l :: b :: bs, a ∈ [e] ++ (as ++ l :: b :: bs) := fun a ha =>
    List.mem_append_right _ ha
  have heF : e ∈ [e] ++ (as ++ l :: b :: bs) := List.mem_append_left _ List.mem_cons_self
  refine ⟨_, listInsertAfter_eq hl he hle, ?_, ?_, ?_⟩
  · have hon : (ListOp.insertAfter l e).on (as ++ l :: b :: bs) = as ++ l :: e :: b :: bs := by
      refine (ListOp.flatMap_at hl.spells.nodup).trans ?_
      simp
    rw [hon]
    exact lists_insertedAfter hl he hnew
  · unfold Heap.insertedAfter
    exact (((within_self.withNext heF).withPrev (hF b hmemb)).withNext (hF l hmem)).withPrev heF
  · refine (listInsertAfter_eq (hl.only hF) ((holds_only heF).mpr he) hle).trans ?_
    unfold Heap.insertedAfter
    simp only [only_withPrev, only_withNext]
    rfl

theorem within_removed {F : List α} (hF : ∀ a ∈ as ++ e :: bs, a ∈ F) :
    Within F h (h.removed (TailQueue.endCell .head as) bs.head?) := by
  unfold Heap.removed
  refine (within_self.withBack fun x hx => hF x ?_).withCell fun x hx => hF x ?_
  · exact List.mem_append_right as (List.mem_cons_of_mem e (List.mem_of_mem_head? hx))
  · exact List.mem_append_left _ (mem_endCell hx)

theorem correct_remove (hl : Lists h xs) (hmem : e ∈ xs) : (ListOp.remove e).Correct h xs := by
  obtain ⟨as, bs, rfl⟩ := List.append_of_mem hmem
  have hF : ∀ a ∈ as ++ e :: bs, a ∈ [] ++ (as ++ e :: bs) := fun a ha =>
    List.mem_append_right _ ha
  have has : e ∉ as := fun ha =>
    (List.nodup_append.mp hl.spells.nodup).2.2 e ha e List.mem_cons_self rfl
  refine ⟨_, listRemove_eq hl, ?_, ?_, ?_⟩
  · have hon : (ListOp.remove e).on (as ++ e :: bs) = as ++ bs := by
      refine (List.erase_append_right _ has).trans ?_
      rw [List.erase_cons_head]
    rw [hon]
    exact lists_removed hl
  · exact within_removed hF
  · refine (listRemove_eq (hl.only hF)).trans ?_
    unfold Heap.removed
    simp only [only_withCell, only_withBack]
    rfl

end ListOps

/-- Every operation on a well-formed list is right but one: inserting after the last
element. -/
theorem list_correct_iff {α β : Type} [DecidableEq α] (h : Heap α β) (xs : List α)
    (hl : Lists h xs) (op : ListOp α) (hop : op.Ready h xs) :
    op.Correct h xs ↔ ∀ l e, op = .insertAfter l e → xs.getLast? ≠ some l := by
  cases op with
  | init => exact ⟨fun _ _ _ heq => (by cases heq), fun _ => correct_init⟩
  | insertHead e =>
    exact ⟨fun _ _ _ heq => (by cases heq), fun _ => correct_insertHead hl hop.1 hop.2⟩
  | insertBefore l e =>
    exact ⟨fun _ _ _ heq => (by cases heq), fun _ => correct_insertBefore hl hop.1 hop.2.1 hop.2.2⟩
  | remove e => exact ⟨fun _ _ _ heq => (by cases heq), fun _ => correct_remove hl hop⟩
  | insertAfter l e =>
    obtain ⟨hmem, he, hnew⟩ := hop
    obtain ⟨as, bs, rfl⟩ := List.append_of_mem hmem
    have hle : l ≠ e := fun heq => hnew (heq ▸ hmem)
    cases bs with
    | nil =>
      have hlast : (as ++ [l]).getLast? = some l := by simp
      refine ⟨fun hc => ?_, fun hno => absurd hlast (hno l e rfl)⟩
      obtain ⟨h', hrun, -⟩ := hc
      have hstop : (ListOp.insertAfter l e).run h = .error .null := listInsertAfter_last hl he hle
      rw [hstop] at hrun
      cases hrun
    | cons b bs =>
      refine ⟨fun _ l' e' heq hlast => ?_, fun _ => correct_insertAfter hl he hnew⟩
      cases heq
      have hl' : l ∈ b :: bs := by
        rw [List.getLast?_append_of_ne_nil as (List.cons_ne_nil l (b :: bs)),
          List.getLast?_cons_cons] at hlast
        exact List.mem_of_getLast? hlast
      exact (List.nodup_cons.mp (List.nodup_append.mp hl.spells.nodup).2.1).1 hl'

/-- A list with one element, and an element that is not on it. -/
def oneElem : Heap ℕ Unit where
  first := some 0
  last := none
  elem a := if a = 0 then some ⟨none, some .head, ()⟩ else if a = 1 then some ⟨none, none, ()⟩ else none

theorem lists_oneElem : Lists oneElem [0] :=
  ⟨fun a ha => by rw [List.mem_singleton.mp ha]; rfl, by simp, ⟨rfl, rfl, trivial⟩, rfl⟩

theorem list_correct_iff_before : (ListOp.insertBefore 0 1).Correct oneElem [0] ↔
    ∀ l e, ListOp.insertBefore 0 1 = .insertAfter l e → [0].getLast? ≠ some l :=
  list_correct_iff oneElem [0] lists_oneElem (.insertBefore 0 1)
    ⟨List.mem_cons_self, rfl, by decide⟩

/-- An element inserted after the only one follows the null pointer. -/
theorem list_correct_fails : ¬∀ (h : Heap ℕ Unit) (xs : List ℕ) (op : ListOp ℕ), Lists h xs →
    op.Ready h xs → op.Correct h xs := by
  intro hall
  obtain ⟨h', hrun, -⟩ := hall oneElem [0] (.insertAfter 0 1) lists_oneElem
    ⟨List.mem_cons_self, rfl, by decide⟩
  have hstop : (ListOp.insertAfter 0 1).run oneElem = .error .null := rfl
  rw [hstop] at hrun
  cases hrun

end Queue
end RvMos
