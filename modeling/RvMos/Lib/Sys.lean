/-
Stateful procedures that return an error code or stop the machine.

A procedure of a C kernel changes the state and returns a value or a negative
error code, and the change stays when an error is returned.  It may also stop
for good, by a failed assertion, a panic or a wild access.  `Sys` is the monad
of such procedures: the C idiom `try(f(x))` is its bind.

`wp m Q E s` says that `m` started in `s` ends in a result and a state in `Q`,
or stops with a cause in `E`.  The rules compute `wp` along the structure of a
procedure, so a proof follows the code.
-/
import Mathlib.Order.Defs.Unbundled
import Mathlib.Tactic.Common

namespace RvMos
namespace Lib

def Sys (η ε σ α : Type) := σ → Except η (Except ε α × σ)

namespace Sys

variable {η ε σ α β : Type}

instance : Monad (Sys η ε σ) where
  pure a := fun s => .ok (.ok a, s)
  bind m f := fun s => match m s with
    | .error h => .error h
    | .ok (.error e, s') => .ok (.error e, s')
    | .ok (.ok a, s') => f a s'

/-- `return -e`. -/
def throw (e : ε) : Sys η ε σ α := fun s => .ok (.error e, s)

def halt (h : η) : Sys η ε σ α := fun _ => .error h

def get : Sys η ε σ σ := fun s => .ok (.ok s, s)

def modify (f : σ → σ) : Sys η ε σ Unit := fun s => .ok (.ok (), f s)

/-- Run a procedure and look at what it returned. -/
def attempt (m : Sys η ε σ α) : Sys η ε σ (Except ε α) := fun s =>
  match m s with
  | .error h => .error h
  | .ok (r, s') => .ok (.ok r, s')

/-- `if (p) m;`. -/
def when (p : Prop) [Decidable p] (m : Sys η ε σ Unit) : Sys η ε σ Unit :=
  if p then m else pure ()

/-- Run a procedure for each element of a list, in order. -/
def each {ι : Type} (f : ι → Sys η ε σ Unit) : List ι → Sys η ε σ Unit
  | [] => pure ()
  | i :: is => do
    f i
    each f is

/-! ## Running a sequence -/

theorem bind_of_ok {m : Sys η ε σ β} {f : β → Sys η ε σ α} {s t : σ} {b : β}
    (h : m s = .ok (.ok b, t)) : (m >>= f) s = f b t := by
  simp only [bind, h]

theorem bind_of_error {m : Sys η ε σ β} {f : β → Sys η ε σ α} {s s' : σ} {e : ε}
    (h : m s = .ok (.error e, s')) : (m >>= f) s = .ok (.error e, s') := by
  simp only [bind, h]

theorem bind_of_stop {m : Sys η ε σ β} {f : β → Sys η ε σ α} {s : σ} {c : η}
    (h : m s = .error c) : (m >>= f) s = .error c := by
  simp only [bind, h]

/-- A sequence that returns: both of its parts do. -/
theorem bind_ok {m : Sys η ε σ β} {f : β → Sys η ε σ α} {s s' : σ} {a : α}
    (h : (m >>= f) s = .ok (.ok a, s')) :
    ∃ b t, m s = .ok (.ok b, t) ∧ f b t = .ok (.ok a, s') := by
  cases hm : m s with
  | error c =>
    rw [bind_of_stop hm] at h
    cases h
  | ok x =>
    obtain ⟨r, t⟩ := x
    cases r with
    | error e =>
      rw [bind_of_error hm] at h
      cases h
    | ok b =>
      rw [bind_of_ok hm] at h
      exact ⟨b, t, rfl, h⟩

theorem attempt_of_ok {m : Sys η ε σ α} {s s' : σ} {r : Except ε α} (h : m s = .ok (r, s')) :
    m.attempt s = .ok (.ok r, s') := by
  simp only [attempt, h]

theorem attempt_of_stop {m : Sys η ε σ α} {s : σ} {c : η} (h : m s = .error c) :
    m.attempt s = .error c := by
  simp only [attempt, h]

/-! ## Looking at a result -/

/-- The value that is returned, with the state after it. -/
def accepted : Except η (Except ε α × σ) → Option (α × σ)
  | .ok (.ok a, s) => some (a, s)
  | _ => none

/-- The state after an error code. -/
def refused : Except η (Except ε α × σ) → Option σ
  | .ok (.error _, s) => some s
  | _ => none

theorem accepted_eq_some {x : Except η (Except ε α × σ)} {a : α} {s : σ} :
    accepted x = some (a, s) ↔ x = .ok (.ok a, s) := by
  rcases x with c | ⟨e | b, t⟩
  · simp [accepted]
  · simp [accepted]
  · simp [accepted]

theorem refused_eq_some {x : Except η (Except ε α × σ)} {s : σ} :
    refused x = some s ↔ ∃ e, x = .ok (.error e, s) := by
  rcases x with c | ⟨e | b, t⟩
  · simp [refused]
  · simp [refused]
  · simp [refused]

/-! ## Weakest preconditions -/

def wp (m : Sys η ε σ α) (Q : Except ε α → σ → Prop) (E : η → Prop) (s : σ) : Prop :=
  match m s with
  | .error h => E h
  | .ok (r, s') => Q r s'

variable {Q Q' : Except ε α → σ → Prop} {E E' : η → Prop} {s : σ}

theorem wp_mono {m : Sys η ε σ α} (h : m.wp Q E s) (hQ : ∀ r s', Q r s' → Q' r s')
    (hE : ∀ c, E c → E' c) : m.wp Q' E' s := by
  unfold wp at *
  cases hm : m s with
  | error c =>
    rw [hm] at h
    exact hE c h
  | ok x =>
    rw [hm] at h
    exact hQ x.1 x.2 h

theorem wp_conseq {m : Sys η ε σ α} (h : m.wp Q E s) (hQ : ∀ r s', Q r s' → Q' r s') :
    m.wp Q' E s :=
  wp_mono h hQ fun _ => id

/-- A precondition and a result give the postcondition. -/
theorem wp_ok {m : Sys η ε σ α} (h : m.wp Q E s) {r : Except ε α} {s' : σ}
    (hm : m s = .ok (r, s')) : Q r s' := by
  unfold wp at h
  rw [hm] at h
  exact h

theorem wp_error {m : Sys η ε σ α} (h : m.wp Q E s) {c : η} (hm : m s = .error c) : E c := by
  unfold wp at h
  rw [hm] at h
  exact h

theorem wp_of {m : Sys η ε σ α} (hQ : ∀ r s', m s = .ok (r, s') → Q r s')
    (hE : ∀ c, m s = .error c → E c) : m.wp Q E s := by
  unfold wp
  cases hm : m s with
  | error c => exact hE c hm
  | ok x => exact hQ x.1 x.2 hm

/-- A procedure that never stops has a result. -/
theorem wp_run {m : Sys η ε σ α} (h : m.wp Q (fun _ => False) s) :
    ∃ r s', m s = .ok (r, s') ∧ Q r s' := by
  cases hm : m s with
  | error c => exact (wp_error h hm).elim
  | ok x => exact ⟨x.1, x.2, rfl, wp_ok h hm⟩

/-- The result is the only one that the postcondition allows. -/
theorem wp_eq {m : Sys η ε σ α} {r : Except ε α} {s' : σ}
    (h : m.wp (fun x t => x = r ∧ t = s') (fun _ => False) s) : m s = .ok (r, s') := by
  obtain ⟨x, t, hm, rfl, rfl⟩ := wp_run h
  exact hm

theorem wp_and {m : Sys η ε σ α} (h : m.wp Q E s) (h' : m.wp Q' E' s) :
    m.wp (fun r s' => Q r s' ∧ Q' r s') E s :=
  wp_of (fun _ _ hm => ⟨wp_ok h hm, wp_ok h' hm⟩) fun _ hm => wp_error h hm

@[simp] theorem wp_pure {a : α} : (pure a : Sys η ε σ α).wp Q E s ↔ Q (.ok a) s := Iff.rfl

@[simp] theorem wp_throw {e : ε} : (throw e : Sys η ε σ α).wp Q E s ↔ Q (.error e) s := Iff.rfl

@[simp] theorem wp_halt {c : η} : (halt c : Sys η ε σ α).wp Q E s ↔ E c := Iff.rfl

@[simp] theorem wp_get {Q : Except ε σ → σ → Prop} :
    (get : Sys η ε σ σ).wp Q E s ↔ Q (.ok s) s := Iff.rfl

@[simp] theorem wp_modify {f : σ → σ} {Q : Except ε Unit → σ → Prop} :
    (modify f : Sys η ε σ Unit).wp Q E s ↔ Q (.ok ()) (f s) := Iff.rfl

@[simp] theorem wp_bind {m : Sys η ε σ β} {f : β → Sys η ε σ α} :
    (m >>= f).wp Q E s ↔ m.wp (fun r s' => match r with
      | .ok b => (f b).wp Q E s'
      | .error e => Q (.error e) s') E s := by
  show (match (match m s with
    | .error h => .error h
    | .ok (.error e, s') => .ok (.error e, s')
    | .ok (.ok a, s') => f a s' : Except η (Except ε α × σ)) with
    | .error h => E h
    | .ok (r, s') => Q r s') ↔ match m s with
    | .error h => E h
    | .ok (r, s') => (match r with
      | .ok b => (f b).wp Q E s'
      | .error e => Q (.error e) s')
  rcases m s with h | ⟨e | a, s'⟩
  · exact Iff.rfl
  · exact Iff.rfl
  · exact Iff.rfl

theorem wp_get_bind {f : σ → Sys η ε σ α} : (get >>= f).wp Q E s ↔ (f s).wp Q E s := Iff.rfl

theorem wp_modify_bind {g : σ → σ} {f : Unit → Sys η ε σ α} :
    (modify g >>= f).wp Q E s ↔ (f ()).wp Q E (g s) := Iff.rfl

/-- Sequencing with a known first part. -/
theorem wp_seq {m : Sys η ε σ β} {f : β → Sys η ε σ α} {R : Except ε β → σ → Prop}
    (hm : m.wp R E s) (hok : ∀ b s', R (.ok b) s' → (f b).wp Q E s')
    (herr : ∀ e s', R (.error e) s' → Q (.error e) s') : (m >>= f).wp Q E s := by
  rw [wp_bind]
  refine wp_conseq hm fun r s' hr => ?_
  cases r with
  | ok b => exact hok b s' hr
  | error e => exact herr e s' hr

theorem wp_attempt {m : Sys η ε σ β} {Q : Except ε (Except ε β) → σ → Prop} :
    m.attempt.wp Q E s ↔ m.wp (fun r s' => Q (.ok r) s') E s := by
  unfold wp attempt
  cases m s with
  | error h => exact Iff.rfl
  | ok x => exact Iff.rfl

theorem wp_attempt_seq {m : Sys η ε σ β} {f : Except ε β → Sys η ε σ α}
    {R : Except ε β → σ → Prop} (hm : m.wp R E s)
    (hf : ∀ r s', R r s' → (f r).wp Q E s') : (m.attempt >>= f).wp Q E s := by
  rw [wp_bind, wp_attempt]
  exact wp_conseq hm hf

@[simp] theorem wp_ite {p : Prop} [Decidable p] {m m' : Sys η ε σ α} :
    (if p then m else m').wp Q E s ↔ (p → m.wp Q E s) ∧ (¬p → m'.wp Q E s) := by
  by_cases hp : p
  · simp [hp]
  · simp [hp]

theorem wp_when {p : Prop} [Decidable p] {m : Sys η ε σ Unit} {Q : Except ε Unit → σ → Prop} :
    (when p m).wp Q E s ↔ (p → m.wp Q E s) ∧ (¬p → Q (.ok ()) s) := by
  unfold when
  rw [wp_ite, wp_pure]

-- from here on `wp` is used through its rules only
attribute [irreducible] wp

/-- The rule of a counted loop: `I i` holds before round `i`. -/
theorem wp_each_range {f : ℕ → Sys η ε σ Unit} {Q : Except ε Unit → σ → Prop} (I : ℕ → σ → Prop)
    (n : ℕ) {lo : ℕ} {s : σ} (hs : I lo s)
    (hf : ∀ i s, lo ≤ i → i < lo + n → I i s → (f i).wp (fun r s' => match r with
      | .ok () => I (i + 1) s'
      | .error e => Q (.error e) s') E s)
    (hI : ∀ s, I (lo + n) s → Q (.ok ()) s) : (each f (List.range' lo n)).wp Q E s := by
  induction n generalizing lo s with
  | zero =>
    rw [List.range'_zero, each, wp_pure]
    exact hI s hs
  | succ n ih =>
    rw [List.range'_succ, each, wp_bind]
    refine wp_conseq (hf lo s (by omega) (by omega) hs) fun r s' hr => ?_
    cases r with
    | ok u =>
      refine ih hr (fun i t hlo hhi => hf i t (by omega) (by omega)) fun t ht => hI t ?_
      have hlo : lo + (n + 1) = lo + 1 + n := by omega
      rw [hlo]
      exact ht
    | error e => exact hr

/-! ## Frame rules

`Keeps R E m` says that every run of `m` is related by `R` from start to end,
whatever it returns.  For a preorder `R` the property is composed along the
code. -/

def Keeps (R : σ → σ → Prop) (E : η → Prop) (m : Sys η ε σ α) : Prop :=
  ∀ s, m.wp (fun _ s' => R s s') E s

theorem keeps_mono {R R' : σ → σ → Prop} (hR : ∀ s s', R s s' → R' s s') (hE : ∀ c, E c → E' c)
    {m : Sys η ε σ α} (h : Keeps R E m) : Keeps R' E' m := fun s =>
  wp_mono (h s) (fun _ s' => hR s s') hE

section Keeps

variable {R : σ → σ → Prop} [IsPreorder σ R]

theorem keeps_pure (a : α) : Keeps R E (pure a : Sys η ε σ α) := fun s =>
  wp_pure.mpr (refl_of R s)

theorem keeps_throw (e : ε) : Keeps R E (throw e : Sys η ε σ α) := fun s =>
  wp_throw.mpr (refl_of R s)

theorem keeps_get : Keeps R E (get : Sys η ε σ σ) := fun s => wp_get.mpr (refl_of R s)

omit [IsPreorder σ R] in
theorem keeps_halt {c : η} (h : E c) : Keeps R E (halt c : Sys η ε σ α) := fun _ =>
  wp_halt.mpr h

omit [IsPreorder σ R] in
theorem keeps_modify {f : σ → σ} (h : ∀ s, R s (f s)) :
    Keeps R E (modify f : Sys η ε σ Unit) := fun s => wp_modify.mpr (h s)

theorem keeps_bind {m : Sys η ε σ β} {f : β → Sys η ε σ α} (hm : Keeps R E m)
    (hf : ∀ b, Keeps R E (f b)) : Keeps R E (m >>= f) := by
  intro s
  rw [wp_bind]
  refine wp_conseq (hm s) fun r s₁ h₁ => ?_
  cases r with
  | error e => exact h₁
  | ok b => exact wp_conseq (hf b s₁) fun _ _ h₂ => trans_of R h₁ h₂

omit [IsPreorder σ R] in
theorem keeps_attempt {m : Sys η ε σ β} (hm : Keeps R E m) : Keeps R E m.attempt := fun s =>
  wp_attempt.mpr (hm s)

omit [IsPreorder σ R] in
theorem keeps_ite {p : Prop} [Decidable p] {m m' : Sys η ε σ α} (hm : Keeps R E m)
    (hm' : Keeps R E m') : Keeps R E (if p then m else m') := by
  by_cases hp : p
  · rw [if_pos hp]
    exact hm
  · rw [if_neg hp]
    exact hm'

theorem keeps_when {p : Prop} [Decidable p] {m : Sys η ε σ Unit} (hm : Keeps R E m) :
    Keeps R E (when p m) := keeps_ite hm (keeps_pure ())

theorem keeps_each {ι : Type} {f : ι → Sys η ε σ Unit} (hf : ∀ i, Keeps R E (f i))
    (is : List ι) : Keeps R E (each f is) := by
  induction is with
  | nil => exact keeps_pure ()
  | cons i is ih => exact keeps_bind (hf i) fun _ => ih

end Keeps

/-! ## Procedures without error codes -/

/-- The procedure never returns an error code. -/
def NoError (m : Sys η ε σ α) : Prop := ∀ s, m.wp (fun r _ => ∃ a, r = .ok a) (fun _ => True) s

section NoError

theorem noError_pure (a : α) : NoError (pure a : Sys η ε σ α) := fun _ => wp_pure.mpr ⟨a, rfl⟩

theorem noError_get : NoError (get : Sys η ε σ σ) := fun s => wp_get.mpr ⟨s, rfl⟩

theorem noError_modify (f : σ → σ) : NoError (modify f : Sys η ε σ Unit) := fun _ =>
  wp_modify.mpr ⟨(), rfl⟩

theorem noError_halt (c : η) : NoError (halt c : Sys η ε σ α) := fun _ => wp_halt.mpr trivial

theorem noError_bind {m : Sys η ε σ β} {f : β → Sys η ε σ α} (hm : NoError m)
    (hf : ∀ b, NoError (f b)) : NoError (m >>= f) := by
  intro s
  rw [wp_bind]
  refine wp_conseq (hm s) fun r s₁ hr => ?_
  obtain ⟨b, rfl⟩ := hr
  exact hf b s₁

theorem noError_ite {p : Prop} [Decidable p] {m m' : Sys η ε σ α} (hm : NoError m)
    (hm' : NoError m') : NoError (if p then m else m') := by
  by_cases hp : p
  · rw [if_pos hp]
    exact hm
  · rw [if_neg hp]
    exact hm'

theorem noError_when {p : Prop} [Decidable p] {m : Sys η ε σ Unit} (hm : NoError m) :
    NoError (when p m) := noError_ite hm (noError_pure ())

theorem noError_attempt {m : Sys η ε σ β} : NoError m.attempt := fun _ =>
  wp_attempt.mpr (wp_of (fun r _ _ => ⟨r, rfl⟩) fun _ _ => trivial)

end NoError

end Sys
end Lib
end RvMos
