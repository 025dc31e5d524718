import Mathlib.Data.List.Forall2

/-!
# Runs that may fail

A fallible program is a value of `Except ε α`. The lemmas here take a run apart: a
successful `x >>= f` is a successful `x` followed by a successful `f` (`bind_eq_ok`), a
guard `throwIf` succeeds exactly when its condition is false, and a `mapM` succeeds exactly
when every element does (`mapM_eq_ok`, `mapM_isOk`).

`Follows` compares two programs over different states, of which the first may stop with a fault
where the second goes on; `Interrupts` is the case of equal results. Both are kept by sequencing,
so they hold of programs as soon as they hold of the calls that can stop.
-/

namespace Run

variable {ε α β γ : Type}

/-- The run returns. -/
def IsOk (x : Except ε α) : Prop := ∃ a, x = .ok a

/-- Stop with `e` when `bad` holds. -/
def throwIf (bad : Prop) [Decidable bad] (e : ε) : Except ε Unit :=
  if bad then .error e else .ok ()

/-! ## Sequencing -/

@[simp] theorem ok_bind (a : α) (f : α → Except ε β) : ((.ok a : Except ε α) >>= f) = f a := rfl

@[simp] theorem error_bind (e : ε) (f : α → Except ε β) :
    ((.error e : Except ε α) >>= f) = .error e := rfl

@[simp] theorem pure_eq_ok (a : α) : (pure a : Except ε α) = .ok a := rfl

theorem bind_eq_ok {x : Except ε α} {f : α → Except ε β} {b : β} :
    (x >>= f) = .ok b ↔ ∃ a, x = .ok a ∧ f a = .ok b := by
  cases x with
  | error e => simp
  | ok a => simp

theorem bind_eq_error {x : Except ε α} {f : α → Except ε β} {e : ε} :
    (x >>= f) = .error e ↔ x = .error e ∨ ∃ a, x = .ok a ∧ f a = .error e := by
  cases x with
  | error e' => simp
  | ok a => simp

theorem isOk_ok (a : α) : IsOk (.ok a : Except ε α) := ⟨a, rfl⟩

@[simp] theorem not_isOk_error (e : ε) : ¬ IsOk (.error e : Except ε α) := by
  rintro ⟨a, h⟩
  cases h

theorem isOk_bind {x : Except ε α} {f : α → Except ε β} :
    IsOk (x >>= f) ↔ ∃ a, x = .ok a ∧ IsOk (f a) := by
  simp only [IsOk, bind_eq_ok]
  constructor
  · rintro ⟨b, a, hx, hf⟩
    exact ⟨a, hx, b, hf⟩
  · rintro ⟨a, hx, b, hf⟩
    exact ⟨b, a, hx, hf⟩

theorem not_isOk_iff {x : Except ε α} : ¬ IsOk x ↔ ∃ e, x = .error e := by
  cases x with
  | error e => simp
  | ok a => simp [IsOk]

/-! ## Guards -/

section Guards

variable {bad : Prop} [Decidable bad] {e : ε}

theorem throwIf_of_not (h : ¬ bad) : throwIf bad e = .ok () := if_neg h

theorem throwIf_of (h : bad) : throwIf bad e = .error e := if_pos h

@[simp] theorem throwIf_eq_ok {u : Unit} : throwIf bad e = .ok u ↔ ¬ bad := by
  unfold throwIf
  split <;> simp_all

@[simp] theorem throwIf_bind_eq_ok {f : Unit → Except ε β} {b : β} :
    (throwIf bad e >>= f) = .ok b ↔ ¬ bad ∧ f () = .ok b := by
  unfold throwIf
  split <;> simp_all

end Guards

/-! ## Loops -/

theorem mapM_eq_ok {f : α → Except ε β} {xs : List α} {ys : List β} :
    xs.mapM f = .ok ys ↔ List.Forall₂ (fun x y => f x = .ok y) xs ys := by
  induction xs generalizing ys with
  | nil => simp [eq_comm]
  | cons x xs ih =>
    simp only [List.mapM_cons, bind_eq_ok, pure_eq_ok, Except.ok.injEq, ih]
    constructor
    · rintro ⟨y, hy, zs, hzs, rfl⟩
      exact .cons hy hzs
    · intro h
      cases h with
      | @cons _ y _ zs hy hzs => exact ⟨y, hy, zs, hzs, rfl⟩

theorem mapM_isOk {f : α → Except ε β} {xs : List α} :
    IsOk (xs.mapM f) ↔ ∀ x ∈ xs, IsOk (f x) := by
  induction xs with
  | nil => simp [IsOk]
  | cons x xs ih =>
    simp only [List.mapM_cons, isOk_bind, List.forall_mem_cons, ← ih]
    constructor
    · rintro ⟨y, hy, ys, hys, -⟩
      exact ⟨⟨y, hy⟩, ys, hys⟩
    · rintro ⟨⟨y, hy⟩, ys, hys⟩
      exact ⟨y, hy, ys, hys, isOk_ok _⟩

/-! ## Faults -/

/-- Where the first run returns, the second one returns something related. Where the first one
stops, it stops with a fault, or the second one stops in the same way. -/
def Follows (fault : ε → Prop) (R : α → β → Prop) (x : Except ε α) (y : Except ε β) : Prop :=
  match x with
  | .ok a => ∃ b, y = .ok b ∧ R a b
  | .error e => fault e ∨ y = .error e

/-- The first run is the second one, unless it stops with a fault. -/
def Interrupts (fault : ε → Prop) (x y : Except ε α) : Prop := Follows fault Eq x y

section Faults

variable {δ : Type} {fault : ε → Prop} {R : α → β → Prop} {S : γ → δ → Prop}

theorem Follows.bind {x : Except ε α} {y : Except ε β} {f : α → Except ε γ} {g : β → Except ε δ}
    (h : Follows fault R x y) (hf : ∀ a b, R a b → Follows fault S (f a) (g b)) :
    Follows fault S (x >>= f) (y >>= g) := by
  cases x with
  | ok a =>
    obtain ⟨b, rfl, hR⟩ := h
    exact hf a b hR
  | error e =>
    rcases h with hFault | rfl
    · exact Or.inl hFault
    · exact Or.inr rfl

namespace Interrupts

variable {x y : Except ε α}

theorem refl (x : Except ε α) : Interrupts fault x x := by
  cases x with
  | ok a => exact ⟨a, rfl, rfl⟩
  | error e => exact Or.inr rfl

theorem bind {f g : α → Except ε β} (h : Interrupts fault x y)
    (hf : ∀ a, Interrupts fault (f a) (g a)) : Interrupts fault (x >>= f) (y >>= g) :=
  Follows.bind h fun a _ hEq => hEq ▸ hf a

theorem foldlM {f g : β → α → Except ε β} (h : ∀ b a, Interrupts fault (f b a) (g b a))
    (xs : List α) (b : β) : Interrupts fault (xs.foldlM f b) (xs.foldlM g b) := by
  induction xs generalizing b with
  | nil => exact refl _
  | cons a xs ih =>
    rw [List.foldlM_cons, List.foldlM_cons]
    exact (h b a).bind ih

theorem mapM {f g : α → Except ε β} (h : ∀ a, Interrupts fault (f a) (g a)) (xs : List α) :
    Interrupts fault (xs.mapM f) (xs.mapM g) := by
  induction xs with
  | nil => exact refl _
  | cons a xs ih =>
    rw [List.mapM_cons, List.mapM_cons]
    exact (h a).bind fun b => ih.bind fun ys => refl _

/-- What stops a run that the other one completes is a fault. -/
theorem fault_of_error {a : α} {e : ε} (h : Interrupts fault x y) (hy : y = .ok a)
    (hx : x = .error e) : fault e := by
  subst hx hy
  rcases h with hFault | hEq
  · exact hFault
  · cases hEq

end Interrupts

end Faults

end Run
