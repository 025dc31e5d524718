import Mathlib.Logic.Equiv.Defs
import IndicCrypt.Library.Run

/-!
# Alternating Feistel networks

A network acts on pairs `(a, b)` of halves. Round `i` masks `a` under `b` and swaps:
`(a, b)` becomes `(b, mask i a b)`. The halves may have different formats, and the formats
may change from round to round: `Valid i a b` says that `(a, b)` may enter round `i`. A
network only asks that `unmask i · b` undoes `mask i · b` on valid halves, in both orders.

Each round is then a bijection between the valid states of two consecutive rounds
(`Network.round`), and so are `k` rounds (`Network.rounds`), whatever the masks are.
`foldlM_rounds` and `foldlM_rounds_symm` connect the loops of a program, forwards and
backwards, to this bijection.
-/

namespace Feistel

structure Network (α : Type) where
  Valid : Nat → α → α → Prop
  mask : Nat → α → α → α
  unmask : Nat → α → α → α
  mask_valid : ∀ {i a b}, Valid i a b → Valid (i + 1) b (mask i a b)
  unmask_valid : ∀ {i b c}, Valid (i + 1) b c → Valid i (unmask i c b) b
  unmask_mask : ∀ {i a b}, Valid i a b → unmask i (mask i a b) b = a
  mask_unmask : ∀ {i b c}, Valid (i + 1) b c → mask i (unmask i c b) b = c

namespace Network

variable {α : Type} (N : Network α)

/-- The pairs that may enter round `i`. -/
abbrev State (i : Nat) : Type := {s : α × α // N.Valid i s.1 s.2}

/-- One round, as a bijection between the states before and after it. -/
def round (i : Nat) : N.State i ≃ N.State (i + 1) where
  toFun s := ⟨(s.1.2, N.mask i s.1.1 s.1.2), N.mask_valid s.2⟩
  invFun t := ⟨(N.unmask i t.1.2 t.1.1, t.1.1), N.unmask_valid t.2⟩
  left_inv s := Subtype.ext (Prod.ext (N.unmask_mask s.2) rfl)
  right_inv t := Subtype.ext (Prod.ext rfl (N.mask_unmask t.2))

/-- The first `k` rounds. -/
def rounds : (k : Nat) → N.State 0 ≃ N.State k
  | 0 => Equiv.refl _
  | k + 1 => (rounds k).trans (N.round k)

theorem round_val (i : Nat) (s : N.State i) :
    (N.round i s).1 = (s.1.2, N.mask i s.1.1 s.1.2) := rfl

theorem round_symm_val (i : Nat) (t : N.State (i + 1)) :
    ((N.round i).symm t).1 = (N.unmask i t.1.2 t.1.1, t.1.1) := rfl

theorem rounds_succ (k : Nat) (s : N.State 0) : N.rounds (k + 1) s = N.round k (N.rounds k s) := rfl

theorem rounds_succ_symm (k : Nat) (t : N.State (k + 1)) :
    (N.rounds (k + 1)).symm t = (N.rounds k).symm ((N.round k).symm t) := rfl

/-- A path of halves, each masked to the one after the next, is the path of the rounds. -/
theorem rounds_path {path : Nat → α} {k : Nat} (s : N.State 0) (hStart : s.1 = (path 0, path 1))
    (hMask : ∀ i < k, N.mask i (path i) (path (i + 1)) = path (i + 2)) :
    (N.rounds k s).1 = (path k, path (k + 1)) := by
  induction k with
  | zero => exact hStart
  | succ k ih =>
    rw [rounds_succ, round_val, ih fun i hi => hMask i (by omega), hMask k (by omega)]

/-! ## Loops over the rounds -/

variable {ε : Type} {step : α × α → Nat → Except ε (α × α)}

/-- A loop whose body is round `i` at every valid state computes the network. -/
theorem foldlM_rounds {k : Nat}
    (hStep : ∀ i < k, ∀ s : N.State i, step s.1 i = .ok (N.round i s).1) (s : N.State 0) :
    (List.range k).foldlM step s.1 = .ok (N.rounds k s).1 := by
  induction k with
  | zero => rfl
  | succ k ih =>
    have hPrefix := ih (fun i hi => hStep i (by omega))
    rw [List.range_succ, List.foldlM_append, hPrefix, Run.ok_bind, List.foldlM_cons,
      hStep k (by omega), Run.ok_bind, List.foldlM_nil, rounds_succ]
    rfl

/-- The same for a loop that cannot fail. -/
theorem foldl_rounds {next : α × α → Nat → α × α} {k : Nat}
    (hNext : ∀ i < k, ∀ s : N.State i, next s.1 i = (N.round i s).1) (s : N.State 0) :
    (List.range k).foldl next s.1 = (N.rounds k s).1 := by
  induction k with
  | zero => rfl
  | succ k ih =>
    have hPrefix := ih (fun i hi => hNext i (by omega))
    rw [List.range_succ, List.foldl_append, hPrefix, List.foldl_cons, hNext k (by omega),
      List.foldl_nil, rounds_succ]

/-- A loop that runs through the rounds in reverse order, undoing each, computes the
inverse of the network. -/
theorem foldlM_rounds_symm {k : Nat}
    (hStep : ∀ i < k, ∀ t : N.State (i + 1), step t.1 i = .ok ((N.round i).symm t).1)
    (t : N.State k) :
    (List.range k).reverse.foldlM step t.1 = .ok ((N.rounds k).symm t).1 := by
  induction k with
  | zero => rfl
  | succ k ih =>
    rw [List.range_succ, List.reverse_append, List.reverse_singleton, List.singleton_append,
      List.foldlM_cons, hStep k (by omega), Run.ok_bind,
      ih (fun i hi => hStep i (by omega)), rounds_succ_symm]

end Network

end Feistel
