import Mathlib.Algebra.Group.Int.Defs
import Mathlib.Algebra.Group.Nat.Defs
import IndicCrypt.Library.Run

/-!
# Failures of the library

Every function of the library returns a value or leaves by a C++ exception. A `Result`
records which: a `Failure` is the class of the exception and its text. `nontermination`
stands for a loop that never ends.

Byte strings (`std::string`, `crypto::ByteVector`, `std::vector<std::byte>`) are lists of
bytes, and a `std::size_t` is a natural number: every size is the size of an object in
memory. Where a conversion can lose bits, the definition reduces explicitly.
-/

namespace IndicCrypt

inductive Failure where
  | invalidArgument (what : String)
  | outOfRange (what : String)
  | overflowError (what : String)
  | logicError (what : String)
  | lengthError (what : String)
  | runtimeError (what : String)
  | nontermination
deriving DecidableEq, Repr

abbrev Result := Except Failure

abbrev Bytes := List UInt8

/-- The result of a call of a C library, or the exception of the check behind it. -/
def orThrow {α : Type} (result : Option α) (what : String) : Result α :=
  match result with
  | some a => .ok a
  | none => .error (.runtimeError what)

@[simp] theorem orThrow_some {α : Type} (a : α) (what : String) : orThrow (some a) what = .ok a :=
  rfl

@[simp] theorem orThrow_none {α : Type} (what : String) :
    orThrow (none : Option α) what = .error (.runtimeError what) := rfl

@[simp] theorem orThrow_eq_ok {α : Type} {result : Option α} {what : String} {a : α} :
    orThrow result what = .ok a ↔ result = some a := by
  cases result <;> simp

/-! ## Conversions of sizes -/

/-- `static_cast<int>` of a size: its low 32 bits, in two's complement. -/
def toInt (size : Nat) : Int :=
  let low : Nat := size % 2 ^ 32
  if low < 2 ^ 31 then (low : Int) else (low : Int) - 2 ^ 32

theorem toInt_eq_natCast {size count : Nat} :
    toInt size = count ↔ count < 2 ^ 31 ∧ size % 2 ^ 32 = count := by
  unfold toInt
  dsimp only
  split <;> omega

theorem toInt_of_lt {size : Nat} (h : size < 2 ^ 31) : toInt size = size :=
  toInt_eq_natCast.mpr ⟨h, Nat.mod_eq_of_lt (by omega)⟩

/-- `static_cast<std::size_t>` of an `int`. -/
def toSize (i : Int) : Nat := (i % 2 ^ 64).toNat

theorem toSize_natCast {n : Nat} (h : n < 2 ^ 64) : toSize n = n := by
  unfold toSize
  omega

end IndicCrypt
