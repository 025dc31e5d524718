import IndicCrypt.Failure
import IndicCrypt.Library.Transcoding

/-!
# ICU

The calls of ICU that the text functions make, as the fields of `Icu`. A `UnicodeString` is
its sequence of UTF-16 code units, or the bogus string, which stands for a text that could not be
read and has none. Where a call reports a status, nothing is returned for a failure.

`Icu.Lawful` is what the text functions rely on: strings are transcoded as Unicode says, up to the
sizes that ICU can hold and count, and the character iterator yields the boundaries of the text in
ascending order and then `DONE`, none of them inside a surrogate pair.
-/

namespace IndicCrypt.Text

open Transcoding

inductive UnicodeString where
  | bogus
  | text (units : List UInt16)
deriving DecidableEq

namespace UnicodeString

def units : UnicodeString → List UInt16
  | bogus => []
  | text units => units

@[simp] theorem units_bogus : bogus.units = [] := rfl

@[simp] theorem units_text (units : List UInt16) : (text units).units = units := rfl

def length (s : UnicodeString) : Nat := s.units.length

def isEmpty (s : UnicodeString) : Bool := s.units.isEmpty

/-- A part of the bogus string is bogus. -/
def tempSubStringBetween (s : UnicodeString) (start limit : Int) : UnicodeString :=
  match s with
  | bogus => bogus
  | text units => text ((units.drop start.toNat).take (limit - start).toNat)

theorem units_tempSubStringBetween (s : UnicodeString) (start limit : Int) :
    (s.tempSubStringBetween start limit).units =
      (s.units.drop start.toNat).take (limit - start).toNat := by
  cases s with
  | bogus => rw [tempSubStringBetween, units_bogus, List.drop_nil, List.take_nil]
  | text units => rfl

/-- A string that has scalar values is not bogus. -/
theorem eq_text_of_units {s : UnicodeString} {c : Char} {cs : List Char}
    (h : s.units = utf16 (c :: cs)) : s = text (utf16 (c :: cs)) := by
  cases s with
  | bogus =>
    have hPos := length_utf16_pos (List.cons_ne_nil c cs)
    rw [← h, units_bogus] at hPos
    exact absurd hPos (Nat.lt_irrefl 0)
  | text units => exact congrArg text h

end UnicodeString

/-- The script codes that are told apart. -/
inductive UScriptCode where
  | devanagari
  | bengali
  | gurmukhi
  | gujarati
  | oriya
  | tamil
  | telugu
  | kannada
  | malayalam
  | meiteiMayek
  | olChiki
  | arabic
  | latin
  | other (code : Nat)

structure BreakIterator where
  State : Type
  setText : UnicodeString → State
  first : State → State × Int
  next : State → State × Int

/-- `BreakIterator::DONE`. -/
def done : Int := -1

/-- `toUTF8String` appends to a `std::string`, which may throw. -/
structure Icu where
  fromUTF8 : Bytes → Int → UnicodeString
  toUTF8String : UnicodeString → Result Bytes
  char32At : UnicodeString → Int → Int
  nfcInstance : Option (UnicodeString → Option UnicodeString)
  characterInstance : Option BreakIterator
  getScript : Int → Option UScriptCode

/-- The string read from a `StringPiece` of the bytes and their `int32_t` size. -/
def Icu.unicodeString (icu : Icu) (utf8 : Bytes) : UnicodeString :=
  icu.fromUTF8 utf8 (toInt utf8.length)

/-! ## What is relied on -/

/-- The most bytes that `fromUTF8` reads: a buffer holds at most `0x7ffffff5` code units, with the
terminator. -/
def Icu.readLimit : Nat := 2147483636

/-- What ICU reads, it can write. -/
theorem Icu.lt_of_le_readLimit {n : Nat} (h : n ≤ readLimit) : n < 2 ^ 31 :=
  Nat.lt_of_le_of_lt h (by decide)

/-- The calls of `next` from a state on, at the boundary `start` of the code units of a text,
yield the boundaries of a list and then `DONE`. -/
inductive Iterates (iterator : BreakIterator) (units : List UInt16) :
    iterator.State → Nat → List Nat → Prop
  | done {state : iterator.State} {start : Nat} (hDone : (iterator.next state).2 = done)
      (hEnd : start = units.length) : Iterates iterator units state start []
  | next {state : iterator.State} {start limit : Nat} {limits : List Nat}
      (hNext : (iterator.next state).2 = limit) (hStart : start < limit)
      (hLimit : limit ≤ units.length) (hWhole : ¬ SplitsPair units limit)
      (hRest : Iterates iterator units (iterator.next state).1 limit limits) :
      Iterates iterator units state start (limit :: limits)

structure BreakIterator.Lawful (iterator : BreakIterator) : Prop where
  first_eq : ∀ text, (iterator.first (iterator.setText text)).2 = 0
  iterates : ∀ text cs, text.units = utf16 cs → ∃ limits, Iterates iterator (utf16 cs)
    (iterator.first (iterator.setText text)).1 0 limits

structure Icu.Lawful (icu : Icu) : Prop where
  fromUTF8_eq : ∀ cs, (utf8 cs).length ≤ readLimit →
    icu.fromUTF8 (utf8 cs) (utf8 cs).length = .text (utf16 cs)
  fromUTF8_bogus : ∀ s (size : Int), readLimit < size → icu.fromUTF8 s size = .bogus
  /-- Illegal input is replaced, and the length of a string is an `int32_t`. -/
  exists_fromUTF8 : ∀ s size, ∃ cs, (icu.fromUTF8 s size).units = utf16 cs ∧
    (utf16 cs).length < 2 ^ 31
  /-- Of the first bytes of a well-formed string at most the last sequence is replaced. -/
  length_fromUTF8_lt : ∀ cs (size : Int) ds, size ≤ (utf8 cs).length →
    (icu.fromUTF8 (utf8 cs) size).units = utf16 ds → (utf8 ds).length < 2 ^ 31
  /-- The bytes that are appended are counted in an `int32_t`. -/
  toUTF8String_eq : ∀ text cs, text.units = utf16 cs → (utf8 cs).length < 2 ^ 31 →
    icu.toUTF8String text = .ok (utf8 cs)
  char32At_eq : ∀ before c after,
    icu.char32At (.text (utf16 (before ++ c :: after))) (utf16 before).length = c.toNat
  /-- The bogus string is an illegal argument. -/
  normalize_bogus : ∀ normalizer, icu.nfcInstance = some normalizer → normalizer .bogus = none
  exists_characterInstance : ∃ iterator, icu.characterInstance = some iterator ∧ iterator.Lawful
  exists_getScript : ∀ c : Char, ∃ code, icu.getScript c.toNat = some code

/-- What is read depends on the size that is told. A byte gives at most one replacement
character, of three bytes. A negative size is an error, or, if it is `-1`, asks for a
terminated string, which is read into a short buffer. -/
structure Icu.ReadsTold (icu : Icu) : Prop where
  length_le : ∀ (s : Bytes) (size : Nat) (cs : List Char),
    (icu.fromUTF8 s size).units = utf16 cs → (utf8 cs).length ≤ 3 * size
  length_le_of_neg : ∀ (s : Bytes) (size : Int) (cs : List Char), size < 0 →
    (icu.fromUTF8 s size).units = utf16 cs → (utf8 cs).length ≤ readLimit

/-- A text in NFC is a text, and normalisation leaves it as it is. -/
def Icu.NfcLawful (icu : Icu) : Prop :=
  ∀ normalizer, icu.nfcInstance = some normalizer → ∀ cs normalized,
    normalizer (.text (utf16 cs)) = some normalized →
      ∃ ds, normalized = .text (utf16 ds) ∧
        normalizer (.text (utf16 ds)) = some (.text (utf16 ds))

/-- A well-formed UTF-8 string. -/
def WellFormed (s : Bytes) : Prop := ∃ cs, s = utf8 cs

theorem toInt_le (size : Nat) : toInt size ≤ size := by
  unfold toInt
  dsimp only
  split <;> omega

section Lawful

variable {icu : Icu} (hIcu : icu.Lawful)
include hIcu

theorem Icu.Lawful.exists_unicodeString (s : Bytes) :
    ∃ cs, (icu.unicodeString s).units = utf16 cs ∧ (utf16 cs).length < 2 ^ 31 :=
  hIcu.exists_fromUTF8 _ _

theorem Icu.Lawful.unicodeString_utf8 {cs : List Char} (h : (utf8 cs).length ≤ readLimit) :
    icu.unicodeString (utf8 cs) = .text (utf16 cs) := by
  rw [Icu.unicodeString, toInt_of_lt (Icu.lt_of_le_readLimit h)]
  exact hIcu.fromUTF8_eq cs h

theorem Icu.Lawful.units_utf8 {cs : List Char} (h : (utf8 cs).length ≤ readLimit) :
    (icu.unicodeString (utf8 cs)).units = utf16 cs := by
  rw [hIcu.unicodeString_utf8 h, UnicodeString.units_text]

/-- What is read of a well-formed string can be written again. -/
theorem Icu.Lawful.length_lt_of_wellFormed {s : Bytes} (hs : WellFormed s) {ds : List Char}
    (h : (icu.unicodeString s).units = utf16 ds) : (utf8 ds).length < 2 ^ 31 := by
  obtain ⟨cs, rfl⟩ := hs
  exact hIcu.length_fromUTF8_lt cs _ ds (toInt_le _) h

/-- Between the limit and `2 ^ 31` bytes the string is bogus. -/
theorem Icu.Lawful.unicodeString_bogus {s : Bytes} (hLimit : readLimit < s.length)
    (hSize : s.length < 2 ^ 31) : icu.unicodeString s = .bogus := by
  rw [Icu.unicodeString, toInt_of_lt hSize]
  exact hIcu.fromUTF8_bogus s _ (Int.ofNat_lt.mpr hLimit)

/-- A text beyond the limit is never read whole. -/
theorem Icu.Lawful.units_eq_iff (hTold : icu.ReadsTold) {cs : List Char} :
    (icu.unicodeString (utf8 cs)).units = utf16 cs ↔ (utf8 cs).length ≤ readLimit := by
  refine ⟨fun h => ?_, hIcu.units_utf8⟩
  by_cases hNegative : toInt (utf8 cs).length < 0
  · exact hTold.length_le_of_neg _ _ cs hNegative h
  · by_contra hBeyond
    obtain ⟨size, hSize⟩ := Int.eq_ofNat_of_zero_le (Int.not_lt.mp hNegative)
    obtain ⟨hBound, hLow⟩ := toInt_eq_natCast.mp hSize
    rw [Icu.unicodeString, hSize] at h
    by_cases hRead : size ≤ readLimit
    · have hThree := hTold.length_le _ size cs h
      have hLimit : readLimit = 2147483636 := rfl
      omega
    · rw [hIcu.fromUTF8_bogus _ _ (Int.ofNat_lt.mpr (Nat.not_le.mp hRead)),
        UnicodeString.units_bogus] at h
      have hNil : [] = cs := utf16_inj.mp h
      rw [← hNil] at hBeyond
      exact hBeyond (Nat.zero_le _)

/-- Well-formed strings within the limit are read without loss. -/
theorem Icu.Lawful.unicodeString_inj {x y : Bytes} (hx : WellFormed x) (hy : WellFormed y)
    (hxSize : x.length ≤ readLimit) (hySize : y.length ≤ readLimit) :
    icu.unicodeString x = icu.unicodeString y ↔ x = y := by
  rcases hx with ⟨cs, rfl⟩
  rcases hy with ⟨ds, rfl⟩
  rw [hIcu.unicodeString_utf8 hxSize, hIcu.unicodeString_utf8 hySize, UnicodeString.text.injEq,
    utf16_inj, utf8_inj]

/-- The first code point of a text. -/
theorem Icu.Lawful.char32At_zero (c : Char) (cs : List Char) :
    icu.char32At (.text (utf16 (c :: cs))) 0 = c.toNat :=
  hIcu.char32At_eq [] c cs

end Lawful

/-! ## Walks over a text -/

section Walk

variable {β : Type} {loop : UnicodeString → Nat → Nat → List β → Result (List β)} {f : Char → β}
  (hStop : ∀ text steps result, loop text steps text.length result = .ok result)
  (hStep : ∀ before c after steps result,
    loop (.text (utf16 (before ++ c :: after))) (steps + 1) (utf16 before).length result =
      loop (.text (utf16 (before ++ c :: after))) steps ((utf16 before).length + (units c).length)
        (result ++ [f c]))
include hStop hStep

/-- A loop that takes a scalar value at each step yields one entry for each of them. -/
theorem textWalk_eq {text : UnicodeString} {cs : List Char} (hText : text.units = utf16 cs) :
    loop text text.length 0 [] = .ok (cs.map f) := by
  cases cs with
  | nil =>
    have hLength : text.length = 0 := congrArg List.length hText
    have hDone := hStop text text.length []
    rw [hLength] at hDone ⊢
    exact hDone
  | cons c cs =>
    rw [UnicodeString.eq_text_of_units hText]
    refine walk_eq (hStop (.text (utf16 (c :: cs)))) ?_ (length_le_utf16 (c :: cs))
    intro before c' after hSame steps result
    rw [hSame]
    exact hStep before c' after steps result

end Walk

end IndicCrypt.Text
