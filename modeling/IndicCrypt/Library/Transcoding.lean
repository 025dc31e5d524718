import Mathlib.Data.List.Basic
import Mathlib.Data.Nat.Notation

/-!
# UTF-8 and UTF-16

The two encodings of a list of scalar values, with a decoder for each. A position in UTF-16
that does not fall between the two halves of a surrogate pair is the end of a prefix of the
scalar values (`exists_utf16_eq_take`), so that a text cut there is cut into texts.

A loop that goes over the code units of a text, from each scalar value to the next one, and
appends something for each, yields what belongs to them all (`walk_eq`).
-/

namespace Transcoding

/-! ## UTF-8 -/

def utf8 (chars : List Char) : List UInt8 := chars.flatMap String.utf8EncodeChar

@[simp] theorem utf8_cons (c : Char) (cs : List Char) :
    utf8 (c :: cs) = String.utf8EncodeChar c ++ utf8 cs := rfl

@[simp] theorem utf8_append (cs ds : List Char) : utf8 (cs ++ ds) = utf8 cs ++ utf8 ds :=
  List.flatMap_append

theorem utf8_flatten (pieces : List (List Char)) :
    utf8 pieces.flatten = (pieces.map utf8).flatten := by
  induction pieces with
  | nil => rfl
  | cons piece pieces ih => rw [List.flatten_cons, utf8_append, ih, List.map_cons, List.flatten_cons]

/-- The scalar values of a well-formed byte string. -/
def decodeUtf8 (s : List UInt8) : Option (List Char) :=
  s.toByteArray.utf8Decode?.map Array.toList

theorem decodeUtf8_utf8 (cs : List Char) : decodeUtf8 (utf8 cs) = some cs := by
  have hDecode : (utf8 cs).toByteArray.utf8Decode? = some cs.toArray := List.utf8Decode?_utf8Encode
  rw [decodeUtf8, hDecode, Option.map_some]

/-- What is decoded is the string itself. -/
theorem utf8_of_decodeUtf8 {s : List UInt8} {cs : List Char} (h : decodeUtf8 s = some cs) :
    utf8 cs = s := by
  obtain ⟨chars, hChars, -⟩ := Option.map_eq_some_iff.mp h
  obtain ⟨ds, hEncode⟩ := ByteArray.isSome_utf8Decode?_iff.mp (Option.isSome_of_eq_some hChars)
  have hSame : s.toByteArray = (utf8 ds).toByteArray := hEncode
  have hBytes := congrArg (fun b => b.data.toList) hSame
  simp only [List.toList_data_toByteArray] at hBytes
  rw [hBytes, decodeUtf8_utf8, Option.some.injEq] at h
  rw [hBytes, h]

theorem utf8_inj {cs ds : List Char} : utf8 cs = utf8 ds ↔ cs = ds := by
  constructor
  · intro h
    have hDecode := congrArg decodeUtf8 h
    rwa [decodeUtf8_utf8, decodeUtf8_utf8, Option.some.injEq] at hDecode
  · rintro rfl
    rfl

/-! ## UTF-16 -/

def IsLead (u : UInt16) : Prop := 0xd800 ≤ u.toNat ∧ u.toNat < 0xdc00

def IsTrail (u : UInt16) : Prop := 0xdc00 ≤ u.toNat ∧ u.toNat < 0xe000

instance : DecidablePred IsLead := fun _ => inferInstanceAs (Decidable (_ ∧ _))

instance : DecidablePred IsTrail := fun _ => inferInstanceAs (Decidable (_ ∧ _))

def lead (code : Nat) : UInt16 := .ofNat (0xd800 + (code - 0x10000) / 0x400)

def trail (code : Nat) : UInt16 := .ofNat (0xdc00 + (code - 0x10000) % 0x400)

/-- The code units of a scalar value. -/
def units (c : Char) : List UInt16 :=
  if c.toNat < 0x10000 then [.ofNat c.toNat] else [lead c.toNat, trail c.toNat]

def utf16 (chars : List Char) : List UInt16 := chars.flatMap units

@[simp] theorem utf16_nil : utf16 [] = [] := rfl

@[simp] theorem utf16_cons (c : Char) (cs : List Char) : utf16 (c :: cs) = units c ++ utf16 cs := rfl

@[simp] theorem utf16_append (cs ds : List Char) : utf16 (cs ++ ds) = utf16 cs ++ utf16 ds :=
  List.flatMap_append

theorem length_units_pos (c : Char) : 0 < (units c).length := by
  unfold units
  split
  · exact Nat.one_pos
  · exact Nat.two_pos

theorem length_utf16_pos {cs : List Char} (h : cs ≠ []) : 0 < (utf16 cs).length := by
  cases cs with
  | nil => exact absurd rfl h
  | cons c cs =>
    rw [utf16_cons, List.length_append]
    exact Nat.add_pos_left (length_units_pos c) _

theorem length_le_utf16 (cs : List Char) : cs.length ≤ (utf16 cs).length := by
  induction cs with
  | nil => exact Nat.le_refl 0
  | cons c cs ih =>
    have hPos := length_units_pos c
    rw [utf16_cons, List.length_append, List.length_cons]
    omega

/-- UTF-16 needs no more code units than UTF-8 needs bytes. -/
theorem length_utf16_le (cs : List Char) : (utf16 cs).length ≤ (utf8 cs).length := by
  induction cs with
  | nil => exact Nat.le_refl 0
  | cons c cs ih =>
    have hUnits : (units c).length ≤ (String.utf8EncodeChar c).length := by
      have hPos := c.utf8Size_pos
      rw [String.length_utf8EncodeChar]
      unfold units
      by_cases hBasic : c.toNat < 0x10000
      · rw [if_pos hBasic]
        exact hPos
      · have hNotOne : c.utf8Size ≠ 1 := by
          intro hOne
          have hAscii : c.toNat ≤ 127 := UInt32.le_iff_toNat_le.mp (Char.utf8Size_eq_one_iff.mp hOne)
          omega
        rw [if_neg hBasic, List.length_cons, List.length_singleton]
        omega
    rw [utf16_cons, List.length_append, utf8_cons, List.length_append]
    exact Nat.add_le_add hUnits ih

/-- A piece of a text is not longer than the text. -/
theorem length_utf8_le_of_mem {pieces : List (List Char)} {piece : List Char}
    (h : piece ∈ pieces) : (utf8 piece).length ≤ (utf8 pieces.flatten).length := by
  obtain ⟨before, after, rfl⟩ := List.append_of_mem h
  rw [List.flatten_append, List.flatten_cons, utf8_append, utf8_append, List.length_append,
    List.length_append]
  omega

theorem length_utf8_replicate (n : Nat) (c : Char) :
    (utf8 (List.replicate n c)).length = n * c.utf8Size := by
  induction n with
  | zero => exact (Nat.zero_mul _).symm
  | succ n ih =>
    rw [List.replicate_succ, utf8_cons, List.length_append, ih, String.length_utf8EncodeChar,
      Nat.succ_mul, Nat.add_comm]

theorem length_utf8_singleton_le (c : Char) : (utf8 [c]).length ≤ 4 := by
  have hSize := c.utf8Size_le_four
  rw [utf8_cons, List.length_append, String.length_utf8EncodeChar]
  exact hSize

/-- Nonempty pieces of a single element are that element. -/
theorem pieces_eq_singleton {α : Type} {pieces : List (List α)} {c : α} (h : pieces.flatten = [c])
    (hPieces : ∀ piece ∈ pieces, piece ≠ []) : pieces = [[c]] := by
  cases pieces with
  | nil => cases h
  | cons piece rest =>
    obtain ⟨hPiece, hRest⟩ := List.forall_mem_cons.mp hPieces
    rw [List.flatten_cons] at h
    cases piece with
    | nil => exact absurd rfl hPiece
    | cons d piece =>
      obtain ⟨rfl, hNil⟩ := List.cons.inj h
      obtain ⟨rfl, hFlatten⟩ := List.append_eq_nil_iff.mp hNil
      cases rest with
      | nil => rfl
      | cons next rest =>
        exact absurd (List.append_eq_nil_iff.mp hFlatten).1 (List.forall_mem_cons.mp hRest).1

/-- A scalar value is no surrogate and lies below `0x110000`. -/
theorem char_cases (c : Char) : c.toNat < 0xd800 ∨ 0xdfff < c.toNat ∧ c.toNat < 0x110000 := c.valid

theorem toNat_lead {code : Nat} (h : code < 0x110000) :
    (lead code).toNat = 0xd800 + (code - 0x10000) / 0x400 := by
  rw [lead, UInt16.toNat_ofNat', Nat.mod_eq_of_lt]
  omega

theorem toNat_trail (code : Nat) : (trail code).toNat = 0xdc00 + (code - 0x10000) % 0x400 := by
  rw [trail, UInt16.toNat_ofNat', Nat.mod_eq_of_lt]
  omega

theorem isLead_lead {code : Nat} (h : code < 0x110000) : IsLead (lead code) := by
  unfold IsLead
  rw [toNat_lead h]
  omega

theorem isTrail_trail (code : Nat) : IsTrail (trail code) := by
  unfold IsTrail
  rw [toNat_trail]
  omega

/-- The scalar values of a sequence of code units; an unpaired surrogate counts as U+FFFD. -/
def decodeUtf16 : List UInt16 → List Char
  | [] => []
  | [u] => [if IsLead u ∨ IsTrail u then '\ufffd' else .ofNat u.toNat]
  | u :: v :: rest =>
    if IsLead u ∧ IsTrail v then
      .ofNat (0x10000 + (u.toNat - 0xd800) * 0x400 + (v.toNat - 0xdc00)) :: decodeUtf16 rest
    else
      (if IsLead u ∨ IsTrail u then '\ufffd' else .ofNat u.toNat) :: decodeUtf16 (v :: rest)

theorem decodeUtf16_cons {u : UInt16} (hLead : ¬ IsLead u) (hTrail : ¬ IsTrail u)
    (rest : List UInt16) : decodeUtf16 (u :: rest) = .ofNat u.toNat :: decodeUtf16 rest := by
  have hNot : ¬ (IsLead u ∨ IsTrail u) := not_or.mpr ⟨hLead, hTrail⟩
  cases rest with
  | nil => exact congrArg (fun c => [c]) (if_neg hNot)
  | cons v rest => rw [decodeUtf16, if_neg fun h => hLead h.1, if_neg hNot]

theorem decodeUtf16_units (c : Char) (rest : List UInt16) :
    decodeUtf16 (units c ++ rest) = c :: decodeUtf16 rest := by
  have hChar := char_cases c
  unfold units
  by_cases hBasic : c.toNat < 0x10000
  · have hNat : (UInt16.ofNat c.toNat).toNat = c.toNat := by
      rw [UInt16.toNat_ofNat', Nat.mod_eq_of_lt hBasic]
    have hLead : ¬ IsLead (.ofNat c.toNat) := by
      unfold IsLead
      omega
    have hTrail : ¬ IsTrail (.ofNat c.toNat) := by
      unfold IsTrail
      omega
    rw [if_pos hBasic, List.singleton_append, decodeUtf16_cons hLead hTrail, hNat, Char.ofNat_toNat]
  · have hBound : c.toNat < 0x110000 := by omega
    have hCode : 0x10000 + ((lead c.toNat).toNat - 0xd800) * 0x400 +
        ((trail c.toNat).toNat - 0xdc00) = c.toNat := by
      rw [toNat_lead hBound, toNat_trail]
      omega
    rw [if_neg hBasic, List.cons_append, List.singleton_append, decodeUtf16,
      if_pos ⟨isLead_lead hBound, isTrail_trail _⟩, hCode, Char.ofNat_toNat]

theorem decodeUtf16_utf16 (cs : List Char) : decodeUtf16 (utf16 cs) = cs := by
  induction cs with
  | nil => rfl
  | cons c cs ih => rw [utf16_cons, decodeUtf16_units, ih]

theorem utf16_inj {cs ds : List Char} : utf16 cs = utf16 ds ↔ cs = ds := by
  constructor
  · intro h
    have hDecode := congrArg decodeUtf16 h
    rwa [decodeUtf16_utf16, decodeUtf16_utf16] at hDecode
  · rintro rfl
    rfl

/-! ## Positions -/

/-- The position falls between the two halves of a surrogate pair. -/
def SplitsPair (text : List UInt16) (position : Nat) : Prop :=
  ∃ front u v rest, text = front ++ u :: v :: rest ∧ position = front.length + 1 ∧
    IsLead u ∧ IsTrail v

theorem SplitsPair.append_left {text : List UInt16} {position : Nat}
    (h : SplitsPair text position) (front : List UInt16) :
    SplitsPair (front ++ text) (front.length + position) := by
  rcases h with ⟨before, u, v, rest, rfl, rfl, hLead, hTrail⟩
  refine ⟨front ++ before, u, v, rest, (List.append_assoc _ _ _).symm, ?_, hLead, hTrail⟩
  rw [List.length_append, Nat.add_assoc]

/-- A position that splits no pair is the end of a prefix of the scalar values. -/
theorem exists_utf16_eq_take (cs : List Char) {position : Nat}
    (hLe : position ≤ (utf16 cs).length) (hWhole : ¬ SplitsPair (utf16 cs) position) :
    ∃ before after, cs = before ++ after ∧ (utf16 before).length = position := by
  induction cs generalizing position with
  | nil => exact ⟨[], [], rfl, (Nat.le_zero.mp hLe).symm⟩
  | cons c cs ih =>
    by_cases hZero : position = 0
    · exact ⟨[], c :: cs, rfl, hZero.symm⟩
    rw [utf16_cons, List.length_append] at hLe
    rw [utf16_cons] at hWhole
    -- no position falls inside the code units of `c`
    have hUnits : (units c).length ≤ position := by
      by_contra hInside
      unfold units at hInside hWhole
      by_cases hBasic : c.toNat < 0x10000
      · rw [if_pos hBasic, List.length_singleton] at hInside
        omega
      · rw [if_neg hBasic] at hInside hWhole
        have hOne : position = 1 := by
          simp only [List.length_cons, List.length_nil] at hInside
          omega
        have hBound : c.toNat < 0x110000 := by
          have := char_cases c
          omega
        exact hWhole ⟨[], _, _, utf16 cs, rfl, hOne, isLead_lead hBound, isTrail_trail _⟩
    obtain ⟨rest, rfl⟩ := Nat.exists_eq_add_of_le hUnits
    have hRest : rest ≤ (utf16 cs).length := by omega
    rcases ih hRest fun h => hWhole (h.append_left _) with ⟨before, after, rfl, hLength⟩
    refine ⟨c :: before, after, rfl, ?_⟩
    rw [utf16_cons, List.length_append, hLength]

/-! ## Walks -/

section Walk

variable {ε β : Type} {loop : Nat → Nat → List β → Except ε (List β)} {f : Char → β}
  {cs : List Char} (hEnd : ∀ steps result, loop steps (utf16 cs).length result = .ok result)
  (hStep : ∀ before c after, cs = before ++ c :: after → ∀ steps result,
    loop (steps + 1) (utf16 before).length result =
      loop steps ((utf16 before).length + (units c).length) (result ++ [f c]))
include hEnd hStep

/-- The steps of a loop from any position between two scalar values on. -/
theorem walk_from {before after : List Char} (hText : cs = before ++ after) {steps : Nat}
    (hSteps : after.length ≤ steps) (result : List β) :
    loop steps (utf16 before).length result = .ok (result ++ after.map f) := by
  induction after generalizing before steps result with
  | nil =>
    rw [List.append_nil] at hText
    rw [← hText, hEnd, List.map_nil, List.append_nil]
  | cons c after ih =>
    cases steps with
    | zero => exact absurd hSteps (Nat.not_succ_le_zero _)
    | succ steps =>
      have hAssoc : cs = (before ++ [c]) ++ after := by
        rw [hText, List.append_assoc, List.singleton_append]
      have hNext : (utf16 before).length + (units c).length = (utf16 (before ++ [c])).length := by
        rw [utf16_append, utf16_cons, utf16_nil, List.append_nil, List.length_append]
      rw [hStep before c after hText, hNext, ih hAssoc (Nat.le_of_succ_le_succ hSteps),
        List.append_assoc, List.singleton_append, List.map_cons]

theorem walk_eq {steps : Nat} (hSteps : cs.length ≤ steps) :
    loop steps 0 [] = .ok (cs.map f) :=
  walk_from hEnd hStep (List.nil_append cs).symm hSteps []

end Walk

/-- Inside a text there are code units left. -/
theorem length_utf16_lt (before : List Char) (c : Char) (after : List Char) :
    (utf16 before).length < (utf16 (before ++ c :: after)).length := by
  have hPos := length_units_pos c
  rw [utf16_append, utf16_cons, List.length_append, List.length_append]
  omega

end Transcoding
