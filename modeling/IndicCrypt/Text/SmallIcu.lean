import IndicCrypt.Text.IndicText

/-!
# A small ICU

An executable `Icu` that satisfies `Icu.Lawful`. It knows the canonical decompositions of the
Devanagari letters with a nukta, which NFC leaves decomposed, joins a nukta to the letter
before it when it looks for boundaries, and tells Devanagari from everything else.
-/

namespace IndicCrypt.Text.SmallIcu

open Transcoding

/-! ## Transcoding -/

def fromUTF8 (data : Bytes) (size : Int) : UnicodeString :=
  if size < 0 ∨ Icu.readLimit < size then
    .bogus
  else
    .text (utf16 ((decodeUtf8 (data.take size.toNat)).getD ['\ufffd']))

/-- The bytes are counted in an `int32_t`, and as many are appended. -/
def toUTF8String (text : UnicodeString) : Result Bytes :=
  let bytes := utf8 (decodeUtf16 text.units)
  let count := toInt bytes.length
  if count < 0 then .error (.lengthError "basic_string::append") else .ok (bytes.take count.toNat)

def char32At (text : UnicodeString) (offset : Int) : Int :=
  match decodeUtf16 (text.units.drop offset.toNat) with
  | [] => 0xffff
  | c :: _ => c.toNat

/-! ## Normalisation -/

/-- U+0958 to U+095F with the letters that they are composed from. -/
def nuktaLetters : List (Char × Char) := [
  ('\u0958', '\u0915'), ('\u0959', '\u0916'), ('\u095a', '\u0917'), ('\u095b', '\u091c'),
  ('\u095c', '\u0921'), ('\u095d', '\u0922'), ('\u095e', '\u092b'), ('\u095f', '\u092f')]

def decompose (c : Char) : List Char :=
  match nuktaLetters.lookup c with
  | some letter => [letter, '\u093c']
  | none => [c]

def normalize (text : UnicodeString) : Option UnicodeString :=
  match text with
  | .bogus => none
  | .text units => some (.text (utf16 ((decodeUtf16 units).flatMap decompose)))

/-! ## Boundaries -/

/-- No boundary stands before a trail surrogate and before a nukta. -/
def Joins (u : UInt16) : Prop := IsTrail u ∨ u = 0x093c

instance : DecidablePred Joins := fun _ => inferInstanceAs (Decidable (_ ∨ _))

/-- The boundary behind the code unit at a position. -/
def boundary (text : List UInt16) (position : Nat) : Nat :=
  position + 1 + ((text.drop (position + 1)).takeWhile (fun u => decide (Joins u))).length

/-- The state is the text with the current position. -/
def characterIterator : BreakIterator where
  State := List UInt16 × Nat
  setText text := (text.units, 0)
  first state := ((state.1, 0), 0)
  next state :=
    if state.2 < state.1.length then
      let position := boundary state.1 state.2
      ((state.1, position), position)
    else
      (state, done)

/-! ## Scripts -/

def getScript (codePoint : Int) : Option UScriptCode :=
  if 0x0900 ≤ codePoint ∧ codePoint ≤ 0x097f then some .devanagari else some (.other 0)

end SmallIcu

open SmallIcu in
def smallIcu : Icu where
  fromUTF8 := fromUTF8
  toUTF8String := toUTF8String
  char32At := char32At
  nfcInstance := some normalize
  characterInstance := some characterIterator
  getScript := getScript

namespace SmallIcu

open Transcoding

/-! ## It is lawful -/

/-- What is read of some bytes, with its size. -/
theorem exists_chars (data : Bytes) (size : Nat) :
    ∃ cs, (decodeUtf8 (data.take size)).getD ['\ufffd'] = cs ∧
      ((utf8 cs).length ≤ size ∨ 0 < size ∧ (utf8 cs).length = 3) := by
  cases hDecode : decodeUtf8 (data.take size) with
  | some cs =>
    refine ⟨cs, rfl, .inl ?_⟩
    rw [utf8_of_decodeUtf8 hDecode, List.length_take]
    omega
  | none =>
    refine ⟨['\ufffd'], rfl, .inr ⟨?_, rfl⟩⟩
    apply Nat.pos_of_ne_zero
    rintro rfl
    cases hDecode.symm.trans (decodeUtf8_utf8 [])

theorem fromUTF8_bogus (data : Bytes) {size : Int} (h : size < 0 ∨ Icu.readLimit < size) :
    fromUTF8 data size = .bogus :=
  if_pos h

/-- A string is read or it is bogus. -/
theorem fromUTF8_cases (data : Bytes) (size : Int) :
    fromUTF8 data size = .bogus ∨ ∃ cs, fromUTF8 data size = .text (utf16 cs) ∧
      size.toNat ≤ Icu.readLimit ∧
      ((utf8 cs).length ≤ size.toNat ∨ 0 < size.toNat ∧ (utf8 cs).length = 3) := by
  by_cases hSize : size < 0 ∨ Icu.readLimit < size
  · exact .inl (fromUTF8_bogus data hSize)
  · obtain ⟨cs, hChars, hLength⟩ := exists_chars data size.toNat
    refine .inr ⟨cs, ?_, by omega, hLength⟩
    rw [fromUTF8, if_neg hSize, hChars]

theorem exists_fromUTF8 (data : Bytes) (size : Int) :
    ∃ cs, (fromUTF8 data size).units = utf16 cs ∧ (utf16 cs).length < 2 ^ 31 := by
  have hLimit : Icu.readLimit = 2147483636 := rfl
  obtain hBogus | ⟨cs, hText, hSize, hLength⟩ := fromUTF8_cases data size
  · rw [hBogus]
    exact ⟨[], rfl, Nat.two_pow_pos 31⟩
  · have hUnits := length_utf16_le cs
    rw [hText]
    exact ⟨cs, rfl, by omega⟩

theorem fromUTF8_eq (cs : List Char) (hSize : (utf8 cs).length ≤ Icu.readLimit) :
    fromUTF8 (utf8 cs) (utf8 cs).length = .text (utf16 cs) := by
  have hRange : ¬ (((utf8 cs).length : Int) < 0 ∨ Icu.readLimit < ((utf8 cs).length : Int)) := by
    omega
  rw [fromUTF8, if_neg hRange, Int.toNat_natCast, List.take_length, decodeUtf8_utf8,
    Option.getD_some]

theorem length_fromUTF8_lt (data : Bytes) (size : Int) (ds : List Char)
    (h : (fromUTF8 data size).units = utf16 ds) : (utf8 ds).length < 2 ^ 31 := by
  have hLimit : Icu.readLimit = 2147483636 := rfl
  obtain hBogus | ⟨cs, hText, hSize, hLength⟩ := fromUTF8_cases data size
  · have hNil : utf16 [] = utf16 ds := by rw [← h, hBogus, UnicodeString.units_bogus, utf16_nil]
    rw [← utf16_inj.mp hNil]
    exact Nat.two_pow_pos 31
  · rw [hText, UnicodeString.units_text, utf16_inj] at h
    subst h
    omega

theorem toUTF8String_eq (text : UnicodeString) (cs : List Char) (hText : text.units = utf16 cs)
    (hSize : (utf8 cs).length < 2 ^ 31) : toUTF8String text = .ok (utf8 cs) := by
  have hNonneg : ¬ ((utf8 cs).length : Int) < 0 := by omega
  unfold toUTF8String
  dsimp only
  rw [hText, decodeUtf16_utf16, toInt_of_lt hSize, if_neg hNonneg, Int.toNat_natCast,
    List.take_length]

theorem char32At_eq (before : List Char) (c : Char) (after : List Char) :
    char32At (.text (utf16 (before ++ c :: after))) (utf16 before).length = c.toNat := by
  unfold char32At
  rw [UnicodeString.units_text, Int.toNat_natCast, utf16_append, List.drop_left, decodeUtf16_utf16]

theorem lt_boundary (text : List UInt16) (position : Nat) : position < boundary text position := by
  unfold boundary
  omega

theorem boundary_le {text : List UInt16} {position : Nat} (h : position < text.length) :
    boundary text position ≤ text.length := by
  have hTake := List.IsPrefix.length_le
    (List.takeWhile_prefix (l := text.drop (position + 1)) fun u => decide (Joins u))
  rw [List.length_drop] at hTake
  unfold boundary
  omega

theorem drop_length_takeWhile {α : Type} (p : α → Bool) (l : List α) :
    l.drop (l.takeWhile p).length = l.dropWhile p := by
  calc l.drop (l.takeWhile p).length
      = (l.takeWhile p ++ l.dropWhile p).drop (l.takeWhile p).length := by
        rw [List.takeWhile_append_dropWhile]
    _ = l.dropWhile p := List.drop_left

/-- The code unit behind a boundary joins nothing, so it is no trail surrogate. -/
theorem not_splitsPair_boundary (text : List UInt16) (position : Nat) :
    ¬ SplitsPair text (boundary text position) := by
  intro hSplit
  rcases hSplit with ⟨front, u, v, rest, hText, hPosition, -, hTrail⟩
  have hDrop : text.drop (boundary text position) = v :: rest := by
    rw [hPosition, hText, List.drop_length_add_append]
    rfl
  have hWhile : (text.drop (position + 1)).dropWhile (fun u => decide (Joins u)) = v :: rest := by
    rw [← drop_length_takeWhile, List.drop_drop]
    exact hDrop
  have hNot := List.head?_dropWhile_not (fun u => decide (Joins u)) (text.drop (position + 1))
  rw [hWhile] at hNot
  exact of_decide_eq_false hNot (.inl hTrail)

/-- The iterator yields the boundaries that are left. -/
theorem iterates_from (text : List UInt16) (left : Nat) {position : Nat}
    (hLeft : text.length ≤ position + left) (hPosition : position ≤ text.length) :
    ∃ limits, Iterates characterIterator text (text, position) position limits := by
  induction left generalizing position with
  | zero =>
    have hEnd : position = text.length := by omega
    exact ⟨[], .done (congrArg Prod.snd (if_neg (Nat.not_lt_of_le (Nat.le_of_eq hEnd.symm)))) hEnd⟩
  | succ left ih =>
    by_cases hLess : position < text.length
    · have hNext : characterIterator.next (text, position) =
          ((text, boundary text position), (boundary text position : Int)) := if_pos hLess
      have hBoundary := lt_boundary text position
      rcases ih (by omega) (boundary_le hLess) with ⟨limits, hLimits⟩
      refine ⟨boundary text position :: limits, .next ?_ hBoundary (boundary_le hLess)
        (not_splitsPair_boundary _ _) ?_⟩
      · rw [hNext]
      · rw [hNext]
        exact hLimits
    · have hEnd : position = text.length := by omega
      exact ⟨[], .done (congrArg Prod.snd (if_neg hLess)) hEnd⟩

theorem exists_getScript (codePoint : Int) : ∃ code, getScript codePoint = some code := by
  unfold getScript
  by_cases hDevanagari : 0x0900 ≤ codePoint ∧ codePoint ≤ 0x097f
  · exact ⟨_, if_pos hDevanagari⟩
  · exact ⟨_, if_neg hDevanagari⟩

theorem lawful : smallIcu.Lawful where
  fromUTF8_eq := fromUTF8_eq
  fromUTF8_bogus data _ hSize := fromUTF8_bogus data (.inr hSize)
  exists_fromUTF8 := exists_fromUTF8
  length_fromUTF8_lt _ size ds _ hText := length_fromUTF8_lt _ size ds hText
  toUTF8String_eq := toUTF8String_eq
  char32At_eq := char32At_eq
  normalize_bogus normalizer hInstance := by
    obtain rfl := Option.some.inj hInstance
    rfl
  exists_characterInstance := ⟨characterIterator, rfl, {
    first_eq := fun _ => rfl
    iterates := by
      intro text cs hText
      rw [← hText]
      exact iterates_from text.units text.units.length (Nat.le_add_left _ _) (Nat.zero_le _) }⟩
  exists_getScript c := exists_getScript c.toNat

theorem fromUTF8_of_neg (s : Bytes) {size : Int} (h : size < 0) : fromUTF8 s size = .bogus :=
  fromUTF8_bogus s (.inl h)

theorem readsTold : smallIcu.ReadsTold where
  length_le s size cs h := by
    obtain hBogus | ⟨ds, hText, -, hLength⟩ := fromUTF8_cases s size
    · have hNil : utf16 [] = utf16 cs := by
        rw [← h]
        exact (congrArg UnicodeString.units hBogus).symm
      rw [← utf16_inj.mp hNil]
      exact Nat.zero_le _
    · have hSame : utf16 ds = utf16 cs := by
        rw [← h]
        exact (congrArg UnicodeString.units hText).symm
      rw [← utf16_inj.mp hSame]
      omega
  length_le_of_neg s size cs hNegative h := by
    have hNil : utf16 [] = utf16 cs := by
      rw [← h]
      exact (congrArg UnicodeString.units (fromUTF8_of_neg s hNegative)).symm
    rw [← utf16_inj.mp hNil]
    exact Nat.zero_le _

theorem normalize_utf16 (cs : List Char) :
    normalize (.text (utf16 cs)) = some (.text (utf16 (cs.flatMap decompose))) := by
  rw [normalize, decodeUtf16_utf16]

/-- What a letter is decomposed to is not decomposed further. -/
theorem flatMap_decompose (c : Char) : (decompose c).flatMap decompose = decompose c := by
  have hLetters : ∀ pair ∈ nuktaLetters, decompose pair.2 = [pair.2] := by decide
  have hNukta : decompose '\u093c' = ['\u093c'] := rfl
  cases hLookup : nuktaLetters.lookup c with
  | none =>
    have hSelf : decompose c = [c] := by rw [decompose, hLookup]
    rw [hSelf, List.flatMap_singleton, hSelf]
  | some letter =>
    obtain ⟨front, rest, hTable, -⟩ := List.lookup_eq_some_iff.mp hLookup
    have hMem : (c, letter) ∈ nuktaLetters := by
      rw [hTable]
      exact List.mem_append_right _ List.mem_cons_self
    have hPair : decompose c = [letter, '\u093c'] := by rw [decompose, hLookup]
    rw [hPair, List.flatMap_cons, List.flatMap_singleton, hLetters _ hMem, hNukta]
    rfl

theorem length_utf8_decompose_replicate (n : Nat) (c : Char) :
    (utf8 ((List.replicate n c).flatMap decompose)).length = n * (utf8 (decompose c)).length := by
  induction n with
  | zero => exact (Nat.zero_mul _).symm
  | succ n ih =>
    rw [List.replicate_succ, List.flatMap_cons, utf8_append, List.length_append, ih, Nat.succ_mul,
      Nat.add_comm]

theorem nfcLawful : smallIcu.NfcLawful := by
  intro normalizer hInstance cs normalized hNormalized
  obtain rfl := Option.some.inj hInstance
  rw [normalize_utf16, Option.some.injEq] at hNormalized
  refine ⟨_, hNormalized.symm, ?_⟩
  simp only [normalize_utf16, List.flatMap_assoc, flatMap_decompose]

/-- What is normalised are the scalar values. -/
theorem nfcForm_decompose {cs : List Char} (hSize : (utf8 cs).length ≤ Icu.readLimit) :
    NfcForm smallIcu (utf8 cs) (cs.flatMap decompose) := by
  refine ⟨_, rfl, ?_⟩
  rw [lawful.unicodeString_utf8 hSize, normalize_utf16]

theorem normalizeNfc_eq {cs : List Char} (hSize : (utf8 cs).length ≤ Icu.readLimit)
    (hForm : (utf8 (cs.flatMap decompose)).length < 2 ^ 31) :
    normalizeNfc smallIcu (utf8 cs) = .ok (utf8 (cs.flatMap decompose)) :=
  normalizeNfc_of_nfcForm lawful (nfcForm_decompose hSize) hForm

end IndicCrypt.Text.SmallIcu
