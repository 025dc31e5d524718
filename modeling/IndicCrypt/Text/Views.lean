import IndicCrypt.Text.SmallIcu

/-!
# The two views of a normalised text

An `IndicText` stores its text twice, as UTF-8 and as code points. Both are the same text, and
normalising the stored bytes gives the object back, exactly when the NFC form has at most
`Icu.readLimit` bytes (`indicText_views_iff`): it may be longer than the input, and
`decodeCodePoints` reads it again. From `2 ^ 31` bytes on the NFC form is not written as it is,
and what an object stores instead agrees only if it is a readable text in NFC itself.
-/

namespace IndicCrypt.Text

open Run Transcoding

/-- A Unicode scalar value. -/
def IsScalar (codePoint : CodePoint) : Prop :=
  codePoint.toNat ≤ 0x10ffff ∧ ¬ (0xd800 ≤ codePoint.toNat ∧ codePoint.toNat ≤ 0xdfff)

instance : DecidablePred IsScalar := fun _ => inferInstanceAs (Decidable (_ ∧ ¬ _))

/-- The UTF-8 encoding of scalar values in order. -/
def encodeUtf8 (codePoints : List CodePoint) : Bytes :=
  utf8 (codePoints.map fun codePoint => Char.ofNat codePoint.toNat)

/-- The code points are scalar values, the bytes are their encoding, and normalising the bytes
gives the object back. -/
structure IndicText.Agrees (icu : Icu) (text : IndicText) : Prop where
  scalar : ∀ codePoint ∈ text.codePoints, IsScalar codePoint
  encoding : encodeUtf8 text.codePoints = text.normalizedUtf8
  stable : IndicText.fromUtf8 icu text.normalizedUtf8 = .ok text

theorem isScalar_val (c : Char) : IsScalar c.val := by
  have hChar := char_cases c
  unfold IsScalar
  change c.toNat ≤ 0x10ffff ∧ ¬ (0xd800 ≤ c.toNat ∧ c.toNat ≤ 0xdfff)
  omega

theorem isScalar_of_mem_map {cs : List Char} {codePoint : CodePoint}
    (h : codePoint ∈ cs.map Char.val) : IsScalar codePoint := by
  obtain ⟨c, -, rfl⟩ := List.mem_map.mp h
  exact isScalar_val c

theorem encodeUtf8_map_val (cs : List Char) : encodeUtf8 (cs.map Char.val) = utf8 cs := by
  have hSelf : (fun codePoint : CodePoint => Char.ofNat codePoint.toNat) ∘ Char.val = id := by
    funext c
    exact Char.ofNat_toNat c
  rw [encodeUtf8, List.map_map, hSelf, List.map_id]

section Views

variable {icu : Icu} (hIcu : icu.Lawful)
include hIcu

theorem fromUtf8_eq {input : Bytes} {ds es : List Char} (h : NfcForm icu input ds)
    (hSize : (utf8 ds).length < 2 ^ 31) (hText : (icu.unicodeString (utf8 ds)).units = utf16 es) :
    IndicText.fromUtf8 icu input = .ok ⟨utf8 ds, es.map Char.val⟩ :=
  IndicText.fromUtf8_eq_ok.mpr
    ⟨normalizeNfc_of_nfcForm hIcu h hSize, decodeCodePoints_eq hIcu hText⟩

/-- The code points are those that are read of the stored bytes. -/
theorem exists_codePoints {input : Bytes} {text : IndicText}
    (h : IndicText.fromUtf8 icu input = .ok text) :
    ∃ es, (icu.unicodeString text.normalizedUtf8).units = utf16 es ∧
      text.codePoints = es.map Char.val := by
  obtain ⟨es, hText, -⟩ := hIcu.exists_unicodeString text.normalizedUtf8
  have hCodePoints := (IndicText.fromUtf8_eq_ok.mp h).2
  rw [decodeCodePoints_eq hIcu hText, Except.ok.injEq] at hCodePoints
  exact ⟨es, hText, hCodePoints.symm⟩

theorem isScalar_of_fromUtf8 {input : Bytes} {text : IndicText}
    (h : IndicText.fromUtf8 icu input = .ok text) :
    ∀ codePoint ∈ text.codePoints, IsScalar codePoint := by
  obtain ⟨es, -, hCodePoints⟩ := exists_codePoints hIcu h
  rw [hCodePoints]
  exact fun _ hMem => isScalar_of_mem_map hMem

/-- An object is consistent if and only if what it stores is a text in NFC that ICU reads. -/
theorem agrees_iff (hTold : icu.ReadsTold) {input : Bytes} {text : IndicText}
    (h : IndicText.fromUtf8 icu input = .ok text) :
    text.Agrees icu ↔ text.normalizedUtf8.length ≤ Icu.readLimit ∧
      WellFormed text.normalizedUtf8 ∧
      normalizeNfc icu text.normalizedUtf8 = .ok text.normalizedUtf8 := by
  obtain ⟨es, hText, hCodePoints⟩ := exists_codePoints hIcu h
  constructor
  · intro hAgrees
    have hEncoding := hAgrees.encoding
    rw [hCodePoints, encodeUtf8_map_val] at hEncoding
    rw [← hEncoding, hIcu.units_eq_iff hTold] at hText
    refine ⟨hEncoding ▸ hText, ⟨es, hEncoding.symm⟩, ?_⟩
    exact (IndicText.fromUtf8_eq_ok.mp hAgrees.stable).1
  · intro hStored
    obtain ⟨hSize, ⟨cs, hcs⟩, hNfc⟩ := hStored
    have hRead := hText
    rw [hcs, hIcu.units_utf8 (hcs ▸ hSize), utf16_inj] at hRead
    refine ⟨isScalar_of_fromUtf8 hIcu h, ?_, ?_⟩
    · rw [hCodePoints, encodeUtf8_map_val, ← hRead, hcs]
    · exact IndicText.fromUtf8_eq_ok.mpr ⟨hNfc, (IndicText.fromUtf8_eq_ok.mp h).2⟩

/-- **When the two views agree.** There is an object only when the input has an NFC form, and it
stores scalar values. Where that form takes less than `2 ^ 31` bytes of UTF-8, there is one, it
stores the form, and it is consistent exactly when ICU can read as many bytes. A longer form is
not stored as it is: then an object is consistent exactly when what it stores is a text in NFC
that ICU reads. -/
theorem indicText_views_iff (hTold : icu.ReadsTold) (hNfc : icu.NfcLawful) (input : Bytes) :
    (∀ text, IndicText.fromUtf8 icu input = .ok text →
      (∃ ds, NfcForm icu input ds) ∧ (∀ codePoint ∈ text.codePoints, IsScalar codePoint) ∧
        (text.Agrees icu ↔ text.normalizedUtf8.length ≤ Icu.readLimit ∧
          WellFormed text.normalizedUtf8 ∧
          normalizeNfc icu text.normalizedUtf8 = .ok text.normalizedUtf8)) ∧
    ∀ ds, NfcForm icu input ds → (utf8 ds).length < 2 ^ 31 →
      ∃ text, IndicText.fromUtf8 icu input = .ok text ∧ text.normalizedUtf8 = utf8 ds ∧
        (text.Agrees icu ↔ (utf8 ds).length ≤ Icu.readLimit) := by
  refine ⟨fun text h => ⟨?_, isScalar_of_fromUtf8 hIcu h, agrees_iff hIcu hTold h⟩,
    fun ds h hSize => ?_⟩
  · exact exists_nfcForm hIcu hNfc ⟨_, (IndicText.fromUtf8_eq_ok.mp h).1⟩
  · obtain ⟨es, hText, -⟩ := hIcu.exists_unicodeString (utf8 ds)
    have hObject := fromUtf8_eq hIcu h hSize hText
    refine ⟨_, hObject, rfl, ?_⟩
    rw [agrees_iff hIcu hTold hObject]
    refine ⟨fun hStored => hStored.1, fun hRead => ⟨hRead, ⟨ds, rfl⟩, ?_⟩⟩
    exact normalizeNfc_of_nfcForm hIcu (h.again hIcu hNfc (hIcu.unicodeString_utf8 hRead)) hSize

end Views

/-- The letter U+0958 is stored as U+0915 and U+093C. -/
theorem indicText_views_iff_qa :
    ∃ text, IndicText.fromUtf8 smallIcu (utf8 ['\u0958']) = .ok text ∧
      text.normalizedUtf8 = utf8 ['\u0915', '\u093c'] ∧ text.Agrees smallIcu := by
  have hForm : NfcForm smallIcu (utf8 ['\u0958']) ['\u0915', '\u093c'] :=
    SmallIcu.nfcForm_decompose (by decide)
  obtain ⟨text, hText, hBytes, hAgrees⟩ := (indicText_views_iff SmallIcu.lawful
    SmallIcu.readsTold SmallIcu.nfcLawful _).2 _ hForm (by decide)
  exact ⟨text, hText, hBytes, hAgrees.mpr (by decide)⟩

/-- 357,913,941 letters U+0958 and an `a` take 1 GiB, and `2 ^ 31 - 1` bytes when they are
normalised. ICU writes as many, but it does not read them, so no code points are stored. -/
theorem not_indicText_views :
    ∃ input text, input = utf8 (List.replicate 357913941 '\u0958' ++ ['a']) ∧
      input.length = 1073741824 ∧ IndicText.fromUtf8 smallIcu input = .ok text ∧
      text.normalizedUtf8.length = 2147483647 ∧ text.codePoints = [] ∧
      encodeUtf8 text.codePoints ≠ text.normalizedUtf8 ∧ ¬ text.Agrees smallIcu := by
  have hLetters := length_utf8_replicate 357913941 '\u0958'
  have hForms := SmallIcu.length_utf8_decompose_replicate 357913941 '\u0958'
  have hThree : '\u0958'.utf8Size = 3 := rfl
  have hSix : (utf8 (SmallIcu.decompose '\u0958')).length = 6 := rfl
  have hOne : (utf8 ['a']).length = 1 := rfl
  have hSame : (['a'] : List Char).flatMap SmallIcu.decompose = ['a'] := rfl
  have hLimit : Icu.readLimit = 2147483636 := rfl
  rw [hThree] at hLetters
  rw [hSix] at hForms
  generalize List.replicate 357913941 '\u0958' = cs at hLetters hForms ⊢
  have hInput : (utf8 (cs ++ ['a'])).length = 1073741824 := by
    rw [utf8_append, List.length_append, hLetters, hOne]
  have hOutput : (utf8 ((cs ++ ['a']).flatMap SmallIcu.decompose)).length = 2147483647 := by
    rw [List.flatMap_append, hSame, utf8_append, List.length_append, hForms, hOne]
  have hNothing : (smallIcu.unicodeString
      (utf8 ((cs ++ ['a']).flatMap SmallIcu.decompose))).units = utf16 [] :=
    congrArg UnicodeString.units
      (SmallIcu.lawful.unicodeString_bogus (by omega) (by omega))
  have hText := fromUtf8_eq SmallIcu.lawful (SmallIcu.nfcForm_decompose (by omega)) (by omega)
    hNothing
  have hDifferent : encodeUtf8 [] ≠ utf8 ((cs ++ ['a']).flatMap SmallIcu.decompose) := by
    intro hEncoding
    have hLength : 0 = (utf8 ((cs ++ ['a']).flatMap SmallIcu.decompose)).length :=
      congrArg List.length hEncoding
    omega
  exact ⟨_, _, rfl, hInput, hText, hOutput, rfl, hDifferent, fun h => hDifferent h.encoding⟩

end IndicCrypt.Text
