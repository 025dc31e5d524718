import IndicCrypt.Text.Detection
import IndicCrypt.Text.Views

/-!
# Canonical symbols of normalised texts

`Canonicalizer::canonicalize` does not normalise, so equivalent spellings may have different
symbols. Behind `IndicText::fromUtf8` they do not: the symbols of the stored texts, and their code
points, are the same if and only if the inputs are canonically equivalent
(`symbols_of_normalized_iff`). The graphemes of a text give its symbols back, as long as ICU reads
as many bytes (`canonicalize_again_iff`).
-/

namespace IndicCrypt.Text

open Run Transcoding

/-- **Canonicalising again.** The graphemes of a text, one behind the other, are canonicalised to
its symbols if and only if they have at most as many bytes together as ICU reads. -/
theorem canonicalize_again_iff {icu : Icu} (hIcu : icu.Lawful) (hTold : icu.ReadsTold) {s : Bytes}
    {cs : List Char} (hText : (icu.unicodeString s).units = utf16 cs)
    (hSize : (utf8 cs).length < 2 ^ 31) (language : Language) :
    ∃ symbols, Canonicalizer.canonicalize icu s language = .ok symbols ∧
      (Canonicalizer.canonicalize icu (symbols.map IndicSymbol.grapheme).flatten language =
          .ok symbols ↔
        (symbols.map IndicSymbol.grapheme).flatten.length ≤ Icu.readLimit) := by
  obtain ⟨symbols, h⟩ := Canonicalizer.canonicalize_isOk hIcu hText hSize language
  obtain ⟨ds, hAgain, -⟩ := hIcu.exists_unicodeString (utf8 cs)
  have hAgainSize := hIcu.length_lt_of_wellFormed ⟨cs, rfl⟩ hAgain
  have hSame : Canonicalizer.canonicalize icu (utf8 cs) language = .ok symbols ↔
      Canonicalizer.SameSymbols icu (utf8 cs) s language := by
    constructor
    · intro hSymbols
      exact ⟨symbols, hSymbols, h⟩
    · intro hSymbols
      obtain ⟨symbols', hx, hy⟩ := hSymbols
      rw [hx, ← hy, h]
  refine ⟨symbols, h, ?_⟩
  rw [Canonicalizer.flatten_graphemes hIcu hText hSize h, hSame,
    Canonicalizer.sameSymbols_iff hIcu hAgain hText hAgainSize hSize, ← utf16_inj, ← hAgain,
    hIcu.units_eq_iff hTold]

/-- A letter with a nukta. -/
theorem canonicalize_again_letter :
    ∃ symbols,
      Canonicalizer.canonicalize smallIcu (utf8 ['\u0915', '\u093c']) .hindi = .ok symbols ∧
      Canonicalizer.canonicalize smallIcu (symbols.map IndicSymbol.grapheme).flatten .hindi =
        .ok symbols := by
  have hText := SmallIcu.lawful.units_utf8
    (show (utf8 ['\u0915', '\u093c']).length ≤ Icu.readLimit by decide)
  have hSize : (utf8 ['\u0915', '\u093c']).length < 2 ^ 31 := by decide
  obtain ⟨symbols, hSymbols, hAgain⟩ :=
    canonicalize_again_iff SmallIcu.lawful SmallIcu.readsTold hText hSize .hindi
  refine ⟨symbols, hSymbols, hAgain.mpr ?_⟩
  rw [Canonicalizer.flatten_graphemes SmallIcu.lawful hText hSize hSymbols]
  decide

section Normalized

variable {icu : Icu} (hIcu : icu.Lawful) {x y : Bytes} {cs ds : List Char}
  (hx : NfcForm icu x cs) (hy : NfcForm icu y ds) (hxSize : (utf8 cs).length ≤ Icu.readLimit)
  (hySize : (utf8 ds).length ≤ Icu.readLimit)

/-- An NFC form within the limit is stored as it is. -/
theorem fromUtf8_of_nfcForm (hIcu : icu.Lawful) (hx : NfcForm icu x cs)
    (hxSize : (utf8 cs).length ≤ Icu.readLimit) :
    IndicText.fromUtf8 icu x = .ok ⟨utf8 cs, cs.map Char.val⟩ :=
  fromUtf8_eq hIcu hx (Icu.lt_of_le_readLimit hxSize) (hIcu.units_utf8 hxSize)

include hIcu hx hy hxSize hySize

/-- Equivalent texts have the same NFC form. -/
theorem canonicallyEquivalent_iff : CanonicallyEquivalent icu x y ↔ cs = ds := by
  have hxNfc := (IndicText.fromUtf8_eq_ok.mp (fromUtf8_of_nfcForm hIcu hx hxSize)).1
  have hyNfc := (IndicText.fromUtf8_eq_ok.mp (fromUtf8_of_nfcForm hIcu hy hySize)).1
  constructor
  · intro h
    obtain ⟨normalized, hx', hy'⟩ := h
    rw [hxNfc, Except.ok.injEq] at hx'
    rw [hyNfc, Except.ok.injEq] at hy'
    exact utf8_inj.mp (hx'.trans hy'.symm)
  · intro h
    subst h
    exact ⟨utf8 cs, hxNfc, hyNfc⟩

theorem sameSymbols_iff_canonicallyEquivalent (language : Language) :
    Canonicalizer.SameSymbols icu (utf8 cs) (utf8 ds) language ↔ CanonicallyEquivalent icu x y := by
  rw [canonicallyEquivalent_iff hIcu hx hy hxSize hySize]
  exact Canonicalizer.sameSymbols_iff hIcu (hIcu.units_utf8 hxSize) (hIcu.units_utf8 hySize)
    (Icu.lt_of_le_readLimit hxSize) (Icu.lt_of_le_readLimit hySize)

/-- **Equivalent spellings.** Of two inputs with NFC forms of at most `Icu.readLimit` bytes, the
symbols of the stored texts in a language are the same if and only if the inputs are canonically
equivalent, and so are the code points. -/
theorem symbols_of_normalized_iff (language : Language) :
    ∃ text text', IndicText.fromUtf8 icu x = .ok text ∧ IndicText.fromUtf8 icu y = .ok text' ∧
      (Canonicalizer.SameSymbols icu text.normalizedUtf8 text'.normalizedUtf8 language ↔
        CanonicallyEquivalent icu x y) ∧
      (text.codePoints = text'.codePoints ↔ CanonicallyEquivalent icu x y) := by
  have hVal : Function.Injective Char.val := fun c d hSame => Char.ext hSame
  refine ⟨_, _, fromUtf8_of_nfcForm hIcu hx hxSize, fromUtf8_of_nfcForm hIcu hy hySize,
    sameSymbols_iff_canonicallyEquivalent hIcu hx hy hxSize hySize language, ?_⟩
  rw [canonicallyEquivalent_iff hIcu hx hy hxSize hySize, hVal.list_map.eq_iff]

end Normalized

/-- U+0958 and the letter KA with a nukta: different symbols as they are, the same behind
`fromUtf8`. -/
theorem symbols_of_normalized_qa :
    ∃ text text', IndicText.fromUtf8 smallIcu (utf8 ['\u0958']) = .ok text ∧
      IndicText.fromUtf8 smallIcu (utf8 ['\u0915', '\u093c']) = .ok text' ∧
      Canonicalizer.SameSymbols smallIcu text.normalizedUtf8 text'.normalizedUtf8 .hindi := by
  have hLetter : NfcForm smallIcu (utf8 ['\u0958']) ['\u0915', '\u093c'] :=
    SmallIcu.nfcForm_decompose (by decide)
  have hSpelled : NfcForm smallIcu (utf8 ['\u0915', '\u093c']) ['\u0915', '\u093c'] :=
    SmallIcu.nfcForm_decompose (by decide)
  have hSize : (utf8 ['\u0915', '\u093c']).length ≤ Icu.readLimit := by decide
  have hEquivalent :=
    (canonicallyEquivalent_iff SmallIcu.lawful hLetter hSpelled hSize hSize).mpr rfl
  obtain ⟨text, text', hx, hy, hSame, -⟩ := symbols_of_normalized_iff SmallIcu.lawful hLetter
    hSpelled hSize hSize .hindi
  exact ⟨text, text', hx, hy, hSame.mpr hEquivalent⟩

end IndicCrypt.Text
