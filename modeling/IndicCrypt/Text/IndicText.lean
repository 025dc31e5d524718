import IndicCrypt.Library.Run
import IndicCrypt.Text.Icu

/-!
# Normalised text

`IndicText::fromUtf8` normalises its input (`normalizeNfc`) and stores the result with its code
points, which `decodeCodePoints` reads from the stored bytes. Two byte strings are canonically
equivalent when `normalizeNfc` gives the same string for both.

An input that cannot be read is a bogus string, which is refused, and an NFC form of `2 ^ 31`
bytes or more cannot be written. The loop of `decodeCodePoints` steps over a text by whole scalar
values, so it yields them all (`decodeCodePoints_eq`).
-/

namespace IndicCrypt.Text

open Run Transcoding

def normalizeNfc (icu : Icu) (input : Bytes) : Result Bytes := do
  let normalizer ← orThrow icu.nfcInstance "Failed to initialize ICU NFC normalizer"
  let source := icu.unicodeString input
  let normalized ← orThrow (normalizer source) "ICU NFC normalization failed"
  icu.toUTF8String normalized

def CanonicallyEquivalent (icu : Icu) (x y : Bytes) : Prop :=
  ∃ normalized, normalizeNfc icu x = .ok normalized ∧ normalizeNfc icu y = .ok normalized

/-- The scalar values of the NFC form of what is read from a byte string. -/
def NfcForm (icu : Icu) (s : Bytes) (ds : List Char) : Prop :=
  ∃ normalizer, icu.nfcInstance = some normalizer ∧
    normalizer (icu.unicodeString s) = some (.text (utf16 ds))

theorem normalizeNfc_of_nfcForm {icu : Icu} (hIcu : icu.Lawful) {s : Bytes} {ds : List Char}
    (h : NfcForm icu s ds) (hSize : (utf8 ds).length < 2 ^ 31) :
    normalizeNfc icu s = .ok (utf8 ds) := by
  obtain ⟨normalizer, hInstance, hUnits⟩ := h
  unfold normalizeNfc
  simp only [hInstance, orThrow_some, ok_bind, hUnits]
  exact hIcu.toUTF8String_eq _ ds rfl hSize

/-- What is normalised is a text, not the bogus string. -/
theorem exists_text_of_normalizer {icu : Icu} (hIcu : icu.Lawful)
    {normalizer : UnicodeString → Option UnicodeString}
    (hInstance : icu.nfcInstance = some normalizer) {s : Bytes} {normalized : UnicodeString}
    (h : normalizer (icu.unicodeString s) = some normalized) :
    ∃ cs, icu.unicodeString s = .text (utf16 cs) := by
  obtain ⟨cs, hUnits, -⟩ := hIcu.exists_unicodeString s
  cases hRead : icu.unicodeString s with
  | bogus =>
    rw [hRead, hIcu.normalize_bogus normalizer hInstance] at h
    cases h
  | text units =>
    rw [hRead, UnicodeString.units_text] at hUnits
    exact ⟨cs, congrArg UnicodeString.text hUnits⟩

theorem exists_normalizer {icu : Icu} {s s' : Bytes} (h : normalizeNfc icu s = .ok s') :
    ∃ normalizer normalized, icu.nfcInstance = some normalizer ∧
      normalizer (icu.unicodeString s) = some normalized ∧
      icu.toUTF8String normalized = .ok s' := by
  unfold normalizeNfc at h
  obtain ⟨normalizer, hInstance, h⟩ := bind_eq_ok.mp h
  obtain ⟨normalized, hUnits, h⟩ := bind_eq_ok.mp h
  exact ⟨normalizer, normalized, orThrow_eq_ok.mp hInstance, orThrow_eq_ok.mp hUnits, h⟩

/-- Normalisation succeeds only for an input that is read. -/
theorem exists_text_of_normalizeNfc {icu : Icu} (hIcu : icu.Lawful) {s s' : Bytes}
    (h : normalizeNfc icu s = .ok s') : ∃ cs, icu.unicodeString s = .text (utf16 cs) := by
  obtain ⟨normalizer, normalized, hInstance, hUnits, -⟩ := exists_normalizer h
  exact exists_text_of_normalizer hIcu hInstance hUnits

/-- Normalisation succeeds only with an NFC form. -/
theorem exists_nfcForm {icu : Icu} (hIcu : icu.Lawful) (hNfc : icu.NfcLawful) {s : Bytes}
    (h : IsOk (normalizeNfc icu s)) : ∃ ds, NfcForm icu s ds := by
  obtain ⟨s', h⟩ := h
  obtain ⟨normalizer, normalized, hInstance, hUnits, -⟩ := exists_normalizer h
  obtain ⟨cs, hText⟩ := exists_text_of_normalizer hIcu hInstance hUnits
  have hForm := hUnits
  rw [hText] at hForm
  obtain ⟨ds, rfl, -⟩ := hNfc normalizer hInstance cs normalized hForm
  exact ⟨ds, normalizer, hInstance, hUnits⟩

/-- A text in NFC is its own NFC form. -/
theorem NfcForm.again {icu : Icu} (hIcu : icu.Lawful) (hNfc : icu.NfcLawful) {s t : Bytes}
    {ds : List Char} (h : NfcForm icu s ds) (hText : icu.unicodeString t = .text (utf16 ds)) :
    NfcForm icu t ds := by
  obtain ⟨normalizer, hInstance, hUnits⟩ := h
  obtain ⟨cs, hRead⟩ := exists_text_of_normalizer hIcu hInstance hUnits
  rw [hRead] at hUnits
  obtain ⟨es, hSame, hStable⟩ := hNfc normalizer hInstance cs _ hUnits
  rw [← hSame, ← hText] at hStable
  exact ⟨normalizer, hInstance, hStable.trans (congrArg some hText)⟩

/-! ## Code points -/

abbrev CodePoint := UInt32

/-- `U16_LENGTH`. -/
def u16Length (codePoint : Int) : Nat := if codePoint ≤ 0xffff then 1 else 2

/-- The loop of `decodeCodePoints`. Each step advances the offset, so a walk of more steps than
there are code units does not end. -/
def decodeLoop (icu : Icu) (unicode : UnicodeString) :
    Nat → Nat → List CodePoint → Result (List CodePoint)
  | 0, offset, result => if offset < unicode.length then .error .nontermination else .ok result
  | steps + 1, offset, result =>
    if offset < unicode.length then do
      let codePoint := icu.char32At unicode offset
      throwIf (codePoint < 0) (.runtimeError "Invalid Unicode code point")
      decodeLoop icu unicode steps (offset + u16Length codePoint)
        (result ++ [.ofNat codePoint.toNat])
    else
      .ok result

def decodeCodePoints (icu : Icu) (utf8 : Bytes) : Result (List CodePoint) :=
  let unicode := icu.unicodeString utf8
  decodeLoop icu unicode unicode.length 0 []

structure IndicText where
  normalizedUtf8 : Bytes
  codePoints : List CodePoint
deriving DecidableEq

def IndicText.fromUtf8 (icu : Icu) (input : Bytes) : Result IndicText := do
  let normalized ← normalizeNfc icu input
  let codePoints ← decodeCodePoints icu normalized
  return ⟨normalized, codePoints⟩

/-- The object stores the NFC form and what is decoded of it. -/
theorem IndicText.fromUtf8_eq_ok {icu : Icu} {input : Bytes} {text : IndicText} :
    fromUtf8 icu input = .ok text ↔ normalizeNfc icu input = .ok text.normalizedUtf8 ∧
      decodeCodePoints icu text.normalizedUtf8 = .ok text.codePoints := by
  constructor
  · intro h
    obtain ⟨normalized, hNormalized, h⟩ := bind_eq_ok.mp h
    obtain ⟨codePoints, hCodePoints, h⟩ := bind_eq_ok.mp h
    cases h
    exact ⟨hNormalized, hCodePoints⟩
  · intro h
    unfold fromUtf8
    rw [h.1, ok_bind, h.2, ok_bind, pure_eq_ok]

/-! ## What is decoded -/

theorem length_units (c : Char) : (units c).length = u16Length c.toNat := by
  unfold units u16Length
  by_cases hBasic : c.toNat < 0x10000
  · have hLow : (c.toNat : Int) ≤ 0xffff := by omega
    rw [if_pos hBasic, if_pos hLow, List.length_singleton]
  · have hHigh : ¬ (c.toNat : Int) ≤ 0xffff := by omega
    rw [if_neg hBasic, if_neg hHigh]
    rfl

theorem decodeLoop_end {icu : Icu} (unicode : UnicodeString) (steps : Nat)
    (result : List CodePoint) :
    decodeLoop icu unicode steps unicode.length result = .ok result := by
  cases steps with
  | zero => exact if_neg (Nat.lt_irrefl _)
  | succ steps => exact if_neg (Nat.lt_irrefl _)

section Decode

variable {icu : Icu} (hIcu : icu.Lawful)
include hIcu

theorem decodeLoop_succ (before : List Char) (c : Char) (after : List Char) (steps : Nat)
    (result : List CodePoint) :
    decodeLoop icu (.text (utf16 (before ++ c :: after))) (steps + 1) (utf16 before).length result =
      decodeLoop icu (.text (utf16 (before ++ c :: after))) steps
        ((utf16 before).length + (units c).length) (result ++ [c.val]) := by
  have hInside : (utf16 before).length <
      (UnicodeString.text (utf16 (before ++ c :: after))).length := length_utf16_lt before c after
  have hNonneg : ¬ (c.toNat : Int) < 0 := by omega
  have hCode : UInt32.ofNat c.toNat = c.val := UInt32.ofNat_toNat
  rw [decodeLoop, if_pos hInside]
  simp only [hIcu.char32At_eq, throwIf_of_not hNonneg, ok_bind, Int.toNat_natCast, hCode,
    length_units]

theorem decodeCodePoints_eq {s : Bytes} {cs : List Char}
    (hText : (icu.unicodeString s).units = utf16 cs) :
    decodeCodePoints icu s = .ok (cs.map Char.val) :=
  textWalk_eq decodeLoop_end (decodeLoop_succ hIcu) hText

end Decode

end IndicCrypt.Text
