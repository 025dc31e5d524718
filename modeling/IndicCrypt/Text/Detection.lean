import IndicCrypt.Text.Canonicalizer

/-!
# The scripts of a text

`ScriptEngine::detectAll` walks over a text as `decodeCodePoints` does and yields the script of
each scalar value (`detectAll_spec`). The symbols of a text are cut from the same walk: the
script of a symbol is the one of the first scalar value of its grapheme (`scripts_of_symbols`).
-/

namespace IndicCrypt.Text

open Run Transcoding

structure ScriptDetection where
  script : Script
  text : Bytes
deriving DecidableEq

namespace ScriptEngine

/-- The loop of `detectAll`. Each step advances the offset, so a walk of more steps than there
are code units does not end. -/
def detectLoop (icu : Icu) (text : UnicodeString) :
    Nat → Nat → List ScriptDetection → Result (List ScriptDetection)
  | 0, offset, result => if offset < text.length then .error .nontermination else .ok result
  | steps + 1, offset, result =>
    if offset < text.length then do
      let codePoint := icu.char32At text offset
      throwIf (codePoint < 0) (.runtimeError "Invalid Unicode code point")
      let script ← orThrow (icu.getScript codePoint) "ICU script detection failed"
      detectLoop icu text steps (offset + u16Length codePoint)
        (result ++ [⟨mapScript script, []⟩])
    else
      .ok result

def detectAll (icu : Icu) (utf8 : Bytes) : Result (List ScriptDetection) :=
  let text := icu.unicodeString utf8
  detectLoop icu text text.length 0 []

end ScriptEngine

/-! ## The walk -/

/-- The script of a scalar value. -/
def scriptOf (icu : Icu) (c : Char) : Script :=
  match icu.getScript c.toNat with
  | some code => mapScript code
  | none => .unknown

theorem detectLoop_end {icu : Icu} (text : UnicodeString) (steps : Nat)
    (result : List ScriptDetection) :
    ScriptEngine.detectLoop icu text steps text.length result = .ok result := by
  cases steps with
  | zero => exact if_neg (Nat.lt_irrefl _)
  | succ steps => exact if_neg (Nat.lt_irrefl _)

section Lawful

variable {icu : Icu} (hIcu : icu.Lawful)
include hIcu

theorem getScript_eq (c : Char) :
    ∃ code, icu.getScript c.toNat = some code ∧ scriptOf icu c = mapScript code := by
  obtain ⟨code, hCode⟩ := hIcu.exists_getScript c
  exact ⟨code, hCode, by rw [scriptOf, hCode]⟩

theorem detectLoop_succ (before : List Char) (c : Char) (after : List Char) (steps : Nat)
    (result : List ScriptDetection) :
    ScriptEngine.detectLoop icu (.text (utf16 (before ++ c :: after))) (steps + 1)
        (utf16 before).length result =
      ScriptEngine.detectLoop icu (.text (utf16 (before ++ c :: after))) steps
        ((utf16 before).length + (units c).length) (result ++ [⟨scriptOf icu c, []⟩]) := by
  have hInside : (utf16 before).length <
      (UnicodeString.text (utf16 (before ++ c :: after))).length := length_utf16_lt before c after
  have hNonneg : ¬ (c.toNat : Int) < 0 := by omega
  obtain ⟨code, hCode, hScript⟩ := getScript_eq hIcu c
  rw [ScriptEngine.detectLoop, if_pos hInside]
  simp only [hIcu.char32At_eq, throwIf_of_not hNonneg, ok_bind, hCode, orThrow_some, hScript,
    length_units]

theorem detectAll_eq {s : Bytes} {cs : List Char}
    (hText : (icu.unicodeString s).units = utf16 cs) :
    ScriptEngine.detectAll icu s = .ok (cs.map fun c => ⟨scriptOf icu c, []⟩) :=
  textWalk_eq detectLoop_end (detectLoop_succ hIcu) hText

theorem detect_eq {s : Bytes} {cs : List Char} (hText : (icu.unicodeString s).units = utf16 cs) :
    ScriptEngine.detect icu s = .ok ((cs.head?.map (scriptOf icu)).getD .unknown) := by
  cases cs with
  | nil => exact ScriptEngine.detect_nil hText
  | cons c cs =>
    obtain ⟨code, hCode, hScript⟩ := getScript_eq hIcu c
    rw [ScriptEngine.detect_cons hIcu hText hCode, List.head?_cons, Option.map_some,
      Option.getD_some, hScript]

/-- **All scripts.** For every string, `detectAll` yields one entry without a text for each code
point that `decodeCodePoints` reads, with its script, and `detect` the script of the first one. -/
theorem detectAll_spec (s : Bytes) :
    ∃ detections codePoints, ScriptEngine.detectAll icu s = .ok detections ∧
      decodeCodePoints icu s = .ok codePoints ∧
      List.Forall₂ (fun (codePoint : CodePoint) (detection : ScriptDetection) =>
        (icu.getScript codePoint.toNat).map mapScript = some detection.script ∧
          detection.text = []) codePoints detections ∧
      ScriptEngine.detect icu s =
        .ok ((detections.head?.map ScriptDetection.script).getD .unknown) := by
  obtain ⟨cs, hText, -⟩ := hIcu.exists_unicodeString s
  refine ⟨_, _, detectAll_eq hIcu hText, decodeCodePoints_eq hIcu hText, ?_, ?_⟩
  · rw [List.forall₂_map_left_iff, List.forall₂_map_right_iff, List.forall₂_same]
    intro c _
    obtain ⟨code, hCode, hScript⟩ := getScript_eq hIcu c
    have hVal : (c.val.toNat : Int) = c.toNat := rfl
    rw [hVal, hCode, hScript]
    exact ⟨rfl, rfl⟩
  · rw [detect_eq hIcu hText, List.head?_map, Option.map_map]
    rfl

end Lawful

/-- A letter of Devanagari and one that is not. -/
theorem detectAll_spec_letters :
    ∃ detections codePoints,
      ScriptEngine.detectAll smallIcu (utf8 ['\u0915', 'a']) = .ok detections ∧
      decodeCodePoints smallIcu (utf8 ['\u0915', 'a']) = .ok codePoints ∧
      detections = [⟨.devanagari, []⟩, ⟨.other, []⟩] ∧ codePoints = [0x915, 0x61] ∧
      ScriptEngine.detect smallIcu (utf8 ['\u0915', 'a']) = .ok .devanagari := by
  have hText : (smallIcu.unicodeString (utf8 ['\u0915', 'a'])).units = utf16 ['\u0915', 'a'] :=
    SmallIcu.lawful.units_utf8 (by decide)
  obtain ⟨detections, codePoints, hAll, hCodePoints, -, hDetect⟩ :=
    detectAll_spec SmallIcu.lawful (utf8 ['\u0915', 'a'])
  have hDetections := hAll.symm.trans (detectAll_eq SmallIcu.lawful hText)
  have hDecoded := hCodePoints.symm.trans (decodeCodePoints_eq SmallIcu.lawful hText)
  cases hDetections
  cases hDecoded
  exact ⟨_, _, hAll, hCodePoints, rfl, rfl, hDetect⟩

/-! ## The symbols of a text -/

/-- The symbol of a piece of a text. -/
def symbolOf (icu : Icu) (language : Language) (piece : List Char) : IndicSymbol :=
  let script := (piece.head?.map (scriptOf icu)).getD .unknown
  ⟨makeSymbolId (utf8 piece) script language, utf8 piece, script, language⟩

section Symbols

variable {icu : Icu} (hIcu : icu.Lawful)
include hIcu

theorem forall₂_symbolOf {language : Language} {profile : LanguageProfile}
    (hProfile : profile.language = language) (offset : Nat) {pieces : List (List Char)}
    (hShort : ∀ piece ∈ pieces, (utf8 piece).length ≤ Icu.readLimit) :
    List.Forall₂ (fun cluster s => Canonicalizer.symbol icu language profile cluster = .ok s)
      (GraphemeEngine.clustersAt offset pieces) (pieces.map (symbolOf icu language)) := by
  induction pieces generalizing offset with
  | nil => exact .nil
  | cons piece pieces ih =>
    obtain ⟨hPiece, hRest⟩ := List.forall_mem_cons.mp hShort
    refine .cons ?_ (ih (offset + (utf16 piece).length) hRest)
    unfold Canonicalizer.symbol
    simp only [detect_eq hIcu (hIcu.units_utf8 hPiece), ok_bind, pure_eq_ok, hProfile]
    rfl

/-- The symbols of a text within the limit are those of the pieces of a partition. -/
theorem canonicalize_eq {s : Bytes} {cs : List Char}
    (hText : (icu.unicodeString s).units = utf16 cs) (hSize : (utf8 cs).length ≤ Icu.readLimit)
    (language : Language) :
    ∃ pieces : List (List Char), pieces.flatten = cs ∧ (∀ piece ∈ pieces, piece ≠ []) ∧
      Canonicalizer.canonicalize icu s language = .ok (pieces.map (symbolOf icu language)) := by
  obtain ⟨pieces, rfl, hPieces, hSegment⟩ := GraphemeEngine.segment_eq hIcu hText
    (Icu.lt_of_le_readLimit hSize)
  obtain ⟨profile, hProfile, hLanguage⟩ := LanguageRegistry.get_spec language
  have hShort : ∀ piece ∈ pieces, (utf8 piece).length ≤ Icu.readLimit :=
    fun piece hPiece => Nat.le_trans (length_utf8_le_of_mem hPiece) hSize
  refine ⟨pieces, rfl, hPieces, ?_⟩
  unfold Canonicalizer.canonicalize
  rw [hSegment, ok_bind, hProfile, ok_bind,
    mapM_eq_ok.mpr (forall₂_symbolOf hIcu hLanguage 0 hShort)]

/-- Every symbol of a text has its language. -/
theorem language_of_canonicalize {s : Bytes} {cs : List Char}
    (hText : (icu.unicodeString s).units = utf16 cs) (hSize : (utf8 cs).length ≤ Icu.readLimit)
    {language : Language} {symbols : List IndicSymbol}
    (h : Canonicalizer.canonicalize icu s language = .ok symbols) :
    ∀ symbol ∈ symbols, symbol.language = language := by
  obtain ⟨pieces, -, -, hOk⟩ := canonicalize_eq hIcu hText hSize language
  obtain rfl := Except.ok.inj (hOk.symm.trans h)
  intro symbol hMem
  obtain ⟨piece, -, rfl⟩ := List.mem_map.mp hMem
  rfl

/-- **The scripts of the symbols.** For every string of which a text of at most `Icu.readLimit`
bytes is read, the entries of `detectAll` fall into groups, one for each symbol: those of its
grapheme, of which the first one has the script of the symbol. -/
theorem scripts_of_symbols {s : Bytes} {cs : List Char}
    (hText : (icu.unicodeString s).units = utf16 cs) (hSize : (utf8 cs).length ≤ Icu.readLimit)
    (language : Language) :
    ∃ (symbols : List IndicSymbol) (groups : List (List ScriptDetection)),
      Canonicalizer.canonicalize icu s language = .ok symbols ∧
      ScriptEngine.detectAll icu s = .ok groups.flatten ∧
      List.Forall₂ (fun (symbol : IndicSymbol) group =>
        ScriptEngine.detectAll icu symbol.grapheme = .ok group ∧
          group.head?.map ScriptDetection.script = some symbol.script) symbols groups := by
  obtain ⟨pieces, rfl, hPieces, hOk⟩ := canonicalize_eq hIcu hText hSize language
  refine ⟨_, pieces.map fun piece => piece.map fun c => ⟨scriptOf icu c, []⟩, hOk, ?_, ?_⟩
  · rw [detectAll_eq hIcu hText, List.map_flatten]
  · rw [List.forall₂_map_left_iff, List.forall₂_map_right_iff, List.forall₂_same]
    intro piece hPiece
    have hShort := Nat.le_trans (length_utf8_le_of_mem hPiece) hSize
    refine ⟨detectAll_eq hIcu (hIcu.units_utf8 hShort), ?_⟩
    obtain ⟨c, rest, rfl⟩ := List.exists_cons_of_ne_nil (hPieces piece hPiece)
    rfl

end Symbols

/-- A letter with a nukta and a letter of another script. -/
theorem scripts_of_symbols_letters :
    ∃ symbols groups,
      Canonicalizer.canonicalize smallIcu (utf8 ['\u0915', '\u093c', 'a']) .hindi = .ok symbols ∧
      ScriptEngine.detectAll smallIcu (utf8 ['\u0915', '\u093c', 'a']) = .ok groups.flatten ∧
      List.Forall₂ (fun (symbol : IndicSymbol) group =>
        ScriptEngine.detectAll smallIcu symbol.grapheme = .ok group ∧
          group.head?.map ScriptDetection.script = some symbol.script) symbols groups := by
  have hSize : (utf8 ['\u0915', '\u093c', 'a']).length ≤ Icu.readLimit := by decide
  exact scripts_of_symbols SmallIcu.lawful (SmallIcu.lawful.units_utf8 hSize) hSize .hindi

end IndicCrypt.Text
