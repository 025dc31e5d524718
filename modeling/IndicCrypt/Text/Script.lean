import IndicCrypt.Library.Run
import IndicCrypt.Text.Icu
import IndicCrypt.Text.Symbol

/-!
# Script detection

`ScriptEngine::detect`: the script of the first code point of a string. A lawful ICU finds
one for every string (`detect_isOk`).
-/

namespace IndicCrypt.Text

open Run Transcoding

def mapScript (script : UScriptCode) : Script :=
  match script with
  | .devanagari => .devanagari
  | .bengali => .bengali
  | .gurmukhi => .gurmukhi
  | .gujarati => .gujarati
  | .oriya => .odia
  | .tamil => .tamil
  | .telugu => .telugu
  | .kannada => .kannada
  | .malayalam => .malayalam
  | .meiteiMayek => .meetei
  | .olChiki => .olChiki
  | .arabic => .arabic
  | .latin => .latin
  | .other _ => .other

def ScriptEngine.detect (icu : Icu) (utf8 : Bytes) : Result Script :=
  let text := icu.unicodeString utf8
  if text.isEmpty then
    .ok .unknown
  else do
    let codePoint := icu.char32At text 0
    throwIf (codePoint < 0) (.runtimeError "Invalid Unicode code point")
    let script ← orThrow (icu.getScript codePoint) "ICU script detection failed"
    return mapScript script

/-- The script of a nonempty text is the one of its first scalar value. -/
theorem ScriptEngine.detect_cons {icu : Icu} (hIcu : icu.Lawful) {s : Bytes} {c : Char}
    {cs : List Char} (hText : (icu.unicodeString s).units = utf16 (c :: cs)) {code : UScriptCode}
    (hCode : icu.getScript c.toNat = some code) : detect icu s = .ok (mapScript code) := by
  have hPos := length_utf16_pos (List.cons_ne_nil c cs)
  have hNotEmpty : ¬ (UnicodeString.text (utf16 (c :: cs))).isEmpty = true := by
    intro hEmpty
    rw [UnicodeString.isEmpty, UnicodeString.units_text, List.isEmpty_iff_length_eq_zero] at hEmpty
    omega
  have hNonneg : ¬ (c.toNat : Int) < 0 := by omega
  unfold detect
  rw [UnicodeString.eq_text_of_units hText]
  dsimp only
  rw [if_neg hNotEmpty]
  simp only [hIcu.char32At_zero, throwIf_of_not hNonneg, ok_bind, hCode, orThrow_some, pure_eq_ok]

/-- Where nothing is read there is no script. -/
theorem ScriptEngine.detect_nil {icu : Icu} {s : Bytes} (hText : (icu.unicodeString s).units = []) :
    detect icu s = .ok .unknown := by
  have hEmpty : (icu.unicodeString s).isEmpty = true := by
    rw [UnicodeString.isEmpty, hText, List.isEmpty_nil]
  exact if_pos hEmpty

theorem ScriptEngine.detect_isOk {icu : Icu} (hIcu : icu.Lawful) (s : Bytes) :
    IsOk (detect icu s) := by
  rcases hIcu.exists_unicodeString s with ⟨cs, hText, -⟩
  cases cs with
  | nil => exact ⟨_, detect_nil hText⟩
  | cons c cs =>
    rcases hIcu.exists_getScript c with ⟨code, hCode⟩
    exact ⟨_, detect_cons hIcu hText hCode⟩

end IndicCrypt.Text
