import IndicCrypt.Text.Grapheme
import IndicCrypt.Text.IndicText
import IndicCrypt.Text.Script
import IndicCrypt.Text.SmallIcu

/-!
# Canonicalisation

`Canonicalizer::canonicalize` segments the bytes as they are given, without normalising them
first. So its symbols spell out the text that was read (`canonicalize_spec`), and two byte
strings have the same symbols if and only if the same scalar values are read of them
(`sameSymbols_iff`): two spellings of canonically equivalent texts stay apart.
-/

namespace IndicCrypt.Text

open Run Transcoding

/-! ## The functions -/

/-- The enumerator as an integer. -/
def Script.value (script : Script) : UInt64 := .ofNat script.ctorIdx

def Language.value (language : Language) : UInt64 := .ofNat language.ctorIdx

def makeSymbolId (grapheme : Bytes) (script : Script) (language : Language) : UInt64 :=
  let hash : UInt64 := 14695981039346656037
  let hash := grapheme.foldl (fun hash byte => (hash ^^^ byte.toUInt64) * 1099511628211) hash
  let hash := (hash ^^^ script.value) * 1099511628211
  (hash ^^^ language.value) * 1099511628211

namespace Canonicalizer

/-- The symbol of a cluster. -/
def symbol (icu : Icu) (language : Language) (profile : LanguageProfile)
    (cluster : GraphemeCluster) : Result IndicSymbol := do
  let script ← ScriptEngine.detect icu cluster.utf8
  return ⟨makeSymbolId cluster.utf8 script language, cluster.utf8, script, profile.language⟩

def canonicalize (icu : Icu) (utf8 : Bytes) (language : Language) : Result (List IndicSymbol) := do
  let clusters ← GraphemeEngine.segment icu utf8
  let profile ← LanguageRegistry.get language
  clusters.mapM (symbol icu language profile)

/-! ## What it returns -/

theorem map_grapheme {icu : Icu} {language : Language} {profile : LanguageProfile}
    {clusters : List GraphemeCluster} {symbols : List IndicSymbol}
    (h : List.Forall₂ (fun cluster s => symbol icu language profile cluster = .ok s) clusters
      symbols) :
    symbols.map IndicSymbol.grapheme = clusters.map GraphemeCluster.utf8 := by
  induction h with
  | nil => rfl
  | cons hSymbol _ ih =>
    unfold symbol at hSymbol
    rcases bind_eq_ok.mp hSymbol with ⟨script, -, hReturn⟩
    rw [pure_eq_ok, Except.ok.injEq] at hReturn
    rw [List.map_cons, ih, List.map_cons, ← hReturn]

theorem id_of_symbol_eq {icu : Icu} {language : Language} {profile : LanguageProfile}
    (hLanguage : profile.language = language) {cluster : GraphemeCluster} {s : IndicSymbol}
    (h : symbol icu language profile cluster = .ok s) :
    s.id = makeSymbolId s.grapheme s.script s.language := by
  unfold symbol at h
  rcases bind_eq_ok.mp h with ⟨script, -, hReturn⟩
  rw [pure_eq_ok, Except.ok.injEq] at hReturn
  subst hReturn
  simp only [hLanguage]

theorem ids_of_forall₂ {icu : Icu} {language : Language} {profile : LanguageProfile}
    (hLanguage : profile.language = language) {clusters : List GraphemeCluster}
    {symbols : List IndicSymbol}
    (h : List.Forall₂ (fun cluster s => symbol icu language profile cluster = .ok s) clusters
      symbols) :
    ∀ c ∈ symbols, c.id = makeSymbolId c.grapheme c.script c.language := by
  induction h with
  | nil => exact fun c hc => absurd hc List.not_mem_nil
  | cons hSymbol _ ih => exact List.forall_mem_cons.mpr ⟨id_of_symbol_eq hLanguage hSymbol, ih⟩

/-- The identifier of a symbol is the hash of what it stands for. -/
theorem id_eq_makeSymbolId {icu : Icu} {s : Bytes} {language : Language} {symbols : List IndicSymbol}
    (h : canonicalize icu s language = .ok symbols) :
    ∀ c ∈ symbols, c.id = makeSymbolId c.grapheme c.script c.language := by
  unfold canonicalize at h
  rcases bind_eq_ok.mp h with ⟨clusters, -, h⟩
  rcases bind_eq_ok.mp h with ⟨profile, hProfile, h⟩
  rcases LanguageRegistry.get_spec language with ⟨profile', hProfile', hLanguage⟩
  obtain rfl : profile = profile' := Except.ok.inj (hProfile.symm.trans hProfile')
  exact ids_of_forall₂ hLanguage (mapM_eq_ok.mp h)

/-- The bytes matter only through the text that is read. -/
theorem canonicalize_congr {icu : Icu} {x y : Bytes} (h : icu.unicodeString x = icu.unicodeString y)
    (language : Language) : canonicalize icu x language = canonicalize icu y language := by
  unfold canonicalize GraphemeEngine.segment
  rw [h]

section Lawful

variable {icu : Icu} (hIcu : icu.Lawful)
include hIcu

/-- Every cluster gives a symbol with its bytes. -/
theorem canonicalize_of_segment {s : Bytes} {clusters : List GraphemeCluster}
    (h : GraphemeEngine.segment icu s = .ok clusters) (language : Language) :
    ∃ symbols, canonicalize icu s language = .ok symbols ∧
      symbols.map IndicSymbol.grapheme = clusters.map GraphemeCluster.utf8 := by
  rcases LanguageRegistry.get_spec language with ⟨profile, hProfile, -⟩
  have hOk : IsOk (clusters.mapM (symbol icu language profile)) := by
    apply mapM_isOk.mpr
    intro cluster _
    rcases ScriptEngine.detect_isOk hIcu cluster.utf8 with ⟨script, hScript⟩
    unfold symbol
    rw [hScript, ok_bind]
    exact isOk_ok _
  rcases hOk with ⟨symbols, hSymbols⟩
  refine ⟨symbols, ?_, map_grapheme (mapM_eq_ok.mp hSymbols)⟩
  unfold canonicalize
  rw [h, ok_bind, hProfile, ok_bind, hSymbols]

/-- The symbols are the pieces of a partition of the text that is read, if it can be written. -/
theorem canonicalize_spec {s : Bytes} {cs : List Char}
    (hText : (icu.unicodeString s).units = utf16 cs) (hSize : (utf8 cs).length < 2 ^ 31)
    (language : Language) :
    ∃ (pieces : List (List Char)) (symbols : List IndicSymbol),
      pieces.flatten = cs ∧ (∀ piece ∈ pieces, piece ≠ []) ∧
        canonicalize icu s language = .ok symbols ∧
        symbols.map IndicSymbol.grapheme = pieces.map utf8 := by
  rcases GraphemeEngine.segment_eq hIcu hText hSize with ⟨pieces, hFlatten, hPieces, hSegment⟩
  rcases canonicalize_of_segment hIcu hSegment language with ⟨symbols, hOk, hGraphemes⟩
  refine ⟨pieces, symbols, hFlatten, hPieces, hOk, ?_⟩
  rw [hGraphemes, GraphemeEngine.map_utf8_clustersAt]

/-- The graphemes spell out the text that is read. -/
theorem flatten_graphemes {s : Bytes} {cs : List Char}
    (hText : (icu.unicodeString s).units = utf16 cs) (hSize : (utf8 cs).length < 2 ^ 31)
    {symbols : List IndicSymbol} {language : Language}
    (h : canonicalize icu s language = .ok symbols) :
    (symbols.map IndicSymbol.grapheme).flatten = utf8 cs := by
  rcases canonicalize_spec hIcu hText hSize language with ⟨pieces, symbols', rfl, -, hOk, hGraphemes⟩
  rw [h, Except.ok.injEq] at hOk
  rw [hOk, hGraphemes, utf8_flatten]

/-- Where nothing is read there are no symbols. -/
theorem canonicalize_nil {s : Bytes} (hText : (icu.unicodeString s).units = [])
    (language : Language) : canonicalize icu s language = .ok [] := by
  rcases canonicalize_of_segment hIcu (GraphemeEngine.segment_nil hIcu hText) language with
    ⟨symbols, hOk, hGraphemes⟩
  rw [hOk, List.map_eq_nil_iff.mp hGraphemes]

/-- A text of one scalar value is one symbol. -/
theorem canonicalize_singleton (c : Char) {code : UScriptCode}
    (hCode : icu.getScript c.toNat = some code) (language : Language) :
    canonicalize icu (utf8 [c]) language =
      .ok [⟨makeSymbolId (utf8 [c]) (mapScript code) language, utf8 [c], mapScript code, language⟩] := by
  have hShort := length_utf8_singleton_le c
  have hText := hIcu.units_utf8 (Nat.le_trans hShort (by decide))
  have hSize := Nat.lt_of_le_of_lt hShort (show 4 < 2 ^ 31 by omega)
  rcases GraphemeEngine.segment_eq hIcu hText hSize with ⟨pieces, hFlatten, hPieces, hSegment⟩
  rcases LanguageRegistry.get_spec language with ⟨profile, hProfile, hLanguage⟩
  unfold canonicalize
  rw [hSegment, ok_bind, hProfile, ok_bind, pieces_eq_singleton hFlatten hPieces]
  unfold symbol
  simp only [GraphemeEngine.clustersAt, List.mapM_cons, List.mapM_nil,
    ScriptEngine.detect_cons hIcu hText hCode, ok_bind, pure_eq_ok, hLanguage]

theorem canonicalize_isOk {s : Bytes} {cs : List Char}
    (hText : (icu.unicodeString s).units = utf16 cs) (hSize : (utf8 cs).length < 2 ^ 31)
    (language : Language) : IsOk (canonicalize icu s language) := by
  rcases canonicalize_spec hIcu hText hSize language with ⟨_, symbols, -, -, hOk, -⟩
  exact ⟨symbols, hOk⟩

end Lawful

/-! ## Two spellings -/

/-- Both strings are canonicalised to the same symbols. -/
def SameSymbols (icu : Icu) (x y : Bytes) (language : Language) : Prop :=
  ∃ symbols, canonicalize icu x language = .ok symbols ∧ canonicalize icu y language = .ok symbols

theorem sameSymbols_iff {icu : Icu} (hIcu : icu.Lawful) {x y : Bytes} {cs ds : List Char}
    (hx : (icu.unicodeString x).units = utf16 cs) (hy : (icu.unicodeString y).units = utf16 ds)
    (hxSize : (utf8 cs).length < 2 ^ 31) (hySize : (utf8 ds).length < 2 ^ 31)
    {language : Language} : SameSymbols icu x y language ↔ cs = ds := by
  constructor
  · intro h
    rcases h with ⟨symbols, hxSymbols, hySymbols⟩
    rw [← utf8_inj, ← flatten_graphemes hIcu hx hxSize hxSymbols,
      flatten_graphemes hIcu hy hySize hySymbols]
  · intro h
    subst h
    cases cs with
    | nil => exact ⟨[], canonicalize_nil hIcu hx language, canonicalize_nil hIcu hy language⟩
    | cons c cs =>
      have hSame : icu.unicodeString x = icu.unicodeString y := by
        rw [UnicodeString.eq_text_of_units hx, UnicodeString.eq_text_of_units hy]
      rcases canonicalize_isOk hIcu hx hxSize language with ⟨symbols, hSymbols⟩
      exact ⟨symbols, hSymbols, canonicalize_congr hSame language ▸ hSymbols⟩

section Equivalent

variable {icu : Icu} (hIcu : icu.Lawful)
include hIcu

/-- Equivalent spellings are read, so they have the same symbols only where the same is read. -/
theorem sameSymbols_iff_of_equivalent {x y : Bytes} (hx : WellFormed x) (hy : WellFormed y)
    (h : CanonicallyEquivalent icu x y) {language : Language} :
    SameSymbols icu x y language ↔ icu.unicodeString x = icu.unicodeString y := by
  rcases h with ⟨normalized, hxNfc, hyNfc⟩
  rcases exists_text_of_normalizeNfc hIcu hxNfc with ⟨cs, hxText⟩
  rcases exists_text_of_normalizeNfc hIcu hyNfc with ⟨ds, hyText⟩
  have hxUnits := congrArg UnicodeString.units hxText
  have hyUnits := congrArg UnicodeString.units hyText
  rw [sameSymbols_iff hIcu hxUnits hyUnits (hIcu.length_lt_of_wellFormed hx hxUnits)
    (hIcu.length_lt_of_wellFormed hy hyUnits), hxText, hyText, UnicodeString.text.injEq, utf16_inj]

/-- What can be normalised was read, so it is within the limit of ICU. -/
theorem length_le_of_normalizeNfc {x x' : Bytes} (h : normalizeNfc icu x = .ok x')
    (hSize : x.length < 2 ^ 31) : x.length ≤ Icu.readLimit := by
  by_contra hBeyond
  rcases exists_text_of_normalizeNfc hIcu h with ⟨cs, hText⟩
  cases (hIcu.unicodeString_bogus (Nat.not_le.mp hBeyond) hSize).symm.trans hText

end Equivalent

/-- **When equivalent spellings have the same symbols**: if and only if they are read as the
same text, which for strings below `2 ^ 31` bytes says that they are the same spelling. -/
theorem canonicalize_equivalent_iff (icu : Icu) (hIcu : icu.Lawful) (x y : Bytes)
    (hx : WellFormed x) (hy : WellFormed y) (language : Language) :
    ((CanonicallyEquivalent icu x y → SameSymbols icu x y language) ↔
      (CanonicallyEquivalent icu x y → icu.unicodeString x = icu.unicodeString y)) ∧
    (x.length < 2 ^ 31 → y.length < 2 ^ 31 →
      ((CanonicallyEquivalent icu x y → SameSymbols icu x y language) ↔
        (CanonicallyEquivalent icu x y → x = y))) := by
  refine ⟨?_, fun hxSize hySize => ?_⟩
  · exact forall_congr' fun hEquivalent => sameSymbols_iff_of_equivalent hIcu hx hy hEquivalent
  · refine forall_congr' fun hEquivalent => ?_
    rw [sameSymbols_iff_of_equivalent hIcu hx hy hEquivalent]
    rcases hEquivalent with ⟨normalized, hxNfc, hyNfc⟩
    exact hIcu.unicodeString_inj hx hy (length_le_of_normalizeNfc hIcu hxNfc hxSize)
      (length_le_of_normalizeNfc hIcu hyNfc hySize)

/-- The letter KA with a nukta, against itself. -/
theorem canonicalize_equivalent_iff_qa :
    SameSymbols smallIcu (utf8 ['\u0915', '\u093c']) (utf8 ['\u0915', '\u093c']) .hindi := by
  have hShort : (utf8 ['\u0915', '\u093c']).length < 2 ^ 31 := by decide
  have hNfc : normalizeNfc smallIcu (utf8 ['\u0915', '\u093c']) =
      .ok (utf8 ['\u0915', '\u093c']) := SmallIcu.normalizeNfc_eq (by decide) (by decide)
  have hSame := (canonicalize_equivalent_iff smallIcu SmallIcu.lawful _ _ ⟨_, rfl⟩ ⟨_, rfl⟩
    .hindi).2 hShort hShort
  exact hSame.mpr (fun _ => rfl) ⟨_, hNfc, hNfc⟩

/-- U+0958 is the letter KA with a nukta: the two spellings are equivalent, and their symbols
are different. -/
theorem not_canonicalize_equivalent :
    utf8 ['\u0958'] = [0xe0, 0xa5, 0x98] ∧
    utf8 ['\u0915', '\u093c'] = [0xe0, 0xa4, 0x95, 0xe0, 0xa4, 0xbc] ∧
    CanonicallyEquivalent smallIcu (utf8 ['\u0958']) (utf8 ['\u0915', '\u093c']) ∧
    ¬ SameSymbols smallIcu (utf8 ['\u0958']) (utf8 ['\u0915', '\u093c']) .hindi := by
  have hLetter : (utf8 ['\u0958']).length ≤ Icu.readLimit := by decide
  have hSpelled : (utf8 ['\u0915', '\u093c']).length ≤ Icu.readLimit := by decide
  refine ⟨by decide, by decide, ?_, ?_⟩
  · exact ⟨utf8 ['\u0915', '\u093c'], SmallIcu.normalizeNfc_eq hLetter (by decide),
      SmallIcu.normalizeNfc_eq hSpelled (by decide)⟩
  · rw [sameSymbols_iff SmallIcu.lawful (SmallIcu.lawful.units_utf8 hLetter)
      (SmallIcu.lawful.units_utf8 hSpelled) (by decide) (by decide)]
    decide

end Canonicalizer

end IndicCrypt.Text
