import IndicCrypt.Failure

/-!
# Scripts, languages and symbols

The enumerations `Script` and `Language` in the order of the headers, the table of
`LanguageRegistry`, and `IndicSymbol` with its equality. `IndicSymbol::operator==` compares
all four fields, so it decides equality (`LawfulBEq`); in particular two symbols that
differ only in their numeric id are different.
-/

namespace IndicCrypt.Text

inductive Script where
  | unknown
  | devanagari
  | bengali
  | gurmukhi
  | gujarati
  | odia
  | tamil
  | telugu
  | kannada
  | malayalam
  | meetei
  | olChiki
  | arabic
  | latin
  | other
deriving DecidableEq, Repr

inductive Language where
  | assamese
  | bengali
  | bodo
  | dogri
  | gujarati
  | hindi
  | kannada
  | kashmiri
  | konkani
  | maithili
  | malayalam
  | manipuri
  | marathi
  | nepali
  | odia
  | punjabi
  | sanskrit
  | santali
  | sindhi
  | tamil
  | telugu
  | urdu
deriving DecidableEq, Repr

/-! ## The language registry -/

structure LanguageProfile where
  language : Language
  name : String
  iso639_1 : String
  iso639_3 : String
  primaryScript : Script
deriving DecidableEq, Repr

namespace LanguageRegistry

def all : List LanguageProfile := [
  ⟨.assamese, "Assamese", "as", "asm", .bengali⟩,
  ⟨.bengali, "Bengali", "bn", "ben", .bengali⟩,
  ⟨.bodo, "Bodo", "brx", "brx", .devanagari⟩,
  ⟨.dogri, "Dogri", "doi", "doi", .devanagari⟩,
  ⟨.gujarati, "Gujarati", "gu", "guj", .gujarati⟩,
  ⟨.hindi, "Hindi", "hi", "hin", .devanagari⟩,
  ⟨.kannada, "Kannada", "kn", "kan", .kannada⟩,
  ⟨.kashmiri, "Kashmiri", "ks", "kas", .arabic⟩,
  ⟨.konkani, "Konkani", "kok", "kok", .devanagari⟩,
  ⟨.maithili, "Maithili", "mai", "mai", .devanagari⟩,
  ⟨.malayalam, "Malayalam", "ml", "mal", .malayalam⟩,
  ⟨.manipuri, "Manipuri", "mni", "mni", .meetei⟩,
  ⟨.marathi, "Marathi", "mr", "mar", .devanagari⟩,
  ⟨.nepali, "Nepali", "ne", "nep", .devanagari⟩,
  ⟨.odia, "Odia", "or", "ori", .odia⟩,
  ⟨.punjabi, "Punjabi", "pa", "pan", .gurmukhi⟩,
  ⟨.sanskrit, "Sanskrit", "sa", "san", .devanagari⟩,
  ⟨.santali, "Santali", "sat", "sat", .olChiki⟩,
  ⟨.sindhi, "Sindhi", "sd", "snd", .arabic⟩,
  ⟨.tamil, "Tamil", "ta", "tam", .tamil⟩,
  ⟨.telugu, "Telugu", "te", "tel", .telugu⟩,
  ⟨.urdu, "Urdu", "ur", "urd", .arabic⟩]

def get (language : Language) : Result LanguageProfile :=
  match all.find? (fun profile => profile.language == language) with
  | some profile => .ok profile
  | none => .error (.outOfRange "Unknown IndicCrypt language")

/-- Every enumerator has a profile, so the lookup never throws, and the profile it returns
is the one of the language asked for. -/
theorem get_spec (language : Language) :
    ∃ profile, get language = .ok profile ∧ profile.language = language := by
  cases language <;> exact ⟨_, rfl, rfl⟩

end LanguageRegistry

/-! ## Symbols -/

structure IndicSymbol where
  id : UInt64
  grapheme : Bytes
  script : Script
  language : Language
deriving Repr

namespace IndicSymbol

/-- `IndicSymbol::operator==`. -/
def eq (self other : IndicSymbol) : Bool :=
  self.id == other.id
    && self.grapheme == other.grapheme
    && self.script == other.script
    && self.language == other.language

instance : BEq IndicSymbol := ⟨eq⟩

theorem eq_iff (s t : IndicSymbol) : s.eq t = true ↔ s = t := by
  cases s
  cases t
  simp [eq, and_assoc]

instance : LawfulBEq IndicSymbol where
  rfl {s} := (eq_iff s s).mpr rfl
  eq_of_beq {s t} h := (eq_iff s t).mp h

instance : DecidableEq IndicSymbol := instDecidableEqOfLawfulBEq

/-- What a symbol stands for, without its identifier. -/
def visible (symbol : IndicSymbol) : Bytes × Script × Language :=
  (symbol.grapheme, symbol.script, symbol.language)

theorem eq_of_visible {s t : IndicSymbol} (hVisible : s.visible = t.visible) (hId : s.id = t.id) :
    s = t := by
  cases s
  cases t
  simp only [visible, Prod.mk.injEq] at hVisible
  simp only [IndicSymbol.mk.injEq]
  exact ⟨hId, hVisible⟩

end IndicSymbol

end IndicCrypt.Text
