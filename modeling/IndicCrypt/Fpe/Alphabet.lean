import Mathlib.Data.List.Nodup
import IndicCrypt.Library.Positional
import IndicCrypt.Text.Symbol

/-!
# Alphabets, codecs and domains

`FpeRadix`, `FpeAlphabet`, `FpeCodec` and `FpeDomain`. Each structure carries what its
constructor checks: a radix is at least two, the symbols of an alphabet are nonempty and
pairwise distinct (`hasDuplicate` is the nested loop of the constructor), and the radix of
a domain is the number of symbols of its alphabet.

Encoding and decoding are two readings of one relation, `Spells`: position by position,
the digit is the index of the symbol (`encode_eq_ok`, `decode_eq_ok`).
-/

namespace IndicCrypt.Fpe

open Positional Run Text

/-! ## Radix -/

structure FpeRadix where
  value : Nat
  two_le : 2 ≤ value

namespace FpeRadix

def make (radix : Nat) : Result FpeRadix :=
  if h : radix < 2 then
    .error (.invalidArgument "FPE radix must be at least 2")
  else
    .ok ⟨radix, by omega⟩

def contains (radix : FpeRadix) (digit : Nat) : Bool := digit < radix.value

def validate (radix : FpeRadix) : List Nat → Result Unit
  | [] => .ok ()
  | digit :: digits => do
    throwIf (¬ radix.contains digit) (.outOfRange "FPE digit is outside radix domain")
    validate radix digits

theorem pos (radix : FpeRadix) : 0 < radix.value := by
  have := radix.two_le
  omega

@[simp] theorem validate_eq_ok {radix : FpeRadix} {digits : List Nat} {u : Unit} :
    radix.validate digits = .ok u ↔ Digits radix.value digits := by
  induction digits with
  | nil => simp [validate]
  | cons digit digits ih => simp [validate, contains, ih]

theorem validate_of_digits {radix : FpeRadix} {digits : List Nat}
    (h : Digits radix.value digits) : radix.validate digits = .ok () := validate_eq_ok.mpr h

end FpeRadix

/-! ## Alphabet -/

/-- The nested loops of the constructor: some symbol equals a later one. -/
def hasDuplicate : List IndicSymbol → Bool
  | [] => false
  | symbol :: rest => rest.any (fun other => symbol == other) || hasDuplicate rest

theorem hasDuplicate_eq_false {symbols : List IndicSymbol} :
    hasDuplicate symbols = false ↔ symbols.Nodup := by
  induction symbols with
  | nil => simp [hasDuplicate]
  | cons symbol rest ih =>
    rw [hasDuplicate, Bool.or_eq_false_iff, ih, List.nodup_cons, List.any_eq_false]
    refine and_congr_left fun _ => ⟨fun h hMem => h symbol hMem (beq_self_eq_true symbol), ?_⟩
    intro hNot other hOther hEq
    have hSame : symbol = other := eq_of_beq hEq
    exact hNot (hSame ▸ hOther)

structure FpeAlphabet where
  script : Script
  symbols : List IndicSymbol
  version : String
  symbols_ne : symbols ≠ []
  version_ne : version ≠ ""
  nodup : symbols.Nodup

namespace FpeAlphabet

def make (script : Script) (symbols : List IndicSymbol) (version : String) :
    Result FpeAlphabet :=
  if hEmpty : symbols = [] then
    .error (.invalidArgument "FPE alphabet cannot be empty")
  else if hVersion : version = "" then
    .error (.invalidArgument "FPE alphabet version cannot be empty")
  else if hDuplicate : hasDuplicate symbols = true then
    .error (.invalidArgument "FPE alphabet contains duplicate symbols")
  else
    .ok ⟨script, symbols, version, hEmpty, hVersion,
      hasDuplicate_eq_false.mp (Bool.not_eq_true _ ▸ hDuplicate)⟩

def radix (alphabet : FpeAlphabet) : Nat := alphabet.symbols.length

def indexOf (alphabet : FpeAlphabet) (symbol : IndicSymbol) : Result Nat :=
  match alphabet.symbols.findIdx? (fun entry => entry == symbol) with
  | some index => .ok index
  | none => .error (.outOfRange "Symbol is not present in FPE alphabet")

def symbolAt (alphabet : FpeAlphabet) (index : Nat) : Result IndicSymbol :=
  match alphabet.symbols[index]? with
  | some symbol => .ok symbol
  | none => .error (.outOfRange "FPE alphabet index is out of range")

/-- The constructor accepts exactly the nonempty, duplicate-free symbol lists with a
nonempty version, and stores its arguments. -/
theorem make_eq_ok {script : Script} {symbols : List IndicSymbol} {version : String}
    {alphabet : FpeAlphabet} :
    make script symbols version = .ok alphabet ↔
      alphabet.script = script ∧ alphabet.symbols = symbols ∧ alphabet.version = version := by
  obtain ⟨script', symbols', version', hEmpty, hVersion, hNodup⟩ := alphabet
  constructor
  · intro h
    unfold make at h
    split at h
    · cases h
    · split at h
      · cases h
      · split at h
        · cases h
        · cases h
          exact ⟨rfl, rfl, rfl⟩
  · rintro ⟨rfl, rfl, rfl⟩
    have hFalse : ¬ hasDuplicate symbols' = true := by
      rw [hasDuplicate_eq_false.mpr hNodup]
      exact Bool.false_ne_true
    simp only [make, dif_neg hEmpty, dif_neg hVersion, dif_neg hFalse]

/-- The first match is the only one, since the symbols are distinct. -/
@[simp] theorem indexOf_eq_ok {alphabet : FpeAlphabet} {symbol : IndicSymbol} {index : Nat} :
    alphabet.indexOf symbol = .ok index ↔ alphabet.symbols[index]? = some symbol := by
  have hFound : ∀ i, alphabet.symbols.findIdx? (fun entry => entry == symbol) = some i →
      alphabet.symbols[i]? = some symbol := by
    intro i hi
    obtain ⟨hLt, hEq, -⟩ := List.findIdx?_eq_some_iff_getElem.mp hi
    rw [List.getElem?_eq_getElem hLt, eq_of_beq hEq]
  unfold indexOf
  cases hFind : alphabet.symbols.findIdx? (fun entry => entry == symbol) with
  | none =>
    simp only [reduceCtorEq, false_iff]
    intro hGet
    have hAll := List.findIdx?_eq_none_iff.mp hFind symbol (List.mem_of_getElem? hGet)
    rw [beq_self_eq_true] at hAll
    cases hAll
  | some i =>
    have hGetI := hFound i hFind
    simp only [Except.ok.injEq]
    constructor
    · rintro rfl
      exact hGetI
    · intro hGet
      obtain ⟨hLt, -⟩ := List.getElem?_eq_some_iff.mp hGetI
      exact (List.getElem?_inj hLt alphabet.nodup).mp (hGetI.trans hGet.symm)

@[simp] theorem symbolAt_eq_ok {alphabet : FpeAlphabet} {symbol : IndicSymbol} {index : Nat} :
    alphabet.symbolAt index = .ok symbol ↔ alphabet.symbols[index]? = some symbol := by
  unfold symbolAt
  cases alphabet.symbols[index]? <;> simp

end FpeAlphabet

/-! ## Codec -/

structure FpeCodec where
  alphabet : FpeAlphabet

namespace FpeCodec

def encode (codec : FpeCodec) (symbols : List IndicSymbol) : Result (List Nat) :=
  symbols.mapM codec.alphabet.indexOf

def decode (codec : FpeCodec) (indices : List Nat) : Result (List IndicSymbol) :=
  indices.mapM codec.alphabet.symbolAt

end FpeCodec

/-- Position by position, the digit is the index of the symbol in the alphabet. -/
def FpeAlphabet.Spells (alphabet : FpeAlphabet) : List IndicSymbol → List Nat → Prop :=
  List.Forall₂ fun symbol digit => alphabet.symbols[digit]? = some symbol

namespace FpeAlphabet.Spells

variable {alphabet : FpeAlphabet} {symbols symbols' : List IndicSymbol} {digits digits' : List Nat}

theorem length_eq (h : alphabet.Spells symbols digits) : symbols.length = digits.length :=
  List.Forall₂.length_eq h

theorem getElem? (h : alphabet.Spells symbols digits) {k digit : Nat} (hk : digits[k]? = some digit) :
    symbols[k]? = alphabet.symbols[digit]? := by
  induction h generalizing k with
  | nil => simp at hk
  | @cons symbol first symbols digits hFirst _ ih =>
    cases k with
    | zero =>
      obtain rfl : first = digit := by simpa using hk
      simpa using hFirst.symm
    | succ k => simpa using ih (by simpa using hk)

theorem digits_lt (h : alphabet.Spells symbols digits) : Digits alphabet.radix digits := by
  induction h with
  | nil => exact digits_nil
  | cons hFirst _ ih =>
    obtain ⟨hLt, -⟩ := List.getElem?_eq_some_iff.mp hFirst
    exact digits_cons.mpr ⟨hLt, ih⟩

theorem mem (h : alphabet.Spells symbols digits) : ∀ symbol ∈ symbols, symbol ∈ alphabet.symbols := by
  induction h with
  | nil => simp
  | cons hFirst _ ih => exact List.forall_mem_cons.mpr ⟨List.mem_of_getElem? hFirst, ih⟩

theorem symbols_unique (h : alphabet.Spells symbols digits) (h' : alphabet.Spells symbols' digits) :
    symbols = symbols' := by
  induction h generalizing symbols' with
  | nil =>
    cases h'
    rfl
  | cons hFirst _ ih =>
    cases h' with
    | cons hFirst' hRest' =>
      rw [Option.some.inj (hFirst.symm.trans hFirst'), ih hRest']

/-- Digits are determined as well, because the symbols are distinct. -/
theorem digits_unique (h : alphabet.Spells symbols digits) (h' : alphabet.Spells symbols digits') :
    digits = digits' := by
  induction h generalizing digits' with
  | nil =>
    cases h'
    rfl
  | cons hFirst _ ih =>
    cases h' with
    | cons hFirst' hRest' =>
      obtain ⟨hLt, -⟩ := List.getElem?_eq_some_iff.mp hFirst
      rw [(List.getElem?_inj hLt alphabet.nodup).mp (hFirst.trans hFirst'.symm), ih hRest']

end FpeAlphabet.Spells

theorem FpeAlphabet.exists_spells_of_digits {alphabet : FpeAlphabet} {digits : List Nat}
    (h : Digits alphabet.radix digits) : ∃ symbols, alphabet.Spells symbols digits := by
  induction digits with
  | nil => exact ⟨[], .nil⟩
  | cons digit digits ih =>
    obtain ⟨hDigit, hRest⟩ := digits_cons.mp h
    obtain ⟨symbols, hSymbols⟩ := ih hRest
    exact ⟨alphabet.symbols.get ⟨digit, hDigit⟩ :: symbols,
      .cons (List.getElem?_eq_getElem hDigit) hSymbols⟩

theorem FpeAlphabet.exists_spells_of_mem {alphabet : FpeAlphabet} {symbols : List IndicSymbol}
    (h : ∀ symbol ∈ symbols, symbol ∈ alphabet.symbols) : ∃ digits, alphabet.Spells symbols digits := by
  induction symbols with
  | nil => exact ⟨[], .nil⟩
  | cons symbol symbols ih =>
    obtain ⟨hSymbol, hRest⟩ := List.forall_mem_cons.mp h
    obtain ⟨digits, hDigits⟩ := ih hRest
    obtain ⟨digit, hDigit⟩ := List.mem_iff_getElem?.mp hSymbol
    exact ⟨digit :: digits, .cons hDigit hDigits⟩

namespace FpeCodec

theorem encode_eq_ok {codec : FpeCodec} {symbols : List IndicSymbol} {digits : List Nat} :
    codec.encode symbols = .ok digits ↔ codec.alphabet.Spells symbols digits := by
  simp only [encode, mapM_eq_ok, FpeAlphabet.indexOf_eq_ok, FpeAlphabet.Spells]

theorem decode_eq_ok {codec : FpeCodec} {symbols : List IndicSymbol} {digits : List Nat} :
    codec.decode digits = .ok symbols ↔ codec.alphabet.Spells symbols digits := by
  simp only [decode, mapM_eq_ok, FpeAlphabet.symbolAt_eq_ok, FpeAlphabet.Spells]
  exact ⟨List.Forall₂.flip, List.Forall₂.flip⟩

end FpeCodec

/-! ## Domain -/

structure FpeDomain where
  alphabet : FpeAlphabet
  codec : FpeCodec
  radix : FpeRadix
  codec_eq : codec = ⟨alphabet⟩
  radix_eq : radix.value = alphabet.radix

namespace FpeDomain

def make (alphabet : FpeAlphabet) : Result FpeDomain :=
  match hRadix : FpeRadix.make alphabet.radix with
  | .error failure => .error failure
  | .ok radix =>
    .ok ⟨alphabet, ⟨alphabet⟩, radix, rfl, by
      unfold FpeRadix.make at hRadix
      split at hRadix
      · cases hRadix
      · cases hRadix
        rfl⟩

def encode (domain : FpeDomain) (symbols : List IndicSymbol) : Result (List Nat) := do
  let encoded ← domain.codec.encode symbols
  domain.radix.validate encoded
  return encoded

def decode (domain : FpeDomain) (digits : List Nat) : Result (List IndicSymbol) := do
  domain.radix.validate digits
  domain.codec.decode digits

/-- An alphabet of at least two symbols makes a domain. -/
theorem make_isOk {alphabet : FpeAlphabet} (h : 2 ≤ alphabet.radix) :
    ∃ domain, make alphabet = .ok domain ∧ domain.alphabet = alphabet := by
  have hMake : FpeRadix.make alphabet.radix = .ok ⟨alphabet.radix, h⟩ := dif_neg (by omega)
  unfold make
  split
  · rename_i failure hFailure
    rw [hMake] at hFailure
    cases hFailure
  · exact ⟨_, rfl, rfl⟩

variable {domain : FpeDomain} {symbols : List IndicSymbol} {digits : List Nat}

theorem codec_alphabet (domain : FpeDomain) : domain.codec.alphabet = domain.alphabet := by
  rw [domain.codec_eq]

/-- The digits of the codec are indices, so the check after it never fires. -/
theorem validate_of_codec_encode (h : domain.codec.encode symbols = .ok digits) :
    domain.radix.validate digits = .ok () := by
  rw [FpeRadix.validate_eq_ok, domain.radix_eq, ← codec_alphabet]
  exact (FpeCodec.encode_eq_ok.mp h).digits_lt

/-- The check before the codec leaves only indices, so the lookups never throw. -/
theorem codec_decode_of_validate (h : domain.radix.validate digits = .ok ()) :
    IsOk (domain.codec.decode digits) := by
  rw [FpeRadix.validate_eq_ok, domain.radix_eq] at h
  obtain ⟨symbols, hSymbols⟩ := FpeAlphabet.exists_spells_of_digits h
  exact ⟨symbols, FpeCodec.decode_eq_ok.mpr ((codec_alphabet domain).symm ▸ hSymbols)⟩

theorem encode_eq_ok : domain.encode symbols = .ok digits ↔ domain.alphabet.Spells symbols digits := by
  rw [← codec_alphabet, ← FpeCodec.encode_eq_ok]
  constructor
  · intro h
    obtain ⟨encoded, hEncoded, hRest⟩ := bind_eq_ok.mp h
    rw [validate_of_codec_encode hEncoded, ok_bind] at hRest
    cases hRest
    exact hEncoded
  · intro h
    rw [encode, h, ok_bind, validate_of_codec_encode h]
    rfl

theorem decode_eq_ok : domain.decode digits = .ok symbols ↔ domain.alphabet.Spells symbols digits := by
  rw [← codec_alphabet, ← FpeCodec.decode_eq_ok]
  constructor
  · intro h
    obtain ⟨-, -, hDecoded⟩ := bind_eq_ok.mp h
    exact hDecoded
  · intro h
    have hValid : domain.radix.validate digits = .ok () := by
      rw [FpeRadix.validate_eq_ok, domain.radix_eq, ← codec_alphabet]
      exact (FpeCodec.decode_eq_ok.mp h).digits_lt
    rw [decode, hValid, ok_bind, h]

theorem isOk_encode :
    IsOk (domain.encode symbols) ↔ ∀ symbol ∈ symbols, symbol ∈ domain.alphabet.symbols := by
  constructor
  · rintro ⟨digits, hDigits⟩
    exact (encode_eq_ok.mp hDigits).mem
  · intro h
    obtain ⟨digits, hDigits⟩ := FpeAlphabet.exists_spells_of_mem h
    exact ⟨digits, encode_eq_ok.mpr hDigits⟩

theorem isOk_decode : IsOk (domain.decode digits) ↔ Digits domain.radix.value digits := by
  constructor
  · rintro ⟨symbols, hSymbols⟩
    rw [domain.radix_eq]
    exact (decode_eq_ok.mp hSymbols).digits_lt
  · intro h
    rw [domain.radix_eq] at h
    obtain ⟨symbols, hSymbols⟩ := FpeAlphabet.exists_spells_of_digits h
    exact ⟨symbols, decode_eq_ok.mpr hSymbols⟩

/-- The symbol sequences over the alphabet. -/
def Symbols (domain : FpeDomain) : Type :=
  {symbols : List IndicSymbol // ∀ symbol ∈ symbols, symbol ∈ domain.alphabet.symbols}

/-- The digit strings below the radix. -/
def Digits (domain : FpeDomain) : Type :=
  {digits : List Nat // Positional.Digits domain.radix.value digits}

theorem exists_digits (domain : FpeDomain) (s : domain.Symbols) :
    ∃ d : domain.Digits, domain.alphabet.Spells s.1 d.1 := by
  obtain ⟨digits, hDigits⟩ := FpeAlphabet.exists_spells_of_mem s.2
  exact ⟨⟨digits, domain.radix_eq ▸ hDigits.digits_lt⟩, hDigits⟩

theorem exists_symbols (domain : FpeDomain) (d : domain.Digits) :
    ∃ s : domain.Symbols, domain.alphabet.Spells s.1 d.1 := by
  have hDigits : Positional.Digits domain.alphabet.radix d.1 := by
    rw [← domain.radix_eq]
    exact d.2
  obtain ⟨symbols, hSymbols⟩ := FpeAlphabet.exists_spells_of_digits hDigits
  exact ⟨⟨symbols, hSymbols.mem⟩, hSymbols⟩

/-- Every symbol sequence spells one word and every word is spelled by one sequence. -/
noncomputable def spelling (domain : FpeDomain) : domain.Symbols ≃ domain.Digits where
  toFun s := (domain.exists_digits s).choose
  invFun d := (domain.exists_symbols d).choose
  left_inv s := Subtype.ext <| FpeAlphabet.Spells.symbols_unique
    (domain.exists_symbols (domain.exists_digits s).choose).choose_spec
    (domain.exists_digits s).choose_spec
  right_inv d := Subtype.ext <| FpeAlphabet.Spells.digits_unique
    (domain.exists_digits (domain.exists_symbols d).choose).choose_spec
    (domain.exists_symbols d).choose_spec

theorem spells_spelling (domain : FpeDomain) (s : domain.Symbols) :
    domain.alphabet.Spells s.1 (domain.spelling s).1 := (domain.exists_digits s).choose_spec

theorem spells_spelling_symm (domain : FpeDomain) (d : domain.Digits) :
    domain.alphabet.Spells (domain.spelling.symm d).1 d.1 := (domain.exists_symbols d).choose_spec

end FpeDomain

/-- **Encoding is a bijection.** On every alphabet the constructor accepts with at least
two symbols, encoding and decoding are mutually inverse between the symbol sequences over
the alphabet and the digit strings below the radix, position by position. Encoding throws
exactly at a foreign symbol, decoding exactly at a digit outside the radix, and the second
check of each never fires. -/
theorem domain_encode_decode_inverse {script : Script} {symbols : List IndicSymbol}
    {version : String} {alphabet : FpeAlphabet}
    (hMake : FpeAlphabet.make script symbols version = .ok alphabet) (hTwo : 2 ≤ symbols.length) :
    ∃ domain, FpeDomain.make alphabet = .ok domain ∧
      domain.alphabet.symbols = symbols ∧ domain.radix.value = symbols.length ∧
      (∃ e : domain.Symbols ≃ domain.Digits,
        (∀ s, domain.encode s.1 = .ok (e s).1) ∧
        (∀ d, domain.decode d.1 = .ok (e.symm d).1) ∧
        ∀ s, (e s).1.length = s.1.length ∧
          ∀ (k digit : Nat), (e s).1[k]? = some digit → s.1[k]? = symbols[digit]?) ∧
      (∀ s d, domain.encode s = .ok d ↔ domain.decode d = .ok s) ∧
      (∀ s, (∃ failure, domain.encode s = .error failure) ↔ ∃ symbol ∈ s, symbol ∉ symbols) ∧
      (∀ s d, domain.codec.encode s = .ok d → domain.radix.validate d = .ok ()) ∧
      (∀ d, (∃ failure, domain.decode d = .error failure) ↔
        ∃ digit ∈ d, domain.radix.value ≤ digit) ∧
      (∀ d, domain.radix.validate d = .ok () → ∃ s, domain.codec.decode d = .ok s) := by
  obtain ⟨-, hSymbols, -⟩ := FpeAlphabet.make_eq_ok.mp hMake
  subst hSymbols
  obtain ⟨domain, hDomain, rfl⟩ := FpeDomain.make_isOk hTwo
  refine ⟨domain, hDomain, rfl, domain.radix_eq, ⟨domain.spelling, ?_, ?_, ?_⟩,
    fun s d => FpeDomain.encode_eq_ok.trans FpeDomain.decode_eq_ok.symm, ?_,
    fun s d h => FpeDomain.validate_of_codec_encode h, ?_,
    fun d h => FpeDomain.codec_decode_of_validate h⟩
  · exact fun s => FpeDomain.encode_eq_ok.mpr (domain.spells_spelling s)
  · exact fun d => FpeDomain.decode_eq_ok.mpr (domain.spells_spelling_symm d)
  · intro s
    have hSpells := domain.spells_spelling s
    exact ⟨hSpells.length_eq.symm, fun k digit hk => hSpells.getElem? hk⟩
  · intro s
    rw [← not_isOk_iff, FpeDomain.isOk_encode]
    push Not
    exact Iff.rfl
  · intro d
    rw [← not_isOk_iff, FpeDomain.isOk_decode]
    simp only [Digits]
    push Not
    exact Iff.rfl

/-- The two-letter alphabet अ, आ of the library's own tests, and the word आअ over it. -/
theorem domain_encode_decode_inverse_devanagari :
    ∃ alphabet, FpeAlphabet.make .devanagari
        [⟨1, [0xE0, 0xA4, 0x85], .devanagari, .hindi⟩, ⟨2, [0xE0, 0xA4, 0x86], .devanagari, .hindi⟩]
        "indic-devanagari-v1" = .ok alphabet ∧
      ∃ domain, FpeDomain.make alphabet = .ok domain ∧ domain.radix.value = 2 ∧
        domain.encode [⟨2, [0xE0, 0xA4, 0x86], .devanagari, .hindi⟩,
          ⟨1, [0xE0, 0xA4, 0x85], .devanagari, .hindi⟩] = .ok [1, 0] ∧
        domain.decode [1, 0] = .ok [⟨2, [0xE0, 0xA4, 0x86], .devanagari, .hindi⟩,
          ⟨1, [0xE0, 0xA4, 0x85], .devanagari, .hindi⟩] := by
  let alphabet : FpeAlphabet := ⟨.devanagari,
    [⟨1, [0xE0, 0xA4, 0x85], .devanagari, .hindi⟩, ⟨2, [0xE0, 0xA4, 0x86], .devanagari, .hindi⟩],
    "indic-devanagari-v1", by decide, by decide, by decide⟩
  have hMake : FpeAlphabet.make alphabet.script alphabet.symbols alphabet.version = .ok alphabet :=
    FpeAlphabet.make_eq_ok.mpr ⟨rfl, rfl, rfl⟩
  obtain ⟨domain, hDomain, hSymbols, hRadix, -, hInverse, -⟩ :=
    domain_encode_decode_inverse hMake (by decide)
  have hSpells : domain.alphabet.Spells [⟨2, [0xE0, 0xA4, 0x86], .devanagari, .hindi⟩,
      ⟨1, [0xE0, 0xA4, 0x85], .devanagari, .hindi⟩] [1, 0] := by
    rw [FpeAlphabet.Spells, hSymbols]
    exact .cons rfl (.cons rfl .nil)
  have hEncode := FpeDomain.encode_eq_ok.mpr hSpells
  exact ⟨alphabet, hMake, domain, hDomain, hRadix, hEncode, (hInverse _ _).mp hEncode⟩

end IndicCrypt.Fpe
