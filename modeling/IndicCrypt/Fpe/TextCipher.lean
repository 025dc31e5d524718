import IndicCrypt.Fpe.Pipeline
import IndicCrypt.Text.Stability

/-!
# From texts to ciphertexts

The data flow of the library: a text is normalised, canonicalised to symbols in a language, and
the symbols are encrypted. Spellings have the same ciphertext if and only if they are canonically
equivalent and taken in the same language, and decryption gives the stored text back
(`text_cipher`).
-/

namespace IndicCrypt.Fpe

open Run Crypto Text Transcoding

def Pipeline.encryptText (evp : Evp) (icu : Icu) (parameters : FpeParameters) (language : Language)
    (input : Bytes) : Result (List IndicSymbol) := do
  let text ← IndicText.fromUtf8 icu input
  let symbols ← Canonicalizer.canonicalize icu text.normalizedUtf8 language
  encrypt evp parameters symbols

section TextCipher

variable {evp : Evp} {icu : Icu} {parameters : FpeParameters} {language : Language} {x : Bytes}
  {text : IndicText} {t : List IndicSymbol}

theorem Pipeline.encryptText_eq_ok (hx : IndicText.fromUtf8 icu x = .ok text) :
    Pipeline.encryptText evp icu parameters language x = .ok t ↔
      ∃ symbols, Canonicalizer.canonicalize icu text.normalizedUtf8 language = .ok symbols ∧
        Pipeline.encrypt evp parameters symbols = .ok t := by
  rw [Pipeline.encryptText, hx, ok_bind, bind_eq_ok]

/-- A ciphertext has a symbol, so its text has one. -/
theorem Pipeline.exists_mem_of_encrypt {symbols : List IndicSymbol}
    (h : Pipeline.encrypt evp parameters symbols = .ok t) : ∃ symbol, symbol ∈ symbols := by
  obtain ⟨X, Y, hX, hFf1, -⟩ := Pipeline.encrypt_eq_ok.mp h
  have hLow := (takes_of_encrypt ⟨Y, hFf1⟩).low
  rw [← hX.length_eq] at hLow
  exact List.exists_mem_of_length_pos (by omega)

/-- **The cipher on texts.** Of two texts with NFC forms of at most `Icu.readLimit` bytes, the
second one has the ciphertext of the first one if and only if they are canonically equivalent and
taken in the same language. The ciphertext is decrypted to the symbols of the first one, whose
graphemes are the stored text. -/
theorem text_cipher (hTotal : AesBlock.Total evp) (hIcu : icu.Lawful) {y : Bytes}
    {cs ds : List Char} (hx : NfcForm icu x cs) (hy : NfcForm icu y ds)
    (hxSize : (utf8 cs).length ≤ Icu.readLimit) (hySize : (utf8 ds).length ≤ Icu.readLimit)
    (language' : Language) (h : Pipeline.encryptText evp icu parameters language x = .ok t) :
    (Pipeline.encryptText evp icu parameters language' y = .ok t ↔
      CanonicallyEquivalent icu x y ∧ language' = language) ∧
    ∃ text symbols, IndicText.fromUtf8 icu x = .ok text ∧
      Canonicalizer.canonicalize icu text.normalizedUtf8 language = .ok symbols ∧
      Pipeline.decrypt evp parameters t = .ok symbols ∧
      (symbols.map IndicSymbol.grapheme).flatten = text.normalizedUtf8 := by
  obtain ⟨E, hE⟩ := hTotal.exists_computes
  have hxText := fromUtf8_of_nfcForm hIcu hx hxSize
  have hyText := fromUtf8_of_nfcForm hIcu hy hySize
  have hRead := hIcu.units_utf8 hxSize
  have hRead' := hIcu.units_utf8 hySize
  obtain ⟨symbols, hSymbols, hEncrypt⟩ := (Pipeline.encryptText_eq_ok hxText).mp h
  have hDecrypt := (Pipeline.encrypt_iff_decrypt hE).mp hEncrypt
  have hSame := sameSymbols_iff_canonicallyEquivalent hIcu hx hy hxSize hySize language
  refine ⟨⟨fun hAlso => ?_, fun hBoth => ?_⟩, _, symbols, hxText, hSymbols, hDecrypt,
    Canonicalizer.flatten_graphemes hIcu hRead (Icu.lt_of_le_readLimit hxSize) hSymbols⟩
  · obtain ⟨symbols', hSymbols', hEncrypt'⟩ := (Pipeline.encryptText_eq_ok hyText).mp hAlso
    have hDecrypt' := (Pipeline.encrypt_iff_decrypt hE).mp hEncrypt'
    obtain rfl := Except.ok.inj (hDecrypt.symm.trans hDecrypt')
    obtain ⟨symbol, hMem⟩ := Pipeline.exists_mem_of_encrypt hEncrypt
    have hLanguage := language_of_canonicalize hIcu hRead hxSize hSymbols symbol hMem
    have hLanguage' := language_of_canonicalize hIcu hRead' hySize hSymbols' symbol hMem
    obtain rfl := hLanguage'.symm.trans hLanguage
    exact ⟨hSame.mp ⟨symbols, hSymbols, hSymbols'⟩, rfl⟩
  · obtain ⟨hEquivalent, rfl⟩ := hBoth
    obtain ⟨symbols', hSymbols', hAlso⟩ := hSame.mpr hEquivalent
    obtain rfl := Except.ok.inj (hSymbols.symm.trans hSymbols')
    exact (Pipeline.encryptText_eq_ok hyText).mpr ⟨symbols, hAlso, hEncrypt⟩

end TextCipher

/-- U+0958 and the letter KA with a nukta, before another letter, under AES. -/
theorem text_cipher_qa : ∃ (domain : FpeDomain) (t : List IndicSymbol),
    domain.alphabet.symbols =
      [⟨makeSymbolId (utf8 ['\u0915', '\u093c']) .devanagari .hindi, utf8 ['\u0915', '\u093c'],
          .devanagari, .hindi⟩,
        ⟨makeSymbolId (utf8 ['\u0905']) .devanagari .hindi, utf8 ['\u0905'], .devanagari, .hindi⟩] ∧
    Pipeline.encryptText (Evp.ofFunction aes) smallIcu
      ⟨domain, ⟨List.replicate 16 0⟩, [], Nat.zero_le 64⟩ .hindi
      (utf8 ['\u0958', '\u0905']) = .ok t ∧
    Pipeline.encryptText (Evp.ofFunction aes) smallIcu
      ⟨domain, ⟨List.replicate 16 0⟩, [], Nat.zero_le 64⟩ .hindi
      (utf8 ['\u0915', '\u093c', '\u0905']) = .ok t := by
  let alphabet : FpeAlphabet := ⟨.devanagari,
    [⟨makeSymbolId (utf8 ['\u0915', '\u093c']) .devanagari .hindi, utf8 ['\u0915', '\u093c'],
        .devanagari, .hindi⟩,
      ⟨makeSymbolId (utf8 ['\u0905']) .devanagari .hindi, utf8 ['\u0905'], .devanagari, .hindi⟩],
    "indic-devanagari-v1", by decide, by decide, by decide⟩
  obtain ⟨domain, -, hAlphabet⟩ := FpeDomain.make_isOk (show 2 ≤ alphabet.radix by decide)
  have hLetter : NfcForm smallIcu (utf8 ['\u0958', '\u0905']) ['\u0915', '\u093c', '\u0905'] :=
    SmallIcu.nfcForm_decompose (by decide)
  have hSpelled : NfcForm smallIcu (utf8 ['\u0915', '\u093c', '\u0905'])
      ['\u0915', '\u093c', '\u0905'] := SmallIcu.nfcForm_decompose (by decide)
  have hShort : (utf8 ['\u0915', '\u093c', '\u0905']).length ≤ Icu.readLimit := by decide
  have hSymbols : Canonicalizer.canonicalize smallIcu (utf8 ['\u0915', '\u093c', '\u0905']) .hindi =
      .ok alphabet.symbols := rfl
  have hSize : AesBlock.ValidKeySize (⟨List.replicate 16 0⟩ : Key).size := by decide
  let parameters : FpeParameters := ⟨domain, ⟨List.replicate 16 0⟩, [], Nat.zero_le 64⟩
  have hMem : ∀ symbol ∈ alphabet.symbols, symbol ∈ parameters.domain.alphabet.symbols :=
    fun symbol hMem => hAlphabet.symm ▸ hMem
  have hSmall : parameters.domain.alphabet.symbols.length ≤ 65536 := by
    rw [hAlphabet]
    decide
  obtain ⟨t, ht⟩ := Pipeline.encrypt_isOk (AesBlock.computes_ofFunction aes) (by decide)
    (by decide) hMem hSize hSmall
  have hEncrypt := (Pipeline.encryptText_eq_ok
    (fromUtf8_of_nfcForm SmallIcu.lawful hLetter hShort)).mpr ⟨_, hSymbols, ht⟩
  have hEquivalent :=
    (canonicallyEquivalent_iff SmallIcu.lawful hLetter hSpelled hShort hShort).mpr rfl
  exact ⟨domain, t, congrArg FpeAlphabet.symbols hAlphabet, hEncrypt,
    (text_cipher (AesBlock.computes_ofFunction aes).total SmallIcu.lawful hLetter hSpelled hShort
      hShort .hindi hEncrypt).1.mpr ⟨hEquivalent, rfl⟩⟩

end IndicCrypt.Fpe
