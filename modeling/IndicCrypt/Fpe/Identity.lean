import IndicCrypt.Fpe.Alphabet
import IndicCrypt.Text.Canonicalizer

/-!
# The identity of a symbol

Equality of symbols compares their numeric identifiers, and so do the duplicate check and the
lookup of an alphabet. Two symbols with the same grapheme, script and language but different
identifiers are therefore different symbols of the cipher. `symbol_identity_iff` says exactly
where the identifiers do not matter.
-/

namespace IndicCrypt.Fpe

open Positional Run Text

/-- Two symbols of an alphabet have two digits. -/
theorem FpeAlphabet.two_digits_iff {alphabet : FpeAlphabet} {a b : IndicSymbol} (hNe : a ≠ b) :
    (∃ i j, i ≠ j ∧ alphabet.indexOf a = .ok i ∧ alphabet.indexOf b = .ok j) ↔
      a ∈ alphabet.symbols ∧ b ∈ alphabet.symbols := by
  simp only [indexOf_eq_ok]
  refine ⟨fun h => ?_, fun h => ?_⟩
  · obtain ⟨i, j, -, hi, hj⟩ := h
    exact ⟨List.mem_of_getElem? hi, List.mem_of_getElem? hj⟩
  · obtain ⟨i, hi⟩ := List.mem_iff_getElem?.mp h.1
    obtain ⟨j, hj⟩ := List.mem_iff_getElem?.mp h.2
    refine ⟨i, j, fun hSame => ?_, hi, hj⟩
    rw [hSame] at hi
    exact hNe (Option.some.inj (hi.symm.trans hj))

namespace FpeDomain

/-- Both sequences have the same digits, or both are rejected. -/
def TreatedAlike (domain : FpeDomain) (s t : List IndicSymbol) : Prop :=
  (∃ digits, domain.encode s = .ok digits ∧ domain.encode t = .ok digits) ∨
    ¬ IsOk (domain.encode s) ∧ ¬ IsOk (domain.encode t)

/-- Some symbol of the sequence is not in the alphabet. -/
def Foreign (domain : FpeDomain) (s : List IndicSymbol) : Prop :=
  ∃ symbol ∈ s, symbol ∉ domain.alphabet.symbols

theorem not_isOk_encode {domain : FpeDomain} {s : List IndicSymbol} :
    ¬ IsOk (domain.encode s) ↔ domain.Foreign s := by
  rw [isOk_encode]
  push Not
  exact Iff.rfl

theorem treatedAlike_iff {domain : FpeDomain} {s t : List IndicSymbol} :
    domain.TreatedAlike s t ↔ s = t ∨ domain.Foreign s ∧ domain.Foreign t := by
  unfold TreatedAlike
  rw [not_isOk_encode, not_isOk_encode]
  constructor
  · intro h
    rcases h with ⟨digits, hs, ht⟩ | hForeign
    · exact .inl ((encode_eq_ok.mp hs).symbols_unique (encode_eq_ok.mp ht))
    · exact .inr hForeign
  · intro h
    rcases h with rfl | hForeign
    · by_cases hOk : IsOk (domain.encode s)
      · obtain ⟨digits, hs⟩ := hOk
        exact .inl ⟨digits, hs, hs⟩
      · exact .inr ⟨not_isOk_encode.mp hOk, not_isOk_encode.mp hOk⟩
    · exact .inr hForeign

/-- Sequences that look the same are the same when their identifiers are. -/
theorem eq_iff_map_id {s t : List IndicSymbol}
    (h : s.map IndicSymbol.visible = t.map IndicSymbol.visible) :
    s = t ↔ s.map IndicSymbol.id = t.map IndicSymbol.id := by
  refine ⟨congrArg _, fun hId => ?_⟩
  induction s generalizing t with
  | nil => exact (List.map_eq_nil_iff.mp h.symm).symm
  | cons a s ih =>
    cases t with
    | nil => cases h
    | cons b t =>
      rw [List.map_cons, List.map_cons, List.cons.injEq] at h hId
      rw [IndicSymbol.eq_of_visible h.1 hId.1, ih h.2 hId.2]

/-! ## What the digits look like -/

/-- Different strings of one length are decoded to sequences that look different. -/
def DecodesApart (domain : FpeDomain) (n : Nat) : Prop :=
  ∀ d e s t, d.length = n → e.length = n → d ≠ e → domain.decode d = .ok s →
    domain.decode e = .ok t → s.map IndicSymbol.visible ≠ t.map IndicSymbol.visible

theorem digits_eq_of_visible {alphabet : FpeAlphabet}
    (hNodup : (alphabet.symbols.map IndicSymbol.visible).Nodup) {s t : List IndicSymbol}
    {d e : List Nat} (hs : alphabet.Spells s d) (ht : alphabet.Spells t e)
    (h : s.map IndicSymbol.visible = t.map IndicSymbol.visible) : d = e := by
  induction hs generalizing t e with
  | nil =>
    obtain rfl := List.map_eq_nil_iff.mp h.symm
    cases ht
    rfl
  | @cons a i s d ha _ ih =>
    cases ht with
    | nil => cases h
    | @cons b j t e hb hRest =>
      rw [List.map_cons, List.map_cons, List.cons.injEq] at h
      have hi : (alphabet.symbols.map IndicSymbol.visible)[i]? = some a.visible := by
        rw [List.getElem?_map, ha, Option.map_some]
      have hj : (alphabet.symbols.map IndicSymbol.visible)[j]? = some b.visible := by
        rw [List.getElem?_map, hb, Option.map_some]
      obtain ⟨hLt, -⟩ := List.getElem?_eq_some_iff.mp hi
      have hDigit : i = j := (List.getElem?_inj hLt hNodup).mp (by rw [hi, hj, h.1])
      rw [hDigit, ih hRest h.2]

/-- Two positions of an alphabet hold symbols that look the same. -/
theorem exists_lookalikes {alphabet : FpeAlphabet}
    (hDuplicate : ¬ (alphabet.symbols.map IndicSymbol.visible).Nodup) :
    ∃ (i j : Nat) (a b : IndicSymbol), i ≠ j ∧ alphabet.symbols[i]? = some a ∧
      alphabet.symbols[j]? = some b ∧ a.visible = b.visible := by
  rw [List.nodup_iff_getElem?_ne_getElem?] at hDuplicate
  push Not at hDuplicate
  obtain ⟨i, j, hLess, hj, hSame⟩ := hDuplicate
  rw [List.length_map] at hj
  have hiGet := List.getElem?_eq_getElem (hLess.trans hj)
  have hjGet := List.getElem?_eq_getElem hj
  rw [List.getElem?_map, List.getElem?_map, hiGet, hjGet, Option.map_some, Option.map_some,
    Option.some.injEq] at hSame
  exact ⟨i, j, _, _, hLess.ne, hiGet, hjGet, hSame⟩

theorem not_decodesApart {domain : FpeDomain} {n : Nat} (hPos : 0 < n)
    (hDuplicate : ¬ (domain.alphabet.symbols.map IndicSymbol.visible).Nodup) :
    ¬ domain.DecodesApart n := by
  intro h
  obtain ⟨i, j, a, b, hNe, ha, hb, hSame⟩ := exists_lookalikes hDuplicate
  obtain ⟨hi, -⟩ := List.getElem?_eq_some_iff.mp ha
  -- both strings go on with zeros
  have hZeros : Positional.Digits domain.alphabet.radix (List.replicate (n - 1) 0) :=
    digits_replicate_zero (Nat.zero_lt_of_lt hi) (n - 1)
  obtain ⟨rest, hRest⟩ := FpeAlphabet.exists_spells_of_digits hZeros
  have hLength : (List.replicate (n - 1) 0).length + 1 = n := by
    rw [List.length_replicate]
    omega
  refine h (i :: List.replicate (n - 1) 0) (j :: List.replicate (n - 1) 0) _ _ hLength hLength ?_
    (decode_eq_ok.mpr (.cons ha hRest)) (decode_eq_ok.mpr (.cons hb hRest)) ?_
  · intro hEq
    exact hNe (List.cons.inj hEq).1
  · rw [List.map_cons, List.map_cons, hSame]

theorem decodesApart_iff {domain : FpeDomain} {n : Nat} :
    domain.DecodesApart n ↔
      n = 0 ∨ (domain.alphabet.symbols.map IndicSymbol.visible).Nodup := by
  constructor
  · intro h
    by_contra hNot
    obtain ⟨hNonzero, hDuplicate⟩ := not_or.mp hNot
    exact not_decodesApart (Nat.pos_of_ne_zero hNonzero) hDuplicate h
  · intro h d e s t hd he hNe hs ht hVisible
    rcases h with rfl | hNodup
    · exact hNe (List.length_eq_zero_iff.mp hd ▸ (List.length_eq_zero_iff.mp he).symm)
    · exact hNe (digits_eq_of_visible hNodup (decode_eq_ok.mp hs) (decode_eq_ok.mp ht) hVisible)

/-! ## Texts -/

/-- The entry that a text's symbol names carries the hash of what it stands for. -/
theorem isOk_encode_canonicalize {domain : FpeDomain} {icu : Icu} {text : Bytes}
    {language : Language} {symbols : List IndicSymbol}
    (h : Canonicalizer.canonicalize icu text language = .ok symbols) :
    IsOk (domain.encode symbols) ↔ ∀ c ∈ symbols, ∃ entry ∈ domain.alphabet.symbols,
      entry.visible = c.visible ∧
        entry.id = makeSymbolId entry.grapheme entry.script entry.language := by
  have hIds := Canonicalizer.id_eq_makeSymbolId h
  rw [isOk_encode]
  refine forall₂_congr fun c hc => ?_
  refine ⟨fun hMem => ⟨c, hMem, rfl, hIds c hc⟩, fun h => ?_⟩
  obtain ⟨entry, hEntry, hVisible, hId⟩ := h
  have hSame : entry.id = c.id := by
    have hFields := hVisible
    simp only [IndicSymbol.visible, Prod.mk.injEq] at hFields
    rw [hId, hIds c hc, hFields.1, hFields.2.1, hFields.2.2]
  rw [← IndicSymbol.eq_of_visible hVisible hSame]
  exact hEntry

end FpeDomain

/-- **Where identifiers do not matter.** Two symbols that look the same and differ in their
identifiers have two digits exactly when both are in the alphabet. Two sequences that look the
same are treated alike exactly when their identifiers are the same or both contain a foreign
symbol. The symbols of a text are encoded exactly when each is named by an entry that carries
the hash. Decoded sequences look different exactly when no two entries look the same. -/
theorem symbol_identity_iff (alphabet : FpeAlphabet) :
    (∀ a b : IndicSymbol, a.visible = b.visible → a.id ≠ b.id →
      ((∃ i j, i ≠ j ∧ alphabet.indexOf a = .ok i ∧ alphabet.indexOf b = .ok j) ↔
        a ∈ alphabet.symbols ∧ b ∈ alphabet.symbols)) ∧
    ∀ domain : FpeDomain, domain.alphabet = alphabet →
      (∀ a b : IndicSymbol, a.visible = b.visible → a.id ≠ b.id →
        (domain.TreatedAlike [a] [b] ↔ a ∉ alphabet.symbols ∧ b ∉ alphabet.symbols)) ∧
      (∀ s t : List IndicSymbol, s.map IndicSymbol.visible = t.map IndicSymbol.visible →
        (domain.TreatedAlike s t ↔
          s.map IndicSymbol.id = t.map IndicSymbol.id ∨ domain.Foreign s ∧ domain.Foreign t)) ∧
      (∀ (icu : Icu) (text : Bytes) (language : Language) (symbols : List IndicSymbol),
        Canonicalizer.canonicalize icu text language = .ok symbols →
        (IsOk (domain.encode symbols) ↔ ∀ c ∈ symbols, ∃ entry ∈ alphabet.symbols,
          entry.visible = c.visible ∧
            entry.id = makeSymbolId entry.grapheme entry.script entry.language)) ∧
      ∀ n, domain.DecodesApart n ↔
        n = 0 ∨ (alphabet.symbols.map IndicSymbol.visible).Nodup := by
  refine ⟨fun a b _ hId => FpeAlphabet.two_digits_iff (ne_of_apply_ne _ hId), fun domain hAlphabet => ?_⟩
  subst hAlphabet
  refine ⟨?_, ?_, fun _ _ _ _ h => FpeDomain.isOk_encode_canonicalize h,
    fun n => FpeDomain.decodesApart_iff⟩
  · intro a b _ hId
    have hNe : [a] ≠ [b] := fun h => hId (congrArg IndicSymbol.id (List.cons.inj h).1)
    simp only [FpeDomain.treatedAlike_iff, hNe, false_or, FpeDomain.Foreign, List.mem_singleton,
      exists_eq_left]
  · intro s t hVisible
    rw [FpeDomain.treatedAlike_iff, FpeDomain.eq_iff_map_id hVisible]

/-- The letter अ with an identifier of its own. -/
def letterA (id : UInt64) : IndicSymbol := ⟨id, [0xE0, 0xA4, 0x85], .devanagari, .hindi⟩

/-- The letter अ with its hash and the letter आ, numbered by hand: the text अ is encoded, and two
symbols for the letter इ, which the alphabet does not have, are treated alike. -/
theorem symbol_identity_iff_devanagari :
    ∃ (domain : FpeDomain) (symbols : List IndicSymbol),
      domain.alphabet.symbols =
        [letterA (makeSymbolId [0xE0, 0xA4, 0x85] .devanagari .hindi),
          ⟨2, [0xE0, 0xA4, 0x86], .devanagari, .hindi⟩] ∧
      Canonicalizer.canonicalize smallIcu (Transcoding.utf8 ['\u0905']) .hindi = .ok symbols ∧
      IsOk (domain.encode symbols) ∧
      domain.TreatedAlike [⟨3, [0xE0, 0xA4, 0x87], .devanagari, .hindi⟩]
        [⟨4, [0xE0, 0xA4, 0x87], .devanagari, .hindi⟩] ∧
      domain.DecodesApart 5 := by
  let alphabet : FpeAlphabet := ⟨.devanagari,
    [letterA (makeSymbolId [0xE0, 0xA4, 0x85] .devanagari .hindi),
      ⟨2, [0xE0, 0xA4, 0x86], .devanagari, .hindi⟩], "indic-devanagari-v1", by decide, by decide,
    by decide⟩
  obtain ⟨domain, -, hAlphabet⟩ := FpeDomain.make_isOk (show 2 ≤ alphabet.radix by decide)
  obtain ⟨hAlike, -, hText, hApart⟩ := (symbol_identity_iff alphabet).2 domain hAlphabet
  have hScript : smallIcu.getScript '\u0905'.toNat = some .devanagari := rfl
  have hCanonical := Canonicalizer.canonicalize_singleton SmallIcu.lawful _ hScript .hindi
  refine ⟨domain, _, congrArg FpeAlphabet.symbols hAlphabet, hCanonical,
    (hText _ _ _ _ hCanonical).mpr ?_, (hAlike ⟨3, _, _, _⟩ ⟨4, _, _, _⟩ rfl ?_).mpr ?_,
    (hApart 5).mpr ?_⟩
  · decide
  · decide
  · decide
  · decide

/-- The alphabet of two symbols for अ is accepted and gives them two digits, so two words that
look the same are decoded from different digits. It rejects a third symbol for अ, and the text
अ itself. -/
theorem not_symbol_identity :
    ∃ (alphabet : FpeAlphabet) (domain : FpeDomain) (symbols : List IndicSymbol),
      FpeAlphabet.make .devanagari [letterA 1, letterA 2] "indic-devanagari-v1" = .ok alphabet ∧
      FpeDomain.make alphabet = .ok domain ∧
      alphabet.indexOf (letterA 1) = .ok 0 ∧ alphabet.indexOf (letterA 2) = .ok 1 ∧
      ¬ domain.TreatedAlike [letterA 1] [letterA 2] ∧
      ¬ domain.TreatedAlike [letterA 1] [letterA 3] ∧
      ¬ domain.DecodesApart 1 ∧
      Canonicalizer.canonicalize smallIcu (Transcoding.utf8 ['\u0905']) .hindi = .ok symbols ∧
      symbols.map IndicSymbol.visible = [(letterA 1).visible] ∧ ¬ IsOk (domain.encode symbols) := by
  let alphabet : FpeAlphabet := ⟨.devanagari, [letterA 1, letterA 2], "indic-devanagari-v1",
    by decide, by decide, by decide⟩
  obtain ⟨domain, hDomain, hAlphabet⟩ := FpeDomain.make_isOk (show 2 ≤ alphabet.radix by decide)
  have hMem : letterA 1 ∈ domain.alphabet.symbols := hAlphabet ▸ List.mem_cons_self
  have hNotAlike : ∀ id, id ≠ 1 → ¬ domain.TreatedAlike [letterA 1] [letterA id] := by
    intro id hId
    rw [FpeDomain.treatedAlike_iff, not_or]
    refine ⟨fun hSame => ?_, fun hForeign => ?_⟩
    · exact hId (congrArg IndicSymbol.id (List.cons.inj hSame).1).symm
    · obtain ⟨symbol, hSymbol, hNot⟩ := hForeign.1
      exact hNot (List.mem_singleton.mp hSymbol ▸ hMem)
  have hDuplicate : ¬ (domain.alphabet.symbols.map IndicSymbol.visible).Nodup := by
    rw [hAlphabet]
    decide
  have hScript : smallIcu.getScript '\u0905'.toNat = some .devanagari := rfl
  refine ⟨alphabet, domain, _, FpeAlphabet.make_eq_ok.mpr ⟨rfl, rfl, rfl⟩, hDomain, rfl, rfl,
    hNotAlike 2 (by decide), hNotAlike 3 (by decide),
    FpeDomain.not_decodesApart Nat.one_pos hDuplicate,
    Canonicalizer.canonicalize_singleton SmallIcu.lawful _ hScript _, rfl, ?_⟩
  rw [FpeDomain.isOk_encode, hAlphabet]
  decide

end IndicCrypt.Fpe
