import IndicCrypt.Text.Canonicalizer

/-!
# Nothing is lost by segmentation

The clusters of a text tile its code units and spell out its bytes, and the canonical symbols
are the clusters in the same order. This holds for every text that is read whole, and only for
those: a text of more than `Icu.readLimit` bytes is read as a bogus string, and from `2 ^ 31` bytes
on ICU is told another size (`segment_partitions_iff`). No error is thrown for either.
-/

namespace IndicCrypt.Text

open Run Transcoding

/-- From `start` to `limit` the ranges of the clusters follow each other, none of them empty. -/
inductive Tiles (limit : Nat) : Nat → List GraphemeCluster → Prop
  | done : Tiles limit limit []
  | cons {start : Nat} {cluster : GraphemeCluster} {rest : List GraphemeCluster}
      (hOffset : cluster.utf160ffset = start) (hPos : 0 < cluster.utf16Length)
      (hRest : Tiles limit (start + cluster.utf16Length) rest) :
      Tiles limit start (cluster :: rest)

namespace GraphemeEngine

theorem tiles_clustersAt {pieces : List (List Char)} (hPieces : ∀ piece ∈ pieces, piece ≠ [])
    (start : Nat) :
    Tiles (start + (utf16 pieces.flatten).length) start (clustersAt start pieces) := by
  induction pieces generalizing start with
  | nil => exact .done
  | cons piece pieces ih =>
    obtain ⟨hPiece, hRest⟩ := List.forall_mem_cons.mp hPieces
    have hTail := ih hRest (start + (utf16 piece).length)
    rw [Nat.add_assoc, ← List.length_append, ← utf16_append] at hTail
    exact .cons rfl (length_utf16_pos hPiece) hTail

end GraphemeEngine

/-- Whatever is read is cut into clusters that tile it, one symbol for each. -/
theorem segment_tiles {icu : Icu} (hIcu : icu.Lawful) {s : Bytes} {cs : List Char}
    (hText : (icu.unicodeString s).units = utf16 cs) (hSize : (utf8 cs).length < 2 ^ 31)
    (language : Language) :
    ∃ clusters symbols, GraphemeEngine.segment icu s = .ok clusters ∧
      Tiles (utf16 cs).length 0 clusters ∧
      (clusters.map GraphemeCluster.utf8).flatten = utf8 cs ∧
      Canonicalizer.canonicalize icu s language = .ok symbols ∧
      symbols.map IndicSymbol.grapheme = clusters.map GraphemeCluster.utf8 := by
  rcases GraphemeEngine.segment_eq hIcu hText hSize with ⟨pieces, rfl, hPieces, hSegment⟩
  rcases Canonicalizer.canonicalize_of_segment hIcu hSegment language with
    ⟨symbols, hSymbols, hGraphemes⟩
  have hTiles := GraphemeEngine.tiles_clustersAt hPieces 0
  rw [Nat.zero_add] at hTiles
  refine ⟨_, symbols, hSegment, hTiles, ?_, hSymbols, hGraphemes⟩
  rw [GraphemeEngine.map_utf8_clustersAt, ← utf8_flatten]

/-- The clusters of a text tile it and spell it out, and the symbols are the clusters. -/
def Partitions (icu : Icu) (cs : List Char) (language : Language) : Prop :=
  ∃ clusters symbols, GraphemeEngine.segment icu (utf8 cs) = .ok clusters ∧
    Tiles (utf16 cs).length 0 clusters ∧
    (clusters.map GraphemeCluster.utf8).flatten = utf8 cs ∧
    Canonicalizer.canonicalize icu (utf8 cs) language = .ok symbols ∧
    symbols.map IndicSymbol.grapheme = clusters.map GraphemeCluster.utf8 ∧
    (symbols.map IndicSymbol.grapheme).flatten = utf8 cs

theorem partitions_iff_read {icu : Icu} (hIcu : icu.Lawful) {cs : List Char} {language : Language} :
    Partitions icu cs language ↔ (icu.unicodeString (utf8 cs)).units = utf16 cs := by
  rcases hIcu.exists_unicodeString (utf8 cs) with ⟨ds, hText, -⟩
  rcases segment_tiles hIcu hText (hIcu.length_lt_of_wellFormed ⟨cs, rfl⟩ hText) language with
    ⟨clusters, symbols, hSegment, hTiles, hFlatten, hSymbols, hGraphemes⟩
  rw [hText, utf16_inj]
  refine ⟨fun h => ?_, fun h => ?_⟩
  · rcases h with ⟨clusters', _, hSegment', -, hFlatten', -⟩
    obtain rfl := Except.ok.inj (hSegment.symm.trans hSegment')
    exact utf8_inj.mp (hFlatten.symm.trans hFlatten')
  · subst h
    exact ⟨clusters, symbols, hSegment, hTiles, hFlatten, hSymbols, hGraphemes,
      hGraphemes ▸ hFlatten⟩

/-- **When no text is lost or duplicated.** A well-formed text is partitioned exactly when it
has at most as many bytes as ICU reads. -/
theorem segment_partitions_iff {icu : Icu} (hIcu : icu.Lawful) (hTold : icu.ReadsTold)
    (cs : List Char) (language : Language) :
    Partitions icu cs language ↔ (utf8 cs).length ≤ Icu.readLimit := by
  rw [partitions_iff_read hIcu, hIcu.units_eq_iff hTold]

/-- A letter with a nukta, and a scalar value beyond the basic plane. -/
theorem segment_partitions_iff_letters :
    Partitions smallIcu ['\u0915', '\u093c', '😀'] .hindi :=
  (segment_partitions_iff SmallIcu.lawful SmallIcu.readsTold _ .hindi).mpr (by decide)

/-- Of `2 ^ 31` letters `a` nothing is read: there are no clusters and no symbols. -/
theorem not_segment_partitions :
    (utf8 (List.replicate 2147483648 'a')).length = 2147483648 ∧
    GraphemeEngine.segment smallIcu (utf8 (List.replicate 2147483648 'a')) = .ok [] ∧
    Canonicalizer.canonicalize smallIcu (utf8 (List.replicate 2147483648 'a')) .hindi = .ok [] ∧
    ¬ Partitions smallIcu (List.replicate 2147483648 'a') .hindi := by
  have hOne : 'a'.utf8Size = 1 := rfl
  have hLength := length_utf8_replicate 2147483648 'a'
  rw [hOne, Nat.mul_one] at hLength
  generalize List.replicate 2147483648 'a' = cs at hLength ⊢
  have hNegative : toInt (utf8 cs).length < 0 := by
    rw [hLength]
    decide
  have hNothing : (smallIcu.unicodeString (utf8 cs)).units = [] :=
    congrArg UnicodeString.units (SmallIcu.fromUTF8_of_neg _ hNegative)
  have hLimit : Icu.readLimit = 2147483636 := rfl
  refine ⟨hLength, GraphemeEngine.segment_nil SmallIcu.lawful hNothing,
    Canonicalizer.canonicalize_nil SmallIcu.lawful hNothing .hindi, ?_⟩
  rw [partitions_iff_read SmallIcu.lawful, SmallIcu.lawful.units_eq_iff SmallIcu.readsTold]
  omega

end IndicCrypt.Text
