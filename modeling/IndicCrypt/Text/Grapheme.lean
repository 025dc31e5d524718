import IndicCrypt.Library.Run
import IndicCrypt.Text.Icu

/-!
# Segmentation

`GraphemeEngine::segment` walks over the boundaries that the character iterator yields and
cuts the text at each. `segment_eq`: over a lawful ICU the clusters are the pieces of a
partition of the scalar values of the text, in order and none of them empty, each with its
UTF-16 offset and length.
-/

namespace IndicCrypt.Text

open Run Transcoding

structure GraphemeCluster where
  utf160ffset : Nat
  utf16Length : Nat
  utf8 : Bytes
deriving DecidableEq

namespace GraphemeEngine

/-- The loop of `segment`. An iterator has at most one boundary for each code unit besides the
first, so a walk of more rounds than `segment` allows does not end. -/
def segmentLoop (icu : Icu) (iterator : BreakIterator) (text : UnicodeString) :
    Nat → iterator.State → Int → List GraphemeCluster → Result (List GraphemeCluster)
  | 0, _, _, _ => .error .nontermination
  | rounds + 1, state, start, clusters =>
    if start = done then
      .ok clusters
    else
      let (state, limit) := iterator.next state
      if limit = done then
        .ok clusters
      else do
        let cluster := text.tempSubStringBetween start limit
        let clusterUtf8 ← icu.toUTF8String cluster
        segmentLoop icu iterator text rounds state limit
          (clusters ++ [⟨toSize start, toSize (limit - start), clusterUtf8⟩])

def segment (icu : Icu) (utf8 : Bytes) : Result (List GraphemeCluster) :=
  let text := icu.unicodeString utf8
  match icu.characterInstance with
  | none => .error (.runtimeError "Failed to initialize ICU grapheme iterator")
  | some iterator =>
    let state := iterator.setText text
    let (state, start) := iterator.first state
    segmentLoop icu iterator text (text.length + 1) state start []

/-! ## What it returns -/

/-- The clusters of consecutive pieces, the first at an offset. -/
def clustersAt (offset : Nat) : List (List Char) → List GraphemeCluster
  | [] => []
  | piece :: pieces =>
    ⟨offset, (utf16 piece).length, Transcoding.utf8 piece⟩ ::
      clustersAt (offset + (utf16 piece).length) pieces

theorem map_utf8_clustersAt (offset : Nat) (pieces : List (List Char)) :
    (clustersAt offset pieces).map GraphemeCluster.utf8 = pieces.map Transcoding.utf8 := by
  induction pieces generalizing offset with
  | nil => rfl
  | cons piece pieces ih => rw [clustersAt, List.map_cons, ih, List.map_cons]

/-- The code units between the end of `before` and the end of `piece`. -/
theorem units_between {text : UnicodeString} {before piece after : List Char}
    (hText : text.units = utf16 (before ++ (piece ++ after))) :
    (text.tempSubStringBetween (utf16 before).length
      ((utf16 before).length + (utf16 piece).length : Nat)).units = utf16 piece := by
  have hLength : (((utf16 before).length + (utf16 piece).length : Nat) -
      ((utf16 before).length : Int)).toNat = (utf16 piece).length := by
    omega
  rw [UnicodeString.units_tempSubStringBetween, hText, hLength, Int.toNat_natCast, utf16_append,
    utf16_append, List.drop_left, List.take_left]

section Loop

variable {icu : Icu} {iterator : BreakIterator}

/-- The boundaries ascend within the text. -/
theorem length_le_of_iterates {units : List UInt16} {state : iterator.State} {start : Nat}
    {limits : List Nat} (h : Iterates iterator units state start limits) :
    start + limits.length ≤ units.length := by
  induction h with
  | done hDone hEnd => exact Nat.le_of_eq hEnd
  | next hNext hStart hLimit hWhole hRest ih =>
    rw [List.length_cons]
    omega

theorem natCast_ne_done (n : Nat) : (n : Int) ≠ done := by
  unfold done
  omega

/-- One round at a boundary cuts off the piece up to the next one. -/
theorem segmentLoop_succ (hIcu : icu.Lawful) {text : UnicodeString}
    {before piece after : List Char} (hText : text.units = utf16 (before ++ (piece ++ after)))
    {state : iterator.State} (hNext : (iterator.next state).2 =
      ((utf16 before).length + (utf16 piece).length : Nat))
    (hSize : (utf8 (before ++ (piece ++ after))).length < 2 ^ 31) (rounds : Nat)
    (clusters : List GraphemeCluster) :
    segmentLoop icu iterator text (rounds + 1) state (utf16 before).length clusters =
      segmentLoop icu iterator text rounds (iterator.next state).1
        ((utf16 before).length + (utf16 piece).length : Nat)
        (clusters ++ clustersAt (utf16 before).length [piece]) := by
  rw [utf8_append, utf8_append, List.length_append, List.length_append] at hSize
  have hBefore := length_utf16_le before
  have hPiece := length_utf16_le piece
  have hWritten := hIcu.toUTF8String_eq _ piece (units_between hText) (by omega)
  have hLength : toSize (((utf16 before).length + (utf16 piece).length : Nat) -
      ((utf16 before).length : Int)) = (utf16 piece).length := by
    unfold toSize
    omega
  have hOffset : toSize ((utf16 before).length : Int) = (utf16 before).length :=
    toSize_natCast (by omega)
  rw [segmentLoop, if_neg (natCast_ne_done _)]
  simp only [hNext, if_neg (natCast_ne_done _), hWritten, ok_bind, hLength, hOffset, clustersAt]

/-- The next boundary ends a piece of the scalar values that are left. -/
theorem exists_piece {before after : List Char} {limit : Nat} (hBefore : (utf16 before).length < limit)
    (hLimit : limit ≤ (utf16 (before ++ after)).length)
    (hWhole : ¬ SplitsPair (utf16 (before ++ after)) limit) :
    ∃ piece rest, after = piece ++ rest ∧ piece ≠ [] ∧
      limit = (utf16 before).length + (utf16 piece).length := by
  rw [utf16_append] at hLimit hWhole
  rw [List.length_append] at hLimit
  have hInside : ¬ SplitsPair (utf16 after) (limit - (utf16 before).length) := by
    intro h
    have hPosition := h.append_left (utf16 before)
    rw [Nat.add_sub_of_le (Nat.le_of_lt hBefore)] at hPosition
    exact hWhole hPosition
  rcases exists_utf16_eq_take after (Nat.sub_le_iff_le_add'.mpr hLimit) hInside with
    ⟨piece, rest, hAfter, hPiece⟩
  refine ⟨piece, rest, hAfter, ?_, by omega⟩
  intro hNil
  rw [hNil, utf16_nil, List.length_nil] at hPiece
  omega

/-- Nothing is left at the last boundary. -/
theorem eq_nil_of_end {before after : List Char}
    (h : (utf16 before).length = (utf16 (before ++ after)).length) : after = [] := by
  rw [utf16_append, List.length_append] at h
  by_contra hNotEmpty
  have hPos := length_utf16_pos hNotEmpty
  omega

/-- From a boundary on, the loop cuts the rest of the text into pieces. -/
theorem segmentLoop_eq (hIcu : icu.Lawful) {text : UnicodeString} {state : iterator.State}
    {start : Nat} {limits : List Nat} (h : Iterates iterator text.units state start limits)
    {before after : List Char} (hText : text.units = utf16 (before ++ after))
    (hStart : start = (utf16 before).length) (hSize : (utf8 (before ++ after)).length < 2 ^ 31) :
    ∃ pieces : List (List Char), pieces.flatten = after ∧ (∀ piece ∈ pieces, piece ≠ []) ∧
      ∀ rounds clusters, limits.length < rounds →
        segmentLoop icu iterator text rounds state start clusters =
          .ok (clusters ++ clustersAt start pieces) := by
  induction h generalizing before after with
  | @done state start hDone hEnd =>
    have hAfter : after = [] := eq_nil_of_end (by rw [← hStart, hEnd, hText])
    refine ⟨[], hAfter.symm, fun piece hPiece => absurd hPiece List.not_mem_nil, ?_⟩
    intro rounds clusters hRounds
    cases rounds with
    | zero => exact absurd hRounds (Nat.not_lt_zero _)
    | succ rounds =>
      rw [segmentLoop, if_neg (natCast_ne_done _)]
      simp only [hDone, if_pos, clustersAt, List.append_nil]
  | @next state start limit limits hNext hBefore hLimit hWhole hRest ih =>
    subst hStart
    rw [hText] at hLimit hWhole
    rcases exists_piece hBefore hLimit hWhole with ⟨piece, rest, rfl, hNotEmpty, rfl⟩
    have hAssoc : before ++ (piece ++ rest) = before ++ piece ++ rest :=
      (List.append_assoc _ _ _).symm
    have hSum : (utf16 before).length + (utf16 piece).length = (utf16 (before ++ piece)).length := by
      rw [utf16_append, List.length_append]
    rcases ih (hAssoc ▸ hText) hSum (hAssoc ▸ hSize) with ⟨pieces, rfl, hPieces, hLoop⟩
    refine ⟨piece :: pieces, rfl, List.forall_mem_cons.mpr ⟨hNotEmpty, hPieces⟩, ?_⟩
    intro rounds clusters hRounds
    cases rounds with
    | zero => exact absurd hRounds (Nat.not_lt_zero _)
    | succ rounds =>
      rw [segmentLoop_succ hIcu hText hNext hSize, hLoop _ _ (Nat.lt_of_succ_lt_succ hRounds),
        List.append_assoc]
      rfl

end Loop

/-- **Segmentation**: the clusters partition the text that is read, if it can be written. -/
theorem segment_eq {icu : Icu} (hIcu : icu.Lawful) {s : Bytes} {cs : List Char}
    (hText : (icu.unicodeString s).units = utf16 cs) (hSize : (utf8 cs).length < 2 ^ 31) :
    ∃ pieces : List (List Char), pieces.flatten = cs ∧ (∀ piece ∈ pieces, piece ≠ []) ∧
      segment icu s = .ok (clustersAt 0 pieces) := by
  rcases hIcu.exists_characterInstance with ⟨iterator, hInstance, hIterator⟩
  rcases hIterator.iterates _ cs hText with ⟨limits, hIterates⟩
  rw [← hText] at hIterates
  have hFromStart : (icu.unicodeString s).units = utf16 ([] ++ cs) := hText
  rcases segmentLoop_eq hIcu hIterates hFromStart rfl hSize with
    ⟨pieces, hFlatten, hPieces, hLoop⟩
  refine ⟨pieces, hFlatten, hPieces, ?_⟩
  have hRounds := length_le_of_iterates hIterates
  unfold segment
  rw [hInstance]
  simp only [hIterator.first_eq]
  exact hLoop _ [] (by rw [UnicodeString.length]; omega)

/-- Where nothing is read there are no clusters. -/
theorem segment_nil {icu : Icu} (hIcu : icu.Lawful) {s : Bytes}
    (hText : (icu.unicodeString s).units = []) : segment icu s = .ok [] := by
  have hNothing : (icu.unicodeString s).units = utf16 [] := hText
  rcases segment_eq hIcu hNothing (Nat.two_pow_pos 31) with
    ⟨pieces, hFlatten, hPieces, hSegment⟩
  cases pieces with
  | nil => exact hSegment
  | cons piece pieces =>
    have hNil := List.flatten_eq_nil_iff.mp hFlatten piece List.mem_cons_self
    exact absurd hNil (hPieces piece List.mem_cons_self)

end GraphemeEngine

end IndicCrypt.Text
