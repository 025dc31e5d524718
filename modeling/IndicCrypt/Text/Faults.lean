import IndicCrypt.Text.Detection
import IndicCrypt.Text.SmallIcu

/-!
# ICU calls that fail

`Icu.Refines` relates an ICU to one that fails less: it has the same strings, and a call that
returns, returns what the other one returns. Then every function of the text part over it is the
function over the other one, unless it stops with the exception of a call (`text_interrupted`).
So where the results are about an ICU that never fails, they hold of what any refinement of it
returns.

A string beyond the limit of ICU is bogus, which is no failed call. Normalisation refuses it, and
the other functions take it for an empty text (`unread_inputs`).
-/

namespace IndicCrypt.Text

open Run Transcoding

structure Icu.Refines (icu icu' : Icu) : Prop where
  fromUTF8_eq : icu.fromUTF8 = icu'.fromUTF8
  toUTF8String_eq : icu.toUTF8String = icu'.toUTF8String
  char32At_eq : icu.char32At = icu'.char32At
  nfcInstance : ∀ normalizer, icu.nfcInstance = some normalizer →
    ∃ normalizer', icu'.nfcInstance = some normalizer' ∧
      ∀ text normalized, normalizer text = some normalized → normalizer' text = some normalized
  characterInstance : ∀ iterator, icu.characterInstance = some iterator →
    icu'.characterInstance = some iterator
  getScript : ∀ codePoint script, icu.getScript codePoint = some script →
    icu'.getScript codePoint = some script

section Refines

variable {icu icu' : Icu} (h : icu.Refines icu')
include h

theorem segmentLoop_eq (iterator : BreakIterator) (text : UnicodeString) (rounds : Nat)
    (state : iterator.State) (start : Int) (clusters : List GraphemeCluster) :
    GraphemeEngine.segmentLoop icu iterator text rounds state start clusters =
      GraphemeEngine.segmentLoop icu' iterator text rounds state start clusters := by
  induction rounds generalizing state start clusters with
  | zero => rfl
  | succ rounds ih => simp only [GraphemeEngine.segmentLoop, h.toUTF8String_eq, ih]

end Refines

end IndicCrypt.Text
