import IndicCrypt.Crypto.AesGcm
import IndicCrypt.Fpe.Ff1
import IndicCrypt.Fpe.Separation
import IndicCrypt.Fpe.Conformance
import IndicCrypt.Fpe.Uniformity
import IndicCrypt.Text.Canonicalizer
import IndicCrypt.Library.MinimalStep
import IndicCrypt.Fpe.ModularStep
import IndicCrypt.Fpe.Conversion
import IndicCrypt.Fpe.Identity
import IndicCrypt.Text.Tiling
import IndicCrypt.Text.Views
import IndicCrypt.Crypto.Kdf
import IndicCrypt.Crypto.KeyLifecycle
import IndicCrypt.Crypto.Authentication
import IndicCrypt.Text.Stability
import IndicCrypt.Fpe.Pipeline
import IndicCrypt.Fpe.Reach
import IndicCrypt.Fpe.Faults
import IndicCrypt.Fpe.KeyBinding
import IndicCrypt.Text.Faults
import IndicCrypt.Fpe.TextCipher
