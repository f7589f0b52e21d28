import JointCircuit.Digest.Blake3
import JointCircuit.Setup.Bytes
import JointCircuit.Text.Hex

/-!
# Fingerprints

The fingerprint of a setup is the BLAKE3 hash of its bytes.  The parties exchange
fingerprints before anything else, so that a computation only starts among those
that agree on the circuit and on who provides and sees what.
-/

namespace JointCircuit

/-- The number of bytes of a fingerprint. -/
def fingerprintSize : Nat := 32

/-- The fingerprint of a setup. -/
structure Fingerprint where
  bytes : List UInt8
  size_eq : bytes.length = fingerprintSize
deriving DecidableEq

namespace Fingerprint

/-- Decide whether bytes received from another party are the fingerprint. -/
def accepts (f : Fingerprint) (bytes : List UInt8) : Bool := bytes == f.bytes

/-- The bytes of a fingerprint as hexadecimal digits. -/
def hex (f : Fingerprint) : String := Text.hex f.bytes

/-- The text that shows a fingerprint. -/
def describe (f : Fingerprint) : String := s!"SetupHash({f.hex})"

end Fingerprint

/-- The fingerprint of a setup. -/
def Setup.fingerprint (s : Setup) : Fingerprint := ⟨Blake3.hash s.bytes, Blake3.length_hash _⟩

end JointCircuit
