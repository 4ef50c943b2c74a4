import Ftwdb.Lib.Bytes

/-!
# Logs of frames

A log is the concatenation of its encoded frames.
-/

namespace FramedLog

open ByteCodec

variable {φ : Type} (encode : φ → Bytes)

/-- The bytes of a list of frames. -/
def bytes (fs : List φ) : Bytes := fs.flatMap encode

@[simp] theorem bytes_append (fs gs : List φ) :
    bytes encode (fs ++ gs) = bytes encode fs ++ bytes encode gs := List.flatMap_append

end FramedLog
