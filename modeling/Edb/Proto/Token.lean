import Edb.Common.Basic
import Edb.Types.Key

/-!
# The cursor-token envelope

`[version][crc32c(payload) BE][payload]`: a mangled or truncated token is rejected.
-/

namespace Edb.Proto

open Edb.Types Edb.Lib

/-- The cursor-token format version. -/
def cursorVersion : UInt8 := 1

/-- `u32::to_be_bytes`. -/
def toBeBytes32 (w : UInt32) : Bytes := (Lex.digits 256 4 w.toNat).map UInt8.ofNat

/-- Wrap a payload in the token envelope. -/
def encodeCursorToken (payload : Bytes) : Bytes :=
  [cursorVersion] ++ toBeBytes32 (crc32c payload) ++ payload

/-- Unwrap a token, checking version and checksum; none for a bad one. -/
def decodeCursorToken (token : Bytes) : Option Bytes :=
  if token.length < 5 then none
  else if token.head? ≠ some cursorVersion then none
  else if (token.take 5).drop 1 ≠ toBeBytes32 (crc32c (token.drop 5)) then none
  else some (token.drop 5)

/-- A token that was wrapped is unwrapped to its payload. -/
theorem decodeCursorToken_encodeCursorToken (payload : Bytes) :
    decodeCursorToken (encodeCursorToken payload) = some payload := by
  have hlen : (toBeBytes32 (crc32c payload)).length = 4 := by simp [toBeBytes32]
  have hhead : ([cursorVersion] ++ toBeBytes32 (crc32c payload)).length = 5 := by simp [hlen]
  have hdrop : (encodeCursorToken payload).drop 5 = payload := List.drop_left' hhead
  have htake : (encodeCursorToken payload).take 5
      = [cursorVersion] ++ toBeBytes32 (crc32c payload) := List.take_left' hhead
  have hshort : ¬ (encodeCursorToken payload).length < 5 := by
    rw [encodeCursorToken, List.length_append, hhead]
    omega
  rw [decodeCursorToken, if_neg hshort, if_neg (by simp [encodeCursorToken]), htake, hdrop]
  simp

end Edb.Proto
