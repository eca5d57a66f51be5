import Edb.Lib.Result
import Edb.Types.Key

/-!
# The json well-formedness gate

A `json` cell is stored as the MessagePack bytes of its document. `validateJson` accepts a
byte string that is exactly one well-formed value: nothing truncated or left over, no
reserved byte and no extension type, nesting within `maxJsonDepth`.
-/

namespace Edb.Types

open Edb.Lib

namespace Msgpack

/-- The deepest nesting allowed in a `json` document. -/
def maxJsonDepth : Nat := 64

def bad {α : Type} (err : MsgpackError) : Except TypeError α := .error (.msgpack err)

/-- Split `n` bytes off the front. -/
def take (n : Nat) (rest : Bytes) : Except TypeError (Bytes × Bytes) :=
  if rest.length < n then bad .truncated else .ok (rest.take n, rest.drop n)

/-- Read one byte. -/
def byte : Bytes → Except TypeError (UInt8 × Bytes)
  | [] => bad .truncated
  | b :: rest => .ok (b, rest)

/-- Read a big-endian word of `n` bytes. -/
def takeBe (n : Nat) (rest : Bytes) : Except TypeError (Nat × Bytes) := do
  let (bytes, rest) ← take n rest
  pure (Lex.ofDigits 256 (bytes.map UInt8.toNat), rest)

/-- What follows a head byte: how many payload bytes and how many items. -/
structure Extent where
  bytes : Nat
  items : Nat
  deriving DecidableEq, Repr

/-- The extent of a value after its head, with the length or count word read. -/
def extent (head : UInt8) (rest : Bytes) : Except TypeError (Extent × Bytes) :=
  let h := head.toNat
  if h ≤ 0x7F ∨ 0xE0 ≤ h ∨ h = 0xC0 ∨ h = 0xC2 ∨ h = 0xC3 then .ok (⟨0, 0⟩, rest)
  else if h = 0xCC ∨ h = 0xD0 then .ok (⟨1, 0⟩, rest)
  else if h = 0xCD ∨ h = 0xD1 then .ok (⟨2, 0⟩, rest)
  else if h = 0xCE ∨ h = 0xD2 ∨ h = 0xCA then .ok (⟨4, 0⟩, rest)
  else if h = 0xCF ∨ h = 0xD3 ∨ h = 0xCB then .ok (⟨8, 0⟩, rest)
  else if 0xA0 ≤ h ∧ h ≤ 0xBF then .ok (⟨h % 0x20, 0⟩, rest)
  else if h = 0xD9 ∨ h = 0xC4 then do
    let (n, rest) ← takeBe 1 rest
    pure (⟨n, 0⟩, rest)
  else if h = 0xDA ∨ h = 0xC5 then do
    let (n, rest) ← takeBe 2 rest
    pure (⟨n, 0⟩, rest)
  else if h = 0xDB ∨ h = 0xC6 then do
    let (n, rest) ← takeBe 4 rest
    pure (⟨n, 0⟩, rest)
  else if 0x80 ≤ h ∧ h ≤ 0x8F then .ok (⟨0, h % 0x10 * 2⟩, rest)
  else if 0x90 ≤ h ∧ h ≤ 0x9F then .ok (⟨0, h % 0x10⟩, rest)
  else if h = 0xDC then do
    let (n, rest) ← takeBe 2 rest
    pure (⟨0, n⟩, rest)
  else if h = 0xDD then do
    let (n, rest) ← takeBe 4 rest
    pure (⟨0, n⟩, rest)
  else if h = 0xDE then do
    let (n, rest) ← takeBe 2 rest
    pure (⟨0, n * 2⟩, rest)
  else if h = 0xDF then do
    let (n, rest) ← takeBe 4 rest
    pure (⟨0, n * 2⟩, rest)
  else if (0xC7 ≤ h ∧ h ≤ 0xC9) ∨ (0xD4 ≤ h ∧ h ≤ 0xD8) then bad .extNotAllowed
  else bad .reserved

/-- Run a reader a number of times. -/
def repeatReader (step : Bytes → Except TypeError Bytes) : Nat → Bytes → Except TypeError Bytes
  | 0, rest => .ok rest
  | n + 1, rest => do
    let rest ← step rest
    repeatReader step n rest

/-- Walk over one value of any shape. The first argument is how many levels, this one
included, the depth limit still allows. -/
def skipValue : Nat → Bytes → Except TypeError Bytes
  | 0, _ => bad (.depthExceeded maxJsonDepth)
  | levels + 1, rest => do
    let (head, rest) ← byte rest
    let (ext, rest) ← extent head rest
    let (_, rest) ← take ext.bytes rest
    repeatReader (skipValue levels) ext.items rest

end Msgpack

open Msgpack in
/-- Exactly one well-formed MessagePack document. -/
def validateJson (bytes : Bytes) : Except TypeError Unit := do
  let rest ← skipValue (maxJsonDepth + 1) bytes
  if rest = [] then pure () else bad (.trailingBytes rest.length)

end Edb.Types
