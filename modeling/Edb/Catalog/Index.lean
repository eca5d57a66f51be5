import Edb.Catalog.Schema

/-!
# Secondary indexes

An index is an ordinary tree keyed by the order-preserving encoding of the indexed columns,
with the encoded primary key appended unless the index is unique. The value of an entry is
the encoded primary key.
-/

namespace Edb.Catalog

open Edb.Types

/-- One index entry. -/
structure Entry where
  key : Bytes
  value : Bytes
  deriving DecidableEq, Repr

/-- The entry a row contributes to one index; none for a unique index and a NULL column. -/
def entry (cols : List Value) (pkKey : Bytes) (unique : Bool) :
    Except TypeError (Option Entry) :=
  if unique && cols.any Value.isNull then .ok none
  else do
    let key ← encodeKey cols
    pure (some { key := if unique then key else key ++ pkKey, value := pkKey })

/-- The smallest byte string greater than every string with this prefix: drop trailing
`0xFF` bytes and step the last remaining one. -/
def successor (p : Bytes) : Option Bytes :=
  match p.reverse.dropWhile (· == 0xFF) with
  | [] => none
  | last :: init => some (((last + 1) :: init).reverse)

/-- The bounds covering every entry whose leading columns encode to this prefix. -/
def prefixBounds (cols : List Value) : Except TypeError (Bytes × Option Bytes) := do
  let lo ← encodeKey cols
  pure (lo, successor lo)

end Edb.Catalog
