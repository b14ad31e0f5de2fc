import EdgeCache.Text.Utf8

/-!
# Query parameters

A query is a list of name–value pairs in form encoding: pieces between `&`, each cut at its first
`=`, with `+` for a space and `%XX` for a byte.  Two readings of a piece are kept apart:

* `decodeBytes` — the bytes that the escapes stand for, whatever they are;
* `decodeText` — the text that those bytes stand for, ill-formed UTF-8 replaced.

`canonical` writes the pairs of a query in one fixed spelling, sorted by name with the values of one
name in their old order, so that queries which differ only in spelling and in the order of
*different* names have the same canonical form.
-/

set_option autoImplicit false

namespace EdgeCache.Query

/-! ## Reading -/

/-- `+` stands for a space. -/
def plusToSpace (s : Bytes) : Bytes := s.map fun b => if b = 0x2B then 0x20 else b

/-- Replace each well-formed `%XX` by the byte it stands for. -/
def percentDecode : Bytes → Bytes
  | 0x25 :: hi :: lo :: rest =>
    match Bytes.hexValue? hi, Bytes.hexValue? lo with
    | some h, some l => (h * 16 + l).toUInt8 :: percentDecode rest
    | _, _ => 0x25 :: percentDecode (hi :: lo :: rest)
  | b :: rest => b :: percentDecode rest
  | [] => []
  termination_by s => s.length

/-- The bytes of one side of a piece. -/
def decodeBytes (s : Bytes) : Bytes := percentDecode (plusToSpace s)

/-- The text of one side of a piece, as UTF-8. -/
def decodeText (s : Bytes) : Bytes := Utf8.repaired (decodeBytes s)

/-- The pieces of a query, each cut at its first `=`; a piece without one has an empty value. -/
def rawPairs (query : Bytes) : List (Bytes × Bytes) :=
  ((Bytes.splitOn 0x26 query).filter fun piece => !piece.isEmpty).map fun piece =>
    let (name, value) := Bytes.cut 0x3D piece
    (name, value.getD [])

/-- The parameters of a query as texts. -/
def pairs (query : Bytes) : List (Bytes × Bytes) :=
  (rawPairs query).map fun p => (decodeText p.1, decodeText p.2)

/-- The parameters of a query as bytes. -/
def bytePairs (query : Bytes) : List (Bytes × Bytes) :=
  (rawPairs query).map fun p => (decodeBytes p.1, decodeBytes p.2)

/-- The values under a name, in order. -/
def valuesOf (name : Bytes) (ps : List (Bytes × Bytes)) : List Bytes :=
  ps.filterMap fun p => if p.1 = name then some p.2 else none

/-! ## Sorting -/

/-- Put a pair before the first pair whose name is not smaller. -/
def insertByName (p : Bytes × Bytes) : List (Bytes × Bytes) → List (Bytes × Bytes)
  | [] => [p]
  | q :: qs => if Bytes.lexLe p.1 q.1 then p :: q :: qs else q :: insertByName p qs

/-- Sort by name, keeping the order of pairs that share one. -/
def sortByName (ps : List (Bytes × Bytes)) : List (Bytes × Bytes) := ps.foldr insertByName []

/-! ## Writing -/

/-- Letters, digits and `*`, `-`, `.`, `_` stand for themselves. -/
def isPlain (b : UInt8) : Bool :=
  Bytes.isAlnum b || b == 0x2A || b == 0x2D || b == 0x2E || b == 0x5F

/-- The spelling of one byte. -/
def encodeByte (b : UInt8) : Bytes :=
  if isPlain b then [b]
  else if b = 0x20 then [0x2B]
  else [0x25, Bytes.hexDigit (b.toNat / 16), Bytes.hexDigit (b.toNat % 16)]

/-- The spelling of one side of a piece. -/
def encode (s : Bytes) : Bytes := s.flatMap encodeByte

/-- Pairs written as a query. -/
def render (ps : List (Bytes × Bytes)) : Bytes :=
  Bytes.joinWith 0x26 (ps.map fun p => encode p.1 ++ 0x3D :: encode p.2)

/-- The canonical spelling of a query. -/
def canonical (query : Bytes) : Bytes := render (sortByName (pairs query))

end EdgeCache.Query
