import RizzyVault.Lib.Words

/-!
# Byte strings and field keys

A field key is a fixed key `name.name…` or a list element key `list/element` or
`list/element/attribute`. Names are at most 32 bytes of `a-z`, `0-9` and `_` starting with a
letter; an element is a non-empty, even number of lowercase hex digits, at most 128 of them; the
whole key is 1 to 160 bytes.

## Main definitions

* `Byte`, `Bytes`: byte strings, ordered bytewise with a proper prefix first.
* `KeyError`, `KeyLayout`, `parseKey`: the key grammar, with the error each failure names.

## References

* `crates/rizzy-core/src/item/key.rs`.
-/

namespace RizzyVault.Core

abbrev Byte := Fin 256

/-- Byte strings, in the lexicographic order. -/
abbrev Bytes := List Byte

/-- Maps keyed by byte strings compare them in that order. -/
instance (priority := high) : Ord Bytes := (inferInstance : LinearOrder Bytes).toOrd

instance transCmp_bytes : Std.TransCmp (compare : Bytes → Bytes → Ordering) := inferInstance

instance lawfulBEq_byte : LawfulBEq Byte := inferInstance

instance lawfulBEq_bytes : LawfulBEq Bytes := inferInstance

/-- The byte of an ASCII character. -/
def ascii (c : Char) : Byte := Fin.ofNat 256 c.toNat

/-- The bytes of an ASCII text. -/
def asciiBytes (cs : List Char) : Bytes := cs.map ascii

def maxKeyLen : ℕ := 160

def maxNameLen : ℕ := 32

def maxElementLen : ℕ := 64

/-- Why a byte string is not a field key. -/
inductive KeyError
  | length
  | name
  | element
  | shape
  deriving DecidableEq

/-- Where the parts of a key lie. -/
inductive KeyLayout
  | fixed
  | element (listEnd elementEnd : ℕ)
  deriving DecidableEq

def isAsciiLowercase (b : Byte) : Bool := ascii 'a' ≤ b ∧ b ≤ ascii 'z'

def isAsciiDigit (b : Byte) : Bool := ascii '0' ≤ b ∧ b ≤ ascii '9'

def isLowerHex (b : Byte) : Bool := isAsciiDigit b || (ascii 'a' ≤ b ∧ b ≤ ascii 'f' : Bool)

def isName : Bytes → Bool
  | [] => false
  | first :: rest =>
    (first :: rest).length ≤ maxNameLen && isAsciiLowercase first &&
      rest.all fun b => isAsciiLowercase b || isAsciiDigit b || b == ascii '_'

def isElement (part : Bytes) : Bool :=
  !(part.isEmpty || 2 * maxElementLen < part.length || part.length % 2 != 0) &&
    part.all isLowerHex

/-- The layout of a key whose first `/` is at `listEnd`. -/
def parseElement (bytes : Bytes) (listEnd : ℕ) : Except KeyError KeyLayout :=
  let list := bytes.take listEnd
  let after := bytes.drop (listEnd + 1)
  let (part, attr) : Bytes × Option Bytes :=
    match after.findIdx? (· == ascii '/') with
    | some stop => (after.take stop, some (after.drop (stop + 1)))
    | none => (after, none)
  if !isName list then .error .name
  else if !isElement part then .error .element
  else
    let layout := .element listEnd (listEnd + 1 + part.length)
    match attr with
    | some attr =>
      -- A third `/` is one part too many, reported as the shape rather than the name.
      if attr.contains (ascii '/') then .error .shape
      else if !isName attr then .error .name
      else .ok layout
    | none => .ok layout

/-- The layout of a key without `/`: at least two names joined by `.`. -/
def parseFixed (bytes : Bytes) : Except KeyError KeyLayout :=
  let parts := bytes.splitOn (ascii '.')
  if parts.any fun part => !isName part then .error .name
  else if parts.length < 2 then .error .shape
  else .ok .fixed

/-- Parses a field key (`FieldKeyRef::parse`). -/
def parseKey (bytes : Bytes) : Except KeyError KeyLayout :=
  if bytes.isEmpty || maxKeyLen < bytes.length then .error .length
  else
    match bytes.findIdx? (· == ascii '/') with
    | some listEnd => parseElement bytes listEnd
    | none => parseFixed bytes

example : parseKey (asciiBytes ['i', 't', 'e', 'm', '.', 'n', 'a', 'm', 'e']) = .ok .fixed := by
  decide +kernel

end RizzyVault.Core
