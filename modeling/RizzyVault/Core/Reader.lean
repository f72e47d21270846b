import RizzyVault.Core.FieldKey
import RizzyVault.Lib.Codec

/-!
# The bounded reader

The canonical encoding writes fixed-width big-endian numbers and `u32`-prefixed byte strings. The
reader checks the remaining length before it reads and fails with the error of the source.

## Main definitions

* `ParseError`, `Reader`, `u8` to `u64`, `bytesMax`, `finish`: the reader.
* `putBytes`: the length-prefixed byte string it reads.

## References

* `crates/rizzy-core/src/encoding.rs`, `crates/rizzy-core/src/error.rs`.
-/

open RizzyVault.Lib

namespace RizzyVault.Core

/-- Why untrusted bytes were refused. -/
inductive ParseError
  | truncated
  | trailingBytes
  | invalidLength
  | tooLong
  | invalidValue
  deriving DecidableEq

abbrev Reader := Parser Byte ParseError

namespace Reader

/-- Reads a structure that starts at the first byte of `input`. -/
def run {α : Type} (r : Reader α) (input : Bytes) : Except ParseError (α × Bytes) :=
  match r ⟨input, input.length⟩ with
  | .ok (x, cur) => .ok (x, cur.rest)
  | .error e => .error e

/-- The next `n` bytes. -/
def take (n : ℕ) : Reader Bytes := Parser.take n .truncated

/-- A big-endian number of `w` bytes. -/
def number (w : ℕ) : Reader ℕ := do return ofBe (← take w)

def u8 : Reader ℕ := number 1

def u16 : Reader ℕ := number 2

def u32 : Reader ℕ := number 4

def u64 : Reader ℕ := number 8

/-- A length-prefixed byte string of at most `max` bytes. -/
def bytesMax (max : ℕ) : Reader Bytes := do
  let len ← u32
  Parser.require (decide (len ≤ max)) .tooLong
  take len

/-- Every remaining byte. -/
def rest : Reader Bytes := fun cur => .ok (cur.rest, { cur with rest := [] })

/-- Ends the structure. -/
def finish : Reader Unit := do
  let remaining ← Parser.remaining
  Parser.require (decide (remaining = 0)) .trailingBytes

end Reader

/-- The length-prefixed byte string. -/
def putBytes (x : Bytes) : Bytes := beBytes 4 x.length ++ x

end RizzyVault.Core
