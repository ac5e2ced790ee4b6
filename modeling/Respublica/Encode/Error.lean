import Respublica.Foundation.Bytes

/-!
# Results of decoding

A decoder succeeds, or it returns an `encode_errc`. Besides, C++ leaves it a few ways to do
neither, which are faults here. Texts are strings of `char`, that is, of bytes.
-/

namespace Respublica.Encode

open Foundation

/-- `encode_errc`. -/
inductive EncodeErrc where
  | ok
  | invalidCharacter
  | invalidLength
deriving DecidableEq

/-- An exception leaves a `noexcept` function, an assertion does not hold, or memory is examined
that does not belong to the text. -/
inductive Fault where
  | terminate
  | assertion
  | outside
deriving DecidableEq

/-- `result< T >` of the decoders. -/
abbrev Result (Value : Type) := Except EncodeErrc Value

/-- A decoder returns a result unless there is a fault. -/
abbrev Decoding (Value : Type) := Except Fault (Result Value)

/-- The `char` of a literal. -/
abbrev char (literal : Char) : UInt8 := literal.toUInt8

/-- A `std::string` literal. -/
abbrev text (literals : List Char) : Bytes := literals.map char

end Respublica.Encode
