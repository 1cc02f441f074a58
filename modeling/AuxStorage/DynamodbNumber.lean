import AuxStorage.Text

/-!
# DynamoDB Numbers: Parser, Comparison, and Ordered Key

This module embeds the exact-number code shared by the storage backends: the streaming
mantissa reader (`MantissaDigits`), the number grammar (`parseDecimalBytes`,
`parseBytes`), the precision-preserving comparison (`compareDynamodbNumbers`) and the
fixed-width sortable key (`encodeNumberBytesInto`, `encodeDynamodbNumberKey`).

The parser consumes its input byte by byte through a peekable iterator; here the iterator
is the list of bytes that remain. Padding is never retained: leading zeroes are skipped,
zeroes after a significant digit are counted and only written once a later nonzero digit
makes them significant.
-/

namespace AuxStorage

/-- The ways a number text is refused. -/
inductive DynamodbNumberError
  | empty
  | missingDigit
  | invalidExponent
  | exponentOutOfRange
  | invalid
  | precision
  | adjustedExponentOutOfRange
  | underflow
  | overflow
  deriving DecidableEq, Repr

/-- The text of a refusal. -/
def DynamodbNumberError.message : DynamodbNumberError → String
  | .empty => "empty number"
  | .missingDigit => "number must contain a digit"
  | .invalidExponent => "invalid exponent"
  | .exponentOutOfRange => "exponent is out of range"
  | .invalid => "invalid number"
  | .precision => "number has more than 38 significant digits"
  | .adjustedExponentOutOfRange => "number exponent is out of range"
  | .underflow => "number is smaller than DynamoDB's supported range"
  | .overflow => "number is larger than DynamoDB's supported range"

/-- `DYNAMODB_NUMBER_KEY_DIGITS`. -/
def numberKeyDigits : ℕ := 38

/-- `DYNAMODB_NUMBER_KEY_EXPONENT_BIAS`. -/
def numberKeyExponentBias : ℤ := 1000

/-- `DYNAMODB_NUMBER_KEY_BYTES`: the sign tag, two exponent bytes and the digits. -/
def numberKeyBytes : ℕ := 1 + (2 + numberKeyDigits)

/-- `DYNAMODB_NUMBER_KEY_MARKER`. -/
def numberKeyMarker : Char := '~'

/-- `u8::is_ascii_digit`. -/
def isAsciiDigit (byte : UInt8) : Bool :=
  48 ≤ byte.toNat && byte.toNat ≤ 57

/-- A parsed number: the significant ASCII digits, without leading or trailing zeroes,
and the exponent of the first of them. -/
structure ParsedDynamodbNumber where
  negative : Bool
  adjustedExponent : ℤ
  digits : List UInt8
  isZero : Bool
  deriving DecidableEq, Repr

/-! ### The mantissa reader -/

/-- The significant digits read so far. `trailingZeroes` counts the zeroes after the last
significant digit, which are not in `digits`. -/
structure MantissaDigits where
  digits : List UInt8
  significant : ℕ
  trailingZeroes : ℤ
  deriving DecidableEq, Repr

/-- `MantissaDigits::default`. -/
def MantissaDigits.empty : MantissaDigits :=
  { digits := [], significant := 0, trailingZeroes := 0 }

/-- `usize::try_from` of a signed count. -/
def usizeTryFrom (z : ℤ) : Option ℕ :=
  if 0 ≤ z then some z.toNat else none

/-- `include_digit`: a zero is deferred, any other digit makes the deferred zeroes
significant. Digits past the precision limit are counted and not stored. -/
def MantissaDigits.includeDigit (m : MantissaDigits) (byte : UInt8) :
    Except DynamodbNumberError MantissaDigits :=
  if byte = 48 then
    if m.significant ≠ 0 then do
      let trailingZeroes ← okOr .adjustedExponentOutOfRange (checkedI64 (m.trailingZeroes + 1))
      pure { m with trailingZeroes }
    else
      pure m
  else do
    let zeroes ← okOr .adjustedExponentOutOfRange (usizeTryFrom m.trailingZeroes)
    let padded ← okOr .adjustedExponentOutOfRange (checkedUsize (m.significant + zeroes))
    let significant ← okOr .adjustedExponentOutOfRange (checkedUsize (padded + 1))
    pure
      { digits :=
          if significant ≤ numberKeyDigits then m.digits ++ List.replicate zeroes 48 ++ [byte]
          else m.digits
        significant
        trailingZeroes := 0 }

/-- The loop of `consume`: read digits while they last, counting them from `count`.
Returns the reader, the count and the bytes that remain. -/
def MantissaDigits.consume (m : MantissaDigits) (count : ℤ) :
    List UInt8 → Except DynamodbNumberError (MantissaDigits × ℤ × List UInt8)
  | [] => pure (m, count, [])
  | byte :: input =>
    if isAsciiDigit byte then do
      let count ← okOr .adjustedExponentOutOfRange (checkedI64 (count + 1))
      let m ← m.includeDigit byte
      m.consume count input
    else
      pure (m, count, byte :: input)

/-- `finish`: place the decimal point relative to the first significant digit. -/
def MantissaDigits.finish (m : MantissaDigits) (negative : Bool) (fractional exponent : ℤ) :
    Except DynamodbNumberError ParsedDynamodbNumber :=
  if m.significant = 0 then
    pure { negative := false, adjustedExponent := 0, digits := m.digits, isZero := true }
  else if numberKeyDigits < m.significant then
    .error .precision
  else do
    let adjusted ← okOr .adjustedExponentOutOfRange (do
      let count ← checkedI64 (m.significant : ℤ)
      let value ← checkedI64 (count + exponent)
      let value ← checkedI64 (value - fractional)
      let value ← checkedI64 (value + m.trailingZeroes)
      let value ← checkedI64 (value - 1)
      checkedI32 value)
    pure { negative, adjustedExponent := adjusted, digits := m.digits, isZero := false }

/-! ### The number grammar -/

/-- Whether the next byte is one of the two signs. -/
def signAhead (input : List UInt8) : Bool :=
  input.head? = some 43 || input.head? = some 45

/-- The input after an optional sign. -/
def skipSign (input : List UInt8) : List UInt8 :=
  if signAhead input then input.tail else input

/-- The digit loop of `parse_exponent`. The value is `none` once it left the `i64` range;
the loop still consumes the remaining digits. -/
def exponentDigits (value : Option ℤ) (hasDigits : Bool) :
    List UInt8 → Option ℤ × Bool × List UInt8
  | [] => (value, hasDigits, [])
  | byte :: input =>
    if isAsciiDigit byte then
      exponentDigits
        (do
          let value ← value
          let value ← checkedI64 (value * 10)
          checkedI64 (value + (byte.toNat - 48 : ℕ)))
        true input
    else
      (value, hasDigits, byte :: input)

/-- `parse_exponent`: the exponent and the bytes after it. -/
def parseExponent (input : List UInt8) : Except DynamodbNumberError (ℤ × List UInt8) :=
  if input.head? = some 101 ∨ input.head? = some 69 then
    let input := input.tail
    let negative : Bool := input.head? = some 45
    let (value, hasDigits, input) := exponentDigits (some 0) false (skipSign input)
    if hasDigits then do
      let value ← okOr .exponentOutOfRange value
      if negative then do
        let value ← okOr .exponentOutOfRange (checkedI64 (-value))
        pure (value, input)
      else
        pure (value, input)
    else
      .error .invalidExponent
  else
    pure (0, input)

/-- The optional fractional digits after the integer digits. -/
def consumeFraction (m : MantissaDigits) (input : List UInt8) :
    Except DynamodbNumberError (MantissaDigits × ℤ × List UInt8) :=
  if input.head? = some 46 then m.consume 0 input.tail else pure (m, 0, input)

/-- `parse_decimal_bytes`: sign, integer digits, fraction, exponent, end of input. -/
def parseDecimalBytes (input : List UInt8) :
    Except DynamodbNumberError ParsedDynamodbNumber :=
  if input = [] then
    .error .empty
  else do
    let negative : Bool := input.head? = some 45
    let (digits, integer, input) ← MantissaDigits.empty.consume 0 (skipSign input)
    let (digits, fractional, input) ← consumeFraction digits input
    if integer = 0 ∧ fractional = 0 then
      .error .missingDigit
    else do
      let (exponent, input) ← parseExponent input
      if input ≠ [] then
        .error .invalid
      else
        digits.finish negative fractional exponent

/-- `parse_bytes`: the number grammar within DynamoDB's magnitude range. -/
def parseBytes (input : List UInt8) : Except DynamodbNumberError ParsedDynamodbNumber := do
  let number ← parseDecimalBytes input
  if number.adjustedExponent < -130 then
    .error .underflow
  else if 125 < number.adjustedExponent then
    .error .overflow
  else
    pure number

def ParsedDynamodbNumber.parse (raw : Text) :
    Except DynamodbNumberError ParsedDynamodbNumber :=
  parseBytes raw.bytes

/-! ### Comparison -/

/-- `compare_dynamodb_numbers` on two parsed numbers. `bool` comparison puts `false`
below `true`. -/
def ParsedDynamodbNumber.compareWith (left right : ParsedDynamodbNumber) : Ordering :=
  if left.negative ≠ right.negative then
    compare right.negative left.negative
  else if left.isZero ∨ right.isZero then
    compare right.isZero left.isZero
  else
    let magnitude := (compare left.adjustedExponent right.adjustedExponent).then
      (List.compareLex compare left.digits right.digits)
    if left.negative then magnitude.swap else magnitude

def compareDynamodbNumbers (left right : Text) : Except DynamodbNumberError Ordering := do
  let left ← ParsedDynamodbNumber.parse left
  let right ← ParsedDynamodbNumber.parse right
  pure (left.compareWith right)

/-! ### The ordered key -/

/-- The bytewise complement applied to the payload of a negative number. -/
def complementIf (negative : Bool) (byte : UInt8) : UInt8 :=
  if negative then ~~~byte else byte

/-- `u16::try_from` and `to_be_bytes` of the biased exponent. -/
def biasedExponentBytes (adjustedExponent : ℤ) : Except String (List UInt8) := do
  let biased ← okOr "number exponent is out of range"
    (checkedI32 (adjustedExponent + numberKeyExponentBias))
  if 0 ≤ biased ∧ biased < 2 ^ 16 then
    pure [UInt8.ofNat (biased.toNat / 256), UInt8.ofNat (biased.toNat % 256)]
  else
    .error "number exponent is out of range"

/-- The digits padded with ASCII zeroes to the key width. -/
def paddedDigits (digits : List UInt8) : List UInt8 :=
  (List.range numberKeyDigits).map fun index => digits.getD index 48

def encodeNumberBytesInto (number : ParsedDynamodbNumber) : Except String (List UInt8) :=
  if number.isZero then
    pure (1 :: List.replicate (numberKeyBytes - 1) 0)
  else do
    let exponent ← biasedExponentBytes number.adjustedExponent
    pure ((if number.negative then 0 else 2)
      :: (exponent ++ paddedDigits number.digits).map (complementIf number.negative))

/-- The lower-case hexadecimal digit of a nibble. -/
def hexDigit (nibble : ℕ) : Char :=
  "0123456789abcdef".toList.getD nibble '0'

/-- The two hexadecimal digits of a byte, high nibble first. -/
def hexByte (byte : UInt8) : List Char :=
  [hexDigit (byte.toNat / 16), hexDigit (byte.toNat % 16)]

/-- `encode_dynamodb_number_key`: the marker and the hexadecimal text of the key. -/
def encodeDynamodbNumberKey (value : Text) : Except String Text := do
  let number ← (ParsedDynamodbNumber.parse value).mapError DynamodbNumberError.message
  let encoded ← encodeNumberBytesInto number
  pure (numberKeyMarker :: encoded.flatMap hexByte)

end AuxStorage
