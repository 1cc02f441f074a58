import AuxStorage.UpdateExpression

/-!
# Arithmetic of Updates

`DynamoDecimal`, the decimal arithmetic behind `+`, `-` and ADD: a number is read into
digits with a scale, two numbers are aligned and added or subtracted digit by digit, and
the result is written down again.

Integer operations are checked in the program's builds, so that an exponent close to the
range of `i32` panics before its range is validated. A failure is therefore an error or a
panic (`Fault`). Counts of digits stay in range for texts shorter than `2^31` bytes and are
exact here.
-/

namespace AuxStorage

open Str

/-- How a computation fails: with an error of the store, or with the panic of a checked
integer operation. -/
inductive Fault where
  | error (e : StorageError)
  | panic
  deriving DecidableEq, Repr

/-- A checked `i32` operation. -/
def i32OrPanic (z : ℤ) : Except Fault ℤ :=
  if -2 ^ 31 ≤ z ∧ z < 2 ^ 31 then .ok z else .error .panic

/-- The error of an operand with the wrong type. -/
def updateOperandTypeError : StorageError :=
  .validation (text "An operand in the update expression has an incorrect data type")

/-- `str::parse::<i32>`. -/
def parseI32 (t : Text) : Option ℤ :=
  let negative := t.head? = some '-'
  let digits := if t.head? = some '-' ∨ t.head? = some '+' then t.tail else t
  if digits ≠ [] ∧ digits.all Char.isDigit then
    let magnitude : ℤ := digits.foldl (fun n c => 10 * n + (c.toNat - '0'.toNat)) 0
    checkedI32 (if negative then -magnitude else magnitude)
  else none

/-- `DynamoDecimal`: the digits, most significant first, and the number of them behind the
decimal point. -/
structure DynamoDecimal where
  negative : Bool
  digits : List ℕ
  scale : ℤ
  deriving DecidableEq, Repr

namespace DynamoDecimal

def zero : DynamoDecimal := ⟨false, [0], 0⟩

/-- Zero has the one digit. -/
def isZero (d : DynamoDecimal) : Bool := d.digits == [0]

/-- The loop of `normalized` over the digits, least significant first: trailing zeros are
dropped and counted in the scale. -/
def popZeros : List ℕ → ℤ → Except Fault (List ℕ × ℤ)
  | 0 :: next :: rest, scale => do
      let scale ← i32OrPanic (scale - 1)
      popZeros (next :: rest) scale
  | reversed, scale => pure (reversed.reverse, scale)

def normalized (d : DynamoDecimal) : Except Fault DynamoDecimal :=
  match d.digits.dropWhile (· = 0) with
  | [] => pure zero
  | digits => do
      let (digits, scale) ← popZeros digits.reverse d.scale
      pure ⟨d.negative, digits, scale⟩

def validateRange (d : DynamoDecimal) : Except Fault Unit :=
  if d.isZero then pure ()
  else do
    let adjusted ← i32OrPanic (d.digits.length - d.scale)
    let adjusted ← i32OrPanic (adjusted - 1)
    if adjusted > 125 then
      .error (.error (.validation (text ("Number overflow. Attempting to store a number with "
        ++ "magnitude larger than supported range"))))
    else if adjusted < -130 then
      .error (.error (.validation (text ("Number underflow. Attempting to store a number with "
        ++ "magnitude smaller than supported range"))))
    else pure ()

/-! ### Parsing -/

/-- The text before an exponent marker, and the text behind it. -/
def splitExponent (value : Text) : Text × Option Text :=
  let mantissa := value.takeWhile fun c => c ≠ 'e' ∧ c ≠ 'E'
  match value.drop mantissa.length with
  | [] => (mantissa, none)
  | _ :: exponent => (mantissa, some exponent)

/-- The loop of `parse` over the digits of the mantissa. -/
def digitLoop : Text → List ℕ → ℤ → Bool → Option (List ℕ × ℤ)
  | [], digits, fractionalDigits, _ => some (digits, fractionalDigits)
  | ch :: rest, digits, fractionalDigits, afterDecimal =>
    if ch.isDigit then
      digitLoop rest (digits ++ [ch.toNat - '0'.toNat])
        (if afterDecimal then fractionalDigits + 1 else fractionalDigits) afterDecimal
    else if ch = '.' ∧ ¬afterDecimal then digitLoop rest digits fractionalDigits true
    else none

def parse (value : Text) : Except Fault DynamoDecimal := do
  let (mantissa, exponentText) := splitExponent value
  let exponent ← match exponentText with
    | some exponent => okOr (.error updateOperandTypeError) (parseI32 exponent)
    | none => pure 0
  let negative := mantissa.head? = some '-'
  let chars := if mantissa.head? = some '-' ∨ mantissa.head? = some '+' then mantissa.tail
    else mantissa
  let (digits, fractionalDigits) ← okOr (.error updateOperandTypeError)
    (digitLoop chars [] 0 false)
  if digits = [] then .error (.error updateOperandTypeError)
  else do
    let scale ← i32OrPanic (fractionalDigits - exponent)
    let value ← normalized ⟨negative, digits, scale⟩
    validateRange value
    pure value

/-! ### Digits aligned to a scale -/

/-- The digits at a common scale. -/
def alignedLen (d : DynamoDecimal) (scale : ℤ) : ℕ :=
  d.digits.length + (scale - d.scale).toNat

def alignedDigitFromRight (d : DynamoDecimal) (scale : ℤ) (index : ℕ) : ℕ :=
  if index ≥ d.alignedLen scale then 0
  else
    let padding := (scale - d.scale).toNat
    if index < padding then 0 else d.digits.getD (d.digits.length - 1 - (index - padding)) 0

def alignedDigitFromLeft (d : DynamoDecimal) (index : ℕ) : ℕ :=
  d.digits.getD index 0

/-- The loop of `add_abs_digits_aligned`, over the remaining positions from the right. -/
def addLoop (lhs rhs : DynamoDecimal) (scale : ℤ) (carry : ℕ) : List ℕ → List ℕ
  | [] => if carry > 0 then [carry] else []
  | index :: rest =>
    let sum := lhs.alignedDigitFromRight scale index + rhs.alignedDigitFromRight scale index
      + carry
    sum % 10 :: addLoop lhs rhs scale (sum / 10) rest

/-- The sum of the digits, from the right with a carry. -/
def addAbsDigitsAligned (lhs rhs : DynamoDecimal) (scale : ℤ) : List ℕ :=
  (addLoop lhs rhs scale 0
    (List.range (max (lhs.alignedLen scale) (rhs.alignedLen scale)))).reverse

/-- The loop of `subtract_abs_digits_aligned`, over the remaining positions from the
right. -/
def subtractLoop (lhs rhs : DynamoDecimal) (scale : ℤ) (borrow : ℤ) : List ℕ → List ℕ
  | [] => []
  | index :: rest =>
    let rhsDigit : ℤ := if index < rhs.alignedLen scale then
      rhs.alignedDigitFromRight scale index else 0
    let digit : ℤ := lhs.alignedDigitFromRight scale index - borrow - rhsDigit
    if digit < 0 then (digit + 10).toNat :: subtractLoop lhs rhs scale 1 rest
    else digit.toNat :: subtractLoop lhs rhs scale 0 rest

/-- The difference of the digits, from the right with a borrow. -/
def subtractAbsDigitsAligned (lhs rhs : DynamoDecimal) (scale : ℤ) : List ℕ :=
  (subtractLoop lhs rhs scale 0 (List.range (lhs.alignedLen scale))).reverse

/-- The digits are compared from the left. -/
def compareAbsDigitsAligned (lhs rhs : DynamoDecimal) (scale : ℤ) : Ordering :=
  (compare (lhs.alignedLen scale) (rhs.alignedLen scale)).then
    ((((List.range (lhs.alignedLen scale)).map fun index =>
      compare (lhs.alignedDigitFromLeft index) (rhs.alignedDigitFromLeft index)).find?
        (· ≠ .eq)).getD .eq)

def subtractAbsWithSign (lhs rhs : DynamoDecimal) : DynamoDecimal :=
  let scale := max lhs.scale rhs.scale
  match compareAbsDigitsAligned lhs rhs scale with
  | .gt => ⟨lhs.negative, subtractAbsDigitsAligned lhs rhs scale, scale⟩
  | .lt => ⟨!lhs.negative, subtractAbsDigitsAligned rhs lhs scale, scale⟩
  | .eq => zero

/-- The sum of two numbers of one sign, before it is normalised. -/
def sumOfMagnitudes (lhs rhs : DynamoDecimal) : DynamoDecimal :=
  let scale := max lhs.scale rhs.scale
  ⟨lhs.negative, addAbsDigitsAligned lhs rhs scale, scale⟩

/-- A result in normal form, in range. -/
def finish (d : DynamoDecimal) : Except Fault DynamoDecimal := do
  let value ← d.normalized
  value.validateRange
  pure value

/-- Numbers of one sign are added, others subtracted. -/
def add (lhs rhs : DynamoDecimal) : Except Fault DynamoDecimal :=
  if lhs.negative = rhs.negative then finish (sumOfMagnitudes lhs rhs)
  else finish (subtractAbsWithSign lhs rhs)

/-- The sum with the sign turned. -/
def subtract (lhs rhs : DynamoDecimal) : Except Fault DynamoDecimal :=
  if lhs.negative ≠ rhs.negative then finish (sumOfMagnitudes lhs rhs)
  else finish (subtractAbsWithSign lhs rhs)

/-- The digits as text. -/
def digitTexts (digits : List ℕ) : Text :=
  digits.map fun digit => Char.ofNat ('0'.toNat + digit)

def format (d : DynamoDecimal) : Except Fault Text := do
  d.validateRange
  if d.isZero then pure (text "0")
  else
    let sign := if d.negative then text "-" else []
    if d.scale ≤ 0 then
      pure (sign ++ digitTexts d.digits ++ List.replicate (-d.scale).toNat '0')
    else
      let scale := d.scale.toNat
      if d.digits.length > scale then
        let split := d.digits.length - scale
        pure (sign ++ digitTexts (d.digits.take split) ++ '.' :: digitTexts (d.digits.drop split))
      else
        pure (sign ++ text "0." ++ List.replicate (scale - d.digits.length) '0'
          ++ digitTexts d.digits)

end DynamoDecimal

/-! ### Operations on number texts -/

/-- The sum of two numbers of a SET. -/
def addArithmeticNumbers (lhs rhs : Text) : Except Fault Text := do
  let lhs ← DynamoDecimal.parse lhs
  let rhs ← DynamoDecimal.parse rhs
  let sum ← lhs.add rhs
  sum.format

/-- The difference of two numbers of a SET. -/
def subtractArithmeticNumbers (lhs rhs : Text) : Except Fault Text := do
  let lhs ← DynamoDecimal.parse lhs
  let rhs ← DynamoDecimal.parse rhs
  let difference ← lhs.subtract rhs
  difference.format

/-- `parse_add_number`: errors about the range are kept, others name the field. -/
def parseAddNumber (field value : Text) : Except Fault DynamoDecimal :=
  match DynamoDecimal.parse value with
  | .error (.error (.validation message)) =>
    if (text "Number ").isPrefixOf message then .error (.error (.validation message))
    else .error (.error (.validation
      (text "ADD operation requires a valid number for field " ++ field)))
  | result => result

def addAddExpressionWithRhs (field lhs : Text) (rhs : DynamoDecimal) : Except Fault Text := do
  let lhs ← parseAddNumber field lhs
  let sum ← lhs.add rhs
  sum.format

example : addArithmeticNumbers (text "9.5") (text "-10.25") = .ok (text "-0.75") := by
  decide +kernel

end AuxStorage
