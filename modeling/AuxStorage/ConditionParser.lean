import AuxStorage.Condition

/-!
# Parsing Condition Expressions

The lexer and the recursive-descent parser of condition expressions. The lexer is asked for
one token at a time and does not depend on the parser, so that an expression is its stream of
tokens, which ends regularly or with the error of the character it stops at. The parser keeps
the current token at the head of the stream.

A path is collected as text: placeholders are replaced by the names they stand for, and the
names and indexes are joined by dots and brackets. The operand of an ordering comparison is
reduced to the text of its value.

The Unicode tables of the standard library and the JSON text of nested values are parameters
(`CharTables`, `ExpressionContext`). Error messages that print a token carry the token itself.
The recursion over parentheses is bounded by a fuel above the number of tokens.
-/

namespace AuxStorage

open Str

/-! ### Tokens -/

/-- The tokens of a condition. -/
inductive Token where
  | identifier (name : Text)
  | attributeName (name : Text)
  | attributeValue (name : Text)
  | string (value : Text)
  | number (value : Text)
  | equal
  | notEqual
  | lessThan
  | lessThanEqual
  | greaterThan
  | greaterThanEqual
  | and
  | or
  | not
  | between
  | inKeyword
  | attributeExists
  | attributeNotExists
  | attributeType
  | beginsWith
  | contains
  | size
  | leftParen
  | rightParen
  | leftBracket
  | rightBracket
  | comma
  | dot
  | eof
  deriving DecidableEq, Repr

/-- The errors of the lexer and the parser. -/
inductive ParseError where
  /-- `Unterminated string literal`. -/
  | unterminatedString
  /-- `Unexpected character: ..`. -/
  | unexpectedCharacter (ch : Char)
  /-- `Expected .., found ..`. -/
  | expectedToken (expected found : Token)
  /-- `Attribute name .. not found in ExpressionAttributeNames`. -/
  | missingName (name : Text)
  /-- `Attribute value .. not found in ExpressionAttributeValues`. -/
  | missingValue (name : Text)
  /-- `Expected attribute path, found ..`. -/
  | expectedPath (found : Token)
  /-- `Expected attribute path segment, found ..`. -/
  | expectedSegment (found : Token)
  /-- `Expected list index in attribute path, found ..`. -/
  | expectedIndex (found : Token)
  /-- `Expected value, found ..`. -/
  | expectedValue (found : Token)
  /-- `Expected ',' or ')' in value list, found ..`. -/
  | expectedListEnd (found : Token)
  /-- `Expected comparison operator after value, found ..`. -/
  | expectedOperatorAfterValue (found : Token)
  /-- `Expected comparison operator after field .., found ..`. -/
  | expectedOperatorAfterField (field : Text) (found : Token)
  /-- `The first operand must be distinct from the remaining operands ..`. -/
  | sameOperand (field : Text)
  /-- `Incorrect operand type for operator or function; .. attribute_type`. -/
  | attributeTypeOperand
  /-- `SIZE function must be followed by comparison operator`. -/
  | sizeOperator
  /-- `Size must be a number`. -/
  | sizeNumber
  /-- `The BETWEEN operator requires upper bound to be greater than or equal to lower bound`. -/
  | betweenBounds (lower upper : AttributeValue)
  /-- `Unexpected token at end of expression: ..`. -/
  | trailingToken (found : Token)
  /-- The fuel of the model is used up; not an error of the program. -/
  | outOfFuel
  deriving DecidableEq

/-- The tokens of an expression, up to its end or to the error of the lexer. -/
inductive TokenStream where
  | eof
  | fault (error : ParseError)
  | cons (token : Token) (rest : TokenStream)
  deriving DecidableEq

namespace TokenStream

/-- A stream whose head can be the current token. -/
def ready : TokenStream → Except ParseError TokenStream
  | .fault error => .error error
  | stream => .ok stream

/-- `current_token`. -/
def current : TokenStream → Token
  | .cons token _ => token
  | _ => .eof

/-- `Parser::advance`. -/
def advance : TokenStream → Except ParseError TokenStream
  | .cons _ rest => rest.ready
  | stream => stream.ready

/-- The number of tokens. -/
def length : TokenStream → ℕ
  | .cons _ rest => rest.length + 1
  | _ => 0

/-- The next token has to be the expected one. -/
def expectToken (expected : Token) (stream : TokenStream) : Except ParseError TokenStream :=
  if stream.current = expected then stream.advance
  else .error (.expectedToken expected stream.current)

end TokenStream

/-! ### The lexer -/

/-- `char::is_alphabetic` and `char::is_numeric`, which are known on the ASCII characters. -/
structure CharTables where
  isAlphabetic : Char → Bool
  isNumeric : Char → Bool
  isAlphabetic_ascii : ∀ c : Char, c.toNat < 128 → isAlphabetic c = c.isAlpha
  isNumeric_ascii : ∀ c : Char, c.toNat < 128 → isNumeric c = c.isDigit

/-- The tables that know ASCII characters only. -/
def asciiTables : CharTables where
  isAlphabetic := Char.isAlpha
  isNumeric := Char.isDigit
  isAlphabetic_ascii := fun _ _ => rfl
  isNumeric_ascii := fun _ _ => rfl

namespace Lexer

variable (tables : CharTables)

/-- The characters of an identifier. -/
def isIdentifier (c : Char) : Bool :=
  tables.isAlphabetic c || tables.isNumeric c || c == '_'

/-- The characters of a number. -/
def isNumber (c : Char) : Bool :=
  c.isDigit || c == '.' || c == '-' || c == '+'

/-- What an escape sequence stands for. -/
def escape (escaped : Char) : Text :=
  if escaped = 'n' then ['\n']
  else if escaped = 't' then ['\t']
  else if escaped = 'r' then ['\r']
  else if escaped = '\\' ∨ escaped = '\'' ∨ escaped = '"' then [escaped]
  else ['\\', escaped]

/-- The loop of `read_string`, behind the opening quote. -/
def readString (quote : Char) (value : Text) : Text → Except ParseError (Text × Text)
  | [] => .error .unterminatedString
  | [ch] => if ch = quote then pure (value, []) else .error .unterminatedString
  | ch :: next :: rest =>
    if ch = quote then pure (value, next :: rest)
    else if ch = '\\' then readString quote (value ++ escape next) rest
    else readString quote (value ++ [ch]) (next :: rest)

/-- The keywords that ignore case. -/
def operatorKeywords : List (Text × Token) :=
  [(text "AND", .and), (text "OR", .or), (text "NOT", .not), (text "BETWEEN", .between),
    (text "IN", .inKeyword)]

/-- The names of the functions. -/
def functionNames : List (Text × Token) :=
  [(text "attribute_exists", .attributeExists), (text "attribute_not_exists", .attributeNotExists),
    (text "attribute_type", .attributeType), (text "begins_with", .beginsWith),
    (text "contains", .contains), (text "size", .size)]

/-- The keyword of an identifier, or the identifier itself. -/
def keyword (identifier : Text) : Token :=
  match (operatorKeywords.find? fun entry => eqIgnoreAsciiCase identifier entry.1).or
      (functionNames.find? fun entry => entry.1 == identifier) with
  | some entry => entry.2
  | none => .identifier identifier

/-- The tokens of a single character. -/
def punctuation : List (Char × Token) :=
  [('(', .leftParen), (')', .rightParen), ('[', .leftBracket), (']', .rightBracket),
    (',', .comma), ('.', .dot), ('=', .equal)]

/-- `next_token` behind white space, with the rest of the input. -/
def nextToken (ch : Char) (rest : Text) : Except ParseError (Token × Text) :=
  match punctuation.find? fun entry => entry.1 == ch with
  | some entry => pure (entry.2, rest)
  | none =>
    if ch = '<' then
      if rest.head? = some '>' then pure (.notEqual, rest.tail)
      else if rest.head? = some '=' then pure (.lessThanEqual, rest.tail)
      else pure (.lessThan, rest)
    else if ch = '>' then
      if rest.head? = some '=' then pure (.greaterThanEqual, rest.tail)
      else pure (.greaterThan, rest)
    else if ch = '"' ∨ ch = '\'' then do
      let (value, rest) ← readString ch [] rest
      pure (.string value, rest)
    else if ch = '#' then
      pure (.attributeName (ch :: rest.takeWhile (isIdentifier tables)),
        rest.dropWhile (isIdentifier tables))
    else if ch = ':' then
      pure (.attributeValue (ch :: rest.takeWhile (isIdentifier tables)),
        rest.dropWhile (isIdentifier tables))
    else if ch.isDigit ∨ ch = '-' then
      pure (.number (ch :: rest.takeWhile isNumber), rest.dropWhile isNumber)
    else if tables.isAlphabetic ch then
      pure (keyword (ch :: rest.takeWhile (isIdentifier tables)),
        rest.dropWhile (isIdentifier tables))
    else .error (.unexpectedCharacter ch)

/-- The tokens of an input. Every token takes a character, so that a fuel above the length of
the input is enough. -/
def tokens : ℕ → Text → TokenStream
  | 0, _ => .fault .outOfFuel
  | fuel + 1, input =>
    match input.dropWhile isWhitespace with
    | [] => .eof
    | ch :: rest =>
      match nextToken tables ch rest with
      | .error error => .fault error
      | .ok (token, rest) => .cons token (tokens fuel rest)

/-- The token stream of an expression. -/
def lex (input : Text) : TokenStream :=
  tokens tables (input.length + 1) input

end Lexer

/-! ### Paths and values -/

/-- What an expression is parsed with: its attribute names and values, and the JSON text of
lists and maps. -/
structure ExpressionContext where
  names : Text → Option Text
  values : Text → Option AttributeValue
  jsonText : AttributeValue → Text

namespace ConditionParser

variable (context : ExpressionContext)

/-- The name a token of a path stands for. -/
def pathName (unexpected : Token → ParseError) : Token → Except ParseError Text
  | .attributeName name => okOr (.missingName name) (context.names name)
  | .identifier name => pure name
  | token => .error (unexpected token)

/-- The loop of `parse_attribute_path`, with the path collected so far. -/
def pathLoop (path : Text) : TokenStream → Except ParseError (Text × TokenStream)
  | .cons .dot (.cons token rest) => do
      let name ← pathName context .expectedSegment token
      let _ ← rest.ready
      pathLoop (path ++ '.' :: name) rest
  | .cons .dot rest => do
      let rest ← rest.ready
      .error (.expectedSegment rest.current)
  | .cons .leftBracket (.cons (.number index) (.cons .rightBracket rest)) => do
      let _ ← rest.ready
      pathLoop (path ++ '[' :: (index ++ [']'])) rest
  | .cons .leftBracket (.cons (.number _) rest) => do
      let rest ← rest.ready
      .error (.expectedToken .rightBracket rest.current)
  | .cons .leftBracket rest => do
      let rest ← rest.ready
      .error (.expectedIndex rest.current)
  | stream => pure (path, stream)

def parseAttributePath (stream : TokenStream) : Except ParseError (Text × TokenStream) := do
  let name ← pathName context .expectedPath stream.current
  let stream ← stream.advance
  pathLoop context name stream

def parseAttributeValue : TokenStream → Except ParseError (AttributeValue × TokenStream)
  | .cons .leftParen rest => do
      let _ ← rest.ready
      let (value, rest) ← parseAttributeValue rest
      let rest ← rest.expectToken .rightParen
      pure (value, rest)
  | .cons (.attributeValue name) rest => do
      let value ← okOr (.missingValue name) (context.values name)
      let rest ← rest.ready
      pure (value, rest)
  | .cons (.string value) rest => do
      let rest ← rest.ready
      pure (.S value, rest)
  | .cons (.number value) rest => do
      let rest ← rest.ready
      pure (.N value, rest)
  | stream => .error (.expectedValue stream.current)

/-- `attribute_value_scalar_to_string`: the text of a value, without its type. -/
def scalarToString : AttributeValue → Text
  | .S s | .N s | .B s => s
  | .BOOL b => if b then text "true" else text "false"
  | .NULL _ => text "null"
  | .SS v | .NS v | .BS v => v.headD []
  | value => context.jsonText value

/-- `parse_value`: a value, reduced to its text. -/
def parseValue (stream : TokenStream) : Except ParseError (Text × TokenStream) := do
  let (value, stream) ← parseAttributeValue context stream
  pure (scalarToString context value, stream)

/-- `parse_value_list`, and the list behind the first placeholder of `IN`: values separated by
commas, up to the closing parenthesis. -/
def parseValueList : ℕ → List AttributeValue → TokenStream →
    Except ParseError (List AttributeValue × TokenStream)
  | 0, _, _ => .error .outOfFuel
  | fuel + 1, values, stream =>
    match stream.current with
    | .comma => do
        let stream ← stream.advance
        let (value, stream) ← parseAttributeValue context stream
        parseValueList fuel (values ++ [value]) stream
    | .rightParen => pure (values, stream)
    | token => .error (.expectedListEnd token)

def tokenIsValue : Token → Bool
  | .attributeValue _ | .string _ | .number _ => true
  | _ => false

/-- `attribute_value_to_in_values`. -/
def toInValues : AttributeValue → List AttributeValue
  | .SS values => values.map .S
  | .NS values => values.map .N
  | .BS values => values.map .B
  | .L values => values
  | value => [value]

/-- Bounds that no value lies between. -/
def betweenUpperIsLessThanLower : AttributeValue → AttributeValue → Bool
  | .N lower, .N upper =>
    match compareDynamodbNumbers upper lower with
    | .ok o => o == .lt
    | .error _ => false
  | .S lower, .S upper => compareUtf8 upper lower == .lt
  | .B lower, .B upper =>
    match decodeBase64String lower, decodeBase64String upper with
    | some lower, some upper => List.compareLex compare upper lower == .lt
    | _, _ => compareUtf8 upper lower == .lt
  | _, _ => false

/-- The two bounds of `BETWEEN`. -/
def parseBetween (stream : TokenStream) :
    Except ParseError ((AttributeValue × AttributeValue) × TokenStream) := do
  let stream ← stream.advance
  let (min, stream) ← parseAttributeValue context stream
  let stream ← stream.expectToken .and
  let (max, stream) ← parseAttributeValue context stream
  if betweenUpperIsLessThanLower min max then
    .error (.betweenBounds min max)
  else
    pure ((min, max), stream)

/-! ### Comparisons -/

/-- A comparison whose operand is kept as text. -/
def parseOrder (build : Text → Condition) (stream : TokenStream) :
    Except ParseError (Condition × TokenStream) := do
  let stream ← stream.advance
  let (value, stream) ← parseValue context stream
  pure (build value, stream)

/-- A comparison whose operand is kept as a value. -/
def parseTyped (build : AttributeValue → Condition) (stream : TokenStream) :
    Except ParseError (Condition × TokenStream) := do
  let stream ← stream.advance
  let (value, stream) ← parseAttributeValue context stream
  pure (build value, stream)

/-- The values of `IN`. A single placeholder stands for the members of its collection. -/
def parseIn (field : Text) (stream : TokenStream) :
    Except ParseError (Condition × TokenStream) := do
  let stream ← stream.advance
  let stream ← stream.expectToken .leftParen
  match stream with
  | .cons (.attributeValue name) rest => do
      let rest ← rest.ready
      let value ← okOr (.missingValue name) (context.values name)
      if rest.current = .rightParen then do
        let rest ← rest.expectToken .rightParen
        pure (.inValues field (toInValues value), rest)
      else do
        let (values, rest) ← parseValueList context (rest.length + 1) [value] rest
        let rest ← rest.expectToken .rightParen
        pure (.inValues field values, rest)
  | stream => do
      let (value, stream) ← parseAttributeValue context stream
      let (values, stream) ← parseValueList context (stream.length + 1) [value] stream
      let stream ← stream.expectToken .rightParen
      pure (.inValues field values, stream)

def parseComparison (field : Text) (stream : TokenStream) :
    Except ParseError (Condition × TokenStream) :=
  match stream.current with
  | .equal => parseTyped context (.equal field) stream
  | .notEqual => parseTyped context (.notEqual field) stream
  | .lessThan => parseOrder context (.lessThan field) stream
  | .lessThanEqual => parseOrder context (.lessThanEqual field) stream
  | .greaterThan => parseOrder context (.greaterThan field) stream
  | .greaterThanEqual => parseOrder context (.greaterThanEqual field) stream
  | .between => do
      let ((min, max), stream) ← parseBetween context stream
      pure (.between field (scalarToString context min) (scalarToString context max), stream)
  | .inKeyword => parseIn context field stream
  | token => .error (.expectedOperatorAfterField field token)

/-- The operators of a comparison with the value on the left: an equality with another value
or with a path. -/
def parseLeftEquality (values : AttributeValue → Condition) (path : Text → Condition)
    (stream : TokenStream) : Except ParseError (Condition × TokenStream) := do
  let stream ← stream.advance
  if tokenIsValue stream.current then do
    let (right, stream) ← parseAttributeValue context stream
    pure (values right, stream)
  else do
    let (field, stream) ← parseAttributePath context stream
    pure (path field, stream)

/-- An ordering comparison of a value on the left with a path. -/
def parseLeftOrder (build : Text → Condition) (stream : TokenStream) :
    Except ParseError (Condition × TokenStream) := do
  let stream ← stream.advance
  let (field, stream) ← parseAttributePath context stream
  pure (build field, stream)

def parseValueLeftComparisonFromValue (left : AttributeValue) (stream : TokenStream) :
    Except ParseError (Condition × TokenStream) :=
  let value := scalarToString context left
  match stream.current with
  | .equal => parseLeftEquality context (.valueEqual left) (.equal · left) stream
  | .notEqual => parseLeftEquality context (.valueNotEqual left) (.notEqual · left) stream
  | .lessThan => parseLeftOrder context (.greaterThan · value) stream
  | .lessThanEqual => parseLeftOrder context (.greaterThanEqual · value) stream
  | .greaterThan => parseLeftOrder context (.lessThan · value) stream
  | .greaterThanEqual => parseLeftOrder context (.lessThanEqual · value) stream
  | token => .error (.expectedOperatorAfterValue token)

def parseValueLeftComparison (stream : TokenStream) :
    Except ParseError (Condition × TokenStream) := do
  let (left, stream) ← parseAttributeValue context stream
  parseValueLeftComparisonFromValue context left stream

def tryParseParenthesizedOperandComparison (stream : TokenStream) :
    Except ParseError (Condition × TokenStream) := do
  let stream ← stream.expectToken .leftParen
  if tokenIsValue stream.current then do
    let (left, stream) ← parseAttributeValue context stream
    let stream ← stream.expectToken .rightParen
    parseValueLeftComparisonFromValue context left stream
  else do
    let (field, stream) ← parseAttributePath context stream
    let stream ← stream.expectToken .rightParen
    parseComparison context field stream

/-- The operator of a size comparison. -/
def sizeOperator : Token → Option SizeComparison
  | .equal => some .equal
  | .notEqual => some .notEqual
  | .lessThan => some .lessThan
  | .lessThanEqual => some .lessThanEqual
  | .greaterThan => some .greaterThan
  | .greaterThanEqual => some .greaterThanEqual
  | _ => none

def parseSizeComparison (field : Text) (stream : TokenStream) :
    Except ParseError (Condition × TokenStream) :=
  if stream.current = .between then do
    let ((min, max), stream) ← parseBetween context stream
    let min ← okOr .sizeNumber (parseUsize (scalarToString context min))
    let max ← okOr .sizeNumber (parseUsize (scalarToString context max))
    pure (.and [.sizeCompare field .greaterThanEqual min, .sizeCompare field .lessThanEqual max],
      stream)
  else do
    let operator ← okOr .sizeOperator (sizeOperator stream.current)
    let stream ← stream.advance
    let (value, stream) ← parseValue context stream
    let size ← okOr .sizeNumber (parseUsize value)
    if operator = .equal then pure (.size field size, stream)
    else pure (.sizeCompare field operator size, stream)

def nextTokenStartsSamePath (field : Text) : Token → Except ParseError Bool
  | .identifier name => pure (name == field)
  | .attributeName name => do
      let actual ← okOr (.missingName name) (context.names name)
      pure (actual == field)
  | _ => pure false

/-- The path in the parentheses of a function. -/
def parseFunctionPath (stream : TokenStream) : Except ParseError (Text × TokenStream) := do
  let stream ← stream.advance
  let stream ← stream.expectToken .leftParen
  parseAttributePath context stream

/-- The branches of `parse_primary` other than the parenthesis. -/
def parseOperand (stream : TokenStream) : Except ParseError (Condition × TokenStream) :=
  match stream.current with
  | .attributeExists => do
      let (field, stream) ← parseFunctionPath context stream
      let stream ← stream.expectToken .rightParen
      pure (.fieldExists field, stream)
  | .attributeNotExists => do
      let (field, stream) ← parseFunctionPath context stream
      let stream ← stream.expectToken .rightParen
      pure (.notExists field, stream)
  | .beginsWith => do
      let (field, stream) ← parseFunctionPath context stream
      let stream ← stream.expectToken .comma
      let (value, stream) ← parseAttributeValue context stream
      let stream ← stream.expectToken .rightParen
      pure (.beginsWith field value, stream)
  | .contains => do
      let (field, stream) ← parseFunctionPath context stream
      let stream ← stream.expectToken .comma
      let same ← nextTokenStartsSamePath context field stream.current
      if same then .error (.sameOperand field)
      else do
        let (value, stream) ← parseAttributeValue context stream
        let stream ← stream.expectToken .rightParen
        pure (.contains field value, stream)
  | .attributeType => do
      let (field, stream) ← parseFunctionPath context stream
      let stream ← stream.expectToken .comma
      let (value, stream) ← parseAttributeValue context stream
      match value with
      | .S type => do
          let stream ← stream.expectToken .rightParen
          pure (.attributeType field type, stream)
      | _ => .error .attributeTypeOperand
  | .size => do
      let (field, stream) ← parseFunctionPath context stream
      let stream ← stream.expectToken .rightParen
      parseSizeComparison context field stream
  | .attributeValue _ | .string _ | .number _ => parseValueLeftComparison context stream
  | _ => do
      let (field, stream) ← parseAttributePath context stream
      parseComparison context field stream

end ConditionParser

/-! ### Boolean structure -/

/-- A condition joined to the conjunction on its left. -/
def Condition.andThen (left right : Condition) : Condition :=
  match left with
  | .and conditions => .and (conditions ++ [right])
  | left => .and [left, right]

/-- A condition joined to the disjunction on its left. -/
def Condition.orElse (left right : Condition) : Condition :=
  match left with
  | .or conditions => .or (conditions ++ [right])
  | left => .or [left, right]

namespace ConditionParser

variable (context : ExpressionContext)

mutual

/-- Conjunctions, separated by OR. -/
def parseOrExpression : ℕ → TokenStream → Except ParseError (Condition × TokenStream)
  | 0, _ => .error .outOfFuel
  | fuel + 1, stream => do
      let (left, stream) ← parseAndExpression fuel stream
      orLoop fuel left stream

/-- The loop of `parse_or_expression`. -/
def orLoop : ℕ → Condition → TokenStream → Except ParseError (Condition × TokenStream)
  | 0, _, _ => .error .outOfFuel
  | fuel + 1, left, stream =>
    if stream.current = .or then do
      let stream ← stream.advance
      let (right, stream) ← parseAndExpression fuel stream
      orLoop fuel (left.orElse right) stream
    else pure (left, stream)

/-- Negations, separated by AND. -/
def parseAndExpression : ℕ → TokenStream → Except ParseError (Condition × TokenStream)
  | 0, _ => .error .outOfFuel
  | fuel + 1, stream => do
      let (left, stream) ← parseNotExpression fuel stream
      andLoop fuel left stream

/-- The loop of `parse_and_expression`. -/
def andLoop : ℕ → Condition → TokenStream → Except ParseError (Condition × TokenStream)
  | 0, _, _ => .error .outOfFuel
  | fuel + 1, left, stream =>
    if stream.current = .and then do
      let stream ← stream.advance
      let (right, stream) ← parseNotExpression fuel stream
      andLoop fuel (left.andThen right) stream
    else pure (left, stream)

/-- A primary condition, after any number of NOTs. -/
def parseNotExpression : ℕ → TokenStream → Except ParseError (Condition × TokenStream)
  | 0, _ => .error .outOfFuel
  | fuel + 1, stream =>
    if stream.current = .not then do
      let stream ← stream.advance
      let (condition, stream) ← parseNotExpression fuel stream
      pure (.not condition, stream)
    else parsePrimary fuel stream

/-- `parse_primary`: an opening parenthesis is first tried as the parenthesis of an operand. -/
def parsePrimary : ℕ → TokenStream → Except ParseError (Condition × TokenStream)
  | 0, _ => .error .outOfFuel
  | fuel + 1, stream =>
    if stream.current = .leftParen then
      match tryParseParenthesizedOperandComparison context stream with
      | .ok result => pure result
      | .error _ => do
          let stream ← stream.advance
          let (condition, stream) ← parseOrExpression fuel stream
          let stream ← stream.expectToken .rightParen
          pure (condition, stream)
    else parseOperand context stream

end

/-- A fuel that is enough for a stream: at most four calls are nested for each token. -/
def fuelFor (stream : TokenStream) : ℕ :=
  4 * stream.length + 4

/-- A condition that takes all tokens. -/
def parse (stream : TokenStream) : Except ParseError Condition := do
  let stream ← stream.ready
  let (condition, stream) ← parseOrExpression context (fuelFor stream) stream
  if stream.current = .eof then pure condition
  else .error (.trailingToken stream.current)

end ConditionParser

/-- A condition from its text. -/
def parseConditionExpression (tables : CharTables) (context : ExpressionContext)
    (expression : Text) : Except ParseError Condition :=
  ConditionParser.parse context (Lexer.lex tables expression)

end AuxStorage
