import AuxStorage.ItemKey
import AuxStorage.UpdatePath

/-!
# Conditions

The condition tree of filters and conditional writes and its evaluation on an item. A leaf
reads one attribute, by a path that is kept as text and cut into its steps at every
evaluation, and tests it. The ordering tests keep their operand as text, without its type:
the type of the attribute decides how it is compared.

Every evaluator of the program applies the same tests at the leaves, so that a leaf is given
by its path and its test (`Condition.fieldTest`).
-/

namespace AuxStorage

open Document

inductive SizeComparison where
  | equal
  | notEqual
  | lessThan
  | lessThanEqual
  | greaterThan
  | greaterThanEqual
  deriving DecidableEq, Repr

/-- A condition, as it is parsed. -/
inductive Condition where
  | notExists (field : Text)
  | fieldExists (field : Text)
  | lessThan (field value : Text)
  | lessThanEqual (field value : Text)
  | greaterThan (field value : Text)
  | greaterThanEqual (field value : Text)
  | equal (field : Text) (value : AttributeValue)
  | notEqual (field : Text) (value : AttributeValue)
  | between (field min max : Text)
  | inValues (field : Text) (values : List AttributeValue)
  | valueEqual (left right : AttributeValue)
  | valueNotEqual (left right : AttributeValue)
  | contains (field : Text) (value : AttributeValue)
  | beginsWith (field : Text) (value : AttributeValue)
  | attributeType (field attributeType : Text)
  | size (field : Text) (size : ℕ)
  | sizeCompare (field : Text) (operator : SizeComparison) (size : ℕ)
  | and (conditions : List Condition)
  | or (conditions : List Condition)
  | not (condition : Condition)

/-! ### Comparisons -/

/-- The four ordering operators. -/
inductive OrderOperator where
  | lessThan
  | lessThanEqual
  | greaterThan
  | greaterThanEqual
  deriving DecidableEq, Repr

/-- `Ordering::is_lt`, `is_le`, `is_gt` and `is_ge`. -/
def OrderOperator.holds : OrderOperator → Ordering → Bool
  | .lessThan, o => o == .lt
  | .lessThanEqual, o => o != .gt
  | .greaterThan, o => o == .gt
  | .greaterThanEqual, o => o != .lt

/-- The match of an ordering test: the type of the attribute decides the comparison. -/
def orderTest (operator : OrderOperator) (operand : Text) : AttributeValue → Bool
  | .N n =>
    match compareDynamodbNumbers n operand with
    | .ok o => operator.holds o
    | .error _ => false
  | .S s => operator.holds (compareUtf8 s operand)
  | .B b => operator.holds (compareUtf8 b operand)
  | _ => false

/-- The numbers of two texts are equal; texts that are no numbers are not. -/
def numbersEqual (left right : Text) : Bool :=
  match compareDynamodbNumbers left right with
  | .ok o => o == .eq
  | .error _ => false

/-- Sets of equally many members, compared as texts. -/
def stringSetsEqual (left right : List Text) : Bool :=
  left.length == right.length && left.all right.contains

/-- Sets of equally many members, compared as numbers. -/
def numberSetsEqual (left right : List Text) : Bool :=
  left.length == right.length && left.all fun value => right.any (numbersEqual value)

mutual

/-- `dynamodb_attribute_values_equal`. -/
def valuesEqual : AttributeValue → AttributeValue → Bool
  | .N left, .N right => numbersEqual left right
  | .SS left, .SS right | .BS left, .BS right => stringSetsEqual left right
  | .NS left, .NS right => numberSetsEqual left right
  | .L left, .L right => left.length == right.length && elementsEqual left right
  | .M left, .M right => left.length == right.length && entriesEqual left right
  | left, right => decide (left = right)

/-- The elements of two lists are equal, one by one. -/
def elementsEqual : List AttributeValue → List AttributeValue → Bool
  | value :: left, other :: right => valuesEqual value other && elementsEqual left right
  | _, _ => true

/-- Every entry has an equal one under its name. -/
def entriesEqual : List (Text × AttributeValue) → List (Text × AttributeValue) → Bool
  | [], _ => true
  | (name, value) :: left, right =>
    (match OrderedMap.lookup right name with
      | some other => valuesEqual value other
      | none => false) && entriesEqual left right

end

def decodedBinaryContains (value operand : Text) : Bool :=
  match decodeBase64String value, decodeBase64String operand with
  | some value, some operand => operand ≠ [] && decide (operand <:+: value)
  | _, _ => false

def decodedBinaryStartsWith (value operand : Text) : Bool :=
  match decodeBase64String value, decodeBase64String operand with
  | some value, some operand => operand.isPrefixOf value
  | _, _ => false

def containsAttribute : AttributeValue → AttributeValue → Bool
  | .S s, .S v => decide (v <:+: s)
  | .B b, .B value => decodedBinaryContains b value
  | .SS ss, .S v => ss.contains v
  | .NS ns, .N value => ns.any fun member => numbersEqual member value
  | .BS bs, .B v => bs.contains v
  | .L l, value => l.any fun element => valuesEqual element value
  | _, _ => false

/-- The match of a `begins_with` test. -/
def beginsWithTest : AttributeValue → AttributeValue → Bool
  | .S s, .S operand => operand.isPrefixOf s
  | .B b, .B operand => decodedBinaryStartsWith b operand
  | _, _ => false

def attributeTypeCode : AttributeValue → Option Text
  | .NULL false => none
  | value => some value.variantName

/-- The number of UTF-16 code units of a text. -/
def utf16Count (s : Text) : ℕ :=
  (s.map fun c => if c.toNat < 0x10000 then 1 else 2).sum

/-- What the size function returns. -/
def attributeSize : AttributeValue → Option ℕ
  | .S s => some (utf16Count s)
  | .B b => (decodeBase64String b).map List.length
  | .SS values | .NS values | .BS values => some values.length
  | .L values => some values.length
  | .M entries => some entries.length
  | _ => none

/-- The match of a size comparison. -/
def SizeComparison.holds (operator : SizeComparison) (actualSize size : ℕ) : Bool :=
  match operator with
  | .equal => actualSize == size
  | .notEqual => actualSize != size
  | .lessThan => decide (actualSize < size)
  | .lessThanEqual => decide (actualSize ≤ size)
  | .greaterThan => decide (size < actualSize)
  | .greaterThanEqual => decide (size ≤ actualSize)

/-- A test that an absent attribute fails. -/
def ifPresent (test : AttributeValue → Bool) : Option AttributeValue → Bool
  | some value => test value
  | none => false

/-- The path of a leaf that reads an attribute, and its test on what the path leads to. -/
def Condition.fieldTest : Condition → Option (Text × (Option AttributeValue → Bool))
  | .fieldExists field => some (field, Option.isSome)
  | .notExists field => some (field, Option.isNone)
  | .lessThan field value => some (field, ifPresent (orderTest .lessThan value))
  | .lessThanEqual field value => some (field, ifPresent (orderTest .lessThanEqual value))
  | .greaterThan field value => some (field, ifPresent (orderTest .greaterThan value))
  | .greaterThanEqual field value => some (field, ifPresent (orderTest .greaterThanEqual value))
  | .equal field value => some (field, ifPresent fun actual => valuesEqual actual value)
  -- An absent attribute is not equal to any value.
  | .notEqual field value =>
    some (field, fun actual => !ifPresent (fun actual => valuesEqual actual value) actual)
  | .between field min max => some (field, ifPresent fun actual =>
    orderTest .greaterThanEqual min actual && orderTest .lessThanEqual max actual)
  | .inValues field values =>
    some (field, ifPresent fun actual => values.any fun value => valuesEqual actual value)
  | .contains field value => some (field, ifPresent fun actual => containsAttribute actual value)
  | .beginsWith field value => some (field, ifPresent fun actual => beginsWithTest actual value)
  | .attributeType field type =>
    some (field, ifPresent fun actual => attributeTypeCode actual == some type)
  | .size field expected => some (field, fun actual => actual.bind attributeSize == some expected)
  | .sizeCompare field operator expected => some (field, fun actual =>
    match actual.bind attributeSize with
    | some actualSize => operator.holds actualSize expected
    | none => false)
  | .valueEqual _ _ | .valueNotEqual _ _ | .and _ | .or _ | .not _ => none

mutual

/-- `visit_attribute_paths`: the paths of the leaves that read an attribute. -/
def Condition.attributePaths : Condition → List Text
  | .and conditions | .or conditions => attributePathsOf conditions
  | .not condition => condition.attributePaths
  | condition =>
    match condition.fieldTest with
    | some (field, _) => [field]
    | none => []

/-- The paths of several conditions. -/
def Condition.attributePathsOf : List Condition → List Text
  | [] => []
  | condition :: conditions => condition.attributePaths ++ attributePathsOf conditions

end

/-! ### Paths -/

/-- The characters at which a path is cut. -/
def isPathSeparator (c : Char) : Bool :=
  c == '.' || c == '['

/-- `root_field`: the path up to the first separator. -/
def rootField (path : Text) : Text :=
  path.takeWhile fun c => !isPathSeparator c

/-- The path from the first separator on. -/
def pathTail (path : Text) : Text :=
  path.dropWhile fun c => !isPathSeparator c

/-- The rest of a path is not longer. -/
theorem length_pathTail_le (path : Text) : (pathTail path).length ≤ path.length :=
  List.length_dropWhile_le _ _

/-- The loop of `get_path_value`: follows the rest of a path from a value. -/
def followPath (current : AttributeValue) : Text → Option AttributeValue
  | [] => some current
  | c :: path =>
    if c = '.' then do
      let value ← getSegment (.name (rootField path)) current
      followPath value (pathTail path)
    else if c = '[' then
      match _h : Str.splitOnce ']' path with
      | none => none
      | some (index, rest) => do
          let index ← parseUsize index
          let value ← getSegment (.index index) current
          followPath value rest
    else none
termination_by path => path.length
decreasing_by
  · have := length_pathTail_le path
    simp only [List.length_cons]
    omega
  · have := Str.length_splitOnce_lt _h
    simp only [List.length_cons]
    omega

theorem followPath_dot (current : AttributeValue) (path : Text) :
    followPath current ('.' :: path)
      = (getSegment (.name (rootField path)) current).bind (followPath · (pathTail path)) := by
  rw [followPath]
  rfl

theorem followPath_index (current : AttributeValue) {path index rest : Text}
    (h : Str.splitOnce ']' path = some (index, rest)) :
    followPath current ('[' :: path)
      = (parseUsize index).bind fun index =>
          (getSegment (.index index) current).bind (followPath · rest) := by
  rw [followPath, if_neg (by decide), if_pos rfl]
  split
  · rename_i hsplit
    cases h.symm.trans hsplit
  · rename_i hsplit
    cases h.symm.trans hsplit
    rfl

/-- The value at a path of an item. -/
def Condition.getPathValue (item : AttributeValueLookup) (path : Text) : Option AttributeValue := do
  let current ← item (rootField path)
  followPath current (pathTail path)

/-! ### Evaluation -/

mutual

/-- Whether an item meets a condition. -/
def evaluateCondition (item : AttributeValueLookup) : Condition → Bool
  | .and conditions => evaluateAll item conditions
  | .or conditions => evaluateAny item conditions
  | .not condition => !evaluateCondition item condition
  | .valueEqual left right => valuesEqual left right
  | .valueNotEqual left right => !valuesEqual left right
  | condition =>
    match condition.fieldTest with
    | some (field, test) => test (Condition.getPathValue item field)
    | none => false

/-- All conditions are true. -/
def evaluateAll (item : AttributeValueLookup) : List Condition → Bool
  | [] => true
  | condition :: conditions => evaluateCondition item condition && evaluateAll item conditions

/-- At least one condition is true. -/
def evaluateAny (item : AttributeValueLookup) : List Condition → Bool
  | [] => false
  | condition :: conditions => evaluateCondition item condition || evaluateAny item conditions

end

theorem evaluateCondition_of_fieldTest (item : AttributeValueLookup) {condition : Condition}
    {field : Text} {test : Option AttributeValue → Bool}
    (h : condition.fieldTest = some (field, test)) :
    evaluateCondition item condition = test (Condition.getPathValue item field) := by
  cases condition <;> cases h
  all_goals rfl

end AuxStorage
