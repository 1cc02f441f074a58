import AuxStorage.ItemKey

/-!
# Logical Item Sizes

The limits on attribute names and values, and the size of an item in bytes: the names, the
texts, the digits of numbers two to a byte, and a few bytes for every list or map. Sizes are
natural numbers. The source adds them with overflow checks, which bytes that are in memory
cannot reach.
-/

namespace AuxStorage

/-! ### Limits -/

/-- The bytes that an item may have. -/
def maxItemSizeBytes : ℕ := 400 * 1024

/-- The bytes that a name may have. -/
def maxAttributeNameBytes : ℕ := 65535

/-- The levels that a value may have. -/
def maxAttributeNestingDepth : ℕ := 32

def validateAttributeName (name field : Text) : Except StorageError Unit :=
  if name.bytes.length = 0 then .error (.validation (field ++ text " cannot be empty"))
  else if maxAttributeNameBytes < name.bytes.length then
    .error (.validation (field ++ text " cannot exceed 65535 bytes"))
  else pure ()

def formatQuotedCollection (values : List Text) (separator : Text) : Text :=
  text "[" ++ separator.intercalate (values.map fun value => text "\"" ++ value ++ text "\"")
    ++ text "]"

def validateStringSet (values : List Text) : Except StorageError Unit :=
  if values = [] then
    .error (.validation
      (text "One or more parameter values were invalid: An string set  may not be empty"))
  else if ¬values.Nodup then
    .error (.validation (text "One or more parameter values were invalid: Input collection "
      ++ formatQuotedCollection values (text ", ") ++ text " contains duplicates."))
  else pure ()

/-- The loop of `validate_number_set`. -/
def validateNumberSetLoop (seen : List Text) : List Text → Except StorageError Unit
  | [] => pure ()
  | value :: rest =>
    match canonicalDynamodbNumber value with
    | .error error => .error (.validation error.validationMessage)
    | .ok key =>
      if key ∈ seen then
        .error (.validation (text ("One or more parameter values were invalid: Input "
          ++ "collection contains duplicates.")))
      else validateNumberSetLoop (key :: seen) rest

def validateNumberSet (values : List Text) : Except StorageError Unit :=
  if values = [] then
    .error (.validation
      (text "One or more parameter values were invalid: An number set  may not be empty"))
  else validateNumberSetLoop [] values

def validateBinary (value : Text) : Except StorageError Unit :=
  if (decodeBase64String value).isSome then pure ()
  else .error (.validationBase64 (text "invalid base64 for DynamoDB binary field: "))

def validateBinarySet (values : List Text) : Except StorageError Unit :=
  if values = [] then
    .error (.validation
      (text "One or more parameter values were invalid: Binary sets should not be empty"))
  else if ¬values.Nodup then
    .error (.validation (text "One or more parameter values were invalid: Input collection "
      ++ formatQuotedCollection values (text ",") ++ text "of type BS contains duplicates."))
  else values.forM validateBinary

/-- The check of the nesting depth, with which `validate_attribute_value` begins. -/
def validateNestingDepth (field : Text) (depth : ℕ) : Except StorageError Unit :=
  if maxAttributeNestingDepth < depth then
    .error (.validation (field ++ text " attribute nesting depth cannot exceed 32"))
  else pure ()

mutual

/-- The checks of a value, with the level that it stands on. -/
def validateAttributeValue (field : Text) (depth : ℕ) : AttributeValue → Except StorageError Unit
  | .SS values => do validateNestingDepth field depth; validateStringSet values
  | .N value => do validateNestingDepth field depth; validateDynamodbNumber value
  | .NS values => do validateNestingDepth field depth; validateNumberSet values
  | .B value => do validateNestingDepth field depth; validateBinary value
  | .BS values => do validateNestingDepth field depth; validateBinarySet values
  | .L values => do
      validateNestingDepth field depth
      validateAttributeValues field (depth + 1) values
  | .M entries => do
      validateNestingDepth field depth
      validateAttributeEntries field (depth + 1) entries
  | .S _ | .BOOL _ | .NULL _ => validateNestingDepth field depth

/-- The loop over the values of a list. -/
def validateAttributeValues (field : Text) (depth : ℕ) :
    List AttributeValue → Except StorageError Unit
  | [] => pure ()
  | value :: rest => do
      validateAttributeValue field depth value
      validateAttributeValues field depth rest

/-- The loop over the entries of a nested map. -/
def validateAttributeEntries (field : Text) (depth : ℕ) :
    List (Text × AttributeValue) → Except StorageError Unit
  | [] => pure ()
  | (name, value) :: rest => do
      validateAttributeName name (field ++ text " nested attribute name")
      validateAttributeValue field depth value
      validateAttributeEntries field depth rest

end

/-! ### Sizes of values -/

/-- The counters of `dynamodb_number_size`. -/
structure NumberSizeCounters where
  significantDigits : ℕ := 0
  trailingZeroDigits : ℕ := 0
  seenNonZeroDigit : Bool := false

/-- One byte of the loop of `dynamodb_number_size`. -/
def NumberSizeCounters.count (c : NumberSizeCounters) (byte : UInt8) : NumberSizeCounters :=
  if byte = 48 then
    if c.seenNonZeroDigit then
      { c with
        significantDigits := c.significantDigits + 1
        trailingZeroDigits := c.trailingZeroDigits + 1 }
    else c
  else if 49 ≤ byte ∧ byte ≤ 57 then
    { seenNonZeroDigit := true
      significantDigits := c.significantDigits + 1
      trailingZeroDigits := 0 }
  else c

def dynamodbNumberSize (value : Text) : ℕ :=
  let mantissa := value.takeWhile fun c => c != 'e' && c != 'E'
  let isNegative := mantissa.head? == some '-'
  let digits := Text.bytes (mantissa.dropWhile fun c => c == '+' || c == '-')
  let c := digits.foldl NumberSizeCounters.count {}
  let significantDigits :=
    if c.seenNonZeroDigit then c.significantDigits - c.trailingZeroDigits else 1
  (significantDigits + 1) / 2 + 1 + (if isNegative then 1 else 0)

/-- `binary_size`: the bytes that the data characters of a base64 text stand for. -/
def binarySize (value : Text) : ℕ :=
  let digits := (Text.bytes (value.rdropWhile (· == '='))).length
  digits / 4 * 3 + digits % 4 * 3 / 4

mutual

/-- The bytes that a value counts for. -/
def attributeValueSize : AttributeValue → ℕ
  | .S value => value.bytes.length
  | .N value => dynamodbNumberSize value
  | .B value => binarySize value
  | .SS values => (values.map fun value => value.bytes.length).sum
  | .NS values => (values.map dynamodbNumberSize).sum
  | .BS values => (values.map binarySize).sum
  | .BOOL _ | .NULL _ => 1
  | .L values => 3 + values.length + attributeValuesSize values
  | .M entries => 3 + entries.length + attributeEntriesSize entries

/-- The sizes of the values of a list, added up. -/
def attributeValuesSize : List AttributeValue → ℕ
  | [] => 0
  | value :: rest => attributeValueSize value + attributeValuesSize rest

/-- The sizes of the entries of a nested map, added up. -/
def attributeEntriesSize : List (Text × AttributeValue) → ℕ
  | [] => 0
  | (name, value) :: rest =>
    name.bytes.length + attributeValueSize value + attributeEntriesSize rest

end

/-! ### Sizes of items -/

/-- `LogicalItemSize`: a size that was checked. -/
@[ext] structure LogicalItemSize where
  bytes : ℕ
  pos : 0 < bytes
  le_max : bytes ≤ maxItemSizeBytes

namespace LogicalItemSize

def fromCheckedSize (size : ℕ) : Except StorageError LogicalItemSize :=
  if hpos : size = 0 then .error (.validation (text "logical item size must be positive"))
  else if hmax : maxItemSizeBytes < size then
    .error (.validation (text "Item size has exceeded the maximum allowed size"))
  else .ok ⟨size, Nat.pos_of_ne_zero hpos, Nat.le_of_not_lt hmax⟩

/-- The fold of `try_from_entries_with_field`. -/
def addEntries (field : Text) (size : ℕ) : List (Text × AttributeValue) → Except StorageError ℕ
  | [] => pure size
  | (name, value) :: rest => do
      validateAttributeName name (field ++ text " attribute name")
      validateAttributeValue field 0 value
      addEntries field (size + name.bytes.length + attributeValueSize value) rest

def tryFromEntriesWithField (field : Text) (entries : List (Text × AttributeValue)) :
    Except StorageError LogicalItemSize := do
  let size ← addEntries field 0 entries
  fromCheckedSize size

/-- The size of an item, if it is valid. -/
def tryFromEntries (entries : List (Text × AttributeValue)) :
    Except StorageError LogicalItemSize :=
  tryFromEntriesWithField (text "Item") entries

/-- An entry within the limits. -/
def ValidEntry (entry : Text × AttributeValue) : Prop :=
  validateAttributeName entry.1 [] = .ok () ∧ validateAttributeValue [] 0 entry.2 = .ok ()

/-- The size of an entry. -/
def entrySize (entry : Text × AttributeValue) : ℕ :=
  entry.1.bytes.length + attributeValueSize entry.2

variable {field : Text}

theorem validateAttributeName_eq_ok {name : Text} {u : Unit} :
    validateAttributeName name field = .ok u ↔
      0 < name.bytes.length ∧ name.bytes.length ≤ maxAttributeNameBytes := by
  unfold validateAttributeName
  split_ifs with hempty hlong
  · simp [hempty]
  · simp only [false_iff, not_and]
    omega
  · exact ⟨fun _ => ⟨by omega, by omega⟩, fun _ => rfl⟩

theorem validateNestingDepth_eq_ok {depth : ℕ} {u : Unit} :
    validateNestingDepth field depth = .ok u ↔ depth ≤ maxAttributeNestingDepth := by
  unfold validateNestingDepth
  split_ifs with h
  · simp only [false_iff]
    omega
  · exact ⟨fun _ => by omega, fun _ => rfl⟩

/-- The field is named in messages only. -/
theorem validateAttributeValue_congr {field' : Text} {depth : ℕ} {value : AttributeValue}
    (h : validateAttributeValue field depth value = .ok ()) :
    validateAttributeValue field' depth value = .ok () := by
  induction value using AttributeValue.nestedInduction generalizing depth with
  | L values ih =>
    simp only [validateAttributeValue, Except.bind_eq_ok, validateNestingDepth_eq_ok] at h ⊢
    obtain ⟨u, hdepth, h⟩ := h
    refine ⟨u, hdepth, ?_⟩
    induction values with
    | nil => rfl
    | cons value rest ihRest =>
      simp only [validateAttributeValues, Except.bind_eq_ok] at h ⊢
      obtain ⟨u, hvalue, hrest⟩ := h
      rw [List.forall_mem_cons] at ih
      exact ⟨u, ih.1 hvalue, ihRest ih.2 hrest⟩
  | M entries ih =>
    simp only [validateAttributeValue, Except.bind_eq_ok, validateNestingDepth_eq_ok] at h ⊢
    obtain ⟨u, hdepth, h⟩ := h
    refine ⟨u, hdepth, ?_⟩
    induction entries with
    | nil => rfl
    | cons entry rest ihRest =>
      simp only [validateAttributeEntries, Except.bind_eq_ok, validateAttributeName_eq_ok] at h ⊢
      obtain ⟨u, hname, v, hvalue, hrest⟩ := h
      rw [List.forall_mem_cons] at ih
      exact ⟨u, hname, v, ih.1 hvalue, ihRest ih.2 hrest⟩
  | _ =>
    simp only [validateAttributeValue, Except.bind_eq_ok, validateNestingDepth_eq_ok] at h ⊢
    exact h

theorem validEntry_iff (field field' : Text) {entry : Text × AttributeValue} :
    ValidEntry entry ↔
      validateAttributeName entry.1 field = .ok () ∧
        validateAttributeValue field' 0 entry.2 = .ok () := by
  rw [ValidEntry, validateAttributeName_eq_ok, validateAttributeName_eq_ok]
  exact and_congr_right' ⟨validateAttributeValue_congr, validateAttributeValue_congr⟩

variable {entries : List (Text × AttributeValue)}

theorem addEntries_eq_ok {size total : ℕ} :
    addEntries field size entries = .ok total ↔
      (∀ entry ∈ entries, ValidEntry entry) ∧ total = size + (entries.map entrySize).sum := by
  induction entries generalizing size with
  | nil =>
    simp only [addEntries, pure, Except.pure, Except.ok.injEq, List.map_nil, List.sum_nil,
      add_zero, List.not_mem_nil, false_imp_iff, implies_true, true_and, eq_comm]
  | cons entry rest ih =>
    obtain ⟨name, value⟩ := entry
    simp only [addEntries, Except.bind_eq_ok, ih, List.forall_mem_cons, List.map_cons,
      List.sum_cons, entrySize, validEntry_iff (field ++ text " attribute name") field]
    constructor
    · rintro ⟨⟨⟩, hname, ⟨⟩, hvalue, hrest, htotal⟩
      exact ⟨⟨⟨hname, hvalue⟩, hrest⟩, by omega⟩
    · rintro ⟨⟨⟨hname, hvalue⟩, hrest⟩, htotal⟩
      exact ⟨(), hname, (), hvalue, hrest, by omega⟩

variable {result : LogicalItemSize}

theorem fromCheckedSize_eq_ok {size : ℕ} :
    fromCheckedSize size = .ok result ↔ result.bytes = size := by
  have hpos := result.pos
  have hmax := result.le_max
  unfold fromCheckedSize
  split_ifs with hzero hlarge
  · simp only [false_iff]
    omega
  · simp only [false_iff]
    omega
  · rw [Except.ok.injEq, LogicalItemSize.ext_iff]
    exact eq_comm

/-- **The size of entries** is the sum of their sizes, once all are valid. -/
theorem tryFromEntriesWithField_eq_ok :
    tryFromEntriesWithField field entries = .ok result ↔
      (∀ entry ∈ entries, ValidEntry entry) ∧ result.bytes = (entries.map entrySize).sum := by
  simp only [tryFromEntriesWithField, Except.bind_eq_ok, addEntries_eq_ok, fromCheckedSize_eq_ok,
    Nat.zero_add]
  constructor
  · rintro ⟨_, ⟨hvalid, rfl⟩, hresult⟩
    exact ⟨hvalid, hresult⟩
  · rintro ⟨hvalid, hresult⟩
    exact ⟨_, ⟨hvalid, rfl⟩, hresult⟩

/-- The size does not depend on the order of the entries. -/
theorem tryFromEntries_perm {entries' : List (Text × AttributeValue)} (h : entries.Perm entries') :
    tryFromEntries entries = .ok result ↔ tryFromEntries entries' = .ok result := by
  rw [tryFromEntries, tryFromEntries, tryFromEntriesWithField_eq_ok,
    tryFromEntriesWithField_eq_ok, (h.map entrySize).sum_eq]
  exact and_congr_left' ⟨fun hvalid entry hmem => hvalid entry (h.mem_iff.mpr hmem),
    fun hvalid entry hmem => hvalid entry (h.mem_iff.mp hmem)⟩

end LogicalItemSize

end AuxStorage
