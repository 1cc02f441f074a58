import AuxStorage.AttributeJson
import AuxStorage.LogicalItemSize

/-!
# Wire Items

An item as a row of a backend holds it: either the JSON text of its attributes, or split into
the key attributes of the table, those of an index, and a JSON text with the rest. Five
functions look at an item without turning it into the other form: the decoded map, a selection
of values, a projection, the logical size and the JSON text. Each walks over the parts on its
own, in its own order.

The JSON library is a parameter. What the library says about a text that it cannot read is
left out of the errors.
-/

namespace AuxStorage

/-- `WireItemKeyAttributes`, with key values whose nested maps are listed by name. -/
structure WireItemKeyAttributes where
  hashKeyName : Text
  hashKey : AttributeValue
  sortKeyName : Option Text
  sortKey : Option AttributeValue
  hashKey_sorted : hashKey.SortedNames
  sortKey_sorted : ∀ value ∈ sortKey, value.SortedNames

theorem sortedNames_none : ∀ value ∈ (none : Option AttributeValue), value.SortedNames := by
  simp

/-- An item as it is stored: one JSON object, or key attributes and the rest. -/
inductive WireItem where
  | dynamoJson (data : List UInt8)
  | localSplit (primaryKey : WireItemKeyAttributes) (secondaryKey : Option WireItemKeyAttributes)
      (nonKeyAttributesBlob : Option (List UInt8))

/-! ### The parts of a split item -/

/-- The attributes of a key, as `insert_key_attributes` and `canonical_key_entries` go through
them. A sort key counts if it has a name and a value. -/
def WireItemKeyAttributes.entries (keys : WireItemKeyAttributes) : List (Text × AttributeValue) :=
  (keys.hashKeyName, keys.hashKey) ::
    match keys.sortKeyName, keys.sortKey with
    | some name, some value => [(name, value)]
    | _, _ => []

def attributeFromKeyAttributes (keys : WireItemKeyAttributes) (field : Text) :
    Option AttributeValue :=
  if keys.hashKeyName = field then some keys.hashKey
  else if keys.sortKeyName = some field then keys.sortKey
  else none

/-- The lookup in the primary key and then in the secondary one. -/
def attributeFromKeys (primaryKey : WireItemKeyAttributes)
    (secondaryKey : Option WireItemKeyAttributes) (field : Text) : Option AttributeValue :=
  (attributeFromKeyAttributes primaryKey field).or
    (secondaryKey.bind fun keys => attributeFromKeyAttributes keys field)

def insertKeyAttributes (attributes : AttributeMap) (keys : WireItemKeyAttributes) :
    AttributeMap :=
  attributes.insertAll keys.entries

/-- `canonical_key_entries`: a repeated name keeps its place and takes the later value. -/
def canonicalKeyEntries (primaryKey : WireItemKeyAttributes)
    (secondaryKey : Option WireItemKeyAttributes) : List (Text × AttributeValue) :=
  ((primaryKey :: secondaryKey.toList).foldl insertKeyAttributes .empty).entries

def trimAsciiWhitespace (bytes : List UInt8) : List UInt8 :=
  (bytes.dropWhile Json.isAsciiWhitespace).rdropWhile Json.isAsciiWhitespace

/-- Whether there is no other attribute. -/
def blobIsEmptyJsonObject (blob : List UInt8) : Bool :=
  trimAsciiWhitespace blob == [0x7b, 0x7d]

/-- The blob, if it is read at all: an empty one and an empty object are passed over. -/
def attributesBlob (blob : Option (List UInt8)) : Option (List UInt8) :=
  blob.filter fun blob => !blob.isEmpty && !blobIsEmptyJsonObject blob

/-- What a reader finds in the blob, or what it says of one that is passed over. -/
def readBlob {α : Type} (blob : Option (List UInt8)) (absent : α)
    (read : List UInt8 → Except StorageError α) : Except StorageError α :=
  match attributesBlob blob with
  | some blob => read blob
  | none => pure absent

section Views

variable (json : JsonFormat)

/-! ### The attribute map -/

def AttributeMap.fromDynamoJson (data : List UInt8) : Except StorageError AttributeMap :=
  (json.fromSlice (AttributeMap.visitMap .empty) [] data).mapError fun opening =>
    .internalLibrary (text "decode wire item attributes failed: " ++ opening)

/-- The attributes of the rest. -/
def decodeNonKeyAttributes (blob : Option (List UInt8)) : Except StorageError AttributeMap :=
  readBlob blob .empty fun blob =>
    (json.fromSlice (AttributeMap.visitMap .empty) [] blob).mapError fun opening =>
      .internalLibrary (text "decode wire item non-key attributes failed: " ++ opening)

/-- All attributes of an item. -/
def WireItem.toAttributeMap : WireItem → Except StorageError AttributeMap
  | .dynamoJson data => AttributeMap.fromDynamoJson json data
  | .localSplit primaryKey secondaryKey blob => do
      let attributes ← decodeNonKeyAttributes json blob
      let attributes := insertKeyAttributes attributes primaryKey
      match secondaryKey with
      | some keys => pure (insertKeyAttributes attributes keys)
      | none => pure attributes

/-! ### Selection and projection -/

/-- `AttributeValuesVisitor`: each field of the text goes to the first place that asks for
it. -/
def visitAttributeValues (fields : List Text) (values : List (Option AttributeValue)) :
    List (Text × Json) → Except Text (List (Option AttributeValue))
  | [] => .ok values
  | (key, value) :: rest =>
    match fields.findIdx? (· == key) with
    | some index =>
      match AttributeValue.fromJson value with
      | none => .error []
      | some value => visitAttributeValues fields (values.set index (some value)) rest
    | none => visitAttributeValues fields values rest

def parseDynamoAttributeValues (bytes : List UInt8) (fields : List Text) :
    Except StorageError (List (Option AttributeValue)) :=
  (json.deserializeMap (visitAttributeValues fields (List.replicate fields.length none)) []
    bytes).mapError fun _ => .serialization

/-- The values of the requested attributes. -/
def WireItem.selectAttributeValues (fields : List Text) :
    WireItem → Except StorageError (List (Option AttributeValue))
  | .dynamoJson data => parseDynamoAttributeValues json data fields
  | .localSplit primaryKey secondaryKey blob => do
      let values ← readBlob blob (List.replicate fields.length none) fun blob =>
        parseDynamoAttributeValues json blob fields
      pure (List.zipWith (fun field value =>
        value.or (attributeFromKeys primaryKey secondaryKey field)) fields values)

/-- `AttributeFieldVisitor`. -/
def visitAttributeFields (fields : List Text) (attributes : AttributeMap) :
    List (Text × Json) → Except Text AttributeMap
  | [] => .ok attributes
  | (key, value) :: rest =>
    if key ∈ fields then
      match AttributeValue.fromJson value with
      | none => .error []
      | some value => visitAttributeFields fields (attributes.insert key value) rest
    else visitAttributeFields fields attributes rest

def parseDynamoAttributeFields (bytes : List UInt8) (fields : List Text) :
    Except StorageError AttributeMap :=
  (json.deserializeMap (visitAttributeFields fields .empty) [] bytes).mapError
    fun _ => .serialization

/-- The loop of `project_attributes`: the keys override what the blob holds. -/
def projectKeys (lookup : Text → Option AttributeValue) (attributes : AttributeMap) :
    List Text → AttributeMap
  | [] => attributes
  | field :: rest =>
    match lookup field with
    | some value => projectKeys lookup (attributes.insert field value) rest
    | none => projectKeys lookup attributes rest

/-- The requested attributes with their names. -/
def WireItem.projectAttributes (fields : List Text) :
    WireItem → Except StorageError AttributeMap
  | .dynamoJson data => parseDynamoAttributeFields json data fields
  | .localSplit primaryKey secondaryKey blob => do
      let attributes ← readBlob blob .empty fun blob =>
        parseDynamoAttributeFields json blob fields
      pure (projectKeys (attributeFromKeys primaryKey secondaryKey) attributes fields)

/-! ### The logical size -/

/-- `inspect_attribute`, as far as it computes a size. -/
def inspectAttribute (field name : Text) (value : AttributeValue) : Except StorageError ℕ := do
  validateAttributeName name (field ++ text " attribute name")
  match value with
  | .S value => pure (name.bytes.length + value.bytes.length)
  | .N number => do
      validateDynamodbNumber number
      pure (name.bytes.length + dynamodbNumberSize number)
  | value => do
      let size ← LogicalItemSize.tryFromEntriesWithField field [(name, value)]
      pure size.bytes

/-- `WriteVisitor`, as far as it computes a size. -/
def visitWriteAttributes (field : Text) (excludedNames names : List Text) (size : ℕ) :
    List (Text × Json) → Except StorageError ℕ
  | [] => .ok size
  | (name, value) :: rest =>
    if name ∈ names then
      .error (.internalLibrary (text "duplicate DynamoDB attribute name in wire item"))
    else if name ∈ excludedNames then
      visitWriteAttributes field excludedNames (name :: names) size rest
    else
      match AttributeValue.fromJson value with
      | none => .error (.internalLibrary [])
      | some value => do
          let valueSize ← inspectAttribute field name value
          visitWriteAttributes field excludedNames (name :: names) (size + valueSize) rest

/-- `inspect_write_attributes`, as far as it computes a size. -/
def inspectWriteAttributes (bytes : List UInt8) (field : Text) (excludedNames : List Text) :
    Except StorageError ℕ :=
  json.fromSlice (visitWriteAttributes field excludedNames [] 0) (.internalLibrary []) bytes

def LogicalItemSize.sizeFromDynamoJson (bytes : List UInt8) (field : Text)
    (excludedNames : List Text) : Except StorageError ℕ :=
  (inspectWriteAttributes json bytes field excludedNames).mapError
    (StorageError.quotedBehind (text "decode wire item logical size failed: "))

def LogicalItemSize.fromDynamoJson (bytes : List UInt8) (field : Text)
    (excludedNames : List Text) : Except StorageError LogicalItemSize := do
  let size ← LogicalItemSize.sizeFromDynamoJson json bytes field excludedNames
  LogicalItemSize.fromCheckedSize size

/-- The size of an item, without decoding it. -/
def WireItem.logicalSize : WireItem → Except StorageError LogicalItemSize
  | .dynamoJson data => LogicalItemSize.fromDynamoJson json data (text "WireItem") []
  | .localSplit primaryKey secondaryKey blob => do
      let keyEntries := canonicalKeyEntries primaryKey secondaryKey
      let keyNames := keyEntries.map Prod.fst
      let keySize ← LogicalItemSize.tryFromEntries keyEntries
      let nonKeySize ← readBlob blob 0 fun blob =>
        LogicalItemSize.sizeFromDynamoJson json blob (text "WireItem") keyNames
      LogicalItemSize.fromCheckedSize (keySize.bytes + nonKeySize)

/-! ### The JSON text -/

/-- `parse_attributes`: the fields of a text, without those of some names. -/
def parseAttributes (bytes : List UInt8) (excluded : List Text) :
    Except StorageError (List (Text × Json)) :=
  json.fromSlice (fun fields => .ok (fields.filter fun field => field.1 ∉ excluded))
    (.internalLibrary []) bytes

/-- `dynamo_json_bytes`. Only an absent or empty blob is passed over here. -/
def WireItem.dynamoJsonBytes : WireItem → Except StorageError (List UInt8)
  | .dynamoJson data => pure data
  | .localSplit primaryKey secondaryKey blob => do
      let keys := canonicalKeyEntries primaryKey secondaryKey
      let excluded := keys.map Prod.fst
      let blob := (blob.filter fun blob => !blob.isEmpty).getD [0x7b, 0x7d]
      let entries ← parseAttributes json blob excluded
      pure (json.write (keys.map (fun entry => (entry.1, entry.2.toJson)) ++ entries))

end Views

end AuxStorage
