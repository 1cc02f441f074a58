import AuxStorage.AttributeValue
import AuxStorage.DynamodbNumberCanonical
import AuxStorage.Lib.Base64

/-!
# Item Keys

The keys under which a table and its indexes keep their rows. A key is built from the
attributes of an item that the key schema names, checked against the size limits of keys,
and written as a byte suffix that native stores sort by: the hash value in a length frame,
the range value, and for an index the whole table key in a frame of its own. The suffix is
read back without the item.

The range value of an index is announced byte by byte and closed by a zero, since the table
key follows it; the range value of a table ends with the suffix.
-/

namespace AuxStorage

open Framing

/-! ### Table metadata -/

/-- The part that an attribute has in a key. -/
inductive KeyType where
  | hash
  | range
  deriving DecidableEq, Repr

/-- The types of key attributes. -/
inductive KeyAttributeType where
  | S
  | N
  | B
  deriving DecidableEq, Repr

/-- An attribute of a key. -/
structure KeySchemaElement where
  attributeName : Text
  keyType : KeyType
  deriving DecidableEq, Repr

/-- `KeySchemaElement::ordered`: the hash elements, then the range elements. -/
def KeySchemaElement.ordered (schema : List KeySchemaElement) : List KeySchemaElement :=
  schema.filter (·.keyType = .hash) ++ schema.filter (·.keyType = .range)

/-- The type of an attribute. -/
structure AttributeDefinition where
  attributeName : Text
  attributeType : KeyAttributeType
  deriving DecidableEq, Repr

/-- What an index contains. -/
inductive ProjectionType where
  | keysOnly
  | includeFields
  | all
  deriving DecidableEq, Repr

/-- The attributes of an index. -/
structure Projection where
  projectionType : Option ProjectionType
  nonKeyAttributes : Option (List Text)
  deriving DecidableEq, Repr

/-- `GlobalSecondaryIndex`, without its build state. -/
structure GlobalSecondaryIndex where
  indexName : Text
  keySchema : List KeySchemaElement
  projection : Projection
  deriving DecidableEq, Repr

/-- `StoredTableInfo`, as far as keys and projections read it. -/
structure StoredTableInfo where
  tableName : Text
  attributeDefinitions : List AttributeDefinition
  keySchema : List KeySchemaElement
  maxIndexers : ℕ
  globalSecondaryIndexes : Option (List GlobalSecondaryIndex)
  deriving DecidableEq, Repr

/-- The index of a name: the first one that carries it. -/
def StoredTableInfo.findIndex (table : StoredTableInfo) (name : Text) :
    Option GlobalSecondaryIndex :=
  (table.globalSecondaryIndexes.getD []).find? (·.indexName = name)

/-- The type that the first definition of an attribute declares. -/
def StoredTableInfo.declaredType (table : StoredTableInfo) (name : Text) :
    Option KeyAttributeType :=
  (table.attributeDefinitions.find? (·.attributeName = name)).map (·.attributeType)

/-- Whether a value has the type of its key attribute. -/
def AttributeValue.matchesKeyType : AttributeValue → KeyAttributeType → Bool
  | .S _, .S | .N _, .N | .B _, .B => true
  | _, _ => false

/-- The name of a type in messages. -/
def AttributeValue.variantName : AttributeValue → Text
  | .S _ => text "S"
  | .N _ => text "N"
  | .B _ => text "B"
  | .SS _ => text "SS"
  | .NS _ => text "NS"
  | .BS _ => text "BS"
  | .BOOL _ => text "BOOL"
  | .NULL _ => text "NULL"
  | .L _ => text "L"
  | .M _ => text "M"

/-! ### Keys -/

/-- `ItemKeyEnum`, as far as the modelled functions return it. -/
inductive ItemKeyError where
  | deserialization (message : Text)
  /-- A deserialization error with the text of the base64 library, which is left out. -/
  | deserializationBase64
  | validation (message : Text)
  deriving DecidableEq, Repr

/-- The key of an item in its table. -/
structure TableKey where
  tableName : Text
  hashKey : AttributeValue
  rangeKey : Option AttributeValue
  deriving DecidableEq

/-- The key of an item in an index, with its key in the table. -/
structure IndexKey where
  tableName : Text
  indexId : Text
  hashKey : AttributeValue
  rangeKey : Option AttributeValue
  tableKey : TableKey
  deriving DecidableEq

/-- The keys of an index with one hash value, whose range values start alike. -/
structure IndexKeyPrefix where
  tableName : Text
  indexId : Text
  hashKey : AttributeValue
  rangeKey : Option AttributeValue
  deriving DecidableEq

/-- A key in the store. -/
inductive ItemKey where
  | table (key : TableKey)
  | index (key : IndexKey)
  | indexPrefix (key : IndexKeyPrefix)
  deriving DecidableEq

/-- `AttributeValueLookup`: the attributes of an item or of a key, by name. -/
abbrev AttributeValueLookup : Type := Text → Option AttributeValue

/-- The loop of `keys_for_schema` over the elements of the schema. -/
def keysForSchemaLoop (item : AttributeValueLookup) (hashKey rangeKey : Option AttributeValue) :
    List KeySchemaElement →
      Except ItemKeyError (Option AttributeValue × Option AttributeValue)
  | [] => pure (hashKey, rangeKey)
  | element :: schema =>
    match item element.attributeName with
    | none => .error (.validation (text "Missing key attribute: " ++ element.attributeName))
    | some value =>
      match element.keyType with
      | .hash => keysForSchemaLoop item (some value) rangeKey schema
      | .range => keysForSchemaLoop item hashKey (some value) schema

/-- The hash and the range value of an item. -/
def keysForSchema (schema : List KeySchemaElement) (item : AttributeValueLookup) :
    Except ItemKeyError (AttributeValue × Option AttributeValue) := do
  let (hashKey, rangeKey) ← keysForSchemaLoop item none none schema
  let hashKey ← okOr (.validation (text "Missing hash key schema")) hashKey
  pure (hashKey, rangeKey)

/-- The key of an item in its table. -/
def TableKey.fromKeySchema (tableName : Text) (schema : List KeySchemaElement)
    (item : AttributeValueLookup) : Except ItemKeyError TableKey := do
  let (hashKey, rangeKey) ← keysForSchema schema item
  pure { tableName, hashKey, rangeKey }

/-- `IndexKey::from_key_schema_for_index`: no key when the index schema is not satisfied. -/
def IndexKey.fromKeySchemaForIndex (tableName : Text) (tableKeySchema : List KeySchemaElement)
    (indexId : Text) (indexKeySchema : List KeySchemaElement) (item : AttributeValueLookup) :
    Except ItemKeyError (Option IndexKey) :=
  match keysForSchema indexKeySchema item with
  | .error _ => pure none
  | .ok (hashKey, rangeKey) => do
      let tableKey ← TableKey.fromKeySchema tableName tableKeySchema item
      pure (some { tableName, indexId, hashKey, rangeKey, tableKey })

/-! ### Key limits -/

/-- `decode_base64_string`: standard base64, with or without padding. -/
def decodeBase64String (input : Text) : Option (List UInt8) :=
  (Base64.decode standardAlphabet true input).or (Base64.decode standardAlphabet false input)

/-- The bytes that a hash value may have. -/
def maxPartitionKeyBytes : ℕ := 2048

/-- The bytes that a range value may have. -/
def maxSortKeyBytes : ℕ := 1024

/-- The message of `validation_kind`. -/
def DynamodbNumberError.validationMessage : DynamodbNumberError → Text
  | .precision => text "Attempting to store more than 38 significant digits in a Number"
  | .underflow => text ("Number underflow. Attempting to store a number with magnitude smaller "
      ++ "than supported range")
  | .overflow => text ("Number overflow. Attempting to store a number with magnitude larger "
      ++ "than supported range")
  | _ => text "The parameter cannot be converted to a numeric value"

/-- `validate_dynamodb_number`, with the error of its callers. -/
def validateDynamodbNumber (value : Text) : Except StorageError Unit :=
  match ParsedDynamodbNumber.parse value with
  | .ok _ => pure ()
  | .error error => .error (.validation error.validationMessage)

/-- The refusal of a value that is no scalar. -/
def keyMustBeScalar : StorageError :=
  .validation (text "Key attributes must be scalar string, number, or binary values")

/-- The bytes of a key value. -/
def keyValueSize : AttributeValue → Except StorageError ℕ
  | .S value | .N value => pure value.bytes.length
  | .B value => do
      let bytes ← okOr (.validationBase64 (text "invalid base64 for DynamoDB binary field: "))
        (decodeBase64String value)
      pure bytes.length
  | _ => .error keyMustBeScalar

/-- The refusal of a key value without bytes. -/
def emptyKeyError (attributeName : Text) : AttributeValue → StorageError
  | .S _ => .validation (text ("One or more parameter values are not valid. The AttributeValue "
      ++ "for a key attribute cannot contain an empty string value. Key: ") ++ attributeName)
  | .B _ => .validation (text ("One or more parameter values are not valid. The AttributeValue "
      ++ "for a key attribute cannot contain an empty binary value. Key: ") ++ attributeName)
  | _ => keyMustBeScalar

/-- The largest size of a key value, by its place in the key. -/
def KeyType.maxBytes : KeyType → ℕ
  | .hash => maxPartitionKeyBytes
  | .range => maxSortKeyBytes

/-- The refusal of a key value that is too large. -/
def KeyType.sizeError : KeyType → StorageError
  | .hash => .validation (text ("One or more parameter values were invalid: Size of hashkey has "
      ++ "exceeded the maximum size limit of2048 bytes"))
  | .range => .validation (text ("One or more parameter values were invalid: Aggregated size of "
      ++ "all range keys has exceeded the size limit of 1024 bytes"))

/-- The check of the number in a key value. -/
def validateKeyNumber : AttributeValue → Except StorageError Unit
  | .N value => validateDynamodbNumber value
  | _ => pure ()

/-- A key value is bounded. -/
def validateKeyValueSize (keyType : KeyType) (attributeName : Text) (value : AttributeValue) :
    Except StorageError Unit := do
  validateKeyNumber value
  let size ← keyValueSize value
  if size = 0 then
    .error (emptyKeyError attributeName value)
  else if keyType.maxBytes < size then
    .error keyType.sizeError
  else
    pure ()

/-- `validate_table_key`. -/
def TableKey.validateDynamodbKey (key : TableKey) : Except StorageError Unit := do
  validateKeyValueSize .hash (text "partition key") key.hashKey
  match key.rangeKey with
  | some rangeKey => validateKeyValueSize .range (text "sort key") rangeKey
  | none => pure ()

/-! ### The sorted suffix -/

/-- `append_attribute_value` and `serialize_attribute_value`. -/
def serializeAttributeValue : AttributeValue → Except ItemKeyError (List UInt8)
  | .S s => pure s.bytes
  | .B encoded => okOr .deserializationBase64 (decodeBase64String encoded)
  | .N n =>
    (do
      let number ← (ParsedDynamodbNumber.parse n).mapError DynamodbNumberError.message
      encodeNumberBytesInto number).mapError fun message => .deserialization (text message)
  | _ => .error (.validation (text "Only S, N, and B types are supported for keys"))

/-- `append_length_prefixed_key`. -/
def lengthPrefixedKey (data : List UInt8) : Except ItemKeyError (List UInt8) :=
  if data.length < 2 ^ 16 then pure (frame data)
  else .error (.validation (text "Composite key exceeds the ordered key format"))

/-- `append_length_prefixed_attribute_value`. -/
def lengthPrefixedAttributeValue (value : AttributeValue) :
    Except ItemKeyError (List UInt8) := do
  let data ← serializeAttributeValue value
  if data.length < 2 ^ 16 then pure (frame data)
  else .error (.validation (text "Key attribute exceeds the ordered key format"))

/-- The framed hash value, and the range value closed in the way of the caller. -/
def serializePartsWith (close : List UInt8 → List UInt8) (hashKey : AttributeValue)
    (rangeKey : Option AttributeValue) : Except ItemKeyError (List UInt8) := do
  let parts ← lengthPrefixedAttributeValue hashKey
  match rangeKey with
  | some rangeKey => do
      let bytes ← serializeAttributeValue rangeKey
      pure (parts ++ close bytes)
  | none => pure parts

/-- `serialize_key_part_values`: the range value ends with the suffix. -/
def serializeKeyPartValues : AttributeValue → Option AttributeValue →
    Except ItemKeyError (List UInt8) :=
  serializePartsWith id

/-- `serialize_index_key_part_values`: each range byte is announced by a one, and a zero
closes the range value. -/
def serializeIndexKeyPartValues : AttributeValue → Option AttributeValue →
    Except ItemKeyError (List UInt8) :=
  serializePartsWith terminated

/-- The bytes of a key in a table. -/
def TableKey.sortedStorageSuffix (key : TableKey) : Except ItemKeyError (List UInt8) :=
  serializeKeyPartValues key.hashKey key.rangeKey

/-- The bytes of a key in an index: its own values, and then the table's. -/
def IndexKey.sortedStorageSuffix (key : IndexKey) : Except ItemKeyError (List UInt8) := do
  let parts ← serializeIndexKeyPartValues key.hashKey key.rangeKey
  let tableKeyBytes ← key.tableKey.sortedStorageSuffix
  let framed ← lengthPrefixedKey tableKeyBytes
  pure (parts ++ framed)

def IndexKeyPrefix.sortedStorageSuffix (key : IndexKeyPrefix) :
    Except ItemKeyError (List UInt8) :=
  serializeIndexKeyPartValues key.hashKey key.rangeKey

/-- `IndexKeyPrefix::sorted_storage_range_prefix`: the suffix without the final zero. -/
def IndexKeyPrefix.sortedStorageRangePrefix (key : IndexKeyPrefix) :
    Except ItemKeyError (List UInt8) := do
  let bytes ← key.sortedStorageSuffix
  pure bytes.dropLast

/-- The bytes under which an item is stored. -/
def ItemKey.sortedStorageSuffix : ItemKey → Except ItemKeyError (List UInt8)
  | .table key => key.sortedStorageSuffix
  | .index key => key.sortedStorageSuffix
  | .indexPrefix key => key.sortedStorageSuffix

def ItemKey.sortedStoragePrefix : ItemKey → Except ItemKeyError (List UInt8)
  | .indexPrefix key =>
    if key.rangeKey.isSome then key.sortedStorageRangePrefix else key.sortedStorageSuffix
  | key => key.sortedStorageSuffix

/-! ### Reading a suffix -/

namespace OrderedKeyDecoder

/-- `length_prefixed`: the value of a frame, and the bytes behind it. -/
def lengthPrefixed (bytes : List UInt8) : Except StorageError (List UInt8 × List UInt8) :=
  if bytes.length < 2 then
    .error (.internal (text "native key length is truncated"))
  else
    okOr (.internal (text "native key value is truncated")) (unframe bytes)

/-- `index_range`: the announced bytes up to the zero, and the bytes behind it. -/
def indexRange (bytes : List UInt8) : Except StorageError (List UInt8 × List UInt8) :=
  okOr (.internal (text "native index range key is truncated or invalid")) (unterminate bytes)

/-- `attribute`: the value of a key field. -/
def attributeOf (table : StoredTableInfo) (field : KeySchemaElement) (bytes : List UInt8) :
    Except StorageError AttributeValue := do
  let kind ← okOr (.internal (text "native key field lacks its attribute definition"))
    (table.declaredType field.attributeName)
  match kind with
  | .S => do
      let value ← okOr (.internal (text "native string key is not UTF-8")) (Text.fromUtf8 bytes)
      pure (.S value)
  | .N => do
      let value ← (decodeDynamodbNumberKeyBytes bytes).mapError fun _ =>
        .internal (text "native number key is invalid")
      pure (.N value)
  | .B => pure (.B (Base64.encode standardAlphabet true bytes))

def tableKey (table : StoredTableInfo) (bytes : List UInt8) : Except StorageError TableKey := do
  let schema := KeySchemaElement.ordered table.keySchema
  let hash ← okOr (.internal (text "native table key lacks a schema")) schema[0]?
  let (hashBytes, bytes) ← lengthPrefixed bytes
  let hashKey ← attributeOf table hash hashBytes
  let rangeKey ← schema[1]?.mapM fun field => attributeOf table field bytes
  if rangeKey.isNone ∧ bytes ≠ [] then
    .error (.internal (text "native table key has trailing bytes"))
  else do
    let key : TableKey := { tableName := table.tableName, hashKey, rangeKey }
    key.validateDynamodbKey
    pure key

def indexKey (table : StoredTableInfo) (name : Text) (bytes : List UInt8) :
    Except StorageError IndexKey := do
  let index ← okOr (.internal (text "native index key lacks a schema")) (table.findIndex name)
  let schema := KeySchemaElement.ordered index.keySchema
  let hash ← okOr (.internal (text "native index key lacks a hash schema")) schema[0]?
  let (hashBytes, bytes) ← lengthPrefixed bytes
  let hashKey ← attributeOf table hash hashBytes
  let (rangeKey, bytes) ← match schema[1]? with
    | some field => do
        let (rangeBytes, bytes) ← indexRange bytes
        let rangeKey ← attributeOf table field rangeBytes
        pure (some rangeKey, bytes)
    | none => pure (none, bytes)
  let (tableBytes, bytes) ← lengthPrefixed bytes
  if bytes ≠ [] then
    .error (.internal (text "native index key has trailing bytes"))
  else do
    let tableKey ← tableKey table tableBytes
    pure { tableName := table.tableName, indexId := name, hashKey, rangeKey, tableKey }

end OrderedKeyDecoder

/-- The key that bytes were stored under. -/
def ItemKey.fromSortedStorageSuffix (table : StoredTableInfo) (index : Option Text)
    (suffix : List UInt8) : Except StorageError ItemKey :=
  match index with
  | some name => do
      let key ← OrderedKeyDecoder.indexKey table name suffix
      pure (.index key)
  | none => do
      let key ← OrderedKeyDecoder.tableKey table suffix
      pure (.table key)

end AuxStorage
