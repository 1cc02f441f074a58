import AuxStorage.DynamodbNumberWrite
import AuxStorage.WireItem
import AuxStorage.Lib.Str
import AuxStorage.StreamName

/-!
# Key Identity

Which item a key addresses is decided in five places: by the suffix that native stores sort by, by
the comparison of stored and requested key attributes, by the canonical JSON that replication uses,
by the bytes that route a write to its lineage, and by the name of the item's stream. They differ in
how much of the spelling of a number or of a binary they keep.
-/

namespace AuxStorage

open Framing List
open AttributeValue (fromJson innerStr keyValue matchesKeyType)
open ParsedDynamodbNumber (parse)

/-! ### Key attributes -/

abbrev KeyAttributes : Type := OrderedMap Text AttributeValue

/-- The refusal of a number in `key_attribute_values_match`. -/
def invalidNumericKey (error : DynamodbNumberError) : StorageError :=
  .validation (text "Invalid numeric key: " ++ text error.message)

def keyAttributeValuesMatch : AttributeValue → AttributeValue → Except StorageError Bool
  | .N left, .N right => do
      let left ← (canonicalDynamodbNumber left).mapError invalidNumericKey
      let right ← (canonicalDynamodbNumber right).mapError invalidNumericKey
      pure (decide (left = right))
  | left, right => pure (decide (left = right))

/-- `ConversionError`, as far as the modelled functions return it. -/
inductive ConversionError where
  | serialization (message : Text)
  deriving DecidableEq, Repr

/-- A value of `CanonicalKeyAttributes`. -/
def canonicalKeyValue : AttributeValue → Except ConversionError AttributeValue
  | .N number => do
      let canonical ← (canonicalDynamodbNumber number).mapError fun error =>
        .serialization (text error.message)
      pure (.N canonical)
  | other => pure other

/-- An entry of `CanonicalKeyAttributes`. -/
def canonicalKeyEntry (entry : Text × AttributeValue) :
    Except ConversionError (Text × AttributeValue) := do
  let value ← canonicalKeyValue entry.2
  pure (entry.1, value)

/-- Entries by name, `sort_unstable_by_key` on the names. -/
def sortedEntries (entries : List (Text × AttributeValue)) : List (Text × AttributeValue) :=
  entries.mergeSort fun a b => (compareUtf8 a.1 b.1).isLE

/-- `CanonicalKeyAttributes::try_from`. -/
def canonicalKeyAttributes (key : KeyAttributes) :
    Except ConversionError (List (Text × AttributeValue)) := do
  let canonical ← key.entries.mapM canonicalKeyEntry
  pure (sortedEntries canonical)

/-- The fields of a JSON object with these attributes. -/
def attributeFields (entries : List (Text × AttributeValue)) : List (Text × Json) :=
  entries.map fun entry => (entry.1, entry.2.toJson)

def canonicalDynamoJson (json : JsonFormat) (key : KeyAttributes) :
    Except ConversionError (List UInt8) := do
  let canonical ← canonicalKeyAttributes key
  pure (json.write (attributeFields canonical))

/-! ### Stored bytes -/

def rawJsonPrefix : List UInt8 := [0xa5, 0x41, 0x55, 0x58, 0x53, 0x4a, 1, 0]

def lz4JsonPrefix : List UInt8 := [0xa5, 0x41, 0x55, 0x58, 0x53, 0x4a, 1, 1]

def shouldKeepCompressed (originalLen compressedLen : ℕ) : Bool :=
  compressedLen + 8 < originalLen && 64 ≤ originalLen - compressedLen
    && compressedLen ≤ originalLen - originalLen / 8

/-- A compression with an exact inverse. -/
structure Compression where
  compress : List UInt8 → List UInt8
  decompress : List UInt8 → Option (List UInt8)
  decompress_compress : ∀ bytes, decompress (compress bytes) = some bytes

/-- `storage_serde::to_bytes`, of a value that is written as this JSON. -/
def storageSerdeToBytes (lz4 : Compression) (jsonBytes : List UInt8) : List UInt8 :=
  if jsonBytes.length ≤ 4 * 1024 then rawJsonPrefix ++ jsonBytes
  else
    let compressed := lz4.compress jsonBytes
    if shouldKeepCompressed jsonBytes.length compressed.length then lz4JsonPrefix ++ compressed
    else rawJsonPrefix ++ jsonBytes

theorem storageSerdeToBytes_cases (lz4 : Compression) (jsonBytes : List UInt8) :
    storageSerdeToBytes lz4 jsonBytes = rawJsonPrefix ++ jsonBytes ∨
      storageSerdeToBytes lz4 jsonBytes = lz4JsonPrefix ++ lz4.compress jsonBytes := by
  simp only [storageSerdeToBytes]
  split_ifs
  · exact .inl rfl
  · exact .inr rfl
  · exact .inl rfl

/-- Different documents are stored differently. -/
theorem storageSerdeToBytes_injective (lz4 : Compression) :
    Function.Injective (storageSerdeToBytes lz4) := by
  have hlength : rawJsonPrefix.length = lz4JsonPrefix.length := rfl
  have hdiffer : rawJsonPrefix ≠ lz4JsonPrefix := by decide
  intro x y h
  rcases storageSerdeToBytes_cases lz4 x with hx | hx <;>
    rcases storageSerdeToBytes_cases lz4 y with hy | hy <;> rw [hx, hy] at h
  · exact append_cancel_left h
  · exact absurd (append_inj_left h hlength) hdiffer
  · exact absurd (append_inj_left h hlength.symm).symm hdiffer
  · have hcompressed := congrArg lz4.decompress (append_cancel_left h)
    rw [lz4.decompress_compress, lz4.decompress_compress] at hcompressed
    exact Option.some.inj hcompressed

/-! ### Routes -/

def normalizeKeyAttributeValueForWrite : AttributeValue → AttributeValue
  | .N number => .N (normalizeDynamodbNumberForWrite number)
  | value => value

def normalizedRouteKey (key : KeyAttributes) : KeyAttributes :=
  OrderedMap.empty.insertAll
    (key.entries.map fun entry => (entry.1, normalizeKeyAttributeValueForWrite entry.2))

/-- `SystemStreamSourceTableName::try_new`, with the error of its caller. -/
def systemStreamSourceTableName (tableName : Text) : Except StorageError Text :=
  if tableName = [] ∨ Str.trim tableName ≠ tableName ∨ 255 < tableName.bytes.length
      ∨ tableName.bytes.all isSanitizedTableNameByte = false then
    .error (.validation (text "SystemStream source table name is invalid"))
  else pure tableName

/-- The key of a route, in the order of the schema. -/
def canonicalKeyRef (keySchema : List KeySchemaElement) (key : AttributeValueLookup) :
    List (Text × Json) :=
  keySchema.filterMap fun element =>
    (key element.attributeName).map fun value => (element.attributeName, value.toJson)

def canonicalRouteKey (json : JsonFormat) (lz4 : Compression) (sourceTableName : Text)
    (keySchema : List KeySchemaElement) (key : AttributeValueLookup) : List UInt8 :=
  storageSerdeToBytes lz4 (json.write
    [(text "source_table_name", .string sourceTableName),
      (text "key", .object (canonicalKeyRef keySchema key))])

structure DynamoMutationRoute where
  key : KeyAttributes
  sourceTableName : Text
  routingKey : List UInt8

def DynamoMutationRoute.tryNew (json : JsonFormat) (lz4 : Compression) (tableName : Text)
    (keySchema : List KeySchemaElement) (key : KeyAttributes) :
    Except StorageError DynamoMutationRoute := do
  let key := normalizedRouteKey key
  let sourceTableName ← systemStreamSourceTableName tableName
  pure ⟨key, sourceTableName, canonicalRouteKey json lz4 sourceTableName keySchema key.get⟩

/-! ### The five identities -/

/-- Both computations succeed, with one result. -/
def SameOutcome {ε α : Type} (x y : Except ε α) : Prop :=
  ∃ result, x = .ok result ∧ y = .ok result

section Identities

variable (table : StoredTableInfo)

/-- The suffix under which the item of a key is stored. -/
def StoredTableInfo.keySuffix (key : KeyAttributes) : Except ItemKeyError (List UInt8) := do
  let tableKey ← TableKey.fromKeySchema table.tableName table.keySchema key.get
  tableKey.sortedStorageSuffix

/-- The name of the stream of the item of a key. -/
def StoredTableInfo.keyStream (uuidV5 : List UInt8 → Text) (key : KeyAttributes) :
    Except ItemKeyError (List UInt8) := do
  let tableKey ← TableKey.fromKeySchema table.tableName table.keySchema key.get
  tableItemStream uuidV5 table.tableName (.table tableKey)

/-- The bytes that route the writes of a key. -/
def StoredTableInfo.keyRoute (json : JsonFormat) (lz4 : Compression) (key : KeyAttributes) :
    Except StorageError (List UInt8) := do
  let route ← DynamoMutationRoute.tryNew json lz4 table.tableName table.keySchema key
  pure route.routingKey

/-- Every component of two keys matches. -/
def StoredTableInfo.KeysMatch (k l : KeyAttributes) : Prop :=
  ∀ element ∈ table.keySchema, ∃ v w, k.get element.attributeName = some v ∧
    l.get element.attributeName = some w ∧ keyAttributeValuesMatch v w = .ok true

/-- The five ways to tell whether two keys are one. -/
def StoredTableInfo.keyIdentities (json : JsonFormat) (lz4 : Compression)
    (uuidV5 : List UInt8 → Text) (k l : KeyAttributes) : List Prop :=
  [SameOutcome (table.keySuffix k) (table.keySuffix l), table.KeysMatch k l,
    SameOutcome (canonicalDynamoJson json k) (canonicalDynamoJson json l),
    SameOutcome (table.keyRoute json lz4 k) (table.keyRoute json lz4 l),
    SameOutcome (table.keyStream uuidV5 k) (table.keyStream uuidV5 l)]

/-- A key of a table: valid attributes for the schema, and no others. -/
structure ValidKey (key : KeyAttributes) : Prop where
  attributes : ValidKeyAttributes table table.keySchema key.get
  exact : ∀ name value, key.get name = some value →
    ∃ element ∈ table.keySchema, element.attributeName = name

end Identities

/-! ### Components -/

section Components

variable {table : StoredTableInfo} {keyType : KeyType} {name : Text} {v w : AttributeValue}

theorem keyValue_eq_of_decimalValue {a b : Text} {l r : ParsedDynamodbNumber}
    (ha : parse a = .ok l) (hb : parse b = .ok r)
    (h : decimalValue a.bytes = decimalValue b.bytes) :
    (AttributeValue.N a).keyValue = (AttributeValue.N b).keyValue := by
  simp [keyValue, ha, hb, Except.toOption, h]

theorem canonicalKeyValue_number {a : Text} {l : ParsedDynamodbNumber} (ha : parse a = .ok l) :
    ∃ s, canonicalDynamodbNumber a = .ok s ∧ canonicalKeyValue (.N a) = .ok (.N s) := by
  obtain ⟨s, hs, -⟩ := canonicalDynamodbNumber_of_parse ha
  exact ⟨s, hs, by rw [canonicalKeyValue, hs]; rfl⟩

/-- Scalars with one JSON form are equal. -/
theorem eq_of_toJson_eq {s t : Text} (hv : v.innerStr = some s) (hw : w.innerStr = some t)
    (h : v.toJson = w.toJson) : v = w := by
  have hread {u : AttributeValue} {s : Text} (hu : u.innerStr = some s) :
      fromJson u.toJson = some u := by
    cases u <;> first | rfl | cases hu
  exact Option.some.inj ((hread hv).symm.trans ((congrArg _ h).trans (hread hw)))

/-- The text of a base64 string is at most sixteen times as long as its bytes. -/
theorem length_of_decodeBase64String {encoded : Text} {bytes : List UInt8}
    (h : decodeBase64String encoded = some bytes) : encoded.bytes.length ≤ 16 * bytes.length := by
  have hutf8 (text : Text) : text.bytes.length ≤ 4 * text.length := by
    induction text with
    | nil => simp [Text.bytes]
    | cons c text ih =>
      have hc := c.utf8Size_le_four
      rw [Text.bytes_cons, length_append, length_cons, String.length_utf8EncodeChar]
      omega
  have hencode (pad : Bool) (bytes : List UInt8) :
      (Base64.encode standardAlphabet pad bytes).length ≤ 4 * bytes.length := by
    induction bytes using Base64.encode.induct with
    | case1 => simp [Base64.encode]
    | case2 a => cases pad <;> simp [Base64.encode, Base64.writeOne]
    | case3 a b => cases pad <;> simp [Base64.encode, Base64.writeTwo]
    | case4 a b c rest ih =>
      simp only [Base64.encode, Base64.writeThree, length_append, length_cons, length_nil]
      omega
  have htext : encoded.length ≤ 4 * bytes.length := by
    rw [decodeBase64String, Option.or_eq_some_iff] at h
    rcases h with h | ⟨-, h⟩
    · rw [Base64.decode_eq_some.mp h]
      exact hencode true bytes
    · rw [Base64.decode_eq_some.mp h]
      exact hencode false bytes
  have := hutf8 encoded
  omega

section Valid

variable (hv : ValidKeyValue table keyType name v) (hw : ValidKeyValue table keyType name w)

include hv hw

/-- Two valid values of an attribute are texts, numbers or binaries, both of them. -/
theorem ValidKeyValue.pair_cases :
    (∃ s t, v = .S s ∧ w = .S t) ∨
      (∃ a b l r, v = .N a ∧ w = .N b ∧ parse a = .ok l ∧ parse b = .ok r) ∨
      ∃ x y, v = .B x ∧ w = .B y := by
  obtain ⟨type, hdeclared, hvtype, hvsize⟩ := hv
  obtain ⟨type', hdeclared', hwtype, hwsize⟩ := hw
  obtain rfl : type = type' := Option.some.inj (hdeclared.symm.trans hdeclared')
  have hvnumber := (validateKeyValueSize_eq_ok.mp hvsize).1
  have hwnumber := (validateKeyValueSize_eq_ok.mp hwsize).1
  cases type with
  | S =>
    cases v <;> cases w <;> simp only [matchesKeyType, reduceCtorEq] at hvtype hwtype
    exact .inl ⟨_, _, rfl, rfl⟩
  | N =>
    cases v <;> cases w <;> simp only [matchesKeyType, reduceCtorEq] at hvtype hwtype
    obtain ⟨l, hl⟩ := hvnumber _ rfl
    obtain ⟨r, hr⟩ := hwnumber _ rfl
    exact .inr (.inl ⟨_, _, l, r, rfl, rfl, hl, hr⟩)
  | B =>
    cases v <;> cases w <;> simp only [matchesKeyType, reduceCtorEq] at hvtype hwtype
    exact .inr (.inr ⟨_, _, rfl, rfl⟩)

theorem ValidKeyValue.keyValue_eq_of_canonical {canonical : AttributeValue}
    (hcv : canonicalKeyValue v = .ok canonical) (hcw : canonicalKeyValue w = .ok canonical) :
    v.keyValue = w.keyValue := by
  rcases hv.pair_cases hw with ⟨s, t, rfl, rfl⟩ | ⟨a, b, l, r, rfl, rfl, ha, hb⟩ | ⟨x, y, rfl, rfl⟩
  · rw [Except.ok.inj (hcv.trans hcw.symm)]
  · obtain ⟨s, hs, hcs⟩ := canonicalKeyValue_number ha
    obtain ⟨t, ht, hct⟩ := canonicalKeyValue_number hb
    have heq := hcs.symm.trans (hcv.trans (hcw.symm.trans hct))
    refine keyValue_eq_of_decimalValue ha hb ((canonicalDynamodbNumber_eq_iff ha hb).mp ?_)
    rw [hs, ht, AttributeValue.N.inj (Except.ok.inj heq)]
  · rw [Except.ok.inj (hcv.trans hcw.symm)]

theorem ValidKeyValue.keyValue_eq_of_match (h : keyAttributeValuesMatch v w = .ok true) :
    v.keyValue = w.keyValue := by
  rcases hv.pair_cases hw with ⟨s, t, rfl, rfl⟩ | ⟨a, b, l, r, rfl, rfl, ha, hb⟩ | ⟨x, y, rfl, rfl⟩
  · rw [of_decide_eq_true (Except.ok.inj h)]
  · obtain ⟨s, hs, -⟩ := canonicalKeyValue_number ha
    obtain ⟨t, ht, -⟩ := canonicalKeyValue_number hb
    rw [keyAttributeValuesMatch, hs, ht] at h
    refine keyValue_eq_of_decimalValue ha hb ((canonicalDynamodbNumber_eq_iff ha hb).mp ?_)
    rw [hs, ht, of_decide_eq_true (Except.ok.inj h)]
  · rw [of_decide_eq_true (Except.ok.inj h)]

theorem ValidKeyValue.keyValue_eq_of_normalize
    (h : normalizeKeyAttributeValueForWrite v = normalizeKeyAttributeValueForWrite w) :
    v.keyValue = w.keyValue := by
  rcases hv.pair_cases hw with ⟨s, t, rfl, rfl⟩ | ⟨a, b, l, r, rfl, rfl, ha, hb⟩ | ⟨x, y, rfl, rfl⟩
  · exact congrArg _ h
  · have htexts : normalizeDynamodbNumberForWrite a = normalizeDynamodbNumberForWrite b :=
      AttributeValue.N.inj h
    refine keyValue_eq_of_decimalValue ha hb ?_
    rw [← decimalValue_normalizeDynamodbNumberForWrite ha, htexts,
      decimalValue_normalizeDynamodbNumberForWrite hb]
  · exact congrArg _ h

/-- Values of one text are equal. -/
theorem ValidKeyValue.eq_of_innerStr (h : v.innerStr = w.innerStr) : v = w := by
  rcases hv.pair_cases hw with ⟨s, t, rfl, rfl⟩ | ⟨a, b, l, r, rfl, rfl, -, -⟩ | ⟨x, y, rfl, rfl⟩ <;>
    rw [Option.some.inj h]

omit hw

theorem ValidKeyValue.match_self : keyAttributeValuesMatch v v = .ok true := by
  rcases hv.pair_cases hv with ⟨s, t, rfl, -⟩ | ⟨a, b, l, r, rfl, -, ha, -⟩ | ⟨x, y, rfl, -⟩
  · exact congrArg _ (decide_eq_true rfl)
  · obtain ⟨s, hs, -⟩ := canonicalKeyValue_number ha
    rw [keyAttributeValuesMatch, hs]
    exact congrArg _ (decide_eq_true rfl)
  · exact congrArg _ (decide_eq_true rfl)

theorem ValidKeyValue.exists_canonical :
    ∃ canonical s, canonicalKeyValue v = .ok canonical ∧ canonical.innerStr = some s := by
  rcases hv.pair_cases hv with ⟨s, t, rfl, -⟩ | ⟨a, b, l, r, rfl, -, ha, -⟩ | ⟨x, y, rfl, -⟩
  · exact ⟨_, s, rfl, rfl⟩
  · obtain ⟨s, -, hs⟩ := canonicalKeyValue_number ha
    exact ⟨_, s, hs, rfl⟩
  · exact ⟨_, x, rfl, rfl⟩

theorem ValidKeyValue.exists_innerStr : ∃ s, v.innerStr = some s ∧ FitsFrame s := by
  have hsize := hv.choose_spec.2.2
  obtain ⟨-, size, hsize, -, hmax⟩ := validateKeyValueSize_eq_ok.mp hsize
  have hmax : size ≤ 2048 := hmax.trans (by cases keyType <;> decide)
  rcases hv.pair_cases hv with ⟨s, t, rfl, -⟩ | ⟨a, b, l, r, rfl, -, -, -⟩ | ⟨x, y, rfl, -⟩
  · have : s.bytes.length = size := Except.ok.inj hsize
    exact ⟨s, rfl, by unfold FitsFrame; omega⟩
  · have : a.bytes.length = size := Except.ok.inj hsize
    exact ⟨a, rfl, by unfold FitsFrame; omega⟩
  · obtain ⟨bytes, hbytes, hlength⟩ := Except.bind_eq_ok.mp hsize
    have : bytes.length = size := Except.ok.inj hlength
    have := length_of_decodeBase64String (okOr_eq_ok.mp hbytes)
    exact ⟨x, rfl, by unfold FitsFrame; omega⟩

end Valid

end Components

/-! ### Whole keys -/

section Keys

variable {table : StoredTableInfo} {k l : KeyAttributes}

/-- The values of a valid key. -/
theorem ValidKey.exists_tableKey (hk : ValidKey table k) (shape : KeySchemaShape table.keySchema) :
    ∃ hashKey rangeKey, k.get shape.hash = some hashKey ∧
      shape.range.map k.get = rangeKey.map some ∧
      TableKey.fromKeySchema table.tableName table.keySchema k.get
        = .ok ⟨table.tableName, hashKey, rangeKey⟩ ∧
      ValidKeyValue table .hash shape.hash hashKey ∧ ValidRange table shape.range rangeKey := by
  obtain ⟨hashKey, hhash, hvalid⟩ := hk.attributes _ shape.hash_mem
  have hkeys {rangeKey : Option AttributeValue} (hrange : shape.range.map k.get = rangeKey.map some) :
      TableKey.fromKeySchema table.tableName table.keySchema k.get
        = .ok ⟨table.tableName, hashKey, rangeKey⟩ := by
    rw [TableKey.fromKeySchema, shape.keysForSchema_eq hhash hrange]
    rfl
  cases hname : shape.range with
  | none =>
    rw [hname] at hkeys
    exact ⟨hashKey, none, hhash, rfl, hkeys rfl, hvalid, trivial⟩
  | some name =>
    obtain ⟨rangeKey, hrange, hrangeValid⟩ := hk.attributes _ (shape.range_mem hname)
    rw [hname] at hkeys
    exact ⟨hashKey, some rangeKey, hhash, congrArg some hrange, hkeys (congrArg some hrange),
      hvalid, hrangeValid⟩

theorem ValidKey.exists_values (hk : ValidKey table k) (hl : ValidKey table l)
    {element : KeySchemaElement} (helement : element ∈ table.keySchema) :
    ∃ v w, k.get element.attributeName = some v ∧ l.get element.attributeName = some w ∧
      ValidKeyValue table element.keyType element.attributeName v ∧
      ValidKeyValue table element.keyType element.attributeName w := by
  obtain ⟨v, hv, hvalid⟩ := hk.attributes element helement
  obtain ⟨w, hw, hvalid'⟩ := hl.attributes element helement
  exact ⟨v, w, hv, hw, hvalid, hvalid'⟩

/-- Two keys denote the same values. -/
def SameKeyValues (table : StoredTableInfo) (k l : KeyAttributes) : Prop :=
  ∀ element ∈ table.keySchema, ∀ v w, k.get element.attributeName = some v →
    l.get element.attributeName = some w → v.keyValue = w.keyValue

/-- **Keys that denote the same values are stored as one item.** -/
theorem SameKeyValues.sameSuffix (hk : ValidKey table k) (hl : ValidKey table l)
    (shape : KeySchemaShape table.keySchema) (h : SameKeyValues table k l) :
    SameOutcome (table.keySuffix k) (table.keySuffix l) := by
  obtain ⟨kh, kr, hkh, hkr, hktable, hkvalid, hkrange⟩ := hk.exists_tableKey shape
  obtain ⟨lh, lr, hlh, hlr, hltable, -, -⟩ := hl.exists_tableKey shape
  have hhash : kh.keyValue = lh.keyValue := h _ shape.hash_mem _ _ hkh hlh
  have hparts : keyParts kh kr = keyParts lh lr := by
    cases hname : shape.range with
    | none =>
      rw [hname] at hkr hlr
      obtain rfl : kr = none := by simpa using hkr.symm
      obtain rfl : lr = none := by simpa using hlr.symm
      rw [keyParts, keyParts, hhash]
    | some name =>
      rw [hname] at hkr hlr
      obtain ⟨v, rfl, hv⟩ : ∃ v, kr = some v ∧ k.get name = some v := by
        cases kr <;> simp_all
      obtain ⟨w, rfl, hw⟩ : ∃ w, lr = some w ∧ l.get name = some w := by
        cases lr <;> simp_all
      rw [keyParts, keyParts, hhash, h _ (shape.range_mem hname) _ _ hv hw]
  obtain ⟨parts, data, tail, hpartsEq, hdata, hlength, htail, -⟩ :=
    exists_written_parts hkvalid hkrange id
  have hwritten : parts.Written id (frame data ++ tail) :=
    ⟨data, tail, hdata, lt_of_le_of_lt hlength (by decide), htail, rfl⟩
  refine ⟨frame data ++ tail, ?_, ?_⟩
  · rw [StoredTableInfo.keySuffix, hktable]
    exact serializePartsWith_eq_ok.mpr ⟨parts, hpartsEq, hwritten⟩
  · rw [StoredTableInfo.keySuffix, hltable]
    exact serializePartsWith_eq_ok.mpr ⟨parts, hparts ▸ hpartsEq, hwritten⟩

/-- A key value has the type of its attribute. -/
theorem type_of_keyValue {value : AttributeValue} {denoted : KeyValue} {type : KeyAttributeType}
    (h : value.keyValue = some denoted) (htype : value.matchesKeyType type = true) :
    denoted.type = type := by
  cases value <;> cases type <;>
    simp only [AttributeValue.matchesKeyType, AttributeValue.keyValue, Option.map_eq_some_iff,
      Option.some.injEq, reduceCtorEq, Bool.false_eq_true] at h htype
  case S.S => exact h ▸ rfl
  case N.N =>
    obtain ⟨-, -, rfl⟩ := h
    rfl
  case B.B =>
    obtain ⟨-, -, rfl⟩ := h
    rfl

/-- Valid values of one attribute that are written alike are equal. -/
theorem ValidKeyValue.eq_of_written {keyType : KeyType} {name : Text} {v w : AttributeValue}
    {x y : KeyValue} {data : List UInt8} (hv : ValidKeyValue table keyType name v)
    (hw : ValidKeyValue table keyType name w) (hx : v.keyValue = some x)
    (hy : w.keyValue = some y) (hdx : x.Written data) (hdy : y.Written data) : x = y := by
  obtain ⟨type, hdeclared, hmatches, -⟩ := hv
  obtain ⟨type', hdeclared', hmatches', -⟩ := hw
  obtain rfl := Option.some.inj (hdeclared.symm.trans hdeclared')
  exact (hdx.inj hdy ((type_of_keyValue hx hmatches).trans
    (type_of_keyValue hy hmatches').symm)).mp rfl

/-- **Keys that are stored as one item denote the same values.** -/
theorem sameKeyValues_of_sameSuffix (hk : ValidKey table k) (hl : ValidKey table l)
    (shape : KeySchemaShape table.keySchema)
    (h : SameOutcome (table.keySuffix k) (table.keySuffix l)) : SameKeyValues table k l := by
  obtain ⟨kh, kr, hkh, hkr, hktable, hkvalid, hkrange⟩ := hk.exists_tableKey shape
  obtain ⟨lh, lr, hlh, hlr, hltable, hlvalid, hlrange⟩ := hl.exists_tableKey shape
  obtain ⟨bytes, hkbytes, hlbytes⟩ := h
  rw [StoredTableInfo.keySuffix, hktable] at hkbytes
  rw [StoredTableInfo.keySuffix, hltable] at hlbytes
  obtain ⟨p, hp, data, tail, hdata, hlength, htail, rfl⟩ := serializePartsWith_eq_ok.mp hkbytes
  obtain ⟨q, hq, data', tail', hdata', hlength', htail', heq⟩ :=
    serializePartsWith_eq_ok.mp hlbytes
  obtain ⟨rfl, rfl⟩ := (frame_append_inj hlength hlength').mp heq
  obtain ⟨hphash, hprange⟩ := keyParts_eq_some.mp hp
  obtain ⟨hqhash, hqrange⟩ := keyParts_eq_some.mp hq
  intro element helement v w hv hw
  rcases mem_cons.mp (shape.perm.mem_iff.mp helement) with rfl | hmem
  · cases hv.symm.trans hkh
    cases hw.symm.trans hlh
    rw [hphash, hqhash, hkvalid.eq_of_written hlvalid hphash hqhash hdata hdata']
  · obtain ⟨name, hname, rfl⟩ := mem_map.mp hmem
    rw [Option.mem_toList.mp hname] at hkr hlr hkrange hlrange
    obtain rfl : kr = some v := by
      rw [Option.map_some, hv] at hkr
      cases kr <;> simp_all
    obtain rfl : lr = some w := by
      rw [Option.map_some, hw] at hlr
      cases lr <;> simp_all
    obtain ⟨x, hx⟩ : ∃ x, p.range = some x := by
      cases hrange : p.range <;> simp_all
    obtain ⟨y, hy⟩ : ∃ y, q.range = some y := by
      cases hrange : q.range <;> simp_all
    rw [hx] at hprange htail
    rw [hy] at hqrange htail'
    obtain ⟨written, hwritten, htail⟩ := htail
    obtain ⟨written', hwritten', htail'⟩ := htail'
    obtain rfl : written = written' := htail.symm.trans htail'
    have hvx : v.keyValue = some x := Option.some.inj hprange
    have hwy : w.keyValue = some y := Option.some.inj hqrange
    rw [hvx, hwy, hkrange.eq_of_written hlrange hvx hwy hwritten hwritten']

theorem sameKeyValues_of_keysMatch (hk : ValidKey table k) (hl : ValidKey table l)
    (h : table.KeysMatch k l) : SameKeyValues table k l := by
  intro element helement v w hv hw
  obtain ⟨v', w', hv', hw', hmatch⟩ := h element helement
  cases hv.symm.trans hv'
  cases hw.symm.trans hw'
  obtain ⟨v', w', hv', hw', hvalid, hvalid'⟩ := hk.exists_values hl helement
  cases hv.symm.trans hv'
  cases hw.symm.trans hw'
  exact hvalid.keyValue_eq_of_match hvalid' hmatch

/-! #### Canonical JSON -/

theorem canonicalKeyAttributes_eq_ok {canonical : List (Text × AttributeValue)} :
    canonicalKeyAttributes k = .ok canonical ↔
      ∃ entries, List.Forall₂ (fun a b => canonicalKeyEntry a = .ok b) k.entries entries ∧
        canonical = sortedEntries entries := by
  rw [canonicalKeyAttributes, Except.bind_eq_ok]
  simp only [Except.mapM_eq_ok]
  constructor
  · rintro ⟨entries, hentries, h⟩
    exact ⟨entries, hentries, (Except.ok.inj h).symm⟩
  · rintro ⟨entries, hentries, rfl⟩
    exact ⟨entries, hentries, rfl⟩

theorem canonicalKeyEntry_eq_ok {a b : Text × AttributeValue} :
    canonicalKeyEntry a = .ok b ↔ b.1 = a.1 ∧ canonicalKeyValue a.2 = .ok b.2 := by
  rw [canonicalKeyEntry, Except.bind_eq_ok]
  constructor
  · rintro ⟨value, hvalue, h⟩
    cases h
    exact ⟨rfl, hvalue⟩
  · rintro ⟨hname, hvalue⟩
    exact ⟨b.2, hvalue, congrArg Except.ok (Prod.ext hname.symm rfl)⟩

variable {entry : Text × AttributeValue}

theorem ValidKey.valid_of_mem (hk : ValidKey table k) (hentry : entry ∈ k.entries) :
    ∃ keyType, ValidKeyValue table keyType entry.1 entry.2 := by
  have hget : k.get entry.1 = some entry.2 := k.get_eq_some_iff.mpr hentry
  obtain ⟨element, helement, hname⟩ := hk.exact _ _ hget
  obtain ⟨v, hv, hvalid⟩ := hk.attributes element helement
  rw [hname] at hv hvalid
  cases hget.symm.trans hv
  exact ⟨element.keyType, hvalid⟩

theorem ValidKey.exists_canonical (hk : ValidKey table k) :
    ∃ entries, List.Forall₂ (fun a b => canonicalKeyEntry a = .ok b) k.entries entries := by
  refine exists_forall₂ fun entry hentry => ?_
  obtain ⟨keyType, hvalid⟩ := hk.valid_of_mem hentry
  obtain ⟨canonical, -, hcanonical, -⟩ := hvalid.exists_canonical
  exact ⟨(entry.1, canonical), canonicalKeyEntry_eq_ok.mpr ⟨rfl, hcanonical⟩⟩

theorem mem_sortedEntries {entries : List (Text × AttributeValue)} :
    entry ∈ sortedEntries entries ↔ entry ∈ entries :=
  (mergeSort_perm entries _).mem_iff

variable {as bs : List (Text × AttributeValue)}

/-- Entries under different names are sorted in one way. -/
theorem sortedEntries_eq_of_perm (hnodup : (as.map Prod.fst).Nodup) (hperm : as.Perm bs) :
    sortedEntries as = sortedEntries bs := by
  have hsorted (list : List (Text × AttributeValue)) :
      (sortedEntries list).Pairwise fun a b => (compareUtf8 a.1 b.1).isLE = true := by
    refine pairwise_mergeSort (fun a b c hab hbc => ?_) (fun a b => ?_) list
    · change (List.compareLex compare a.1.bytes b.1.bytes).isLE = true at hab
      change (List.compareLex compare b.1.bytes c.1.bytes).isLE = true at hbc
      change (List.compareLex compare a.1.bytes c.1.bytes).isLE = true
      exact Std.TransCmp.isLE_trans hab hbc
    · have hswap : List.compareLex compare b.1.bytes a.1.bytes
          = (List.compareLex compare a.1.bytes b.1.bytes).swap := Std.OrientedCmp.eq_swap
      rw [compareUtf8, compareUtf8, hswap]
      cases List.compareLex compare a.1.bytes b.1.bytes <;> rfl
  have hsortedPerm : (sortedEntries as).Perm (sortedEntries bs) :=
    (mergeSort_perm as _).trans (hperm.trans (mergeSort_perm bs _).symm)
  refine hsortedPerm.eq_of_pairwise (fun a b ha hb hab hba => ?_) (hsorted as) (hsorted bs)
  have hname : a.1 = b.1 := by
    change (List.compareLex compare a.1.bytes b.1.bytes).isLE = true at hab
    change (List.compareLex compare b.1.bytes a.1.bytes).isLE = true at hba
    have heq := Std.OrientedCmp.isLE_antisymm hab hba
    exact Text.bytes_injective (Std.LawfulEqCmp.eq_of_compare heq)
  have ha' : a ∈ as := mem_sortedEntries.mp ha
  have hb' : b ∈ as := hperm.mem_iff.mpr (mem_sortedEntries.mp hb)
  exact inj_on_of_nodup_map hnodup ha' hb' hname

variable {json : JsonFormat}

/-- Keys with the same canonical JSON denote the same values. -/
theorem sameKeyValues_of_canonicalDynamoJson (hk : ValidKey table k) (hl : ValidKey table l)
    (h : SameOutcome (canonicalDynamoJson json k) (canonicalDynamoJson json l)) :
    SameKeyValues table k l := by
  obtain ⟨bytes, hkjson, hljson⟩ := h
  obtain ⟨ck, hck, hkjson⟩ := Except.bind_eq_ok.mp hkjson
  obtain ⟨cl, hcl, hljson⟩ := Except.bind_eq_ok.mp hljson
  have hfields : attributeFields ck = attributeFields cl := by
    have hscan := congrArg json.scan
      ((Except.ok.inj hkjson).trans (Except.ok.inj hljson).symm)
    rw [json.scan_write, json.scan_write] at hscan
    exact congrArg Json.Scan.fields hscan
  obtain ⟨ek, hek, rfl⟩ := canonicalKeyAttributes_eq_ok.mp hck
  obtain ⟨el, hel, rfl⟩ := canonicalKeyAttributes_eq_ok.mp hcl
  intro element helement v w hv hw
  obtain ⟨v', w', hv', hw', hvalid, hvalid'⟩ := hk.exists_values hl helement
  cases hv.symm.trans hv'
  cases hw.symm.trans hw'
  -- The field of the name is one of both documents.
  obtain ⟨b, hb, hbentry⟩ := exists_of_mem_forall₂ hek (k.get_eq_some_iff.mp hv)
  obtain ⟨hbname, hbvalue⟩ : b.1 = element.attributeName ∧ canonicalKeyValue v = .ok b.2 :=
    canonicalKeyEntry_eq_ok.mp hbentry
  have hfield : (b.1, b.2.toJson) ∈ attributeFields (sortedEntries el) := by
    rw [← hfields]
    exact mem_map.mpr ⟨b, mem_sortedEntries.mpr hb, rfl⟩
  obtain ⟨c, hc, hcfield⟩ := mem_map.mp hfield
  obtain ⟨hcname, hcjson⟩ := Prod.mk.inj hcfield
  obtain ⟨e, he, hentry⟩ := exists_of_mem_forall₂ hel.flip (mem_sortedEntries.mp hc)
  obtain ⟨hename, hevalue⟩ := canonicalKeyEntry_eq_ok.mp hentry
  have hget : l.get element.attributeName = some e.2 := by
    rw [l.get_eq_some_iff, ← hbname, ← hcname, hename]
    exact he
  cases hw.symm.trans hget
  obtain ⟨canonical, s, hcanonical, hs⟩ := hvalid.exists_canonical
  obtain ⟨canonical', t, hcanonical', ht⟩ := hvalid'.exists_canonical
  cases hcanonical.symm.trans hbvalue
  cases hcanonical'.symm.trans hevalue
  rw [eq_of_toJson_eq ht hs hcjson] at hevalue
  exact hvalid.keyValue_eq_of_canonical hvalid' hbvalue hevalue

theorem map_fst_of_canonical (h : List.Forall₂ (fun a b => canonicalKeyEntry a = .ok b) as bs) :
    bs.map Prod.fst = as.map Prod.fst := by
  induction h with
  | nil => rfl
  | cons hab _ ih => rw [map_cons, map_cons, (canonicalKeyEntry_eq_ok.mp hab).1, ih]

theorem sameCanonicalDynamoJson (hk : ValidKey table k) (h : ∀ name, k.get name = l.get name) :
    SameOutcome (canonicalDynamoJson json k) (canonicalDynamoJson json l) := by
  obtain ⟨entries, hentries⟩ := hk.exists_canonical
  obtain ⟨entries', hentries', hperm⟩ :=
    perm_comp_forall₂ (OrderedMap.perm_of_get_eq h).symm hentries
  have hsorted : sortedEntries entries = sortedEntries entries' :=
    sortedEntries_eq_of_perm (map_fst_of_canonical hentries ▸ k.nodup) hperm.symm
  have hok {key : KeyAttributes} {list : List (Text × AttributeValue)}
      (hlist : List.Forall₂ (fun a b => canonicalKeyEntry a = .ok b) key.entries list) :
      canonicalDynamoJson json key = .ok (json.write (attributeFields (sortedEntries list))) := by
    rw [canonicalDynamoJson, canonicalKeyAttributes_eq_ok.mpr ⟨list, hlist, rfl⟩]
    rfl
  exact ⟨_, hok hentries, hsorted ▸ hok hentries'⟩

/-! #### Routes -/

/-- The normalized key has the normalized values. -/
theorem get_normalizedRouteKey (k : KeyAttributes) (name : Text) :
    (normalizedRouteKey k).get name = (k.get name).map normalizeKeyAttributeValueForWrite := by
  have hnames : (k.entries.map fun entry =>
      (entry.1, normalizeKeyAttributeValueForWrite entry.2)).map Prod.fst
        = k.entries.map Prod.fst := by
    rw [map_map]
    rfl
  have hentries : (normalizedRouteKey k).entries
      = k.entries.map fun entry => (entry.1, normalizeKeyAttributeValueForWrite entry.2) := by
    rw [normalizedRouteKey, OrderedMap.entries_insertAll_of_nodup]
    · rfl
    · change (([] ++ _ : List (Text × AttributeValue)).map Prod.fst).Nodup
      rw [nil_append, hnames]
      exact k.nodup
  cases hget : k.get name with
  | none =>
    rw [Option.map_none, OrderedMap.get_eq_none_iff, hentries, hnames]
    exact k.get_eq_none_iff.mp hget
  | some v =>
    rw [Option.map_some, OrderedMap.get_eq_some_iff, hentries]
    exact mem_map.mpr ⟨(name, v), k.get_eq_some_iff.mp hget, rfl⟩

variable {lz4 : Compression}

theorem keyRoute_eq (hname : systemStreamSourceTableName table.tableName = .ok table.tableName) :
    table.keyRoute json lz4 k = .ok (canonicalRouteKey json lz4 table.tableName table.keySchema
      (normalizedRouteKey k).get) := by
  rw [StoredTableInfo.keyRoute, DynamoMutationRoute.tryNew, hname]
  rfl

/-- Keys with the same routing bytes denote the same values. -/
theorem sameKeyValues_of_keyRoute (hk : ValidKey table k) (hl : ValidKey table l)
    (hname : systemStreamSourceTableName table.tableName = .ok table.tableName)
    (h : SameOutcome (table.keyRoute json lz4 k) (table.keyRoute json lz4 l)) :
    SameKeyValues table k l := by
  obtain ⟨bytes, hkroute, hlroute⟩ := h
  rw [keyRoute_eq hname] at hkroute hlroute
  have hjson := storageSerdeToBytes_injective lz4
    ((Except.ok.inj hkroute).trans (Except.ok.inj hlroute).symm)
  have hscan := congrArg json.scan hjson
  rw [json.scan_write, json.scan_write] at hscan
  have hfields : canonicalKeyRef table.keySchema (normalizedRouteKey k).get
      = canonicalKeyRef table.keySchema (normalizedRouteKey l).get := by
    simpa using congrArg Json.Scan.fields hscan
  -- Every element of the schema has a value, so the fields are those of the schema, in its order.
  have hvalues {key : KeyAttributes} (hkey : ValidKey table key) :
      canonicalKeyRef table.keySchema (normalizedRouteKey key).get
        = table.keySchema.map fun element => (element.attributeName,
          (((normalizedRouteKey key).get element.attributeName).getD (.NULL true)).toJson) := by
    rw [canonicalKeyRef, ← filterMap_eq_map]
    refine filterMap_congr fun element helement => ?_
    obtain ⟨v, hv, -⟩ := hkey.attributes element helement
    have hget : (normalizedRouteKey key).get element.attributeName
        = some (normalizeKeyAttributeValueForWrite v) := by
      rw [get_normalizedRouteKey, hv]
      rfl
    rw [Function.comp_apply, hget]
    rfl
  rw [hvalues hk, hvalues hl, map_inj_left] at hfields
  intro element helement v w hv hw
  obtain ⟨v', w', hv', hw', hvalid, hvalid'⟩ := hk.exists_values hl helement
  cases hv.symm.trans hv'
  cases hw.symm.trans hw'
  have hfield := (Prod.mk.inj (hfields element helement)).2
  rw [get_normalizedRouteKey, get_normalizedRouteKey, hv, hw] at hfield
  have hscalar {u : AttributeValue}
      (hu : ValidKeyValue table element.keyType element.attributeName u) :
      ∃ s, (normalizeKeyAttributeValueForWrite u).innerStr = some s := by
    rcases hu.pair_cases hu with ⟨s, t, rfl, -⟩ | ⟨a, b, x, y, rfl, -, -, -⟩ | ⟨x, y, rfl, -⟩ <;>
      exact ⟨_, rfl⟩
  obtain ⟨s, hs⟩ := hscalar hvalid
  obtain ⟨t, ht⟩ := hscalar hvalid'
  exact hvalid.keyValue_eq_of_normalize hvalid' (eq_of_toJson_eq hs ht hfield)

/-! #### Streams -/

/-- The texts of a valid key, in frames. -/
def StoredTableInfo.keyPart (table : StoredTableInfo) (key : KeyAttributes) :
    Except ItemKeyError (List UInt8) := do
  let tableKey ← TableKey.fromKeySchema table.tableName table.keySchema key.get
  (ItemKey.table tableKey).hashRangeKeyPart

/-- The texts of the values of a valid key. -/
theorem ValidKey.exists_texts (hk : ValidKey table k) (shape : KeySchemaShape table.keySchema) :
    ∃ hash range, (k.get shape.hash).bind innerStr = some hash ∧
      (shape.range.map fun name => (k.get name).bind innerStr) = range.map some ∧
      FitsFrame hash ∧ (∀ text ∈ range, FitsFrame text) ∧
      table.keyPart k = .ok (framedTexts hash range) := by
  obtain ⟨kh, kr, hkh, hkr, htable, hvalid, hrange⟩ := hk.exists_tableKey shape
  obtain ⟨hash, hhash, hfits⟩ := hvalid.exists_innerStr
  have hpart {range : Option Text} (htexts : kr.map innerStr = range.map some)
      (hfitsRange : ∀ text ∈ range, FitsFrame text) :
      table.keyPart k = .ok (framedTexts hash range) := by
    rw [StoredTableInfo.keyPart, htable]
    exact hashRangeKeyPart_table hhash htexts hfits hfitsRange
  cases hname : shape.range with
  | none =>
    rw [hname] at hkr
    obtain rfl : kr = none := by simpa using hkr.symm
    exact ⟨hash, none, by rw [hkh]; exact hhash, rfl, hfits, by simp, hpart rfl (by simp)⟩
  | some name =>
    rw [hname] at hkr hrange
    obtain ⟨v, rfl, hv⟩ : ∃ v, kr = some v ∧ k.get name = some v := by
      cases kr <;> simp_all
    obtain ⟨text, htext, hfitsText⟩ := ValidKeyValue.exists_innerStr hrange
    refine ⟨hash, some text, by rw [hkh]; exact hhash, ?_, hfits, by simpa using hfitsText,
      hpart (congrArg some htext) (by simpa using hfitsText)⟩
    rw [Option.map_some, hv]
    exact congrArg some htext

variable {uuidV5 : List UInt8 → Text}

theorem keyStream_eq {part : List UInt8} (h : table.keyPart k = .ok part) :
    table.keyStream uuidV5 k = .ok (sanitizedName table.tableName ++ itemStreamSegment
      ++ streamItemPart uuidV5 part) := by
  obtain ⟨tableKey, htable, hpart⟩ := Except.bind_eq_ok.mp h
  rw [StoredTableInfo.keyStream, htable]
  change tableItemStream uuidV5 table.tableName (.table tableKey) = _
  rw [tableItemStream, hpart]
  rfl

/-- Keys of one stream are equal, unless the digest collides. -/
theorem get_eq_of_keyStream (hk : ValidKey table k) (hl : ValidKey table l)
    (shape : KeySchemaShape table.keySchema)
    (hfree : ∀ x y, table.keyPart k = .ok x → table.keyPart l = .ok y → uuidV5 x = uuidV5 y → x = y)
    (h : SameOutcome (table.keyStream uuidV5 k) (table.keyStream uuidV5 l)) (name : Text) :
    k.get name = l.get name := by
  obtain ⟨hash, range, hhash, hrange, hfits, hfitsRange, hpart⟩ := hk.exists_texts shape
  obtain ⟨hash', range', hhash', hrange', hfits', hfitsRange', hpart'⟩ := hl.exists_texts shape
  obtain ⟨stream, hkstream, hlstream⟩ := h
  rw [keyStream_eq hpart] at hkstream
  rw [keyStream_eq hpart'] at hlstream
  have hitem := append_cancel_left
    ((Except.ok.inj hkstream).trans (Except.ok.inj hlstream).symm)
  have hparts := (streamItemPart_inj ⟨hash.bytes, _, hfits, rfl⟩ ⟨hash'.bytes, _, hfits', rfl⟩
    (hfree _ _ hpart hpart')).mp hitem
  obtain ⟨rfl, rfl⟩ := (framedTexts_inj hfits hfits' hfitsRange hfitsRange').mp hparts
  -- The values of every attribute of the schema have one text.
  have hschema : ∀ element ∈ table.keySchema,
      k.get element.attributeName = l.get element.attributeName := by
    intro element helement
    obtain ⟨v, w, hv, hw, hvalid, hvalid'⟩ := hk.exists_values hl helement
    rw [hv, hw]
    refine congrArg some (hvalid.eq_of_innerStr hvalid' ?_)
    have hcases := shape.perm.mem_iff.mp helement
    rcases mem_cons.mp hcases with rfl | hcases
    · rw [hv] at hhash
      rw [hw] at hhash'
      exact hhash.trans hhash'.symm
    · obtain ⟨other, hother, rfl⟩ := mem_map.mp hcases
      rw [Option.mem_toList.mp hother] at hrange hrange'
      have hsame := hrange.trans hrange'.symm
      simpa [hv, hw] using hsame
  cases hname : k.get name with
  | some v =>
    obtain ⟨element, helement, rfl⟩ := hk.exact name v hname
    rw [← hname, hschema element helement]
  | none =>
    cases hname' : l.get name with
    | none => rfl
    | some w =>
      obtain ⟨element, helement, rfl⟩ := hl.exact name w hname'
      rw [hschema element helement, hname'] at hname
      cases hname

/-- **Keys are identified alike exactly if they are spelled alike when they are one item.** For
every two valid keys of a table whose name routes writes, the suffix, the comparison of the
attributes, the canonical JSON, the routing bytes and the stream name agree on whether the keys are
one, exactly if keys that denote the same values have the same texts. -/
theorem keyIdentities_tfae_iff {json : JsonFormat} {lz4 : Compression} {uuidV5 : List UInt8 → Text}
    (hk : ValidKey table k) (hl : ValidKey table l) (shape : KeySchemaShape table.keySchema)
    (hname : systemStreamSourceTableName table.tableName = .ok table.tableName)
    (hfree : ∀ x y, table.keyPart k = .ok x → table.keyPart l = .ok y →
      uuidV5 x = uuidV5 y → x = y) :
    (table.keyIdentities json lz4 uuidV5 k l).TFAE ↔
      (SameKeyValues table k l → ∀ name, k.get name = l.get name) := by
  constructor
  · intro htfae hvalues
    have hstream := (htfae.out 0 4).mp (hvalues.sameSuffix hk hl shape)
    exact get_eq_of_keyStream hk hl shape hfree hstream
  · intro hspelled
    have hsame (h : ∀ name, k.get name = l.get name) : table.KeysMatch k l ∧
        SameOutcome (canonicalDynamoJson json k) (canonicalDynamoJson json l) ∧
        SameOutcome (table.keyRoute json lz4 k) (table.keyRoute json lz4 l) ∧
        SameOutcome (table.keyStream uuidV5 k) (table.keyStream uuidV5 l) := by
      have hgets : k.get = l.get := funext h
      refine ⟨?_, sameCanonicalDynamoJson hk h, ?_, ?_⟩
      · intro element helement
        obtain ⟨v, w, hv, hw, hvalid, -⟩ := hk.exists_values hl helement
        obtain rfl : v = w := Option.some.inj (hv.symm.trans ((h _).trans hw))
        exact ⟨v, v, hv, hw, hvalid.match_self⟩
      · have hroutes : (normalizedRouteKey k).get = (normalizedRouteKey l).get := by
          funext name
          rw [get_normalizedRouteKey, get_normalizedRouteKey, h]
        exact ⟨_, keyRoute_eq hname, hroutes ▸ keyRoute_eq hname⟩
      · obtain ⟨hash, range, -, -, -, -, hpart⟩ := hk.exists_texts shape
        have hpart' : table.keyPart l = .ok (framedTexts hash range) := by
          rw [← hpart, StoredTableInfo.keyPart, StoredTableInfo.keyPart, hgets]
        exact ⟨_, keyStream_eq hpart, keyStream_eq hpart'⟩
    have hspelled := fun h => hspelled (sameKeyValues_of_sameSuffix hk hl shape h)
    unfold StoredTableInfo.keyIdentities
    tfae_have 1 → 2 := fun h => (hsame (hspelled h)).1
    tfae_have 1 → 3 := fun h => (hsame (hspelled h)).2.1
    tfae_have 1 → 4 := fun h => (hsame (hspelled h)).2.2.1
    tfae_have 1 → 5 := fun h => (hsame (hspelled h)).2.2.2
    tfae_have 2 → 1 := fun h => (sameKeyValues_of_keysMatch hk hl h).sameSuffix hk hl shape
    tfae_have 3 → 1 := fun h =>
      (sameKeyValues_of_canonicalDynamoJson hk hl h).sameSuffix hk hl shape
    tfae_have 4 → 1 := fun h => (sameKeyValues_of_keyRoute hk hl hname h).sameSuffix hk hl shape
    tfae_have 5 → 1 := fun h => by
      have hgets := get_eq_of_keyStream hk hl shape hfree h
      have hvalues : SameKeyValues table k l := by
        intro element helement v w hv hw
        rw [Option.some.inj (hv.symm.trans ((hgets _).trans hw))]
      exact hvalues.sameSuffix hk hl shape
    tfae_finish

end Keys

/-! ### Spellings -/

/-- A compression that does nothing. -/
def Compression.stored : Compression where
  compress := id
  decompress := some
  decompress_compress _ := rfl

/-- A table with one key attribute of a type. -/
def oneKeyTable (type : KeyAttributeType) : StoredTableInfo where
  tableName := text "t"
  attributeDefinitions := [⟨text "id", type⟩]
  keySchema := [⟨text "id", .hash⟩]
  maxIndexers := 0
  globalSecondaryIndexes := none

/-- A key with one value. -/
def oneKey (value : AttributeValue) : KeyAttributes :=
  OrderedMap.empty.insert (text "id") value

theorem oneKey_valid {type : KeyAttributeType} {value : AttributeValue}
    (htype : value.matchesKeyType type = true)
    (hsize : validateKeyValueSize .hash (text "id") value = .ok ()) :
    ValidKey (oneKeyTable type) (oneKey value) where
  attributes := by
    intro element helement
    obtain rfl := mem_singleton.mp helement
    exact ⟨value, rfl, type, rfl, htype, hsize⟩
  exact := by
    intro name v hget
    rw [oneKey, OrderedMap.get_insert] at hget
    split at hget
    · next hname => exact ⟨_, mem_singleton_self _, hname.symm⟩
    · cases hget

/-- The five identities tell a number in scientific notation from another number. -/
theorem oneKeys_agree :
    ((oneKeyTable .N).keyIdentities JsonFormat.counting Compression.stored asciiText
      (oneKey (.N (text "1E2"))) (oneKey (.N (text "200")))).TFAE := by
  refine (keyIdentities_tfae_iff (oneKey_valid rfl (by decide +kernel))
    (oneKey_valid rfl (by decide +kernel)) ⟨text "id", none, .refl _⟩ (by decide +kernel) ?_).mpr ?_
  · intro x y hx hy hdigest
    have hpart : (oneKeyTable .N).keyPart (oneKey (.N (text "1E2"))) = .ok [0, 3, 49, 69, 50] := by
      decide +kernel
    have hpart' : (oneKeyTable .N).keyPart (oneKey (.N (text "200"))) = .ok [0, 3, 50, 48, 48] := by
      decide +kernel
    cases hpart.symm.trans hx
    cases hpart'.symm.trans hy
    exact absurd hdigest (by decide)
  · intro hvalues
    have hvalue := hvalues ⟨text "id", .hash⟩ (mem_singleton_self _) _ _ rfl rfl
    exact absurd hvalue (by decide +kernel)

theorem sameOutcome_of_eq {ε α : Type} {x y : Except ε α} (h : x = y)
    (hok : x.toOption.isSome = true) : SameOutcome x y := by
  cases x with
  | error e => cases hok
  | ok a => exact ⟨a, rfl, h.symm⟩

/-- **Spellings on which the identities disagree**: the numbers `1` and `1.0` are one item with two
streams and two routes, and the binaries `AQ==` and `AQ` are one item with keys that do not
match. -/
theorem spellings_disagree :
    ¬((oneKeyTable .N).keyIdentities JsonFormat.counting Compression.stored asciiText
        (oneKey (.N (text "1"))) (oneKey (.N (text "1.0")))).TFAE ∧
      ¬((oneKeyTable .B).keyIdentities JsonFormat.counting Compression.stored asciiText
        (oneKey (.B (text "AQ=="))) (oneKey (.B (text "AQ")))).TFAE := by
  constructor
  · intro htfae
    have hsuffix : SameOutcome ((oneKeyTable .N).keySuffix (oneKey (.N (text "1"))))
        ((oneKeyTable .N).keySuffix (oneKey (.N (text "1.0")))) :=
      sameOutcome_of_eq (by decide +kernel) (by decide +kernel)
    obtain ⟨stream, hk, hl⟩ := (htfae.out 0 4).mp hsuffix
    exact absurd (hk.trans hl.symm) (by decide +kernel)
  · intro htfae
    have hsuffix : SameOutcome ((oneKeyTable .B).keySuffix (oneKey (.B (text "AQ=="))))
        ((oneKeyTable .B).keySuffix (oneKey (.B (text "AQ")))) :=
      sameOutcome_of_eq (by decide +kernel) (by decide +kernel)
    have hkeys : (oneKeyTable .B).KeysMatch (oneKey (.B (text "AQ==")))
        (oneKey (.B (text "AQ"))) := (htfae.out 0 1).mp hsuffix
    obtain ⟨v, w, hv, hw, hmatch⟩ := hkeys ⟨text "id", .hash⟩ (by decide)
    cases hv
    cases hw
    exact absurd hmatch (by decide +kernel)

end AuxStorage
