import AuxStorage.ItemKeyOrder

/-!
# Reading Storage Keys Back

The sorted suffix of a key is decoded without the item, from the key schema and the declared
types alone. This module shows that the decoder inverts the encoder on every key built from
a valid item, up to the spelling of its values: numbers come back in canonical decimal form
and binaries in padded base64. Both halves meet at the bytes that a denoted value is written
as (`KeyValue.Written`).
-/

namespace AuxStorage

open Framing
open List
open AttributeValue (keyValue)
open ParsedDynamodbNumber (eq_of_value parse)

/-! ### Keys of items -/

/-- A key schema as table creation admits it: one hash attribute and at most one range
attribute, in either order. -/
structure KeySchemaShape (schema : List KeySchemaElement) where
  /-- The name of the hash attribute. -/
  hash : Text
  /-- The name of the range attribute. -/
  range : Option Text
  /-- There are no other elements. -/
  perm : schema.Perm (⟨hash, .hash⟩ :: range.toList.map fun name => ⟨name, .range⟩)

namespace KeySchemaShape

variable {schema : List KeySchemaElement} (shape : KeySchemaShape schema)

/-- The two orders in which a schema may list its elements. -/
theorem cases :
    (shape.range = none ∧ schema = [⟨shape.hash, .hash⟩]) ∨
    ∃ range, shape.range = some range ∧
      (schema = [⟨shape.hash, .hash⟩, ⟨range, .range⟩] ∨
        schema = [⟨range, .range⟩, ⟨shape.hash, .hash⟩]) := by
  obtain ⟨hash, range, perm⟩ := shape
  cases range with
  | none => exact .inl ⟨rfl, perm_singleton.mp perm⟩
  | some range =>
    refine .inr ⟨range, rfl, ?_⟩
    have hlength := perm.length_eq
    rcases schema with _ | ⟨x, _ | ⟨y, _ | ⟨z, rest⟩⟩⟩ <;> simp at hlength
    have hx : x ∈ [(⟨hash, .hash⟩ : KeySchemaElement), ⟨range, .range⟩] :=
      perm.mem_iff.mp mem_cons_self
    rcases mem_cons.mp hx with rfl | hx
    · exact .inl (congrArg _ (perm_singleton.mp ((perm_cons _).mp perm)))
    · obtain rfl := mem_singleton.mp hx
      have hswap := (perm_cons _).mp (perm.trans (List.Perm.swap _ _ _))
      exact .inr (congrArg _ (perm_singleton.mp hswap))

theorem ordered_eq :
    KeySchemaElement.ordered schema
      = ⟨shape.hash, .hash⟩ :: shape.range.toList.map fun name => ⟨name, .range⟩ := by
  rcases shape.cases with ⟨hrange, hschema⟩ | ⟨range, hrange, hschema | hschema⟩ <;>
    simp [KeySchemaElement.ordered, hrange, hschema]

theorem hash_mem : ⟨shape.hash, .hash⟩ ∈ schema :=
  shape.perm.mem_iff.mpr mem_cons_self

theorem range_mem {name : Text} (h : shape.range = some name) : ⟨name, .range⟩ ∈ schema := by
  rw [shape.perm.mem_iff, h]
  simp

theorem keysForSchema_eq {item : AttributeValueLookup} {hashKey : AttributeValue}
    {rangeKey : Option AttributeValue} (hhash : item shape.hash = some hashKey)
    (hrange : shape.range.map item = rangeKey.map some) :
    keysForSchema schema item = .ok (hashKey, rangeKey) := by
  have hloop : keysForSchemaLoop item none none schema = .ok (some hashKey, rangeKey) := by
    rcases shape.cases with ⟨hnone, hschema⟩ | ⟨range, hsome, hschema⟩
    · obtain rfl : rangeKey = none := by simpa [hnone] using hrange.symm
      simp [hschema, keysForSchemaLoop, hhash, pure, Except.pure]
    · obtain ⟨r, rfl, hr⟩ : ∃ r, rangeKey = some r ∧ item range = some r := by
        cases rangeKey <;> simp_all
      rcases hschema with hschema | hschema <;>
        simp [hschema, keysForSchemaLoop, hhash, hr, pure, Except.pure]
  rw [keysForSchema, hloop]
  rfl

end KeySchemaShape

/-- The key schema of an index; the table's own for a name without index. -/
def StoredTableInfo.indexKeySchema (table : StoredTableInfo) (name : Text) :
    List KeySchemaElement :=
  ((table.findIndex name).map (·.keySchema)).getD table.keySchema

/-- The key of an item in the table, or in the named index. -/
def StoredTableInfo.itemKey (table : StoredTableInfo) (index : Option Text)
    (item : AttributeValueLookup) : Except ItemKeyError (Option ItemKey) :=
  match index with
  | none => do
      let key ← TableKey.fromKeySchema table.tableName table.keySchema item
      pure (some (.table key))
  | some name => do
      let key ← IndexKey.fromKeySchemaForIndex table.tableName table.keySchema name
        (table.indexKeySchema name) item
      pure (key.map .index)

/-- A value that a key attribute may have: of the declared type and within the limits. -/
def ValidKeyValue (table : StoredTableInfo) (keyType : KeyType) (name : Text)
    (value : AttributeValue) : Prop :=
  ∃ type, table.declaredType name = some type ∧ value.matchesKeyType type = true ∧
    validateKeyValueSize keyType name value = .ok ()

/-- The attributes of an item that a key schema names are valid. -/
def ValidKeyAttributes (table : StoredTableInfo) (schema : List KeySchemaElement)
    (item : AttributeValueLookup) : Prop :=
  ∀ element ∈ schema, ∃ value, item element.attributeName = some value ∧
    ValidKeyValue table element.keyType element.attributeName value

/-- An item whose table key, and index key if an index is named, is valid. -/
structure ValidKeyItem (table : StoredTableInfo) (index : Option Text)
    (item : AttributeValueLookup) : Prop where
  tableShape : Nonempty (KeySchemaShape table.keySchema)
  tableAttributes : ValidKeyAttributes table table.keySchema item
  indexAttributes : ∀ name ∈ index, ∃ gsi, table.findIndex name = some gsi ∧
    Nonempty (KeySchemaShape gsi.keySchema) ∧ ValidKeyAttributes table gsi.keySchema item

/-! ### Canonical spellings -/

/-- The canonical spelling of a key value: canonical decimal numbers, padded base64. -/
def AttributeValue.canonicalKey : AttributeValue → AttributeValue
  | .N n => .N ((canonicalDynamodbNumber n).toOption.getD n)
  | .B encoded =>
    .B (((decodeBase64String encoded).map (Base64.encode standardAlphabet true)).getD encoded)
  | value => value

open AttributeValue

/-- A table key with its values in canonical spelling. -/
def TableKey.canonical (key : TableKey) : TableKey :=
  { key with
    hashKey := key.hashKey.canonicalKey
    rangeKey := key.rangeKey.map canonicalKey }

/-- A key with its values in canonical spelling. -/
def ItemKey.canonical : ItemKey → ItemKey
  | .table key => .table key.canonical
  | .index key => .index { key with
      hashKey := key.hashKey.canonicalKey
      rangeKey := key.rangeKey.map canonicalKey
      tableKey := key.tableKey.canonical }
  | .indexPrefix key => .indexPrefix { key with
      hashKey := key.hashKey.canonicalKey
      rangeKey := key.rangeKey.map canonicalKey }

/-- The key values that a key denotes. -/
def ItemKey.values : ItemKey → List (Option KeyParts)
  | .table key => [key.parts]
  | .index key => [key.parts, key.tableKey.parts]
  | .indexPrefix key => [key.parts]

@[simp] theorem decodeBase64String_encode (bytes : List UInt8) :
    decodeBase64String (Base64.encode standardAlphabet true bytes) = some bytes := by
  rw [decodeBase64String, Base64.decode_encode, Option.some_or]

theorem exists_canonicalDynamodbNumber {n : Text} {number : ParsedDynamodbNumber}
    (h : parse n = .ok number) :
    ∃ canonical, canonicalDynamodbNumber n = .ok canonical
      ∧ number.canonicalString = .ok canonical
      ∧ parse canonical = .ok number ∧ canonical ≠ [] ∧ canonical.bytes.length ≤ 170 := by
  obtain ⟨canonical, hstring, hparse, hne, hlength⟩ :=
    parse_canonicalString (parseBytes_wellFormed h)
  refine ⟨canonical, ?_, hstring, hparse, hne, hlength⟩
  rw [canonicalDynamodbNumber, h]
  exact hstring

variable {value : AttributeValue}

/-- **The canonical spelling denotes the same value.** -/
theorem AttributeValue.keyValue_canonicalKey {v : KeyValue} (h : value.keyValue = some v) :
    value.canonicalKey.keyValue = some v := by
  cases value with
  | N n =>
    cases hparse : parse n with
    | error e => simp [keyValue, hparse, Except.toOption] at h
    | ok number =>
      obtain ⟨canonical, hcanonical, -, hread, -, -⟩ := exists_canonicalDynamodbNumber hparse
      have hvalue : decimalValue canonical.bytes = decimalValue n.bytes :=
        (parseBytes_value hread).symm.trans (parseBytes_value hparse)
      rw [← h]
      simp only [canonicalKey, hcanonical, keyValue, hparse,
        hread, Except.toOption, Option.getD_some, Option.map_some, hvalue]
  | B encoded =>
    rw [keyValue, Option.map_eq_some_iff] at h
    obtain ⟨bytes, hbytes, rfl⟩ := h
    simp [canonicalKey, hbytes, keyValue]
  | _ => exact h

variable {hashKey : AttributeValue} {rangeKey : Option AttributeValue}

theorem keyParts_canonicalKey {parts : KeyParts} (h : keyParts hashKey rangeKey = some parts) :
    keyParts hashKey.canonicalKey (rangeKey.map canonicalKey) = some parts := by
  obtain ⟨hash, range⟩ := parts
  obtain ⟨hhash, hrange⟩ := keyParts_eq_some.mp h
  refine keyParts_eq_some.mpr ⟨keyValue_canonicalKey hhash, ?_⟩
  cases rangeKey with
  | none => exact hrange
  | some rangeKey =>
    cases range with
    | none => cases hrange
    | some range =>
      exact congrArg some (keyValue_canonicalKey (Option.some.inj hrange))

/-! ### Key limits -/

theorem validateKeyNumber_eq_ok :
    validateKeyNumber value = .ok () ↔ ∀ n, value = .N n → ∃ number, parse n = .ok number := by
  cases value with
  | N n =>
    rw [validateKeyNumber, validateDynamodbNumber]
    cases hparse : parse n with
    | error e => simp [hparse]
    | ok number => simp [hparse, pure, Except.pure]
  | _ => simp [validateKeyNumber, pure, Except.pure]

variable {keyType : KeyType} {name : Text}

theorem validateKeyValueSize_eq_ok :
    validateKeyValueSize keyType name value = .ok ()
      ↔ (∀ n, value = .N n → ∃ number, parse n = .ok number) ∧
        ∃ size, keyValueSize value = .ok size ∧ 0 < size ∧ size ≤ keyType.maxBytes := by
  have hsize : ∀ size : ℕ, (if size = 0 then .error (emptyKeyError name value)
      else if keyType.maxBytes < size then .error keyType.sizeError else pure ())
        = (.ok () : Except StorageError Unit) ↔ 0 < size ∧ size ≤ keyType.maxBytes := by
    intro size
    split
    · next h => simp [h]
    · split
      · next h => simp [h]
      · next h₀ h => exact ⟨fun _ => ⟨by omega, by omega⟩, fun _ => rfl⟩
  simp only [validateKeyValueSize, Except.bind_eq_ok, hsize, ← validateKeyNumber_eq_ok]
  exact ⟨fun ⟨_, hnumber, h⟩ => ⟨hnumber, h⟩, fun ⟨hnumber, h⟩ => ⟨(), hnumber, h⟩⟩

/-- **A valid key value is written**, in as many bytes as its limit at most. -/
theorem exists_written_of_validateKeyValueSize
    (h : validateKeyValueSize keyType name value = .ok ()) :
    ∃ v data, value.keyValue = some v ∧ v.Written data ∧ data.length ≤ keyType.maxBytes := by
  obtain ⟨hnumber, size, hsize, -, hmax⟩ := validateKeyValueSize_eq_ok.mp h
  cases value with
  | S s => exact ⟨.S s, s.bytes, rfl, rfl, by rwa [Except.ok.inj hsize]⟩
  | N n =>
    obtain ⟨number, hparse⟩ := hnumber n rfl
    have hwf := parseBytes_wellFormed hparse
    have hencode := encodeNumberBytesInto_eq hwf
    refine ⟨.N (decimalValue n.bytes), _, ?_, ⟨number, hwf, parseBytes_value hparse, hencode⟩, ?_⟩
    · rw [keyValue, hparse]
      rfl
    · rw [length_encodeNumberBytesInto hwf hencode]
      cases keyType <;> decide
  | B encoded =>
    obtain ⟨bytes, hbytes, hlength⟩ := Except.bind_eq_ok.mp hsize
    rw [okOr_eq_ok] at hbytes
    refine ⟨.B bytes, bytes, ?_, rfl, by rwa [Except.ok.inj hlength]⟩
    rw [keyValue, hbytes]
    rfl
  | _ => cases hsize

/-- The canonical spelling of a valid key value is valid, under any name. -/
theorem validateKeyValueSize_canonicalKey (h : validateKeyValueSize keyType name value = .ok ())
    (name' : Text) : validateKeyValueSize keyType name' value.canonicalKey = .ok () := by
  obtain ⟨hnumber, size, hsize, hpos, hmax⟩ := validateKeyValueSize_eq_ok.mp h
  refine validateKeyValueSize_eq_ok.mpr ?_
  cases value with
  | N n =>
    obtain ⟨number, hparse⟩ := hnumber n rfl
    obtain ⟨canonical, hcanonical, -, hread, hne, hlength⟩ :=
      exists_canonicalDynamodbNumber hparse
    rw [canonicalKey, hcanonical]
    refine ⟨fun m hm => ⟨number, by rwa [← AttributeValue.N.inj hm]⟩, _, rfl, ?_, ?_⟩
    · rw [length_pos_iff]
      intro hnil
      exact hne (Text.bytes_injective (hnil.trans rfl))
    · exact hlength.trans (by cases keyType <;> decide)
  | B encoded =>
    obtain ⟨bytes, hbytes, hlength⟩ := Except.bind_eq_ok.mp hsize
    rw [okOr_eq_ok] at hbytes
    rw [canonicalKey, hbytes]
    refine ⟨fun _ h => (by cases h), size, ?_, hpos, hmax⟩
    simpa [keyValueSize, okOr, bind, Except.bind] using hlength
  | _ => exact ⟨fun _ h => (by cases h), size, hsize, hpos, hmax⟩

/-- The range value of a key, valid for the range attribute of its schema. -/
def ValidRange (table : StoredTableInfo) : Option Text → Option AttributeValue → Prop
  | none, none => True
  | some name, some value => ValidKeyValue table .range name value
  | _, _ => False

variable {table : StoredTableInfo} {item : AttributeValueLookup}

theorem KeySchemaShape.exists_keys {schema : List KeySchemaElement} (shape : KeySchemaShape schema)
    (h : ValidKeyAttributes table schema item) :
    ∃ hashKey rangeKey, keysForSchema schema item = .ok (hashKey, rangeKey) ∧
      ValidKeyValue table .hash shape.hash hashKey ∧ ValidRange table shape.range rangeKey := by
  obtain ⟨hashKey, hitem, hvalid⟩ := h _ shape.hash_mem
  cases hrange : shape.range with
  | none =>
    exact ⟨hashKey, none, shape.keysForSchema_eq hitem (by rw [hrange]; rfl), hvalid, trivial⟩
  | some name =>
    obtain ⟨rangeKey, hrangeItem, hrangeValid⟩ := h _ (shape.range_mem hrange)
    exact ⟨hashKey, some rangeKey,
      shape.keysForSchema_eq hitem (by rw [hrange]; exact congrArg some hrangeItem), hvalid,
      hrangeValid⟩

variable {rangeName : Option Text}

/-- The values of a valid key are written, within their limits. -/
theorem exists_written_parts {hashName : Text} (hhash : ValidKeyValue table .hash hashName hashKey)
    (hrange : ValidRange table rangeName rangeKey) (close : List UInt8 → List UInt8) :
    ∃ parts data tail, keyParts hashKey rangeKey = some parts ∧ parts.hash.Written data ∧
      data.length ≤ maxPartitionKeyBytes ∧ RangeWritten close parts.range tail ∧
      (tail = [] ∨ ∃ rangeData, tail = close rangeData ∧ rangeData.length ≤ maxSortKeyBytes) := by
  obtain ⟨-, -, -, hvalid⟩ := hhash
  obtain ⟨hash, data, hvalue, hdata, hlength⟩ := exists_written_of_validateKeyValueSize hvalid
  cases rangeKey with
  | none =>
    exact ⟨⟨hash, none⟩, data, [], keyParts_eq_some.mpr ⟨hvalue, rfl⟩, hdata, hlength, rfl,
      .inl rfl⟩
  | some rangeKey =>
    cases rangeName with
    | none => exact hrange.elim
    | some name =>
      obtain ⟨-, -, -, hvalid⟩ := hrange
      obtain ⟨range, rangeData, hrangeValue, hrangeData, hrangeLength⟩ :=
        exists_written_of_validateKeyValueSize hvalid
      exact ⟨⟨hash, some range⟩, data, close rangeData,
        keyParts_eq_some.mpr ⟨hvalue, congrArg some hrangeValue⟩, hdata, hlength,
        ⟨rangeData, hrangeData, rfl⟩, .inr ⟨rangeData, rfl, hrangeLength⟩⟩

/-! ### The decoder -/

namespace OrderedKeyDecoder

theorem lengthPrefixed_frame_append {data : List UInt8} (h : data.length < 65536)
    (rest : List UInt8) : lengthPrefixed (frame data ++ rest) = .ok (data, rest) := by
  rw [lengthPrefixed, if_neg (by simp only [length_append, length_frame]; omega),
    unframe_frame_append h]
  rfl

theorem indexRange_terminated_append (data rest : List UInt8) :
    indexRange (terminated data ++ rest) = .ok (data, rest) := by
  rw [indexRange, unterminate_terminated_append]
  rfl

variable {table : StoredTableInfo} {bytes : List UInt8}

/-- **A field is read back** as the canonical spelling of its value. -/
theorem attributeOf_written (field : KeySchemaElement) {value : AttributeValue} {keyType : KeyType}
    {v : KeyValue} (hvalid : ValidKeyValue table keyType field.attributeName value)
    (hv : value.keyValue = some v) (hwritten : v.Written bytes) :
    attributeOf table field bytes = .ok value.canonicalKey := by
  obtain ⟨type, htype, hmatch, -⟩ := hvalid
  rw [attributeOf, htype]
  cases value with
  | S s =>
    obtain rfl : KeyAttributeType.S = type := by cases type <;> first | rfl | cases hmatch
    obtain rfl : KeyValue.S s = v := Option.some.inj hv
    obtain rfl : bytes = s.bytes := hwritten
    have hread : Text.fromUtf8 s.bytes = some s := Text.fromUtf8_eq_some.mpr rfl
    simp [okOr, bind, Except.bind, pure, Except.pure, hread, canonicalKey]
  | N n =>
    obtain rfl : KeyAttributeType.N = type := by cases type <;> first | rfl | cases hmatch
    cases hparse : parse n with
    | error e => simp [keyValue, hparse, Except.toOption] at hv
    | ok number =>
      obtain ⟨canonical, hcanonical, hstring, -⟩ := exists_canonicalDynamodbNumber hparse
      have hwf := parseBytes_wellFormed hparse
      rw [keyValue, hparse] at hv
      obtain rfl : KeyValue.N (decimalValue n.bytes) = v := Option.some.inj hv
      obtain ⟨m, hm, hmvalue, hencode⟩ := hwritten
      obtain rfl := eq_of_value hm hwf
        (hmvalue.trans (parseBytes_value hparse).symm)
      have hdecode : decodeDynamodbNumberKeyBytes bytes = .ok canonical := by
        rw [decodeDynamodbNumberKeyBytes, decodeNumberBytes_encodeNumberBytesInto hwf hencode]
        simp only [bind, Except.bind, hstring]
        rfl
      simp [okOr, bind, Except.bind, pure, Except.pure, hdecode, Except.mapError,
        canonicalKey, hcanonical, Except.toOption]
  | B encoded =>
    obtain rfl : KeyAttributeType.B = type := by cases type <;> first | rfl | cases hmatch
    rw [keyValue, Option.map_eq_some_iff] at hv
    obtain ⟨decoded, hdecoded, rfl⟩ := hv
    obtain rfl : bytes = decoded := hwritten
    simp [okOr, bind, Except.bind, pure, Except.pure, canonicalKey, hdecoded]
  | _ => cases type <;> cases hmatch

variable {rangeName : Option Text}

theorem validateDynamodbKey_canonical {hashName : Text} {key : TableKey}
    (hhash : ValidKeyValue table .hash hashName key.hashKey)
    (hrange : ValidRange table rangeName key.rangeKey) :
    key.canonical.validateDynamodbKey = .ok () := by
  obtain ⟨-, -, -, hvalid⟩ := hhash
  have hhashKey := validateKeyValueSize_canonicalKey hvalid (text "partition key")
  obtain ⟨tableName, hashKey, rangeKey⟩ := key
  rw [TableKey.validateDynamodbKey, Except.bind_eq_ok]
  refine ⟨(), hhashKey, ?_⟩
  cases rangeKey with
  | none => rfl
  | some rangeKey =>
    cases rangeName with
    | none => exact hrange.elim
    | some name =>
      obtain ⟨-, -, -, hvalid⟩ := hrange
      exact validateKeyValueSize_canonicalKey hvalid (text "sort key")

/-- **The range of a key is read back**: there is none, or its field is read back. -/
theorem range_written {close : List UInt8 → List UInt8} {rangeKey : Option AttributeValue}
    {range : Option KeyValue} {tail : List UInt8} (hvalid : ValidRange table rangeName rangeKey)
    (hvalue : rangeKey.map keyValue = range.map some) (htail : RangeWritten close range tail) :
    (rangeName = none ∧ rangeKey = none ∧ tail = []) ∨
      ∃ name value data, rangeName = some name ∧ rangeKey = some value ∧ tail = close data ∧
        attributeOf table ⟨name, .range⟩ data = .ok value.canonicalKey := by
  cases rangeName with
  | none =>
    cases rangeKey with
    | some rangeKey => exact hvalid.elim
    | none =>
      cases range with
      | some range => cases hvalue
      | none => exact .inl ⟨rfl, rfl, htail⟩
  | some name =>
    cases rangeKey with
    | none => exact hvalid.elim
    | some value =>
      cases range with
      | none => cases hvalue
      | some range =>
        obtain ⟨data, hdata, rfl⟩ := htail
        exact .inr ⟨name, value, data, rfl, rfl, rfl,
          attributeOf_written ⟨name, .range⟩ hvalid (Option.some.inj hvalue) hdata⟩

/-- **A table key is read back** in canonical spelling. -/
theorem tableKey_written (shape : KeySchemaShape table.keySchema) {key : TableKey}
    {parts : KeyParts} (hname : key.tableName = table.tableName)
    (hhash : ValidKeyValue table .hash shape.hash key.hashKey)
    (hrange : ValidRange table shape.range key.rangeKey) (hparts : key.parts = some parts)
    (hwritten : parts.Written id bytes) : tableKey table bytes = .ok key.canonical := by
  obtain ⟨data, tail, hdata, hlength, htail, rfl⟩ := hwritten
  obtain ⟨hhashValue, hrangeValue⟩ := keyParts_eq_some.mp hparts
  have haccept := validateDynamodbKey_canonical hhash hrange
  have hread := range_written hrange hrangeValue htail
  obtain ⟨tableName, hashKey, rangeKey⟩ := key
  obtain rfl : tableName = table.tableName := hname
  have hhashKey := attributeOf_written ⟨shape.hash, .hash⟩ hhash hhashValue hdata
  rw [tableKey, shape.ordered_eq]
  simp only [getElem?_cons_zero, okOr, bind, Except.bind,
    lengthPrefixed_frame_append hlength, hhashKey]
  rcases hread with ⟨hnone, rfl, rfl⟩ | ⟨name, value, data, hsome, rfl, rfl, hvalue⟩
  · simp only [TableKey.canonical, Option.map_none] at haccept ⊢
    simp [hnone, haccept, pure, Except.pure]
  · simp only [TableKey.canonical, Option.map_some] at haccept ⊢
    simp [hsome, haccept, hvalue, pure, Except.pure]

/-- **An index key is read back** in canonical spelling. -/
theorem indexKey_written (shape : KeySchemaShape table.keySchema) {gsi : GlobalSecondaryIndex}
    (indexShape : KeySchemaShape gsi.keySchema) (key : IndexKey)
    (hfind : table.findIndex key.indexId = some gsi) (hname : key.tableName = table.tableName)
    (htableName : key.tableKey.tableName = table.tableName)
    (hhash : ValidKeyValue table .hash indexShape.hash key.hashKey)
    (hrange : ValidRange table indexShape.range key.rangeKey)
    (htableHash : ValidKeyValue table .hash shape.hash key.tableKey.hashKey)
    (htableRange : ValidRange table shape.range key.tableKey.rangeKey) {parts tableParts : KeyParts}
    {tableBytes : List UInt8} (hparts : key.parts = some parts)
    (htableParts : key.tableKey.parts = some tableParts) (hwritten : parts.Written terminated bytes)
    (htableWritten : tableParts.Written id tableBytes) (htableLength : tableBytes.length < 65536) :
    (indexKey table key.indexId (bytes ++ frame tableBytes)).map ItemKey.index
      = .ok (ItemKey.index key).canonical := by
  obtain ⟨data, tail, hdata, hlength, htail, rfl⟩ := hwritten
  obtain ⟨hhashValue, hrangeValue⟩ := keyParts_eq_some.mp hparts
  have htableKey := tableKey_written shape htableName htableHash htableRange htableParts
    htableWritten
  have hread := range_written hrange hrangeValue htail
  have htable : lengthPrefixed (frame tableBytes) = .ok (tableBytes, []) := by
    simpa using lengthPrefixed_frame_append htableLength []
  obtain ⟨tableName, indexId, hashKey, rangeKey, tableKey⟩ := key
  obtain rfl : tableName = table.tableName := hname
  have hhashKey := attributeOf_written ⟨indexShape.hash, .hash⟩ hhash hhashValue hdata
  rw [indexKey, hfind, append_assoc]
  simp only [okOr, bind, Except.bind, indexShape.ordered_eq, getElem?_cons_zero,
    lengthPrefixed_frame_append hlength, hhashKey]
  rcases hread with ⟨hnone, rfl, rfl⟩ | ⟨name, value, data, hsome, rfl, rfl, hvalue⟩
  · simp [hnone, htable, htableKey, ItemKey.canonical, pure, Except.pure, Except.map]
  · simp [hsome, indexRange_terminated_append, hvalue, htable, htableKey, ItemKey.canonical, pure,
      Except.pure, Except.map]

end OrderedKeyDecoder

/-! ### Keys of valid items -/

theorem exists_written_table {hashName : Text} (hhash : ValidKeyValue table .hash hashName hashKey)
    (hrange : ValidRange table rangeName rangeKey) :
    ∃ parts bytes, keyParts hashKey rangeKey = some parts ∧ parts.Written id bytes ∧
      bytes.length < 65536 := by
  obtain ⟨parts, data, tail, hparts, hdata, hlength, htail, hbound⟩ :=
    exists_written_parts hhash hrange id
  have hdataLength : data.length ≤ 2048 := hlength
  have htailLength : tail.length ≤ 1024 := by
    rcases hbound with rfl | ⟨rangeData, rfl, hrangeLength⟩
    · simp
    · exact hrangeLength
  refine ⟨parts, _, hparts, ⟨data, tail, hdata, by omega, htail, rfl⟩, ?_⟩
  simp only [length_append, length_frame]
  omega

variable {index : Option Text}

theorem ValidKeyItem.exists_tableKey (h : ValidKeyItem table index item)
    (shape : KeySchemaShape table.keySchema) :
    ∃ key parts bytes, TableKey.fromKeySchema table.tableName table.keySchema item = .ok key ∧
      key.parts = some parts ∧ parts.Written id bytes ∧ bytes.length < 65536 ∧
      key.canonical.parts = some parts ∧ key.tableName = table.tableName ∧
      ValidKeyValue table .hash shape.hash key.hashKey ∧
      ValidRange table shape.range key.rangeKey := by
  obtain ⟨hashKey, rangeKey, hkeys, hhash, hrange⟩ := shape.exists_keys h.tableAttributes
  obtain ⟨parts, bytes, hparts, hwritten, hlength⟩ := exists_written_table hhash hrange
  refine ⟨⟨table.tableName, hashKey, rangeKey⟩, parts, bytes, ?_, hparts, hwritten, hlength,
    keyParts_canonicalKey hparts, rfl, hhash, hrange⟩
  rw [TableKey.fromKeySchema, hkeys]
  rfl

/-- What is written for the values of a table key, or of an index key and its table key. -/
def ValuesWritten : List (Option KeyParts) → List UInt8 → Prop
  | [some parts], bytes => parts.Written id bytes
  | [some parts, some tableParts], bytes => ∃ written tableBytes,
      parts.Written terminated written ∧ tableParts.Written id tableBytes ∧
      bytes = written ++ frame tableBytes
  | _, _ => False

theorem ValuesWritten.unique {values : List (Option KeyParts)} {l r : List UInt8}
    (hl : ValuesWritten values l) (hr : ValuesWritten values r) : l = r := by
  unfold ValuesWritten at hl hr
  split at hl
  · exact hl.unique hr
  · obtain ⟨wl, tl, hwl, htl, rfl⟩ := hl
    obtain ⟨wr, tr, hwr, htr, rfl⟩ := hr
    rw [hwl.unique hwr, htl.unique htr]
  · exact hl.elim

/-- **The key of a valid item is read back from its suffix**, in canonical spelling. -/
theorem ValidKeyItem.exists_key (h : ValidKeyItem table index item) :
    ∃ key bytes, table.itemKey index item = .ok (some key) ∧
      key.sortedStorageSuffix = .ok bytes ∧
      ItemKey.fromSortedStorageSuffix table index bytes = .ok key.canonical ∧
      key.canonical.values = key.values ∧ ValuesWritten key.values bytes := by
  obtain ⟨shape⟩ := h.tableShape
  obtain ⟨tableKey, tableParts, tableBytes, htableKey, htableParts, htableWritten, htableLength,
    htableCanonical, htableName, htableHash, htableRange⟩ := h.exists_tableKey shape
  cases index with
  | none =>
    refine ⟨.table tableKey, tableBytes, ?_, ?_, ?_, ?_, ?_⟩
    · rw [StoredTableInfo.itemKey, htableKey]
      rfl
    · exact TableKey.sortedStorageSuffix_eq_ok.mpr ⟨tableParts, htableParts, htableWritten⟩
    · rw [ItemKey.fromSortedStorageSuffix, OrderedKeyDecoder.tableKey_written shape htableName
        htableHash htableRange htableParts htableWritten]
      rfl
    · rw [ItemKey.canonical, ItemKey.values, ItemKey.values, htableCanonical, htableParts]
    · rw [ItemKey.values, htableParts]
      exact htableWritten
  | some name =>
    obtain ⟨gsi, hfind, ⟨indexShape⟩, hattributes⟩ := h.indexAttributes name rfl
    obtain ⟨hashKey, rangeKey, hkeys, hhash, hrange⟩ := indexShape.exists_keys hattributes
    obtain ⟨parts, data, tail, hparts, hdata, hlength, htail, -⟩ :=
      exists_written_parts hhash hrange terminated
    have hwritten : parts.Written terminated (frame data ++ tail) :=
      ⟨data, tail, hdata, lt_of_le_of_lt hlength (by decide), htail, rfl⟩
    let key : IndexKey := ⟨table.tableName, name, hashKey, rangeKey, tableKey⟩
    have hread := OrderedKeyDecoder.indexKey_written shape indexShape key hfind rfl
      htableName hhash hrange htableHash htableRange hparts htableParts hwritten htableWritten
      htableLength
    refine ⟨.index key, frame data ++ tail ++ frame tableBytes, ?_, ?_, ?_, ?_, ?_⟩
    · rw [StoredTableInfo.itemKey, StoredTableInfo.indexKeySchema, hfind,
        IndexKey.fromKeySchemaForIndex, Option.map_some, Option.getD_some, hkeys]
      simp only [htableKey, bind, Except.bind]
      rfl
    · exact IndexKey.sortedStorageSuffix_eq_ok.mpr ⟨parts, _, tableBytes, hparts, hwritten,
        TableKey.sortedStorageSuffix_eq_ok.mpr ⟨tableParts, htableParts, htableWritten⟩,
        htableLength, rfl⟩
    · exact hread
    · have hcanonical : keyParts hashKey.canonicalKey
          (rangeKey.map canonicalKey) = some parts := keyParts_canonicalKey hparts
      exact congrArg₂ (fun a b => [a, b]) (hcanonical.trans hparts.symm)
        (htableCanonical.trans htableParts.symm)
    · have hvalues : (ItemKey.index key).values = [some parts, some tableParts] := by
        rw [ItemKey.values, htableParts]
        exact congrArg (· :: _) hparts
      rw [hvalues]
      exact ⟨_, tableBytes, hwritten, htableWritten, rfl⟩

/-- **Storage keys are read back.** The keys of valid items, in a table or in an index, are
decoded from their suffixes in canonical spelling, which denotes the same values; and two of
them have the same suffix exactly when they denote the same key values. -/
theorem storageKey_roundTrip {table : StoredTableInfo} {index : Option Text}
    {item item' : AttributeValueLookup} (h : ValidKeyItem table index item)
    (h' : ValidKeyItem table index item') :
    ∃ key key' bytes bytes',
      table.itemKey index item = .ok (some key) ∧ table.itemKey index item' = .ok (some key') ∧
      key.sortedStorageSuffix = .ok bytes ∧ key'.sortedStorageSuffix = .ok bytes' ∧
      ItemKey.fromSortedStorageSuffix table index bytes = .ok key.canonical ∧
      key.canonical.values = key.values ∧
      (bytes = bytes' ↔ key.values = key'.values) := by
  obtain ⟨key, bytes, hkey, hsuffix, hread, hcanonical, hwritten⟩ := h.exists_key
  obtain ⟨key', bytes', hkey', hsuffix', hread', hcanonical', hwritten'⟩ := h'.exists_key
  refine ⟨key, key', bytes, bytes', hkey, hkey', hsuffix, hsuffix', hread, hcanonical, ?_, ?_⟩
  · rintro rfl
    rw [← hcanonical, ← hcanonical', Except.ok.inj (hread.symm.trans hread')]
  · intro hvalues
    exact hwritten.unique (hvalues ▸ hwritten')

/-- A table with a text hash key, a number range key and an index on a binary attribute. -/
def eventTable : StoredTableInfo where
  tableName := text "events"
  attributeDefinitions :=
    [⟨text "pk", .S⟩, ⟨text "at", .N⟩, ⟨text "tag", .B⟩]
  keySchema := [⟨text "pk", .hash⟩, ⟨text "at", .range⟩]
  maxIndexers := 0
  globalSecondaryIndexes :=
    some [⟨text "byTag", [⟨text "at", .range⟩, ⟨text "tag", .hash⟩], ⟨none, none⟩⟩]

/-- An event with a given spelling of its number and its binary. -/
def eventItem (number binary : Text) : AttributeValueLookup := fun name =>
  if name = text "pk" then some (.S (text "a"))
  else if name = text "at" then some (.N number)
  else if name = text "tag" then some (.B binary)
  else none

theorem eventItem_valid {number binary : Text}
    (hnumber : validateKeyValueSize .range (text "at") (.N number) = .ok ())
    (hbinary : validateKeyValueSize .hash (text "tag") (.B binary) = .ok ()) :
    ValidKeyItem eventTable (some (text "byTag")) (eventItem number binary) where
  tableShape := ⟨⟨text "pk", some (text "at"), .refl _⟩⟩
  tableAttributes := forall_mem_cons.mpr ⟨⟨_, rfl, .S, rfl, rfl, rfl⟩,
    forall_mem_singleton.mpr ⟨_, rfl, .N, rfl, rfl, hnumber⟩⟩
  indexAttributes := by
    rintro _ ⟨⟩
    exact ⟨_, rfl, ⟨⟨text "tag", some (text "at"), .swap _ _ _⟩⟩,
      forall_mem_cons.mpr ⟨⟨_, rfl, .N, rfl, rfl, hnumber⟩,
        forall_mem_singleton.mpr ⟨_, rfl, .B, rfl, rfl, hbinary⟩⟩⟩

/-- Two spellings of one index key. -/
theorem storageKey_roundTrip_spellings :
    ∃ key key' bytes bytes',
      eventTable.itemKey (some (text "byTag")) (eventItem (text "1.50") (text "AQ=="))
        = .ok (some key) ∧
      eventTable.itemKey (some (text "byTag")) (eventItem (text "15e-1") (text "AQ"))
        = .ok (some key') ∧
      key.sortedStorageSuffix = .ok bytes ∧ key'.sortedStorageSuffix = .ok bytes' ∧
      ItemKey.fromSortedStorageSuffix eventTable (some (text "byTag")) bytes
        = .ok key.canonical ∧
      key.canonical.values = key.values ∧
      (bytes = bytes' ↔ key.values = key'.values) :=
  storageKey_roundTrip (eventItem_valid (by decide +kernel) (by decide +kernel))
    (eventItem_valid (by decide +kernel) (by decide +kernel))

end AuxStorage
