import AuxStorage.ItemKeyRoundTrip

/-!
# Page Tokens

A page token names the key a scan stopped at. It is the URL-safe base64 text of the key's
values as plain texts, each in a length frame: the index values first, then the table values.
The types of the values are not part of the token; they are taken from the attribute
definitions when the token is read, with text as the default.

A second producer builds the token of a page's last item without building the key of the
table first. Both agree, and the token is read back as the key exactly when the key
attributes of the item have their declared types.
-/

namespace AuxStorage

open Framing List
open StoredTableInfo (itemKey)
open TableKey (fromKeySchema)

/-! ### Writing a token -/

/-- `inner_str`: the text of a scalar. -/
def AttributeValue.innerStr : AttributeValue → Option Text
  | .S s | .N s | .B s => some s
  | _ => none

def scalarKeyStr (value : AttributeValue) : Except ItemKeyError Text :=
  okOr (.validation (text "Key attribute must be scalar: Type mismatch: expected S/N/B scalar, got "
    ++ value.variantName)) value.innerStr

/-- A scalar as a framed part of a token. -/
def tokenPart (value : AttributeValue) : Except ItemKeyError (List UInt8) := do
  let string ← scalarKeyStr value
  lengthPrefixedKey string.bytes

def hashRangeKeyPartForValues (hashKey : AttributeValue) (rangeKey : Option AttributeValue) :
    Except ItemKeyError (List UInt8) := do
  let parts ← tokenPart hashKey
  match rangeKey with
  | some rangeKey => do
      let rangePart ← tokenPart rangeKey
      pure (parts ++ rangePart)
  | none => pure parts

def ItemKey.hashRangeKeyPart : ItemKey → Except ItemKeyError (List UInt8)
  | .table key => hashRangeKeyPartForValues key.hashKey key.rangeKey
  | .index key => do
      let parts ← hashRangeKeyPartForValues key.hashKey key.rangeKey
      let tableParts ← hashRangeKeyPartForValues key.tableKey.hashKey key.tableKey.rangeKey
      pure (parts ++ tableParts)
  | .indexPrefix key => hashRangeKeyPartForValues key.hashKey key.rangeKey

def ItemKey.nextPageToken (key : ItemKey) : Except ItemKeyError Text := do
  let parts ← key.hashRangeKeyPart
  pure (Base64.encode urlSafeAlphabet true parts)

/-- `last_evaluated_key_from_last_item`: no token for an item without the key. -/
def lastEvaluatedKeyFromLastItem (lastItem : AttributeValueLookup) (table : StoredTableInfo)
    (index : Option Text) : Except ItemKeyError (Option Text) :=
  match index with
  | some name =>
    match IndexKey.fromKeySchemaForIndex [] table.keySchema name (table.indexKeySchema name)
        lastItem with
    | .ok (some key) => do
        let gsiHash ← tokenPart key.hashKey
        let gsiRange ← key.rangeKey.mapM tokenPart
        let tableHash ← tokenPart key.tableKey.hashKey
        let tableRange ← key.tableKey.rangeKey.mapM tokenPart
        pure (some (Base64.encode urlSafeAlphabet true
          (gsiHash ++ gsiRange.getD [] ++ tableHash ++ tableRange.getD [])))
    | _ => pure none
  | none =>
    match fromKeySchema [] table.keySchema lastItem with
    | .ok key => do
        let hash ← tokenPart key.hashKey
        let range ← key.rangeKey.mapM tokenPart
        pure (some (Base64.encode urlSafeAlphabet true (hash ++ range.getD [])))
    | .error _ => pure none

/-! ### Reading a token -/

def invalidToken : ItemKeyError :=
  .deserialization (text "Invalid next page token")

theorem unframe_length_lt {bytes data rest : List UInt8} (h : unframe bytes = some (data, rest)) :
    rest.length < bytes.length := by
  rcases bytes with _ | ⟨high, _ | ⟨low, bytes⟩⟩
  · cases h
  · cases h
  · simp only [unframe] at h
    split at h
    · obtain ⟨-, rfl⟩ := Prod.mk.inj (Option.some.inj h)
      simp only [length_drop, length_cons]
      omega
    · cases h

def splitNextTokenToKeys (key : List UInt8) : Except ItemKeyError (List (List UInt8)) :=
  if key = [] then
    pure []
  else
    match _h : unframe key with
    | some (part, rest) => do
        let parts ← splitNextTokenToKeys rest
        pure (part :: parts)
    | none => .error invalidToken
termination_by key.length
decreasing_by exact unframe_length_lt _h

def tokenPartStr (value : List UInt8) : Except ItemKeyError Text :=
  okOr invalidToken (Text.fromUtf8 value)

def stringToAttributeValue (s : Text) : KeyAttributeType → AttributeValue
  | .S => .S s
  | .N => .N s
  | .B => .B s

/-- The type a token part is read with: the declared one, or `S`. -/
def StoredTableInfo.tokenType (table : StoredTableInfo) (name : Text) : KeyAttributeType :=
  (table.declaredType name).getD .S

def insertAttributeStringToMap (table : StoredTableInfo) (map : AttributeMap) (value : Text)
    (name : Text) : AttributeMap :=
  map.insert name (stringToAttributeValue value (table.tokenType name))

/-- The attributes of one key schema, from the parts of a token at a position, with the
position behind them. -/
def tokenKeys (table : StoredTableInfo) (schema : List KeySchemaElement) (missing : Text)
    (parts : List (List UInt8)) (position : ℕ) (keys : AttributeMap) :
    Except ItemKeyError (AttributeMap × ℕ) := do
  let part ← okOr invalidToken parts[position]?
  let hash ← okOr (.validation missing) (schema.find? (·.keyType = .hash))
  let string ← tokenPartStr part
  let keys := insertAttributeStringToMap table keys string hash.attributeName
  match schema.find? (·.keyType = .range) with
  | some range => do
      let part ← okOr invalidToken parts[position + 1]?
      let string ← tokenPartStr part
      pure (insertAttributeStringToMap table keys string range.attributeName, position + 2)
  | none => pure (keys, position + 1)

def itemKeyFromNextPageToken (token : Text) (table : StoredTableInfo) (index : Option Text) :
    Except ItemKeyError (Option ItemKey) := do
  let decoded ← okOr invalidToken (Base64.decode urlSafeAlphabet true token)
  let parts ← splitNextTokenToKeys decoded
  match index with
  | some name =>
    if parts.length < 2 ∨ 4 < parts.length then
      .error invalidToken
    else do
      let (keys, position) ← tokenKeys table (table.indexKeySchema name)
        (text "Missing GSI hash key schema") parts 0 OrderedMap.empty
      let (keys, _) ← tokenKeys table table.keySchema (text "Missing table hash key schema")
        parts position keys
      table.itemKey (some name) keys.get
  | none =>
    if parts = [] ∨ 2 < parts.length then
      .error invalidToken
    else do
      let (keys, _) ← tokenKeys table table.keySchema (text "Missing table hash key schema")
        parts 0 OrderedMap.empty
      table.itemKey none keys.get

/-! ### Parts -/

/-- **Framed parts are split at their lengths**, whatever they hold. -/
theorem splitNextTokenToKeys_frames {parts : List (List UInt8)}
    (h : ∀ part ∈ parts, part.length < 65536) :
    splitNextTokenToKeys (parts.flatMap frame) = .ok parts := by
  induction parts with
  | nil =>
    rw [flatMap_nil, splitNextTokenToKeys, if_pos rfl]
    rfl
  | cons part parts ih =>
    have hne : frame part ++ parts.flatMap frame ≠ [] := by simp [frame_ne_nil]
    rw [flatMap_cons, splitNextTokenToKeys, if_neg hne]
    have hread := unframe_frame_append (h part mem_cons_self) (parts.flatMap frame)
    split
    · next part' rest' heq =>
        rw [hread, Option.some.injEq, Prod.mk.injEq] at heq
        obtain ⟨rfl, rfl⟩ := heq
        rw [ih fun p hp => h p (mem_cons_of_mem _ hp)]
        rfl
    · next heq => rw [hread] at heq; cases heq

/-- The text of an attribute of an item. -/
def tokenText (item : AttributeValueLookup) (name : Text) : Text :=
  ((item name).bind AttributeValue.innerStr).getD []

/-- The attributes of a schema are scalars whose texts fit the frames of a token. -/
def TokenAttributes (schema : List KeySchemaElement) (item : AttributeValueLookup) : Prop :=
  ∀ element ∈ schema, ∃ value s, item element.attributeName = some value ∧
    value.innerStr = some s ∧ s.bytes.length < 65536

/-- The names of the attributes of a schema, in physical order. -/
def KeySchemaShape.names {schema : List KeySchemaElement} (shape : KeySchemaShape schema) :
    List Text :=
  shape.hash :: shape.range.toList

variable {value : AttributeValue}

theorem tokenPart_eq_ok {s : Text} (hs : value.innerStr = some s) (hlength : s.bytes.length < 65536) :
    tokenPart value = .ok (frame s.bytes) := by
  rw [tokenPart, scalarKeyStr, hs]
  exact lengthPrefixedKey_eq_ok.mpr ⟨hlength, rfl⟩

variable {schema : List KeySchemaElement} (shape : KeySchemaShape schema)

theorem KeySchemaShape.mem_of_mem_names {name : Text} (h : name ∈ shape.names) :
    ∃ element ∈ schema, element.attributeName = name := by
  rcases mem_cons.mp h with rfl | h
  · exact ⟨_, shape.hash_mem, rfl⟩
  · exact ⟨_, shape.range_mem (by simpa using h), rfl⟩

variable {item : AttributeValueLookup}

theorem TokenAttributes.exists_value (h : TokenAttributes schema item)
    (shape : KeySchemaShape schema) (name : Text) (hname : name ∈ shape.names) :
    ∃ value, item name = some value ∧ value.innerStr = some (tokenText item name) ∧
      (tokenText item name).bytes.length < 65536 := by
  obtain ⟨element, hmem, rfl⟩ := shape.mem_of_mem_names hname
  obtain ⟨value, s, hitem, hs, hlength⟩ := h element hmem
  have htext : tokenText item element.attributeName = s := by
    rw [tokenText, hitem, Option.bind_some, hs, Option.getD_some]
  exact ⟨value, hitem, by rw [htext, hs], by rwa [htext]⟩

/-- The key of an item that fits a token, and the parts it is written as. -/
theorem TokenAttributes.exists_keys (h : TokenAttributes schema item)
    (shape : KeySchemaShape schema) :
    ∃ hashKey rangeKey rangePart,
      keysForSchema schema item = .ok (hashKey, rangeKey) ∧
      item shape.hash = some hashKey ∧ shape.range.map item = rangeKey.map some ∧
      tokenPart hashKey = .ok (frame (tokenText item shape.hash).bytes) ∧
      rangeKey.mapM tokenPart = .ok rangePart ∧
      hashRangeKeyPartForValues hashKey rangeKey
        = .ok (frame (tokenText item shape.hash).bytes ++ rangePart.getD []) ∧
      frame (tokenText item shape.hash).bytes ++ rangePart.getD []
        = (shape.names.map fun name => (tokenText item name).bytes).flatMap frame := by
  obtain ⟨hashKey, hitem, hs, hlength⟩ := h.exists_value shape shape.hash mem_cons_self
  have hhash := tokenPart_eq_ok hs hlength
  cases hrange : shape.range with
  | none =>
    refine ⟨hashKey, none, none, shape.keysForSchema_eq hitem (by rw [hrange]; rfl), hitem, rfl,
      hhash, rfl, ?_, ?_⟩
    · rw [hashRangeKeyPartForValues, hhash]
      simp [bind, Except.bind, pure, Except.pure]
    · simp [KeySchemaShape.names, hrange]
  | some name =>
    obtain ⟨rangeKey, hrangeItem, hrs, hrangeLength⟩ :=
      h.exists_value shape name (by simp [KeySchemaShape.names, hrange])
    have hrangePart := tokenPart_eq_ok hrs hrangeLength
    refine ⟨hashKey, some rangeKey, some (frame (tokenText item name).bytes),
      shape.keysForSchema_eq hitem (by rw [hrange]; exact congrArg some hrangeItem), hitem,
      congrArg some hrangeItem, hhash, ?_, ?_, ?_⟩
    · simp [hrangePart, Functor.map, Except.map]
    · rw [hashRangeKeyPartForValues, hhash]
      simp [hrangePart, bind, Except.bind, pure, Except.pure]
    · simp [KeySchemaShape.names, hrange]

/-! ### Reading the parts -/

theorem KeySchemaShape.find_hash : schema.find? (·.keyType = .hash) = some ⟨shape.hash, .hash⟩ := by
  rcases shape.cases with ⟨-, hschema⟩ | ⟨range, -, hschema | hschema⟩ <;> simp [hschema]

theorem KeySchemaShape.find_range :
    schema.find? (·.keyType = .range) = shape.range.map fun name => ⟨name, .range⟩ := by
  rcases shape.cases with ⟨hrange, hschema⟩ | ⟨range, hrange, hschema | hschema⟩ <;>
    simp [hschema, hrange]

/-- The attribute a token part is read as. -/
def tokenValue (table : StoredTableInfo) (item : AttributeValueLookup) (name : Text) :
    AttributeValue :=
  stringToAttributeValue (tokenText item name) (table.tokenType name)

/-- The read attributes include those of the names. -/
def HoldsTokenValues (table : StoredTableInfo) (item : AttributeValueLookup)
    (names : List Text) (keys : AttributeMap) : Prop :=
  ∀ name ∈ names, keys.get name = some (tokenValue table item name)

theorem HoldsTokenValues.nil (table : StoredTableInfo) (item : AttributeValueLookup)
    (keys : AttributeMap) : HoldsTokenValues table item [] keys := by
  simp [HoldsTokenValues]

variable {table : StoredTableInfo} {names : List Text} {keys : AttributeMap}

/-- Reading one more part keeps what was read: a name that was read already is read with the
same text. -/
theorem HoldsTokenValues.insert (h : HoldsTokenValues table item names keys) (name : Text) :
    HoldsTokenValues table item (name :: names)
      (insertAttributeStringToMap table keys (tokenText item name) name) := by
  intro name' hname'
  rw [insertAttributeStringToMap, OrderedMap.get_insert]
  split
  · next heq => rw [← heq, tokenValue]
  · next hne =>
      rcases mem_cons.mp hname' with rfl | hmem
      · exact absurd rfl hne
      · exact h name' hmem

theorem tokenPartStr_bytes (s : Text) : tokenPartStr s.bytes = .ok s := by
  rw [tokenPartStr, okOr_eq_ok]
  exact Text.fromUtf8_eq_some.mpr rfl

/-- **The parts of a token are read as the attributes of a schema.** -/
theorem tokenKeys_eq_ok (h : HoldsTokenValues table item names keys) (missing : Text)
    (before after : List (List UInt8)) :
    ∃ keys', tokenKeys table schema missing
        (before ++ (shape.names.map fun name => (tokenText item name).bytes) ++ after)
        before.length keys = .ok (keys', before.length + shape.names.length) ∧
      HoldsTokenValues table item (shape.names ++ names) keys' := by
  have hhash := h.insert shape.hash
  rw [tokenKeys, shape.find_hash, shape.find_range]
  simp only [KeySchemaShape.names, map_cons, append_assoc, cons_append,
    getElem?_append_right le_rfl, Nat.sub_self, getElem?_cons_zero, okOr, bind,
    Except.bind, tokenPartStr_bytes]
  cases hrange : shape.range with
  | none => exact ⟨_, rfl, fun name hname => hhash name (by simpa using hname)⟩
  | some range =>
    have hnext : (before ++ (tokenText item shape.hash).bytes ::
        ((some range).toList.map (fun name => (tokenText item name).bytes) ++ after))[
          before.length + 1]? = some (tokenText item range).bytes := by
      rw [getElem?_append_right (by omega)]
      simp
    simp only [Option.map_some, hnext, tokenPartStr_bytes]
    refine ⟨_, rfl, fun name hname => hhash.insert range name ?_⟩
    simp only [Option.toList_some, cons_append, nil_append, mem_cons] at hname ⊢
    tauto

theorem HoldsTokenValues.keysForSchema_eq (h : HoldsTokenValues table item names keys)
    (hnames : ∀ name ∈ shape.names, name ∈ names) :
    keysForSchema schema keys.get
      = .ok (tokenValue table item shape.hash, shape.range.map (tokenValue table item)) := by
  refine shape.keysForSchema_eq (h _ (hnames _ mem_cons_self)) ?_
  cases hrange : shape.range with
  | none => rfl
  | some range =>
    exact congrArg some (h range (hnames _ (by simp [KeySchemaShape.names, hrange])))

/-! ### Types -/

/-- The key attributes of an item have the types their definitions declare, and `S` without
definition. -/
def TypedKeyAttributes (table : StoredTableInfo) (schema : List KeySchemaElement)
    (item : AttributeValueLookup) : Prop :=
  ∀ element ∈ schema, ∀ value, item element.attributeName = some value →
    value.matchesKeyType (table.tokenType element.attributeName) = true

/-- A scalar is read back from its text exactly with its own type. -/
theorem stringToAttributeValue_eq_iff {s : Text} (h : value.innerStr = some s)
    (type : KeyAttributeType) :
    stringToAttributeValue s type = value ↔ value.matchesKeyType type = true := by
  cases value <;> cases type <;>
    simp_all [AttributeValue.innerStr, stringToAttributeValue, AttributeValue.matchesKeyType]

/-- A key is read back from its texts exactly when its attributes have their types. -/
theorem TokenAttributes.tokenValues_eq_iff (h : TokenAttributes schema item)
    (shape : KeySchemaShape schema) {hashKey : AttributeValue} {rangeKey : Option AttributeValue}
    (hhash : item shape.hash = some hashKey) (hrange : shape.range.map item = rangeKey.map some) :
    (tokenValue table item shape.hash = hashKey
      ∧ shape.range.map (tokenValue table item) = rangeKey)
      ↔ TypedKeyAttributes table schema item := by
  have hvalue : ∀ name ∈ shape.names, ∀ value, item name = some value →
      (tokenValue table item name = value
        ↔ value.matchesKeyType (table.tokenType name) = true) := by
    intro name hname value hitem
    obtain ⟨value', hitem', hs, -⟩ := h.exists_value shape name hname
    cases hitem.symm.trans hitem'
    exact stringToAttributeValue_eq_iff hs _
  have htyped : TypedKeyAttributes table schema item ↔ ∀ name ∈ shape.names, ∀ value,
      item name = some value → value.matchesKeyType (table.tokenType name) = true := by
    constructor
    · intro htyped name hname
      obtain ⟨element, hmem, rfl⟩ := shape.mem_of_mem_names hname
      exact htyped element hmem
    · intro hnames element hmem
      refine hnames _ ?_
      have hmem' := shape.perm.mem_iff.mp hmem
      rcases mem_cons.mp hmem' with rfl | hmem'
      · exact mem_cons_self
      · obtain ⟨name, hname, rfl⟩ := mem_map.mp hmem'
        exact mem_cons_of_mem _ hname
  rw [htyped, hvalue _ mem_cons_self _ hhash, KeySchemaShape.names] at *
  cases hname : shape.range with
  | none =>
    rw [hname] at hrange
    obtain rfl : rangeKey = none := by simpa using hrange.symm
    simp [hhash]
  | some name =>
    rw [hname] at hrange
    obtain ⟨range, rfl, hitem⟩ : ∃ range, rangeKey = some range ∧ item name = some range := by
      cases rangeKey <;> simp_all
    have hrangeValue := hvalue name (by simp [hname]) range hitem
    simp [hhash, hitem, hrangeValue]

/-! ### The round trip -/

theorem KeySchemaShape.length_names : 1 ≤ shape.names.length ∧ shape.names.length ≤ 2 := by
  obtain ⟨hash, _ | range, perm⟩ := shape <;> simp [KeySchemaShape.names]

theorem TokenAttributes.length_part (h : TokenAttributes schema item)
    (shape : KeySchemaShape schema) {part : List UInt8}
    (hpart : part ∈ shape.names.map fun name => (tokenText item name).bytes) :
    part.length < 65536 := by
  obtain ⟨name, hname, rfl⟩ := mem_map.mp hpart
  obtain ⟨-, -, -, hlength⟩ := h.exists_value shape name hname
  exact hlength

/-- The token of a table key. -/
theorem tableToken_spec (shape : KeySchemaShape table.keySchema)
    (h : TokenAttributes table.keySchema item) :
    ∃ key token, table.itemKey none item = .ok (some key) ∧ key.nextPageToken = .ok token ∧
      lastEvaluatedKeyFromLastItem item table none = .ok (some token) ∧
      (itemKeyFromNextPageToken token table none = .ok (some key)
        ↔ TypedKeyAttributes table table.keySchema item) := by
  obtain ⟨hashKey, rangeKey, rangePart, hkeys, hhash, hrange, hhashPart, hrangePart, hparts,
    hframes⟩ := h.exists_keys shape
  obtain ⟨keys, htokenKeys, hholds⟩ := tokenKeys_eq_ok shape
    (HoldsTokenValues.nil table item OrderedMap.empty) (text "Missing table hash key schema") [] []
  have hread : itemKeyFromNextPageToken (Base64.encode urlSafeAlphabet true
      (frame (tokenText item shape.hash).bytes ++ rangePart.getD [])) table none
      = .ok (some (.table ⟨table.tableName, tokenValue table item shape.hash,
          shape.range.map (tokenValue table item)⟩)) := by
    have hlength := shape.length_names
    rw [itemKeyFromNextPageToken, Base64.decode_encode, hframes]
    simp only [okOr, bind, Except.bind,
      splitNextTokenToKeys_frames fun part hpart => h.length_part shape hpart]
    rw [if_neg (by
      rw [← length_eq_zero_iff, length_map]
      omega)]
    simp only [nil_append, append_nil, length_nil] at htokenKeys
    simp only [htokenKeys, itemKey, fromKeySchema,
      hholds.keysForSchema_eq shape (by simp), bind, Except.bind]
    rfl
  refine ⟨.table ⟨table.tableName, hashKey, rangeKey⟩, Base64.encode urlSafeAlphabet true
    (frame (tokenText item shape.hash).bytes ++ rangePart.getD []), ?_, ?_, ?_, ?_⟩
  · rw [itemKey, fromKeySchema, hkeys]
    rfl
  · rw [ItemKey.nextPageToken, ItemKey.hashRangeKeyPart, hparts]
    rfl
  · rw [lastEvaluatedKeyFromLastItem, fromKeySchema, hkeys]
    simp only [bind, Except.bind, pure, Except.pure, hhashPart, hrangePart]
  · rw [hread, ← h.tokenValues_eq_iff shape hhash hrange]
    simp

/-- The token of an index key. -/
theorem indexToken_spec {name : Text} (shape : KeySchemaShape table.keySchema)
    (indexShape : KeySchemaShape (table.indexKeySchema name))
    (h : TokenAttributes table.keySchema item)
    (hindex : TokenAttributes (table.indexKeySchema name) item) :
    ∃ key token, table.itemKey (some name) item = .ok (some key) ∧
      key.nextPageToken = .ok token ∧
      lastEvaluatedKeyFromLastItem item table (some name) = .ok (some token) ∧
      (itemKeyFromNextPageToken token table (some name) = .ok (some key)
        ↔ TypedKeyAttributes table (table.indexKeySchema name) item
          ∧ TypedKeyAttributes table table.keySchema item) := by
  obtain ⟨hashKey, rangeKey, rangePart, hkeys, hhash, hrange, hhashPart, hrangePart, hparts,
    hframes⟩ := hindex.exists_keys indexShape
  obtain ⟨tableHash, tableRange, tableRangePart, htableKeys, htableHash, htableRange,
    htableHashPart, htableRangePart, htableParts, htableFrames⟩ := h.exists_keys shape
  obtain ⟨keys, htokenKeys, hholds⟩ := tokenKeys_eq_ok indexShape
    (HoldsTokenValues.nil table item OrderedMap.empty) (text "Missing GSI hash key schema") []
    (shape.names.map fun name => (tokenText item name).bytes)
  obtain ⟨allKeys, hallKeys, hall⟩ := tokenKeys_eq_ok shape hholds
    (text "Missing table hash key schema")
    (indexShape.names.map fun name => (tokenText item name).bytes) []
  have hread : itemKeyFromNextPageToken (Base64.encode urlSafeAlphabet true
      (frame (tokenText item indexShape.hash).bytes ++ rangePart.getD []
        ++ (frame (tokenText item shape.hash).bytes ++ tableRangePart.getD []))) table (some name)
      = .ok (some (.index ⟨table.tableName, name, tokenValue table item indexShape.hash,
          indexShape.range.map (tokenValue table item),
          ⟨table.tableName, tokenValue table item shape.hash,
            shape.range.map (tokenValue table item)⟩⟩)) := by
    have hlength := shape.length_names
    have hindexLength := indexShape.length_names
    rw [itemKeyFromNextPageToken, Base64.decode_encode, hframes, htableFrames, ← flatMap_append]
    simp only [okOr, bind, Except.bind]
    rw [splitNextTokenToKeys_frames (fun part hpart => by
      rcases mem_append.mp hpart with hpart | hpart
      · exact hindex.length_part indexShape hpart
      · exact h.length_part shape hpart)]
    simp only [length_append, length_map]
    rw [if_neg (by omega)]
    simp only [nil_append, length_nil, Nat.zero_add] at htokenKeys
    simp only [append_nil, length_map] at hallKeys
    simp only [htokenKeys, hallKeys, itemKey, IndexKey.fromKeySchemaForIndex,
      fromKeySchema, hall.keysForSchema_eq indexShape fun n hn => by simp [hn],
      hall.keysForSchema_eq shape fun n hn => by simp [hn], bind, Except.bind]
    rfl
  refine ⟨.index ⟨table.tableName, name, hashKey, rangeKey,
    ⟨table.tableName, tableHash, tableRange⟩⟩, Base64.encode urlSafeAlphabet true
    (frame (tokenText item indexShape.hash).bytes ++ rangePart.getD []
      ++ (frame (tokenText item shape.hash).bytes ++ tableRangePart.getD [])), ?_, ?_, ?_, ?_⟩
  · rw [itemKey, IndexKey.fromKeySchemaForIndex, hkeys, fromKeySchema, htableKeys]
    rfl
  · rw [ItemKey.nextPageToken, ItemKey.hashRangeKeyPart, hparts, htableParts]
    rfl
  · rw [lastEvaluatedKeyFromLastItem, IndexKey.fromKeySchemaForIndex, hkeys,
      fromKeySchema, htableKeys]
    simp only [bind, Except.bind, pure, Except.pure, hhashPart, hrangePart, htableHashPart,
      htableRangePart, append_assoc]
  · rw [hread, ← hindex.tokenValues_eq_iff indexShape hhash hrange,
      ← h.tokenValues_eq_iff shape htableHash htableRange]
    simp [and_assoc]

/-- An item with a key in the table, and in the named index, that fits a token: its key
attributes are scalars whose texts fit the frames. -/
structure TokenItem (table : StoredTableInfo) (index : Option Text)
    (item : AttributeValueLookup) : Prop where
  tableShape : Nonempty (KeySchemaShape table.keySchema)
  tableAttributes : TokenAttributes table.keySchema item
  indexShape : ∀ name ∈ index, Nonempty (KeySchemaShape (table.indexKeySchema name))
  indexAttributes : ∀ name ∈ index, TokenAttributes (table.indexKeySchema name) item

/-- **Page tokens resume at their key.** Both producers write the same token for the key of
an item, and it is read back as that key exactly when the key attributes of the item have
their declared types. -/
theorem pageToken_roundTrip {table : StoredTableInfo} {index : Option Text}
    {item : AttributeValueLookup} (h : TokenItem table index item) :
    ∃ key token, table.itemKey index item = .ok (some key) ∧ key.nextPageToken = .ok token ∧
      lastEvaluatedKeyFromLastItem item table index = .ok (some token) ∧
      (itemKeyFromNextPageToken token table index = .ok (some key)
        ↔ TypedKeyAttributes table table.keySchema item ∧
          ∀ name ∈ index, TypedKeyAttributes table (table.indexKeySchema name) item) := by
  obtain ⟨shape⟩ := h.tableShape
  cases index with
  | none =>
    obtain ⟨key, token, hkey, htoken, hlast, hread⟩ := tableToken_spec shape h.tableAttributes
    exact ⟨key, token, hkey, htoken, hlast, by simpa using hread⟩
  | some name =>
    obtain ⟨indexShape⟩ := h.indexShape name rfl
    obtain ⟨key, token, hkey, htoken, hlast, hread⟩ :=
      indexToken_spec shape indexShape h.tableAttributes (h.indexAttributes name rfl)
    exact ⟨key, token, hkey, htoken, hlast, by simpa [and_comm] using hread⟩

theorem eventItem_tokenItem :
    TokenItem eventTable (some (text "byTag")) (eventItem (text "1.50") (text "AQ==")) where
  tableShape := ⟨⟨text "pk", some (text "at"), .refl _⟩⟩
  tableAttributes := by
    refine forall_mem_cons.mpr ⟨?_, forall_mem_singleton.mpr ?_⟩ <;>
      exact ⟨_, _, rfl, rfl, by decide⟩
  indexShape := by
    rintro _ ⟨⟩
    exact ⟨⟨text "tag", some (text "at"), .swap _ _ _⟩⟩
  indexAttributes := by
    rintro _ ⟨⟩
    refine forall_mem_cons.mpr ⟨?_, forall_mem_singleton.mpr ?_⟩ <;>
      exact ⟨_, _, rfl, rfl, by decide⟩

/-- The token of an index row. -/
theorem pageToken_roundTrip_event :
    ∃ key token,
      eventTable.itemKey (some (text "byTag")) (eventItem (text "1.50") (text "AQ=="))
        = .ok (some key) ∧
      key.nextPageToken = .ok token ∧
      lastEvaluatedKeyFromLastItem (eventItem (text "1.50") (text "AQ==")) eventTable
        (some (text "byTag")) = .ok (some token) ∧
      (itemKeyFromNextPageToken token eventTable (some (text "byTag")) = .ok (some key)
        ↔ TypedKeyAttributes eventTable eventTable.keySchema
            (eventItem (text "1.50") (text "AQ==")) ∧
          ∀ name ∈ some (text "byTag"), TypedKeyAttributes eventTable
            (eventTable.indexKeySchema name) (eventItem (text "1.50") (text "AQ=="))) :=
  pageToken_roundTrip eventItem_tokenItem

/-- An event whose tag, declared as a binary, is a text: an item that was written before the
index on its tag existed. -/
def untypedEvent : AttributeValueLookup := fun name =>
  if name = text "tag" then some (.S (text "AQ==")) else eventItem (text "1.50") [] name

/-- The type of a key attribute is **not** part of the token: a text under a name declared as
a binary comes back as a binary, under another key. -/
theorem pageToken_loses_type :
    ∃ key token, eventTable.itemKey (some (text "byTag")) untypedEvent = .ok (some key) ∧
      key.nextPageToken = .ok token ∧
      itemKeyFromNextPageToken token eventTable (some (text "byTag")) ≠ .ok (some key) := by
  have hattributes : TokenAttributes eventTable.keySchema untypedEvent := by
    refine forall_mem_cons.mpr ⟨?_, forall_mem_singleton.mpr ?_⟩ <;>
      exact ⟨_, _, rfl, rfl, by decide⟩
  have hindex : TokenAttributes (eventTable.indexKeySchema (text "byTag")) untypedEvent := by
    refine forall_mem_cons.mpr ⟨?_, forall_mem_singleton.mpr ?_⟩ <;>
      exact ⟨_, _, rfl, rfl, by decide⟩
  let indexShape : KeySchemaShape (eventTable.indexKeySchema (text "byTag")) :=
    ⟨text "tag", some (text "at"), .swap _ _ _⟩
  obtain ⟨key, token, hkey, htoken, -, hread⟩ :=
    indexToken_spec ⟨text "pk", some (text "at"), .refl _⟩ indexShape hattributes hindex
  refine ⟨key, token, hkey, htoken, fun h => ?_⟩
  exact absurd ((hread.mp h).1 ⟨text "tag", .hash⟩ (by decide) _ rfl) (by decide)

end AuxStorage
