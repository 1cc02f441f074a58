import AuxStorage.PageToken
import AuxStorage.WireItemScalars

/-!
# The Three Planners of TTL Index Writes

A write changes the entry of its item in the TTL index. Three functions plan the change: one from
the attribute maps of the old and the new image, one from their wire items, and one that prepares
the new image first and reads the old one later. The first asks for a **number** under the TTL
attribute. The others read the text of any scalar, also under an alias of the attribute, and the
last one files the old entry under the key of the new image.
-/

namespace AuxStorage

open OrderedMap Framing List
open Option (bind_none bind_some map_none map_some mem_def mem_some none_or some_or)
open AttributeValue (innerStr)

/-! ### Index keys -/

/-- `str::parse::<i64>`: digits behind an optional sign, in range. -/
def parseI64 (t : Text) : Option ℤ :=
  let digits := if t.head? = some '+' ∨ t.head? = some '-' then t.tail else t
  if digits ≠ [] ∧ digits.all Char.isDigit then
    let value := digits.foldl (fun n c => 10 * n + ((c.toNat - '0'.toNat : ℕ) : ℤ)) 0
    checkedI64 (if t.head? = some '-' then -value else value)
  else none

/-- The errors of the planners. -/
inductive TtlError where
  | storage (error : StorageError)
  /-- A key error that is passed on. -/
  | itemKey (error : ItemKeyError)
  /-- `decode range source key: ..`, or `encode range source key: ..`. -/
  | rangeSource (opening : Text) (error : ItemKeyError)
  /-- `ttl index token build failed: ..`. -/
  | tokenBuild (error : TtlError)
  /-- `TransactionConflict`: `prepared TTL policy changed`. -/
  | policyChanged
  deriving DecidableEq

structure TtlIndexKey where
  ttlSeconds : ℤ
  token : Text
  deriving DecidableEq

inductive TtlIndexWrite where
  | delete (key : TtlIndexKey)
  | upsert (key : TtlIndexKey)
  deriving DecidableEq

/-- `TtlIndexKeyToken::from_item`. -/
def tokenFromItem (table : StoredTableInfo) (item : AttributeMap) : Except TtlError Text := do
  let token ← (lastEvaluatedKeyFromLastItem item.get table none).mapError
    fun error => .tokenBuild (.itemKey error)
  okOr (.storage (.internal (text "ttl index token missing key attributes"))) token

def TtlIndexKey.forItem (table : StoredTableInfo) (ttlAttribute : Text) (item : AttributeMap) :
    Except TtlError (Option TtlIndexKey) :=
  match item.get ttlAttribute with
  | some (.N value) =>
    match parseI64 value with
    | none => pure none
    | some seconds => do
        let token ← tokenFromItem table item
        pure (some ⟨seconds, token⟩)
  | _ => pure none

section Wire

variable (json : JsonFormat)

def hashKeyName (schema : List KeySchemaElement) : Except TtlError Text :=
  okOr (.storage (.internal (text "missing hash key in table schema")))
    ((schema.find? (·.keyType = .hash)).map (·.attributeName))

def rangeKeyName (schema : List KeySchemaElement) : Option Text :=
  (schema.find? (·.keyType = .range)).map (·.attributeName)

/-- A framed part of a token. -/
def scalarTokenPart (missing : Text) (value : Option Text) : Except TtlError (List UInt8) := do
  let value ← okOr (.storage (.internal missing)) value
  (lengthPrefixedKey value.bytes).mapError .itemKey

/-- The part of the range key, for a table that has one. -/
def rangeTokenPart (range : Option Text) (value : Option Text) : Except TtlError (List UInt8) :=
  match range with
  | none => pure []
  | some _ => scalarTokenPart (text "ttl index token missing range key attribute") value

def WireItem.ttlValueAndTableKeyToken (table : StoredTableInfo) (ttlAttribute : Text)
    (item : WireItem) : Except TtlError (Option (ℤ × Text)) := do
  let hash ← hashKeyName table.keySchema
  let range := rangeKeyName table.keySchema
  let values ← (item.scalarFields json (ttlAttribute :: hash :: range.toList)).mapError .storage
  match values[0]?.join.bind parseI64 with
  | none => pure none
  | some ttl => do
      let hashPart ← scalarTokenPart (text "ttl index token missing hash key attribute")
        values[1]?.join
      let rangePart ← rangeTokenPart range values[2]?.join
      pure (some (ttl, Base64.encode urlSafeAlphabet true (hashPart ++ rangePart)))

def TtlIndexKey.forWireItem (table : StoredTableInfo) (ttlAttribute : Text) (item : WireItem) :
    Except TtlError (Option TtlIndexKey) := do
  let found ← item.ttlValueAndTableKeyToken json table ttlAttribute
  pure (found.map fun found => ⟨found.1, found.2⟩)

/-- `TtlIndexKeyToken::from_wire_item`, through the key of the table. -/
def tokenFromWireItem (table : StoredTableInfo) (item : WireItem) : Except TtlError Text := do
  let fields := (table.keySchema.map (·.attributeName)).eraseDups
  let attributes ← (item.projectAttributes json fields).mapError fun error =>
    TtlError.tokenBuild (.storage error)
  let token ← if fields.any fun name => (attributes.get name).isNone then pure none
    else do
      let key ← (TableKey.fromKeySchema table.tableName table.keySchema attributes.get).mapError
        fun error => TtlError.tokenBuild (.rangeSource (text "decode range source key: ") error)
      let token ← (ItemKey.nextPageToken (.table key)).mapError
        fun error => TtlError.tokenBuild (.rangeSource (text "encode range source key: ") error)
      pure (some token)
  okOr (.storage (.internal (text "ttl index token missing key attributes"))) token

end Wire

/-! ### The planners -/

inductive TimeToLiveStatus where
  | enabling
  | enabled
  | disabling
  | disabled
  deriving DecidableEq, Repr

/-- `TtlConfigRecord`, as far as the planners read it. -/
structure TtlConfigRecord where
  attributeName : Text
  status : TimeToLiveStatus
  policyGeneration : ℕ
  deriving DecidableEq

/-- `ttl_tracking_enabled`, as a filter. -/
def TtlConfigRecord.tracking (config : Option TtlConfigRecord) : Option TtlConfigRecord :=
  config.filter fun config => config.status == .enabled || config.status == .enabling

open TtlConfigRecord

/-- `TtlIndexWriteBatch::from_keys`. -/
def batchFromKeys (old new : Option TtlIndexKey) : List TtlIndexWrite :=
  if old = new then [] else old.toList.map .delete ++ new.toList.map .upsert

/-- The two planners that look at both images at once. -/
def planImages {α : Type} (key : Text → α → Except TtlError (Option TtlIndexKey))
    (config : Option TtlConfigRecord) (old new : Option α) : Except TtlError (List TtlIndexWrite) :=
  match tracking config with
  | none => pure []
  | some config => do
      let oldKey ← match old with
        | some item => key config.attributeName item
        | none => pure none
      let newKey ← match new with
        | some item => key config.attributeName item
        | none => pure none
      pure (batchFromKeys oldKey newKey)

/-- `TtlIndexWriteBatch::for_items`. -/
def planForItems (table : StoredTableInfo) (config : Option TtlConfigRecord)
    (old new : Option AttributeMap) : Except TtlError (List TtlIndexWrite) :=
  planImages (TtlIndexKey.forItem table) config
    (old.filter fun item => !item.entries.isEmpty) (new.filter fun item => !item.entries.isEmpty)

/-- `TtlIndexWriteBatch::for_wire_items`. -/
def planForWireItems (json : JsonFormat) (table : StoredTableInfo)
    (config : Option TtlConfigRecord) (old new : Option WireItem) :
    Except TtlError (List TtlIndexWrite) :=
  planImages (TtlIndexKey.forWireItem json table) config old new

inductive PreparedTtlPut where
  | disabled
  | newItem (attributeName : Text) (generation : ℕ) (token : Text) (key : Option TtlIndexKey)

def PreparedTtlPut.tryNew (json : JsonFormat) (table : StoredTableInfo)
    (config : Option TtlConfigRecord) (item : WireItem) : Except TtlError PreparedTtlPut :=
  match tracking config with
  | none => pure .disabled
  | some config => do
      let key ← TtlIndexKey.forWireItem json table config.attributeName item
      let token ← match key with
        | some key => pure key.token
        | none => tokenFromWireItem json table item
      pure (.newItem config.attributeName config.policyGeneration token key)

def PreparedTtlPut.finish (json : JsonFormat) (config : Option TtlConfigRecord)
    (old : Option WireItem) (prepared : PreparedTtlPut) : Except TtlError (List TtlIndexWrite) :=
  match prepared, tracking config with
  | .disabled, none => pure []
  | .newItem attributeName generation token key, some config =>
    if attributeName = config.attributeName ∧ generation = config.policyGeneration then do
      let seconds ← match old with
        | none => pure none
        | some item => do
            let values ← (item.scalarFields json [attributeName]).mapError TtlError.storage
            pure (values[0]?.join.bind parseI64)
      pure (batchFromKeys (seconds.map fun seconds => ⟨seconds, token⟩) key)
    else .error .policyChanged
  | _, _ => .error .policyChanged

/-! ### Agreement -/

section Agreement

variable {json : JsonFormat} {table : StoredTableInfo} (shape : KeySchemaShape table.keySchema)

/-- The seconds under the TTL attribute, which are those of a number. -/
def numberSeconds (ttlAttribute : Text) (map : AttributeMap) : Option ℤ :=
  match map.get ttlAttribute with
  | some (.N value) => parseI64 value
  | _ => none

/-- The seconds that a wire item shows under the TTL attribute. -/
def WireItem.shownSeconds (ttlAttribute : Text) (map : AttributeMap) (item : WireItem) : Option ℤ :=
  (item.shownText map ttlAttribute).bind parseI64

/-- **A text that reads as seconds is the number under the TTL attribute**: it is no string or
binary there, and does not stand under an alias. -/
def ShowsNumber (ttlAttribute : Text) (map : AttributeMap) (item : WireItem) : Prop :=
  ∀ t, item.shownText map ttlAttribute = some t → (parseI64 t).isSome →
    map.get ttlAttribute = some (.N t)

/-- **An image of an item**: its map, and a wire item that encodes it. The keys fit a token. A TTL
attribute that is a key attribute, and shows seconds, stands in the keys of the wire item, where
it is found a second time. -/
structure TtlImage (json : JsonFormat) (ttlAttribute : Text) (map : AttributeMap)
    (item : WireItem) : Prop where
  encodes : item.Encodes json (ttlAttribute :: shape.names) map
  keys : TokenAttributes table.keySchema map.get
  keyed : ttlAttribute ∈ shape.names → (item.shownSeconds ttlAttribute map).isSome →
    ∃ value, (ttlAttribute, value) ∈ item.keyEntries

/-- The token of the key of an item. -/
def tableToken (item : AttributeValueLookup) : Text :=
  Base64.encode urlSafeAlphabet true
    ((shape.names.map fun name => (tokenText item name).bytes).flatMap frame)

variable {ttlAttribute : Text} {map : AttributeMap} {item : WireItem}

theorem WireItem.shownText_number {t : Text} (h : map.get ttlAttribute = some (.N t)) :
    item.shownText map ttlAttribute = some t := by
  rw [shownText, h, bind_some, innerStr, some_or]

theorem shownSeconds_of_number {seconds : ℤ} (h : numberSeconds ttlAttribute map = some seconds) :
    item.shownSeconds ttlAttribute map = some seconds := by
  rw [numberSeconds] at h
  split at h
  · next hget => rwa [WireItem.shownSeconds, WireItem.shownText_number hget, bind_some]
  · cases h

theorem showsNumber_iff : ShowsNumber ttlAttribute map item ↔
    item.shownSeconds ttlAttribute map = numberSeconds ttlAttribute map := by
  constructor
  · intro h
    cases hshown : item.shownSeconds ttlAttribute map with
    | none =>
      cases hnumber : numberSeconds ttlAttribute map with
      | none => rfl
      | some seconds => exact hshown.symm.trans (shownSeconds_of_number hnumber)
    | some seconds =>
      obtain ⟨t, ht, hparse⟩ := Option.bind_eq_some_iff.mp hshown
      rw [numberSeconds, h t ht (Option.isSome_of_eq_some hparse)]
      exact hparse.symm
  · intro h t ht hparse
    rw [WireItem.shownSeconds, ht, bind_some, numberSeconds] at h
    split at h
    · next hget =>
        rwa [← Option.some.inj ((WireItem.shownText_number hget).symm.trans ht)]
    · rw [h] at hparse
      cases hparse

theorem tokenFromItem_eq_ok (h : TokenAttributes table.keySchema map.get) :
    tokenFromItem table map = .ok (tableToken shape map.get) := by
  obtain ⟨hashKey, rangeKey, rangePart, hkeys, -, -, hhash, hrange, -, hparts⟩ :=
    h.exists_keys shape
  rw [tokenFromItem, lastEvaluatedKeyFromLastItem, TableKey.fromKeySchema, hkeys]
  simp only [bind, Except.bind, pure, Except.pure, hhash, hrange, hparts]
  rfl

theorem scalarTokenPart_eq_ok {name : Text} (hname : name ∈ shape.names)
    (h : TokenAttributes table.keySchema map.get) (missing : Text) :
    scalarTokenPart missing ((map.get name).bind innerStr)
      = .ok (frame (tokenText map.get name).bytes) := by
  obtain ⟨value, hget, htext, hlength⟩ := h.exists_value shape name hname
  rw [hget, bind_some, htext]
  change (lengthPrefixedKey _).mapError _ = _
  rw [lengthPrefixedKey_eq_ok.mpr ⟨hlength, rfl⟩]
  rfl

variable {shape}

variable {schema : List KeySchemaElement} {get get' : AttributeValueLookup}

theorem TokenAttributes.congr (h : TokenAttributes schema get)
    (heq : ∀ element ∈ schema, get' element.attributeName = get element.attributeName) :
    TokenAttributes schema get' := by
  intro element hmem
  rw [heq element hmem]
  exact h element hmem

theorem tableToken_congr (h : ∀ name ∈ shape.names, tokenText get name = tokenText get' name) :
    tableToken shape get = tableToken shape get' := by
  rw [tableToken, tableToken]
  refine congrArg (Base64.encode urlSafeAlphabet true) (congrArg (flatMap frame) ?_)
  exact map_congr_left fun name hname => by rw [h name hname]

theorem tableToken_inj (h : TokenAttributes table.keySchema get)
    (h' : TokenAttributes table.keySchema get') (heq : tableToken shape get = tableToken shape get') :
    ∀ name ∈ shape.names, tokenText get name = tokenText get' name := by
  have hframes := congrArg splitNextTokenToKeys (Base64.encode_injective heq)
  rw [splitNextTokenToKeys_frames fun part hpart => h.length_part shape hpart,
    splitNextTokenToKeys_frames fun part hpart => h'.length_part shape hpart,
    Except.ok.injEq, map_inj_left] at hframes
  exact fun name hname => Text.bytes_injective (hframes name hname)

theorem KeySchemaShape.attributeName_mem (shape : KeySchemaShape schema)
    {element : KeySchemaElement} (h : element ∈ schema) : element.attributeName ∈ shape.names := by
  rcases mem_cons.mp (shape.perm.mem_iff.mp h) with rfl | hmem
  · exact mem_cons_self
  · obtain ⟨name, hname, rfl⟩ := mem_map.mp hmem
    exact mem_cons_of_mem _ hname

/-- The entry of an image in the index, for the seconds that are found. -/
def imageKey (shape : KeySchemaShape table.keySchema) (seconds : Option ℤ) (map : AttributeMap) :
    Option TtlIndexKey :=
  seconds.map fun seconds => ⟨seconds, tableToken shape map.get⟩

variable {config : Option TtlConfigRecord} {record : TtlConfigRecord}

/-- A planner that sees both images compares their entries. -/
theorem planImages_eq_ok {α β : Type} {key : Text → α → Except TtlError (Option TtlIndexKey)}
    (htracking : tracking config = some record) {old new : Option β} (view : β → α)
    {entry : β → Option TtlIndexKey} (hkey : ∀ image, image ∈ old ∨ image ∈ new →
      key record.attributeName (view image) = .ok (entry image)) :
    planImages key config (old.map view) (new.map view)
      = .ok (batchFromKeys (old.bind entry) (new.bind entry)) := by
  rw [planImages, htracking]
  cases old with
  | none =>
    cases new with
    | none => rfl
    | some after =>
      simp only [map_none, map_some, hkey after (.inr rfl)]
      rfl
  | some before =>
    simp only [map_some, hkey before (.inl rfl)]
    cases new with
    | none => rfl
    | some after =>
      simp only [map_some, hkey after (.inr rfl)]
      rfl

theorem WireItem.Encodes.mono {fields fields' : List Text} (h : item.Encodes json fields map)
    (hsub : fields' ⊆ fields) : item.Encodes json fields' map := by
  obtain ⟨attributes, hpart, hmap, hagree⟩ := h
  exact ⟨attributes, hpart, hmap, fun field hmem => hagree field (hsub hmem)⟩

theorem imageKey_inj {seconds seconds' : Option ℤ} {map map' : AttributeMap}
    (h : imageKey shape seconds map = imageKey shape seconds' map') : seconds = seconds' := by
  have hseconds := congrArg (Option.map TtlIndexKey.ttlSeconds) h
  simpa [imageKey, Function.comp_def] using hseconds

/-- Two plans are equal where both change nothing, or compare the same entries. -/
theorem batchFromKeys_eq_iff {old new old' new' : Option TtlIndexKey} :
    batchFromKeys old new = batchFromKeys old' new' ↔
      (old = new ∧ old' = new') ∨ (old = old' ∧ new = new') := by
  have hnil {old new : Option TtlIndexKey} (hne : old ≠ new) :
      old.toList.map TtlIndexWrite.delete ++ new.toList.map TtlIndexWrite.upsert ≠ [] := by
    cases old <;> cases new <;> simp_all
  rw [batchFromKeys, batchFromKeys]
  split_ifs with h h' h'
  · simp [h, h']
  · refine iff_of_false (hnil h').symm ?_
    rintro (⟨-, heq⟩ | ⟨rfl, rfl⟩)
    · exact h' heq
    · exact h' h
  · refine iff_of_false (hnil h) ?_
    rintro (⟨heq, -⟩ | ⟨rfl, rfl⟩)
    · exact h heq
    · exact h h'
  · cases old <;> cases new <;> cases old' <;> cases new' <;> simp_all

variable (h : TtlImage shape json ttlAttribute map item)

include h

/-- The key of an image, from its map. -/
theorem TtlImage.forItem :
    TtlIndexKey.forItem table ttlAttribute map
      = .ok (imageKey shape (numberSeconds ttlAttribute map) map) := by
  rw [TtlIndexKey.forItem, numberSeconds]
  split
  · next value _ =>
      cases parseI64 value with
      | none => rfl
      | some seconds =>
        simp only [tokenFromItem_eq_ok shape h.keys]
        rfl
  · rfl

/-- The token of an image without a TTL attribute. -/
theorem TtlImage.tokenFromWireItem :
    AuxStorage.tokenFromWireItem json table item = .ok (tableToken shape map.get) := by
  obtain ⟨attributes, hpart, hmap, hagree⟩ := h.encodes
  obtain ⟨projection, hproject, hget⟩ := item.projectAttributes_eq_ok hpart
    (table.keySchema.map (·.attributeName)).eraseDups
  have hnames : ∀ element ∈ table.keySchema,
      projection.get element.attributeName = map.get element.attributeName := by
    intro element helement
    have hfield := mem_cons_of_mem ttlAttribute (shape.attributeName_mem helement)
    obtain ⟨value, -, hvalue, -⟩ := h.keys element helement
    rw [hget, if_pos (mem_eraseDups.mpr (mem_map_of_mem helement)), hvalue]
    cases hkey : lookup item.keyEntries element.attributeName with
    | some other =>
      rw [some_or, ← hvalue]
      exact (hagree _ hfield other (.inr (mem_of_lookup_eq_some hkey))).symm
    | none =>
      rw [hmap, get_insertAll, lookup_reverse_eq_none_iff.mpr hkey, none_or] at hvalue
      rw [none_or, hvalue]
  have htoken := h.keys.congr hnames
  obtain ⟨hashKey, rangeKey, rangePart, hkeys, -, -, -, -, hjoined, hparts⟩ :=
    htoken.exists_keys shape
  have hpresent : ((table.keySchema.map (·.attributeName)).eraseDups.any fun name =>
      (projection.get name).isNone) = false := by
    rw [any_eq_false]
    intro name hname
    obtain ⟨element, helement, rfl⟩ := mem_map.mp (mem_eraseDups.mp hname)
    obtain ⟨value, -, hvalue, -⟩ := htoken element helement
    simp [hvalue]
  have hsame : tableToken shape projection.get = tableToken shape map.get := by
    refine tableToken_congr fun name hname => ?_
    obtain ⟨element, helement, rfl⟩ := shape.mem_of_mem_names hname
    rw [tokenText, tokenText, hnames element helement]
  rw [AuxStorage.tokenFromWireItem, ← hsame]
  simp only [hproject, hpresent, TableKey.fromKeySchema, hkeys, ItemKey.nextPageToken,
    ItemKey.hashRangeKeyPart, hjoined, hparts, bind, Except.bind, pure, Except.pure,
    Except.mapError, Bool.false_eq_true, if_false]
  rfl

theorem TtlImage.not_isEmpty : (!map.entries.isEmpty) = true := by
  obtain ⟨value, hget, -⟩ := h.keys.exists_value shape shape.hash mem_cons_self
  have hmem := map.get_eq_some_iff.mp hget
  cases hentries : map.entries with
  | nil =>
    rw [hentries] at hmem
    cases hmem
  | cons entry rest => rfl

/-- The key of an image, from its wire item. -/
theorem TtlImage.forWireItem (hnames : shape.names.Nodup) :
    TtlIndexKey.forWireItem json table ttlAttribute item
      = .ok (imageKey shape (item.shownSeconds ttlAttribute map) map) := by
  have hhashName : hashKeyName table.keySchema = .ok shape.hash := by
    rw [hashKeyName, shape.find_hash]
    rfl
  have hrangeName : rangeKeyName table.keySchema = shape.range := by
    rw [rangeKeyName, shape.find_range, Option.map_map]
    cases shape.range <;> rfl
  rw [TtlIndexKey.forWireItem, WireItem.ttlValueAndTableKeyToken, hhashName, hrangeName]
  cases hseconds : item.shownSeconds ttlAttribute map with
  | none =>
    -- only the first answer is looked at
    obtain ⟨get, fallback, hscalars, hselect⟩ := h.encodes.exists_selection
    rw [KeySchemaShape.names] at hscalars
    have hfirst := (hselect ttlAttribute mem_cons_self).1
    have hnone : (((get ttlAttribute).bind innerStr).or (fallback ttlAttribute)).bind parseI64
        = none := by
      rw [hfirst]
      exact hseconds
    simp only [bind, Except.bind, hscalars, Except.mapError, firstScalars, firstRequests,
      not_mem_nil, if_false, map_cons, zipWith_cons_cons, getElem?_cons_zero, Option.join_some]
    rw [hnone]
    rfl
  | some seconds =>
    have hscalars := h.encodes.scalarFields_eq_ok fun field hrepeat => by
      rcases duplicate_cons_iff.mp hrepeat with ⟨rfl, hmem⟩ | hrepeat
      · exact h.keyed hmem (Option.isSome_of_eq_some hseconds)
      · exact absurd hnames hrepeat.not_nodup
    have hshown : ∀ name ∈ shape.names,
        item.shownText map name = (map.get name).bind innerStr := by
      intro name hname
      obtain ⟨value, hget, htext, -⟩ := h.keys.exists_value shape name hname
      rw [WireItem.shownText, hget, bind_some, htext, some_or]
    rw [KeySchemaShape.names] at hscalars
    have hhash := scalarTokenPart_eq_ok shape mem_cons_self h.keys
      (text "ttl index token missing hash key attribute")
    have hrange : rangeTokenPart shape.range
        ((((ttlAttribute :: shape.hash :: shape.range.toList).map fun field =>
          item.shownText map field))[2]?.join)
        = .ok ((shape.range.toList.map fun name => (tokenText map.get name).bytes).flatMap
            frame) := by
      cases hname : shape.range with
      | none => rfl
      | some name =>
        rw [rangeTokenPart]
        have hmem : name ∈ shape.names := by simp [KeySchemaShape.names, hname]
        simpa [hshown name hmem] using scalarTokenPart_eq_ok shape hmem h.keys _
    have hparse : (item.shownText map ttlAttribute).bind parseI64 = some seconds := hseconds
    simp only [bind, Except.bind, hscalars, Except.mapError, hrange]
    simp only [map_cons, getElem?_cons_zero, getElem?_cons_succ, Option.join_some, hparse,
      hshown shape.hash mem_cons_self, hhash]
    rfl

theorem TtlImage.oldSeconds :
    item.scalarFields json [ttlAttribute] = .ok [item.shownText map ttlAttribute] :=
  WireItem.Encodes.scalarFields_eq_ok (h.encodes.mono (by simp)) fun _ hrepeat =>
    absurd hrepeat (not_duplicate_singleton _ _)

theorem TtlImage.tryNew (hnames : shape.names.Nodup) (htracking : tracking config = some record)
    (hname : record.attributeName = ttlAttribute) :
    PreparedTtlPut.tryNew json table config item
      = .ok (.newItem ttlAttribute record.policyGeneration (tableToken shape map.get)
          (imageKey shape (item.shownSeconds ttlAttribute map) map)) := by
  rw [PreparedTtlPut.tryNew, htracking]
  simp only [hname, h.forWireItem hnames]
  rw [imageKey]
  cases item.shownSeconds ttlAttribute map with
  | none =>
    simp only [bind, Except.bind, map_none, h.tokenFromWireItem]
    rfl
  | some seconds => rfl

omit h

/-! ### Plans for two images -/

/-- The entry of an image, as its map has it. -/
def numberKey (shape : KeySchemaShape table.keySchema) (ttlAttribute : Text)
    (image : AttributeMap × WireItem) : Option TtlIndexKey :=
  imageKey shape (numberSeconds ttlAttribute image.1) image.1

/-- The entry of an image, as its wire item shows it. -/
def shownKey (shape : KeySchemaShape table.keySchema) (ttlAttribute : Text)
    (image : AttributeMap × WireItem) : Option TtlIndexKey :=
  imageKey shape (image.2.shownSeconds ttlAttribute image.1) image.1

/-- **The keys are spelled alike** in an old image that shows seconds and in the new one. -/
def SpelledAlike (shape : KeySchemaShape table.keySchema) (ttlAttribute : Text)
    (old new : Option (AttributeMap × WireItem)) : Prop :=
  ∀ before ∈ old, ∀ after ∈ new, (before.2.shownSeconds ttlAttribute before.1).isSome →
    ∀ name ∈ shape.names, tokenText before.1.get name = tokenText after.1.get name

/-- **Each image shows the number** under its TTL attribute, or both images have the same seconds,
for every reader. -/
def SameSeconds (ttlAttribute : Text) (old new : Option (AttributeMap × WireItem)) : Prop :=
  (∀ image, image ∈ old ∨ image ∈ new → ShowsNumber ttlAttribute image.1 image.2) ∨
    (old.bind fun image => numberSeconds ttlAttribute image.1)
        = (new.bind fun image => numberSeconds ttlAttribute image.1) ∧
      (old.bind fun image => image.2.shownSeconds ttlAttribute image.1)
        = new.bind fun image => image.2.shownSeconds ttlAttribute image.1

variable {old new : Option (AttributeMap × WireItem)}

theorem map_bind_imageKey (seconds : AttributeMap × WireItem → Option ℤ) :
    (old.bind fun image => imageKey shape (seconds image) image.1).map TtlIndexKey.ttlSeconds
      = old.bind seconds := by
  cases old with
  | none => rfl
  | some image => simp [imageKey, Function.comp_def]

/-- Images with the same seconds, and keys that are spelled alike, have the same entry. -/
theorem bind_imageKey_eq (seconds : AttributeMap × WireItem → Option ℤ)
    (hseconds : old.bind seconds = new.bind seconds)
    (hshown : ∀ image s, seconds image = some s →
      (image.2.shownSeconds ttlAttribute image.1).isSome)
    (hkeys : SpelledAlike shape ttlAttribute old new) :
    (old.bind fun image => imageKey shape (seconds image) image.1)
      = new.bind fun image => imageKey shape (seconds image) image.1 := by
  cases old with
  | none =>
    cases new with
    | none => rfl
    | some after => rw [bind_some, imageKey, ← bind_some after seconds, ← hseconds]; rfl
  | some before =>
    cases new with
    | none => rw [bind_some, imageKey, ← bind_some before seconds, hseconds]; rfl
    | some after =>
      rw [bind_some, bind_some] at hseconds ⊢
      rw [imageKey, imageKey, ← hseconds]
      cases hs : seconds before with
      | none => rfl
      | some s =>
        rw [map_some, map_some,
          tableToken_congr (hkeys before rfl after rfl (hshown before s hs))]

/-- The plans of both images agree, for keys that are spelled alike. -/
theorem batches_agree_iff (hkeys : SpelledAlike shape ttlAttribute old new) :
    batchFromKeys (old.bind (shownKey shape ttlAttribute)) (new.bind (shownKey shape ttlAttribute))
      = batchFromKeys (old.bind (numberKey shape ttlAttribute))
        (new.bind (numberKey shape ttlAttribute)) ↔ SameSeconds ttlAttribute old new := by
  constructor
  · rw [batchFromKeys_eq_iff]
    rintro (⟨hshown, hnumber⟩ | ⟨hold, hnew⟩)
    · refine .inr ⟨?_, ?_⟩
      · have hseconds := congrArg (Option.map TtlIndexKey.ttlSeconds) hnumber
        exact (map_bind_imageKey _).symm.trans (hseconds.trans (map_bind_imageKey _))
      · have hseconds := congrArg (Option.map TtlIndexKey.ttlSeconds) hshown
        exact (map_bind_imageKey _).symm.trans (hseconds.trans (map_bind_imageKey _))
    · left
      rintro image (hmem | hmem)
      · rw [mem_def.mp hmem, bind_some, bind_some] at hold
        exact showsNumber_iff.mpr (imageKey_inj hold)
      · rw [mem_def.mp hmem, bind_some, bind_some] at hnew
        exact showsNumber_iff.mpr (imageKey_inj hnew)
  · rintro (h | ⟨hnumber, hshown⟩)
    · have hentry : ∀ image, image ∈ old ∨ image ∈ new →
          shownKey shape ttlAttribute image = numberKey shape ttlAttribute image := by
        intro image hmem
        rw [shownKey, showsNumber_iff.mp (h image hmem)]
        rfl
      rw [Option.bind_congr fun image hmem => hentry image (.inl hmem),
        Option.bind_congr fun image hmem => hentry image (.inr hmem)]
    · refine batchFromKeys_eq_iff.mpr (.inl ⟨?_, ?_⟩)
      · exact bind_imageKey_eq _ hshown (fun _ _ h => Option.isSome_of_eq_some h) hkeys
      · exact bind_imageKey_eq _ hnumber
          (fun _ _ h => Option.isSome_of_eq_some (shownSeconds_of_number h)) hkeys

variable (himages : ∀ image, image ∈ old ∨ image ∈ new →
    TtlImage shape json record.attributeName image.1 image.2)

include himages

theorem planForItems_eq_ok (htracking : tracking config = some record) :
    planForItems table config (old.map Prod.fst) (new.map Prod.fst)
      = .ok (batchFromKeys (old.bind (numberKey shape record.attributeName))
          (new.bind (numberKey shape record.attributeName))) := by
  have hfilter (images : Option (AttributeMap × WireItem))
      (h : ∀ image ∈ images, image ∈ old ∨ image ∈ new) :
      ((images.map Prod.fst).filter fun item => !item.entries.isEmpty) = images.map Prod.fst := by
    cases images with
    | none => rfl
    | some image => exact if_pos (himages image (h image rfl)).not_isEmpty
  rw [planForItems, hfilter old fun _ h => .inl h, hfilter new fun _ h => .inr h]
  exact planImages_eq_ok htracking Prod.fst fun image hmem => (himages image hmem).forItem

theorem planForWireItems_eq_ok (hnames : shape.names.Nodup)
    (htracking : tracking config = some record) :
    planForWireItems json table config (old.map Prod.snd) (new.map Prod.snd)
      = .ok (batchFromKeys (old.bind (shownKey shape record.attributeName))
          (new.bind (shownKey shape record.attributeName))) :=
  planImages_eq_ok htracking Prod.snd fun image hmem => (himages image hmem).forWireItem hnames

/-- A prepared put files the old entry under the token of the new image. -/
theorem finish_tryNew_eq_ok (hnames : shape.names.Nodup) (htracking : tracking config = some record)
    {after : AttributeMap × WireItem} (hnew : after ∈ new) :
    (PreparedTtlPut.tryNew json table config after.2 >>=
      PreparedTtlPut.finish json config (old.map Prod.snd))
      = .ok (batchFromKeys (old.bind fun before =>
          imageKey shape (before.2.shownSeconds record.attributeName before.1) after.1)
        (new.bind (shownKey shape record.attributeName))) := by
  obtain rfl := mem_def.mp hnew
  rw [(himages after (.inr rfl)).tryNew hnames htracking rfl]
  simp only [bind, Except.bind, PreparedTtlPut.finish, htracking, and_self, if_true]
  cases old with
  | none => rfl
  | some before =>
    simp only [map_some, (himages before (.inl rfl)).oldSeconds]
    rfl

/-- The old entry is filed under its own token where the keys are spelled alike. -/
theorem imageKey_eq_shownKey_iff {before after : AttributeMap × WireItem} (hold : before ∈ old)
    (hnew : after ∈ new) :
    imageKey shape (before.2.shownSeconds record.attributeName before.1) after.1
        = shownKey shape record.attributeName before ↔
      ((before.2.shownSeconds record.attributeName before.1).isSome → ∀ name ∈ shape.names,
        tokenText before.1.get name = tokenText after.1.get name) := by
  rw [shownKey, imageKey, imageKey]
  cases before.2.shownSeconds record.attributeName before.1 with
  | none => simp
  | some seconds =>
    simp only [map_some, Option.some.injEq, TtlIndexKey.mk.injEq, true_and, Option.isSome_some,
      true_imp_iff]
    exact ⟨fun h => tableToken_inj (himages before (.inl hold)).keys
      (himages after (.inr hnew)).keys h.symm, fun h => (tableToken_congr h).symm⟩

/-- A prepared put agrees with the plan of both images where the keys are spelled alike. -/
theorem puts_agree_iff (hnames : shape.names.Nodup) (htracking : tracking config = some record) :
    (∀ after ∈ new, (PreparedTtlPut.tryNew json table config after.2 >>=
        PreparedTtlPut.finish json config (old.map Prod.snd)) = .ok (batchFromKeys
          (old.bind (shownKey shape record.attributeName))
          (new.bind (shownKey shape record.attributeName)))) ↔
      SpelledAlike shape record.attributeName old new := by
  constructor
  · intro h before hold after hnew
    refine (imageKey_eq_shownKey_iff himages hold hnew).mp ?_
    have hbatch := h after hnew
    rw [finish_tryNew_eq_ok himages hnames htracking hnew, Except.ok.injEq, mem_def.mp hold,
      mem_def.mp hnew, bind_some, bind_some, bind_some, batchFromKeys_eq_iff] at hbatch
    rcases hbatch with ⟨hleft, hright⟩ | ⟨hleft, -⟩
    · exact hleft.trans hright.symm
    · exact hleft
  · intro h after hnew
    rw [finish_tryNew_eq_ok himages hnames htracking hnew]
    cases hold : old with
    | none => rfl
    | some before =>
      rw [bind_some, bind_some, (imageKey_eq_shownKey_iff himages hold hnew).mpr
        (h before hold after hnew)]

end Agreement

/-- A table with a hash key. -/
def ttlTable : StoredTableInfo where
  tableName := text "t"
  attributeDefinitions := []
  keySchema := [⟨text "k", .hash⟩]
  maxIndexers := 0
  globalSecondaryIndexes := none

def ttlShape : KeySchemaShape ttlTable.keySchema := ⟨text "k", none, .refl _⟩

/-- Expiry by the attribute `x`. -/
def ttlConfig : TtlConfigRecord := ⟨text "x", .enabled, 1⟩

/-- A key attribute, where the value is a scalar. -/
def scalarKey (name : Text) (value : AttributeValue) (h : value.SortedNames) :
    WireItemKeyAttributes :=
  ⟨name, value, none, none, h, sortedNames_none⟩

/-- An item with the key `k` and the attribute `x`. -/
def ttlMap (key ttl : AttributeValue) : AttributeMap :=
  (OrderedMap.empty.insert (text "k") key).insert (text "x") ttl

def numberWire (key ttl : Text) : WireItem :=
  .localSplit (scalarKey (text "k") (.N key) trivial)
    (some (scalarKey (text "x") (.N ttl) trivial)) none

def textWire (key ttl : Text) : WireItem :=
  .localSplit (scalarKey (text "k") (.N key) trivial)
    (some (scalarKey (text "x") (.S ttl) trivial)) none

theorem ttlImage_number (key ttl : Text) (hlength : key.bytes.length < 65536) :
    TtlImage ttlShape .counting (text "x") (ttlMap (.N key) (.N ttl)) (numberWire key ttl) where
  encodes := by
    refine ⟨.empty, rfl, fun name => rfl, fun field _ value hvalue => ?_⟩
    rcases hvalue with hvalue | hvalue
    · cases hvalue
    · have hentries : (numberWire key ttl).keyEntries
          = [(text "k", .N key), (text "x", .N ttl)] := rfl
      rw [hentries] at hvalue
      simp only [mem_cons, Prod.mk.injEq, not_mem_nil, or_false] at hvalue
      rcases hvalue with ⟨rfl, rfl⟩ | ⟨rfl, rfl⟩ <;> rfl
  keys := by
    intro element hmem
    obtain rfl := mem_singleton.mp hmem
    exact ⟨.N key, key, rfl, rfl, hlength⟩
  keyed := fun hmem => absurd hmem (by decide)

end AuxStorage
