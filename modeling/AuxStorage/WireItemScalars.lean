import AuxStorage.PageToken
import AuxStorage.WireItemViews

/-!
# The Scalars of a Wire Item

Some attributes have a long and a short name, and a request for one of the names may be answered
under the other. An item in JSON is searched for both names. A split item is searched for the
requested name in all its parts, but for the alias in its keys only.
-/

namespace AuxStorage

open OrderedMap List
open Option (bind_none bind_some map_none map_some mem_def mem_some none_or some_or)
open AttributeValue (innerStr)

/-! ### Scalars of a wire item -/

/-- A text or nothing, as the JSON library reads an optional string. -/
def optionalString : Json → Option (Option Text)
  | .null => some none
  | .string value => some (some value)
  | _ => none

/-- The fields of `BorrowedScalarAttribute`, with what was read under the three names. A name that
comes twice is an error, and other names are passed over. -/
def visitScalarAttribute (string number binary : Option (Option Text)) :
    List (Text × Json) → Option (Option Text)
  | [] => some (string.join.or (number.join.or binary.join))
  | (key, value) :: rest =>
    if key = text "S" then
      if string.isSome then none
      else (optionalString value).bind fun t => visitScalarAttribute (some t) number binary rest
    else if key = text "N" then
      if number.isSome then none
      else (optionalString value).bind fun t => visitScalarAttribute string (some t) binary rest
    else if key = text "B" then
      if binary.isSome then none
      else (optionalString value).bind fun t => visitScalarAttribute string number (some t) rest
    else visitScalarAttribute string number binary rest

/-- `BorrowedScalarAttribute` and `into_scalar`. The three fields may also come as an array. -/
def scalarFromJson : Json → Option (Option Text)
  | .object fields => visitScalarAttribute none none none fields
  | .array values =>
    if values.length ≤ 3 then
      (values.mapM optionalString).map fun texts => (texts.find? Option.isSome).join
    else none
  | _ => none

def aliasField (field : Text) : Option Text :=
  if field = text "entity_type" then some (text "et")
  else if field = text "et" then some (text "entity_type")
  else if field = text "created_at" then some (text "c_at")
  else if field = text "c_at" then some (text "created_at")
  else if field = text "updated_at" then some (text "u_at")
  else if field = text "u_at" then some (text "updated_at")
  else if field = text "expires_at" then some (text "e_at")
  else if field = text "e_at" then some (text "expires_at")
  else none

/-- `ScalarFieldVisitor`. -/
def visitScalarFields (fields : List Text) (values : List (Option Text)) :
    List (Text × Json) → Except Text (List (Option Text))
  | [] => .ok values
  | (key, value) :: rest =>
    match fields.findIdx? (· == key) with
    | some index =>
      match scalarFromJson value with
      | none => .error []
      | some none => visitScalarFields fields values rest
      | some (some scalar) => visitScalarFields fields (values.set index (some scalar)) rest
    | none => visitScalarFields fields values rest

/-- `ScalarFieldAliasVisitor`: a field that is an alias of others is kept for them, and used where
they are absent. -/
def visitAliasedScalarFields (fields : List Text) (values aliasValues : List (Option Text)) :
    List (Text × Json) → Except Text (List (Option Text))
  | [] => .ok (List.zipWith Option.or values aliasValues)
  | (key, value) :: rest =>
    let direct := fields.findIdx? (· == key)
    let named := fields.map fun field => aliasField field == some key
    if direct.isNone && !named.any id then
      visitAliasedScalarFields fields values aliasValues rest
    else
      match scalarFromJson value with
      | none => .error []
      | some none => visitAliasedScalarFields fields values aliasValues rest
      | some (some scalar) =>
        visitAliasedScalarFields fields
          (match direct with
            | some index => values.set index (some scalar)
            | none => values)
          ((aliasValues.zip named).mapIdx fun index entry =>
            if entry.2 && direct != some index then some scalar else entry.1)
          rest

section Scalars

variable (json : JsonFormat)

def parseDynamoScalarFields (bytes : List UInt8) (fields : List Text) :
    Except StorageError (List (Option Text)) :=
  (json.deserializeMap (visitScalarFields fields (List.replicate fields.length none)) []
    bytes).mapError fun _ => .serialization

def parseDynamoScalarFieldsWithAliases (bytes : List UInt8) (fields : List Text) :
    Except StorageError (List (Option Text)) :=
  if fields.all fun field => (aliasField field).isNone then
    parseDynamoScalarFields json bytes fields
  else
    (json.deserializeMap (visitAliasedScalarFields fields (List.replicate fields.length none)
      (List.replicate fields.length none)) [] bytes).mapError fun _ => .serialization

def scalarFromKeyAttributes (keys : WireItemKeyAttributes) (field : Text) : Option Text :=
  (attributeFromKeyAttributes keys field).bind innerStr

/-- The scalar of the primary key, or else of the secondary one. -/
def scalarFromKeys (primaryKey : WireItemKeyAttributes)
    (secondaryKey : Option WireItemKeyAttributes) (field : Text) : Option Text :=
  (scalarFromKeyAttributes primaryKey field).or
    (secondaryKey.bind fun keys => scalarFromKeyAttributes keys field)

/-- `scalar_fields`, and `scalar_attributes`. -/
def WireItem.scalarFields (fields : List Text) :
    WireItem → Except StorageError (List (Option Text))
  | .dynamoJson data => parseDynamoScalarFieldsWithAliases json data fields
  | .localSplit primaryKey secondaryKey blob => do
      let values ← readBlob blob (List.replicate fields.length none) fun blob =>
        parseDynamoScalarFields json blob fields
      pure (List.zipWith (fun field value =>
        value.or ((scalarFromKeys primaryKey secondaryKey field).or
          ((aliasField field).bind (scalarFromKeys primaryKey secondaryKey)))) fields values)

end Scalars

/-! ### Scalars of valid attributes -/

/-- The scalar of an attribute is its text, if it is one. -/
theorem scalarFromJson_of_fromJson {value : Json} {decoded : AttributeValue}
    (h : AttributeValue.fromJson value = some decoded) :
    scalarFromJson value = some decoded.innerStr := by
  have hother {tag : Text} {content : Json} (hS : tag ≠ text "S") (hN : tag ≠ text "N")
      (hB : tag ≠ text "B") : scalarFromJson (.object [(tag, content)]) = some none := by
    simp [scalarFromJson, visitScalarAttribute, hS, hN, hB]
  rw [AttributeValue.fromJson.eq_def] at h
  split at h
  · split_ifs at h with hS hN hB
    · cases h
      simp [scalarFromJson, visitScalarAttribute, hS, optionalString, innerStr]
    · cases h
      simp [scalarFromJson, visitScalarAttribute, hN, optionalString, innerStr,
        show text "N" ≠ text "S" by decide]
    · cases h
      simp [scalarFromJson, visitScalarAttribute, hB, optionalString, innerStr,
        show text "B" ≠ text "S" by decide, show text "B" ≠ text "N" by decide]
  · split_ifs at h with hBOOL hNULL
    · cases h
      rw [hBOOL]
      exact hother (by decide) (by decide) (by decide)
    · cases h
      rw [hNULL]
      exact hother (by decide) (by decide) (by decide)
  · split_ifs at h with hSS hNS hBS hL
    all_goals obtain ⟨content, -, rfl⟩ := Option.map_eq_some_iff.mp h
    · rw [hSS]
      exact hother (by decide) (by decide) (by decide)
    · rw [hNS]
      exact hother (by decide) (by decide) (by decide)
    · rw [hBS]
      exact hother (by decide) (by decide) (by decide)
    · rw [hL]
      exact hother (by decide) (by decide) (by decide)
  · split_ifs at h with hM
    obtain ⟨content, -, rfl⟩ := Option.map_eq_some_iff.mp h
    rw [hM]
    exact hother (by decide) (by decide) (by decide)
  · cases h

/-- The scalars that a selection takes from a map. -/
def firstScalars (get : Text → Option AttributeValue) (fields : List Text) : List (Option Text) :=
  (firstRequests get [] fields).map (·.bind innerStr)

theorem map_firstRequests_congr {get get' : Text → Option AttributeValue}
    (h : ∀ field, (get field).bind innerStr
      = (get' field).bind innerStr) (seen fields : List Text) :
    (firstRequests get seen fields).map (·.bind innerStr)
      = (firstRequests get' seen fields).map (·.bind innerStr) := by
  induction fields generalizing seen with
  | nil => rfl
  | cons field rest ih =>
    rw [firstRequests, firstRequests, map_cons, map_cons, ih]
    split
    · rfl
    · rw [h]

variable {attributes : AttributeMap}

/-- A new attribute fills the first request of its name, if it is a scalar. -/
theorem firstScalars_insert {name : Text} (hnone : attributes.get name = none)
    (value : AttributeValue) (fields : List Text) :
    firstScalars (attributes.insert name value).get fields
      = match fields.findIdx? (· == name), value.innerStr with
        | some index, some scalar => (firstScalars attributes.get fields).set index (some scalar)
        | _, _ => firstScalars attributes.get fields := by
  cases hscalar : value.innerStr with
  | none =>
    have hsame : firstScalars (attributes.insert name value).get fields
        = firstScalars attributes.get fields := by
      refine map_firstRequests_congr (fun field => ?_) [] fields
      rw [get_insert]
      split
      · rename_i heq
        rw [heq, hnone, bind_none, bind_some, hscalar]
      · rfl
    rw [hsame]
    cases fields.findIdx? (· == name) <;> rfl
  | some scalar =>
    rw [firstScalars, firstRequests_insert]
    cases fields.findIdx? (· == name) with
    | none => rfl
    | some index => exact (map_set ..).trans (by rw [bind_some, hscalar]; rfl)

theorem firstScalars_empty (fields : List Text) :
    firstScalars (OrderedMap.empty : AttributeMap).get fields = replicate fields.length none := by
  rw [firstScalars, firstRequests_empty, map_replicate]
  rfl

/-- A text that is read as a map fills a selection of scalars from that map. -/
theorem visitScalarFields_of_visitMap {map : AttributeMap} {content : List (Text × Json)}
    (h : attributes.visitMap content = .ok map) (fields : List Text) :
    visitScalarFields fields (firstScalars attributes.get fields) content
      = .ok (firstScalars map.get fields) := by
  induction content generalizing attributes with
  | nil =>
    rw [AttributeMap.visitMap, Except.ok.injEq] at h
    rw [visitScalarFields, h]
  | cons field rest ih =>
    obtain ⟨name, value⟩ := field
    obtain ⟨hnone, decoded, hread, hrest⟩ := AttributeMap.visitMap_cons_eq_ok.mp h
    rw [← ih hrest, firstScalars_insert hnone, visitScalarFields, scalarFromJson_of_fromJson hread]
    cases fields.findIdx? (· == name) <;> cases decoded.innerStr <;> rfl

variable {fields : List Text}

theorem firstScalars_of_nodup (get : Text → Option AttributeValue) (h : fields.Nodup) :
    firstScalars get fields = fields.map fun field => (get field).bind innerStr := by
  have hseen (seen : List Text) (hdisjoint : ∀ field ∈ fields, field ∉ seen) :
      firstRequests get seen fields = fields.map get := by
    induction fields generalizing seen with
    | nil => rfl
    | cons field rest ih =>
      obtain ⟨hnot, hrest⟩ := nodup_cons.mp h
      rw [firstRequests, if_neg (hdisjoint field mem_cons_self), map_cons, ih hrest]
      rintro field' hmem hseen
      rcases mem_cons.mp hseen with rfl | hseen
      · exact hnot hmem
      · exact hdisjoint field' (mem_cons_of_mem _ hmem) hseen
  rw [firstScalars, hseen [] (by simp), map_map]
  rfl

theorem parseDynamoScalarFields_eq_ok {json : JsonFormat} {bytes : List UInt8}
    (hvisit : AttributeMap.visitMap .empty (json.scan bytes).fields = .ok attributes)
    (hend : (json.scan bytes).ending = .complete) (fields : List Text) :
    parseDynamoScalarFields json bytes fields = .ok (firstScalars attributes.get fields) := by
  rw [parseDynamoScalarFields, Except.mapError_eq_ok, JsonFormat.deserializeMap_eq_ok, hend,
    ← firstScalars_empty]
  exact ⟨visitScalarFields_of_visitMap hvisit fields, by decide⟩

/-! ### Wire items of a map -/

/-- **A wire item encodes a map**, and all of its parts that name one of the fields give it the
value of the map. -/
def WireItem.Encodes (json : JsonFormat) (fields : List Text) (map : AttributeMap)
    (item : WireItem) : Prop :=
  ∃ attributes, item.jsonPart json = .ok attributes ∧
    (∀ name, map.get name = (attributes.insertAll item.keyEntries).get name) ∧
    ∀ field ∈ fields, ∀ value,
      attributes.get field = some value ∨ (field, value) ∈ item.keyEntries →
        map.get field = some value

/-- The first scalar of several parts that agree. -/
theorem scalar_of_parts {parts : List (Option AttributeValue)} {value : Option AttributeValue}
    (hsub : ∀ part ∈ parts, ∀ v, part = some v → value = some v)
    (hsome : ∀ v, value = some v → some v ∈ parts) :
    parts.foldr (fun part rest => (part.bind innerStr).or rest) none = value.bind innerStr := by
  have hfold : ∀ parts : List (Option AttributeValue),
      (∀ part ∈ parts, ∀ v, part = some v → value = some v) →
      parts.foldr (fun part rest => (part.bind innerStr).or rest) none
        = if value ∈ parts then value.bind innerStr else none := by
    intro parts h
    induction parts with
    | nil => rfl
    | cons part rest ih =>
      rw [foldr_cons, ih fun p hp => h p (mem_cons_of_mem _ hp)]
      cases part with
      | none =>
        cases value with
        | none => simp
        | some v => simp
      | some v =>
        obtain rfl := h (some v) mem_cons_self v rfl
        simp only [mem_cons_self, if_true, bind_some]
        cases v.innerStr <;> simp
  rw [hfold parts hsub]
  cases value with
  | none => simp
  | some v => rw [if_pos (hsome v rfl)]

theorem scalarFromKeyAttributes_eq (keys : WireItemKeyAttributes) (field : Text) :
    scalarFromKeyAttributes keys field = (lookup keys.entries field).bind innerStr := by
  rw [scalarFromKeyAttributes, attributeFromKeyAttributes_eq_lookup]

/-- A split item that encodes a map gives the scalars of its blob to the first request of a name,
and else those of its keys, also under the alias. The blob and the keys have the scalars of the
map, and the keys alone have it where they name the field. -/
theorem WireItem.Encodes.exists_scalarFields {json : JsonFormat} {map : AttributeMap}
    {primaryKey : WireItemKeyAttributes} {secondaryKey : Option WireItemKeyAttributes}
    {blob : Option (List UInt8)}
    (h : (localSplit primaryKey secondaryKey blob).Encodes json fields map) :
    ∃ attributes : AttributeMap,
      (localSplit primaryKey secondaryKey blob).scalarFields json fields
        = .ok (zipWith (fun field value => value.or ((scalarFromKeys primaryKey secondaryKey field).or
            ((aliasField field).bind (scalarFromKeys primaryKey secondaryKey))))
          fields (firstScalars attributes.get fields)) ∧
      ∀ field ∈ fields, ((attributes.get field).bind innerStr).or
          (scalarFromKeys primaryKey secondaryKey field) = (map.get field).bind innerStr ∧
        ((∃ value, (field, value) ∈ (localSplit primaryKey secondaryKey blob).keyEntries) →
          scalarFromKeys primaryKey secondaryKey field = (map.get field).bind innerStr) := by
  obtain ⟨attributes, hpart, hmap, hagree⟩ := h
  have htext := jsonPart_eq_ok.mp hpart
  have hfound : ∀ field value, map.get field = some value →
      attributes.get field = some value ∨
        (field, value) ∈ (localSplit primaryKey secondaryKey blob).keyEntries := by
    intro field value hvalue
    rw [hmap, get_insertAll] at hvalue
    cases hkey : lookup (localSplit primaryKey secondaryKey blob).keyEntries.reverse field with
    | none =>
      rw [hkey, none_or] at hvalue
      exact .inl hvalue
    | some other =>
      rw [hkey, some_or] at hvalue
      cases hvalue
      exact .inr (mem_reverse.mp (mem_of_lookup_eq_some hkey))
  have hblob : readBlob blob (replicate fields.length none)
      (parseDynamoScalarFields json · fields) = .ok (firstScalars attributes.get fields) := by
    rw [readBlob]
    cases hread : attributesBlob blob with
    | some bytes =>
      rw [WireItem.attributesText, hread] at htext
      exact parseDynamoScalarFields_eq_ok htext.1 htext.2 fields
    | none =>
      rw [WireItem.attributesText, hread] at htext
      rw [show attributes = .empty from htext, firstScalars_empty]
      rfl
  refine ⟨attributes, by rw [scalarFields, hblob]; rfl, fun field hmem => ?_⟩
  -- The parts of the item that may name the field, in the order in which they are asked.
  have hlookup {entries : List (Text × AttributeValue)} {value : AttributeValue}
      (hmap' : map.get field = some value) (hvalue : (field, value) ∈ entries)
      (hentries : entries ⊆ (localSplit primaryKey secondaryKey blob).keyEntries) :
      lookup entries field = some value := by
    cases hentry : lookup entries field with
    | none => exact absurd (mem_map_of_mem hvalue) (lookup_eq_none_iff.mp hentry)
    | some other =>
      have hother := hagree field hmem other (.inr (hentries (mem_of_lookup_eq_some hentry)))
      rw [← hother, hmap']
  have hprimary : primaryKey.entries ⊆ (localSplit primaryKey secondaryKey blob).keyEntries :=
    subset_append_left ..
  have hsecondary : ∀ keys ∈ secondaryKey,
      keys.entries ⊆ (localSplit primaryKey secondaryKey blob).keyEntries := by
    intro keys hkeys entry hentry
    obtain rfl := mem_def.mp hkeys
    exact mem_append_right _ (by simpa using hentry)
  have hkeyPart : ∀ value, lookup primaryKey.entries field = some value ∨
      (secondaryKey.bind fun keys => lookup keys.entries field) = some value →
      map.get field = some value := by
    rintro value (hvalue | hvalue)
    · exact hagree field hmem value (.inr (hprimary (mem_of_lookup_eq_some hvalue)))
    · obtain ⟨keys, hkeys, hvalue⟩ := Option.bind_eq_some_iff.mp hvalue
      exact hagree field hmem value (.inr (hsecondary keys hkeys (mem_of_lookup_eq_some hvalue)))
  have hfoundKey : ∀ value, map.get field = some value →
      (field, value) ∈ (localSplit primaryKey secondaryKey blob).keyEntries →
      some value ∈ [lookup primaryKey.entries field,
        secondaryKey.bind fun keys => lookup keys.entries field] := by
    intro value hvalue hkey
    rcases mem_append.mp hkey with hkey | hkey
    · simp [hlookup hvalue hkey hprimary]
    · obtain ⟨keys, hkeys, hentry⟩ := mem_flatMap.mp hkey
      have hkeys := Option.mem_toList.mp hkeys
      have hfirst := hlookup hvalue hentry (hsecondary keys hkeys)
      simp [hkeys, hfirst]
  have hkeys : scalarFromKeys primaryKey secondaryKey field
      = [lookup primaryKey.entries field, secondaryKey.bind fun keys =>
          lookup keys.entries field].foldr (fun part rest => (part.bind innerStr).or rest) none := by
    rw [scalarFromKeys, scalarFromKeyAttributes_eq]
    cases secondaryKey with
    | none => simp
    | some keys => simp [scalarFromKeyAttributes_eq]
  rw [hkeys]
  constructor
  · refine @scalar_of_parts [attributes.get field, lookup primaryKey.entries field,
      secondaryKey.bind fun keys => lookup keys.entries field] _ (fun part hpart' value hvalue => ?_)
      fun value hvalue => ?_
    · simp only [mem_cons, not_mem_nil, or_false] at hpart'
      rcases hpart' with rfl | rfl | rfl
      · exact hagree field hmem value (.inl hvalue)
      · exact hkeyPart value (.inl hvalue)
      · exact hkeyPart value (.inr hvalue)
    · rcases hfound field value hvalue with hattribute | hkey
      · exact hattribute ▸ mem_cons_self
      · exact mem_cons_of_mem _ (hfoundKey value hvalue hkey)
  · rintro ⟨named, hnamed⟩
    have hget := hagree field hmem named (.inr hnamed)
    refine scalar_of_parts (fun part hpart' value hvalue => ?_) fun value hvalue => ?_
    · simp only [mem_cons, not_mem_nil, or_false] at hpart'
      rcases hpart' with rfl | rfl
      · exact hkeyPart value (.inl hvalue)
      · exact hkeyPart value (.inr hvalue)
    · obtain rfl := Option.some.inj (hget.symm.trans hvalue)
      exact hfoundKey named hvalue hnamed

/-! ### Aliases -/

theorem aliasField_ne (field : Text) : aliasField field ≠ some field := by
  intro h
  rw [aliasField] at h
  split_ifs at h with h₁ h₂ h₃ h₄ h₅ h₆ h₇ h₈ <;> subst_vars <;> revert h <;> decide

/-- The scalars under the aliases of the fields. -/
def aliasScalars (get : Text → Option AttributeValue) (fields : List Text) : List (Option Text) :=
  fields.map fun field => (aliasField field).bind fun other => (get other).bind innerStr

variable {map : AttributeMap} {name : Text} {value : AttributeValue}

/-- A new attribute that is no scalar, or no alias of a field. -/
theorem aliasScalars_insert_other (hnone : attributes.get name = none) {fields : List Text}
    (h : value.innerStr = none ∨ ∀ field ∈ fields, aliasField field ≠ some name) :
    aliasScalars (attributes.insert name value).get fields
      = aliasScalars attributes.get fields := by
  refine map_congr_left fun field hmem => ?_
  cases halias : aliasField field with
  | none => rfl
  | some other =>
    rw [bind_some, bind_some, get_insert]
    split_ifs with heq
    · subst heq
      rcases h with hscalar | hnamed
      · rw [hnone, bind_none, bind_some, hscalar]
      · exact absurd halias (hnamed field hmem)
    · rfl

/-- A new scalar is kept for all fields that it is an alias of. -/
theorem aliasScalars_insert {scalar : Text} (hscalar : value.innerStr = some scalar)
    (fields : List Text) :
    aliasScalars (attributes.insert name value).get fields
      = ((aliasScalars attributes.get fields).zip
          (fields.map fun field => aliasField field == some name)).mapIdx fun index entry =>
            if entry.2 && fields.findIdx? (· == name) != some index then some scalar
            else entry.1 := by
  refine ext_getElem? fun index => ?_
  simp only [aliasScalars, getElem?_mapIdx, zip_map', getElem?_map, Option.map_map]
  cases hfield : fields[index]? with
  | none => rfl
  | some field =>
    simp only [Option.map_some, Function.comp_apply, Option.some.injEq]
    by_cases halias : aliasField field = some name
    · -- the field itself does not have the name
      have hdirect : fields.findIdx? (· == name) ≠ some index := by
        intro hfound
        obtain ⟨hlt, hname, -⟩ := findIdx?_eq_some_iff_getElem.mp hfound
        rw [getElem?_eq_getElem hlt, Option.some.injEq] at hfield
        rw [hfield, beq_iff_eq] at hname
        exact aliasField_ne name (hname ▸ halias)
      simp [halias, hdirect, get_insert, hscalar]
    · cases hother : aliasField field with
      | none => simp
      | some other =>
        have hne : other ≠ name := fun heq => halias (heq ▸ hother)
        simp [get_insert, hne]

/-- **A text that is read as a map** answers with the scalars of the map, and else with those under
the aliases. -/
theorem visitAliasedScalarFields_of_visitMap {content : List (Text × Json)}
    (h : attributes.visitMap content = .ok map) (fields : List Text) :
    visitAliasedScalarFields fields (firstScalars attributes.get fields)
        (aliasScalars attributes.get fields) content
      = .ok (zipWith Option.or (firstScalars map.get fields) (aliasScalars map.get fields)) := by
  induction content generalizing attributes with
  | nil =>
    rw [AttributeMap.visitMap, Except.ok.injEq] at h
    rw [visitAliasedScalarFields, h]
  | cons field rest ih =>
    obtain ⟨name, value⟩ := field
    obtain ⟨hnone, decoded, hread, hrest⟩ := AttributeMap.visitMap_cons_eq_ok.mp h
    rw [← ih hrest, firstScalars_insert hnone, visitAliasedScalarFields,
      scalarFromJson_of_fromJson hread]
    split_ifs with hskip
    · obtain ⟨hdirect, hnamed⟩ : fields.findIdx? (· == name) = none ∧
          ∀ field ∈ fields, aliasField field ≠ some name := by
        simpa using hskip
      rw [hdirect, aliasScalars_insert_other hnone (.inr hnamed)]
    · cases hscalar : decoded.innerStr with
      | none =>
        rw [aliasScalars_insert_other hnone (.inl hscalar)]
        cases fields.findIdx? (· == name) <;> rfl
      | some scalar =>
        rw [aliasScalars_insert hscalar]
        cases fields.findIdx? (· == name) <;> rfl

namespace WireItem

variable {json : JsonFormat} {fields : List Text} {data : List UInt8}

/-- A fallback that finds nothing. -/
theorem zipWith_or_eq_self {fallback : Text → Option Text} {values : List (Option Text)}
    (hlength : values.length = fields.length) (h : ∀ field ∈ fields, fallback field = none) :
    zipWith (fun field value => value.or (fallback field)) fields values = values := by
  induction fields generalizing values with
  | nil => rw [length_eq_zero_iff.mp hlength, zipWith_nil_left]
  | cons field rest ih =>
    obtain ⟨value, values, rfl⟩ := exists_cons_of_length_eq_add_one hlength
    rw [zipWith_cons_cons, h field mem_cons_self, Option.or_none,
      ih (Nat.succ.inj hlength) fun field hmem => h field (mem_cons_of_mem _ hmem)]

/-- When two selections with fallbacks agree: at the first request of a field they look at both, at
a later one at the fallback only. -/
theorem zipWith_firstRequests_eq_iff {get get' : Text → Option AttributeValue}
    {fallback fallback' : Text → Option Text} {seen : List Text} :
    zipWith (fun field value => value.or (fallback field)) fields
        ((firstRequests get seen fields).map (·.bind innerStr))
      = zipWith (fun field value => value.or (fallback' field)) fields
        ((firstRequests get' seen fields).map (·.bind innerStr)) ↔
      (∀ field ∈ fields, field ∉ seen → ((get field).bind innerStr).or (fallback field)
        = ((get' field).bind innerStr).or (fallback' field)) ∧
      ∀ field ∈ fields, field ∈ seen ∨ fields.Duplicate field →
        fallback field = fallback' field := by
  induction fields generalizing seen with
  | nil => simp [firstRequests]
  | cons field rest ih =>
    rw [firstRequests, firstRequests, map_cons, map_cons, zipWith_cons_cons, zipWith_cons_cons,
      cons.injEq, ih]
    constructor
    · rintro ⟨hfirst, hnew, hlater⟩
      refine ⟨fun other hmem hseen => ?_, fun other hmem hrepeat => ?_⟩
      · rcases mem_cons.mp hmem with rfl | hrest
        · rwa [if_neg hseen, if_neg hseen] at hfirst
        · by_cases heq : other = field
          · subst heq
            rwa [if_neg hseen, if_neg hseen] at hfirst
          · exact hnew other hrest (by simp [heq, hseen])
      · by_cases hrest : other ∈ rest
        · refine hlater other hrest ?_
          rcases hrepeat with hseen | hduplicate
          · exact .inl (mem_cons_of_mem _ hseen)
          · rcases duplicate_cons_iff.mp hduplicate with ⟨rfl, -⟩ | hduplicate
            · exact .inl mem_cons_self
            · exact .inr hduplicate
        · obtain rfl := (mem_cons.mp hmem).resolve_right hrest
          rcases hrepeat with hseen | hduplicate
          · rwa [if_pos hseen, if_pos hseen] at hfirst
          · rcases duplicate_cons_iff.mp hduplicate with ⟨-, hmem⟩ | hduplicate
            · exact absurd hmem hrest
            · exact absurd hduplicate.mem hrest
    · rintro ⟨hnew, hlater⟩
      refine ⟨?_, fun other hrest hseen => ?_, fun other hrest hrepeat => ?_⟩
      · split_ifs with hseen
        · exact hlater field mem_cons_self (.inl hseen)
        · exact hnew field mem_cons_self hseen
      · exact hnew other (mem_cons_of_mem _ hrest) fun hmem => hseen (mem_cons_of_mem _ hmem)
      · refine hlater other (mem_cons_of_mem _ hrest) ?_
        rcases hrepeat with hseen | hduplicate
        · rcases mem_cons.mp hseen with rfl | hseen
          · exact .inr (duplicate_cons_iff.mpr (.inl ⟨rfl, hrest⟩))
          · exact .inl hseen
        · exact .inr (duplicate_cons_iff.mpr (.inr hduplicate))

/-- An item in JSON answers the first request of a name with the scalar of its map, and else with
that under the alias. -/
theorem scalarFields_dynamoJson (h : (dynamoJson data).Encodes json fields map) :
    (dynamoJson data).scalarFields json fields
      = .ok (zipWith (fun field value => value.or
          ((aliasField field).bind fun other => (map.get other).bind innerStr))
        fields (firstScalars map.get fields)) := by
  obtain ⟨attributes, hpart, hmap, -⟩ := h
  have htext := jsonPart_eq_ok.mp hpart
  have hget : map.get = attributes.get := funext hmap
  rw [scalarFields, parseDynamoScalarFieldsWithAliases, hget]
  split_ifs with hall
  · rw [parseDynamoScalarFields_eq_ok htext.1 htext.2, zipWith_or_eq_self]
    · rw [firstScalars, length_map, length_firstRequests]
    · intro field hmem
      rw [Option.isNone_iff_eq_none.mp (all_eq_true.mp hall field hmem), bind_none]
  · have haliases : aliasScalars (OrderedMap.empty : AttributeMap).get fields
        = List.replicate fields.length none := by
      refine eq_replicate_iff.mpr ⟨length_map _, fun scalar hmem => ?_⟩
      obtain ⟨field, -, rfl⟩ := mem_map.mp hmem
      cases aliasField field <;> rfl
    have hvisit := visitAliasedScalarFields_of_visitMap htext.1 fields
    rw [firstScalars_empty, haliases, aliasScalars, zipWith_map_right, zipWith_comm] at hvisit
    rw [Except.mapError_eq_ok, JsonFormat.deserializeMap_eq_ok, htext.2]
    exact ⟨hvisit, by decide⟩

/-- What is found under an alias: in an item in JSON anywhere, in a split item among the keys. -/
def aliasText (map : AttributeMap) (other : Text) : WireItem → Option Text
  | .dynamoJson _ => (map.get other).bind innerStr
  | .localSplit primaryKey secondaryKey _ => scalarFromKeys primaryKey secondaryKey other

/-- The text that an item shows under a name: its scalar, or else what is under the alias. -/
def shownText (map : AttributeMap) (field : Text) (item : WireItem) : Option Text :=
  ((map.get field).bind innerStr).or
    ((aliasField field).bind fun other => item.aliasText map other)

variable {item : WireItem}

/-- **The answers of an item.** The first request of a name is answered with the text that is shown
under it, and every request where the keys of the item name it. -/
theorem Encodes.exists_selection (h : item.Encodes json fields map) :
    ∃ (get : Text → Option AttributeValue) (fallback : Text → Option Text),
      item.scalarFields json fields
        = .ok (zipWith (fun field value => value.or (fallback field)) fields
            (firstScalars get fields)) ∧
      ∀ field ∈ fields,
        ((get field).bind innerStr).or (fallback field) = item.shownText map field ∧
        ((∃ value, (field, value) ∈ item.keyEntries) →
          fallback field = item.shownText map field) := by
  cases item with
  | dynamoJson data =>
    exact ⟨_, _, scalarFields_dynamoJson h, fun field _ => ⟨rfl, fun ⟨_, hmem⟩ => nomatch hmem⟩⟩
  | localSplit primaryKey secondaryKey blob =>
    obtain ⟨attributes, hscalars, hparts⟩ := h.exists_scalarFields
    refine ⟨_, _, hscalars, fun field hmem => ⟨?_, fun hkey => ?_⟩⟩
    · rw [← Option.or_assoc, (hparts field hmem).1]
      rfl
    · rw [(hparts field hmem).2 hkey]
      rfl

theorem map_firstRequests_none (seen : List Text) :
    (firstRequests (fun _ => none) seen fields).map (·.bind innerStr)
      = fields.map fun _ => none := by
  induction fields generalizing seen with
  | nil => rfl
  | cons field rest ih =>
    rw [firstRequests, map_cons, map_cons, ite_self, ih]
    rfl

/-- Names that are not requested again, or are named in the keys. -/
theorem Encodes.scalarFields_eq_ok (h : item.Encodes json fields map)
    (hrepeat : ∀ field, fields.Duplicate field → ∃ value, (field, value) ∈ item.keyEntries) :
    item.scalarFields json fields
      = .ok (fields.map fun field => item.shownText map field) := by
  obtain ⟨get, fallback, hscalars, hselect⟩ := h.exists_selection
  have hmap : fields.map (fun field => item.shownText map field)
      = zipWith (fun field value => value.or (item.shownText map field)) fields
        ((firstRequests (fun _ => none) [] fields).map (·.bind innerStr)) := by
    rw [map_firstRequests_none, zipWith_map_right, zipWith_self]
    rfl
  rw [hscalars, hmap, Except.ok.injEq, firstScalars, zipWith_firstRequests_eq_iff]
  exact ⟨fun field hmem _ => (hselect field hmem).1, fun field hmem hagain =>
    (hselect field hmem).2 (hrepeat field (hagain.resolve_left not_mem_nil))⟩

/-- **Two encodings of an item agree on its scalars** exactly when every request that is answered
under an alias finds the alias in the keys of the split item, and a name that is requested again
finds in the keys what is under its alias: for a name without an alias, nothing. -/
theorem scalarFields_agree_iff {primaryKey : WireItemKeyAttributes}
    {secondaryKey : Option WireItemKeyAttributes} {blob : Option (List UInt8)}
    (hsplit : (localSplit primaryKey secondaryKey blob).Encodes json fields map)
    (hjson : (dynamoJson data).Encodes json fields map) :
    (localSplit primaryKey secondaryKey blob).scalarFields json fields
        = (dynamoJson data).scalarFields json fields ↔
      (∀ field ∈ fields, ∀ other, aliasField field = some other →
        (map.get field).bind innerStr = none →
          scalarFromKeys primaryKey secondaryKey other = (map.get other).bind innerStr) ∧
      ∀ field, fields.Duplicate field →
        (scalarFromKeys primaryKey secondaryKey field).or
            ((aliasField field).bind (scalarFromKeys primaryKey secondaryKey))
          = (aliasField field).bind fun other => (map.get other).bind innerStr := by
  obtain ⟨attributes, hscalars, hparts⟩ := hsplit.exists_scalarFields
  rw [hscalars, scalarFields_dynamoJson hjson, Except.ok.injEq, firstScalars, firstScalars,
    zipWith_firstRequests_eq_iff]
  refine and_congr (forall₂_congr fun field hmem => ?_)
    ⟨fun h field hrepeat => h field hrepeat.mem (.inr hrepeat), fun h field _ hrepeat =>
      h field (hrepeat.resolve_left not_mem_nil)⟩
  rw [← Option.or_assoc, (hparts field hmem).1]
  cases aliasField field with
  | none => simp
  | some other => cases (map.get field).bind innerStr <;> simp

/-! ### An item with a short name -/

/-- The attribute `et`, as JSON. -/
def shortField : Text × Json := (text "et", .object [(text "S", .string (text "x"))])

/-- An item with the attributes `a` and `et`. -/
def shortMap : AttributeMap :=
  (OrderedMap.empty.insert (text "et") (.S (text "x"))).insert (text "a") (.S (text "1"))

variable (json) in
def shortSplit : WireItem :=
  .localSplit (singleKey (text "1")) none (some (json.write [shortField]))

variable (json) in
def shortJson : WireItem :=
  .dynamoJson (json.write [shortField, (text "a", .object [(text "S", .string (text "1"))])])

/-- A blob that is written with a field is not passed over. -/
theorem exists_attributesBlob : ∃ json : JsonFormat,
    attributesBlob (some (json.write [shortField])) = some (json.write [shortField]) := by
  refine ⟨.counting, Option.filter_eq_some_iff.mpr ⟨rfl, ?_⟩⟩
  have hne : JsonFormat.counting.write [shortField] ≠ [] :=
    ne_nil_of_mem (JsonFormat.zero_mem_countingWrite (cons_ne_nil shortField []))
  have hbraces : ¬blobIsEmptyJsonObject (JsonFormat.counting.write [shortField]) = true := by
    intro hempty
    obtain ⟨before, after, hsplit, hspace⟩ := eq_braces_of_blobIsEmptyJsonObject hempty
    have hscan := JsonFormat.counting.scan_braces before after hspace
    rw [← hsplit, JsonFormat.counting.scan_write] at hscan
    cases congrArg Json.Scan.fields hscan
  simp [hne, hbraces]

theorem shortSplit_encodes
    (hblob : attributesBlob (some (json.write [shortField])) = some (json.write [shortField]))
    (fields : List Text) : (shortSplit json).Encodes json fields shortMap := by
  refine ⟨OrderedMap.empty.insert (text "et") (.S (text "x")), jsonPart_eq_ok.mpr ?_,
    fun _ => rfl, fun field _ value h => ?_⟩
  · rw [shortSplit, attributesText, hblob]
    dsimp only
    rw [json.scan_write]
    exact ⟨rfl, rfl⟩
  · rcases h with h | h
    · rw [get_insert] at h
      split_ifs at h with heq
      · cases h
        rw [heq]
        rfl
      · cases h
    · obtain ⟨rfl, rfl⟩ := Prod.mk.inj (mem_singleton.mp h)
      rfl

theorem shortJson_encodes (fields : List Text) : (shortJson json).Encodes json fields shortMap := by
  refine ⟨shortMap, jsonPart_eq_ok.mpr ?_, fun _ => rfl, fun field _ value h => ?_⟩
  · rw [shortJson, attributesText]
    dsimp only
    rw [json.scan_write]
    exact ⟨rfl, rfl⟩
  · rcases h with h | h
    · exact h
    · cases h

/-- The encodings agree on the short name, also when it is requested again. -/
theorem scalarFields_short : ∃ json : JsonFormat,
    (shortSplit json).scalarFields json [text "et", text "et", text "a"]
      = (shortJson json).scalarFields json [text "et", text "et", text "a"] := by
  obtain ⟨json, hblob⟩ := exists_attributesBlob
  refine ⟨json, (scalarFields_agree_iff (shortSplit_encodes hblob _) (shortJson_encodes _)).mpr
    ⟨?_, ?_⟩⟩
  · rintro field hmem other halias hnone
    simp only [mem_cons, not_mem_nil, or_false, or_self_left] at hmem
    rcases hmem with rfl | rfl
    · cases hnone
    · cases halias
  · intro field hrepeat
    have hshort : text "et" = field := by
      rcases duplicate_cons_iff.mp hrepeat with ⟨hshort, -⟩ | hrepeat
      · exact hshort
      · rcases duplicate_cons_iff.mp hrepeat with ⟨hshort, -⟩ | hrepeat
        · exact hshort
        · exact absurd hrepeat (not_duplicate_singleton _ _)
    subst hshort
    rfl

/-- **The encodings of an item differ** on the long name of an attribute that is no key, and on a
key that is requested twice. -/
theorem scalarFields_differ : ∃ json : JsonFormat,
    (∀ fields, (shortSplit json).Encodes json fields shortMap ∧
      (shortJson json).Encodes json fields shortMap) ∧
    (shortSplit json).scalarFields json [text "entity_type"] = .ok [none] ∧
    (shortJson json).scalarFields json [text "entity_type"] = .ok [some (text "x")] ∧
    (shortSplit json).scalarFields json [text "a", text "a"]
      = .ok [some (text "1"), some (text "1")] ∧
    (shortJson json).scalarFields json [text "a", text "a"] = .ok [some (text "1"), none] := by
  obtain ⟨json, hblob⟩ := exists_attributesBlob
  refine ⟨json, fun _ => ⟨shortSplit_encodes hblob _, shortJson_encodes _⟩, ?_, ?_, ?_, ?_⟩
  · exact ((shortSplit_encodes hblob _).scalarFields_eq_ok fun field hrepeat =>
      absurd hrepeat (not_duplicate_singleton _ _)).trans (by rfl)
  · exact (scalarFields_dynamoJson (shortJson_encodes _)).trans (by rfl)
  · rw [shortSplit, scalarFields, readBlob, hblob]
    simp only [parseDynamoScalarFields, JsonFormat.deserializeMap, json.scan_write]
    rfl
  · rw [shortJson, scalarFields, parseDynamoScalarFieldsWithAliases, if_pos (by decide)]
    simp only [parseDynamoScalarFields, JsonFormat.deserializeMap, json.scan_write]
    rfl

end WireItem

end AuxStorage
