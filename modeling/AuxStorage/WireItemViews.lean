import AuxStorage.WireItem

/-!
# The Views of a Wire Item

Whether the five functions over a wire item describe one attribute map. An item is taken apart
into the **entries of its keys**, in the order of the parts, and the map of its **JSON part**.
The decoded map, the size and the JSON text let the last entry of a name win, over the JSON
part. A selection prefers the JSON part and then the first entry, a projection the first entry
and then the JSON part. A selection also fills only the first of several equal requests from
the JSON part. So the views agree where all parts that name an attribute agree on it.
-/

namespace AuxStorage

open OrderedMap
open List hiding lookup lookup_cons lookup_append lookup_eq_none_iff
open AttributeMap (fromDynamoJson visitMap visitMap_cons_eq_ok visitMap_eq_ok)
open WireItem (dynamoJson localSplit)

variable {json : JsonFormat} {item : WireItem} {attributes : AttributeMap}

/-! ### The parts of an item -/

namespace WireItem

/-- The attributes of the keys, in the order in which they are inserted. -/
def keyEntries : WireItem → List (Text × AttributeValue)
  | .dynamoJson _ => []
  | .localSplit primaryKey secondaryKey _ =>
    primaryKey.entries ++ secondaryKey.toList.flatMap WireItemKeyAttributes.entries

/-- The JSON text that is read for the attributes. -/
def attributesText : WireItem → Option (List UInt8)
  | .dynamoJson data => some data
  | .localSplit _ _ blob => attributesBlob blob

variable (json)

/-- The map of the JSON part. -/
def jsonPart : WireItem → Except StorageError AttributeMap
  | .dynamoJson data => fromDynamoJson json data
  | .localSplit _ _ blob => decodeNonKeyAttributes json blob

variable {json}

theorem jsonPart_eq_ok :
    item.jsonPart json = .ok attributes ↔
      match item.attributesText with
      | some bytes =>
        visitMap .empty (json.scan bytes).fields = .ok attributes ∧
          (json.scan bytes).ending = .complete
      | none => attributes = .empty := by
  cases item with
  | dynamoJson data =>
    rw [jsonPart, fromDynamoJson, Except.mapError_eq_ok, JsonFormat.fromSlice_eq_ok]
    rfl
  | localSplit primaryKey secondaryKey blob =>
    rw [jsonPart, decodeNonKeyAttributes, readBlob, attributesText]
    cases attributesBlob blob with
    | some bytes => rw [Except.mapError_eq_ok, JsonFormat.fromSlice_eq_ok]
    | none =>
      simp only [pure, Except.pure, Except.ok.injEq]
      exact eq_comm

/-- The decoded map: the keys over the JSON part. -/
theorem toAttributeMap_eq_ok {map : AttributeMap} :
    item.toAttributeMap json = .ok map ↔
      ∃ attributes, item.jsonPart json = .ok attributes ∧
        map = attributes.insertAll item.keyEntries := by
  cases item with
  | dynamoJson data =>
    simp only [toAttributeMap, jsonPart, keyEntries]
    exact ⟨fun h => ⟨map, h, rfl⟩, by rintro ⟨_, h, rfl⟩; exact h⟩
  | localSplit primaryKey secondaryKey blob =>
    rw [toAttributeMap, Except.bind_eq_ok, jsonPart]
    refine exists_congr fun attributes => and_congr_right fun _ => ?_
    cases secondaryKey with
    | none =>
      simp only [pure, Except.pure, Except.ok.injEq, keyEntries, Option.toList_none,
        flatMap_nil, append_nil, insertKeyAttributes]
      exact eq_comm
    | some keys =>
      simp only [pure, Except.pure, Except.ok.injEq, keyEntries, Option.toList_some,
        flatMap_cons, flatMap_nil, append_nil, insertKeyAttributes, insertAll_append]
      exact eq_comm

end WireItem

theorem attributeFromKeyAttributes_eq_lookup (keys : WireItemKeyAttributes) (field : Text) :
    attributeFromKeyAttributes keys field = lookup keys.entries field := by
  rw [attributeFromKeyAttributes, WireItemKeyAttributes.entries, lookup_cons]
  refine if_congr Iff.rfl rfl ?_
  cases keys.sortKeyName with
  | none => simp
  | some name =>
    cases keys.sortKey with
    | none => simp
    | some value => simp [lookup_cons]

theorem attributeFromKeys_eq_lookup (primaryKey : WireItemKeyAttributes)
    (secondaryKey : Option WireItemKeyAttributes) (blob : Option (List UInt8)) (field : Text) :
    attributeFromKeys primaryKey secondaryKey field
      = lookup (localSplit primaryKey secondaryKey blob).keyEntries field := by
  rw [attributeFromKeys, WireItem.keyEntries, lookup_append, attributeFromKeyAttributes_eq_lookup]
  cases secondaryKey with
  | none => simp
  | some keys => simp [attributeFromKeyAttributes_eq_lookup]

theorem canonicalKeyEntries_eq (primaryKey : WireItemKeyAttributes)
    (secondaryKey : Option WireItemKeyAttributes) (blob : Option (List UInt8)) :
    canonicalKeyEntries primaryKey secondaryKey
      = ((empty : AttributeMap).insertAll
          (localSplit primaryKey secondaryKey blob).keyEntries).entries := by
  rw [canonicalKeyEntries, WireItem.keyEntries, insertAll_append]
  cases secondaryKey with
  | none => rfl
  | some keys =>
    simp only [Option.toList_some, flatMap_cons, flatMap_nil, append_nil]
    rfl

/-! ### Selection -/

/-- The values that a selection takes from a map. A field that was already requested finds
nothing. -/
def firstRequests (get : Text → Option AttributeValue) (seen : List Text) :
    List Text → List (Option AttributeValue)
  | [] => []
  | field :: rest =>
    (if field ∈ seen then none else get field) :: firstRequests get (field :: seen) rest

theorem length_firstRequests (get : Text → Option AttributeValue) (seen fields : List Text) :
    (firstRequests get seen fields).length = fields.length := by
  induction fields generalizing seen with
  | nil => rfl
  | cons field rest ih => rw [firstRequests, length_cons, ih, length_cons]

variable {get get' : Text → Option AttributeValue} {seen fields : List Text}

/-- Fields that were requested before do not matter. -/
theorem firstRequests_congr (h : ∀ field ∈ fields, field ∉ seen → get field = get' field) :
    firstRequests get seen fields = firstRequests get' seen fields := by
  induction fields generalizing seen with
  | nil => rfl
  | cons field rest ih =>
    rw [firstRequests, firstRequests]
    congr 1
    · by_cases hseen : field ∈ seen
      · rw [if_pos hseen, if_pos hseen]
      · rw [if_neg hseen, if_neg hseen]
        exact h field mem_cons_self hseen
    · refine ih fun field' hmem hseen => h field' (mem_cons_of_mem _ hmem) fun hmem' => ?_
      exact hseen (mem_cons_of_mem _ hmem')

/-- One field of the text fills the first place that asks for it. -/
theorem set_firstRequests {key : Text} {value : AttributeValue} (hkey : get' key = some value)
    (hother : ∀ field, field ≠ key → get' field = get field) {index : ℕ}
    (hindex : fields.findIdx? (· == key) = some index) (hseen : key ∉ seen) :
    (firstRequests get seen fields).set index (some value) = firstRequests get' seen fields := by
  induction fields generalizing seen index with
  | nil => simp at hindex
  | cons field rest ih =>
    rw [findIdx?_cons] at hindex
    by_cases heq : field = key
    · subst heq
      rw [if_pos (by simp), Option.some.injEq] at hindex
      subst hindex
      rw [firstRequests, firstRequests, set_cons_zero, if_neg hseen, hkey]
      congr 1
      refine firstRequests_congr fun field' _ hnot => (hother field' fun h => ?_).symm
      exact hnot (h ▸ mem_cons_self)
    · rw [if_neg (by simpa using heq), Option.map_eq_some_iff] at hindex
      obtain ⟨index', hindex', rfl⟩ := hindex
      have hrest : (firstRequests get (field :: seen) rest).set index' (some value)
          = firstRequests get' (field :: seen) rest := ih hindex' (by
        rw [mem_cons, not_or]
        exact ⟨fun h => heq h.symm, hseen⟩)
      rw [firstRequests, firstRequests, set_cons_succ, hrest, hother field heq]

/-- When a selection with a fallback gives the values of a function: at the first request of a
field it looks at both, at a later one at the fallback only. -/
theorem zipWith_firstRequests_eq_map {fallback values : Text → Option AttributeValue} :
    List.zipWith (fun field value => value.or (fallback field)) fields
        (firstRequests get seen fields) = fields.map values ↔
      (∀ field ∈ fields, field ∉ seen → (get field).or (fallback field) = values field) ∧
        ∀ field ∈ fields, field ∈ seen ∨ fields.Duplicate field →
          fallback field = values field := by
  induction fields generalizing seen with
  | nil => simp [firstRequests]
  | cons head rest ih =>
    rw [firstRequests, zipWith_cons_cons, map_cons, cons.injEq, ih]
    constructor
    · rintro ⟨hhead, hfirst, hlater⟩
      refine ⟨fun field hmem hseen => ?_, fun field hmem hagain => ?_⟩
      · by_cases heq : field = head
        · subst heq
          rwa [if_neg hseen] at hhead
        · refine hfirst field (mem_of_ne_of_mem heq hmem) ?_
          rw [mem_cons, not_or]
          exact ⟨heq, hseen⟩
      · by_cases heq : field = head
        · subst heq
          by_cases hseen : field ∈ seen
          · rwa [if_pos hseen, Option.none_or] at hhead
          · have hdup := hagain.resolve_left hseen
            have hrest : field ∈ rest := List.Duplicate.mem_cons_self hdup
            exact hlater field hrest (Or.inl mem_cons_self)
        · refine hlater field (mem_of_ne_of_mem heq hmem) ?_
          exact hagain.imp (mem_cons_of_mem _) fun hdup => hdup.of_duplicate_cons heq
    · rintro ⟨hfirst, hlater⟩
      refine ⟨?_, fun field hmem hseen => ?_, fun field hmem hagain => ?_⟩
      · by_cases hseen : head ∈ seen
        · rw [if_pos hseen, Option.none_or]
          exact hlater head mem_cons_self (Or.inl hseen)
        · rw [if_neg hseen]
          exact hfirst head mem_cons_self hseen
      · exact hfirst field (mem_cons_of_mem _ hmem) fun h =>
          hseen (mem_cons_of_mem _ h)
      · refine hlater field (mem_cons_of_mem _ hmem) ?_
        rcases hagain with hseen | hdup
        · rcases mem_cons.mp hseen with rfl | hseen
          · exact Or.inr hmem.duplicate_cons_self
          · exact Or.inl hseen
        · exact Or.inr (hdup.duplicate_cons head)

/-- A new attribute fills the first request of its name. -/
theorem firstRequests_insert (attributes : AttributeMap) (name : Text) (value : AttributeValue)
    (fields : List Text) :
    firstRequests (attributes.insert name value).get [] fields
      = match fields.findIdx? (· == name) with
        | some index => (firstRequests attributes.get [] fields).set index (some value)
        | none => firstRequests attributes.get [] fields := by
  cases hindex : fields.findIdx? (· == name) with
  | none =>
    refine firstRequests_congr fun field hmem _ => ?_
    rw [get_insert, if_neg]
    rintro rfl
    have := findIdx?_eq_none_iff.mp hindex field hmem
    simp at this
  | some index =>
    exact (set_firstRequests (by rw [get_insert, if_pos rfl])
      (fun field hne => by rw [get_insert, if_neg hne]) hindex (by simp)).symm

variable {map : AttributeMap} {content : List (Text × Json)}

/-- A text that is read as a map fills a selection from that map. -/
theorem visitAttributeValues_of_visitMap (h : attributes.visitMap content = .ok map)
    (fields : List Text) :
    visitAttributeValues fields (firstRequests attributes.get [] fields) content
      = .ok (firstRequests map.get [] fields) := by
  induction content generalizing attributes with
  | nil =>
    rw [visitMap, Except.ok.injEq] at h
    rw [visitAttributeValues, h]
  | cons field rest ih =>
    obtain ⟨name, value⟩ := field
    obtain ⟨-, decoded, hread, hrest⟩ := visitMap_cons_eq_ok.mp h
    rw [← ih hrest, firstRequests_insert, visitAttributeValues, hread]
    cases fields.findIdx? (· == name) <;> rfl

theorem firstRequests_empty (seen fields : List Text) :
    firstRequests (OrderedMap.empty : AttributeMap).get seen fields
      = List.replicate fields.length none := by
  induction fields generalizing seen with
  | nil => rfl
  | cons field rest ih =>
    rw [firstRequests, ih, length_cons, replicate_succ, get_empty, ite_self]

/-- The text of an item fills a selection from its JSON part. -/
theorem parseDynamoAttributeValues_eq_ok {bytes : List UInt8}
    (hvisit : visitMap .empty (json.scan bytes).fields = .ok attributes)
    (hend : (json.scan bytes).ending = .complete) (fields : List Text) :
    parseDynamoAttributeValues json bytes fields
      = .ok (firstRequests attributes.get [] fields) := by
  rw [parseDynamoAttributeValues, Except.mapError_eq_ok, JsonFormat.deserializeMap_eq_ok, hend,
    ← firstRequests_empty []]
  exact ⟨visitAttributeValues_of_visitMap hvisit fields, by decide⟩

namespace WireItem

/-- **A selection** takes the JSON part at the first request of a field, and the keys' first
entry where that gives nothing. -/
theorem selectAttributeValues_eq_ok (hpart : item.jsonPart json = .ok attributes)
    (fields : List Text) :
    item.selectAttributeValues json fields
      = .ok (List.zipWith (fun field value => value.or (lookup item.keyEntries field)) fields
          (firstRequests attributes.get [] fields)) := by
  have htext := jsonPart_eq_ok.mp hpart
  cases item with
  | dynamoJson data =>
    obtain ⟨hvisit, hend⟩ := htext
    have hor : (fun (field : Text) (value : Option AttributeValue) =>
        value.or (lookup (dynamoJson data).keyEntries field)) = fun _ value => value := by
      funext field value
      simp [keyEntries]
    have hzip : ∀ (values : List (Option AttributeValue)), values.length = fields.length →
        zipWith (fun _ value => value) fields values = values := by
      intro values hlen
      refine ext_getElem (by simp [hlen]) fun i h₁ h₂ => ?_
      rw [getElem_zipWith]
    rw [selectAttributeValues, parseDynamoAttributeValues_eq_ok hvisit hend, hor,
      hzip _ (length_firstRequests _ _ _)]
  | localSplit primaryKey secondaryKey blob =>
    have hkeys : (fun (field : Text) (value : Option AttributeValue) =>
        value.or (attributeFromKeys primaryKey secondaryKey field))
        = fun field value => value.or
          (lookup (localSplit primaryKey secondaryKey blob).keyEntries field) := by
      funext field value
      rw [attributeFromKeys_eq_lookup primaryKey secondaryKey blob]
    rw [selectAttributeValues, hkeys, readBlob]
    rw [attributesText] at htext
    cases hblob : attributesBlob blob with
    | none =>
      rw [hblob] at htext
      subst htext
      rw [firstRequests_empty]
      rfl
    | some bytes =>
      rw [hblob] at htext
      simp only [parseDynamoAttributeValues_eq_ok htext.1 htext.2]
      rfl

end WireItem

/-! ### Projection -/

/-- A text that is read as a map gives the projection of that map. -/
theorem visitAttributeFields_of_visitMap {projected : AttributeMap}
    (h : attributes.visitMap content = .ok map)
    (hget : ∀ name, projected.get name = if name ∈ fields then attributes.get name else none) :
    ∃ result, visitAttributeFields fields projected content = .ok result ∧
      ∀ name, result.get name = if name ∈ fields then map.get name else none := by
  induction content generalizing attributes projected with
  | nil =>
    rw [visitMap, Except.ok.injEq] at h
    exact ⟨projected, rfl, h ▸ hget⟩
  | cons field rest ih =>
    obtain ⟨name, value⟩ := field
    obtain ⟨-, decoded, hread, hrest⟩ := visitMap_cons_eq_ok.mp h
    rw [visitAttributeFields]
    by_cases hmem : name ∈ fields
    · rw [if_pos hmem, hread]
      refine ih hrest fun name' => ?_
      rw [get_insert, get_insert, hget]
      by_cases heq : name' = name
      · rw [if_pos heq, if_pos heq, heq, if_pos hmem]
      · rw [if_neg heq, if_neg heq]
    · rw [if_neg hmem]
      refine ih hrest fun name' => ?_
      rw [get_insert, hget]
      by_cases heq : name' = name
      · rw [heq, if_neg hmem, if_neg hmem]
      · rw [if_neg heq]

theorem get_projectKeys (lookup : Text → Option AttributeValue) (attributes : AttributeMap)
    (fields : List Text) (name : Text) :
    (projectKeys lookup attributes fields).get name
      = (if name ∈ fields then lookup name else none).or (attributes.get name) := by
  induction fields generalizing attributes with
  | nil => simp [projectKeys]
  | cons field rest ih =>
    rw [projectKeys]
    cases hlookup : lookup field with
    | none =>
      simp only
      rw [ih]
      by_cases heq : name = field
      · subst heq
        simp [hlookup]
      · simp [heq]
    | some value =>
      simp only
      rw [ih, get_insert]
      by_cases heq : name = field
      · subst heq
        simp only [mem_cons, true_or, if_true, hlookup]
        split <;> rfl
      · simp [heq]

namespace WireItem

/-- **A projection** takes the keys' first entry of a requested field, and the JSON part where
there is none. -/
theorem projectAttributes_eq_ok (hpart : item.jsonPart json = .ok attributes) (fields : List Text) :
    ∃ projection, item.projectAttributes json fields = .ok projection ∧
      ∀ name, projection.get name
        = if name ∈ fields then (lookup item.keyEntries name).or (attributes.get name)
          else none := by
  have hparse : ∀ bytes, item.attributesText = some bytes → ∃ projection,
      parseDynamoAttributeFields json bytes fields = .ok projection ∧
        ∀ name, projection.get name = if name ∈ fields then attributes.get name else none := by
    intro bytes hbytes
    have htext := jsonPart_eq_ok.mp hpart
    rw [hbytes] at htext
    have hempty : ∀ name, (empty : AttributeMap).get name
        = if name ∈ fields then (empty : AttributeMap).get name else none := by simp
    obtain ⟨projection, hvisit, hget⟩ := visitAttributeFields_of_visitMap htext.1 hempty
    refine ⟨projection, ?_, hget⟩
    rw [parseDynamoAttributeFields, Except.mapError_eq_ok, JsonFormat.deserializeMap_eq_ok, htext.2]
    exact ⟨hvisit, by decide⟩
  cases item with
  | dynamoJson data =>
    obtain ⟨projection, hproject, hget⟩ := hparse data rfl
    exact ⟨projection, hproject, fun name => by simpa [keyEntries] using hget name⟩
  | localSplit primaryKey secondaryKey blob =>
    have hproject : ∃ projection,
        readBlob blob .empty (parseDynamoAttributeFields json · fields) = .ok projection ∧
        ∀ name, projection.get name = if name ∈ fields then attributes.get name else none := by
      rw [readBlob]
      cases hblob : attributesBlob blob with
      | some bytes => exact hparse bytes hblob
      | none =>
        have htext := jsonPart_eq_ok.mp hpart
        rw [attributesText, hblob] at htext
        subst htext
        exact ⟨.empty, rfl, by simp⟩
    obtain ⟨projection, hproject, hget⟩ := hproject
    refine ⟨_, by rw [projectAttributes, hproject]; rfl, fun name => ?_⟩
    rw [get_projectKeys, hget, attributeFromKeys_eq_lookup primaryKey secondaryKey blob]
    split <;> rfl

end WireItem

/-! ### The logical size -/

section Size

open LogicalItemSize

variable {field : Text} {value : AttributeValue}

theorem validateAttributeValue_scalar (h : validateAttributeValue [] 0 value = .ok ()) :
    ∀ number, value = .N number → validateDynamodbNumber number = .ok () := by
  rintro number rfl
  simp only [validateAttributeValue, Except.bind_eq_ok] at h
  exact h.choose_spec.2

theorem inspectAttribute_eq_ok {name : Text} {size : ℕ}
    (h : inspectAttribute field name value = .ok size) :
    ValidEntry (name, value) ∧ size = entrySize (name, value) := by
  unfold inspectAttribute at h
  obtain ⟨⟨⟩, hname, h⟩ := Except.bind_eq_ok.mp h
  rw [validEntry_iff (field ++ text " attribute name") []]
  cases value with
  | S value =>
    simp only [pure, Except.pure, Except.ok.injEq] at h
    exact ⟨⟨hname, rfl⟩, h.symm⟩
  | N number =>
    simp only [Except.bind_eq_ok, pure, Except.pure, Except.ok.injEq] at h
    obtain ⟨⟨⟩, hnumber, h⟩ := h
    exact ⟨⟨hname, hnumber⟩, h.symm⟩
  | _ =>
    simp only [Except.bind_eq_ok, tryFromEntriesWithField_eq_ok, forall_mem_singleton,
      map_singleton, sum_singleton, pure, Except.pure, Except.ok.injEq] at h
    obtain ⟨result, ⟨hvalid, hresult⟩, rfl⟩ := h
    exact ⟨⟨hname, hvalid.2⟩, hresult⟩

theorem inspectAttribute_of_validEntry {name : Text} (hvalid : ValidEntry (name, value))
    (hmax : entrySize (name, value) ≤ maxItemSizeBytes) :
    inspectAttribute field name value = .ok (entrySize (name, value)) := by
  have hname := validateAttributeName_eq_ok.mp hvalid.1
  have hpos : 0 < entrySize (name, value) := Nat.add_pos_left hname.1 _
  have hsize : (tryFromEntriesWithField field [(name, value)] >>= fun size => pure size.bytes)
      = .ok (entrySize (name, value)) :=
    Except.bind_eq_ok.mpr ⟨⟨_, hpos, hmax⟩, tryFromEntriesWithField_eq_ok.mpr (by simp [hvalid]),
      rfl⟩
  unfold inspectAttribute
  refine Except.bind_eq_ok.mpr ⟨(), validateAttributeName_eq_ok.mpr hname, ?_⟩
  cases value with
  | S value => rfl
  | N number =>
    exact Except.bind_eq_ok.mpr ⟨(), validateAttributeValue_scalar hvalid.2 number rfl, rfl⟩
  | _ => exact hsize

variable {excluded names : List Text} {read : List (Text × AttributeValue)}

/-- The entries that are measured. -/
def measured (excluded : List Text) (entries : List (Text × AttributeValue)) :
    List (Text × AttributeValue) :=
  entries.filter fun entry => entry.1 ∉ excluded

/-- The inspection adds up the sizes of the entries that are not excluded. -/
theorem visitWriteAttributes_eq_ok (hread : List.Forall₂ FieldReadsAs content read)
    {size total : ℕ} (h : visitWriteAttributes field excluded names size content = .ok total) :
    (∀ entry ∈ measured excluded read, ValidEntry entry) ∧
      total = size + ((measured excluded read).map entrySize).sum := by
  induction hread generalizing names size with
  | nil =>
    rw [visitWriteAttributes, Except.ok.injEq] at h
    simp [measured, h]
  | @cons attr entry content read hentry _ ih =>
    obtain ⟨name, value⟩ := attr
    obtain ⟨name', decoded⟩ := entry
    obtain ⟨hname, hdecoded⟩ := hentry
    obtain rfl : name = name' := hname
    simp only [visitWriteAttributes] at h
    split_ifs at h with hdup hexcluded
    · rw [measured, filter_cons_of_neg (by simpa using hexcluded)]
      exact ih h
    · rw [hdecoded] at h
      simp only [Except.bind_eq_ok] at h
      obtain ⟨valueSize, hinspect, hrest⟩ := h
      obtain ⟨hvalid, rfl⟩ := inspectAttribute_eq_ok hinspect
      obtain ⟨hall, rfl⟩ := ih hrest
      rw [measured, filter_cons_of_pos (by simpa using hexcluded)]
      refine ⟨forall_mem_cons.mpr ⟨hvalid, hall⟩, ?_⟩
      rw [map_cons, sum_cons, measured, Nat.add_assoc]

/-- Valid entries under different names that fit an item are inspected. -/
theorem visitWriteAttributes_of_valid (hread : List.Forall₂ FieldReadsAs content read)
    (hnodup : (read.map Prod.fst).Nodup) (hnew : ∀ entry ∈ read, entry.1 ∉ names)
    (hvalid : ∀ entry ∈ measured excluded read, ValidEntry entry)
    (hmax : ((measured excluded read).map entrySize).sum ≤ maxItemSizeBytes) (size : ℕ) :
    visitWriteAttributes field excluded names size content
      = .ok (size + ((measured excluded read).map entrySize).sum) := by
  induction hread generalizing names size with
  | nil => simp [measured, visitWriteAttributes]
  | @cons attr entry content read hentry _ ih =>
    obtain ⟨name, value⟩ := attr
    obtain ⟨name', decoded⟩ := entry
    obtain ⟨hname, hdecoded⟩ := hentry
    obtain rfl : name = name' := hname
    rw [map_cons, nodup_cons] at hnodup
    rw [forall_mem_cons] at hnew
    have hnew' : ∀ entry ∈ read, entry.1 ∉ name :: names := by
      intro entry hmem
      rw [mem_cons, not_or]
      exact ⟨fun heq => hnodup.1 (mem_map.mpr ⟨entry, hmem, heq⟩), hnew.2 entry hmem⟩
    rw [visitWriteAttributes, if_neg hnew.1]
    by_cases hexcluded : name ∈ excluded
    · rw [measured, filter_cons_of_neg (by simpa using hexcluded)] at hvalid hmax ⊢
      rw [if_pos hexcluded]
      exact ih hnodup.2 hnew' hvalid hmax size
    · rw [measured, filter_cons_of_pos (by simpa using hexcluded)] at hvalid hmax ⊢
      rw [forall_mem_cons] at hvalid
      rw [map_cons, sum_cons] at hmax ⊢
      have hinspect : inspectAttribute field name decoded = .ok (entrySize (name, decoded)) :=
        inspectAttribute_of_validEntry hvalid.1 (by omega)
      have hrest := ih hnodup.2 hnew' hvalid.2 (by rw [measured]; omega)
        (size + entrySize (name, decoded))
      rw [if_neg hexcluded, hdecoded]
      simp only [hinspect, bind, Except.bind, hrest, measured, Nat.add_assoc]

variable {bytes : List UInt8}

theorem sizeFromDynamoJson_eq_ok
    (hvisit : visitMap .empty (json.scan bytes).fields = .ok attributes) {total : ℕ}
    (h : sizeFromDynamoJson json bytes field excluded = .ok total) :
    (∀ entry ∈ measured excluded attributes.entries, ValidEntry entry) ∧
      total = ((measured excluded attributes.entries).map entrySize).sum := by
  obtain ⟨read, hread, hentries⟩ := visitMap_eq_ok.mp hvisit
  rw [sizeFromDynamoJson, Except.mapError_eq_ok, inspectWriteAttributes,
    JsonFormat.fromSlice_eq_ok] at h
  obtain ⟨hvalid, htotal⟩ := visitWriteAttributes_eq_ok hread h.1
  obtain rfl : attributes.entries = read := hentries
  exact ⟨hvalid, by rw [htotal, Nat.zero_add]⟩

theorem sizeFromDynamoJson_of_valid
    (hvisit : visitMap .empty (json.scan bytes).fields = .ok attributes)
    (hend : (json.scan bytes).ending = .complete)
    (hvalid : ∀ entry ∈ measured excluded attributes.entries, ValidEntry entry)
    (hmax : ((measured excluded attributes.entries).map entrySize).sum ≤ maxItemSizeBytes) :
    sizeFromDynamoJson json bytes field excluded
      = .ok ((measured excluded attributes.entries).map entrySize).sum := by
  obtain ⟨read, hread, hentries⟩ := visitMap_eq_ok.mp hvisit
  obtain rfl : attributes.entries = read := hentries
  rw [sizeFromDynamoJson, Except.mapError_eq_ok, inspectWriteAttributes, JsonFormat.fromSlice_eq_ok]
  refine ⟨?_, hend⟩
  rw [visitWriteAttributes_of_valid hread attributes.nodup (fun entry _ => not_mem_nil)
    hvalid hmax 0, Nat.zero_add]

end Size

namespace WireItem

/-- The entries of the keys, each name once. -/
def keyMap (item : WireItem) : AttributeMap :=
  (empty : AttributeMap).insertAll item.keyEntries

/-- The decoded map has the entries of the keys, and the JSON part under other names. -/
theorem get_overlay_keyMap (item : WireItem) (attributes : AttributeMap) (name : Text) :
    (item.keyMap.overlay attributes).get name
      = (attributes.insertAll item.keyEntries).get name := by
  rw [get_overlay, keyMap, get_insertAll, get_insertAll, get_empty, Option.or_none]

/-- The JSON part under other names than those of the keys. -/
theorem entries_overlay_keyMap (item : WireItem) (attributes : AttributeMap) :
    (item.keyMap.overlay attributes).entries
      = item.keyMap.entries ++ measured (item.keyMap.entries.map Prod.fst) attributes.entries :=
  congrArg _ (filter_congr fun entry _ => by simp)

/-- **The logical size** is that of the decoded map, whatever the parts hold. -/
theorem logicalSize_eq_ok (hpart : item.jsonPart json = .ok attributes) {size : LogicalItemSize} :
    item.logicalSize json = .ok size ↔
      LogicalItemSize.tryFromEntries (attributes.insertAll item.keyEntries).entries = .ok size := by
  have htext := jsonPart_eq_ok.mp hpart
  rw [← LogicalItemSize.tryFromEntries_perm (perm_of_get_eq (get_overlay_keyMap item attributes)),
    LogicalItemSize.tryFromEntries, LogicalItemSize.tryFromEntriesWithField_eq_ok]
  rw [entries_overlay_keyMap, forall_mem_append, map_append, sum_append]
  have hmax := size.le_max
  cases item with
  | dynamoJson data =>
    obtain ⟨hvisit, hend⟩ := htext
    have hkeys : (dynamoJson data).keyMap.entries = [] := rfl
    rw [logicalSize, LogicalItemSize.fromDynamoJson, Except.bind_eq_ok, hkeys]
    simp only [LogicalItemSize.fromCheckedSize_eq_ok, not_mem_nil, false_imp_iff,
      implies_true, true_and, map_nil, sum_nil, Nat.zero_add]
    constructor
    · rintro ⟨total, htotal, hsize⟩
      obtain ⟨hvalid, rfl⟩ := sizeFromDynamoJson_eq_ok hvisit htotal
      exact ⟨hvalid, hsize⟩
    · rintro ⟨hvalid, hsize⟩
      exact ⟨_, sizeFromDynamoJson_of_valid hvisit hend hvalid (hsize ▸ hmax), hsize⟩
  | localSplit primaryKey secondaryKey blob =>
    have hkeys : canonicalKeyEntries primaryKey secondaryKey
        = (localSplit primaryKey secondaryKey blob).keyMap.entries :=
      canonicalKeyEntries_eq primaryKey secondaryKey blob
    rw [logicalSize, hkeys]
    simp only [Except.bind_eq_ok, LogicalItemSize.fromCheckedSize_eq_ok,
      LogicalItemSize.tryFromEntries, LogicalItemSize.tryFromEntriesWithField_eq_ok]
    set entries := (localSplit primaryKey secondaryKey blob).keyMap.entries with hset
    have hnonKey : ∀ total, total ≤ maxItemSizeBytes →
        (readBlob blob 0 (fun blob => LogicalItemSize.sizeFromDynamoJson json blob
          (text "WireItem") (entries.map Prod.fst)) = .ok total ↔
        (∀ entry ∈ measured (entries.map Prod.fst) attributes.entries,
            LogicalItemSize.ValidEntry entry) ∧
          total = ((measured (entries.map Prod.fst) attributes.entries).map
            LogicalItemSize.entrySize).sum) := by
      intro total htotal
      rw [attributesText] at htext
      rw [readBlob]
      cases hblob : attributesBlob blob with
      | none =>
        rw [hblob] at htext
        subst htext
        simp only [pure, Except.pure, Except.ok.injEq]
        exact ⟨fun h => ⟨by simp [measured, empty], h.symm⟩, fun h => h.2.symm⟩
      | some bytes =>
        rw [hblob] at htext
        refine ⟨sizeFromDynamoJson_eq_ok htext.1, ?_⟩
        rintro ⟨hvalid, rfl⟩
        exact sizeFromDynamoJson_of_valid htext.1 htext.2 hvalid htotal
    constructor
    · rintro ⟨keySize, ⟨hkeyValid, hkeySize⟩, total, htotal, hsize⟩
      obtain ⟨hvalid, rfl⟩ := (hnonKey total (by omega)).mp htotal
      exact ⟨⟨hkeyValid, hvalid⟩, by rw [hsize, hkeySize]⟩
    · rintro ⟨⟨hkeyValid, hvalid⟩, hsize⟩
      -- the hash key is an entry of its own, so the keys have a size
      have hpos : 0 < (entries.map LogicalItemSize.entrySize).sum := by
        obtain ⟨value, hvalue⟩ : ∃ value, (localSplit primaryKey secondaryKey
            blob).keyMap.get primaryKey.hashKeyName = some value := by
          refine Option.ne_none_iff_exists'.mp ?_
          rw [keyMap, get_insertAll, get_empty, Option.or_none, ne_eq,
            lookup_reverse_eq_none_iff, lookup_eq_none_iff]
          simp [keyEntries, WireItemKeyAttributes.entries]
        have hmem := (get_eq_some_iff _).mp hvalue
        have hname := LogicalItemSize.validateAttributeName_eq_ok.mp (hkeyValid _ hmem).1
        exact lt_of_lt_of_le (Nat.add_pos_left hname.1 _)
          (le_sum_of_mem (mem_map_of_mem hmem))
      exact ⟨⟨_, hpos, by omega⟩, ⟨hkeyValid, rfl⟩, _,
        (hnonKey _ (by omega)).mpr ⟨hvalid, rfl⟩, hsize⟩

end WireItem

/-! ### The JSON text -/

/-- An empty object stands between whitespace. -/
theorem eq_braces_of_blobIsEmptyJsonObject {blob : List UInt8}
    (h : blobIsEmptyJsonObject blob = true) :
    ∃ before after, blob = before ++ 0x7b :: 0x7d :: after ∧
      ∀ byte ∈ before ++ after, Json.isAsciiWhitespace byte := by
  have htrim : trimAsciiWhitespace blob = [0x7b, 0x7d] := by simpa [blobIsEmptyJsonObject] using h
  refine ⟨blob.takeWhile Json.isAsciiWhitespace,
    (blob.dropWhile Json.isAsciiWhitespace).rtakeWhile Json.isAsciiWhitespace, ?_, ?_⟩
  · calc
      blob = blob.takeWhile Json.isAsciiWhitespace ++ blob.dropWhile Json.isAsciiWhitespace :=
        (takeWhile_append_dropWhile ..).symm
      _ = blob.takeWhile Json.isAsciiWhitespace ++ (trimAsciiWhitespace blob
            ++ (blob.dropWhile Json.isAsciiWhitespace).rtakeWhile Json.isAsciiWhitespace) := by
        rw [trimAsciiWhitespace, rdropWhile_append_rtakeWhile]
      _ = _ := by rw [htrim]; rfl
  · intro byte hmem
    rcases mem_append.mp hmem with hmem | hmem
    · exact mem_takeWhile_imp hmem
    · exact mem_rtakeWhile_imp hmem

/-- The reading of the entries that are kept. -/
theorem forall₂_filter_measured {read : List (Text × AttributeValue)}
    (h : List.Forall₂ FieldReadsAs content read) (excluded : List Text) :
    List.Forall₂ FieldReadsAs (content.filter fun field => field.1 ∉ excluded)
      (measured excluded read) := by
  induction h with
  | nil => exact .nil
  | @cons field entry content read hentry _ ih =>
    rw [measured]
    by_cases hmem : field.1 ∈ excluded
    · rw [filter_cons_of_neg (by simpa using hmem),
        filter_cons_of_neg (by simpa [← hentry.1] using hmem)]
      exact ih
    · rw [filter_cons_of_pos (by simpa using hmem),
        filter_cons_of_pos (by simpa [← hentry.1] using hmem)]
      exact .cons hentry ih

theorem forall₂_toJson {entries : List (Text × AttributeValue)}
    (h : ∀ entry ∈ entries, entry.2.SortedNames) :
    List.Forall₂ FieldReadsAs (entries.map fun entry => (entry.1, entry.2.toJson)) entries := by
  rw [forall₂_map_left_iff, forall₂_same]
  exact fun entry hmem => ⟨rfl, AttributeValue.fromJson_toJson (h entry hmem)⟩

theorem WireItemKeyAttributes.sorted_of_mem (keys : WireItemKeyAttributes) :
    ∀ entry ∈ keys.entries, entry.2.SortedNames := by
  rw [WireItemKeyAttributes.entries, forall_mem_cons]
  refine ⟨keys.hashKey_sorted, ?_⟩
  have hsort := keys.sortKey_sorted
  cases keys.sortKeyName with
  | none => simp
  | some name =>
    cases hvalue : keys.sortKey with
    | none => simp
    | some value =>
      rw [hvalue] at hsort
      simpa using hsort

namespace WireItem

theorem sorted_of_mem_keyMap (item : WireItem) :
    ∀ entry ∈ item.keyMap.entries, entry.2.SortedNames := by
  rintro ⟨name, value⟩ hmem
  have hget := (get_eq_some_iff _).mpr hmem
  rw [keyMap, get_insertAll, get_empty, Option.or_none] at hget
  have hkey := mem_reverse.mp (mem_of_lookup_eq_some hget)
  cases item with
  | dynamoJson data => exact absurd hkey not_mem_nil
  | localSplit primaryKey secondaryKey blob =>
    rcases mem_append.mp hkey with hkey | hkey
    · exact primaryKey.sorted_of_mem _ hkey
    · obtain ⟨keys, -, hkey⟩ := mem_flatMap.mp hkey
      exact keys.sorted_of_mem _ hkey

/-- The blob can be read as JSON where it is passed over as an empty object: ASCII calls the
form feed whitespace and JSON does not. -/
def ReadableBlob : WireItem → Prop
  | .localSplit _ _ (some blob) => blobIsEmptyJsonObject blob = true → 0x0c ∉ blob
  | _ => True

/-- What the JSON text is made of beside the keys. -/
theorem parseAttributes_blob {primaryKey : WireItemKeyAttributes}
    {secondaryKey : Option WireItemKeyAttributes} {blob : Option (List UInt8)}
    (hpart : (localSplit primaryKey secondaryKey blob).jsonPart json = .ok attributes)
    (excluded : List Text) :
    ((∃ content, parseAttributes json
        ((blob.filter fun blob => !blob.isEmpty).getD [0x7b, 0x7d]) excluded = .ok content) ↔
      (localSplit primaryKey secondaryKey blob).ReadableBlob) ∧
    ∀ content, parseAttributes json ((blob.filter fun blob => !blob.isEmpty).getD [0x7b, 0x7d])
        excluded = .ok content →
      List.Forall₂ FieldReadsAs content (measured excluded attributes.entries) := by
  have htext := jsonPart_eq_ok.mp hpart
  have hnone : attributesBlob blob = none → attributes = .empty := by
    intro hblob
    rw [attributesText, hblob] at htext
    exact htext
  -- an absent blob is read as two braces
  have hbraces : parseAttributes json [0x7b, 0x7d] excluded = .ok [] := by
    rw [parseAttributes, ← json.write_nil, JsonFormat.fromSlice_write]
    rfl
  have habsent : attributes = .empty → ∀ content,
      parseAttributes json [0x7b, 0x7d] excluded = .ok content →
        List.Forall₂ FieldReadsAs content (measured excluded attributes.entries) := by
    rintro rfl content hcontent
    rw [hbraces, Except.ok.injEq] at hcontent
    exact hcontent ▸ .nil
  rcases blob with _ | blob
  · exact ⟨iff_of_true ⟨[], hbraces⟩ trivial, habsent (hnone rfl)⟩
  by_cases hnil : blob = []
  · subst hnil
    exact ⟨iff_of_true ⟨[], hbraces⟩ fun _ => not_mem_nil, habsent (hnone rfl)⟩
  have hparse : ∀ content, parseAttributes json
      (((some blob).filter fun blob => !blob.isEmpty).getD [0x7b, 0x7d]) excluded = .ok content ↔
        (json.scan blob).fields.filter (fun field => field.1 ∉ excluded) = content ∧
          (json.scan blob).ending = .complete := by
    intro content
    rw [Option.filter_some_pos (by simpa using hnil), Option.getD_some, parseAttributes,
      JsonFormat.fromSlice_eq_ok, Except.ok.injEq]
  simp only [hparse]
  by_cases hempty : blobIsEmptyJsonObject blob = true
  · obtain rfl : attributes = .empty := hnone (by simp [attributesBlob, hempty])
    obtain ⟨before, after, hsplit, hspace⟩ := eq_braces_of_blobIsEmptyJsonObject hempty
    have hscan : json.scan blob = ⟨[], Json.bracesEnding before after⟩ := by
      rw [hsplit]
      exact json.scan_braces before after hspace
    have hend : Json.bracesEnding before after = .complete ↔ 0x0c ∉ blob := by
      rw [hsplit, Json.bracesEnding]
      by_cases hbefore : (0x0c : UInt8) ∈ before
      · simp [hbefore]
      · by_cases hafter : (0x0c : UInt8) ∈ after <;> simp [hbefore, hafter]
    simp only [hscan, hend, filter_nil]
    exact ⟨⟨fun h _ => h.choose_spec.2, fun h => ⟨[], rfl, h hempty⟩⟩, fun _ h => h.1 ▸ .nil⟩
  · have hsome : attributesBlob (some blob) = some blob := by
      simp [attributesBlob, hempty, hnil]
    rw [attributesText, hsome] at htext
    obtain ⟨read, hread, hentries⟩ := visitMap_eq_ok.mp htext.1
    obtain rfl : attributes.entries = read := hentries
    refine ⟨iff_of_true ⟨_, rfl, htext.2⟩ fun h => absurd h hempty, ?_⟩
    rintro _ ⟨rfl, -⟩
    exact forall₂_filter_measured hread excluded

/-- **The JSON text** is one of the decoded map, if the blob can be read. -/
theorem dynamoJsonBytes_iff (hpart : item.jsonPart json = .ok attributes) :
    (∃ bytes read, item.dynamoJsonBytes json = .ok bytes ∧
        fromDynamoJson json bytes = .ok read ∧
        ∀ name, read.get name = (attributes.insertAll item.keyEntries).get name) ↔
      item.ReadableBlob := by
  cases item with
  | dynamoJson data => exact iff_of_true ⟨data, attributes, rfl, hpart, fun _ => rfl⟩ trivial
  | localSplit primaryKey secondaryKey blob =>
    set item := localSplit primaryKey secondaryKey blob with hitem
    have hkeys : canonicalKeyEntries primaryKey secondaryKey = item.keyMap.entries :=
      canonicalKeyEntries_eq primaryKey secondaryKey blob
    obtain ⟨hreadable, hread⟩ :=
      parseAttributes_blob hpart (item.keyMap.entries.map Prod.fst)
    rw [← hreadable, hitem, dynamoJsonBytes, hkeys]
    constructor
    · rintro ⟨bytes, read, hbytes, -, -⟩
      obtain ⟨content, hcontent, -⟩ := Except.bind_eq_ok.mp hbytes
      exact ⟨content, hcontent⟩
    · rintro ⟨content, hcontent⟩
      refine ⟨_, item.keyMap.overlay attributes, Except.bind_eq_ok.mpr ⟨content, hcontent, rfl⟩,
        ?_, get_overlay_keyMap item attributes⟩
      rw [fromDynamoJson, Except.mapError_eq_ok, JsonFormat.fromSlice_write,
        visitMap_eq_ok]
      exact ⟨_, rel_append (forall₂_toJson item.sorted_of_mem_keyMap) (hread content hcontent),
        entries_overlay_keyMap item attributes⟩

/-! ### Agreement -/

/-- The five views of an item **describe a map** to someone who asks for some fields. The
selected values and the projection are those of the map, the size is the size of its entries,
and the JSON text is read as the map. -/
structure Describes (json : JsonFormat) (item : WireItem) (fields : List Text)
    (map : AttributeMap) : Prop where
  decoded : item.toAttributeMap json = .ok map
  selected : item.selectAttributeValues json fields = .ok (fields.map map.get)
  projected : ∃ projection, item.projectAttributes json fields = .ok projection ∧
    ∀ name, projection.get name = if name ∈ fields then map.get name else none
  sized : (item.logicalSize json).toOption
    = (LogicalItemSize.tryFromEntries map.entries).toOption
  written : ∃ bytes read, item.dynamoJsonBytes json = .ok bytes ∧
    fromDynamoJson json bytes = .ok read ∧ ∀ name, read.get name = map.get name

/-- The parts of an item **agree** on some fields. -/
structure PartsAgree (item : WireItem) (fields : List Text) (attributes : AttributeMap) :
    Prop where
  /-- The first key attribute of a requested name has the value of the last one. -/
  keys : ∀ field ∈ fields, lookup item.keyEntries field = lookup item.keyEntries.reverse field
  /-- A requested name has the same value in the keys and in the JSON part. -/
  parts : ∀ field ∈ fields, ∀ value value', lookup item.keyEntries field = some value →
    attributes.get field = some value' → value = value'
  /-- A name that only the JSON part holds is requested once. -/
  once : ∀ field, fields.Duplicate field → lookup item.keyEntries field = none →
    attributes.get field = none
  readable : item.ReadableBlob

theorem toOption_eq_of_eq_ok_iff {ε α : Type} {x y : Except ε α}
    (h : ∀ {a}, x = .ok a ↔ y = .ok a) : x.toOption = y.toOption := by
  cases x with
  | ok a => rw [h.mp rfl]
  | error e =>
    cases y with
    | ok a => exact absurd (h.mpr rfl) (by simp)
    | error e' => rfl

/-- One field: the first entry and the last one, and the JSON part behind either. -/
theorem views_field_iff {first last part : Option AttributeValue}
    (hnone : last = none ↔ first = none) :
    (part.or first = last.or part ∧ first.or part = last.or part) ↔
      first = last ∧ ∀ value value', first = some value → part = some value' → value = value' := by
  cases first with
  | none =>
    rw [hnone.mpr rfl]
    simp
  | some v =>
    cases last with
    | none => exact absurd (hnone.mp rfl) (by simp)
    | some w =>
      cases part with
      | none => simp
      | some x =>
        simp only [Option.some_or, Option.some.injEq]
        constructor
        · rintro ⟨rfl, rfl⟩
          exact ⟨rfl, by rintro _ _ rfl rfl; rfl⟩
        · rintro ⟨rfl, h⟩
          exact ⟨(h v x rfl rfl).symm, rfl⟩

/-- **The five views of an item describe one map exactly when its JSON part is readable and its
parts agree on the requested fields.** -/
theorem views_agree_iff (json : JsonFormat) (item : WireItem) (fields : List Text) :
    (∃ map, item.Describes json fields map) ↔
      ∃ attributes, item.jsonPart json = .ok attributes ∧ item.PartsAgree fields attributes := by
  have hnone : ∀ field, lookup item.keyEntries.reverse field = none ↔
      lookup item.keyEntries field = none := fun field => lookup_reverse_eq_none_iff
  constructor
  · rintro ⟨map, hmap⟩
    obtain ⟨attributes, hpart, rfl⟩ := toAttributeMap_eq_ok.mp hmap.decoded
    have hselected := hmap.selected
    rw [selectAttributeValues_eq_ok hpart, Except.ok.injEq, zipWith_firstRequests_eq_map]
      at hselected
    obtain ⟨projection, hproject, hget⟩ := projectAttributes_eq_ok hpart fields
    have hprojected : ∀ field ∈ fields,
        (lookup item.keyEntries field).or (attributes.get field)
          = (attributes.insertAll item.keyEntries).get field := by
      intro field hmem
      obtain ⟨projection', hproject', hget'⟩ := hmap.projected
      obtain rfl : projection = projection' := Except.ok.inj (hproject.symm.trans hproject')
      have h := (hget field).symm.trans (hget' field)
      rwa [if_pos hmem, if_pos hmem] at h
    have hfield : ∀ field ∈ fields, _ ∧ _ := fun field hmem =>
      (views_field_iff (hnone field)).mp ⟨by
        rw [← get_insertAll]
        exact hselected.1 field hmem not_mem_nil, by
        rw [← get_insertAll]
        exact hprojected field hmem⟩
    refine ⟨attributes, hpart, fun field hmem => (hfield field hmem).1,
      fun field hmem => (hfield field hmem).2, fun field hdup hlookup => ?_,
      (dynamoJsonBytes_iff hpart).mp hmap.written⟩
    have h := hselected.2 field hdup.mem (Or.inr hdup)
    rw [get_insertAll, (hnone field).mpr hlookup, Option.none_or, hlookup] at h
    exact h.symm
  · rintro ⟨attributes, hpart, hagree⟩
    have hfield : ∀ field ∈ fields, _ ∧ _ := fun field hmem =>
      (views_field_iff (hnone field)).mpr ⟨hagree.keys field hmem, hagree.parts field hmem⟩
    refine ⟨_, toAttributeMap_eq_ok.mpr ⟨attributes, hpart, rfl⟩, ?_, ?_, ?_,
      (dynamoJsonBytes_iff hpart).mpr hagree.readable⟩
    · rw [selectAttributeValues_eq_ok hpart, Except.ok.injEq, zipWith_firstRequests_eq_map]
      refine ⟨fun field hmem _ => ?_, fun field hmem hagain => ?_⟩
      · rw [get_insertAll]
        exact (hfield field hmem).1
      · have hdup := hagain.resolve_left not_mem_nil
        rw [get_insertAll, ← hagree.keys field hmem]
        cases hlookup : lookup item.keyEntries field with
        | none => rw [hagree.once field hdup hlookup, Option.or_none]
        | some value => rfl
    · obtain ⟨projection, hproject, hget⟩ := projectAttributes_eq_ok hpart fields
      refine ⟨projection, hproject, fun name => ?_⟩
      rw [hget]
      split
      · rename_i hmem
        rw [get_insertAll]
        exact (hfield name hmem).2
      · rfl
    · exact toOption_eq_of_eq_ok_iff (logicalSize_eq_ok hpart)

end WireItem

/-- A key with the name `a` alone. -/
def singleKey (value : Text) : WireItemKeyAttributes where
  hashKeyName := text "a"
  hashKey := .S value
  sortKeyName := none
  sortKey := none
  hashKey_sorted := trivial
  sortKey_sorted := sortedNames_none

/-- A split item whose two keys give the name `a` different values. -/
def splitItem : WireItem :=
  .localSplit (singleKey (text "1")) (some (singleKey (text "2"))) none

/-- The decoded map takes the value of the secondary key, and a selection and a projection that
of the primary one. -/
theorem splitItem_views_differ :
    (splitItem.toAttributeMap .counting).map (·.get (text "a")) = .ok (some (.S (text "2"))) ∧
      splitItem.selectAttributeValues .counting [text "a"] = .ok [some (.S (text "1"))] ∧
      (splitItem.projectAttributes .counting [text "a"]).map (·.get (text "a"))
        = .ok (some (.S (text "1"))) :=
  ⟨rfl, rfl, rfl⟩

end AuxStorage
