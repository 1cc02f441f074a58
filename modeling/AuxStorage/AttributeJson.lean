import AuxStorage.AttributeValue
import AuxStorage.Lib.Json

/-!
# Attribute Values as JSON

The JSON form of attribute values and of attribute maps: one field, whose name is the type and
whose content is the value. A nested map is a hash map in the program and is written by name;
here it is listed as it is written, so the values of the program are those whose nested maps
are **sorted**, each name once.
-/

namespace AuxStorage

/-! ### Values -/

/-- The JSON form of a value of a type. -/
def tagged (tag : String) (value : Json) : Json :=
  .object [(text tag, value)]

/-- Fields by name, `sort_unstable_by_key` on the names. -/
def sortedByName (fields : List (Text × Json)) : List (Text × Json) :=
  fields.mergeSort fun a b => (compareUtf8 a.1 b.1).isLE

mutual

/-- `Serialize for AttributeValue`. -/
def AttributeValue.toJson : AttributeValue → Json
  | .S value => tagged "S" (.string value)
  | .N value => tagged "N" (.string value)
  | .B value => tagged "B" (.string value)
  | .SS values => tagged "SS" (.array (values.map .string))
  | .NS values => tagged "NS" (.array (values.map .string))
  | .BS values => tagged "BS" (.array (values.map .string))
  | .BOOL value => tagged "BOOL" (.bool value)
  | .NULL value => tagged "NULL" (.bool value)
  | .L values => tagged "L" (.array (AttributeValue.listToJson values))
  | .M entries => tagged "M" (.object (sortedByName (AttributeValue.entriesToJson entries)))

/-- The JSON forms of the values of a list. -/
def AttributeValue.listToJson : List AttributeValue → List Json
  | [] => []
  | value :: rest => value.toJson :: AttributeValue.listToJson rest

/-- The JSON forms of the entries of a nested map. -/
def AttributeValue.entriesToJson : List (Text × AttributeValue) → List (Text × Json)
  | [] => []
  | (name, value) :: rest => (name, value.toJson) :: AttributeValue.entriesToJson rest

end

open AttributeValue

/-- The text of a JSON string. -/
def jsonString : Json → Option Text
  | .string value => some value
  | _ => none

mutual

/-- `Deserialize for AttributeValue`: exactly one field, and a content of its type. -/
def AttributeValue.fromJson : Json → Option AttributeValue
  | .object [(tag, .string value)] =>
    if tag = text "S" then some (.S value)
    else if tag = text "N" then some (.N value)
    else if tag = text "B" then some (.B value)
    else none
  | .object [(tag, .bool value)] =>
    if tag = text "BOOL" then some (.BOOL value)
    else if tag = text "NULL" then some (.NULL value)
    else none
  | .object [(tag, .array values)] =>
    if tag = text "SS" then (values.mapM jsonString).map .SS
    else if tag = text "NS" then (values.mapM jsonString).map .NS
    else if tag = text "BS" then (values.mapM jsonString).map .BS
    else if tag = text "L" then (listFromJson values).map .L
    else none
  | .object [(tag, .object fields)] =>
    if tag = text "M" then (entriesFromJson fields).map .M
    else none
  | _ => none

/-- The values of a list, all of which must be read. -/
def AttributeValue.listFromJson : List Json → Option (List AttributeValue)
  | [] => some []
  | value :: rest =>
    match fromJson value, listFromJson rest with
    | some value, some rest => some (value :: rest)
    | _, _ => none

/-- The entries of a nested map, which must all be read and repeat no name. -/
def AttributeValue.entriesFromJson : List (Text × Json) → Option (List (Text × AttributeValue))
  | [] => some []
  | (name, value) :: rest =>
    match fromJson value, entriesFromJson rest with
    | some value, some rest =>
      if name ∈ rest.map Prod.fst then none else some ((name, value) :: rest)
    | _, _ => none

end

/-! ### Sorted values -/

mutual

/-- Every nested map lists its names in increasing order, each once: a hash map has no other
order, and this is the one in which it is written. -/
def AttributeValue.SortedNames : AttributeValue → Prop
  | .L values => SortedNamesList values
  | .M entries =>
    (entries.map Prod.fst).Pairwise (fun a b => compareUtf8 a b = .lt) ∧
      SortedNamesEntries entries
  | _ => True

/-- All values of a list are sorted. -/
def AttributeValue.SortedNamesList : List AttributeValue → Prop
  | [] => True
  | value :: rest => value.SortedNames ∧ SortedNamesList rest

/-- All values of a nested map are sorted. -/
def AttributeValue.SortedNamesEntries : List (Text × AttributeValue) → Prop
  | [] => True
  | (_, value) :: rest => value.SortedNames ∧ SortedNamesEntries rest

end

theorem map_fst_entriesToJson (entries : List (Text × AttributeValue)) :
    (entriesToJson entries).map Prod.fst = entries.map Prod.fst := by
  induction entries with
  | nil => rfl
  | cons entry rest ih => rw [entriesToJson, List.map_cons, List.map_cons, ih]

theorem sortedByName_of_pairwise {fields : List (Text × Json)}
    (h : (fields.map Prod.fst).Pairwise fun a b => compareUtf8 a b = .lt) :
    sortedByName fields = fields := by
  refine List.mergeSort_of_pairwise ?_
  rw [List.pairwise_map] at h
  exact h.imp fun hlt => by rw [hlt]; rfl

theorem nodup_of_pairwise_compareUtf8 {names : List Text}
    (h : names.Pairwise fun a b => compareUtf8 a b = .lt) : names.Nodup :=
  h.imp fun {a b} hlt heq => by
    have hself : List.compareLex compare b.bytes b.bytes = .eq := Std.ReflCmp.compare_self
    rw [heq, compareUtf8, hself] at hlt
    exact absurd hlt (by decide)

theorem mapM_jsonString (values : List Text) :
    (values.map Json.string).mapM jsonString = some values := by
  induction values with
  | nil => rfl
  | cons value rest ih => simp [jsonString, ih]

mutual

/-- **A sorted value is read back from its JSON form.** -/
theorem AttributeValue.fromJson_toJson :
    ∀ {value : AttributeValue}, value.SortedNames →
      fromJson value.toJson = some value
  | .S _, _ | .N _, _ | .B _, _ | .BOOL _, _ | .NULL _, _ => rfl
  | .SS values, _ => congrArg (Option.map SS) (mapM_jsonString values)
  | .NS values, _ => congrArg (Option.map NS) (mapM_jsonString values)
  | .BS values, _ => congrArg (Option.map BS) (mapM_jsonString values)
  | .L values, h =>
    congrArg (Option.map L) (listFromJson_listToJson h)
  | .M entries, h => by
    have hsorted : sortedByName (entriesToJson entries)
        = entriesToJson entries :=
      sortedByName_of_pairwise (by rw [map_fst_entriesToJson]; exact h.1)
    rw [toJson, hsorted]
    exact congrArg (Option.map M)
      (entriesFromJson_entriesToJson h.2 (nodup_of_pairwise_compareUtf8 h.1))

theorem AttributeValue.listFromJson_listToJson :
    ∀ {values : List AttributeValue}, SortedNamesList values →
      listFromJson (listToJson values) = some values
  | [], _ => rfl
  | value :: rest, h => by
    rw [listToJson, listFromJson, fromJson_toJson h.1, listFromJson_listToJson h.2]

theorem AttributeValue.entriesFromJson_entriesToJson :
    ∀ {entries : List (Text × AttributeValue)}, SortedNamesEntries entries →
      (entries.map Prod.fst).Nodup →
      entriesFromJson (entriesToJson entries) = some entries
  | [], _, _ => rfl
  | (name, value) :: rest, h, hnodup => by
    rw [List.map_cons, List.nodup_cons] at hnodup
    rw [entriesToJson, entriesFromJson,
      fromJson_toJson h.1, entriesFromJson_entriesToJson h.2 hnodup.2]
    exact if_neg hnodup.1

end

/-! ### Maps -/

/-- `AttributeMapVisitor`. The error is the opening of the library's message. -/
def AttributeMap.visitMap (attributes : AttributeMap) :
    List (Text × Json) → Except Text AttributeMap
  | [] => .ok attributes
  | (name, value) :: rest =>
    if (attributes.get name).isSome then .error (text "duplicate DynamoDB attribute name")
    else
      match fromJson value with
      | none => .error []
      | some value => AttributeMap.visitMap (attributes.insert name value) rest

/-- One field of a map: its name is new, and it holds a value. -/
theorem AttributeMap.visitMap_cons_eq_ok {attributes map : AttributeMap} {name : Text}
    {value : Json} {rest : List (Text × Json)} :
    attributes.visitMap ((name, value) :: rest) = .ok map ↔
      attributes.get name = none ∧ ∃ decoded, fromJson value = some decoded ∧
        AttributeMap.visitMap (attributes.insert name decoded) rest = .ok map := by
  rw [AttributeMap.visitMap]
  cases attributes.get name <;> cases fromJson value <;> simp

/-- A field that is read as an entry. -/
def FieldReadsAs (field : Text × Json) (entry : Text × AttributeValue) : Prop :=
  field.1 = entry.1 ∧ fromJson field.2 = some entry.2

/-- **The reading of a map** appends the entries read from the fields. -/
theorem AttributeMap.visitMap_eq_ok {attributes map : AttributeMap} {fields : List (Text × Json)} :
    attributes.visitMap fields = .ok map ↔
      ∃ read, List.Forall₂ FieldReadsAs fields read ∧ map.entries = attributes.entries ++ read := by
  induction fields generalizing attributes with
  | nil =>
    simp only [AttributeMap.visitMap, List.forall₂_nil_left_iff, exists_eq_left, List.append_nil,
      Except.ok.injEq]
    exact ⟨fun h => h ▸ rfl, fun h => (OrderedMap.ext_entries h).symm⟩
  | cons field rest ih =>
    obtain ⟨name, value⟩ := field
    simp only [AttributeMap.visitMap, List.forall₂_cons_left_iff]
    by_cases hdup : (attributes.get name).isSome
    · rw [if_pos hdup]
      simp only [reduceCtorEq, false_iff, not_exists, not_and]
      rintro _ ⟨entry, read, ⟨hname, -⟩, -, rfl⟩ hentries
      -- the map would hold the name twice
      have hmem : name ∈ attributes.entries.map Prod.fst := by
        by_contra hnot
        rw [attributes.get_eq_none_iff.mpr hnot] at hdup
        exact absurd hdup (by decide)
      have hnodup := map.nodup
      rw [hentries, List.map_append, List.nodup_append] at hnodup
      exact hnodup.2.2 name hmem entry.1 (by simp) hname
    · have hnot : name ∉ attributes.entries.map Prod.fst :=
        attributes.get_eq_none_iff.mp (by simpa using hdup)
      rw [if_neg hdup]
      cases hread : fromJson value with
      | none =>
        simp only [reduceCtorEq, false_iff, not_exists, not_and]
        rintro _ ⟨entry, read, ⟨-, hentry⟩, -, -⟩
        rw [hread] at hentry
        exact absurd hentry (by simp)
      | some decoded =>
        have hinsert : (attributes.insert name decoded).entries
            = attributes.entries ++ [(name, decoded)] :=
          OrderedMap.insertEntries_of_notMem decoded hnot
        simp only
        rw [ih, hinsert]
        constructor
        · rintro ⟨read, hreads, hentries⟩
          exact ⟨_, ⟨(name, decoded), read, ⟨rfl, hread⟩, hreads, rfl⟩, by
            rw [hentries, List.append_assoc]; rfl⟩
        · rintro ⟨_, ⟨⟨name', decoded'⟩, read, ⟨rfl, hentry⟩, hreads, rfl⟩, hentries⟩
          rw [hread, Option.some.injEq] at hentry
          obtain rfl : decoded = decoded' := hentry
          exact ⟨read, hreads, by rw [hentries, List.append_assoc]; rfl⟩

end AuxStorage
