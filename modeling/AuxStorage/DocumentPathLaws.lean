import AuxStorage.DocumentPathReaders

/-!
# The Laws of Document Paths

Setting a path stores the value where the path **lands**: at the path itself, except that an index
past the end of a list lands behind its last element. A path that neither leads to the landing
place nor goes through it reads as before. A removal takes one map entry or one list element out,
and the later elements of that list move up by one. A set that fails has taken the root attribute
out of the item, and puts it back.
-/

namespace AuxStorage

open Document
open OrderedMap (get_eq_lookup get_insert get_remove lookup_insertEntries lookup_removeEntries)
open List
open OrderedMap (insertEntries lookup)

/-! ### One step -/

/-- A value with another child. -/
def store (segment : UpdatePathSegment) (child : AttributeValue) :
    AttributeValue → AttributeValue
  | .M map =>
    match segment with
    | .name name => .M (insertEntries name child map)
    | .index _ => .M map
  | .L list =>
    match segment with
    | .name _ => .L list
    | .index index => .L (list.set index child)
  | current => current

variable {segment : UpdatePathSegment} {current : AttributeValue}

theorem getSegment_store_self {old : AttributeValue} (h : getSegment segment current = some old)
    (child : AttributeValue) : getSegment segment (store segment child current) = some child := by
  cases segment with
  | name name =>
    cases current with
    | M map => simp [store, getSegment, lookup_insertEntries]
    | _ => cases h
  | index index =>
    cases current with
    | L list =>
      have hlt : index < list.length := (List.getElem?_eq_some_iff.mp h).1
      simp [store, getSegment, hlt]
    | _ => cases h

theorem getSegment_store_ne {other : UpdatePathSegment} (hne : other ≠ segment)
    (current child : AttributeValue) :
    getSegment other (store segment child current) = getSegment other current := by
  cases current with
  | M map =>
    cases segment with
    | name name =>
      cases other with
      | name key =>
        have hkey : key ≠ name := fun heq => hne (congrArg _ heq)
        simp [store, getSegment, lookup_insertEntries, hkey]
      | index j => rfl
    | index index => rfl
  | L list =>
    cases segment with
    | name name => rfl
    | index index =>
      cases other with
      | name key => rfl
      | index j =>
        have hj : index ≠ j := fun heq => hne (congrArg _ heq.symm)
        simp [store, getSegment, getElem?_set_ne hj]
  | _ => rfl

/-- Storing the child that is there changes nothing. -/
theorem store_self {child : AttributeValue} (h : getSegment segment current = some child) :
    store segment child current = current := by
  cases segment with
  | name name =>
    cases current with
    | M map =>
      have hmap : insertEntries name child map = map := by
        induction map with
        | nil => cases h
        | cons entry rest ih =>
          rw [getSegment, OrderedMap.lookup_cons] at h
          rw [insertEntries]
          split at h
          · rename_i heq
            cases h
            rw [if_pos heq, ← heq]
          · rename_i heq
            rw [if_neg heq, ih h]
      rw [store, hmap]
    | _ => cases h
  | index index =>
    cases current with
    | L list =>
      obtain ⟨hlt, rfl⟩ := List.getElem?_eq_some_iff.mp h
      simp [store]
    | _ => cases h

variable {current' : AttributeValue}

/-- **A step into a child** that succeeds stores the changed child. -/
theorem descend_eq_ok {f : AttributeValue → Except StorageError AttributeValue}
    (h : descend segment current f = .ok current') :
    ∃ child child', getSegment segment current = some child ∧ f child = .ok child' ∧
      current' = store segment child' current := by
  rw [descend.eq_def] at h
  split at h
  case h_3 => cases h
  all_goals
    obtain ⟨child, hchild, h⟩ := Except.bind_eq_ok.mp h
    obtain ⟨child', hchild', h⟩ := Except.bind_eq_ok.mp h
    cases h
    exact ⟨child, child', okOr_eq_ok.mp hchild, hchild', rfl⟩

/-! ### Setting -/

/-- Where the last step of a set lands. -/
def landingStep : AttributeValue → UpdatePathSegment → UpdatePathSegment
  | .L list, .index index => .index (min index list.length)
  | _, segment => segment

/-- **Where a set lands**: an index past the end of the last list is that of a new element. -/
def landing (current : AttributeValue) : List UpdatePathSegment → List UpdatePathSegment
  | [] => []
  | [segment] => [landingStep current segment]
  | segment :: next :: rest =>
    segment :: match getSegment segment current with
      | some child => landing child (next :: rest)
      | none => next :: rest

variable {value : AttributeValue}

/-- The last step of a set. -/
theorem getSegment_setLast (h : setNestedPathValue current [segment] value = .ok current') :
    getSegment (landingStep current segment) current' = some value ∧
      ∀ other, other ≠ landingStep current segment →
        getSegment other current' = getSegment other current := by
  rw [setNestedPathValue.eq_def] at h
  dsimp only at h
  split at h
  · rename_i name map
    cases h
    refine ⟨by simp [landingStep, getSegment, lookup_insertEntries], fun other hne => ?_⟩
    exact getSegment_store_ne hne (.M map) value
  · rename_i index list
    cases h
    by_cases hlt : index < list.length
    · rw [if_neg (by omega), landingStep, Nat.min_eq_left hlt.le]
      refine ⟨by simp [getSegment, hlt], fun other hne => ?_⟩
      exact getSegment_store_ne hne (.L list) value
    · rw [if_pos (by omega), landingStep, Nat.min_eq_right (by omega)]
      refine ⟨by simp [getSegment], fun other hne => ?_⟩
      cases other with
      | name key => rfl
      | index j =>
        have hj : j ≠ list.length := fun heq => hne (congrArg _ heq)
        rcases Nat.lt_or_gt_of_ne hj with hj | hj
        · simp [getSegment, getElem?_append_left hj]
        · simp [getSegment, getElem?_eq_none hj.le, getElem?_append_right hj.le,
            Nat.sub_ne_zero_of_lt hj]
  · cases h

variable {path : List UpdatePathSegment}

/-- **A set stores the value where it lands, and changes nothing else.** -/
theorem follow_setNestedPathValue (h : setNestedPathValue current path value = .ok current') :
    follow (landing current path) current' = some value ∧
      ∀ other, ¬landing current path <+: other → ¬other <+: landing current path →
        follow other current' = follow other current := by
  induction path generalizing current current' with
  | nil => cases h
  | cons segment rest ih =>
    cases rest with
    | nil =>
      obtain ⟨hself, hother⟩ := getSegment_setLast h
      refine ⟨?_, fun other hleft hright => ?_⟩
      · rw [landing, follow_cons, hself]
        rfl
      · cases other with
        | nil => exact absurd nil_prefix hright
        | cons head tail =>
          have hne : head ≠ landingStep current segment := by
            rintro rfl
            exact hleft (cons_prefix_cons.mpr ⟨rfl, nil_prefix⟩)
          rw [follow_cons, follow_cons, hother head hne]
    | cons next rest =>
      rw [setNestedPathValue_cons_cons] at h
      obtain ⟨child, child', hchild, hset, rfl⟩ := descend_eq_ok h
      obtain ⟨hself, hother⟩ := ih hset
      have hlanding : landing current (segment :: next :: rest)
          = segment :: landing child (next :: rest) := by
        rw [landing, hchild]
      rw [hlanding]
      refine ⟨?_, fun other hleft hright => ?_⟩
      · rw [follow_cons, getSegment_store_self hchild]
        exact hself
      · cases other with
        | nil => exact absurd nil_prefix hright
        | cons head tail =>
          rw [follow_cons, follow_cons]
          by_cases hhead : head = segment
          · subst hhead
            rw [getSegment_store_self hchild, hchild]
            rw [cons_prefix_cons] at hleft hright
            exact hother tail (fun hp => hleft ⟨rfl, hp⟩) fun hp => hright ⟨rfl, hp⟩
          · rw [getSegment_store_ne hhead]

/-! ### Removing -/

/-- Where the element that a path leads to was before a removal: nowhere if the map entry is gone,
and one place later if its list has closed up. -/
def beforeRemoval : List UpdatePathSegment → List UpdatePathSegment →
    Option (List UpdatePathSegment)
  | [.name name], .name key :: rest => if key = name then none else some (.name key :: rest)
  | [.index index], .index j :: rest => some (.index (if j < index then j else j + 1) :: rest)
  | segment :: next :: path, head :: rest =>
    if head = segment then (beforeRemoval (next :: path) rest).map (head :: ·)
    else some (head :: rest)
  | _, path => some path

/-- The last step of a removal. -/
theorem follow_removeLast (h : removeNestedPathValue current [segment] = .ok current')
    (head : UpdatePathSegment) (rest : List UpdatePathSegment) :
    follow (head :: rest) current'
      = (beforeRemoval [segment] (head :: rest)).bind (follow · current) := by
  cases segment with
  | name name =>
    cases head with
    | index j =>
      cases current <;> cases h <;> rfl
    | name key =>
      by_cases hkey : key = name
      · rw [beforeRemoval, if_pos hkey]
        cases current <;> cases h <;>
          simp [follow_cons, getSegment, lookup_removeEntries, hkey]
      · rw [beforeRemoval, if_neg hkey]
        cases current <;> cases h <;>
          simp [follow_cons, getSegment, lookup_removeEntries, hkey]
  | index index =>
    cases head with
    | name key =>
      cases current <;> cases h <;> rfl
    | index j =>
      rw [beforeRemoval, Option.bind_some]
      cases current with
      | L list =>
        cases h
        rw [follow_cons, follow_cons, getSegment, getSegment, getElem?_eraseIdx]
        split <;> rfl
      | _ =>
        cases h
        rfl

variable {other : List UpdatePathSegment}

/-- **A removal takes one element out, and changes nothing else**: every path, except for the ones
to the containers of the element, leads to what was there before. -/
theorem follow_removeNestedPathValue (h : removeNestedPathValue current path = .ok current')
    (hother : ¬other <+: path.dropLast) :
    follow other current' = (beforeRemoval path other).bind (follow · current) := by
  induction path generalizing current current' other with
  | nil =>
    cases h
    cases other <;> rfl
  | cons segment rest ih =>
    cases other with
    | nil => exact absurd nil_prefix hother
    | cons head tail =>
      cases rest with
      | nil => exact follow_removeLast h head tail
      | cons next rest =>
        rw [removeNestedPathValue_cons_cons] at h
        obtain ⟨child, child', hchild, hremove, rfl⟩ := descend_eq_ok h
        rw [beforeRemoval, follow_cons]
        split
        · rename_i hhead
          subst hhead
          rw [dropLast_cons_cons, cons_prefix_cons] at hother
          rw [getSegment_store_self hchild, Option.bind_some,
            ih hremove fun hp => hother ⟨rfl, hp⟩, Option.bind_map]
          refine congrArg _ (funext fun path => ?_)
          rw [Function.comp_apply, follow_cons, hchild, Option.bind_some]
        · rename_i hhead
          rw [getSegment_store_ne hhead, Option.bind_some, follow_cons]

/-- A removed map entry is gone. -/
theorem beforeRemoval_self {name : Text} (h : path.getLast? = some (.name name)) :
    beforeRemoval path path = none := by
  induction path with
  | nil => cases h
  | cons segment rest ih =>
    cases rest with
    | nil =>
      obtain rfl : segment = .name name := by simpa using h
      rw [beforeRemoval, if_pos rfl]
    | cons next rest =>
      rw [beforeRemoval, if_pos rfl, ih (by simpa using h)]
      rfl

theorem beforeRemoval_ne_nil {before : List UpdatePathSegment} (hne : other ≠ [])
    (h : beforeRemoval path other = some before) : before ≠ [] := by
  obtain ⟨head, tail, rfl⟩ := exists_cons_of_ne_nil hne
  have hcons {segment : UpdatePathSegment} {rest : List UpdatePathSegment}
      (h : some (segment :: rest) = some before) : before ≠ [] := by
    cases h
    exact cons_ne_nil _ _
  match path with
  | [] => exact hcons h
  | [.name name] =>
    cases head with
    | index j => exact hcons h
    | name key =>
      rw [beforeRemoval] at h
      split at h
      · cases h
      · exact hcons h
  | [.index index] => cases head <;> exact hcons h
  | segment :: next :: path =>
    rw [beforeRemoval] at h
    split at h
    · obtain ⟨rest, -, rfl⟩ := Option.map_eq_some_iff.mp h
      exact cons_ne_nil _ _
    · exact hcons h

/-! ### Setting in place -/

/-- `set_nested_path_value` with the value that it leaves behind, also when it fails. -/
def setNestedPathValueInPlace (current : AttributeValue) (path : List UpdatePathSegment)
    (value : AttributeValue) : Except StorageError Unit × AttributeValue :=
  match path with
  | [] => (.error (.validation (text "Invalid document path for SET operation")), current)
  | [segment] =>
    match segment, current with
    | .name name, .M map => (.ok (), .M (insertEntries name value map))
    | .index index, .L list =>
      (.ok (), .L (if index ≥ list.length then list ++ [value] else list.set index value))
    | _, current => (.error invalidUpdateDocumentPath, current)
  | segment :: next :: rest =>
    match getSegment segment current with
    | none => (.error invalidUpdateDocumentPath, current)
    | some child =>
      let (result, child) := setNestedPathValueInPlace child (next :: rest) value
      (result, store segment child current)

/-- `set_path_value` with the item that it leaves behind: the root is taken out, changed and put
back. -/
def setPathValueInPlace (item : AttributeMap) (path : List UpdatePathSegment)
    (value : AttributeValue) : Except StorageError Unit × AttributeMap :=
  match path with
  | [] => (.error (.validation (text "Invalid document path for SET operation")), item)
  | .index _ :: _ => (.error (.validation (text "SET operation requires an attribute path")), item)
  | [.name name] => (.ok (), item.insert name value)
  | .name name :: next :: rest =>
    match item.get name with
    | none => (.error invalidUpdateDocumentPath, item)
    | some root =>
      let (result, root) := setNestedPathValueInPlace root (next :: rest) value
      (result, (item.remove name).insert name root)

/-- What an operation in place leaves behind. -/
def inPlace {α : Type} (before : α) : Except StorageError α → Except StorageError Unit × α
  | .ok after => (.ok (), after)
  | .error error => (.error error, before)

theorem descend_eq (segment : UpdatePathSegment) (current : AttributeValue)
    (f : AttributeValue → Except StorageError AttributeValue) :
    descend segment current f = (do
      let child ← okOr invalidUpdateDocumentPath (getSegment segment current)
      let child ← f child
      pure (store segment child current)) := by
  cases segment <;> cases current <;> rfl

/-- **A nested set that fails changes nothing.** -/
theorem setNestedPathValueInPlace_eq (current : AttributeValue) (path : List UpdatePathSegment)
    (value : AttributeValue) :
    setNestedPathValueInPlace current path value
      = inPlace current (setNestedPathValue current path value) := by
  induction path generalizing current with
  | nil => rfl
  | cons segment rest ih =>
    cases rest with
    | nil => cases segment <;> cases current <;> rfl
    | cons next rest =>
      rw [setNestedPathValueInPlace, setNestedPathValue_cons_cons, descend_eq]
      cases hchild : getSegment segment current with
      | none => rfl
      | some child =>
        simp only [ih child]
        change _ = inPlace current (setNestedPathValue child (next :: rest) value >>= _)
        cases setNestedPathValue child (next :: rest) value with
        | error error => exact congrArg _ (store_self hchild)
        | ok child' => rfl

/-- A set in place gives what the set gives, and an item with the old attributes if it fails. -/
theorem setPathValueInPlace_spec (item : AttributeMap) (path : List UpdatePathSegment)
    (value : AttributeValue) :
    (∀ item', setPathValue item path value = .ok item' →
      setPathValueInPlace item path value = (.ok (), item')) ∧
    (∀ error, setPathValue item path value = .error error →
      (setPathValueInPlace item path value).1 = .error error ∧
        ∀ key, (setPathValueInPlace item path value).2.get key = item.get key) := by
  cases path with
  | nil => exact ⟨by rintro _ ⟨⟩, fun error h => ⟨by cases h; rfl, fun key => rfl⟩⟩
  | cons segment rest =>
    cases segment with
    | index index =>
      cases rest <;> exact ⟨by rintro _ ⟨⟩, fun error h => ⟨by cases h; rfl, fun key => rfl⟩⟩
    | name name =>
      cases rest with
      | nil => exact ⟨fun item' h => by cases h; rfl, by rintro _ ⟨⟩⟩
      | cons next rest =>
        rw [setPathValue, setPathValueInPlace]
        cases hroot : item.get name with
        | none => exact ⟨by rintro _ ⟨⟩, fun error h => ⟨by cases h; rfl, fun key => rfl⟩⟩
        | some root =>
          simp only [setNestedPathValueInPlace_eq]
          change (∀ item', (setNestedPathValue root (next :: rest) value >>= _) = _ → _) ∧
            ∀ error, (setNestedPathValue root (next :: rest) value >>= _) = _ → _
          cases setNestedPathValue root (next :: rest) value with
          | ok root' => exact ⟨fun item' h => by cases h; rfl, by rintro _ ⟨⟩⟩
          | error error =>
            refine ⟨by rintro _ ⟨⟩, fun error' h => ⟨by cases h; rfl, fun key => ?_⟩⟩
            rw [inPlace, get_insert, get_remove]
            split
            · rename_i hkey
              rw [hkey, hroot]
            · rfl

/-! ### Items -/

/-- Behind its first step, a path leads through an item as through a map. -/
theorem getPathValue_eq_follow (item : AttributeMap) {entries : List (Text × AttributeValue)}
    (h : ∀ key, item.get key = lookup entries key) (hne : path ≠ []) :
    getPathValue item path = follow path (.M entries) := by
  match path with
  | [] => exact absurd rfl hne
  | .index index :: rest => rfl
  | .name name :: rest => rw [getPathValue_name, follow_cons, getSegment, h]

variable {item item' : AttributeMap}

/-- A set of an item sets the map of its attributes. -/
theorem setPathValue_entries (h : setPathValue item path value = .ok item') :
    ∃ entries, setNestedPathValue (.M item.entries) path value = .ok (.M entries) ∧
      ∀ key, item'.get key = lookup entries key := by
  match path with
  | [] => cases h
  | .index index :: rest => cases rest <;> cases h
  | [.name name] =>
    cases h
    exact ⟨_, rfl, fun key => rfl⟩
  | .name name :: next :: rest =>
    rw [setPathValue] at h
    obtain ⟨root, hroot, h⟩ := Except.bind_eq_ok.mp h
    obtain ⟨root', hroot', h⟩ := Except.bind_eq_ok.mp h
    cases h
    refine ⟨insertEntries name root' item.entries, ?_, fun key => ?_⟩
    · rw [setNestedPathValue_cons_cons, descend_eq, getSegment, ← get_eq_lookup, hroot]
      change (setNestedPathValue root (next :: rest) value >>= _) = _
      rw [hroot']
      rfl
    · rw [get_insert, get_remove, lookup_insertEntries, ← get_eq_lookup]
      split <;> rfl

/-- A removal from an item removes from the map of its attributes. -/
theorem removePathValue_entries {name : Text}
    (h : removePathValue item (.name name :: path) = .ok item') :
    ∃ entries, removeNestedPathValue (.M item.entries) (.name name :: path) = .ok (.M entries) ∧
      ∀ key, item'.get key = lookup entries key := by
  match path with
  | [] =>
    cases h
    refine ⟨_, rfl, fun key => ?_⟩
    rw [get_remove, lookup_removeEntries, get_eq_lookup]
  | next :: rest =>
    rw [removePathValue] at h
    obtain ⟨root, hroot, h⟩ := Except.bind_eq_ok.mp h
    obtain ⟨root', hroot', h⟩ := Except.bind_eq_ok.mp h
    cases h
    refine ⟨insertEntries name root' item.entries, ?_, fun key => ?_⟩
    · rw [removeNestedPathValue_cons_cons, descend_eq, getSegment, ← get_eq_lookup, hroot]
      change (removeNestedPathValue root (next :: rest) >>= _) = _
      rw [hroot']
      rfl
    · rw [get_insert, get_remove, lookup_insertEntries, ← get_eq_lookup]
      split <;> rfl

/-- A set lands at its path, except behind the end of a list. -/
theorem landing_cases (current : AttributeValue) (path : List UpdatePathSegment) :
    landing current path = path ∨ ∃ list index, follow path.dropLast current = some (.L list) ∧
      path.getLast? = some (.index index) ∧ list.length < index ∧
        landing current path = path.dropLast ++ [.index list.length] := by
  induction path generalizing current with
  | nil => exact .inl rfl
  | cons segment rest ih =>
    cases rest with
    | nil =>
      cases segment with
      | name name => cases current <;> exact .inl rfl
      | index index =>
        cases current with
        | L list =>
          rw [landing, landingStep]
          by_cases hlt : list.length < index
          · exact .inr ⟨list, index, rfl, rfl, hlt, by rw [Nat.min_eq_right hlt.le]; rfl⟩
          · exact .inl (by rw [Nat.min_eq_left (by omega)])
        | _ => exact .inl rfl
    | cons next rest =>
      rw [landing]
      cases hchild : getSegment segment current with
      | none => exact .inl rfl
      | some child =>
        rcases ih child with heq | ⟨list, index, hlist, hlast, hlt, heq⟩
        · exact .inl (congrArg _ heq)
        · refine .inr ⟨list, index, ?_, ?_, hlt, congrArg _ heq⟩
          · rw [dropLast_cons_cons, follow_cons, hchild]
            exact hlist
          · rw [getLast?_cons_cons]
            exact hlast

/-- **The laws of document paths**, for the text of a path and an item. The three readers of the
text lead to one element. A set that succeeds stores its value where the path lands, which is the
path itself or the end of a list that is too short, and no other path reads differently. One that
fails leaves the attributes as they were. A removal makes the entry of a map absent, and every path
other than those to the containers leads to the element that was there, one place later in a list
that has closed up. -/
theorem documentPath_laws {field : Text} {path : List UpdatePathSegment} (h : Spells field path)
    (item : AttributeMap) :
    (parseUpdatePath field = .ok path ∧ parseResponsePath field = .ok path ∧
      getAttributeValue item field = getPathValue item path ∧
      Condition.getPathValue item.get field = getPathValue item path) ∧
    (landing (.M item.entries) path = path ∨ ∃ list index,
      getPathValue item path.dropLast = some (.L list) ∧ path.getLast? = some (.index index) ∧
        list.length < index ∧
        landing (.M item.entries) path = path.dropLast ++ [.index list.length]) ∧
    (∀ value item', setPathValueInPlace item path value = (.ok (), item') →
      getPathValue item' (landing (.M item.entries) path) = some value ∧
      ∀ other, ¬landing (.M item.entries) path <+: other →
        ¬other <+: landing (.M item.entries) path →
          getPathValue item' other = getPathValue item other) ∧
    (∀ value error item', setPathValueInPlace item path value = (.error error, item') →
      ∀ key, item'.get key = item.get key) ∧
    (∀ item', removePathValue item path = .ok item' →
      (∀ name, path.getLast? = some (.name name) → getPathValue item' path = none) ∧
      ∀ other, ¬other <+: path.dropLast →
        getPathValue item' other = (beforeRemoval path other).bind (getPathValue item)) := by
  have hentries {p : List UpdatePathSegment} (hne : p ≠ []) :
      getPathValue item p = follow p (.M item.entries) :=
    getPathValue_eq_follow item (fun key => item.get_eq_lookup key) hne
  obtain ⟨name, rest, rfl⟩ : ∃ name rest, path = .name name :: rest := by
    cases h
    exact ⟨_, _, rfl⟩
  refine ⟨⟨h.fieldPath.1, h.parseResponsePath, h.getAttributeValue item, h.conditionPath item⟩,
    ?_, ?_, ?_, ?_⟩
  · rcases landing_cases (.M item.entries) (.name name :: rest) with heq | ⟨list, index, hlist, h⟩
    · exact .inl heq
    · refine .inr ⟨list, index, ?_, h⟩
      rw [hentries, hlist]
      intro hnil
      rw [hnil] at hlist
      cases hlist
  · intro value item' hset
    obtain ⟨hok, herror⟩ := setPathValueInPlace_spec item (.name name :: rest) value
    cases hresult : setPathValue item (.name name :: rest) value with
    | error error =>
      rw [hset] at herror
      cases (herror error hresult).1
    | ok after =>
      rw [hok after hresult] at hset
      cases hset
      obtain ⟨entries, hnested, hget⟩ := setPathValue_entries hresult
      obtain ⟨hself, hother⟩ := follow_setNestedPathValue hnested
      have hafter {p : List UpdatePathSegment} (hne : p ≠ []) :=
        getPathValue_eq_follow item' hget hne
      refine ⟨?_, fun other hleft hright => ?_⟩
      · rw [hafter, hself]
        cases rest <;> exact cons_ne_nil _ _
      · have hne : other ≠ [] := by
          rintro rfl
          exact hright nil_prefix
        rw [hafter hne, hentries hne, hother other hleft hright]
  · intro value error item' hset
    obtain ⟨hok, herror⟩ := setPathValueInPlace_spec item (.name name :: rest) value
    cases hresult : setPathValue item (.name name :: rest) value with
    | error error' =>
      have hget := (herror error' hresult).2
      rw [hset] at hget
      exact hget
    | ok after =>
      rw [hok after hresult] at hset
      cases hset
  · intro item' hremove
    obtain ⟨entries, hnested, hget⟩ := removePathValue_entries hremove
    have hlaw : ∀ other, ¬other <+: (Segment.name name :: rest).dropLast →
        getPathValue item' other
          = (beforeRemoval (.name name :: rest) other).bind (getPathValue item) := by
      intro other hother
      have hne : other ≠ [] := by
        rintro rfl
        exact hother nil_prefix
      rw [getPathValue_eq_follow item' hget hne, follow_removeNestedPathValue hnested hother]
      refine Option.bind_congr fun before hbefore => ?_
      rw [hentries (beforeRemoval_ne_nil hne hbefore)]
    refine ⟨fun key hlast => ?_, hlaw⟩
    rw [hlaw _ fun hp => ?_, beforeRemoval_self hlast]
    · rfl
    · have := hp.length_le
      simp at this

/-- An item with a list of one number. -/
def shortListItem : AttributeMap :=
  OrderedMap.empty.insert (text "a") (.L [.N (text "0")])

/-- The path to an element that the list does not have. -/
def pastEnd : List UpdatePathSegment := [.name (text "a"), .index 5]

theorem spells_pastEnd : Spells (text "a[5]") pastEnd :=
  @Spells.intro (text "a") (text "[5]") [.index 5] (by decide)
    (by simp [PlainName, text, isPathSeparator])
    (@TailSpells.index (text "5") [] 5 [] (by decide) .nil)

theorem pastEnd_laws :
    parseResponsePath (text "a[5]") = .ok pastEnd ∧
      ∃ item', setPathValueInPlace shortListItem pastEnd (.N (text "7")) = (.ok (), item') ∧
        getPathValue item' (landing (.M shortListItem.entries) pastEnd) = some (.N (text "7")) :=
  have h := documentPath_laws spells_pastEnd shortListItem
  ⟨h.1.2.1, _, rfl, (h.2.2.1 _ _ rfl).1⟩

/-- **A set past the end of a list appends.** The path `a[5]` does not lead to the value that was
set there, and the path `a[1]` does. -/
theorem pastEnd_set :
    Spells (text "a[5]") pastEnd ∧
      ∃ item', setPathValueInPlace shortListItem pastEnd (.N (text "7")) = (.ok (), item') ∧
        getPathValue item' pastEnd = none ∧
        getPathValue shortListItem [.name (text "a"), .index 1] = none ∧
        getPathValue item' [.name (text "a"), .index 1] = some (.N (text "7")) :=
  ⟨spells_pastEnd, _, rfl, rfl, rfl, rfl⟩

end AuxStorage
