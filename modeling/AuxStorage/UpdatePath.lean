import AuxStorage.UpdateExpression
import AuxStorage.Lib.Document

/-!
# Document Paths of Updates

The document paths of update operations: parsing, reading, setting and removing. A set
replaces what the path leads to, or adds it to a map; behind the end of a list it appends.
A removal deletes a map entry or a list element, and does nothing when there is none.
Everything before the last step of a path has to exist.

An item is the tree of its nested maps and lists (`itemDoc`), whatever the order of their
entries. Reading, setting and removing are edits of that tree.
-/

namespace AuxStorage

open Document
open Option (bind_some map_map map_none map_some)
open List hiding map_map
open OrderedMap (get_remove insertEntries lookup removeEntries)
open Function (update_apply update)

/-! ### Parsing -/

abbrev UpdatePathSegment : Type := Segment Text

/-- `str::parse::<usize>`: digits behind an optional plus sign, in range. -/
def parseUsize (t : Text) : Option ℕ :=
  let digits := if t.head? = some '+' then t.tail else t
  if digits ≠ [] ∧ digits.all Char.isDigit then
    checkedUsize (digits.foldl (fun n c => 10 * n + (c.toNat - '0'.toNat)) 0)
  else none

/-- A finished name is a segment. -/
def pushName (segments : List UpdatePathSegment) (current : Text) : List UpdatePathSegment :=
  if current = [] then segments else segments ++ [.name current]

/-- The error of a path that cannot be parsed. -/
def invalidDocumentPath (path : Text) : StorageError :=
  .validation (text "Invalid document path: " ++ path)

/-- The loop of `parse_update_path`, with the segments and the name collected so far. -/
def parseUpdatePathLoop (path : Text) (segments : List UpdatePathSegment) (current : Text)
    (afterIndex : Bool) (rest : Text) : Except StorageError (List UpdatePathSegment) :=
  match rest with
  | [] =>
    let segments := pushName segments current
    if segments = [] then .error (invalidDocumentPath path) else pure segments
  | ch :: tail =>
    if ch = '.' then
      if current = [] ∧ ¬afterIndex then .error (invalidDocumentPath path)
      else parseUpdatePathLoop path (pushName segments current) [] false tail
    else if ch = '[' then do
      -- The index ends at the next bracket, or with the path.
      let index ← okOr (invalidDocumentPath path) (parseUsize (tail.takeWhile (· ≠ ']')))
      parseUpdatePathLoop path (pushName segments current ++ [.index index]) [] true
        ((tail.dropWhile (· ≠ ']')).drop 1)
    else parseUpdatePathLoop path segments (current ++ [ch]) false tail
termination_by rest.length
decreasing_by
  · simp
  · have h := length_dropWhile_le (· ≠ ']') tail
    simp only [length_drop, length_cons]
    omega
  · simp

def parseUpdatePath (path : Text) : Except StorageError (List UpdatePathSegment) :=
  parseUpdatePathLoop path [] [] false path

def isTopLevelPath (field : Text) : Bool :=
  !field.any fun c => c == '.' || c == '['

/-! ### Reading -/

/-- One round of the loop of `get_path_value`. -/
def getSegment : UpdatePathSegment → AttributeValue → Option AttributeValue
  | .name name, .M map => lookup map name
  | .index index, .L list => list[index]?
  | _, _ => none

def getPathValue (item : AttributeMap) (path : List UpdatePathSegment) :
    Option AttributeValue :=
  match path with
  | .name name :: rest => do
      let value ← item.get name
      rest.foldlM (fun value segment => getSegment segment value) value
  | _ => none

def getAttributeValue (item : AttributeMap) (field : Text) : Option AttributeValue :=
  if isTopLevelPath field then item.get field
  else match parseUpdatePath field with
    | .ok path => getPathValue item path
    | .error _ => none

/-! ### Setting -/

/-- The error of a path that does not fit the item. -/
def invalidUpdateDocumentPath : StorageError :=
  .validation (text "The document path provided in the update expression is invalid for update")

/-- `set_nested_path_value`: the changed value. -/
def setNestedPathValue (current : AttributeValue) (path : List UpdatePathSegment)
    (value : AttributeValue) : Except StorageError AttributeValue :=
  match path with
  | [] => .error (.validation (text "Invalid document path for SET operation"))
  | [segment] =>
    match segment, current with
    | .name name, .M map => pure (.M (insertEntries name value map))
    | .index index, .L list =>
      pure (.L (if index ≥ list.length then list ++ [value] else list.set index value))
    | _, _ => .error invalidUpdateDocumentPath
  | segment :: next :: rest =>
    match segment, current with
    | .name name, .M map => do
        let child ← okOr invalidUpdateDocumentPath (lookup map name)
        let child ← setNestedPathValue child (next :: rest) value
        pure (.M (insertEntries name child map))
    | .index index, .L list => do
        let child ← okOr invalidUpdateDocumentPath list[index]?
        let child ← setNestedPathValue child (next :: rest) value
        pure (.L (list.set index child))
    | _, _ => .error invalidUpdateDocumentPath

def setPathValue (item : AttributeMap) (path : List UpdatePathSegment)
    (value : AttributeValue) : Except StorageError AttributeMap :=
  match path with
  | [] => .error (.validation (text "Invalid document path for SET operation"))
  | .index _ :: _ => .error (.validation (text "SET operation requires an attribute path"))
  | [.name name] => pure (item.insert name value)
  | .name name :: next :: rest => do
      let root ← okOr invalidUpdateDocumentPath (item.get name)
      let root ← setNestedPathValue root (next :: rest) value
      pure ((item.remove name).insert name root)

def setAttributeValue (item : AttributeMap) (field : Text) (value : AttributeValue) :
    Except StorageError AttributeMap :=
  if isTopLevelPath field then pure (item.insert field value)
  else do
    let path ← parseUpdatePath field
    setPathValue item path value

/-! ### Removing -/

/-- `remove_nested_path_value`: the changed value. A missing child before the last step is
an error, as `remove_missing_path_result` says. -/
def removeNestedPathValue (current : AttributeValue) (path : List UpdatePathSegment) :
    Except StorageError AttributeValue :=
  match path with
  | [] => pure current
  | [segment] =>
    match segment, current with
    | .name name, .M map => pure (.M (removeEntries name map))
    | .index index, .L list => pure (.L (list.eraseIdx index))
    | _, current => pure current
  | segment :: next :: rest =>
    match segment, current with
    | .name name, .M map => do
        let child ← okOr invalidUpdateDocumentPath (lookup map name)
        let child ← removeNestedPathValue child (next :: rest)
        pure (.M (insertEntries name child map))
    | .index index, .L list => do
        let child ← okOr invalidUpdateDocumentPath list[index]?
        let child ← removeNestedPathValue child (next :: rest)
        pure (.L (list.set index child))
    | _, _ => .error invalidUpdateDocumentPath

def removePathValue (item : AttributeMap) (path : List UpdatePathSegment) :
    Except StorageError AttributeMap :=
  match path with
  | [] => pure item
  | .index _ :: _ => pure item
  | [.name name] => pure (item.remove name)
  | .name name :: next :: rest => do
      let root ← okOr invalidUpdateDocumentPath (item.get name)
      let root ← removeNestedPathValue root (next :: rest)
      pure ((item.remove name).insert name root)

def removeAttributeValue (item : AttributeMap) (field : Text) :
    Except StorageError AttributeMap :=
  if isTopLevelPath field then pure (item.remove field)
  else do
    let path ← parseUpdatePath field
    removePathValue item path

/-! ### Items as documents -/

mutual

/-- The document of a value: nested maps forget the order of their entries. -/
def AttributeValue.doc : AttributeValue → Doc Text AttributeValue
  | .L list => .list (AttributeValue.docs list)
  | .M map => .map (AttributeValue.docEntries map)
  | .S text => .leaf (.S text)
  | .N number => .leaf (.N number)
  | .B base64 => .leaf (.B base64)
  | .SS texts => .leaf (.SS texts)
  | .NS numbers => .leaf (.NS numbers)
  | .BS base64s => .leaf (.BS base64s)
  | .BOOL value => .leaf (.BOOL value)
  | .NULL value => .leaf (.NULL value)

/-- The documents of the elements of a list. -/
def AttributeValue.docs : List AttributeValue → List (Doc Text AttributeValue)
  | [] => []
  | value :: rest => value.doc :: AttributeValue.docs rest

/-- The documents of the entries of a map. -/
def AttributeValue.docEntries :
    List (Text × AttributeValue) → Text → Option (Doc Text AttributeValue)
  | [] => fun _ => none
  | (name, value) :: rest => fun key =>
    if name = key then some value.doc else AttributeValue.docEntries rest key

end

open AttributeValue

/-- The document of an item. -/
def itemDoc (item : AttributeMap) : Doc Text AttributeValue :=
  .map fun key => (item.get key).map doc

variable (list : List AttributeValue)

theorem AttributeValue.docs_eq_map : docs list = list.map doc := by
  induction list with
  | nil => rfl
  | cons value rest ih => rw [docs, ih, map_cons]

variable (map : List (Text × AttributeValue))

theorem AttributeValue.docEntries_eq (key : Text) :
    docEntries map key = (lookup map key).map doc := by
  induction map with
  | nil => rfl
  | cons entry rest ih =>
    simp only [docEntries, OrderedMap.lookup_cons, ih]
    split <;> rfl

theorem AttributeValue.doc_L : (L list).doc = .list (list.map doc) := by
  rw [doc, docs_eq_map]

theorem AttributeValue.doc_M :
    (M map).doc = .map fun key => (lookup map key).map doc := by
  rw [doc]
  congr 1
  funext key
  exact docEntries_eq map key

variable (segment : UpdatePathSegment)

theorem getSegment_doc (value : AttributeValue) :
    (getSegment segment value).map doc = child segment value.doc := by
  cases segment with
  | name name =>
    cases value with
    | M map => rw [doc_M, child, getSegment]
    | L list => rw [doc_L]; rfl
    | _ => rfl
  | index index =>
    cases value with
    | L list => rw [doc_L, child, getSegment, getElem?_map]
    | M map => rw [doc_M]; rfl
    | _ => rfl

theorem foldlM_getSegment_doc (path : List UpdatePathSegment) (value : AttributeValue) :
    (path.foldlM (fun value segment => getSegment segment value) value).map doc
      = Document.get path (some value.doc) := by
  induction path generalizing value with
  | nil => rfl
  | cons segment rest ih =>
    rw [foldlM_cons, Document.get, bind_some, ← getSegment_doc]
    cases getSegment segment value with
    | none => exact (get_none rest).symm
    | some next => exact ih next

/-! ### Reading, setting and removing as edits -/

/-- The path a field denotes, when it can be parsed. -/
def fieldPath (field : Text) : Option (List UpdatePathSegment) :=
  if isTopLevelPath field then some [.name field] else (parseUpdatePath field).toOption

variable (item : AttributeMap)

theorem get_name_itemDoc (name : Text) (path : List UpdatePathSegment) :
    Document.get (.name name :: path) (some (itemDoc item))
      = Document.get path ((item.get name).map doc) := rfl

variable {path : List UpdatePathSegment}

theorem getPathValue_doc (hne : path ≠ []) :
    (getPathValue item path).map doc = Document.get path (some (itemDoc item)) := by
  match path with
  | [] => exact absurd rfl hne
  | .index i :: rest => exact (get_none rest).symm
  | .name name :: rest =>
    rw [get_name_itemDoc, getPathValue]
    cases item.get name with
    | none => exact (get_none rest).symm
    | some value => exact foldlM_getSegment_doc rest value

variable {parsed : List UpdatePathSegment}

theorem parseUpdatePathLoop_ne_nil {path : Text} {segments : List UpdatePathSegment}
    {current rest : Text} {afterIndex : Bool}
    (h : parseUpdatePathLoop path segments current afterIndex rest = .ok parsed) : parsed ≠ [] := by
  fun_induction parseUpdatePathLoop path segments current afterIndex rest with
  | case1 => cases h
  | case2 segments current afterIndex segments' hne =>
    obtain rfl := Except.ok.inj h
    exact hne
  | case3 => cases h
  | case4 segments current afterIndex tail hdot ih => exact ih h
  | case5 segments current afterIndex tail hbracket ih =>
    obtain ⟨index, -, h⟩ := Except.bind_eq_ok.mp h
    exact ih index h
  | case6 segments current afterIndex ch tail hdot hbracket ih => exact ih h

theorem parseUpdatePath_ne_nil {path : Text} (h : parseUpdatePath path = .ok parsed) :
    parsed ≠ [] :=
  parseUpdatePathLoop_ne_nil h

/-- **Reading follows the path through the tree.** -/
theorem getAttributeValue_doc (field : Text) :
    (getAttributeValue item field).map doc
      = (fieldPath field).bind fun path => Document.get path (some (itemDoc item)) := by
  rw [getAttributeValue, fieldPath]
  split
  · rfl
  · cases hparse : parseUpdatePath field with
    | error e => rfl
    | ok path => exact getPathValue_doc item (parseUpdatePath_ne_nil hparse)

/-- The patch that sets a document. -/
def setPatch (d : Doc Text AttributeValue) : Patch Text AttributeValue := fun _ => some (some d)

/-- The patch that deletes a document. -/
def removePatch : Patch Text AttributeValue := fun _ => some none

theorem docEntries_insert (name : Text) (value : AttributeValue) :
    (M (insertEntries name value map)).doc
      = .map (update (fun key => (lookup map key).map doc)
          name (some value.doc)) := by
  rw [doc_M]
  congr 1
  funext key
  rw [OrderedMap.lookup_insertEntries, update_apply]
  split <;> rfl

theorem docEntries_remove (name : Text) :
    (M (removeEntries name map)).doc
      = .map (update (fun key => (lookup map key).map doc)
          name none) := by
  rw [doc_M]
  congr 1
  funext key
  rw [OrderedMap.lookup_removeEntries, update_apply]
  split <;> rfl

theorem itemDoc_insert (name : Text) (value : AttributeValue) :
    itemDoc (item.insert name value)
      = .map (update (fun key => (item.get key).map doc)
          name (some value.doc)) := by
  rw [itemDoc]
  congr 1
  funext key
  rw [OrderedMap.get_insert, update_apply]
  split <;> rfl

theorem itemDoc_remove (name : Text) :
    itemDoc (item.remove name)
      = .map (update (fun key => (item.get key).map doc)
          name none) := by
  rw [itemDoc]
  congr 1
  funext key
  rw [get_remove, update_apply]
  split <;> rfl

/-- The step of both nested updates into an existing child. -/
def descend (segment : UpdatePathSegment) (current : AttributeValue)
    (f : AttributeValue → Except StorageError AttributeValue) :
    Except StorageError AttributeValue :=
  match segment, current with
  | .name name, .M map => do
      let child ← okOr invalidUpdateDocumentPath (lookup map name)
      let child ← f child
      pure (.M (insertEntries name child map))
  | .index index, .L list => do
      let child ← okOr invalidUpdateDocumentPath list[index]?
      let child ← f child
      pure (.L (list.set index child))
  | _, _ => .error invalidUpdateDocumentPath

theorem setNestedPathValue_cons_cons (current value : AttributeValue)
    (segment next : UpdatePathSegment) (rest : List UpdatePathSegment) :
    setNestedPathValue current (segment :: next :: rest) value
      = descend segment current fun child => setNestedPathValue child (next :: rest) value := by
  rw [setNestedPathValue.eq_def, descend.eq_def]

variable (current : AttributeValue)

theorem removeNestedPathValue_cons_cons (segment next : UpdatePathSegment)
    (rest : List UpdatePathSegment) :
    removeNestedPathValue current (segment :: next :: rest)
      = descend segment current fun child => removeNestedPathValue child (next :: rest) := by
  rw [removeNestedPathValue.eq_def, descend.eq_def]

theorem patchChild_doc_foreign {segment : UpdatePathSegment} {current : AttributeValue}
    (hname : ∀ name map, segment = .name name → current ≠ .M map)
    (hindex : ∀ index list, segment = .index index → current ≠ .L list)
    (h : Patch Text AttributeValue) :
    patchChild segment h current.doc
      = if (h none).any Option.isNone then some current.doc else none := by
  cases current with
  | L list =>
    rw [doc_L]
    cases segment with
    | name name => rfl
    | index index => exact absurd rfl (hindex index list rfl)
  | M map =>
    rw [doc_M]
    cases segment with
    | name name => exact absurd rfl (hname name map rfl)
    | index index => rfl
  | _ => exact patchChild_leaf segment h _

variable {f : AttributeValue → Except StorageError AttributeValue} {h : Patch Text AttributeValue}

/-- A step into a child patches the child. -/
theorem descend_doc (current : AttributeValue) (hnone : h none = none)
    (hf : ∀ v, (f v).toOption.map (fun v => some v.doc) = h (some v.doc)) :
    (descend segment current f).toOption.map doc = patchChild segment h current.doc := by
  rw [descend.eq_def]
  split
  · rename_i name map
    rw [doc_M, patchChild_name_map, Except.toOption_bind, toOption_okOr]
    cases lookup map name with
    | none =>
      rw [map_none, hnone]
      rfl
    | some child =>
      rw [map_some, ← hf child, bind_some, Except.toOption_bind]
      cases f child with
      | error e => rfl
      | ok child' => exact congrArg some (docEntries_insert map name child')
  · rename_i index list
    rw [doc_L, patchChild_index_list, getElem?_map, Except.toOption_bind, toOption_okOr]
    cases hget : list[index]? with
    | none =>
      rw [map_none, hnone]
      rfl
    | some child =>
      have hlt : index < list.length := (List.getElem?_eq_some_iff.mp hget).1
      rw [map_some, ← hf child, bind_some, Except.toOption_bind]
      cases f child with
      | error e => rfl
      | ok child' =>
        refine congrArg some ((doc_L _).trans ?_)
        simp [replaceAt, hlt, map_set]
  · rename_i hname hindex
    rw [patchChild_doc_foreign (fun name map hs hc => hname name map hs hc)
      (fun index list hs hc => hindex index list hs hc), hnone]
    rfl

/-- Setting below a value patches its document. -/
theorem setNestedPathValue_doc (hne : path ≠ []) (value : AttributeValue) :
    (setNestedPathValue current path value).toOption.map (fun v => some v.doc)
      = patch path (setPatch value.doc) (some current.doc) := by
  induction path generalizing current with
  | nil => exact absurd rfl hne
  | cons segment rest ih =>
    cases rest with
    | cons next rest =>
      have hpatch := descend_doc segment current (patch_none next rest (setPatch value.doc))
        fun v => ih v (by simp)
      rw [setNestedPathValue_cons_cons, patch_some, ← hpatch, map_map]
      rfl
    | nil =>
      rw [setNestedPathValue.eq_def, patch_some, patch]
      simp only
      split
      · rename_i name map
        rw [doc_M, patchChild_name_map]
        exact congrArg (some ∘ some) (docEntries_insert map name value)
      · rename_i index list
        rw [doc_L, patchChild_index_list]
        refine congrArg (some ∘ some) ((doc_L _).trans ?_)
        by_cases hlt : index < list.length
        · simp [replaceAt, hlt, Nat.not_le.mpr hlt, map_set]
        · simp [replaceAt, hlt, Nat.not_lt.mp hlt]
      · rename_i hname hindex
        rw [patchChild_doc_foreign (fun name map hs hc => hname name map hs hc)
          (fun index list hs hc => hindex index list hs hc)]
        rfl

/-- Removing below a value patches its document. -/
theorem removeNestedPathValue_doc (hne : path ≠ []) :
    (removeNestedPathValue current path).toOption.map (fun v => some v.doc)
      = patch path removePatch (some current.doc) := by
  induction path generalizing current with
  | nil => exact absurd rfl hne
  | cons segment rest ih =>
    cases rest with
    | cons next rest =>
      have hpatch := descend_doc segment current (patch_none next rest removePatch)
        fun v => ih v (by simp)
      rw [removeNestedPathValue_cons_cons, patch_some, ← hpatch, map_map]
      rfl
    | nil =>
      rw [removeNestedPathValue.eq_def, patch_some, patch]
      simp only
      split
      · rename_i name map
        rw [doc_M, patchChild_name_map]
        exact congrArg (some ∘ some) (docEntries_remove map name)
      · rename_i index list
        rw [doc_L, patchChild_index_list]
        refine congrArg (some ∘ some) ((doc_L _).trans ?_)
        simp [replaceAt, eraseIdx_map]
      · rename_i hname hindex
        rw [patchChild_doc_foreign (fun name map hs hc => hname name map hs hc)
          (fun index list hs hc => hindex index list hs hc)]
        rfl

/-- Replacing the value of an attribute, wherever its entry ends up. -/
theorem itemDoc_remove_insert (name : Text) (value : AttributeValue) :
    itemDoc ((item.remove name).insert name value) = itemDoc (item.insert name value) := by
  rw [itemDoc_insert, itemDoc_insert]
  congr 1
  funext key
  simp only [get_remove, update_apply]
  split <;> simp_all

/-- The step of both updates below an attribute. -/
theorem itemDoc_descend (name : Text) (hnone : h none = none)
    (hf : ∀ v, (f v).toOption.map (fun v => some v.doc) = h (some v.doc)) :
    (do
      let root ← okOr invalidUpdateDocumentPath (item.get name)
      let root ← f root
      pure ((item.remove name).insert name root) :
        Except StorageError AttributeMap).toOption.map itemDoc
      = patchChild (.name name) h (itemDoc item) := by
  rw [itemDoc, patchChild_name_map, Except.toOption_bind, toOption_okOr]
  cases item.get name with
  | none =>
    rw [map_none, hnone]
    rfl
  | some root =>
    rw [map_some, ← hf root, bind_some, Except.toOption_bind]
    cases f root with
    | error e => rfl
    | ok root' =>
      exact congrArg some ((itemDoc_remove_insert item name root').trans
        (itemDoc_insert item name root'))

theorem setPathValue_doc (hne : path ≠ []) (value : AttributeValue) :
    (setPathValue item path value).toOption.map (fun item => some (itemDoc item))
      = patch path (setPatch value.doc) (some (itemDoc item)) := by
  match path with
  | [] => exact absurd rfl hne
  | .index i :: rest =>
    cases rest with
    | nil => rfl
    | cons next rest => rfl
  | [.name name] =>
    rw [patch_some, patch, itemDoc, patchChild_name_map]
    exact congrArg (some ∘ some) (itemDoc_insert item name value)
  | .name name :: next :: rest =>
    have hstep := itemDoc_descend item name (patch_none next rest (setPatch value.doc))
      fun v => setNestedPathValue_doc v (by simp) value
    rw [patch_some, ← hstep, map_map]
    rfl

/-- **Setting patches the tree at the path.** -/
theorem setAttributeValue_doc (field : Text) (value : AttributeValue) :
    (setAttributeValue item field value).toOption.map (fun item => some (itemDoc item))
      = (fieldPath field).bind fun path =>
          patch path (setPatch value.doc) (some (itemDoc item)) := by
  rw [setAttributeValue, fieldPath]
  split
  · rw [bind_some, patch_some, patch, itemDoc, patchChild_name_map]
    exact congrArg (some ∘ some) (itemDoc_insert item field value)
  · rw [Except.toOption_bind]
    cases hparse : parseUpdatePath field with
    | error e => rfl
    | ok path => exact setPathValue_doc item (parseUpdatePath_ne_nil hparse) value

/-- The path a removal follows: a path that begins with an index removes nothing. -/
def removalPath : List UpdatePathSegment → List UpdatePathSegment
  | .index index :: _ => [.index index]
  | path => path

theorem removePathValue_doc (hne : path ≠ []) :
    (removePathValue item path).toOption.map (fun item => some (itemDoc item))
      = patch (removalPath path) removePatch (some (itemDoc item)) := by
  match path with
  | [] => exact absurd rfl hne
  | .index i :: rest => rfl
  | [.name name] =>
    rw [removalPath, patch_some, patch, itemDoc, patchChild_name_map]
    · exact congrArg (some ∘ some) (itemDoc_remove item name)
    · simp
  | .name name :: next :: rest =>
    have hstep := itemDoc_descend item name (patch_none next rest removePatch)
      fun v => removeNestedPathValue_doc v (by simp)
    rw [removalPath, patch_some, ← hstep, map_map]
    · rfl
    · simp

/-- **Removing patches the tree at the path.** -/
theorem removeAttributeValue_doc (field : Text) :
    (removeAttributeValue item field).toOption.map (fun item => some (itemDoc item))
      = (fieldPath field).bind fun path =>
          patch (removalPath path) removePatch (some (itemDoc item)) := by
  rw [removeAttributeValue, fieldPath]
  split
  · rw [bind_some, removalPath, patch_some, patch, itemDoc, patchChild_name_map]
    · exact congrArg (some ∘ some) (itemDoc_remove item field)
    · simp
  · rw [Except.toOption_bind]
    cases hparse : parseUpdatePath field with
    | error e => rfl
    | ok path => exact removePathValue_doc item (parseUpdatePath_ne_nil hparse)

end AuxStorage
