import AuxStorage.UpdateArithmetic
import AuxStorage.UpdateBinding
import AuxStorage.UpdatePath
import AuxStorage.DynamodbNumber

/-!
# Applying Updates

`apply_bound_update_operations`: the SET operations in their order, then the REMOVE, the ADD
and the DELETE operations. Every operation changes the item in place, and the next one sees
the changed item.

On documents, every operation is an edit, and an update runs the edits of its four phases
one after another.
-/

namespace AuxStorage

open Document
open AttributeValue (doc doc_L doc_M docs_eq_map)

/-- `BoundUpdateOperation`. Its operands are those of `UpdateOperand`, borrowed from the
request. -/
inductive BoundUpdateOperation where
  | set (field : Text) (value : AttributeValue)
  | setExpression (field : Text) (value : UpdateOperand)
  | setArithmetic (field : Text) (lhs rhs : UpdateOperand) (operator : ArithmeticOperator)
  | setIfNotExists (field path : Text) (operand : AttributeValue)
  | setListAppend (field : Text) (operand1 operand2 : AttributeValue)
  | add (field : Text) (value : AttributeValue)
  | remove (field : Text)
  | delete (field : Text) (value : AttributeValue)
  deriving DecidableEq, Repr

/-! ### Operands -/

/-- `list_append_owned_values`, and `list_append_values`. -/
def listAppendValues : AttributeValue → AttributeValue → Except Fault AttributeValue
  | .L list1, .L list2 => pure (.L (list1 ++ list2))
  | _, _ => .error (.error updateOperandTypeError)

def applySetArithmetic (operator : ArithmeticOperator) :
    AttributeValue → AttributeValue → Except Fault AttributeValue
  | .N lhs, .N rhs => do
      let value ← match operator with
        | .add => addArithmeticNumbers lhs rhs
        | .subtract => subtractArithmeticNumbers lhs rhs
      pure (.N value)
  | _, _ => .error (.error updateOperandTypeError)

def evaluateBoundUpdateOperand (item : AttributeMap) :
    UpdateOperand → Except Fault AttributeValue
  | .value value => pure value
  | .path path => okOr (.error (.validation (text ("The provided expression refers to an "
      ++ "attribute that does not exist in the item")))) (getAttributeValue item path)
  | .ifNotExists path operand =>
    match getAttributeValue item path with
    | some value => pure value
    | none => evaluateBoundUpdateOperand item operand
  | .listAppend operand1 operand2 => do
      let operand1 ← evaluateBoundUpdateOperand item operand1
      let operand2 ← evaluateBoundUpdateOperand item operand2
      listAppendValues operand1 operand2
  | .arithmetic lhs operator rhs => do
      let lhs ← evaluateBoundUpdateOperand item lhs
      let rhs ← evaluateBoundUpdateOperand item rhs
      applySetArithmetic operator lhs rhs

def evaluateBoundSetArithmetic (item : AttributeMap) (lhs : UpdateOperand)
    (operator : ArithmeticOperator) (rhs : UpdateOperand) : Except Fault AttributeValue := do
  let lhs ← evaluateBoundUpdateOperand item lhs
  let rhs ← evaluateBoundUpdateOperand item rhs
  applySetArithmetic operator lhs rhs

/-! ### SET and REMOVE -/

/-- A failing step of the store. -/
def storage {α : Type} (result : Except StorageError α) : Except Fault α :=
  result.mapError .error

/-- One round of the first loop of `apply_bound_update_operations`. -/
def applySetRound (item : AttributeMap) : BoundUpdateOperation → Except Fault AttributeMap
  | .set field value => storage (setAttributeValue item field value)
  | .setExpression field value => do
      let value ← evaluateBoundUpdateOperand item value
      storage (setAttributeValue item field value)
  | .setArithmetic field lhs rhs operator => do
      let value ← evaluateBoundSetArithmetic item lhs operator rhs
      storage (setAttributeValue item field value)
  | .setIfNotExists field path operand =>
    match getAttributeValue item path with
    | some existingValue => storage (setAttributeValue item field existingValue)
    | none => storage (setAttributeValue item field operand)
  | .setListAppend field operand1 operand2 => do
      let result ← listAppendValues operand1 operand2
      storage (setAttributeValue item field result)
  | _ => pure item

/-- One round of the second loop. -/
def applyRemoveRound (item : AttributeMap) :
    BoundUpdateOperation → Except Fault AttributeMap
  | .remove field => storage (removeAttributeValue item field)
  | _ => pure item

/-! ### ADD -/

def numericSetMembersEqual (left right : Text) : Bool :=
  match compareDynamodbNumbers left right with
  | .ok ordering => ordering.isEq
  | .error _ => false

def attributeValueTypeName : AttributeValue → Text
  | .S _ => text "S"
  | .N _ => text "N"
  | .B _ => text "B"
  | .SS _ => text "SS"
  | .NS _ => text "NS"
  | .BS _ => text "BS"
  | .BOOL _ => text "BOOL"
  | .NULL _ => text "NULL"
  | .L _ => text "L"
  | .M _ => text "M"

/-- The checks of `apply_add_operation` on its operand: those of `parse_add_number` and
`validate_add_operand`. -/
def validateAddOperand (field : Text) : AttributeValue → Except Fault Unit
  | .N number => do
      let _ ← parseAddNumber field number
      pure ()
  | .SS values | .NS values | .BS values =>
    if values.isEmpty then
      .error (.error (.validation
        (text "ADD operation requires a non-empty set operand for field " ++ field)))
    else pure ()
  | value => .error (.error (.validation
      (text "ADD operation requires a number or set operand for field " ++ field
        ++ text ", got " ++ attributeValueTypeName value)))

/-- Adds the members that the set does not have, as `same` compares them. -/
def appendUniqueBy (same : Text → Text → Bool) (existing valuesToAdd : List Text) :
    List Text :=
  valuesToAdd.foldl (fun existing value =>
    if existing.any (same · value) then existing else existing ++ [value]) existing

def appendUniqueValues (existing valuesToAdd : List Text) : List Text :=
  appendUniqueBy (fun existing value => existing == value) existing valuesToAdd

/-- The value of `apply_add_operation` for an attribute that exists. -/
def addToExisting (field : Text) (value : AttributeValue) :
    AttributeValue → Except Fault AttributeValue
  | existing =>
    match existing, value with
    | .N existingNum, .N addNum => do
        let parsed ← parseAddNumber field addNum
        let sum ← addAddExpressionWithRhs field existingNum parsed
        pure (.N sum)
    | .SS existingSet, .SS addSet => pure (.SS (appendUniqueValues existingSet addSet))
    | .BS existingSet, .BS addSet => pure (.BS (appendUniqueValues existingSet addSet))
    | .NS existingSet, .NS addSet =>
      pure (.NS (appendUniqueBy numericSetMembersEqual existingSet addSet))
    | _, _ => .error (.error updateOperandTypeError)

def applyAddOperation (item : AttributeMap) (field : Text) (value : AttributeValue) :
    Except Fault AttributeMap := do
  validateAddOperand field value
  match getAttributeValue item field with
  | none =>
    if isTopLevelPath field then pure (item.insert field value)
    else storage (setAttributeValue item field value)
  | some existingValue => do
      let updatedValue ← addToExisting field value existingValue
      storage (setAttributeValue item field updatedValue)

/-- One round of the third loop. -/
def applyAddRound (item : AttributeMap) :
    BoundUpdateOperation → Except Fault AttributeMap
  | .add field value => applyAddOperation item field value
  | _ => pure item

/-! ### DELETE -/

/-- `remove_set_members`, and its numeric form: drops the members that `same` finds among
the deleted ones. -/
def removeSetMembersBy (same : Text → Text → Bool) (existingSet deleteSet : List Text) :
    List Text :=
  existingSet.filter fun existing => !deleteSet.any (same existing ·)

def removeSetMembers (existingSet deleteSet : List Text) : List Text :=
  removeSetMembersBy (fun existing value => existing == value) existingSet deleteSet

/-- `apply_delete_set_operation`: the changed value, and whether the set is empty. -/
def applyDeleteSetOperation (existingValue deleteValue : AttributeValue) :
    Except Fault (AttributeValue × Bool) :=
  match existingValue, deleteValue with
  | .SS existingSet, .SS deleteSet =>
    let remaining := removeSetMembers existingSet deleteSet
    pure (.SS remaining, remaining.isEmpty)
  | .BS existingSet, .BS deleteSet =>
    let remaining := removeSetMembers existingSet deleteSet
    pure (.BS remaining, remaining.isEmpty)
  | .NS existingSet, .NS deleteSet =>
    let remaining := removeSetMembersBy numericSetMembersEqual existingSet deleteSet
    pure (.NS remaining, remaining.isEmpty)
  | _, _ => .error (.error updateOperandTypeError)

/-- One round of the fourth loop. The field is the name of an attribute, whatever
punctuation it has. -/
def applyDeleteRound (item : AttributeMap) :
    BoundUpdateOperation → Except Fault AttributeMap
  | .delete field value =>
    match item.get field with
    | none => pure item
    | some existingValue => do
        let (existingValue, removeAttribute) ← applyDeleteSetOperation existingValue value
        if removeAttribute then pure (item.remove field)
        else pure ((item.remove field).insert field existingValue)
  | _ => pure item

def applyBoundUpdateOperations (item : AttributeMap)
    (operations : List BoundUpdateOperation) : Except Fault AttributeMap := do
  let item ← operations.foldlM applySetRound item
  let item ← operations.foldlM applyRemoveRound item
  let item ← operations.foldlM applyAddRound item
  operations.foldlM applyDeleteRound item

/-! ### Operations as edits -/

/-- What a SET operation assigns. -/
def BoundUpdateOperation.assignment : BoundUpdateOperation → Option (Text × UpdateOperand)
  | .set field value => some (field, .value value)
  | .setExpression field value => some (field, value)
  | .setArithmetic field lhs rhs operator => some (field, .arithmetic lhs operator rhs)
  | .setIfNotExists field path operand => some (field, .ifNotExists path (.value operand))
  | .setListAppend field operand1 operand2 =>
    some (field, .listAppend (.value operand1) (.value operand2))
  | _ => none

variable (item : AttributeMap)

theorem applySetRound_eq (op : BoundUpdateOperation) :
    applySetRound item op = match op.assignment with
      | some (field, operand) => do
          let value ← evaluateBoundUpdateOperand item operand
          storage (setAttributeValue item field value)
      | none => pure item := by
  cases op with
  | setIfNotExists field path operand =>
    simp only [applySetRound, BoundUpdateOperation.assignment, evaluateBoundUpdateOperand]
    cases getAttributeValue item path <;> rfl
  | set => rfl
  | setExpression => rfl
  | setArithmetic => rfl
  | setListAppend => rfl
  | add => rfl
  | remove => rfl
  | delete => rfl

/-- Documents of items. -/
abbrev ItemDoc : Type := Doc Text AttributeValue

/-- A function of leaves, on documents. -/
def leafDoc (f : AttributeValue → Except Fault AttributeValue) : ItemDoc → Option ItemDoc
  | .leaf value => (f value).toOption.map doc
  | _ => none

/-- An operand, computed from what paths lead to. -/
def UpdateOperand.doc (read : List UpdatePathSegment → Option ItemDoc) :
    UpdateOperand → Option ItemDoc
  | .value constant => some constant.doc
  | .path field => (fieldPath field).bind read
  | .ifNotExists field operand => ((fieldPath field).bind read).or (operand.doc read)
  | .listAppend operand1 operand2 =>
    (operand1.doc read).bind fun d1 => (operand2.doc read).bind fun d2 =>
      match d1, d2 with
      | .list list1, .list list2 => some (.list (list1 ++ list2))
      | _, _ => none
  | .arithmetic lhs operator rhs =>
    (lhs.doc read).bind fun d1 => (rhs.doc read).bind fun d2 =>
      match d1 with
      | .leaf lhs => leafDoc (applySetArithmetic operator lhs) d2
      | _ => none

/-- The paths an operand reads. -/
def UpdateOperand.paths : UpdateOperand → List (List UpdatePathSegment)
  | .value _ => []
  | .path field => (fieldPath field).toList
  | .ifNotExists field operand => (fieldPath field).toList ++ operand.paths
  | .listAppend operand1 operand2 => operand1.paths ++ operand2.paths
  | .arithmetic lhs _ rhs => lhs.paths ++ rhs.paths

variable {read read' : List UpdatePathSegment → Option ItemDoc}

theorem bind_fieldPath_congr {field : Text} (h : ∀ r ∈ (fieldPath field).toList, read r = read' r) :
    (fieldPath field).bind read = (fieldPath field).bind read' := by
  cases hpath : fieldPath field with
  | none => rfl
  | some path => exact h path (by rw [hpath]; exact List.mem_singleton_self path)

theorem UpdateOperand.doc_congr
    {operand : UpdateOperand} (h : ∀ r ∈ operand.paths, read r = read' r) :
    operand.doc read = operand.doc read' := by
  induction operand with
  | value value => rfl
  | path path => exact bind_fieldPath_congr h
  | ifNotExists path operand ih =>
    simp only [UpdateOperand.paths, List.forall_mem_append] at h
    simp only [UpdateOperand.doc, bind_fieldPath_congr h.1, ih h.2]
  | listAppend _ _ ih1 ih2 | arithmetic _ _ _ ih1 ih2 =>
    simp only [UpdateOperand.paths, List.forall_mem_append] at h
    simp only [UpdateOperand.doc, ih1 h.1, ih2 h.2]

theorem AttributeValue.doc_cases (value : AttributeValue) :
    (∃ list, value = .L list) ∨ (∃ map, value = .M map) ∨ value.doc = .leaf value := by
  cases value <;> simp [doc]

/-- A function that fails on lists and maps is a function of leaves. -/
theorem leafDoc_doc {f : AttributeValue → Except Fault AttributeValue}
    (hl : ∀ list, (f (.L list)).toOption = none) (hm : ∀ map, (f (.M map)).toOption = none)
    (value : AttributeValue) : leafDoc f value.doc = (f value).toOption.map doc := by
  rcases value.doc_cases with ⟨list, rfl⟩ | ⟨map, rfl⟩ | hleaf
  · rw [hl, doc_L]
    rfl
  · rw [hm, doc_M]
    rfl
  · rw [hleaf, leafDoc]

theorem listAppendValues_doc (v1 v2 : AttributeValue) :
    (match v1.doc, v2.doc with
      | .list list1, .list list2 => some (Doc.list (list1 ++ list2))
      | _, _ => none) = (listAppendValues v1 v2).toOption.map doc := by
  cases v1 <;> cases v2 <;>
    simp [doc, listAppendValues, Except.toOption, docs_eq_map, pure, Except.pure]

theorem applySetArithmetic_doc (operator : ArithmeticOperator) (v1 v2 : AttributeValue) :
    (match v1.doc with
      | .leaf value => leafDoc (applySetArithmetic operator value) v2.doc
      | _ => none) = (applySetArithmetic operator v1 v2).toOption.map doc := by
  have hfail : ∀ v : AttributeValue, (∀ number, v ≠ .N number) → ∀ w,
      (applySetArithmetic operator w v).toOption = none := by
    intro v hv w
    cases w <;> cases v <;> first | rfl | exact absurd rfl (hv _)
  have hleaf : ∀ v, leafDoc (applySetArithmetic operator v) v2.doc
      = (applySetArithmetic operator v v2).toOption.map doc := fun v =>
    leafDoc_doc (fun list => hfail _ (by simp) v) (fun map => hfail _ (by simp) v) v2
  cases v1 <;> first | rfl | exact hleaf _

/-- **An operand is computed from what its paths lead to.** -/
theorem evaluateBoundUpdateOperand_doc (operand : UpdateOperand) :
    (evaluateBoundUpdateOperand item operand).toOption.map doc
      = operand.doc fun path => Document.get path (some (itemDoc item)) := by
  induction operand with
  | value value => rfl
  | path path =>
    rw [evaluateBoundUpdateOperand, toOption_okOr]
    exact getAttributeValue_doc item path
  | ifNotExists path operand ih =>
    rw [UpdateOperand.doc, ← getAttributeValue_doc, ← ih, evaluateBoundUpdateOperand]
    cases getAttributeValue item path <;> rfl
  | listAppend operand1 operand2 ih1 ih2 =>
    rw [UpdateOperand.doc, ← ih1, ← ih2, evaluateBoundUpdateOperand, Except.toOption_bind]
    cases evaluateBoundUpdateOperand item operand1 with
    | error e => rfl
    | ok v1 =>
      cases evaluateBoundUpdateOperand item operand2 with
      | error e => rfl
      | ok v2 => exact (listAppendValues_doc v1 v2).symm
  | arithmetic lhs operator rhs ih1 ih2 =>
    rw [UpdateOperand.doc, ← ih1, ← ih2, evaluateBoundUpdateOperand, Except.toOption_bind]
    cases evaluateBoundUpdateOperand item lhs with
    | error e => rfl
    | ok v1 =>
      cases evaluateBoundUpdateOperand item rhs with
      | error e => rfl
      | ok v2 => exact (applySetArithmetic_doc operator v1 v2).symm

/-- The path an operation changes; a field that is no path is taken as a name, and every
operation on it fails. -/
def targetPath (field : Text) : List UpdatePathSegment :=
  (fieldPath field).getD [.name field]

/-- A patch for a field, which fails where the field is no path. -/
def fieldPatch (field : Text) (h : Patch Text AttributeValue) : Patch Text AttributeValue :=
  fun o => (fieldPath field).bind fun _ => h o

/-- The edit of an assignment. -/
def setEdit (field : Text) (operand : UpdateOperand) : Edit Text AttributeValue where
  path := targetPath field
  reads := operand.paths
  effect read := fieldPatch field fun _ => (operand.doc read).map some
  effect_congr f g h := by rw [UpdateOperand.doc_congr h]

/-- The edit of a removal. -/
def removeEdit (field : Text) : Edit Text AttributeValue where
  path := removalPath (targetPath field)
  reads := []
  effect _ := fieldPatch field removePatch
  effect_congr _ _ _ := rfl

/-- What an ADD does to the content of its path. -/
def addPatch (field : Text) (value : AttributeValue) : Patch Text AttributeValue := fun o =>
  (validateAddOperand field value).toOption.bind fun _ =>
    match o with
    | none => some (some value.doc)
    | some existing => (leafDoc (addToExisting field value) existing).map some

/-- The edit of an ADD. -/
def addEdit (field : Text) (value : AttributeValue) : Edit Text AttributeValue where
  path := targetPath field
  reads := []
  effect _ := fieldPatch field (addPatch field value)
  effect_congr _ _ _ := rfl

/-- What a DELETE does to the content of its attribute. -/
def deletePatch (value : AttributeValue) : Patch Text AttributeValue
  | none => some none
  | some (.leaf existing) => (applyDeleteSetOperation existing value).toOption.map
      fun (remaining, removeAttribute) => if removeAttribute then none else some remaining.doc
  | some _ => none

/-- The edit of a DELETE. -/
def deleteEdit (field : Text) (value : AttributeValue) : Edit Text AttributeValue where
  path := [.name field]
  reads := []
  effect _ := deletePatch value
  effect_congr _ _ _ := rfl

namespace BoundUpdateOperation

/-- The edit of a SET operation. -/
def setEdit? (op : BoundUpdateOperation) : Option (Edit Text AttributeValue) :=
  op.assignment.map fun (field, operand) => setEdit field operand

/-- The edit of a REMOVE operation. -/
def removeEdit? : BoundUpdateOperation → Option (Edit Text AttributeValue)
  | .remove field => some (removeEdit field)
  | _ => none

/-- The edit of an ADD operation. -/
def addEdit? : BoundUpdateOperation → Option (Edit Text AttributeValue)
  | .add field value => some (addEdit field value)
  | _ => none

/-- The edit of a DELETE operation. -/
def deleteEdit? : BoundUpdateOperation → Option (Edit Text AttributeValue)
  | .delete field value => some (deleteEdit field value)
  | _ => none

end BoundUpdateOperation

/-- The document of an updated item, unless the update fails. -/
def resultDoc (result : Except Fault AttributeMap) : Option (Option ItemDoc) :=
  result.toOption.map fun item => some (itemDoc item)

theorem resultDoc_storage (result : Except StorageError AttributeMap) :
    resultDoc (storage result) = result.toOption.map fun item => some (itemDoc item) := by
  cases result <;> rfl

theorem resultDoc_bind {α : Type} (x : Except Fault α) (f : α → Except Fault AttributeMap) :
    resultDoc (x >>= f) = x.toOption.bind fun a => resultDoc (f a) := by
  cases x <;> rfl

theorem patch_fieldPatch (field : Text) (h : Patch Text AttributeValue) (o : Option ItemDoc)
    (f : List UpdatePathSegment → List UpdatePathSegment) :
    patch (f (targetPath field)) (fieldPatch field h) o
      = (fieldPath field).bind fun path => patch (f path) h o := by
  have hpatch : fieldPatch field h = fun o => (fieldPath field).bind fun _ => h o := rfl
  rw [targetPath, hpatch]
  cases fieldPath field with
  | none => exact patch_fails (fun o => rfl) o
  | some path => rfl

/-- Computing a value and setting it is the patch that computes it. -/
theorem resultDoc_set (field : Text) {x : Except Fault AttributeValue}
    {h : Patch Text AttributeValue} (hx : h ((getAttributeValue item field).map doc)
      = x.toOption.map fun value => some value.doc) :
    resultDoc (x >>= fun value => storage (setAttributeValue item field value))
      = (fieldPath field).bind fun path => patch path h (some (itemDoc item)) := by
  have hset : ∀ value, resultDoc (storage (setAttributeValue item field value))
      = (fieldPath field).bind fun path =>
          patch path (setPatch value.doc) (some (itemDoc item)) := fun value =>
    (resultDoc_storage _).trans (setAttributeValue_doc item field value)
  rw [getAttributeValue_doc] at hx
  simp only [resultDoc_bind, hset]
  cases hpath : fieldPath field with
  | none => cases x <;> rfl
  | some path =>
    simp only [hpath, Option.bind_some] at hx ⊢
    cases x with
    | error e =>
      have hfail : patch path h (some (itemDoc item))
          = patch path (fun _ => none) (some (itemDoc item)) := patch_congr hx
      rw [hfail]
      exact (patch_fails (fun o => rfl) _).symm
    | ok value => exact patch_congr hx.symm

theorem applySetRound_doc (op : BoundUpdateOperation) :
    resultDoc (applySetRound item op) = match op.setEdit? with
      | some e => e.run (some (itemDoc item))
      | none => some (some (itemDoc item)) := by
  rw [applySetRound_eq, BoundUpdateOperation.setEdit?]
  cases op.assignment with
  | none => rfl
  | some assignment =>
    obtain ⟨field, operand⟩ := assignment
    refine (resultDoc_set item field ?_).trans (patch_fieldPatch field _ _ id).symm
    rw [← evaluateBoundUpdateOperand_doc, Option.map_map]
    rfl

theorem applyRemoveRound_doc (op : BoundUpdateOperation) :
    resultDoc (applyRemoveRound item op) = match op.removeEdit? with
      | some e => e.run (some (itemDoc item))
      | none => some (some (itemDoc item)) := by
  cases op with
  | remove field =>
    refine (resultDoc_storage _).trans ((removeAttributeValue_doc item field).trans ?_)
    exact (patch_fieldPatch field removePatch _ removalPath).symm
  | set => rfl
  | setExpression => rfl
  | setArithmetic => rfl
  | setIfNotExists => rfl
  | setListAppend => rfl
  | add => rfl
  | delete => rfl

/-- The value an ADD sets. -/
def addedValue (item : AttributeMap) (field : Text) (value : AttributeValue) :
    Except Fault AttributeValue := do
  validateAddOperand field value
  match getAttributeValue item field with
  | none => pure value
  | some existing => addToExisting field value existing

theorem applyAddOperation_eq (field : Text) (value : AttributeValue) :
    applyAddOperation item field value = (do
      let updated ← addedValue item field value
      storage (setAttributeValue item field updated)) := by
  rw [applyAddOperation, addedValue, bind_assoc]
  congr 1
  funext u
  cases getAttributeValue item field with
  | none =>
    simp only [pure_bind, setAttributeValue]
    split <;> rfl
  | some existing => rfl

theorem addedValue_doc (field : Text) (value : AttributeValue) :
    addPatch field value ((getAttributeValue item field).map doc)
      = (addedValue item field value).toOption.map fun value => some value.doc := by
  rw [addPatch.eq_def, addedValue, Except.toOption_bind]
  cases validateAddOperand field value with
  | error e => rfl
  | ok u =>
    cases getAttributeValue item field with
    | none => rfl
    | some existing =>
      have hleaf : leafDoc (addToExisting field value) existing.doc
          = (addToExisting field value existing).toOption.map doc :=
        leafDoc_doc (fun list => by cases value <;> rfl) (fun map => by cases value <;> rfl)
          existing
      simp only [Except.toOption, Option.bind_some, Option.map_some, hleaf, Option.map_map]
      rfl

theorem applyAddRound_doc (op : BoundUpdateOperation) :
    resultDoc (applyAddRound item op) = match op.addEdit? with
      | some e => e.run (some (itemDoc item))
      | none => some (some (itemDoc item)) := by
  cases op with
  | add field value =>
    rw [applyAddRound, applyAddOperation_eq]
    exact (resultDoc_set item field (addedValue_doc item field value)).trans
      (patch_fieldPatch field _ _ id).symm
  | set => rfl
  | setExpression => rfl
  | setArithmetic => rfl
  | setIfNotExists => rfl
  | setListAppend => rfl
  | remove => rfl
  | delete => rfl

theorem deletePatch_doc (value existing : AttributeValue) :
    deletePatch value (some existing.doc)
      = (applyDeleteSetOperation existing value).toOption.map fun (remaining, removeAttribute) =>
          if removeAttribute then none else some remaining.doc := by
  rcases existing.doc_cases with ⟨list, rfl⟩ | ⟨map, rfl⟩ | hleaf
  · rw [doc_L]
    rfl
  · rw [doc_M]
    rfl
  · rw [hleaf]
    rfl

theorem applyDeleteRound_doc (op : BoundUpdateOperation) :
    resultDoc (applyDeleteRound item op) = match op.deleteEdit? with
      | some e => e.run (some (itemDoc item))
      | none => some (some (itemDoc item)) := by
  cases op with
  | delete field value =>
    have hrun : (deleteEdit field value).run (some (itemDoc item))
        = (deletePatch value ((item.get field).map doc)).map fun content =>
            some (.map (Function.update (fun key => (item.get key).map doc)
              field content)) := by
      rw [Edit.run, deleteEdit, patch_some, patch, itemDoc, patchChild_name_map, Option.map_map]
      rfl
    simp only [BoundUpdateOperation.deleteEdit?, hrun, applyDeleteRound]
    cases hget : item.get field with
    | none =>
      have hsame : Function.update (fun key => (item.get key).map doc) field
          none = fun key => (item.get key).map doc := by
        rw [Function.update_eq_self_iff, hget]
        rfl
      simp only [Option.map_none, deletePatch, Option.map_some, hsame]
      rfl
    | some existing =>
      rw [Option.map_some, deletePatch_doc]
      simp only [resultDoc_bind]
      cases applyDeleteSetOperation existing value with
      | error e => rfl
      | ok result =>
        obtain ⟨remaining, removeAttribute⟩ := result
        cases removeAttribute with
        | true => exact congrArg (some ∘ some) (itemDoc_remove item field)
        | false =>
          have hdoc := (itemDoc_remove_insert item field remaining).trans
            (itemDoc_insert item field remaining)
          exact congrArg (some ∘ some) hdoc
  | set => rfl
  | setExpression => rfl
  | setArithmetic => rfl
  | setIfNotExists => rfl
  | setListAppend => rfl
  | add => rfl
  | remove => rfl

/-- A loop over the operations runs the edits of those it is about. -/
theorem foldlM_doc {round : AttributeMap → BoundUpdateOperation → Except Fault AttributeMap}
    {edit : BoundUpdateOperation → Option (Edit Text AttributeValue)}
    (hround : ∀ item op, resultDoc (round item op) = match edit op with
      | some e => e.run (some (itemDoc item))
      | none => some (some (itemDoc item)))
    (operations : List BoundUpdateOperation) (item : AttributeMap) :
    resultDoc (operations.foldlM round item)
      = Edit.runAll (operations.filterMap edit) (some (itemDoc item)) := by
  induction operations generalizing item with
  | nil => rfl
  | cons op operations ih =>
    have hop := hround item op
    rw [List.foldlM_cons, resultDoc_bind, List.filterMap_cons]
    cases hedit : edit op with
    | none =>
      rw [hedit] at hop
      cases hresult : round item op with
      | error e =>
        rw [hresult] at hop
        cases hop
      | ok item' =>
        rw [hresult] at hop
        have hdoc : itemDoc item' = itemDoc item :=
          Option.some.inj (Option.some.inj hop)
        simpa [Except.toOption, ← hdoc] using ih item'
    | some e =>
      rw [hedit] at hop
      simp only [Edit.runAll_cons, ← hop]
      cases round item op with
      | error e => rfl
      | ok item' => exact ih item'

/-- **An update runs the edits of its operations**, phase by phase. -/
theorem applyBoundUpdateOperations_doc (operations : List BoundUpdateOperation) :
    resultDoc (applyBoundUpdateOperations item operations)
      = (Edit.runAll (operations.filterMap BoundUpdateOperation.setEdit?)
          (some (itemDoc item))).bind fun o =>
        (Edit.runAll (operations.filterMap BoundUpdateOperation.removeEdit?) o).bind fun o =>
        (Edit.runAll (operations.filterMap BoundUpdateOperation.addEdit?) o).bind fun o =>
          Edit.runAll (operations.filterMap BoundUpdateOperation.deleteEdit?) o := by
  have hphase : ∀ (x : Except Fault AttributeMap) (f : AttributeMap → Except Fault AttributeMap)
      (g : Option ItemDoc → Option (Option ItemDoc)),
      (∀ item, resultDoc (f item) = g (some (itemDoc item))) →
        resultDoc (x >>= f) = (resultDoc x).bind g := by
    intro x f g hfg
    cases x with
    | error e => rfl
    | ok item => exact hfg item
  rw [applyBoundUpdateOperations, ← foldlM_doc applySetRound_doc]
  refine hphase _ _ _ fun item => ?_
  rw [← foldlM_doc applyRemoveRound_doc]
  refine hphase _ _ _ fun item => ?_
  rw [← foldlM_doc applyAddRound_doc]
  exact hphase _ _ _ fun item => foldlM_doc applyDeleteRound_doc operations item

end AuxStorage
