import AuxStorage.UpdateApply
import AuxStorage.UpdateGrammar

/-!
# The Order of Update Operations

A request is refused when two of the paths it changes overlap, as
`validate_update_expression_paths` compares them. The operations of an admitted request
still run one after another on the changing item, so their order can matter: a SET may read
what another one has set, a REMOVE moves the later elements of its list, and an element
that is set behind the end of a list lands at its end.

`Independent` says what an update has to avoid. The operations of an independent update may
be listed in any order, and each of them sees the item as it was before the update.
-/

namespace AuxStorage

open Document Str
open List
open AttributeValue (doc)
open BoundUpdateOperation (addEdit? deleteEdit? removeEdit? setEdit?)

/-! ### What the validation compares -/

def resolveExpressionPathName (names : Option (VecMap Text Text)) (name : Text) : Text :=
  if name.head? = some '#' then (names.bind (·.get name)).getD name else name

/-- The indexes of a part of a path. -/
def indexParts (rest : Text) : Option (List Text) :=
  match rest with
  | [] => some []
  | '[' :: tail =>
    if ']' ∈ tail then do
      let parts ← indexParts (tail.dropWhile (· ≠ ']')).tail
      some ((text "[" ++ tail.takeWhile (· ≠ ']') ++ text "]") :: parts)
    else none
  | _ => none
termination_by rest.length
decreasing_by
  have := length_dropWhile_le (fun c => decide (c ≠ ']')) tail
  simp only [length_tail, length_cons]
  omega

/-- `document_path_parts`: names and indexes as texts. -/
def documentPathParts (names : Option (VecMap Text Text)) (path : Text) : Option (List Text) :=
  (path.splitOn '.').foldlM (fun parts part =>
    let part := trim part
    if part = [] then none
    else
      let rawName := part.takeWhile (· ≠ '[')
      let named := if rawName = [] then [] else [resolveExpressionPathName names rawName]
      (indexParts (part.drop rawName.length)).map fun indexes => parts ++ named ++ indexes) []

def documentPathsOverlap (left right : List Text) : Bool :=
  let minLen := min left.length right.length
  minLen > 0 && left.take minLen == right.take minLen

/-- What `validate_update_expression_paths` admits: no two paths overlap. -/
def admittedPaths (paths : List Text) : Bool :=
  decide ((paths.filterMap (documentPathParts none)).Pairwise fun left right =>
    documentPathsOverlap left right = false)

/-! ### Independent operations -/

namespace BoundUpdateOperation

/-- The section of an operation, which is the loop that carries it out. -/
def kind : BoundUpdateOperation → UpdateSection
  | .remove _ => .remove
  | .add _ _ => .add
  | .delete _ _ => .delete
  | _ => .set

/-- The field an operation names. -/
def field : BoundUpdateOperation → Text
  | .set field _ | .setExpression field _ | .setArithmetic field _ _ _
  | .setIfNotExists field _ _ | .setListAppend field _ _ | .add field _ | .remove field
  | .delete field _ => field

/-- The path an operation changes. A DELETE takes its field as the name of an attribute. -/
def target (op : BoundUpdateOperation) : List UpdatePathSegment :=
  match op.kind with
  | .set | .add => targetPath op.field
  | .remove => removalPath (targetPath op.field)
  | .delete => [.name op.field]

/-- The paths a SET reads. -/
def sources (op : BoundUpdateOperation) : List (List UpdatePathSegment) :=
  match op.assignment with
  | some (_, operand) => operand.paths
  | none => []

end BoundUpdateOperation

/-- The path leads to something in the item. -/
def Present (item : AttributeMap) (path : List UpdatePathSegment) : Prop :=
  (Document.get path (some (itemDoc item))).isSome

instance (item : AttributeMap) (path : List UpdatePathSegment) :
    Decidable (Present item path) :=
  inferInstanceAs (Decidable (_ = true))

/-- The path leads to something in the item, and no REMOVE deletes an earlier element of a list on
the way. -/
def Lasting (item : AttributeMap) (operations : List BoundUpdateOperation)
    (path : List UpdatePathSegment) : Prop :=
  Present item path ∧ ∀ op ∈ operations, op.kind = .remove →
    ∀ c i j q, op.target = c ++ [.index i] → path = c ++ .index j :: q → j < i

/-- Where the target of `a` ends in a list through which a path of `b` leads, `a` does not
move what `b` is about: SET and ADD operations set an element the list has, or append behind
an element the list has; a REMOVE deletes nothing, or something behind the element of `b`, or
the list has no such element. -/
def Steady (item : AttributeMap) (operations : List BoundUpdateOperation)
    (a b : BoundUpdateOperation) : Prop :=
  ∀ c i j q, a.target = c ++ [.index i] → c ++ .index j :: q ∈ b.target :: b.sources →
    match a.kind, b.kind with
    | .set, .set | .set, .remove =>
      Present item (c ++ [.index i]) ∨ Present item (c ++ [.index j])
    | .remove, .remove =>
      Present item (c ++ [.index i]) → Present item (c ++ [.index j]) → j < i
    | .add, .add =>
      Lasting item operations (c ++ [.index i]) ∨ Lasting item operations (c ++ [.index j])
    | _, _ => True

/-- Neither of two paths leads through the other. -/
def Separate (p r : List UpdatePathSegment) : Prop :=
  ¬p <+: r ∧ ¬r <+: p

/-- The operation `a` disturbs neither what `b` changes nor what `b` reads. -/
structure Undisturbed (item : AttributeMap) (operations : List BoundUpdateOperation)
    (a b : BoundUpdateOperation) : Prop where
  targets : Separate a.target b.target
  sources : a.kind = .set → ∀ r ∈ b.sources, Separate a.target r
  lists : Steady item operations a b

/-- No operation of the update disturbs another one. -/
def Independent (item : AttributeMap) (operations : List BoundUpdateOperation) : Prop :=
  operations.Pairwise fun a b =>
    Undisturbed item operations a b ∧ Undisturbed item operations b a

/-- The same item, or a failure in both cases. -/
def SameResult (result result' : Except Fault AttributeMap) : Prop :=
  result.toOption.map itemDoc = result'.toOption.map itemDoc

/-- The same value, or a failure in both cases. -/
def SameValue (result result' : Except Fault AttributeValue) : Prop :=
  result.toOption.map doc = result'.toOption.map doc

/-! ### The phases -/

variable {op : BoundUpdateOperation}

theorem kind_of_assignment {field : Text} {operand : UpdateOperand}
    (h : op.assignment = some (field, operand)) : op.kind = .set ∧ op.field = field := by
  cases op with
  | remove => cases h
  | add => cases h
  | delete => cases h
  | _ =>
    cases h
    exact ⟨rfl, rfl⟩

variable {e : Edit Text AttributeValue}

theorem setEdit?_eq_some (h : op.setEdit? = some e) :
    op.kind = .set ∧ e.path = op.target ∧ e.reads = op.sources ∧ ∀ f, Grows (e.effect f) := by
  obtain ⟨⟨field, operand⟩, hassign, rfl⟩ := Option.map_eq_some_iff.mp h
  obtain ⟨hkind, hfield⟩ := kind_of_assignment hassign
  refine ⟨hkind, ?_, ?_, fun f o hdelete => ?_⟩
  · rw [BoundUpdateOperation.target, hkind, hfield]
    rfl
  · rw [BoundUpdateOperation.sources, hassign]
    rfl
  · obtain ⟨path, -, hdelete⟩ := Option.bind_eq_some_iff.mp hdelete
    obtain ⟨d, -, hd⟩ := Option.map_eq_some_iff.mp hdelete
    cases hd

theorem removeEdit?_eq_some (h : op.removeEdit? = some e) :
    op.kind = .remove ∧ e.path = op.target ∧ e.reads = [] ∧ ∀ f, Keeps (e.effect f) none := by
  cases op with
  | remove field =>
    cases h
    refine ⟨rfl, rfl, rfl, fun f content hc => ?_⟩
    obtain ⟨path, -, hc⟩ := Option.bind_eq_some_iff.mp hc
    cases hc
    rfl
  | _ => cases h

theorem grows_addPatch (field : Text) (value : AttributeValue) :
    Grows (fieldPatch field (addPatch field value)) := by
  intro o hdelete
  obtain ⟨path, -, hdelete⟩ := Option.bind_eq_some_iff.mp hdelete
  obtain ⟨u, -, hdelete⟩ := Option.bind_eq_some_iff.mp hdelete
  cases o with
  | none => cases hdelete
  | some existing =>
    obtain ⟨d, -, hd⟩ := Option.map_eq_some_iff.mp hdelete
    cases hd

theorem addEdit?_eq_some (h : op.addEdit? = some e) :
    op.kind = .add ∧ e.path = op.target ∧ e.reads = [] ∧ ∀ f, Grows (e.effect f) := by
  cases op with
  | add field value =>
    cases h
    exact ⟨rfl, rfl, rfl, fun _ => grows_addPatch field value⟩
  | _ => cases h

theorem deleteEdit?_eq_some (h : op.deleteEdit? = some e) :
    op.kind = .delete ∧ e.path = op.target ∧ e.reads = [] := by
  cases op with
  | delete field value =>
    cases h
    exact ⟨rfl, rfl, rfl⟩
  | _ => cases h

variable {item : AttributeMap} {operations : List BoundUpdateOperation}

section Phases

variable {a b : BoundUpdateOperation} {e e' : Edit Text AttributeValue} {o : Option ItemDoc}

/-- A SET leaves the way to a path of another operation alone. -/
theorem leaves_setEdit_of_prefix (h : Undisturbed item operations a b) (ha : a.setEdit? = some e)
    (hb : b.kind = .set ∨ b.kind = .remove) {r r' : List UpdatePathSegment}
    (hr : r' ∈ b.target :: b.sources) (hway : r <+: r') (hsep : Separate a.target r) :
    e.Leaves (some (itemDoc item)) r := by
  obtain ⟨hkind, hpath, -, hgrows⟩ := setEdit?_eq_some ha
  rw [← hpath] at hsep
  refine Edit.Leaves.of_grows hgrows hsep.1 hsep.2 ?_
  rintro c i j q hc rfl
  obtain ⟨rest, rfl⟩ := hway
  have hsteady := h.lists c i j (q ++ rest) (hpath ▸ hc) (by simpa using hr)
  rw [hkind] at hsteady
  rcases hb with hb | hb
  · rw [hb] at hsteady
    exact hsteady
  · rw [hb] at hsteady
    exact hsteady

theorem leaves_setEdit (h : Undisturbed item operations a b) (ha : a.setEdit? = some e)
    (hb : b.kind = .set ∨ b.kind = .remove) {r : List UpdatePathSegment}
    (hr : r ∈ b.target :: b.sources) : e.Leaves (some (itemDoc item)) r := by
  refine leaves_setEdit_of_prefix h ha hb hr prefix_rfl ?_
  rcases mem_cons.mp hr with rfl | hr
  · exact h.targets
  · exact h.sources (setEdit?_eq_some ha).1 r hr

theorem compatible_setEdit (h : Undisturbed item operations a b ∧ Undisturbed item operations b a)
    (ha : a.setEdit? = some e) (hb : b.setEdit? = some e') :
    Edit.Compatible (some (itemDoc item)) e e' := by
  obtain ⟨hakind, hapath, hareads, -⟩ := setEdit?_eq_some ha
  obtain ⟨hbkind, hbpath, hbreads, -⟩ := setEdit?_eq_some hb
  refine ⟨fun r hr => ?_, fun r hr => ?_⟩
  · rw [hapath, hareads] at hr
    exact leaves_setEdit h.2 hb (Or.inl hakind) hr
  · rw [hbpath, hbreads] at hr
    exact leaves_setEdit h.1 ha (Or.inl hbkind) hr

theorem leaves_removeEdit (h : Undisturbed item operations a b) (ha : a.removeEdit? = some e)
    (hb : b.kind = .remove)
    (hpresent : ∀ path, path <+: a.target ∨ path <+: b.target →
      (Document.get path o).isSome → Present item path) : e.Leaves o b.target := by
  obtain ⟨hkind, hpath, -, hkeeps⟩ := removeEdit?_eq_some ha
  have hsep := h.targets
  rw [← hpath] at hsep
  refine Edit.Leaves.of_keeps_none hkeeps hsep.1 hsep.2 fun c i j q hc hr hi hj => ?_
  rw [hpath] at hc
  have hsteady := h.lists c i j q hc (hr ▸ mem_cons_self)
  rw [hkind, hb] at hsteady
  refine hsteady (hpresent _ (Or.inl ?_) hi) (hpresent _ (Or.inr ?_) hj)
  · rw [hc]
  · rw [hr]
    exact ⟨q, by simp⟩

theorem compatible_removeEdit
    (h : Undisturbed item operations a b ∧ Undisturbed item operations b a)
    (hpresent : ∀ path, path <+: a.target ∨ path <+: b.target →
      (Document.get path o).isSome → Present item path)
    (ha : a.removeEdit? = some e) (hb : b.removeEdit? = some e') : Edit.Compatible o e e' := by
  obtain ⟨hakind, hapath, hareads, -⟩ := removeEdit?_eq_some ha
  obtain ⟨hbkind, hbpath, hbreads, -⟩ := removeEdit?_eq_some hb
  refine ⟨fun r hr => ?_, fun r hr => ?_⟩
  · rw [hapath, hareads, mem_singleton] at hr
    exact hr ▸ leaves_removeEdit h.2 hb hakind fun path hp => hpresent path hp.symm
  · rw [hbpath, hbreads, mem_singleton] at hr
    exact hr ▸ leaves_removeEdit h.1 ha hbkind hpresent

theorem leaves_addEdit (h : Undisturbed item operations a b) (ha : a.addEdit? = some e)
    (hb : b.kind = .add)
    (hlasting : ∀ path, path <+: a.target ∨ path <+: b.target →
      Lasting item operations path → (Document.get path o).isSome) :
    e.Leaves o b.target := by
  obtain ⟨hkind, hpath, -, hgrows⟩ := addEdit?_eq_some ha
  have hsep := h.targets
  rw [← hpath] at hsep
  refine Edit.Leaves.of_grows hgrows hsep.1 hsep.2 fun c i j q hc hr => ?_
  rw [hpath] at hc
  have hsteady := h.lists c i j q hc (hr ▸ mem_cons_self)
  rw [hkind, hb] at hsteady
  refine hsteady.imp (hlasting _ (Or.inl ?_)) (hlasting _ (Or.inr ?_))
  · rw [hc]
  · rw [hr]
    exact ⟨q, by simp⟩

theorem compatible_addEdit (h : Undisturbed item operations a b ∧ Undisturbed item operations b a)
    (hlasting : ∀ path, path <+: a.target ∨ path <+: b.target →
      Lasting item operations path → (Document.get path o).isSome)
    (ha : a.addEdit? = some e) (hb : b.addEdit? = some e') : Edit.Compatible o e e' := by
  obtain ⟨hakind, hapath, hareads, -⟩ := addEdit?_eq_some ha
  obtain ⟨hbkind, hbpath, hbreads, -⟩ := addEdit?_eq_some hb
  refine ⟨fun r hr => ?_, fun r hr => ?_⟩
  · rw [hapath, hareads, mem_singleton] at hr
    exact hr ▸ leaves_addEdit h.2 hb hakind fun path hp => hlasting path hp.symm
  · rw [hbpath, hbreads, mem_singleton] at hr
    exact hr ▸ leaves_addEdit h.1 ha hbkind hlasting

/-- DELETE operations on different attributes do not meet in a list. -/
theorem compatible_deleteEdit (h : Separate a.target b.target)
    (ha : a.deleteEdit? = some e) (hb : b.deleteEdit? = some e') : Edit.Compatible o e e' := by
  have hnames : ∀ {op : BoundUpdateOperation} {c : List UpdatePathSegment} {i : ℕ},
      op.kind = .delete → op.target ≠ c ++ [.index i] := by
    intro op c i hkind
    rw [BoundUpdateOperation.target, hkind]
    cases c <;> simp
  obtain ⟨hakind, hapath, hareads⟩ := deleteEdit?_eq_some ha
  obtain ⟨hbkind, hbpath, hbreads⟩ := deleteEdit?_eq_some hb
  rw [← hapath, ← hbpath] at h
  refine ⟨fun r hr => ?_, fun r hr => ?_⟩
  · rw [hareads, mem_singleton] at hr
    subst hr
    exact Edit.Leaves.of_not_meet h.2 h.1 fun c i j q hc =>
      absurd (hbpath ▸ hc) (hnames hbkind)
  · rw [hbreads, mem_singleton] at hr
    subst hr
    exact Edit.Leaves.of_not_meet h.1 h.2 fun c i j q hc =>
      absurd (hapath ▸ hc) (hnames hakind)

end Phases

/-! ### Whole updates -/

section Runs

variable {edit : BoundUpdateOperation → Option (Edit Text AttributeValue)}
  {op : BoundUpdateOperation} {o₁ o₂ : Option ItemDoc}

section Order

variable (h : Independent item operations)

include h

theorem Independent.pairwise_filterMap
    {R : Edit Text AttributeValue → Edit Text AttributeValue → Prop}
    (hR : ∀ a ∈ operations, ∀ b ∈ operations, ∀ e e',
      Undisturbed item operations a b ∧ Undisturbed item operations b a →
        edit a = some e → edit b = some e' → R e e') : (operations.filterMap edit).Pairwise R := by
  rw [List.pairwise_filterMap]
  refine h.imp_of_mem ?_
  intro a b ha hb hab e he e' he'
  exact hR a ha b hb e e' hab he he'

theorem Independent.compatible_sets :
    (operations.filterMap setEdit?).Pairwise (Edit.Compatible (some (itemDoc item))) :=
  h.pairwise_filterMap fun _ _ _ _ _ _ hab => compatible_setEdit hab

theorem Independent.compatible_deletes (o : Option ItemDoc) :
    (operations.filterMap deleteEdit?).Pairwise (Edit.Compatible o) :=
  h.pairwise_filterMap fun _ _ _ _ _ _ hab => compatible_deleteEdit hab.1.targets

/-- Any two different members of an independent update leave each other alone. -/
theorem Independent.undisturbed {a b : BoundUpdateOperation} (ha : a ∈ operations)
    (hb : b ∈ operations) (hne : a.kind ≠ b.kind) : Undisturbed item operations a b := by
  have hsymm : Std.Symm fun a b =>
      Undisturbed item operations a b ∧ Undisturbed item operations b a :=
    ⟨fun _ _ hab => And.symm hab⟩
  exact (List.Pairwise.forall h ha hb fun heq => hne (by rw [heq])).1

variable (hsets : Edit.runAll (operations.filterMap setEdit?) (some (itemDoc item)) = some o₁)

include hsets

/-- The SET operations add nothing on the way to what a REMOVE is about. -/
theorem Independent.present_of_isSome (hop : op ∈ operations) (hremove : op.kind = .remove)
    {path : List UpdatePathSegment} (hpath : path <+: op.target)
    (hsome : (Document.get path o₁).isSome) : Present item path := by
  have hseparate : ∀ a ∈ operations, ∀ e, a.setEdit? = some e →
      Undisturbed item operations a op ∧ e.path = a.target := by
    intro a ha e hedit
    obtain ⟨hkind, htarget, -, -⟩ := setEdit?_eq_some hedit
    exact ⟨h.undisturbed ha hop (by rw [hkind, hremove]; simp), htarget⟩
  by_cases hbelow : ∃ e ∈ operations.filterMap setEdit?, path <+: e.path
  · -- The SET below the path may come first, and it finds the way there.
    obtain ⟨e, he, hway⟩ := hbelow
    obtain ⟨a, ha, hedit⟩ := mem_filterMap.mp he
    obtain ⟨hundisturbed, htarget⟩ := hseparate a ha e hedit
    obtain ⟨before, after, hsplit⟩ := append_of_mem he
    have hcompat := h.compatible_sets
    rw [hsplit] at hsets hcompat
    rw [Edit.runAll_perm perm_middle hcompat, Edit.runAll_cons] at hsets
    obtain ⟨o, hfirst, -⟩ := Option.bind_eq_some_iff.mp hsets
    refine isSome_get_of_patch hfirst hway ?_
    rintro rfl
    exact hundisturbed.targets.1 (htarget ▸ hpath)
  · simp only [not_exists, not_and] at hbelow
    rw [Present, ← Edit.get_runAll h.compatible_sets (fun e he => ?_) hsets]
    · exact hsome
    · obtain ⟨a, ha, hedit⟩ := mem_filterMap.mp he
      obtain ⟨hundisturbed, htarget⟩ := hseparate a ha e hedit
      refine leaves_setEdit_of_prefix hundisturbed hedit (Or.inr hremove) mem_cons_self hpath ?_
      exact ⟨fun hp => hundisturbed.targets.1 (hp.trans hpath), htarget ▸ hbelow e he⟩

theorem Independent.compatible_removes :
    (operations.filterMap removeEdit?).Pairwise (Edit.Compatible o₁) := by
  refine h.pairwise_filterMap fun a ha b hb e e' hab hae hbe => ?_
  refine compatible_removeEdit hab (fun path hpath hsome => ?_) hae hbe
  rcases hpath with hpath | hpath
  · exact h.present_of_isSome hsets ha (removeEdit?_eq_some hae).1 hpath hsome
  · exact h.present_of_isSome hsets hb (removeEdit?_eq_some hbe).1 hpath hsome

variable (hremoves : Edit.runAll (operations.filterMap removeEdit?) o₁ = some o₂)

include hremoves

/-- What lasts is present when the ADD operations begin. -/
theorem Independent.isSome_of_lasting (hop : op ∈ operations) (hadd : op.kind = .add)
    {path : List UpdatePathSegment} (hpath : path <+: op.target)
    (hlasting : Lasting item operations path) : (Document.get path o₂).isSome := by
  have hthrough : ∀ a ∈ operations, a.kind ≠ .add → ¬a.target <+: path := by
    intro a ha hkind hp
    exact (h.undisturbed ha hop (hadd ▸ hkind)).targets.1 (hp.trans hpath)
  have hafterSets : (Document.get path o₁).isSome := by
    refine Edit.isSome_get_runAll (fun e he o o' hrun => ?_) hsets hlasting.1
    obtain ⟨a, ha, hedit⟩ := mem_filterMap.mp he
    obtain ⟨hkind, hpath, -, hgrows⟩ := setEdit?_eq_some hedit
    refine isSome_get_patch ?_ (Or.inl (hgrows _)) hrun
    rw [hpath]
    exact hthrough a ha (by rw [hkind]; simp)
  refine Edit.isSome_get_runAll (fun e he o o' hrun => ?_) hremoves hafterSets
  obtain ⟨a, ha, hedit⟩ := mem_filterMap.mp he
  obtain ⟨hkind, hpath, -, -⟩ := removeEdit?_eq_some hedit
  refine isSome_get_patch ?_ (Or.inr ?_) hrun
  · rw [hpath]
    exact hthrough a ha (by rw [hkind]; simp)
  · rw [hpath]
    exact hlasting.2 a ha hkind

theorem Independent.compatible_adds :
    (operations.filterMap addEdit?).Pairwise (Edit.Compatible o₂) := by
  refine h.pairwise_filterMap fun a ha b hb e e' hab hae hbe => ?_
  refine compatible_addEdit hab (fun path hpath hlasting => ?_) hae hbe
  rcases hpath with hpath | hpath
  · exact h.isSome_of_lasting hsets hremoves ha (addEdit?_eq_some hae).1 hpath hlasting
  · exact h.isSome_of_lasting hsets hremoves hb (addEdit?_eq_some hbe).1 hpath hlasting

omit hsets hremoves in
theorem Independent.resultDoc_perm {operations' : List BoundUpdateOperation}
    (hperm : operations.Perm operations') :
    resultDoc (applyBoundUpdateOperations item operations)
      = resultDoc (applyBoundUpdateOperations item operations') := by
  rw [applyBoundUpdateOperations_doc, applyBoundUpdateOperations_doc,
    ← Edit.runAll_perm (hperm.filterMap _) h.compatible_sets]
  refine Option.bind_congr fun o₁ hsets => ?_
  rw [← Edit.runAll_perm (hperm.filterMap _) (h.compatible_removes hsets)]
  refine Option.bind_congr fun o₂ hremoves => ?_
  rw [← Edit.runAll_perm (hperm.filterMap _) (h.compatible_adds hsets hremoves)]
  refine Option.bind_congr fun o₃ _ => ?_
  exact Edit.runAll_perm (hperm.filterMap _) (h.compatible_deletes o₃)

end Order

variable {result result' : Except Fault AttributeMap}

theorem sameResult_of_resultDoc
    (h : resultDoc result = resultDoc result') : SameResult result result' := by
  have hdoc : ∀ result : Except Fault AttributeMap,
      resultDoc result = (result.toOption.map itemDoc).map some := by
    intro result
    rw [resultDoc, Option.map_map]
    rfl
  rw [hdoc, hdoc] at h
  exact Option.map_injective (Option.some_injective _) h

variable {current : AttributeMap}

theorem runAll_of_foldlM {round : AttributeMap → BoundUpdateOperation → Except Fault AttributeMap}
    (hround : ∀ item op, resultDoc (round item op) = match edit op with
      | some e => e.run (some (itemDoc item))
      | none => some (some (itemDoc item))) (hrun : operations.foldlM round item = .ok current) :
    Edit.runAll (operations.filterMap edit) (some (itemDoc item))
      = some (some (itemDoc current)) := by
  rw [← foldlM_doc hround, hrun]
  rfl

variable {before after : List BoundUpdateOperation}

/-- **A SET evaluates its operand as if it were the first one.** -/
theorem Independent.evaluate_eq (h : Independent item (before ++ op :: after))
    (hrun : before.foldlM applySetRound item = .ok current) {field : Text} {operand : UpdateOperand}
    (hassign : op.assignment = some (field, operand)) :
    SameValue (evaluateBoundUpdateOperand current operand)
      (evaluateBoundUpdateOperand item operand) := by
  rw [SameValue, evaluateBoundUpdateOperand_doc, evaluateBoundUpdateOperand_doc]
  refine UpdateOperand.doc_congr fun r hr => ?_
  have hcompat := h.compatible_sets
  rw [filterMap_append] at hcompat
  refine Edit.get_runAll (pairwise_append.mp hcompat).1 (fun e he => ?_)
    (runAll_of_foldlM applySetRound_doc hrun)
  obtain ⟨a, ha, hedit⟩ := mem_filterMap.mp he
  have hundisturbed := (pairwise_append.mp h).2.2 a ha op mem_cons_self
  refine leaves_setEdit hundisturbed.1 hedit (Or.inl (kind_of_assignment hassign).1) ?_
  rw [BoundUpdateOperation.sources, hassign]
  exact mem_cons_of_mem _ hr

theorem get_removalPath (item : AttributeMap) (path : List UpdatePathSegment) :
    Document.get (removalPath path) (some (itemDoc item))
      = Document.get path (some (itemDoc item)) := by
  cases path with
  | nil => rfl
  | cons segment path =>
    cases segment with
    | name key => rfl
    | index i => exact (get_none path).symm

/-- **A REMOVE finds at its path what was there before the update.** -/
theorem Independent.removed_eq {field : Text}
    (h : Independent item (before ++ .remove field :: after)) {afterSets : AttributeMap}
    (hsets : (before ++ .remove field :: after).foldlM applySetRound item = .ok afterSets)
    (hrun : before.foldlM applyRemoveRound afterSets = .ok current) :
    (getAttributeValue current field).map doc = (getAttributeValue item field).map doc := by
  set op : BoundUpdateOperation := .remove field
  have hmem : op ∈ before ++ op :: after := by simp
  have hget : Document.get op.target (some (itemDoc current))
      = Document.get op.target (some (itemDoc item)) := by
    have hsetsDoc := runAll_of_foldlM applySetRound_doc hsets
    have hcompat := h.compatible_removes hsetsDoc
    rw [filterMap_append] at hcompat
    rw [Edit.get_runAll (pairwise_append.mp hcompat).1 (fun e he => ?_)
      (runAll_of_foldlM applyRemoveRound_doc hrun)]
    · refine Edit.get_runAll h.compatible_sets (fun e he => ?_)
        (runAll_of_foldlM applySetRound_doc hsets)
      obtain ⟨a, ha, hedit⟩ := mem_filterMap.mp he
      have hne : a.kind ≠ op.kind := by
        rw [(setEdit?_eq_some hedit).1]
        simp [op, BoundUpdateOperation.kind]
      exact leaves_setEdit (h.undisturbed ha hmem hne) hedit (Or.inr rfl) mem_cons_self
    · obtain ⟨a, ha, hedit⟩ := mem_filterMap.mp he
      refine leaves_removeEdit ((pairwise_append.mp h).2.2 a ha op mem_cons_self).1 hedit rfl
        fun path hpath hsome => ?_
      rcases hpath with hpath | hpath
      · exact h.present_of_isSome hsetsDoc (mem_append_left _ ha) (removeEdit?_eq_some hedit).1
          hpath hsome
      · exact h.present_of_isSome hsetsDoc hmem rfl hpath hsome
  rw [getAttributeValue_doc, getAttributeValue_doc]
  have htarget : op.target = removalPath (targetPath field) := rfl
  rw [htarget, get_removalPath, get_removalPath, targetPath] at hget
  cases hpath : fieldPath field with
  | none => rfl
  | some path =>
    rw [hpath] at hget
    exact hget

end Runs

instance (p r : List UpdatePathSegment) : Decidable (Separate p r) :=
  inferInstanceAs (Decidable (¬_ ∧ ¬_))

/-- The last step of a path is an index. -/
def endsInList (path : List UpdatePathSegment) : Bool :=
  match path.getLast? with
  | some (.index _) => true
  | _ => false

theorem endsInList_append (c : List UpdatePathSegment) (i : ℕ) :
    endsInList (c ++ [.index i]) = true := by
  simp [endsInList]

/-- A condition that can be evaluated: SET operations set elements that their lists have,
at most one REMOVE deletes an element of a list, and there is at most one ADD of one. -/
def PlainlyUndisturbed (item : AttributeMap) (a b : BoundUpdateOperation) : Prop :=
  Separate a.target b.target
    ∧ (a.kind = .set → ∀ r ∈ b.sources, Separate a.target r)
    ∧ (endsInList a.target = true → a.kind = .set → Present item a.target)
    ∧ (endsInList a.target = true → a.kind = .remove → b.kind = .remove → ¬Present item a.target)
    ∧ (endsInList a.target = true → a.kind = .add → b.kind ≠ .add)

instance (item : AttributeMap) (a b : BoundUpdateOperation) :
    Decidable (PlainlyUndisturbed item a b) :=
  inferInstanceAs (Decidable (_ ∧ _))

theorem PlainlyUndisturbed.undisturbed {item : AttributeMap} {a b : BoundUpdateOperation}
    (h : PlainlyUndisturbed item a b) (operations : List BoundUpdateOperation) :
    Undisturbed item operations a b := by
  obtain ⟨htargets, hsources, hset, hremove, hadd⟩ := h
  refine ⟨htargets, hsources, fun c i j q hc _ => ?_⟩
  rw [hc, endsInList_append] at hset hremove hadd
  split
  · exact Or.inl (hset rfl ‹_›)
  · exact Or.inl (hset rfl ‹_›)
  · exact fun hpresent => absurd hpresent (hremove rfl ‹_› ‹_›)
  · exact absurd ‹_› (hadd rfl ‹_›)
  · trivial

theorem independent_of_plainly {item : AttributeMap} {operations : List BoundUpdateOperation}
    (h : operations.Pairwise fun a b =>
      PlainlyUndisturbed item a b ∧ PlainlyUndisturbed item b a) :
    Independent item operations :=
  h.imp fun hab => ⟨hab.1.undisturbed operations, hab.2.undisturbed operations⟩

/-- The number that a text of digits denotes, as an attribute. -/
def number (digits : String) : AttributeValue := .N (text digits)

/-- An item with a number and a list of numbers. -/
def counters : AttributeMap :=
  (OrderedMap.empty.insert (text "n") (number "5")).insert (text "l")
    (.L [number "0", number "1", number "2"])

/-- Two results that differ in a number of the item. -/
theorem not_sameResult (field : Text) (n n' : Text) (hne : n ≠ n')
    (h : result.toOption.bind (getAttributeValue · field) = some (.N n))
    (h' : result'.toOption.bind (getAttributeValue · field) = some (.N n')) :
    ¬SameResult result result' := by
  intro hsame
  have hread : ∀ result : Except Fault AttributeMap,
      (result.toOption.bind (getAttributeValue · field)).map doc
        = (result.toOption.map itemDoc).bind fun d =>
            (fieldPath field).bind fun path => Document.get path (some d) := by
    intro result
    cases result with
    | error e => rfl
    | ok item => exact getAttributeValue_doc item field
  have hdoc := hread result
  rw [SameResult] at hsame
  rw [hsame, ← hread result', h, h'] at hdoc
  simp only [Option.map_some, doc, Option.some.injEq, Doc.leaf.injEq,
    AttributeValue.N.injEq] at hdoc
  exact hne hdoc

/-- The validation admits the two operations, and their order matters. -/
def OrderMatters (item : AttributeMap) (a b : BoundUpdateOperation) : Prop :=
  admittedPaths [a.field, b.field] = true
    ∧ ¬SameResult (applyBoundUpdateOperations item [a, b])
        (applyBoundUpdateOperations item [b, a])

end AuxStorage
