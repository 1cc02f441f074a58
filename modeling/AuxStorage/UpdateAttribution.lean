import AuxStorage.UpdateResolve

/-!
# Attribution of Actions to Clauses

Which operation the parser makes of each action of a written expression. The first action
of a clause stands behind its keyword and is read as an operation of that section. Every
further action is a part of its own without a keyword, and its kind is guessed from its
characters: a part with `=` is a SET, a part with a space an ADD, any other one a REMOVE.

The guess is right for SET and REMOVE, and for ADD when path and value are separated by a
space. It is never right for DELETE.
-/

namespace AuxStorage

open Str List
open UpdateExpressionSyntax (clauses parts)

/-! ### Kinds and targets of operations -/

/-- The section an operation of a plan belongs to. -/
def UpdateOperationPlan.kind : UpdateOperationPlan → UpdateSection
  | .set _ _ => .set
  | .add _ _ => .add
  | .remove _ => .remove
  | .delete _ _ => .delete

/-- The document path an operation of a plan changes. -/
def UpdateOperationPlan.field : UpdateOperationPlan → Text
  | .set field _ => field
  | .add field _ => field
  | .remove field => field
  | .delete field _ => field

/-- The section an operation belongs to. -/
def UpdateOperation.kind : UpdateOperation → UpdateSection
  | .set _ _ => .set
  | .setExpression _ _ => .set
  | .setIfNotExists _ _ _ => .set
  | .setListAppend _ _ _ => .set
  | .add _ _ => .add
  | .remove _ => .remove
  | .delete _ _ => .delete

/-- The document path an operation changes. -/
def UpdateOperation.field : UpdateOperation → Text
  | .set field _ => field
  | .setExpression field _ => field
  | .setIfNotExists field _ _ => field
  | .setListAppend field _ _ => field
  | .add field _ => field
  | .remove field => field
  | .delete field _ => field

theorem setOperation_kind_field (field : Text) (operand : UpdateOperand) :
    (setOperation field operand).kind = .set ∧ (setOperation field operand).field = field := by
  rw [setOperation.eq_def]
  split <;> exact ⟨rfl, rfl⟩

theorem bindUpdateOperationPlan_kind_field {values : Option AttributeMap}
    {plan : UpdateOperationPlan} {op : UpdateOperation}
    (h : bindUpdateOperationPlan values plan = .ok op) :
    op.kind = plan.kind ∧ op.field = plan.field := by
  cases plan with
  | set field value =>
    obtain ⟨operand, -, h⟩ := Except.bind_eq_ok.mp h
    cases h
    exact setOperation_kind_field field operand
  | add field value =>
    obtain ⟨bound, -, h⟩ := Except.bind_eq_ok.mp h
    cases h
    exact ⟨rfl, rfl⟩
  | remove field =>
    cases h
    exact ⟨rfl, rfl⟩
  | delete field value =>
    obtain ⟨bound, -, h⟩ := Except.bind_eq_ok.mp h
    cases h
    exact ⟨rfl, rfl⟩

/-! ### Parts behind a keyword -/

section Parts

variable (json : JsonReader) (names : Option (VecMap Text Text)) (isFirst : Bool) (t : Text)

theorem partPlan_set :
    partPlan json names isFirst (UpdateSection.set.partStart ++ t)
      = match splitAssignment (trim t) with
        | some (field, valueExpr) => setOperationPlan json names field valueExpr
        | none => .error (.validation (text "Invalid SET operation: " ++ trim t)) := by
  rfl

theorem partPlan_add :
    partPlan json names isFirst (UpdateSection.add.partStart ++ t)
      = match splitOnce ' ' (trim t) with
        | some parts => pathValuePlan json names .add (text "ADD operation") (trim t) parts
        | none => .error (.validation (text "Invalid ADD operation: " ++ trim t)) := by
  rfl

theorem partPlan_remove :
    partPlan json names isFirst (UpdateSection.remove.partStart ++ t) = (do
      let field ← resolveDocumentPath names (trim t)
      pure (.remove field)) := by
  rfl

theorem partPlan_delete :
    partPlan json names isFirst (UpdateSection.delete.partStart ++ t)
      = match splitOnce ' ' (trim t) with
        | some parts =>
          pathValuePlan json names .delete (text "DELETE operation") (trim t) parts
        | none => .error (.validation (text "Invalid DELETE operation: " ++ trim t)) := by
  rfl

/-- Behind a keyword it does not matter whether the part is the first one. -/
theorem partPlan_partStart (kind : UpdateSection) (t : Text) :
    partPlan json names isFirst (kind.partStart ++ t)
      = partPlan json names false (kind.partStart ++ t) := by
  cases kind with
  | set => rw [partPlan_set, partPlan_set]
  | remove => rw [partPlan_remove, partPlan_remove]
  | add => rw [partPlan_add, partPlan_add]
  | delete => rw [partPlan_delete, partPlan_delete]

/-- A part that begins with no keyword continues the operations before it. -/
theorem partPlan_continuation {part : Text} (h : startsKeyword (part ++ [' ']) = false) :
    partPlan json names isFirst part = continuationPlan json names isFirst part := by
  have hnone : ∀ kind : UpdateSection, ∀ rest, part ++ [' '] ≠ kind.partStart ++ rest := by
    intro kind rest heq
    rw [heq, startsKeyword, any_eq_false] at h
    refine h kind.keyword kind.keyword_mem ?_
    cases kind <;> rfl
  have hset : part ≠ text "SET" := by
    rintro rfl
    exact hnone .set [] rfl
  have hstrip : ∀ kind : UpdateSection, stripPrefix kind.partStart part = none := by
    intro kind
    refine stripPrefix_eq_none ?_
    rintro ⟨rest, hrest⟩
    refine hnone kind (rest ++ [' ']) ?_
    rw [← hrest, append_assoc]
  have hstripSet : stripPrefix (text "SET ") part = none := hstrip .set
  have hstripAdd : stripPrefix (text "ADD ") part = none := hstrip .add
  have hstripRemove : stripPrefix (text "REMOVE ") part = none := hstrip .remove
  have hstripDelete : stripPrefix (text "DELETE ") part = none := hstrip .delete
  rw [partPlan, if_neg hset, hstripSet, hstripAdd, hstripRemove, hstripDelete]

theorem continuationPlan_first (part : Text) :
    ∃ e, continuationPlan json names true part = .error e := by
  simp only [continuationPlan, Bool.and_true]
  split <;> exact ⟨_, rfl⟩

end Parts

/-! ### Actions behind a keyword -/

/-- A path and a value are separated by a space, not only by other white space. -/
def Action.Spaced : {kind : UpdateSection} → Action kind → Prop
  | _, .assign _ _ _ _ => True
  | _, .drop _ => True
  | _, .addValue _ gap _ => ' ' ∈ gap.text
  | _, .deleteValue _ gap _ => ' ' ∈ gap.text

/-- The text of an action with a gap. -/
def gapText (p : DocPath) (gap : Gap) (value : Word) : Text :=
  p.text ++ (gap.text ++ ':' :: value.text)

variable {gap : Gap}

theorem mem_gapText {p : DocPath} {value : Word} {c : Char} (hpath : isPathChar c = false)
    (hcolon : c ≠ ':') : c ∈ gapText p gap value ↔ c ∈ gap.text := by
  have hp : c ∉ p.text := fun hmem => by
    rw [p.pathChars c hmem] at hpath
    cases hpath
  have hv : c ∉ value.text := fun hmem => by
    rw [isPathChar_of_isWordChar (value.word c hmem)] at hpath
    cases hpath
  simp [gapText, hp, hv, hcolon]

variable (p : DocPath)

/-- White space is no assignment. -/
theorem equals_notMem_gapText (gap : Gap) (value : Word) : '=' ∉ gapText p gap value := by
  rw [mem_gapText (by decide) (by decide)]
  exact fun hmem => absurd (gap.blank '=' hmem) (by decide)

/-- At its first space, an action with a gap is cut into path and value. -/
theorem splitOnce_gapText (value : Word) (h : ' ' ∈ gap.text) :
    ∃ parts, splitOnce ' ' (gapText p gap value) = some parts ∧
      trim parts.1 = p.text ∧ trim parts.2 = ':' :: value.text := by
  obtain ⟨g₁, g₂, hgap, hfirst⟩ := eq_append_cons_of_mem h
  have hblank₁ : Blank g₁ := fun c hc => gap.blank c (by simp [hgap, hc])
  have hblank₂ : Blank g₂ := fun c hc => gap.blank c (by simp [hgap, hc])
  have hspace : ' ' ∉ p.text ++ g₁ := by
    intro hmem
    rcases mem_append.mp hmem with hp | hg
    · exact absurd (p.pathChars ' ' hp) (by decide)
    · exact hfirst hg
  have htext : gapText p gap value
      = (p.text ++ g₁) ++ ' ' :: (g₂ ++ ':' :: value.text) := by
    simp [gapText, hgap]
  refine ⟨_, by rw [htext, splitOnce_append hspace], ?_, ?_⟩
  · simpa using trim_pad Blank.nil p.firm.toSolid hblank₁
  · simpa using trim_pad hblank₂ value.firm_placeholder.toSolid Blank.nil

theorem splitOnce_gapText_eq_none (value : Word) (h : ' ' ∉ gap.text) :
    splitOnce ' ' (gapText p gap value) = none :=
  splitOnce_eq_none (by rwa [mem_gapText (by decide) (by decide)])

section Actions

variable (json : JsonReader) (names : Option (VecMap Text Text))
  (values : Option AttributeMap)

/-- A part becomes an operation. -/
def Reads (part : Text) (op : UpdateOperation) : Prop :=
  ∃ plan, partPlan json names false part = .ok plan ∧
    bindUpdateOperationPlan values plan = .ok op

/-- A part becomes an operation of this section on this path. -/
def ReadsAs (part : Text) (kind : UpdateSection) (p : DocPath) : Prop :=
  ∃ op, Reads json names values part op ∧ op.kind = kind ∧ p.resolve names = some op.field

/-- The plan of an assignment. -/
theorem setOperationPlan_text (p : DocPath) (l₁ l₂ : Layout) (value : Operand true)
    (hpath : (p.resolve names).isSome) (hvalue : value.Resolves json names values) :
    ∃ field resolved operand,
      splitAssignment (p.text ++ (l₁.text ++ '=' :: (l₂.text ++ value.text)))
        = some (p.text, value.text) ∧
      setOperationPlan json names p.text value.text = .ok (.set field resolved) ∧
      bindUpdateOperationPlan values (.set field resolved)
        = .ok (setOperation field operand) ∧
      p.resolve names = some field := by
  obtain ⟨field, hfield⟩ := Option.isSome_iff_exists.mp hpath
  obtain ⟨resolved, hresolved, operand, hoperand⟩ := value.resolve_text json names values hvalue
  have hequals : '=' ∉ p.text ++ l₁.text := by
    intro hmem
    rcases mem_append.mp hmem with hp | hl
    · exact absurd (p.pathChars '=' hp) (by decide)
    · exact absurd (l₁.blank '=' hl) (by decide)
  refine ⟨field, resolved.intoOkPlan, operand, ?_, ?_, ?_, hfield⟩
  · rw [← append_assoc, splitAssignment, splitOnce_append hequals]
    have hl := trim_pad Blank.nil p.firm.toSolid l₁.blank
    have hr := trim_pad l₂.blank value.firm.toSolid Blank.nil
    simp only [nil_append, append_nil] at hl hr
    simp [hl, hr]
  · rw [setOperationPlan, p.resolveDocumentPath_text hfield, hresolved]
    rfl
  · rw [bindUpdateOperationPlan, hoperand]
    rfl

variable {parts : Text × Text} {kind : UpdateSection}

/-- A part that is planned as a path and a value becomes an operation on that path,
whichever operation is made of them. -/
theorem readsAs_gapText {p : DocPath} {gap : Gap} {value : Word} {part : Text} (message : Text)
    (build : Text → UpdateValuePlan → UpdateOperationPlan)
    (op : Text → AttributeValue → UpdateOperation) (hspaced : ' ' ∈ gap.text)
    (hres : (p.resolve names).isSome ∧
      ∃ values' ∈ values, (values'.get (':' :: value.text)).isSome)
    (hop : ∀ field bound, (op field bound).kind = kind ∧ (op field bound).field = field)
    (hbuild : ∀ field plan, bindUpdateOperationPlan values (build field plan)
      = (bindScalarUpdateValuePlan values plan).map (op field))
    (hpart : ∀ parts, splitOnce ' ' (gapText p gap value) = some parts →
      partPlan json names false part
        = pathValuePlan json names build message (gapText p gap value) parts) :
    ReadsAs json names values part kind p := by
  obtain ⟨parts, hsplit, hleft, hright⟩ := splitOnce_gapText p value hspaced
  obtain ⟨field, hfield⟩ := Option.isSome_iff_exists.mp hres.1
  obtain ⟨bound, hbound⟩ := resolvePlannedAttributeValue_ok values hres.2
  obtain ⟨hkind, htarget⟩ := hop field bound
  refine ⟨op field bound, ⟨build field (.placeholder (':' :: value.text)), ?_, ?_⟩, hkind,
    by rw [htarget]; exact hfield⟩
  · rw [hpart parts hsplit, pathValuePlan, hleft, hright, p.resolveDocumentPath_text hfield,
      value.resolve_text json names]
    rfl
  · rw [hbuild, bindScalarUpdateValuePlan, bindUpdateValuePlan, hbound]
    rfl

variable (a : Action kind)

/-- **The first action of a clause** becomes an operation of its section, when it is
spaced. -/
theorem Action.reads_start (hres : a.Resolves json names values) (hspaced : a.Spaced) :
    ReadsAs json names values (kind.partStart ++ a.text) kind a.path := by
  have htrim := trim_solid a.firm.toSolid
  cases a with
  | assign p l₁ l₂ value =>
    obtain ⟨field, resolved, operand, hsplit, hplan, hbind, hfield⟩ :=
      setOperationPlan_text json names values p l₁ l₂ value hres.1 hres.2
    obtain ⟨hkind, htarget⟩ := setOperation_kind_field field operand
    refine ⟨_, ⟨_, ?_, hbind⟩, hkind, by rw [htarget]; exact hfield⟩
    rw [partPlan_set, htrim]
    simp only [Action.text, Action.path, Action.tail, hsplit]
    exact hplan
  | drop p =>
    obtain ⟨field, hfield⟩ := Option.isSome_iff_exists.mp hres
    refine ⟨.remove field, ⟨.remove field, ?_, rfl⟩, rfl, hfield⟩
    rw [partPlan_remove, htrim]
    simp only [Action.text, Action.path, Action.tail, append_nil]
    rw [p.resolveDocumentPath_text hfield]
    rfl
  | addValue p gap value =>
    refine readsAs_gapText json names values (AuxStorage.text "ADD operation") .add .add hspaced
      hres (fun _ _ => ⟨rfl, rfl⟩) (fun _ _ => rfl) fun parts hsplit => ?_
    rw [partPlan_add, htrim]
    change splitOnce ' ' (gapText p gap value) = some parts at hsplit
    change (match splitOnce ' ' (gapText p gap value) with | some parts => _ | none => _) = _
    rw [hsplit]
    rfl
  | deleteValue p gap value =>
    refine readsAs_gapText json names values (AuxStorage.text "DELETE operation") .delete .delete
      hspaced hres (fun _ _ => ⟨rfl, rfl⟩) (fun _ _ => rfl) fun parts hsplit => ?_
    rw [partPlan_delete, htrim]
    change splitOnce ' ' (gapText p gap value) = some parts at hsplit
    change (match splitOnce ' ' (gapText p gap value) with | some parts => _ | none => _) = _
    rw [hsplit]
    rfl

variable {op : UpdateOperation}

/-- Behind its keyword, an action that is not spaced is refused. -/
theorem Action.spaced_of_reads_start (h : Reads json names values (kind.partStart ++ a.text) op) :
    a.Spaced := by
  have htrim := trim_solid a.firm.toSolid
  obtain ⟨plan, hplan, -⟩ := h
  cases a with
  | assign | drop => trivial
  | addValue p gap value | deleteValue p gap value =>
    by_contra hspace
    have hsplit := splitOnce_gapText_eq_none p value hspace
    rw [gapText] at hsplit
    first
      | rw [partPlan_add, htrim] at hplan
      | rw [partPlan_delete, htrim] at hplan
    simp [Action.text, Action.path, Action.tail, hsplit] at hplan

/-! ### Further actions -/

/-- A further action begins with no keyword, and so continues the ones before it. -/
theorem Action.partPlan_text (isFirst : Bool) :
    partPlan json names isFirst a.text = continuationPlan json names isFirst a.text := by
  refine partPlan_continuation json names isFirst ?_
  have hjoins : Joins (a.text ++ ([] : List (NextAction kind)).flatMap NextAction.text) [' '] :=
    Or.inl (Boundary.cons (by decide))
  simpa using a.startsKeyword_eq_false hjoins

variable {part : Text}

/-- A further action with `=` is read as a SET. -/
theorem continuationPlan_assignment (h : '=' ∈ part) (hsplit : splitAssignment part = some parts) :
    continuationPlan json names false part = setOperationPlan json names parts.1 parts.2 := by
  simp [continuationPlan, h, hsplit]

theorem continuationPlan_space (h : '=' ∉ part) (hspace : ' ' ∈ part)
    (hsplit : splitOnce ' ' part = some parts) :
    continuationPlan json names false part
      = pathValuePlan json names .add (text "ADD operation continuation") part parts := by
  simp [continuationPlan, h, hspace, hsplit]

theorem continuationPlan_other (h : '=' ∉ part) (hspace : ' ' ∉ part) :
    continuationPlan json names false part = (do
      let field ← resolveDocumentPath names (trim part)
      pure (.remove field)) := by
  simp [continuationPlan, h, hspace]

/-- **A further action of a clause** becomes an operation of its section, when it is spaced
and no DELETE. -/
theorem Action.reads_next (hres : a.Resolves json names values) (hspaced : a.Spaced)
    (hkind : kind ≠ .delete) : ReadsAs json names values a.text kind a.path := by
  have hpart := a.partPlan_text json names false
  cases a with
  | assign p l₁ l₂ value =>
    obtain ⟨field, resolved, operand, hsplit, hplan, hbind, hfield⟩ :=
      setOperationPlan_text json names values p l₁ l₂ value hres.1 hres.2
    obtain ⟨hset, htarget⟩ := setOperation_kind_field field operand
    refine ⟨_, ⟨_, ?_, hbind⟩, hset, by rw [htarget]; exact hfield⟩
    exact hpart.trans ((continuationPlan_assignment json names (by simp) hsplit).trans hplan)
  | drop p =>
    obtain ⟨field, hfield⟩ := Option.isSome_iff_exists.mp hres
    refine ⟨.remove field, ⟨.remove field, ?_, rfl⟩, rfl, hfield⟩
    have hpath : (Action.drop p).text = p.text := by
      simp [Action.text, Action.path, Action.tail]
    rw [hpart, hpath, continuationPlan_other json names
      (fun hmem => absurd (p.pathChars '=' hmem) (by decide))
      (fun hmem => absurd (p.pathChars ' ' hmem) (by decide)),
      trim_solid p.firm.toSolid, p.resolveDocumentPath_text hfield]
    rfl
  | addValue p gap value =>
    exact readsAs_gapText json names values _ .add .add hspaced hres
      (fun _ _ => ⟨rfl, rfl⟩) (fun _ _ => rfl) fun parts hsplit => hpart.trans
        (continuationPlan_space json names (equals_notMem_gapText p gap value)
          ((mem_gapText (by decide) (by decide)).mpr hspaced) hsplit)
  | deleteValue p gap value => exact absurd rfl hkind

/-- The operation of a further action with a gap is an ADD or, when the action is not
spaced, a REMOVE. -/
theorem Action.kind_of_gapText {p : DocPath} {gap : Gap} {value : Word} {plan : UpdateOperationPlan}
    (h : continuationPlan json names false (gapText p gap value) = .ok plan) :
    ' ' ∈ gap.text ∧ plan.kind = .add ∨ ' ' ∉ gap.text ∧ plan.kind = .remove := by
  have hequals := equals_notMem_gapText p gap value
  by_cases hspace : ' ' ∈ gap.text
  · obtain ⟨parts, hsplit, hleft, hright⟩ := splitOnce_gapText p value hspace
    rw [continuationPlan_space json names hequals
      ((mem_gapText (by decide) (by decide)).mpr hspace) hsplit, pathValuePlan, hright,
      value.resolve_text json names] at h
    obtain ⟨field, -, h⟩ := Except.bind_eq_ok.mp h
    cases h
    exact .inl ⟨hspace, rfl⟩
  · rw [continuationPlan_other json names hequals
      (by rwa [mem_gapText (by decide) (by decide)])] at h
    obtain ⟨field, -, h⟩ := Except.bind_eq_ok.mp h
    cases h
    exact .inr ⟨hspace, rfl⟩

/-- A further action that becomes an operation of its section is spaced and no DELETE. -/
theorem Action.spaced_of_reads_next (h : Reads json names values a.text op) (hkind : op.kind = kind) :
    a.Spaced ∧ kind ≠ .delete := by
  obtain ⟨plan, hplan, hbind⟩ := h
  rw [a.partPlan_text json names] at hplan
  rw [(bindUpdateOperationPlan_kind_field hbind).1] at hkind
  cases a with
  | assign | drop => exact ⟨trivial, by decide⟩
  | addValue p gap value =>
    rcases Action.kind_of_gapText json names hplan with ⟨hspace, -⟩ | ⟨-, hremove⟩
    · exact ⟨hspace, by decide⟩
    · rw [hremove] at hkind
      cases hkind
  | deleteValue p gap value =>
    rcases Action.kind_of_gapText json names hplan with ⟨-, hadd⟩ | ⟨-, hremove⟩
    · rw [hadd] at hkind
      cases hkind
    · rw [hremove] at hkind
      cases hkind

end Actions

/-! ### Whole expressions -/

/-- A part of an expression, with the section and the target of its action. -/
structure ActionPart where
  part : Text
  kind : UpdateSection
  path : DocPath

/-- The parts of a set-off clause with their sections and targets. -/
def Clause.attributedParts (c : Clause) : List ActionPart :=
  ⟨c.kind.partStart ++ c.first.text, c.kind, c.first.path⟩
    :: c.rest.map fun next => ⟨next.action.text, c.kind, next.action.path⟩

open Clause hiding parts

/-- The targets of the actions of an expression, with their sections. -/
def UpdateExpressionSyntax.targets (names : Option (VecMap Text Text))
    (e : UpdateExpressionSyntax) : List (UpdateSection × Option Text) :=
  e.clauses.flatMap fun c => c.actions.map fun a => (c.kind, a.path.resolve names)

/-- **The expressions the parser attributes correctly**: every keyword stands between white
space, DELETE has a single action, and paths are separated from values by a space. -/
structure UpdateExpressionSyntax.Attributable (e : UpdateExpressionSyntax) : Prop where
  head_setOff : e.head.setOff true = true
  tail_setOff : ∀ c ∈ e.tail, c.setOff false = true
  delete_single : ∀ c ∈ e.clauses, c.kind = .delete → c.rest = []
  spaced : ∀ c ∈ e.clauses, ∀ a ∈ c.actions, a.Spaced

section Expressions

variable {json : JsonReader} {names : Option (VecMap Text Text)}
  {values : Option AttributeMap}

/-- Behind the first operation, the parts are read one by one. -/
theorem parseParts_eq {operations : List UpdateOperationPlan} (hne : operations ≠ [])
    (parts : List Text) :
    parseParts json names operations parts = (do
      let plans ← parts.mapM (partPlan json names false)
      pure (operations ++ plans)) := by
  induction parts generalizing operations with
  | nil => simp [parseParts]
  | cons part parts ih =>
    have hempty : operations.isEmpty = false := by simpa using hne
    rw [parseParts, hempty, mapM_cons]
    simp only [bind_assoc, pure_bind]
    congr 1
    funext plan
    rw [ih (by simp)]
    simp

theorem parseParts_cons (part : Text) (parts : List Text) :
    parseParts json names [] (part :: parts) = (do
      let plan ← partPlan json names true part
      let plans ← parts.mapM (partPlan json names false)
      pure (plan :: plans)) := by
  rw [parseParts]
  congr 1
  funext plan
  rw [parseParts_eq (by simp)]
  simp

variable {plans : List UpdateOperationPlan}

theorem length_of_parseParts {parts : List Text} (h : parseParts json names [] parts = .ok plans) :
    plans.length = parts.length := by
  cases parts with
  | nil =>
    cases h
    rfl
  | cons part parts =>
    rw [parseParts_cons] at h
    obtain ⟨plan, -, h⟩ := Except.bind_eq_ok.mp h
    obtain ⟨plans', hplans, h⟩ := Except.bind_eq_ok.mp h
    cases h
    simp [(Except.mapM_eq_ok.mp hplans).length_eq]

variable {e : UpdateExpressionSyntax}

/-- **A set-off expression is read part by part.** -/
theorem parse_text_of_setOff (hhead : e.head.setOff true = true)
    (htail : ∀ c ∈ e.tail, c.setOff false = true) {ops : List UpdateOperation} :
    (parseUpdateExpressionPlan json names e.text >>= bindUpdateExpressionPlan values) = .ok ops ↔
      List.Forall₂ (fun part op => Reads json names values part.part op)
        (e.clauses.flatMap attributedParts) ops := by
  have hparts : e.parts = (e.clauses.flatMap attributedParts).map ActionPart.part := by
    rw [parts_of_setOff hhead htail, map_flatMap]
    congr 1
    funext c
    simp [Clause.parts, attributedParts]
  have hplan : parseUpdateExpressionPlan json names e.text
      = e.parts.mapM (partPlan json names false) := by
    rw [parseUpdateExpressionPlan, parts_text, parts_of_setOff hhead htail,
      clauses, flatMap_cons, Clause.parts, cons_append,
      parseParts_cons, partPlan_partStart, mapM_cons]
  rw [hplan, hparts]
  exact Except.mapM_bind_mapM_eq_ok.trans forall₂_map_left_iff

/-- A keyword at the beginning that touches an alias is not recognised. -/
theorem parse_text_of_touching (hhead : ¬e.head.setOff true = true)
    (htail : ∀ c ∈ e.tail, c.setOff false = true) :
    parseUpdateExpressionPlan json names e.text ≠ .ok plans := by
  have hafter : e.head.after.text = [] := by
    simpa [setOff] using hhead
  obtain ⟨t, ht⟩ : ∃ t, e.head.first.text = '#' :: t :=
    head?_eq_some_iff.mp (e.head.separated.resolve_left fun hne => hne hafter)
  intro h
  rw [parseUpdateExpressionPlan, parts_text, parts, if_neg hhead,
    clauseParts_of_setOff htail, actionParts_cons, cons_append, parseParts_cons, ht] at h
  obtain ⟨plan, hplan, -⟩ := Except.bind_eq_ok.mp h
  obtain ⟨error, herror⟩ := continuationPlan_first json names (e.head.keyword ++ '#' :: t)
  rw [partPlan_continuation json names true (by
    rw [append_assoc]
    exact e.head.startsKeyword_touching _), herror] at hplan
  cases hplan

theorem map_kind_attributedParts (e : UpdateExpressionSyntax) :
    (e.clauses.flatMap attributedParts).map ActionPart.kind = e.sections := by
  rw [UpdateExpressionSyntax.sections, map_flatMap]
  congr 1
  funext c
  simp [attributedParts, actions]

theorem map_target_attributedParts (e : UpdateExpressionSyntax) :
    (e.clauses.flatMap attributedParts).map
      (fun part => (part.kind, part.path.resolve names)) = e.targets names := by
  rw [UpdateExpressionSyntax.targets, map_flatMap]
  congr 1
  funext c
  simp [attributedParts, actions]

/-- The parts of attributable expressions become operations of their sections. -/
theorem UpdateExpressionSyntax.Attributable.readsAs (h : e.Attributable)
    (hres : e.Resolves json names values) :
    ∀ part ∈ e.clauses.flatMap attributedParts,
      ReadsAs json names values part.part part.kind part.path := by
  intro part hpart
  obtain ⟨c, hc, hpart⟩ := mem_flatMap.mp hpart
  have hactions := hres c hc
  have hspaced := h.spaced c hc
  rcases mem_cons.mp hpart with rfl | hpart
  · exact c.first.reads_start json names values (hactions c.first (by simp [actions]))
      (hspaced c.first (by simp [actions]))
  · obtain ⟨next, hnext, rfl⟩ := mem_map.mp hpart
    have hmem : next.action ∈ c.actions := mem_cons_of_mem _ (mem_map_of_mem hnext)
    refine next.action.reads_next json names values (hactions _ hmem) (hspaced _ hmem) ?_
    intro hkind
    rw [h.delete_single c hc hkind] at hnext
    cases hnext

/-- Expressions whose parts become operations of their sections are attributable. -/
theorem attributable_of_reads (hhead : e.head.setOff true = true)
    (htail : ∀ c ∈ e.tail, c.setOff false = true)
    (h : ∀ part ∈ e.clauses.flatMap attributedParts,
      ∃ op, Reads json names values part.part op ∧ op.kind = part.kind) : e.Attributable := by
  have hfirst : ∀ c ∈ e.clauses, c.first.Spaced := by
    intro c hc
    obtain ⟨op, hread, -⟩ := h _ (mem_flatMap.mpr ⟨c, hc, mem_cons_self⟩)
    exact c.first.spaced_of_reads_start json names values hread
  have hnext : ∀ c ∈ e.clauses, ∀ next ∈ c.rest, next.action.Spaced ∧ c.kind ≠ .delete := by
    intro c hc next hmem
    obtain ⟨op, hread, hkind⟩ := h _ (mem_flatMap.mpr
      ⟨c, hc, mem_cons_of_mem _ (mem_map_of_mem hmem)⟩)
    exact next.action.spaced_of_reads_next json names values hread hkind
  refine ⟨hhead, htail, ?_, ?_⟩
  · intro c hc hkind
    refine eq_nil_iff_forall_not_mem.mpr fun next hmem => ?_
    exact (hnext c hc next hmem).2 hkind
  · intro c hc a ha
    rcases mem_cons.mp ha with rfl | ha
    · exact hfirst c hc
    · obtain ⟨next, hmem, rfl⟩ := mem_map.mp ha
      exact (hnext c hc next hmem).1

variable {readCache writeCache : Option PlanCache}

/-- **Attribution of actions to clauses.** For an expression whose names, values and
literals the request defines, the parser returns one operation for each action, each of
the kind of its clause, exactly when the expression is attributable. The operations then
change the paths of their actions, in order. -/
theorem parseUpdateExpression_attribution (hread : PlanCache.Reachable json readCache)
    (hwrite : PlanCache.Reachable json writeCache) (e : UpdateExpressionSyntax)
    (hres : e.Resolves json names values) :
    ((∃ ops, parseUpdateExpression json readCache writeCache e.text names values = .ok ops ∧
        ops.map UpdateOperation.kind = e.sections) ↔ e.Attributable) ∧
      (e.Attributable → ∃ ops,
        parseUpdateExpression json readCache writeCache e.text names values = .ok ops ∧
        ops.map (fun op => (op.kind, some op.field)) = e.targets names) := by
  rw [parseUpdateExpression_eq hread hwrite]
  have htargets : e.Attributable → ∃ ops,
      (parseUpdateExpressionPlan json names e.text >>= bindUpdateExpressionPlan values)
        = .ok ops ∧ ops.map (fun op => (op.kind, some op.field)) = e.targets names := by
    intro h
    simp only [parse_text_of_setOff h.head_setOff h.tail_setOff]
    rw [← map_target_attributedParts, exists_forall₂_map_eq]
    intro part hpart
    obtain ⟨op, hop, hkind, hfield⟩ := h.readsAs hres part hpart
    exact ⟨op, hop, by rw [hkind, hfield]⟩
  refine ⟨⟨?_, ?_⟩, htargets⟩
  · rintro ⟨ops, hops, hkinds⟩
    obtain ⟨plans, hplans, hbind⟩ := Except.bind_eq_ok.mp hops
    have htail : ∀ c ∈ e.tail, c.setOff false = true := by
      refine setOff_of_length_parts ?_
      rw [← hkinds, length_map, ← (Except.mapM_eq_ok.mp hbind).length_eq, ← parts_text]
      exact (length_of_parseParts hplans).symm
    have hhead : e.head.setOff true = true := by
      by_contra hhead
      exact parse_text_of_touching hhead htail hplans
    rw [parse_text_of_setOff hhead htail] at hops
    rw [← map_kind_attributedParts] at hkinds
    exact attributable_of_reads hhead htail (exists_forall₂_map_eq.mp ⟨ops, hops, hkinds⟩)
  · intro h
    obtain ⟨ops, hops, hmap⟩ := htargets h
    refine ⟨ops, hops, ?_⟩
    have hkinds := congrArg (List.map Prod.fst) hmap
    rw [map_map, ← map_target_attributedParts, map_map] at hkinds
    rw [← map_kind_attributedParts]
    exact hkinds

end Expressions

/-! ### Two expressions -/

/-- An attribute name of one letter. -/
def Identifier.letter (c : Char) (h : c.isAlpha = true) : Identifier where
  text := [c]
  ne_nil := by simp
  word := by simpa using isWordChar_of_isAlpha h
  head := by simp [h]
  not_reserved := by
    intro name hname
    have hlong : ∀ name ∈ reservedNames, name.length ≠ 1 := by decide
    exact Bool.eq_false_iff.mpr fun heq =>
      hlong name hname (length_of_eqIgnoreAsciiCase heq).symm

/-- A placeholder of one letter. -/
def Word.letter (c : Char) (h : c.isAlpha = true) : Word :=
  (Identifier.letter c h).toWord

/-- A document path that is one letter. -/
def DocPath.letter (c : Char) (h : c.isAlpha = true) : DocPath :=
  ⟨.plain (.letter c h), []⟩

/-- No layout. -/
def Layout.none : Layout := ⟨[], by simp [Blank], by simp⟩

/-- A single space. -/
def Gap.space : Gap := ⟨⟨[' '], by simp [Blank]; decide, by simp; decide⟩, by simp⟩

/-- Two string sets. -/
def setValues : AttributeMap :=
  ⟨[(text ":x", .SS [text "1"]), (text ":y", .SS [text "2"])], by decide⟩

/-- `DELETE a :x, b :y`. -/
def deleteTwice : UpdateExpressionSyntax where
  head :=
    { kind := .delete
      before := .none
      keyword := text "DELETE"
      spelled := by decide
      after := Gap.space.toLayout
      first := .deleteValue (.letter 'a' rfl) .space (.letter 'x' rfl)
      rest := [⟨.none, Gap.space.toLayout, .deleteValue (.letter 'b' rfl) .space (.letter 'y' rfl)⟩]
      separated := Or.inl (by simp [Gap.space]) }
  tail := []
  trailing := .none
  distinct := by simp
  separated := by simp

/-- **The second action of a DELETE becomes an ADD.** -/
theorem parseUpdateExpression_delete_delete :
    deleteTwice.text = text "DELETE a :x, b :y" ∧
      deleteTwice.sections = [.delete, .delete] ∧
      parseUpdateExpression .unused (some OrderedMap.empty) (some OrderedMap.empty)
          deleteTwice.text Option.none (some setValues)
        = .ok [.delete (text "a") (.SS [text "1"]), .add (text "b") (.SS [text "2"])] := by
  refine ⟨by decide, by decide, ?_⟩
  decide +kernel

/-- `SET a = :x REMOVE b, c`. -/
def setRemove : UpdateExpressionSyntax where
  head :=
    { kind := .set
      before := .none
      keyword := text "SET"
      spelled := by decide
      after := Gap.space.toLayout
      first := .assign (.letter 'a' rfl) Gap.space.toLayout Gap.space.toLayout
        (.placeholder (.letter 'x' rfl))
      rest := []
      separated := Or.inl (by simp [Gap.space]) }
  tail :=
    [{ kind := .remove
       before := Gap.space.toLayout
       keyword := text "REMOVE"
       spelled := by decide
       after := Gap.space.toLayout
       first := .drop (.letter 'b' rfl)
       rest := [⟨.none, Gap.space.toLayout, .drop (.letter 'c' rfl)⟩]
       separated := Or.inl (by simp [Gap.space]) }]
  trailing := .none
  distinct := by decide
  separated := by
    refine isChain_pair.mpr (Or.inl ?_)
    simp [Gap.space]

theorem setRemove_attributable : setRemove.Attributable where
  head_setOff := by decide
  tail_setOff := by
    intro c hc
    obtain rfl := mem_singleton.mp hc
    decide
  delete_single := by simp [setRemove, clauses]
  spaced := by
    simp [setRemove, clauses, actions, Action.Spaced]

theorem setRemove_resolves : setRemove.Resolves .unused Option.none (some setValues) := by
  intro c hc action haction
  rcases mem_cons.mp hc with rfl | hc
  · obtain rfl := mem_singleton.mp haction
    exact ⟨rfl, setValues, rfl, rfl⟩
  · obtain rfl := mem_singleton.mp hc
    rcases mem_cons.mp haction with rfl | haction
    · rfl
    · obtain rfl := mem_singleton.mp haction
      rfl

/-- The attribution at `SET a = :x REMOVE b, c`, with empty caches. -/
theorem parseUpdateExpression_attribution_setRemove :
    ∃ ops, parseUpdateExpression .unused (some OrderedMap.empty) (some OrderedMap.empty)
        (text "SET a = :x REMOVE b, c") Option.none (some setValues) = .ok ops ∧
      ops.map UpdateOperation.kind = [.set, .remove, .remove] := by
  have hempty : PlanCache.Reachable .unused (some OrderedMap.empty) := .empty
  have h := parseUpdateExpression_attribution hempty hempty setRemove setRemove_resolves
  exact h.1.mpr setRemove_attributable

end AuxStorage
