import AuxStorage.ItemKey
import AuxStorage.Lib.Str

/-!
# Templates and Their Binding

A string of a read sequence may be a **template**: literal text, and names of inputs between braces.
The code reads it part by part, and before an operation runs the texts of the inputs are put in the
place of their names. `StringReading.Binds` says which values a string may be replaced by, without
regard to how the code goes about it.
-/

namespace AuxStorage.ReadSequence

open List
open Str

/-- What the reserved beginnings of a string make of it: the three readings that the code tries one
after the other. -/
inductive StringReading where
  | literal (string : Text)
  | marker (name : Text)
  | template (pattern : Text)
  deriving DecidableEq, Repr

/-! ### Templates -/

/-- `ReadSequenceStringTemplateError`. -/
inductive TemplateError where
  | missingInput
  | unclosedInput
  | unexpectedClosingBrace
  | invalidInput
  deriving DecidableEq, Repr

/-- `ReadSequenceStringTemplatePart`. -/
inductive TemplatePart where
  | literal (string : Text)
  | input (name : Text)
  deriving DecidableEq, Repr

/-- What separates the parts of a template. -/
def isBrace (c : Char) : Bool :=
  c == '\x7b' || c == '\x7d'

/-- A name that a template may have between braces. -/
def isInputName (name : Text) : Bool :=
  !name.isEmpty && name.all fun c => c == '_' || c.isAlphanum

/-- `ReadSequenceStringTemplateParts`: what the iterator yields from a place in the template on. An
error is the last thing it yields. -/
def templatePartsFrom (sawInput : Bool) (remaining : Text) :
    List (Except TemplateError TemplatePart) :=
  if remaining = [] then
    if sawInput then [] else [.error .missingInput]
  else
    let before := remaining.takeWhile fun c => !isBrace c
    match _hdrop : remaining.dropWhile fun c => !isBrace c with
    | [] => .ok (.literal before) :: if sawInput then [] else [.error .missingInput]
    | brace :: suffix =>
      if brace = '\x7d' then [.error .unexpectedClosingBrace]
      else
        match _hsplit : splitOnce '\x7d' suffix with
        | none => [.error .unclosedInput]
        | some (name, rest) =>
          if isInputName name then
            -- The literal before an input is only yielded once the input is known to be good.
            let parts := Except.ok (.input name) :: templatePartsFrom true rest
            if before = [] then parts else .ok (.literal before) :: parts
          else [.error .invalidInput]
termination_by remaining.length
decreasing_by
  have hle := (List.dropWhile_sublist (l := remaining) fun c => !isBrace c).length_le
  have hlt := length_splitOnce_lt _hsplit
  rw [_hdrop, List.length_cons] at hle
  omega

/-- The parts of a whole template. -/
def templateParts (template : Text) : List (Except TemplateError TemplatePart) :=
  templatePartsFrom false template

/-- The check of a template: its first error. -/
def checkTemplate (template : Text) : Except TemplateError Unit :=
  (templateParts template).forM fun part => part.map fun _ => ()

theorem exists_parts_of_checkTemplate {template : Text} (h : checkTemplate template = .ok ()) :
    ∃ parts : List TemplatePart, templateParts template = parts.map .ok := by
  rw [checkTemplate] at h
  generalize templateParts template = l at h
  induction l with
  | nil => exact ⟨[], rfl⟩
  | cons part rest ih =>
    cases part with
    | error error => cases h
    | ok p =>
      obtain ⟨parts, rfl⟩ := ih h
      exact ⟨p :: parts, rfl⟩

/-! ### Binding -/

/-- The errors of `ReadSequenceValidationError` that the binding returns. -/
inductive BindingError where
  | unknownInput (node input : Text)
  | inputType (node input expected actual : Text)
  | invalidStringTemplate (node : Text)
  deriving DecidableEq, Repr

/-- The node that the errors of the binding name. -/
def operationNode : Text := text "<operation>"

section Binding

/- The values of the inputs. -/
variable (inputs : Text → Option AttributeValue)

def partValue : Except TemplateError TemplatePart → Except BindingError Text
  | .error _ => .error (.invalidStringTemplate operationNode)
  | .ok (.literal string) => .ok string
  | .ok (.input name) =>
    match inputs name with
    | none => .error (.unknownInput operationNode name)
    | some (.S string) => .ok string
    | some value => .error (.inputType operationNode name (text "S") value.variantName)

/-- `bind_string_template`. The pass that only adds up the lengths fails where this one does. -/
def bindStringTemplate (template : Text) : Except BindingError AttributeValue :=
  match (templateParts template).mapM (partValue inputs) with
  | .error error => .error error
  | .ok parts => .ok (.S parts.flatten)

end Binding

/-! ### What a template means -/

/-- A part of a template, filled from the inputs: only a string may fill it. -/
def TemplatePart.Fills (inputs : Text → Option AttributeValue) : TemplatePart → Text → Prop
  | .literal string, filled => filled = string
  | .input name, filled => inputs name = some (.S filled)

/-- The inputs that a part names. -/
def TemplatePart.inputNames : TemplatePart → List Text
  | .literal _ => []
  | .input name => [name]

/-- What a string of the caller may be replaced by. -/
def StringReading.Binds (inputs : Text → Option AttributeValue) :
    StringReading → AttributeValue → Prop
  | .literal string, value => value = .S string
  | .marker name, value => inputs name = some value
  | .template pattern, value => ∃ parts filled, templateParts pattern = parts.map .ok ∧
      List.Forall₂ (TemplatePart.Fills inputs) parts filled ∧ value = .S filled.flatten

/-! ### What is bound -/

section Bound

variable {inputs : Text → Option AttributeValue}

theorem partValue_eq_ok {part : Except TemplateError TemplatePart} {filled : Text} :
    partValue inputs part = .ok filled ↔
      ∃ p : TemplatePart, part = .ok p ∧ p.Fills inputs filled := by
  rcases part with error | (string | name)
  · simp [partValue]
  · simp [partValue, TemplatePart.Fills, eq_comm]
  · cases hinput : inputs name with
    | none => simp [partValue, TemplatePart.Fills, hinput]
    | some value => cases value <;> simp [partValue, TemplatePart.Fills, hinput]

theorem forall₂_partValue {l : List (Except TemplateError TemplatePart)} {filled : List Text} :
    List.Forall₂ (fun part s => partValue inputs part = .ok s) l filled ↔
      ∃ parts : List TemplatePart, l = parts.map .ok ∧
        List.Forall₂ (TemplatePart.Fills inputs) parts filled := by
  constructor
  · intro h
    induction h with
    | nil => exact ⟨[], rfl, .nil⟩
    | cons hpart _ ih =>
      obtain ⟨p, rfl, hp⟩ := partValue_eq_ok.mp hpart
      obtain ⟨parts, rfl, hrest⟩ := ih
      exact ⟨p :: parts, rfl, .cons hp hrest⟩
  · rintro ⟨parts, rfl, h⟩
    rw [forall₂_map_left_iff]
    exact h.imp fun p s hp => partValue_eq_ok.mpr ⟨p, rfl, hp⟩

/-- A template is bound part by part. -/
theorem bindStringTemplate_eq_ok {pattern : Text} {value : AttributeValue} :
    bindStringTemplate inputs pattern = .ok value ↔
      (StringReading.template pattern).Binds inputs value := by
  have hmapM : ∀ {filled : List Text},
      (templateParts pattern).mapM (partValue inputs) = .ok filled ↔
        ∃ parts : List TemplatePart, templateParts pattern = parts.map .ok ∧
          List.Forall₂ (TemplatePart.Fills inputs) parts filled :=
    Except.mapM_eq_ok.trans forall₂_partValue
  rw [bindStringTemplate, StringReading.Binds]
  constructor
  · intro h
    split at h
    · cases h
    · rename_i filled hfilled
      obtain ⟨parts, hparts, hfills⟩ := hmapM.mp hfilled
      exact ⟨parts, filled, hparts, hfills, (Except.ok.inj h).symm⟩
  · rintro ⟨parts, filled, hparts, hfills, rfl⟩
    rw [hmapM.mpr ⟨parts, hparts, hfills⟩]

theorem exists_fills {parts : List TemplatePart}
    (h : ∀ name ∈ parts.flatMap TemplatePart.inputNames, ∃ string, inputs name = some (.S string)) :
    ∃ filled, List.Forall₂ (TemplatePart.Fills inputs) parts filled := by
  induction parts with
  | nil => exact ⟨[], .nil⟩
  | cons part rest ih =>
    obtain ⟨filled, hfilled⟩ := ih fun name hname =>
      h name (mem_flatMap.mpr (by
        obtain ⟨p, hp, hname⟩ := mem_flatMap.mp hname
        exact ⟨p, mem_cons_of_mem _ hp, hname⟩))
    cases part with
    | literal string => exact ⟨string :: filled, .cons rfl hfilled⟩
    | input name =>
      obtain ⟨string, hstring⟩ := h name (by simp [TemplatePart.inputNames])
      exact ⟨string :: filled, .cons hstring hfilled⟩

end Bound

end AuxStorage.ReadSequence
