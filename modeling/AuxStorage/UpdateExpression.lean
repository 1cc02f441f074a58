import AuxStorage.AttributeValue
import AuxStorage.Lib.Str

/-!
# Parsing Update Expressions

The parser of update expressions: the section keywords are normalised, the text is cut
into parts at top-level commas and section keywords, and every part is read as one
operation. A part that begins with a keyword is an operation of that section; the kind of
any other part is guessed from the characters it contains.

The document paths and value expressions inside a part are resolved against the attribute
names of the request. Literal values are read by an external JSON reader, which is a
parameter (`JsonReader`).
-/

namespace AuxStorage

open Str
open List

/-! ### Document paths -/

/-- The characters of a path after `#`, up to the next document-path punctuation. -/
def aliasEnd (c : Char) : Bool :=
  c == '.' || c == '['

/-- `resolve_path_aliases`: replaces each `#alias` of a path by its attribute name. -/
def resolvePathAliases (names : VecMap Text Text) : Text → Except StorageError Text
  | [] => pure []
  | ch :: rest =>
    if ch ≠ '#' then do
      let resolved ← resolvePathAliases names rest
      pure (ch :: resolved)
    else do
      let placeholder := ch :: rest.takeWhile (!aliasEnd ·)
      let value ← okOr (.validation (text "Attribute name " ++ placeholder
        ++ text " not found in ExpressionAttributeNames")) (names.get placeholder)
      if value.any (fun c => c == '.' || c == '[' || c == ']') then
        .error (.validation (text
          "UpdateExpression aliases containing document-path punctuation are not supported"))
      else do
        let resolved ← resolvePathAliases names (rest.dropWhile (!aliasEnd ·))
        pure (value ++ resolved)
termination_by path => path.length
decreasing_by
  · simp
  · simpa using Nat.lt_succ_of_le (length_dropWhile_le _ rest)

def resolveDocumentPath (names : Option (VecMap Text Text)) (path : Text) :
    Except StorageError Text :=
  if '#' ∉ path then pure path
  else match names with
    | none => .error (.validation (text "Attribute name " ++ path
        ++ text " requires ExpressionAttributeNames"))
    | some names => resolvePathAliases names path

/-! ### Value expressions -/

/-- The operators of a SET. -/
inductive ArithmeticOperator where
  | add
  | subtract
  deriving DecidableEq, Repr

/-- `UpdateValuePlan`: a value expression before the request's values are known. -/
inductive UpdateValuePlan where
  | placeholder (name : Text)
  | literal (value : AttributeValue)
  | path (path : Text)
  | ifNotExists (path : Text) (operand : UpdateValuePlan)
  | listAppend (operand1 operand2 : UpdateValuePlan)
  | arithmetic (lhs : UpdateValuePlan) (operator : ArithmeticOperator)
      (rhs : UpdateValuePlan)
  deriving DecidableEq, Repr

/-- `SetFunctionPlan`: a function call, which only SET accepts. -/
inductive SetFunctionPlan where
  | ifNotExists (path : Text) (operand : UpdateValuePlan)
  | listAppend (operand1 operand2 : UpdateValuePlan)
  deriving DecidableEq, Repr

/-- `into_ok_plan`: a function call used as an operand. -/
def SetFunctionPlan.intoOkPlan : SetFunctionPlan → UpdateValuePlan
  | .ifNotExists path operand => .ifNotExists path operand
  | .listAppend operand1 operand2 => .listAppend operand1 operand2

/-- A resolved value expression: a plain value or a function call. -/
inductive ResolvedValue where
  | value (plan : UpdateValuePlan)
  | function (call : SetFunctionPlan)
  deriving DecidableEq, Repr

/-- `into_ok_plan` of a resolved value expression. -/
def ResolvedValue.intoOkPlan : ResolvedValue → UpdateValuePlan
  | .value plan => plan
  | .function call => call.intoOkPlan

/-- A JSON value, as far as literals of update expressions look at it. -/
inductive JsonValue where
  | string (value : Text)
  /-- A number with its `as_i64` value, its `as_f64` text and its own text. -/
  | number (asI64 : Option ℤ) (asF64 : Option Text) (display : Text)
  | bool (value : Bool)
  | other

/-- The JSON reader `serde_json::from_str`. No JSON text begins with an underscore. -/
structure JsonReader where
  read : Text → Option JsonValue
  read_underscore : ∀ rest, read ('_' :: rest) = none

/-- A JSON reader that is asked for no literal. -/
def JsonReader.unused : JsonReader := ⟨fun _ => none, fun _ => rfl⟩

/-- The state of a scan for a top-level character: the depth of open parentheses, and
whether the scan is inside a string literal or behind a backslash there. -/
structure ScanState where
  parenDepth : ℕ
  inString : Bool
  escaped : Bool
  deriving DecidableEq, Repr

/-- The state at the beginning of a scan. -/
def ScanState.start : ScanState := ⟨0, false, false⟩

/-- The state after a character of a string literal. -/
def ScanState.stringChar (s : ScanState) (ch : Char) : ScanState :=
  let escaped := ch == '\\' && !s.escaped
  let inString := !(ch == '"' && !escaped)
  { s with inString := inString, escaped := if ch ≠ '\\' then false else escaped }

/-- The state after a character outside string literals. -/
def ScanState.plainChar (s : ScanState) (ch : Char) : ScanState :=
  if ch = '"' then { s with inString := true }
  else if ch = '(' then { s with parenDepth := s.parenDepth + 1 }
  else if ch = ')' then { s with parenDepth := s.parenDepth - 1 }
  else s

/-- The scan of `split_top_level_arithmetic` behind the characters `before`. -/
def arithmeticScan (s : ScanState) (before : Text) :
    Text → Option (Text × ArithmeticOperator × Text)
  | [] => none
  | ch :: rest =>
    if s.inString then arithmeticScan (s.stringChar ch) (before ++ [ch]) rest
    else if (ch = '+' ∨ ch = '-') ∧ s.parenDepth = 0 ∧ before ≠ [] then
      let lhs := trim before
      let rhs := trim rest
      if lhs = [] ∨ rhs = [] then none
      else some (lhs, if ch = '+' then .add else .subtract, rhs)
    else arithmeticScan (s.plainChar ch) (before ++ [ch]) rest

/-- The first operator outside of parentheses, with its sides. -/
def splitTopLevelArithmetic (valueExpr : Text) : Option (Text × ArithmeticOperator × Text) :=
  arithmeticScan .start [] valueExpr

/-- The scan of `split_top_level_comma_pair` behind the characters `before`, with the
parts around the comma once one was found. -/
def commaPairScan (s : ScanState) (before : Text) (comma : Option (Text × Text)) :
    Text → Option (Text × Text)
  | [] => comma
  | ch :: rest =>
    if s.inString then commaPairScan (s.stringChar ch) (before ++ [ch]) comma rest
    else if ch = ',' ∧ s.parenDepth = 0 then
      if comma.isSome then none
      else commaPairScan (s.plainChar ch) (before ++ [ch]) (some (before, rest)) rest
    else commaPairScan (s.plainChar ch) (before ++ [ch]) comma rest

/-- The two arguments of a function. -/
def splitTopLevelCommaPair (value : Text) : Option (Text × Text) :=
  commaPairScan .start [] none value

def isDocumentPathExpression (valueExpr : Text) : Bool :=
  let valueExpr := trim valueExpr
  if valueExpr.head? = some '#' ∨ '.' ∈ valueExpr ∨ '[' ∈ valueExpr then true
  else match valueExpr with
    | [] => false
    | first :: _ =>
      first.isAlpha && !(valueExpr == text "true" || valueExpr == text "false"
        || valueExpr == text "null")
        && !(text "if_not_exists(").isPrefixOf valueExpr
        && !(text "list_append(").isPrefixOf valueExpr

/-- The literal a JSON text stands for. -/
def literalValue (valueExpr : Text) : JsonValue → Except StorageError AttributeValue
  | .string s => pure (.S s)
  | .number (some i) _ _ => pure (.N (toString i).toList)
  | .number none (some f) _ => pure (.N f)
  | .number none none display =>
    .error (.validation (text "Invalid number: " ++ display))
  | .bool b => pure (.BOOL b)
  | .other => .error (.validation (text "Unsupported literal value: " ++ valueExpr))

/-! ### Slices of a value expression are shorter -/

/-- What is trimmed is not longer. -/
theorem length_trim_le (t : Text) : (trim t).length ≤ t.length := by
  rw [trim, List.rdropWhile, length_reverse]
  calc _ ≤ (t.dropWhile isWhitespace).reverse.length := length_dropWhile_le _ _
    _ = (t.dropWhile isWhitespace).length := length_reverse
    _ ≤ t.length := length_dropWhile_le _ _

variable {operator : ArithmeticOperator}

/-- Both operands found by the arithmetic scan are shorter than the scanned text. -/
theorem arithmeticScan_length {s : ScanState} {before rest lhs rhs : Text}
    (h : arithmeticScan s before rest = some (lhs, operator, rhs)) :
    lhs.length < before.length + rest.length ∧ rhs.length < before.length + rest.length := by
  induction rest generalizing s before with
  | nil => cases h
  | cons ch rest ih =>
    rw [arithmeticScan] at h
    have hgrow : (before ++ [ch]).length + rest.length
        = before.length + (ch :: rest).length := by
      simp only [length_append, length_cons, length_nil]
      omega
    split at h
    · rw [← hgrow]
      exact ih h
    · split at h
      · rename_i hop
        simp only [Option.ite_none_left_eq_some, Option.some.injEq, Prod.mk.injEq] at h
        obtain ⟨-, rfl, -, rfl⟩ := h
        have hbefore : 0 < before.length := length_pos_of_ne_nil hop.2.2
        have hl := length_trim_le before
        have hr := length_trim_le rest
        simp only [length_cons]
        omega
      · rw [← hgrow]
        exact ih h

/-- The sides of an operator are shorter. -/
theorem splitTopLevelArithmetic_length {valueExpr lhs rhs : Text}
    (h : splitTopLevelArithmetic valueExpr = some (lhs, operator, rhs)) :
    lhs.length < valueExpr.length ∧ rhs.length < valueExpr.length := by
  simpa using arithmeticScan_length h

/-- Both arguments found by the comma scan are no longer than the scanned text. -/
theorem commaPairScan_length {s : ScanState} {before rest a b : Text}
    {comma : Option (Text × Text)} (hcomma : ∀ p ∈ comma,
      p.1.length ≤ before.length + rest.length ∧ p.2.length ≤ before.length + rest.length)
    (h : commaPairScan s before comma rest = some (a, b)) :
    a.length ≤ before.length + rest.length ∧ b.length ≤ before.length + rest.length := by
  induction rest generalizing s before comma with
  | nil => exact hcomma (a, b) h
  | cons ch rest ih =>
    rw [commaPairScan] at h
    have hgrow : (before ++ [ch]).length + rest.length
        = before.length + (ch :: rest).length := by
      simp only [length_append, length_cons, length_nil]
      omega
    split at h
    · rw [← hgrow] at hcomma ⊢
      exact ih hcomma h
    · split at h
      · split at h
        · cases h
        · rw [← hgrow]
          refine ih (fun p hp => ?_) h
          cases hp
          simp only [length_append]
          omega
      · rw [← hgrow] at hcomma ⊢
        exact ih hcomma h

/-- Both arguments of a function are no longer than its argument list. -/
theorem splitTopLevelCommaPair_length {value a b : Text}
    (h : splitTopLevelCommaPair value = some (a, b)) :
    a.length ≤ value.length ∧ b.length ≤ value.length := by
  simpa using commaPairScan_length (by simp) h

/-- The argument list of `name(..)`, when the expression is such a call. -/
def callArguments (name valueExpr : Text) : Option Text :=
  (stripPrefix (name ++ ['(']) valueExpr).bind (stripSuffix [')'])

/-- The arguments of a call are shorter. -/
theorem callArguments_length {name valueExpr inner : Text}
    (h : callArguments name valueExpr = some inner) : inner.length < valueExpr.length := by
  obtain ⟨rest, hrest, hinner⟩ := Option.bind_eq_some_iff.mp h
  rw [stripPrefix] at hrest
  rw [stripSuffix] at hinner
  split at hrest
  · rename_i hpre
    split at hinner
    · cases hrest
      cases hinner
      have hle := (List.isPrefixOf_iff_prefix.mp hpre).length_le
      simp only [length_append, length_singleton] at hle
      simp only [length_take, length_drop, length_append, length_singleton]
      omega
    · cases hinner
  · cases hrest

theorem callArgument_length {name valueExpr inner argument : Text}
    (h : callArguments name valueExpr = some inner) (hargument : argument.length ≤ inner.length) :
    (trim argument).length < valueExpr.length := by
  have hinner := callArguments_length h
  have htrim := length_trim_le argument
  omega

/-! ### Resolving a value expression -/

/-- The error of a function that is not given two arguments. -/
def arityError (name valueExpr : Text) : StorageError :=
  .validation (name ++ text " requires exactly 2 arguments: " ++ valueExpr)

/-- The end of `resolve_attribute_value_plan`: an expression that is neither arithmetic, nor
a placeholder, nor a call is a document path or a JSON literal. -/
def atomValuePlan (json : JsonReader) (names : Option (VecMap Text Text))
    (valueExpr : Text) : Except StorageError ResolvedValue :=
  if isDocumentPathExpression valueExpr then do
    let path ← resolveDocumentPath names (trim valueExpr)
    pure (.value (.path path))
  else match json.read valueExpr with
    | some jsonValue => do
        let value ← literalValue valueExpr jsonValue
        pure (.value (.literal value))
    | none =>
      if valueExpr.head? = some '\x7b' ∨ valueExpr.head? = some '['
          ∨ valueExpr.head? = some '"' then
        .error (.validation (text "Invalid value expression: " ++ valueExpr))
      else do
        let path ← resolveDocumentPath names (trim valueExpr)
        pure (.value (.path path))

/-- The plan of a value expression. -/
def resolveAttributeValuePlan (json : JsonReader) (names : Option (VecMap Text Text))
    (valueExpr : Text) : Except StorageError ResolvedValue :=
  match _harith : splitTopLevelArithmetic valueExpr with
  | some (lhs, operator, rhs) => do
      let lhs ← resolveAttributeValuePlan json names lhs
      let rhs ← resolveAttributeValuePlan json names rhs
      pure (.value (.arithmetic lhs.intoOkPlan operator rhs.intoOkPlan))
  | none =>
    if valueExpr.head? = some ':' then pure (.value (.placeholder valueExpr))
    else match _hine : callArguments (text "if_not_exists") valueExpr with
    | some inner =>
      match _hpair : splitTopLevelCommaPair inner with
      | none => .error (arityError (text "if_not_exists") valueExpr)
      | some (pathPart, operandPart) => do
          let path ← resolveDocumentPath names (trim pathPart)
          let operand ← resolveAttributeValuePlan json names (trim operandPart)
          pure (.function (.ifNotExists path operand.intoOkPlan))
    | none =>
      match _happ : callArguments (text "list_append") valueExpr with
      | some inner =>
        match _hpair : splitTopLevelCommaPair inner with
        | none => .error (arityError (text "list_append") valueExpr)
        | some (op1Part, op2Part) => do
            let operand1 ← resolveAttributeValuePlan json names (trim op1Part)
            let operand2 ← resolveAttributeValuePlan json names (trim op2Part)
            pure (.function (.listAppend operand1.intoOkPlan operand2.intoOkPlan))
      | none =>
        atomValuePlan json names valueExpr
termination_by valueExpr.length
decreasing_by
  · exact (splitTopLevelArithmetic_length ‹_›).1
  · exact (splitTopLevelArithmetic_length ‹_›).2
  · exact callArgument_length ‹_› (splitTopLevelCommaPair_length ‹_›).2
  · exact callArgument_length ‹_› (splitTopLevelCommaPair_length ‹_›).1
  · exact callArgument_length ‹_› (splitTopLevelCommaPair_length ‹_›).2

/-! One equation for each branch of the resolution. -/

section Branches

variable (json : JsonReader) (names : Option (VecMap Text Text)) {valueExpr : Text}

theorem resolveAttributeValuePlan_arithmetic {lhs rhs : Text}
    (h : splitTopLevelArithmetic valueExpr = some (lhs, operator, rhs)) :
    resolveAttributeValuePlan json names valueExpr = (do
      let lhs ← resolveAttributeValuePlan json names lhs
      let rhs ← resolveAttributeValuePlan json names rhs
      pure (.value (.arithmetic lhs.intoOkPlan operator rhs.intoOkPlan))) := by
  rw [resolveAttributeValuePlan]
  split <;> simp_all

variable (harith : splitTopLevelArithmetic valueExpr = none)
include harith

theorem resolveAttributeValuePlan_placeholder (hhead : valueExpr.head? = some ':') :
    resolveAttributeValuePlan json names valueExpr = .ok (.value (.placeholder valueExpr)) := by
  rw [resolveAttributeValuePlan]
  split <;> simp_all [pure, Except.pure]

variable (hhead : valueExpr.head? ≠ some ':')
include hhead

theorem resolveAttributeValuePlan_ifNotExists_arity {inner : Text}
    (hcall : callArguments (text "if_not_exists") valueExpr = some inner)
    (hpair : splitTopLevelCommaPair inner = none) :
    resolveAttributeValuePlan json names valueExpr
      = .error (arityError (text "if_not_exists") valueExpr) := by
  rw [resolveAttributeValuePlan]
  split
  · simp_all
  · rw [if_neg hhead]
    split
    · split <;> simp_all
    · simp_all

theorem resolveAttributeValuePlan_ifNotExists {inner pathPart operandPart : Text}
    (hcall : callArguments (text "if_not_exists") valueExpr = some inner)
    (hpair : splitTopLevelCommaPair inner = some (pathPart, operandPart)) :
    resolveAttributeValuePlan json names valueExpr = (do
      let path ← resolveDocumentPath names (trim pathPart)
      let operand ← resolveAttributeValuePlan json names (trim operandPart)
      pure (.function (.ifNotExists path operand.intoOkPlan))) := by
  rw [resolveAttributeValuePlan]
  split
  · simp_all
  · rw [if_neg hhead]
    split
    · split <;> simp_all
    · simp_all

variable (hine : callArguments (text "if_not_exists") valueExpr = none)
include hine

theorem resolveAttributeValuePlan_listAppend_arity {inner : Text}
    (hcall : callArguments (text "list_append") valueExpr = some inner)
    (hpair : splitTopLevelCommaPair inner = none) :
    resolveAttributeValuePlan json names valueExpr
      = .error (arityError (text "list_append") valueExpr) := by
  rw [resolveAttributeValuePlan]
  split
  · simp_all
  · rw [if_neg hhead]
    split
    · simp_all
    · split
      · split <;> simp_all
      · simp_all

theorem resolveAttributeValuePlan_listAppend {inner op1Part op2Part : Text}
    (hcall : callArguments (text "list_append") valueExpr = some inner)
    (hpair : splitTopLevelCommaPair inner = some (op1Part, op2Part)) :
    resolveAttributeValuePlan json names valueExpr = (do
      let operand1 ← resolveAttributeValuePlan json names (trim op1Part)
      let operand2 ← resolveAttributeValuePlan json names (trim op2Part)
      pure (.function (.listAppend operand1.intoOkPlan operand2.intoOkPlan))) := by
  rw [resolveAttributeValuePlan]
  split
  · simp_all
  · rw [if_neg hhead]
    split
    · simp_all
    · split
      · split <;> simp_all
      · simp_all

variable (happ : callArguments (text "list_append") valueExpr = none)
include happ

/-- An expression that is neither arithmetic, nor a placeholder, nor a call. -/
theorem resolveAttributeValuePlan_atom :
    resolveAttributeValuePlan json names valueExpr = atomValuePlan json names valueExpr := by
  rw [resolveAttributeValuePlan]
  split
  · simp_all
  · rw [if_neg hhead]
    split
    · simp_all
    · split
      · simp_all
      · rfl

end Branches

/-! ### Section keywords -/

/-- The section keywords, in the order they are tried. -/
def sectionKeywords : List Text :=
  [text "SET", text "REMOVE", text "ADD", text "DELETE"]

/-- The loop of `update_section_keyword_at`: a text too short for a keyword, or cut inside
a character, ends the whole search. -/
def findSectionKeyword (remaining : Text) : List Text → Option (Text × ℕ)
  | [] => none
  | keyword :: keywords =>
    match splitAtBytes keyword.length remaining with
    | none => none
    | some (candidate, afterKeyword) =>
      if eqIgnoreAsciiCase candidate keyword
          ∧ afterKeyword.head?.any isWhitespace then some (keyword, keyword.length)
      else findSectionKeyword remaining keywords

/-- `update_section_keyword_at`: the keyword at the beginning of `remaining`, with its
length, given the character before it. -/
def updateSectionKeywordAt (previous : Option Char) (remaining : Text) : Option (Text × ℕ) :=
  if previous.any fun c => !isWhitespace c && c != ',' then none
  else findSectionKeyword remaining sectionKeywords

/-- The normalised text with a keyword behind it: one space before the keyword, unless it
is the first one or follows a comma, and one space after it. -/
def pushKeyword (normalized keyword : Text) : Text :=
  let trimmed := normalized.rdropWhile isWhitespace
  let spaced := if trimmed ≠ [] ∧ trimmed.getLast? ≠ some ',' then trimmed ++ [' '] else trimmed
  spaced ++ keyword ++ [' ']

/-- The loop of `normalize_update_section_keywords`, at the text `rest` behind the
character `previous`. -/
def normalizeLoop (previous : Option Char) (parenDepth : ℕ) (normalized : Text)
    (rest : Text) : Text :=
  match rest with
  | [] => normalized
  | ch :: tail =>
    if ch = '(' then normalizeLoop (some ch) (parenDepth + 1) (normalized ++ [ch]) tail
    else if ch = ')' then
      normalizeLoop (some ch) (parenDepth - 1) (normalized ++ [ch]) tail
    else if parenDepth = 0 then
      match updateSectionKeywordAt previous (ch :: tail) with
      | some (keyword, consumed) =>
        let after := tail.drop (consumed - 1)
        normalizeLoop (after.takeWhile isWhitespace).getLast? parenDepth
          (pushKeyword normalized keyword) (after.dropWhile isWhitespace)
      | none => normalizeLoop (some ch) parenDepth (normalized ++ [ch]) tail
    else normalizeLoop (some ch) parenDepth (normalized ++ [ch]) tail
termination_by rest.length
decreasing_by
  · simp
  · simp
  · have h := length_dropWhile_le isWhitespace (tail.drop (consumed - 1))
    rw [length_drop] at h
    rw [length_cons]
    omega
  · simp
  · simp

def normalizeUpdateSectionKeywords (expression : Text) : Text :=
  normalizeLoop none 0 [] expression

/-! ### Parts -/

/-- `UPDATE_SECTION_KEYWORDS`: the pattern that begins a section, and the text of the part
it begins. -/
def updateSectionPatterns : List (Text × Text) :=
  [(text " SET ", text "SET "), (text " REMOVE ", text "REMOVE "),
    (text " ADD ", text "ADD "), (text " DELETE ", text "DELETE ")]

def splitKeyword (rest : Text) : Option (Text × ℕ) :=
  (updateSectionPatterns.find? fun entry => entry.1.isPrefixOf rest).map
    fun entry => (entry.2, entry.1.length)

/-- A collected part, trimmed; an empty part is dropped. -/
def emitPart (current : Text) : List Text :=
  if trim current = [] then [] else [trim current]

/-- The loop of `split_operation_parts_preserving_functions`, with the part collected so
far. -/
def splitLoop (parenDepth : ℤ) (current : Text) (rest : Text) : List Text :=
  match rest with
  | [] => emitPart current
  | ch :: tail =>
    if ch = '(' then splitLoop (parenDepth + 1) (current ++ [ch]) tail
    else if ch = ')' then splitLoop (parenDepth - 1) (current ++ [ch]) tail
    else if ch = ',' then
      if parenDepth = 0 then emitPart current ++ splitLoop parenDepth [] tail
      else splitLoop parenDepth (current ++ [ch]) tail
    else if parenDepth = 0 ∧ ch = ' ' then
      match splitKeyword (ch :: tail) with
      | some (keyword, advance) =>
        emitPart current ++ splitLoop parenDepth keyword (tail.drop (advance - 1))
      | none => splitLoop parenDepth (current ++ [ch]) tail
    else splitLoop parenDepth (current ++ [ch]) tail
termination_by rest.length
decreasing_by all_goals simp

def splitOperationPartsPreservingFunctions (expression : Text) : List Text :=
  splitLoop 0 [] expression

/-! ### Operations -/

inductive UpdateOperationPlan where
  | set (field : Text) (value : UpdateValuePlan)
  | add (field : Text) (value : UpdateValuePlan)
  | remove (field : Text)
  | delete (field : Text) (value : UpdateValuePlan)
  deriving DecidableEq, Repr

/-- The sides of an assignment. -/
def splitAssignment (assignment : Text) : Option (Text × Text) :=
  (splitOnce '=' assignment).map fun parts => (trim parts.1, trim parts.2)

/-- `push_set_operation_plan`: the pushed operation. -/
def setOperationPlan (json : JsonReader) (names : Option (VecMap Text Text))
    (field valueExpr : Text) : Except StorageError UpdateOperationPlan := do
  let field ← resolveDocumentPath names field
  let value ← resolveAttributeValuePlan json names valueExpr
  pure (.set field value.intoOkPlan)

/-- The pushed operation of a `path value` part, which may not be a function call. The
ADD, DELETE and continuation branches of the parser differ in the operation they build
and in the text of their error. -/
def pathValuePlan (json : JsonReader) (names : Option (VecMap Text Text))
    (build : Text → UpdateValuePlan → UpdateOperationPlan) (message part : Text)
    (parts : Text × Text) : Except StorageError UpdateOperationPlan := do
  let field ← resolveDocumentPath names (trim parts.1)
  match ← resolveAttributeValuePlan json names (trim parts.2) with
  | .value value => pure (build field value)
  | .function _ =>
    .error (.validation (message ++ text " does not support function calls: " ++ part))

/-- A part that begins with no section keyword continues the operations before it; its
kind is guessed from the characters it contains. -/
def continuationPlan (json : JsonReader) (names : Option (VecMap Text Text))
    (isFirst : Bool) (part : Text) : Except StorageError UpdateOperationPlan :=
  let unknown := StorageError.validation (text "Unknown update operation: " ++ part)
  let couldBeContinuation : Bool :=
    ('=' ∈ part && (splitAssignment part).isSome)
      || (' ' ∈ part && '=' ∉ part && (splitOnce ' ' part).isSome)
      || (' ' ∉ part && '=' ∉ part)
  if couldBeContinuation && isFirst then .error unknown
  else if couldBeContinuation then
    if '=' ∈ part then
      match splitAssignment part with
      | some (field, valueExpr) => setOperationPlan json names field valueExpr
      | none => .error (.validation (text "Invalid SET operation continuation: " ++ part))
    else if ' ' ∈ part ∧ '=' ∉ part then
      match splitOnce ' ' part with
      | some parts =>
        pathValuePlan json names .add (text "ADD operation continuation") part parts
      | none => .error (.validation (text "Invalid ADD operation continuation: " ++ part))
    else do
      let field ← resolveDocumentPath names (trim part)
      pure (.remove field)
  else .error unknown

/-- One round of the loop of `parse_update_expression_plan`: the operation a part stands
for. `isFirst` says that no operation was read before. -/
def partPlan (json : JsonReader) (names : Option (VecMap Text Text)) (isFirst : Bool)
    (part : Text) : Except StorageError UpdateOperationPlan :=
  if part = text "SET" then
    .error (.validation (text
      "Invalid UpdateExpression: Syntax error; token: \"<EOF>\", near: \"SET\""))
  else match stripPrefix (text "SET ") part with
  | some setPart =>
    let assignment := trim setPart
    match splitAssignment assignment with
    | some (field, valueExpr) => setOperationPlan json names field valueExpr
    | none => .error (.validation (text "Invalid SET operation: " ++ assignment))
  | none =>
    match stripPrefix (text "ADD ") part with
    | some addPart =>
      let assignment := trim addPart
      match splitOnce ' ' assignment with
      | some parts => pathValuePlan json names .add (text "ADD operation") assignment parts
      | none => .error (.validation (text "Invalid ADD operation: " ++ assignment))
    | none =>
      match stripPrefix (text "REMOVE ") part with
      | some removePart => do
          let field ← resolveDocumentPath names (trim removePart)
          pure (.remove field)
      | none =>
        match stripPrefix (text "DELETE ") part with
        | some deletePart =>
          let assignment := trim deletePart
          match splitOnce ' ' assignment with
          | some parts =>
            pathValuePlan json names .delete (text "DELETE operation") assignment parts
          | none => .error (.validation (text "Invalid DELETE operation: " ++ assignment))
        | none => continuationPlan json names isFirst part

/-- The loop of `parse_update_expression_plan` over the parts. -/
def parseParts (json : JsonReader) (names : Option (VecMap Text Text))
    (operations : List UpdateOperationPlan) :
    List Text → Except StorageError (List UpdateOperationPlan)
  | [] => pure operations
  | part :: parts => do
      let operation ← partPlan json names operations.isEmpty part
      parseParts json names (operations ++ [operation]) parts

/-- The operations of an update expression. -/
def parseUpdateExpressionPlan (json : JsonReader) (names : Option (VecMap Text Text))
    (updateExpression : Text) : Except StorageError (List UpdateOperationPlan) :=
  parseParts json names []
    (splitOperationPartsPreservingFunctions
      (normalizeUpdateSectionKeywords updateExpression))

end AuxStorage
