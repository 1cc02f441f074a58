import AuxStorage.UpdateBinding

/-!
# The Grammar of Update Expressions

The update expressions a request may hold, as syntax trees with their layout: clauses with
a keyword in any case, comma-separated actions, document paths with aliases and indexes,
and value expressions with function calls and arithmetic. `UpdateExpressionSyntax.text`
writes an expression down.

A tree cannot be built with an ill-formed token: names, placeholders, indexes and layout
carry the conditions on their characters.

## Main definitions

* `UpdateExpressionSyntax`: an expression, with each section at most once.
* `UpdateExpressionSyntax.Resolves`: the request defines what the expression refers to.
* `UpdateExpressionSyntax.sections`: the sections of its actions, in order.
-/

namespace AuxStorage

open Str

/-! ### Tokens -/

/-- The characters of names. -/
def isWordChar (c : Char) : Bool :=
  c.isAlphanum || c == '_'

/-- The characters of document paths. -/
def isPathChar (c : Char) : Bool :=
  isWordChar c || c == '#' || c == '.' || c == '[' || c == ']'

/-- A nonempty word: the name of an alias or of a placeholder. -/
structure Word where
  text : Text
  ne_nil : text ≠ []
  word : ∀ c ∈ text, isWordChar c = true

/-- The words with a meaning of their own in update expressions. They are reserved, in any
case, and are no attribute names. -/
def reservedNames : List Text :=
  sectionKeywords ++ [text "TRUE", text "FALSE", text "NULL"]

/-- An attribute name written without alias. -/
structure Identifier extends Word where
  head : ∀ c ∈ text.head?, c.isAlpha = true ∨ c = '_'
  not_reserved : ∀ name ∈ reservedNames, eqIgnoreAsciiCase text name = false

/-- White space between tokens. -/
structure Layout where
  text : Text
  blank : Blank text
  ascii : ∀ c ∈ text, c.utf8Size = 1

/-- The decimal digits of a list index or a number. -/
structure Digits where
  text : Text
  ne_nil : text ≠ []
  digit : ∀ c ∈ text, c.isDigit = true

/-! ### Document paths -/

/-- A name in a document path. -/
inductive PathName where
  | plain (name : Identifier)
  | alias (word : Word)

/-- A name as it is written. -/
def PathName.text : PathName → Text
  | .plain name => name.text
  | .alias word => '#' :: word.text

/-- A step into a document. -/
inductive PathStep where
  | field (name : PathName)
  | index (digits : Digits)

/-- A step as it is written. -/
def PathStep.text : PathStep → Text
  | .field name => '.' :: name.text
  | .index digits => '[' :: digits.text ++ [']']

/-- A document path. -/
structure DocPath where
  root : PathName
  steps : List PathStep

/-- A document path as it is written. -/
def DocPath.text (p : DocPath) : Text :=
  p.root.text ++ p.steps.flatMap PathStep.text

/-! ### Value expressions -/

/-- A literal: a number or a quoted word. -/
inductive LiteralSyntax where
  | number (digits : Digits)
  | string (word : Text) (word_chars : ∀ c ∈ word, isWordChar c = true)

/-- A literal as it is written. -/
def LiteralSyntax.text : LiteralSyntax → Text
  | .number digits => digits.text
  | .string word _ => '"' :: word ++ ['"']

/-- An arithmetic operator as it is written. -/
def ArithmeticOperator.symbol : ArithmeticOperator → Char
  | .add => '+'
  | .subtract => '-'

/-- Value expressions. The index says whether the expression may be arithmetic at its top:
the left operand of an operator may not. -/
inductive Operand : Bool → Type where
  | placeholder {top : Bool} (word : Word) : Operand top
  | path {top : Bool} (path : DocPath) : Operand top
  | literal {top : Bool} (value : LiteralSyntax) : Operand top
  | ifNotExists {top : Bool} (l₁ : Layout) (path : DocPath) (l₂ l₃ : Layout)
      (operand : Operand true) (l₄ : Layout) : Operand top
  | listAppend {top : Bool} (l₁ : Layout) (operand1 : Operand true) (l₂ l₃ : Layout)
      (operand2 : Operand true) (l₄ : Layout) : Operand top
  | arithmetic (lhs : Operand false) (l₁ : Layout) (operator : ArithmeticOperator)
      (l₂ : Layout) (rhs : Operand true) : Operand true

/-- The name of the function `if_not_exists`. -/
def ifNotExistsName : Text := text "if_not_exists"

/-- The name of the function `list_append`. -/
def listAppendName : Text := text "list_append"

/-- The call of a function with two arguments, as it is written. -/
def callText (name : Text) (l₁ : Layout) (first : Text) (l₂ l₃ : Layout) (second : Text)
    (l₄ : Layout) : Text :=
  name ++ '(' :: (l₁.text ++ first ++ l₂.text ++ ',' :: (l₃.text ++ second ++ l₄.text))
    ++ [')']

/-- A value expression as it is written. -/
def Operand.text {top : Bool} (o : Operand top) : Text :=
  match o with
  | .placeholder word => ':' :: word.text
  | .path p => p.text
  | .literal value => value.text
  | .ifNotExists l₁ p l₂ l₃ operand l₄ =>
    callText ifNotExistsName l₁ p.text l₂ l₃ operand.text l₄
  | .listAppend l₁ operand1 l₂ l₃ operand2 l₄ =>
    callText listAppendName l₁ operand1.text l₂ l₃ operand2.text l₄
  | .arithmetic lhs l₁ operator l₂ rhs =>
    lhs.text ++ (l₁.text ++ operator.symbol :: (l₂.text ++ rhs.text))

/-! ### What an expression refers to -/

/-- The attribute name a path name stands for. Aliases of names with document-path
punctuation are not supported. -/
def PathName.resolve (names : Option (VecMap Text Text)) : PathName → Option Text
  | .plain name => some name.text
  | .alias word => (lookupName names ('#' :: word.text)).filter fun value =>
    !value.any fun c => c == '.' || c == '[' || c == ']'

/-- The step a written step stands for. -/
def PathStep.resolve (names : Option (VecMap Text Text)) : PathStep → Option Text
  | .field name => (name.resolve names).map ('.' :: ·)
  | .index digits => some ('[' :: digits.text ++ [']'])

/-- The document path a written path stands for. -/
def DocPath.resolve (names : Option (VecMap Text Text)) (p : DocPath) : Option Text := do
  let root ← p.root.resolve names
  let steps ← p.steps.mapM (PathStep.resolve names)
  pure (root ++ steps.flatten)

/-- The request defines every alias and every placeholder of a value expression, and its
literals are JSON. -/
def Operand.Resolves (json : JsonReader) (names : Option (VecMap Text Text))
    (values : Option AttributeMap) : {top : Bool} → Operand top → Prop
  | _, .placeholder word => ∃ values' ∈ values, (values'.get (':' :: word.text)).isSome
  | _, .path p => (p.resolve names).isSome
  | _, .literal value => ∃ jsonValue ∈ json.read value.text, ∃ literal,
      literalValue value.text jsonValue = .ok literal
  | _, .ifNotExists _ p _ _ operand _ =>
    (p.resolve names).isSome ∧ operand.Resolves json names values
  | _, .listAppend _ operand1 _ _ operand2 _ =>
    operand1.Resolves json names values ∧ operand2.Resolves json names values
  | _, .arithmetic lhs _ _ _ rhs =>
    lhs.Resolves json names values ∧ rhs.Resolves json names values

/-! ### Actions, clauses, expressions -/

/-- The sections of an update expression. -/
inductive UpdateSection where
  | set
  | remove
  | add
  | delete
  deriving DecidableEq, Repr

/-- The keyword of a section. -/
def UpdateSection.keyword : UpdateSection → Text
  | .set => AuxStorage.text "SET"
  | .remove => AuxStorage.text "REMOVE"
  | .add => AuxStorage.text "ADD"
  | .delete => AuxStorage.text "DELETE"

/-- The white space between the path and the value of an action. -/
structure Gap extends Layout where
  ne_nil : text ≠ []

/-- An action, in the shape of its section. -/
inductive Action : UpdateSection → Type where
  | assign (path : DocPath) (l₁ l₂ : Layout) (value : Operand true) : Action .set
  | drop (path : DocPath) : Action .remove
  | addValue (path : DocPath) (gap : Gap) (value : Word) : Action .add
  | deleteValue (path : DocPath) (gap : Gap) (value : Word) : Action .delete

/-- The target of an action. -/
def Action.path : {kind : UpdateSection} → Action kind → DocPath
  | _, .assign path _ _ _ => path
  | _, .drop path => path
  | _, .addValue path _ _ => path
  | _, .deleteValue path _ _ => path

/-- The request defines what an action refers to. -/
def Action.Resolves (json : JsonReader) (names : Option (VecMap Text Text))
    (values : Option AttributeMap) : {kind : UpdateSection} → Action kind → Prop
  | _, .assign p _ _ value => (p.resolve names).isSome ∧ value.Resolves json names values
  | _, .drop p => (p.resolve names).isSome
  | _, .addValue p _ value => (p.resolve names).isSome ∧
      ∃ values' ∈ values, (values'.get (':' :: value.text)).isSome
  | _, .deleteValue p _ value => (p.resolve names).isSome ∧
      ∃ values' ∈ values, (values'.get (':' :: value.text)).isSome

/-- What an action writes behind its target. -/
def Action.tail : {kind : UpdateSection} → Action kind → Text
  | _, .assign _ l₁ l₂ value => l₁.text ++ '=' :: (l₂.text ++ value.text)
  | _, .drop _ => []
  | _, .addValue _ gap value => gap.text ++ ':' :: value.text
  | _, .deleteValue _ gap value => gap.text ++ ':' :: value.text

/-- An action as it is written. -/
def Action.text {kind : UpdateSection} (action : Action kind) : Text :=
  action.path.text ++ action.tail

/-- A further action of a clause: the layout around the comma, and the action. -/
structure NextAction (kind : UpdateSection) where
  l₁ : Layout
  l₂ : Layout
  action : Action kind

/-- A further action as it is written. -/
def NextAction.text {kind : UpdateSection} (next : NextAction kind) : Text :=
  next.l₁.text ++ ',' :: (next.l₂.text ++ next.action.text)

/-- A clause: a keyword in any case, and a nonempty list of actions. The keyword may touch
an alias behind it. -/
structure Clause where
  kind : UpdateSection
  before : Layout
  keyword : Text
  spelled : eqIgnoreAsciiCase keyword kind.keyword = true
  after : Layout
  first : Action kind
  rest : List (NextAction kind)
  separated : after.text ≠ [] ∨ first.text.head? = some '#'

/-- The actions of a clause as they are written. -/
def Clause.body (c : Clause) : Text :=
  c.first.text ++ c.rest.flatMap NextAction.text

/-- A clause as it is written. -/
def Clause.text (c : Clause) : Text :=
  c.before.text ++ c.keyword ++ c.after.text ++ c.body

/-- The actions of a clause, in order. -/
def Clause.actions (c : Clause) : List (Action c.kind) :=
  c.first :: c.rest.map NextAction.action

/-- A keyword may touch the clause before it only behind a closing bracket. -/
def Clause.Follows (c previous : Clause) : Prop :=
  c.before.text ≠ [] ∨ previous.text.getLast? = some ')' ∨ previous.text.getLast? = some ']'

/-- An update expression: clauses of distinct sections. -/
structure UpdateExpressionSyntax where
  head : Clause
  tail : List Clause
  trailing : Layout
  distinct : ((head :: tail).map Clause.kind).Nodup
  separated : (head :: tail).IsChain fun previous c => c.Follows previous

namespace UpdateExpressionSyntax

/-- The clauses of an expression. -/
def clauses (e : UpdateExpressionSyntax) : List Clause :=
  e.head :: e.tail

/-- An expression as it is written. -/
def text (e : UpdateExpressionSyntax) : Text :=
  e.clauses.flatMap Clause.text ++ e.trailing.text

/-- The section of each action, in order. -/
def sections (e : UpdateExpressionSyntax) : List UpdateSection :=
  e.clauses.flatMap fun c => c.actions.map fun _ => c.kind

/-- The request defines what the expression refers to. -/
def Resolves (json : JsonReader) (names : Option (VecMap Text Text))
    (values : Option AttributeMap) (e : UpdateExpressionSyntax) : Prop :=
  ∀ c ∈ e.clauses, ∀ action ∈ c.actions, action.Resolves json names values

end UpdateExpressionSyntax

end AuxStorage
