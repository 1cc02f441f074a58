import AuxStorage.ConditionFuel
import AuxStorage.ItemKeyOrder

/-!
# Typed Comparisons

A comparison `path op :v` or `path BETWEEN :a AND :b` means a relation between the attribute
and the bound under the order of their common type: texts by their UTF-8 bytes, numbers by
their value, binaries by their bytes (`TypedOrder`). The parser keeps the text of a bound and
drops its type, and the evaluator takes the type of the attribute and compares binaries as
texts. This module follows an expression through both and says exactly for which attributes
and bounds the outcome is the typed one.
-/

namespace AuxStorage

open TokenStream ConditionParser
open AttributeValue (keyValue matchesKeyType)

/-! ### The comparisons of an expression -/

/-- The token of an operator. -/
def OrderOperator.token : OrderOperator → Token
  | .lessThan => .lessThan
  | .lessThanEqual => .lessThanEqual
  | .greaterThan => .greaterThan
  | .greaterThanEqual => .greaterThanEqual

/-- The condition of an operator. -/
def OrderOperator.condition : OrderOperator → Text → Text → Condition
  | .lessThan => .lessThan
  | .lessThanEqual => .lessThanEqual
  | .greaterThan => .greaterThan
  | .greaterThanEqual => .greaterThanEqual

/-- What follows the path in a comparison with bound values, which are given by the names of
their placeholders. -/
inductive Comparison where
  | order (operator : OrderOperator) (bound : Text)
  | between (lower upper : Text)

namespace Comparison

/-- The tokens behind the path. -/
def tokens : Comparison → List Token
  | .order operator bound => [operator.token, .attributeValue bound]
  | .between lower upper => [.between, .attributeValue lower, .and, .attributeValue upper]

/-- The placeholders. -/
def names : Comparison → List Text
  | .order _ bound => [bound]
  | .between lower upper => [lower, upper]

end Comparison

/-- The tokens of an expression with a path and a comparison. -/
def comparisonStream (path : List Token) (comparison : Comparison) : TokenStream :=
  append (path ++ comparison.tokens) .eof

/-! ### The typed relation -/

/-- The attribute and the bound are of one type, and stand in the relation under its order. -/
def TypedOrder (operator : OrderOperator) (actual bound : AttributeValue) : Prop :=
  ∃ v w o, actual.keyValue = some v ∧ bound.keyValue = some w ∧ v.typedCompare w = some o ∧
    operator.holds o = true

/-- **What a comparison means**: the attribute exists and is in the typed relation with the
bounds. -/
def Comparison.Holds (context : ExpressionContext) (actual : Option AttributeValue) :
    Comparison → Prop
  | .order operator bound => ∃ value v, actual = some value ∧ context.values bound = some v ∧
      TypedOrder operator value v
  | .between lower upper => ∃ value l u, actual = some value ∧ context.values lower = some l ∧
      context.values upper = some u ∧ TypedOrder .greaterThanEqual value l ∧
      TypedOrder .lessThanEqual value u

open Comparison hiding names

/-- **The bounds an attribute is compared with as its type demands.** Texts and numbers have
bounds of their own type. A number is also never in a relation with a value whose text is no
number. Two binaries have to be decoded, and their texts have to compare as their bytes. An
attribute of another type is in no relation with anything. -/
def TypedBound (context : ExpressionContext) : AttributeValue → AttributeValue → Prop
  | .S _, .S _ => True
  | .S _, _ => False
  | .N _, .N _ => True
  | .N n, bound => ∀ o, compareDynamodbNumbers n (scalarToString context bound) ≠ .ok o
  | .B b, .B c => ∃ x y, decodeBase64String b = some x ∧ decodeBase64String c = some y ∧
      compareUtf8 b c = List.compareLex compare x y
  | .B _, _ => False
  | _, _ => True

/-! ### The ordering tests -/

namespace OrderOperator

theorem exists_holds (o : Ordering) : ∃ operator : OrderOperator, operator.holds o = true := by
  cases o
  · exact ⟨.lessThan, rfl⟩
  · exact ⟨.lessThanEqual, rfl⟩
  · exact ⟨.greaterThan, rfl⟩

theorem eq_of_holds {o o' : Ordering}
    (h : ∀ operator : OrderOperator, operator.holds o = true ↔ operator.holds o' = true) :
    o = o' := by
  have hless := h .lessThan
  have hgreater := h .greaterThan
  cases o <;> cases o' <;> simp_all [holds]

end OrderOperator

variable {context : ExpressionContext} {operator : OrderOperator} {actual bound : AttributeValue}

theorem typedOrder_iff {v w : KeyValue} {o : Ordering} (hv : actual.keyValue = some v)
    (hw : bound.keyValue = some w) (ho : v.typedCompare w = some o) :
    TypedOrder operator actual bound ↔ operator.holds o = true := by
  constructor
  · rintro ⟨v', w', o', hv', hw', ho', hholds⟩
    cases hv.symm.trans hv'
    cases hw.symm.trans hw'
    cases ho.symm.trans ho'
    exact hholds
  · intro hholds
    exact ⟨v, w, o, hv, hw, ho, hholds⟩

theorem keyValue_type {value : AttributeValue} {v : KeyValue} (h : value.keyValue = some v) :
    value.matchesKeyType v.type = true := by
  cases value <;> simp only [keyValue, Option.map_eq_some_iff, reduceCtorEq, Option.some.injEq] at h
  case S s => subst h; rfl
  case N n => obtain ⟨_, -, rfl⟩ := h; rfl
  case B b => obtain ⟨_, -, rfl⟩ := h; rfl

/-- A relation needs a common type. -/
theorem TypedOrder.sameType (h : TypedOrder operator actual bound) :
    ∃ type, actual.matchesKeyType type = true ∧ bound.matchesKeyType type = true := by
  obtain ⟨v, w, o, hv, hw, ho, -⟩ := h
  have htype : v.type = w.type := by
    cases v <;> cases w <;> first | rfl | cases ho
  exact ⟨v.type, keyValue_type hv, htype ▸ keyValue_type hw⟩

/-- An attribute that is compared as a text with a bound of another type, or of its own type in
another order, is in a relation that is not the typed one. -/
theorem not_typed_of_holds {o : Ordering} {operand : Text}
    (horder : ∀ operator, orderTest operator operand actual = operator.holds o)
    (hnone : ∀ operator, ¬TypedOrder operator actual bound) :
    ¬∀ operator, orderTest operator operand actual = true ↔ TypedOrder operator actual bound := by
  intro h
  obtain ⟨operator, hholds⟩ := OrderOperator.exists_holds o
  exact hnone operator ((h operator).mp ((horder operator).trans hholds))

theorem orderTest_number {n operand : Text} :
    orderTest operator operand (.N n) = true
      ↔ ∃ o, compareDynamodbNumbers n operand = .ok o ∧ operator.holds o = true := by
  rw [orderTest]
  cases compareDynamodbNumbers n operand with
  | ok o => simp
  | error e => simp

/-- The numbers of two texts, compared as numbers. -/
theorem orderTest_number_typed (n m : Text) (operator : OrderOperator) :
    orderTest operator m (.N n) = true ↔ TypedOrder operator (.N n) (.N m) := by
  rw [orderTest_number]
  constructor
  · rintro ⟨o, hcompare, hholds⟩
    obtain ⟨l, r, hl, hr, rfl⟩ := compareDynamodbNumbers_eq_ok.mp hcompare
    refine ⟨.N (decimalValue n.bytes), .N (decimalValue m.bytes), _, ?_, ?_, rfl, hholds⟩
    · rw [keyValue, hl]
      rfl
    · rw [keyValue, hr]
      rfl
  · rintro ⟨v, w, o, hv, hw, ho, hholds⟩
    rw [keyValue] at hv hw
    cases hl : ParsedDynamodbNumber.parse n with
    | error e => rw [hl] at hv; cases hv
    | ok l =>
      cases hr : ParsedDynamodbNumber.parse m with
      | error e => rw [hr] at hw; cases hw
      | ok r =>
        rw [hl] at hv
        rw [hr] at hw
        cases hv
        cases hw
        cases ho
        exact ⟨_, compareDynamodbNumbers_eq_ok.mpr ⟨l, r, hl, hr, rfl⟩, hholds⟩

theorem orderTest_number_untyped {n : Text} (hbound : bound.matchesKeyType .N = false)
    (operand : Text) :
    (∀ operator, orderTest operator operand (.N n) = true ↔ TypedOrder operator (.N n) bound)
      ↔ ∀ o, compareDynamodbNumbers n operand ≠ .ok o := by
  have hnone : ∀ operator, ¬TypedOrder operator (.N n) bound := by
    intro operator h
    obtain ⟨type, hactual, hmatches⟩ := h.sameType
    cases type <;> simp_all [matchesKeyType]
  constructor
  · intro h o hcompare
    refine not_typed_of_holds (o := o) (fun operator => ?_) hnone h
    rw [orderTest, hcompare]
  · intro herror operator
    refine iff_of_false (fun htest => ?_) (hnone operator)
    obtain ⟨o, hcompare, -⟩ := orderTest_number.mp htest
    exact herror o hcompare

/-- Two binaries: the tests compare their texts. -/
theorem orderTest_binary_typed_iff (b c : Text) :
    (∀ operator, orderTest operator c (.B b) = true ↔ TypedOrder operator (.B b) (.B c))
      ↔ ∃ x y, decodeBase64String b = some x ∧ decodeBase64String c = some y ∧
        compareUtf8 b c = List.compareLex compare x y := by
  constructor
  · intro h
    obtain ⟨operator, hholds⟩ := OrderOperator.exists_holds (compareUtf8 b c)
    obtain ⟨v, w, o, hv, hw, -⟩ := (h operator).mp hholds
    obtain ⟨x, hx, rfl⟩ := Option.map_eq_some_iff.mp hv
    obtain ⟨y, hy, rfl⟩ := Option.map_eq_some_iff.mp hw
    refine ⟨x, y, hx, hy, OrderOperator.eq_of_holds fun operator => ?_⟩
    exact (h operator).trans (typedOrder_iff hv hw rfl)
  · rintro ⟨x, y, hx, hy, horder⟩ operator
    have hv : keyValue (.B b) = some (.B x) := by
      rw [keyValue, hx]
      rfl
    have hw : keyValue (.B c) = some (.B y) := by
      rw [keyValue, hy]
      rfl
    rw [orderTest, horder]
    exact (typedOrder_iff hv hw rfl).symm

/-- **The four ordering tests are the typed ones exactly for a typed bound.** -/
theorem orderTest_typed_iff (context : ExpressionContext) (actual bound : AttributeValue) :
    (∀ operator, orderTest operator (scalarToString context bound) actual = true
        ↔ TypedOrder operator actual bound)
      ↔ TypedBound context actual bound := by
  cases actual with
  | S s =>
    cases bound with
    | S t =>
      refine iff_of_true (fun operator => ?_) trivial
      exact (typedOrder_iff rfl rfl rfl).symm
    | _ =>
      refine iff_of_false (not_typed_of_holds (fun _ => rfl) fun operator h => ?_) id
      obtain ⟨type, hactual, hbound⟩ := h.sameType
      cases type <;> simp_all [matchesKeyType]
  | N n =>
    cases bound with
    | N m => exact iff_of_true (orderTest_number_typed n m) trivial
    | _ => exact orderTest_number_untyped rfl _
  | B b =>
    cases bound with
    | B c => exact orderTest_binary_typed_iff b c
    | _ =>
      refine iff_of_false (not_typed_of_holds (fun _ => rfl) fun operator h => ?_) id
      obtain ⟨type, hactual, hbound⟩ := h.sameType
      cases type <;> simp_all [matchesKeyType]
  | _ =>
    refine iff_of_true (fun operator => ?_) trivial
    refine iff_of_false Bool.false_ne_true fun h => ?_
    obtain ⟨type, hactual, hbound⟩ := h.sameType
    cases type <;> simp_all [matchesKeyType]

/-! ### Parsing a comparison -/

variable {stream : TokenStream}

/-- An expression of one operand: the Boolean structure passes it on. -/
theorem parse_operand {condition : Condition} (hready : stream.IsReady)
    (hnot : stream.current ≠ .not) (hparen : stream.current ≠ .leftParen)
    (h : parseOperand context stream = .ok (condition, .eof)) :
    parse context stream = .ok condition := by
  have hready : stream.ready = .ok stream := hready
  simp only [parse, hready, fuelFor, bind, Except.bind, parseOrExpression, parseAndExpression,
    parseNotExpression, parsePrimary, if_neg hnot, if_neg hparen, h, andLoop, orLoop]
  rfl

theorem parse_operand_error {error : ParseError} (hready : stream.IsReady)
    (hnot : stream.current ≠ .not) (hparen : stream.current ≠ .leftParen)
    (h : parseOperand context stream = .error error) : parse context stream = .error error := by
  have hready : stream.ready = .ok stream := hready
  simp only [parse, hready, fuelFor, bind, Except.bind, parseOrExpression, parseAndExpression,
    parseNotExpression, parsePrimary, if_neg hnot, if_neg hparen, h]

section

variable {path : List Token} {steps : List ConditionStep} {rest : TokenStream}

/-- A path in front of an operator is read as an operand, and is neither a negation nor a
parenthesis. -/
theorem PathTokens.parseOperand_append (hpath : PathTokens context path steps)
    (hready : rest.IsReady) (hend : ¬ContinuesPath rest) :
    (append path rest).IsReady ∧ (append path rest).current ≠ .not ∧
      (append path rest).current ≠ .leftParen ∧
      parseOperand context (append path rest) = parseComparison context (pathText steps) rest := by
  have hread : parseAttributePath context (append path rest) = .ok (pathText steps, rest) :=
    parseAttributePath_eq_ok.mpr ⟨path, steps, rfl, hpath, rfl, hready, hend⟩
  obtain ⟨hname, -⟩ := hpath
  cases hname with
  | identifier | placeholder =>
    refine ⟨rfl, by simp [current], by simp [current], ?_⟩
    rw [parseOperand, append_cons, current, ← append_cons, hread]
    rfl

theorem Comparison.not_continuesPath (comparison : Comparison) :
    ¬ContinuesPath (append comparison.tokens .eof) := by
  cases comparison with
  | order operator name =>
    cases operator <;> simp [ContinuesPath, tokens, OrderOperator.token, current]
  | between lower upper => simp [ContinuesPath, tokens, current]

theorem Comparison.isReady_tokens (comparison : Comparison) :
    (append comparison.tokens .eof).IsReady := by
  cases comparison <;> rfl

variable {name : Text} {bound : AttributeValue}

theorem parseAttributeValue_placeholder (hbound : context.values name = some bound)
    (hready : rest.IsReady) :
    parseAttributeValue context (.cons (.attributeValue name) rest) = .ok (bound, rest) := by
  have hready : rest.ready = .ok rest := hready
  simp only [parseAttributeValue, hbound, okOr, bind, Except.bind, hready]
  rfl

/-- **What `path op :v` is parsed to**: the operator, with the text of the bound. -/
theorem parse_order (hpath : PathTokens context path steps) (operator : OrderOperator)
    (hbound : context.values name = some bound) :
    parse context (comparisonStream path (.order operator name))
      = .ok (operator.condition (pathText steps) (scalarToString context bound)) := by
  obtain ⟨hready, hnot, hparen, hoperand⟩ := hpath.parseOperand_append
    (isReady_tokens (.order operator name)) (not_continuesPath _)
  rw [comparisonStream, append_append]
  refine parse_operand hready hnot hparen ?_
  have horder : ∀ build : Text → Condition,
      parseOrder context build (.cons operator.token (.cons (.attributeValue name) .eof))
        = .ok (build (scalarToString context bound), .eof) := by
    intro build
    simp only [parseOrder, advance, ready, parseValue, bind, Except.bind,
      parseAttributeValue_placeholder hbound isReady_eof]
    rfl
  refine hoperand.trans ?_
  cases operator <;> exact horder _

variable {l u : AttributeValue}

/-- **What `path BETWEEN :a AND :b` is parsed to**: the texts of the bounds, unless the upper
one is below the lower one. -/
theorem parse_between (hpath : PathTokens context path steps) {lower upper : Text}
    (hlower : context.values lower = some l) (hupper : context.values upper = some u) :
    parse context (comparisonStream path (.between lower upper))
      = if betweenUpperIsLessThanLower l u then .error (.betweenBounds l u)
        else .ok (.between (pathText steps) (scalarToString context l)
          (scalarToString context u)) := by
  obtain ⟨hready, hnot, hparen, hoperand⟩ := hpath.parseOperand_append
    (isReady_tokens (.between lower upper)) (not_continuesPath _)
  have hcompare : parseComparison context (pathText steps)
      (append (tokens (.between lower upper)) .eof)
      = if betweenUpperIsLessThanLower l u then .error (.betweenBounds l u)
        else .ok (.between (pathText steps) (scalarToString context l)
          (scalarToString context u), .eof) := by
    simp only [tokens, append_cons, append_nil, parseComparison, current, parseBetween,
      advance, ready, bind, Except.bind, expectToken, if_pos,
      parseAttributeValue_placeholder hlower (isReady_cons _ _),
      parseAttributeValue_placeholder hupper isReady_eof]
    cases betweenUpperIsLessThanLower l u <;> rfl
  rw [comparisonStream, append_append]
  split
  · rename_i hless
    rw [if_pos hless] at hcompare
    exact parse_operand_error hready hnot hparen (hoperand.trans hcompare)
  · rename_i hless
    rw [if_neg hless] at hcompare
    exact parse_operand hready hnot hparen (hoperand.trans hcompare)

/-! ### Evaluating a comparison -/

theorem evaluateCondition_order (item : AttributeValueLookup) (operator : OrderOperator)
    (field operand : Text) :
    evaluateCondition item (operator.condition field operand)
      = ifPresent (orderTest operator operand) (Condition.getPathValue item field) := by
  cases operator <;> exact evaluateCondition_of_fieldTest item rfl

variable {actual : Option AttributeValue}

/-- A defined placeholder. -/
theorem Comparison.holds_order {operator : OrderOperator}
    (hbound : context.values name = some bound) :
    Holds context actual (.order operator name)
      ↔ ∃ value, actual = some value ∧ TypedOrder operator value bound := by
  simp [Holds, hbound]

theorem Comparison.holds_between {lower upper : Text} (hlower : context.values lower = some l)
    (hupper : context.values upper = some u) :
    Holds context actual (.between lower upper)
      ↔ ∃ value, actual = some value ∧ TypedOrder .greaterThanEqual value l ∧
        TypedOrder .lessThanEqual value u := by
  simp [Holds, hlower, hupper]

theorem parseAttributeValue_undefined (hname : context.values name = none) (rest : TokenStream) :
    parseAttributeValue context (.cons (.attributeValue name) rest)
      = .error (.missingValue name) := by
  simp only [parseAttributeValue, hname, okOr, bind, Except.bind]

variable {comparison : Comparison} {condition : Condition}

/-- What is parsed behind the path, when the expression is parsed. -/
theorem parseComparison_of_parse (hpath : PathTokens context path steps)
    (h : parse context (comparisonStream path comparison) = .ok condition) :
    ∃ result, parseComparison context (pathText steps) (append comparison.tokens .eof)
      = .ok result := by
  obtain ⟨hready, hnot, hparen, hoperand⟩ :=
    hpath.parseOperand_append comparison.isReady_tokens comparison.not_continuesPath
  cases hresult : parseComparison context (pathText steps) (append comparison.tokens .eof) with
  | ok result => exact ⟨result, rfl⟩
  | error error =>
    rw [comparisonStream, append_append,
      parse_operand_error hready hnot hparen (hoperand.trans hresult)] at h
    cases h

/-- An undefined placeholder fails to parse. -/
theorem exists_values_of_parse (hpath : PathTokens context path steps)
    (h : parse context (comparisonStream path comparison) = .ok condition) :
    ∀ name ∈ comparison.names, ∃ bound, context.values name = some bound := by
  obtain ⟨result, hresult⟩ := parseComparison_of_parse hpath h
  intro name hname
  refine Option.ne_none_iff_exists'.mp fun hnone => ?_
  cases comparison with
  | order operator bound =>
    obtain rfl := List.mem_singleton.mp hname
    have hundefined := parseAttributeValue_undefined hnone .eof
    cases operator <;>
      simp [tokens, OrderOperator.token, parseComparison, current, parseOrder,
        advance, ready, parseValue, bind, Except.bind, hundefined] at hresult
  | between lower upper =>
    have hlower : ∃ l, context.values lower = some l := by
      refine Option.ne_none_iff_exists'.mp fun hlower => ?_
      simp [tokens, parseComparison, current, parseBetween, advance, ready, bind,
        Except.bind, parseAttributeValue_undefined hlower] at hresult
    obtain ⟨l, hl⟩ := hlower
    have hupper : name = upper := by
      rcases List.mem_pair.mp hname with rfl | rfl
      · exact absurd hl (by simp [hnone])
      · rfl
    subst hupper
    simp [tokens, parseComparison, current, parseBetween, advance, ready, bind,
      Except.bind, parseAttributeValue_placeholder hl, expectToken,
      parseAttributeValue_undefined hnone] at hresult

/-- **The comparisons with a set of bounds are typed exactly when every bound is.** A comparison
of a path with defined placeholders is parsed, a `BETWEEN` unless its upper bound is below its
lower one. On an item, all comparisons with placeholders from a set have the truth value of the
typed relation if and only if the attribute at the path, when there is one, has a typed bound
under each of them. -/
theorem comparisons_typed_iff (hpath : PathTokens context path steps)
    (item : AttributeValueLookup) (names : Set Text) :
    (∀ operator, ∀ name bound, context.values name = some bound →
      ∃ condition, parse context (comparisonStream path (.order operator name)) = .ok condition) ∧
    (∀ lower upper l u, context.values lower = some l → context.values upper = some u →
      betweenUpperIsLessThanLower l u = false →
      ∃ condition, parse context (comparisonStream path (.between lower upper)) = .ok condition) ∧
    ((∀ comparison : Comparison, (∀ name ∈ comparison.names, name ∈ names) →
      ∀ condition, parse context (comparisonStream path comparison) = .ok condition →
        (evaluateCondition item condition = true
          ↔ comparison.Holds context (Condition.getPathValue item (pathText steps))))
      ↔ ∀ name ∈ names, ∀ bound, context.values name = some bound →
        ∀ actual, Condition.getPathValue item (pathText steps) = some actual →
          TypedBound context actual bound) := by
  refine ⟨fun operator name bound hbound => ⟨_, parse_order hpath operator hbound⟩, ?_, ?_⟩
  · intro lower upper l u hlower hupper hless
    have hparse := parse_between hpath hlower hupper
    rw [hless] at hparse
    exact ⟨_, hparse⟩
  generalize hactual : Condition.getPathValue item (pathText steps) = found
  constructor
  · intro h name hname bound hbound actual hfound
    rw [← orderTest_typed_iff]
    intro operator
    have htyped := h (.order operator name) (by simpa [Comparison.names] using hname) _
      (parse_order hpath operator hbound)
    rw [evaluateCondition_order, hactual, hfound, holds_order hbound] at htyped
    simpa [ifPresent] using htyped
  · intro h comparison hnames condition hparse
    have hdefined := exists_values_of_parse hpath hparse
    cases comparison with
    | order operator name =>
      obtain ⟨bound, hbound⟩ := hdefined name (by simp [Comparison.names])
      have hname := hnames name (by simp [Comparison.names])
      rw [parse_order hpath operator hbound] at hparse
      cases hparse
      rw [evaluateCondition_order, hactual, holds_order hbound]
      cases found with
      | none => simp [ifPresent]
      | some actual =>
        have htyped := (orderTest_typed_iff context actual bound).mpr
          (h name hname bound hbound actual rfl) operator
        simpa [ifPresent] using htyped
    | between lower upper =>
      obtain ⟨l, hl⟩ := hdefined lower (by simp [Comparison.names])
      obtain ⟨u, hu⟩ := hdefined upper (by simp [Comparison.names])
      have hlower := hnames lower (by simp [Comparison.names])
      have hupper := hnames upper (by simp [Comparison.names])
      rw [parse_between hpath hl hu] at hparse
      split at hparse
      · cases hparse
      · cases hparse
        rw [evaluateCondition_of_fieldTest item rfl, hactual, holds_between hl hu]
        cases found with
        | none => simp [ifPresent]
        | some actual =>
          have hge := (orderTest_typed_iff context actual l).mpr
            (h lower hlower l hl actual rfl) .greaterThanEqual
          have hle := (orderTest_typed_iff context actual u).mpr
            (h upper hupper u hu actual rfl) .lessThanEqual
          simp [ifPresent, hge, hle]

end

/-- A number as the bound `:v`. -/
def numberContext : ExpressionContext where
  names := fun _ => none
  values := fun key => if key = text ":v" then some (.N (text "10")) else none
  jsonText := fun _ => []

/-- The item whose attribute `a` is the text `9`. -/
def textItem : AttributeMap :=
  OrderedMap.empty.insert (text "a") (.S (text "9"))

theorem comparisons_typed_iff_number :
    (∀ operator, ∀ name bound, numberContext.values name = some bound →
      ∃ condition, parse numberContext
        (comparisonStream [.identifier (text "a")] (.order operator name)) = .ok condition) ∧
    (∀ lower upper l u, numberContext.values lower = some l →
      numberContext.values upper = some u → betweenUpperIsLessThanLower l u = false →
      ∃ condition, parse numberContext
        (comparisonStream [.identifier (text "a")] (.between lower upper)) = .ok condition) ∧
    ((∀ comparison : Comparison, (∀ name ∈ comparison.names, name ∈ ({text ":v"} : Set Text)) →
      ∀ condition, parse numberContext (comparisonStream [.identifier (text "a")] comparison)
          = .ok condition → (evaluateCondition textItem.get condition = true
          ↔ comparison.Holds numberContext
            (Condition.getPathValue textItem.get (pathText [.identifier (text "a")]))))
      ↔ ∀ name ∈ ({text ":v"} : Set Text), ∀ bound, numberContext.values name = some bound →
        ∀ actual, Condition.getPathValue textItem.get (pathText [.identifier (text "a")])
            = some actual → TypedBound numberContext actual bound) :=
  comparisons_typed_iff (.intro (.identifier (text "a")) .nil) textItem.get {text ":v"}

/-- **A bound of another type makes a comparison true.** The expression `a > :v` holds for the
text `9` and the number `10`, and the relation it means does not. -/
theorem textItem_greaterThan_number :
    parseConditionExpression asciiTables numberContext (text "a > :v")
        = .ok (.greaterThan (text "a") (text "10")) ∧
      Condition.getPathValue textItem.get (text "a") = some (.S (text "9")) ∧
      evaluateCondition textItem.get (.greaterThan (text "a") (text "10")) = true ∧
      ¬Holds numberContext (some (.S (text "9"))) (.order .greaterThan (text ":v")) := by
  have hvalue : Condition.getPathValue textItem.get (text "a") = some (.S (text "9")) := by
    have hroot : rootField (text "a") = text "a" ∧ pathTail (text "a") = [] := by decide
    have hget : textItem.get (text "a") = some (.S (text "9")) := by decide
    rw [Condition.getPathValue, hroot.1, hroot.2, hget, Option.bind_eq_bind, Option.bind_some,
      followPath]
  refine ⟨rfl, hvalue, ?_, ?_⟩
  · rw [evaluateCondition_of_fieldTest _ rfl, hvalue]
    rfl
  · have hbound : numberContext.values (text ":v") = some (.N (text "10")) := rfl
    rw [holds_order hbound]
    rintro ⟨value, hvalue, htyped⟩
    cases hvalue
    obtain ⟨type, hactual, hmatches⟩ := htyped.sameType
    cases type <;> simp_all [matchesKeyType]

end AuxStorage
