import AuxStorage.DynamodbNumberValue
import AuxStorage.UpdateApply
import AuxStorage.UpdateAttribution

/-!
# Chains of Arithmetic in SET

A value expression with several operators, such as `a - b + c`, is split at its first
operator, and what stands behind it is a value expression again. A chain is therefore
evaluated from the right, `a - (b + c)`: a term behind a minus and another operator has the wrong
sign, and a term behind two of them the right one again.
-/

namespace AuxStorage

/-- The value of a SET: the text is resolved to a plan, bound to the values of the request and
evaluated on the item. -/
def evaluateValueExpression (json : JsonReader) (names : Option (VecMap Text Text))
    (values : Option AttributeMap) (item : AttributeMap) (valueExpr : Text) :
    Except Fault AttributeValue := do
  let resolved ← storage (resolveAttributeValuePlan json names valueExpr)
  let operand ← storage (bindUpdateValuePlan values resolved.intoOkPlan)
  evaluateBoundUpdateOperand item operand

/-- An expression without operator, where one with an operator may stand. -/
def Operand.widen : Operand false → Operand true
  | .placeholder word => .placeholder word
  | .path p => .path p
  | .literal value => .literal value
  | .ifNotExists l₁ p l₂ l₃ operand l₄ => .ifNotExists l₁ p l₂ l₃ operand l₄
  | .listAppend l₁ operand1 l₂ l₃ operand2 l₄ => .listAppend l₁ operand1 l₂ l₃ operand2 l₄

theorem Operand.text_widen (o : Operand false) : o.widen.text = o.text := by
  cases o <;> rfl

/-- An operator of a chain, the blanks around it and the operand behind it. -/
structure ChainLink where
  before : Layout
  operator : ArithmeticOperator
  behind : Layout
  operand : Operand false

/-- Operands joined by operators. -/
def chain : Operand false → List ChainLink → Operand true
  | first, [] => first.widen
  | first, link :: rest =>
    .arithmetic first link.before link.operator link.behind (chain link.operand rest)

/-! ### Sums from the left and from the right -/

/-- The operators on rational numbers. -/
def ArithmeticOperator.apply : ArithmeticOperator → ℚ → ℚ → ℚ
  | .add, x, y => x + y
  | .subtract, x, y => x - y

/-- The operators of a chain applied from left to right. -/
def leftSum (first : ℚ) (rest : List (ArithmeticOperator × ℚ)) : ℚ :=
  rest.foldl (fun value link => link.1.apply value link.2) first

/-- The operators of a chain applied from right to left. -/
def rightSum : ℚ → List (ArithmeticOperator × ℚ) → ℚ
  | first, [] => first
  | first, (operator, next) :: rest => operator.apply first (rightSum next rest)

/-- The signed sum of the terms that stand behind an odd number of minus signs, the one before the
term itself apart. -/
def oddSum : Bool → List (ArithmeticOperator × ℚ) → ℚ
  | _, [] => 0
  | odd, (.add, next) :: rest => (if odd then next else 0) + oddSum odd rest
  | odd, (.subtract, next) :: rest => (if odd then -next else 0) + oddSum (!odd) rest

theorem leftSum_add (x y : ℚ) (rest : List (ArithmeticOperator × ℚ)) :
    leftSum (x + y) rest = x + leftSum y rest := by
  induction rest generalizing y with
  | nil => rfl
  | cons link rest ih =>
    obtain ⟨operator, next⟩ := link
    have hstep : operator.apply (x + y) next = x + operator.apply y next := by
      cases operator <;> simp only [ArithmeticOperator.apply] <;> ring
    rw [leftSum, List.foldl_cons, ← leftSum, hstep, ih]
    rfl

/-- The terms of a chain, from the left, are those from the right with the odd ones turned. -/
theorem leftSum_eq (first : ℚ) (rest : List (ArithmeticOperator × ℚ)) :
    leftSum first rest = rightSum first rest + 2 * oddSum false rest ∧
      leftSum first rest = 2 * first - rightSum first rest + 2 * oddSum true rest := by
  induction rest generalizing first with
  | nil =>
    simp only [leftSum, rightSum, oddSum, List.foldl_nil]
    constructor <;> ring
  | cons link rest ih =>
    obtain ⟨operator, next⟩ := link
    obtain ⟨heven, hodd⟩ := ih next
    rw [leftSum, List.foldl_cons, ← leftSum, rightSum]
    cases operator with
    | add =>
      simp only [ArithmeticOperator.apply, leftSum_add, oddSum, if_true, Bool.false_eq_true,
        if_false]
      constructor <;> linarith
    | subtract =>
      have hsplit : leftSum (first - next) rest = (first - 2 * next) + leftSum next rest := by
        rw [← leftSum_add]
        congr 1
        ring
      simp only [ArithmeticOperator.apply, hsplit, oddSum, Bool.not_false, Bool.not_true, if_true,
        Bool.false_eq_true, if_false]
      constructor <;> linarith

/-- **The two sums agree** exactly when the odd terms cancel. -/
theorem rightSum_eq_leftSum_iff (first : ℚ) (rest : List (ArithmeticOperator × ℚ)) :
    rightSum first rest = leftSum first rest ↔ oddSum false rest = 0 := by
  rw [(leftSum_eq first rest).1]
  constructor <;> intro h <;> linarith

section Evaluation

variable (json : JsonReader) (names : Option (VecMap Text Text)) (values : Option AttributeMap)
  (item : AttributeMap)

/-- An expression is split at its first operator. -/
theorem evaluateValueExpression_arithmetic (lhs : Operand false) (l₁ : Layout)
    (operator : ArithmeticOperator) (l₂ : Layout) (rhs : Operand true) (value : AttributeValue) :
    evaluateValueExpression json names values item
        (Operand.arithmetic lhs l₁ operator l₂ rhs).text = .ok value ↔
      ∃ a b, evaluateValueExpression json names values item lhs.text = .ok a ∧
        evaluateValueExpression json names values item rhs.text = .ok b ∧
        applySetArithmetic operator a b = .ok value := by
  simp only [evaluateValueExpression, storage, resolveAttributeValuePlan_arithmetic json names
    (splitTopLevelArithmetic_text lhs l₁ operator l₂ rhs), Except.bind_eq_ok, Except.mapError_eq_ok]
  constructor
  · rintro ⟨_, ⟨planL, hplanL, planR, hplanR, hplan⟩, bound, hbound, hvalue⟩
    cases hplan
    rw [ResolvedValue.intoOkPlan, bindUpdateValuePlan, Except.bind_eq_ok] at hbound
    obtain ⟨boundL, hboundL, hbound⟩ := hbound
    obtain ⟨boundR, hboundR, hbound⟩ := Except.bind_eq_ok.mp hbound
    cases hbound
    obtain ⟨a, ha, hvalue⟩ := Except.bind_eq_ok.mp hvalue
    obtain ⟨b, hb, hvalue⟩ := Except.bind_eq_ok.mp hvalue
    exact ⟨a, b, ⟨planL, hplanL, boundL, hboundL, ha⟩, ⟨planR, hplanR, boundR, hboundR, hb⟩, hvalue⟩
  · rintro ⟨a, b, ⟨planL, hplanL, boundL, hboundL, ha⟩, ⟨planR, hplanR, boundR, hboundR, hb⟩, hvalue⟩
    refine ⟨_, ⟨planL, hplanL, planR, hplanR, rfl⟩, .arithmetic boundL operator boundR, ?_, ?_⟩
    · rw [ResolvedValue.intoOkPlan, bindUpdateValuePlan, hboundL, hboundR]
      rfl
    · rw [evaluateBoundUpdateOperand, ha, hb]
      exact hvalue

theorem evaluateValueExpression_placeholder {values : AttributeMap} {word : Word}
    {value : AttributeValue} (h : values.get (':' :: word.text) = some value) :
    evaluateValueExpression json names (some values) item
      (Operand.placeholder word : Operand false).text = .ok value := by
  have hbound : bindUpdateValuePlan (some values) (.placeholder (':' :: word.text))
      = .ok (.value value) := by
    rw [bindUpdateValuePlan, resolvePlannedAttributeValue, h]
    rfl
  exact Except.bind_eq_ok.mpr ⟨_, Except.mapError_eq_ok.mpr (word.resolve_text json names),
    Except.bind_eq_ok.mpr ⟨_, Except.mapError_eq_ok.mpr hbound, rfl⟩⟩

/-- **Every sum along a chain is exact**: where the operator of a link is applied to numbers, the
result has the sum or the difference of their values. This is a matter of the arithmetic of two
numbers alone. -/
def SumsExactly : Operand false → List ChainLink → Prop
  | _, [] => True
  | first, link :: rest => SumsExactly link.operand rest ∧ ∀ a b c,
      evaluateValueExpression json names values item first.text = .ok (.N a) →
      evaluateValueExpression json names values item (chain link.operand rest).text = .ok (.N b) →
      applySetArithmetic link.operator (.N a) (.N b) = .ok (.N c) →
        decimalValue c.bytes = link.operator.apply (decimalValue a.bytes) (decimalValue b.bytes)

/-- The operands behind the operators of a chain are numbers. -/
def ReadsNumbers (rest : List ChainLink) (numbers : List Text) : Prop :=
  List.Forall₂ (fun link number =>
    evaluateValueExpression json names values item link.operand.text = .ok (.N number)) rest numbers

variable {json names values item}

/-- The links of a chain with the values of their operands. -/
def linkValues (rest : List ChainLink) (numbers : List Text) : List (ArithmeticOperator × ℚ) :=
  rest.zipWith (fun link number => (link.operator, decimalValue number.bytes)) numbers

/-- There is no odd term where no minus stands before another operator. -/
theorem oddSum_linkValues_eq_zero {rest : List ChainLink} {numbers : List Text}
    (h : ∀ link ∈ rest.dropLast, link.operator = .add) :
    oddSum false (linkValues rest numbers) = 0 := by
  induction rest generalizing numbers with
  | nil => rfl
  | cons link rest ih =>
    rcases numbers with _ | ⟨number, numbers⟩
    · rfl
    rcases rest with _ | ⟨next, rest⟩
    · cases hoperator : link.operator <;> simp [linkValues, hoperator, oddSum]
    · rw [List.dropLast_cons_cons] at h
      have hsum := @ih numbers fun link hmem => h link (List.mem_cons_of_mem _ hmem)
      rw [linkValues, List.zipWith_cons_cons, h link List.mem_cons_self, oddSum,
        if_neg Bool.false_ne_true, zero_add]
      exact hsum

theorem exists_numbers_of_applySetArithmetic {operator : ArithmeticOperator}
    {a b value : AttributeValue} (h : applySetArithmetic operator a b = .ok value) :
    ∃ x y z, a = .N x ∧ b = .N y ∧ value = .N z := by
  rw [applySetArithmetic.eq_def] at h
  split at h
  · cases operator with
    | add | subtract =>
      obtain ⟨z, -, hz⟩ := Except.bind_eq_ok.mp h
      exact ⟨_, _, z, rfl, rfl, (Except.ok.inj hz).symm⟩
  · cases h

/-- **A chain is evaluated from the right.** -/
theorem exists_rightSum {first : Operand false} {link : ChainLink} {rest : List ChainLink}
    {value : AttributeValue} (hexact : SumsExactly json names values item first (link :: rest))
    (hvalue : evaluateValueExpression json names values item (chain first (link :: rest)).text
      = .ok value) :
    ∃ number numbers result,
      evaluateValueExpression json names values item first.text = .ok (.N number) ∧
      ReadsNumbers json names values item (link :: rest) numbers ∧ value = .N result ∧
      decimalValue result.bytes
        = rightSum (decimalValue number.bytes) (linkValues (link :: rest) numbers) := by
  induction rest generalizing first link value with
  | nil =>
    obtain ⟨a, b, ha, hb, happly⟩ := (evaluateValueExpression_arithmetic ..).mp hvalue
    obtain ⟨x, y, z, rfl, rfl, rfl⟩ := exists_numbers_of_applySetArithmetic happly
    refine ⟨x, [y], z, ha, .cons ?_ .nil, rfl, hexact.2 x y z ha hb happly⟩
    rwa [chain, link.operand.text_widen] at hb
  | cons next rest ih =>
    obtain ⟨a, b, ha, hb, happly⟩ := (evaluateValueExpression_arithmetic ..).mp hvalue
    obtain ⟨y, numbers, result, hy, hnumbers, rfl, hsum⟩ := ih hexact.1 hb
    obtain ⟨x, -, z, rfl, -, rfl⟩ := exists_numbers_of_applySetArithmetic happly
    refine ⟨x, y :: numbers, z, ha, .cons hy hnumbers, rfl, ?_⟩
    rw [hexact.2 x result z ha hb happly, hsum]
    rfl

end Evaluation

/-! ### Chains of three numbers -/

/-- The placeholder of one letter. -/
def letterOperand (c : Char) (h : c.isAlpha = true) : Operand false :=
  .placeholder (Word.letter c h)

/-- A link with the given operand and operator. -/
def ChainLink.of (operator : ArithmeticOperator) (operand : Operand false) : ChainLink :=
  ⟨.none, operator, .none, operand⟩

/-- Values for the placeholders of a chain. -/
def letterValues (a b c : Text) : AttributeMap :=
  ⟨[(text ":a", .N a), (text ":b", .N b), (text ":c", .N c)], by simp [text]⟩

/-- The links of `:a o₁ :b o₂ :c`. -/
def letterLinks (o₁ o₂ : ArithmeticOperator) : List ChainLink :=
  [.of o₁ (letterOperand 'b' (by decide)), .of o₂ (letterOperand 'c' (by decide))]

theorem evaluateValueExpression_letter {a b c : Text} {ch : Char} {hch : ch.isAlpha = true}
    {v : AttributeValue} (hget : (letterValues a b c).get [':', ch] = some v) :
    evaluateValueExpression .unused none (some (letterValues a b c)) OrderedMap.empty
      (letterOperand ch hch).text = .ok v :=
  evaluateValueExpression_placeholder _ _ _ hget

/-- The chain `:a o₁ :b o₂ :c` is evaluated from the right. -/
theorem evaluateValueExpression_letters {o₁ o₂ : ArithmeticOperator} {a b c bc r : Text}
    (hbc : applySetArithmetic o₂ (.N b) (.N c) = .ok (.N bc))
    (hr : applySetArithmetic o₁ (.N a) (.N bc) = .ok (.N r)) :
    evaluateValueExpression .unused none (some (letterValues a b c)) OrderedMap.empty
      (chain (letterOperand 'a' (by decide)) (letterLinks o₁ o₂)).text = .ok (.N r) := by
  refine (evaluateValueExpression_arithmetic ..).mpr ⟨.N a, .N bc,
    evaluateValueExpression_letter rfl, ?_, hr⟩
  exact (evaluateValueExpression_arithmetic ..).mpr ⟨.N b, .N c, evaluateValueExpression_letter rfl,
    (congrArg _ (Operand.text_widen _)).trans (evaluateValueExpression_letter rfl), hbc⟩

/-- The sums of `:a+:b-:c` for ten, three and two are exact. -/
theorem sumsExactly_addSubtract :
    SumsExactly .unused none (some (letterValues (text "10") (text "3") (text "2"))) OrderedMap.empty
      (letterOperand 'a' (by decide)) (letterLinks .add .subtract) := by
  have hdifference : applySetArithmetic .subtract (.N (text "3")) (.N (text "2"))
      = .ok (.N (text "1")) := by decide +kernel
  have hsum : applySetArithmetic .add (.N (text "10")) (.N (text "1")) = .ok (.N (text "11")) := by
    decide +kernel
  refine ⟨⟨trivial, fun x y z hx hy hz => ?_⟩, fun x y z hx hy hz => ?_⟩
  · cases (evaluateValueExpression_letter rfl).symm.trans hx
    have hy := (congrArg _ (Operand.text_widen _)).symm.trans hy
    cases (evaluateValueExpression_letter rfl).symm.trans hy
    cases hdifference.symm.trans hz
    decide +kernel
  · cases (evaluateValueExpression_letter rfl).symm.trans hx
    obtain ⟨v, w, hv, hw, hy⟩ := (evaluateValueExpression_arithmetic ..).mp hy
    cases (evaluateValueExpression_letter rfl).symm.trans hv
    have hw := (congrArg _ (Operand.text_widen _)).symm.trans hw
    cases (evaluateValueExpression_letter rfl).symm.trans hw
    cases hdifference.symm.trans hy
    cases hsum.symm.trans hz
    decide +kernel

end AuxStorage
