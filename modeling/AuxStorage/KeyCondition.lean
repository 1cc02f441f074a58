import AuxStorage.Condition

/-!
# Key Conditions

A key condition is written in the grammar of all conditions, and restricted afterwards: one walk
over the tree refuses every operator that a key does not admit, and counts the tests of the
partition key and of the sort key.
-/

namespace AuxStorage

structure KeyConditionValidator where
  hashKey : Text
  rangeKey : Option Text
  hashEqualitySeen : Bool
  rangeConditionSeen : Bool

namespace KeyConditionValidator

def new (keySchema : List KeySchemaElement) : Except Text KeyConditionValidator := do
  let hashKey ← okOr (text "table hash key schema missing")
    (keySchema.find? (·.keyType = .hash))
  pure {
    hashKey := hashKey.attributeName
    rangeKey := (keySchema.find? (·.keyType = .range)).map (·.attributeName)
    hashEqualitySeen := false
    rangeConditionSeen := false }

def visitRange (validator : KeyConditionValidator) (field : Text) :
    Except Text KeyConditionValidator :=
  if some field ≠ validator.rangeKey ∨ validator.rangeConditionSeen then
    .error (text "Query key condition not supported")
  else .ok { validator with rangeConditionSeen := true }

mutual

def visit (validator : KeyConditionValidator) : Condition → Except Text KeyConditionValidator
  | .and [] => .error (text "Invalid key condition expression: empty AND condition")
  | .and (condition :: conditions) => do
      let validator ← validator.visit condition
      validator.visitAll conditions
  | .equal field _ =>
    if field = validator.hashKey then
      if validator.hashEqualitySeen then .error (text "Query key condition not supported")
      else .ok { validator with hashEqualitySeen := true }
    else validator.visitRange field
  | .lessThan field _ | .lessThanEqual field _ | .greaterThan field _ | .greaterThanEqual field _
  | .between field _ _ | .beginsWith field _ => validator.visitRange field
  | _ => .error (text "Invalid operator used in KeyConditionExpression")

/-- The loop of `visit_and`. -/
def visitAll (validator : KeyConditionValidator) :
    List Condition → Except Text KeyConditionValidator
  | [] => .ok validator
  | condition :: conditions => do
      let validator ← validator.visit condition
      validator.visitAll conditions

end

def finish (validator : KeyConditionValidator) : Except Text Unit :=
  if validator.hashEqualitySeen then .ok ()
  else .error (text "Query condition missed key schema element: " ++ validator.hashKey)

end KeyConditionValidator

def validateKeyCondition (condition : Condition) (keySchema : List KeySchemaElement) :
    Except Text Unit := do
  let validator ← KeyConditionValidator.new keySchema
  let validator ← validator.visit condition
  validator.finish

/-! ### What a key condition is -/

mutual

/-- The tests that nested ANDs join, from left to right. An AND of nothing joins no tests, and
counts as one of its own. -/
def Condition.conjuncts : Condition → List Condition
  | .and (condition :: conditions) => condition.conjuncts ++ Condition.conjunctsAll conditions
  | condition => [condition]

def Condition.conjunctsAll : List Condition → List Condition
  | [] => []
  | condition :: conditions => condition.conjuncts ++ Condition.conjunctsAll conditions

end

/-- An equality of an attribute. -/
def Condition.isEquality (name : Text) : Condition → Bool
  | .equal field _ => field = name
  | _ => false

/-- A test that a sort key admits: an equality, one of the four orders, BETWEEN or
`begins_with`. -/
def Condition.isRangeTest (name : Text) : Condition → Bool
  | .equal field _ | .lessThan field _ | .lessThanEqual field _ | .greaterThan field _
  | .greaterThanEqual field _ | .between field _ _ | .beginsWith field _ => field = name
  | _ => false

/-- **A key condition**: exactly one equality of the partition key, and besides it at most one
test, which is one of the sort key. -/
structure IsKeyCondition (hashKey : Text) (rangeKey : Option Text) (condition : Condition) :
    Prop where
  equality : condition.conjuncts.countP (Condition.isEquality hashKey) = 1
  single : (condition.conjuncts.filter fun test => !test.isEquality hashKey).length ≤ 1
  range : ∀ test ∈ condition.conjuncts, test.isEquality hashKey = false →
    ∃ name ∈ rangeKey, test.isRangeTest name = true

/-! ### The walk -/

/-- Induction over the ANDs of a condition. -/
theorem Condition.andInduction {motive : Condition → Prop}
    (test : ∀ test, (∀ first rest, test ≠ .and (first :: rest)) → motive test)
    (and : ∀ first rest, (∀ condition ∈ first :: rest, motive condition) →
      motive (.and (first :: rest))) (condition : Condition) : motive condition := by
  refine @Condition.rec motive (fun conditions => ∀ condition ∈ conditions, motive condition)
    ?_ ?_ ?_ ?_ ?_ ?_ ?_ ?_ ?_ ?_ ?_ ?_ ?_ ?_ ?_ ?_ ?_ ?and ?_ ?_ ?nil ?cons condition
  case and =>
    intro conditions ih
    cases conditions with
    | nil => exact test _ (by simp)
    | cons first rest => exact and first rest ih
  case nil => simp
  case cons => exact fun _ _ hfirst hrest => List.forall_mem_cons.mpr ⟨hfirst, hrest⟩
  all_goals
    intros
    exact test _ (by simp)

theorem Condition.conjuncts_test {test : Condition}
    (h : ∀ first rest, test ≠ .and (first :: rest)) : test.conjuncts = [test] := by
  unfold conjuncts
  split
  · exact absurd rfl (h _ _)
  · rfl

namespace KeyConditionValidator

variable {validator validator' : KeyConditionValidator}

/-- The conjuncts are visited one after the other, and none of them is an AND of something. -/
theorem visit_eq_foldlM (condition : Condition) :
    (∀ validator : KeyConditionValidator,
        validator.visit condition = condition.conjuncts.foldlM visit validator) ∧
      ∀ test ∈ condition.conjuncts, ∀ first rest, test ≠ .and (first :: rest) := by
  induction condition using Condition.andInduction with
  | test test h =>
    rw [Condition.conjuncts_test h]
    exact ⟨fun _ => (bind_pure _).symm, List.forall_mem_singleton.mpr h⟩
  | and first rest ih =>
    change (∀ validator : KeyConditionValidator, validator.visitAll (first :: rest)
        = (Condition.conjunctsAll (first :: rest)).foldlM visit validator) ∧
      ∀ test ∈ Condition.conjunctsAll (first :: rest), _
    generalize first :: rest = conditions at ih ⊢
    induction conditions with
    | nil => exact ⟨fun _ => rfl, by simp [Condition.conjunctsAll]⟩
    | cons condition conditions ihAll =>
      obtain ⟨⟨hvisit, htests⟩, hrest⟩ := List.forall_mem_cons.mp ih
      obtain ⟨hvisitAll, htestsAll⟩ := ihAll hrest
      refine ⟨fun validator => ?_, List.forall_mem_append.mpr ⟨htests, htestsAll⟩⟩
      rw [visitAll, Condition.conjunctsAll, List.foldlM_append, hvisit]
      exact bind_congr hvisitAll

/-- A test of the sort key is counted. -/
theorem visitRange_eq_ok {field : Text} : validator.visitRange field = .ok validator' ↔
    some field = validator.rangeKey ∧ validator.rangeConditionSeen = false ∧
      { validator with rangeConditionSeen := true } = validator' := by
  rw [visitRange]
  split_ifs with h
  · simp only [false_iff]
    rintro ⟨hfield, hseen, -⟩
    simp [hfield, hseen] at h
  · obtain ⟨hfield, hseen⟩ : some field = validator.rangeKey ∧ ¬validator.rangeConditionSeen :=
      by simpa using h
    simp [hfield, hseen]

/-- A conjunct is an equality of the partition key, or else a test of the sort key. -/
theorem visit_eq_ok {test : Condition} (hleaf : ∀ first rest, test ≠ .and (first :: rest)) :
    validator.visit test = .ok validator' ↔
      (test.isEquality validator.hashKey = true ∧ validator.hashEqualitySeen = false ∧
          { validator with hashEqualitySeen := true } = validator') ∨
        (test.isEquality validator.hashKey = false ∧
          (∃ name ∈ validator.rangeKey, test.isRangeTest name = true) ∧
          validator.rangeConditionSeen = false ∧
          { validator with rangeConditionSeen := true } = validator') := by
  have hrange (field : Text) : some field = validator.rangeKey ↔
      ∃ name ∈ validator.rangeKey, field = name := by
    cases validator.rangeKey <;> simp [eq_comm]
  cases test with
  | and conditions =>
    cases conditions with
    | nil => simp [visit, Condition.isEquality, Condition.isRangeTest]
    | cons first rest => exact absurd rfl (hleaf first rest)
  | equal field value =>
    rw [visit]
    split_ifs with hfield hseen
    · simp [Condition.isEquality, hfield, hseen]
    · simp [Condition.isEquality, hfield, hseen]
    · simp [Condition.isEquality, Condition.isRangeTest, hfield, visitRange_eq_ok, hrange]
  | lessThan | lessThanEqual | greaterThan | greaterThanEqual | between | beginsWith =>
    simp [visit, Condition.isEquality, Condition.isRangeTest, visitRange_eq_ok, hrange]
  | _ => simp [visit, Condition.isEquality, Condition.isRangeTest]

/-- What a run over the conjuncts accepts, from what has been seen on. -/
theorem foldlM_visit_finish {tests : List Condition}
    (hleaf : ∀ test ∈ tests, ∀ first rest, test ≠ .and (first :: rest))
    (validator : KeyConditionValidator) :
    (tests.foldlM visit validator >>= finish) = .ok () ↔
      tests.countP (Condition.isEquality validator.hashKey)
          + validator.hashEqualitySeen.toNat = 1 ∧
        (tests.filter fun test => !test.isEquality validator.hashKey).length
          + validator.rangeConditionSeen.toNat ≤ 1 ∧
        ∀ test ∈ tests, test.isEquality validator.hashKey = false →
          ∃ name ∈ validator.rangeKey, test.isRangeTest name = true := by
  induction tests generalizing validator with
  | nil =>
    have hseen := Bool.toNat_le validator.rangeConditionSeen
    cases h : validator.hashEqualitySeen <;> simp [finish, h, hseen, pure, Except.pure, bind,
      Except.bind]
  | cons test tests ih =>
    obtain ⟨htest, htests⟩ := List.forall_mem_cons.mp hleaf
    rw [List.foldlM_cons, bind_assoc, Except.bind_eq_ok, List.forall_mem_cons]
    constructor
    · rintro ⟨next, hvisit, hrun⟩
      rw [ih htests] at hrun
      obtain ⟨hequal, hseen, rfl⟩ | ⟨hequal, hname, hseen, rfl⟩ := (visit_eq_ok htest).mp hvisit
      · simpa [hequal, hseen] using hrun
      · obtain ⟨hcount, hsingle, hrange⟩ := hrun
        have hlength : tests.filter (fun test => !test.isEquality validator.hashKey) = [] := by
          simpa using hsingle
        refine ⟨by simpa [hequal] using hcount, ?_, fun _ => hname, hrange⟩
        simp [hequal, hseen, hlength]
    · rintro ⟨hcount, hsingle, hname, hrange⟩
      cases hequal : test.isEquality validator.hashKey with
      | true =>
        rw [List.countP_cons_of_pos hequal] at hcount
        have hseen : validator.hashEqualitySeen = false := by
          cases h : validator.hashEqualitySeen
          · rfl
          · simp [h] at hcount
        refine ⟨_, (visit_eq_ok htest).mpr (.inl ⟨hequal, hseen, rfl⟩), (ih htests _).mpr ?_⟩
        simp_all
      | false =>
        rw [List.filter_cons_of_pos (by simp [hequal]), List.length_cons] at hsingle
        have hseen : validator.rangeConditionSeen = false := by
          cases h : validator.rangeConditionSeen
          · rfl
          · simp [h] at hsingle
        refine ⟨_, (visit_eq_ok htest).mpr (.inr ⟨hequal, hname hequal, hseen, rfl⟩),
          (ih htests _).mpr ?_⟩
        simp_all

end KeyConditionValidator

/-- **Key conditions are recognised exactly**, in any grouping and order, for the first partition
key and the first sort key of the schema. -/
theorem validateKeyCondition_iff (condition : Condition) (keySchema : List KeySchemaElement) :
    validateKeyCondition condition keySchema = .ok () ↔
      ∃ hash, keySchema.find? (·.keyType = .hash) = some hash ∧
        IsKeyCondition hash.attributeName
          ((keySchema.find? (·.keyType = .range)).map (·.attributeName)) condition := by
  obtain ⟨hvisit, htests⟩ := KeyConditionValidator.visit_eq_foldlM condition
  simp only [validateKeyCondition, KeyConditionValidator.new, hvisit, bind_assoc, pure_bind]
  rw [Except.bind_eq_ok]
  refine exists_congr fun hash => and_congr okOr_eq_ok ?_
  rw [KeyConditionValidator.foldlM_visit_finish htests]
  exact ⟨fun ⟨h, h', h''⟩ => ⟨h, h', h''⟩, fun ⟨h, h', h''⟩ => ⟨h, h', h''⟩⟩

end AuxStorage
