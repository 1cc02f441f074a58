import AuxStorage.AttributeJson
import AuxStorage.ConditionValues
import AuxStorage.UpdateApply

/-!
# Update Requests Through the Caches

An update request is parsed through two caches. The plan of an update expression is kept under its
text and the attribute names, and is bound to the values of each request. A condition is kept with
its values, as far as its text uses them: the placeholders are collected by a **scanner** of their
own, and not by the lexer of conditions. A placeholder that the lexer reads and the scanner does
not collect is not compared, and the condition of another request is returned.
-/

namespace AuxStorage

open Str
open List

/-! ### The scanner of placeholders -/

/-- The characters of a placeholder. -/
def isPlaceholderChar (c : Char) : Bool :=
  c.isAlphanum || c == '_'

/-- A token is collected once. -/
def pushNew (tokens : List Text) (token : Text) : List Text :=
  if token ∈ tokens then tokens else tokens ++ [token]

/-- `collect_expression_attribute_placeholder_refs`, inside a string literal that a quote has
opened or outside of all. -/
def collectPlaceholders (quote : Option Char) (names values : List Text) :
    Text → List Text × List Text
  | [] => (names, values)
  | ch :: rest =>
    match quote with
    | some q =>
      if ch = '\\' then collectPlaceholders quote names values rest.tail
      else if ch = q then collectPlaceholders none names values rest
      else collectPlaceholders quote names values rest
    | none =>
      if ch = '\'' ∨ ch = '"' then collectPlaceholders (some ch) names values rest
      else if ch ≠ '#' ∧ ch ≠ ':' then collectPlaceholders none names values rest
      else
        let token := ch :: rest.takeWhile isPlaceholderChar
        let behind := rest.dropWhile isPlaceholderChar
        if token.length = 1 then collectPlaceholders none names values behind
        else if ch = '#' then collectPlaceholders none (pushNew names token) values behind
        else collectPlaceholders none names (pushNew values token) behind
termination_by text => text.length
decreasing_by
  all_goals
    simp only [length_cons, length_tail]
    have := length_dropWhile_le isPlaceholderChar rest
    omega

/-- The placeholders of values in an expression. -/
def usedValues (expression : Text) : List Text :=
  (collectPlaceholders none [] [] expression).2

/-! ### Equality of values -/

mutual

/-- The equality of values: that of nested maps looks each entry up in the other map. -/
def sameValue : AttributeValue → AttributeValue → Bool
  | .L left, .L right => left.length == right.length && sameElements left right
  | .M left, .M right => left.length == right.length && sameEntries left right
  | left, right => decide (left = right)

def sameElements : List AttributeValue → List AttributeValue → Bool
  | value :: left, other :: right => sameValue value other && sameElements left right
  | _, _ => true

def sameEntries : List (Text × AttributeValue) → List (Text × AttributeValue) → Bool
  | [], _ => true
  | (name, value) :: left, right =>
    (match OrderedMap.lookup right name with
      | some other => sameValue value other
      | none => false) && sameEntries left right

end

theorem AttributeValue.SortedNamesEntries.of_mem {entries : List (Text × AttributeValue)}
    (h : AttributeValue.SortedNamesEntries entries) {entry : Text × AttributeValue}
    (hmem : entry ∈ entries) : entry.2.SortedNames := by
  induction entries with
  | nil => cases hmem
  | cons head rest ih =>
    rcases mem_cons.1 hmem with rfl | hmem
    · exact h.1
    · exact ih h.2 hmem

/-- Maps that list their names in increasing order are equal if one has the entries of the other
and no fewer. -/
theorem entries_eq_of_subset {left right : List (Text × AttributeValue)}
    (hleft : (left.map Prod.fst).Pairwise fun a b => compareUtf8 a b = .lt)
    (hright : (right.map Prod.fst).Pairwise fun a b => compareUtf8 a b = .lt)
    (hlength : left.length = right.length) (hsub : left ⊆ right) : left = right := by
  have hnodup : left.Nodup := (nodup_of_pairwise_compareUtf8 hleft).of_map
  have hperm : left.Perm right := (hnodup.subperm hsub).perm_of_length_le hlength.ge
  refine hperm.eq_of_pairwise (fun a b _ _ hab hba => ?_) (pairwise_map.1 hleft)
    (pairwise_map.1 hright)
  have hswap : List.compareLex compare b.1.bytes a.1.bytes
      = (List.compareLex compare a.1.bytes b.1.bytes).swap := Std.OrientedCmp.eq_swap
  rw [compareUtf8] at hab hba
  rw [hba, hab] at hswap
  cases hswap

/-- **Equal maps are the same map**, listed in the one order of its names. -/
theorem eq_of_sameValue {value other : AttributeValue} (hvalue : value.SortedNames)
    (hother : other.SortedNames) (h : sameValue value other = true) : value = other := by
  induction value using AttributeValue.nestedInduction generalizing other with
  | L left ih =>
    cases other
    case L right =>
      rw [sameValue, Bool.and_eq_true, beq_iff_eq] at h
      refine congrArg _ ?_
      induction left generalizing right with
      | nil => exact (length_eq_zero_iff.mp h.1.symm).symm
      | cons value left ihLeft =>
        rcases right with _ | ⟨other, right⟩
        · cases h.1
        rw [sameElements, Bool.and_eq_true] at h
        rw [ih value mem_cons_self hvalue.1 hother.1 h.2.1,
          ihLeft (fun value hmem => ih value (mem_cons_of_mem _ hmem)) hvalue.2 right
            hother.2 ⟨Nat.succ.inj h.1, h.2.2⟩]
    all_goals simp [sameValue] at h
  | M left ih =>
    cases other
    case M right =>
      rw [sameValue, Bool.and_eq_true, beq_iff_eq] at h
      refine congrArg _ (entries_eq_of_subset hvalue.1 hother.1 h.1 ?_)
      replace h := h.2
      replace hvalue := hvalue.2
      induction left with
      | nil => exact nil_subset _
      | cons entry left ihLeft =>
        rw [sameEntries, Bool.and_eq_true] at h
        refine cons_subset.2 ⟨?_, ihLeft (fun entry hmem =>
          ih entry (mem_cons_of_mem _ hmem)) h.2 hvalue.2⟩
        cases hfound : OrderedMap.lookup right entry.1 with
        | none =>
          rw [hfound] at h
          cases h.1
        | some found =>
          rw [hfound] at h
          have hmem := OrderedMap.mem_of_lookup_eq_some hfound
          have heq : entry.2 = found :=
            ih entry mem_cons_self hvalue.1 (hother.2.of_mem hmem) h.1
          rwa [← heq] at hmem
    all_goals simp [sameValue] at h
  | _ => simpa [sameValue] using h

/-! ### The condition cache -/

/-- The value of a placeholder. -/
def lookupValue (values : Option AttributeMap) (key : Text) : Option AttributeValue :=
  values.bind fun values => values.get key

structure CachedConditionExpression where
  attributeNames : List (Text × Text)
  attributeValues : List (Text × AttributeValue)
  condition : Condition

/-- The conditions of each expression text. -/
abbrev ConditionCache : Type := OrderedMap Text (List CachedConditionExpression)

/-- `sorted_condition_attribute_values`: the values that the expression uses. -/
def sortedConditionAttributeValues (expression : Text) (values : Option AttributeMap) :
    List (Text × AttributeValue) :=
  (((values.map OrderedMap.entries).getD []).filter fun entry =>
    entry.1 ∈ usedValues expression).mergeSort fun a b => (compareUtf8 a.1 b.1).isLE

def conditionAttributeValuesMatch (values : Option AttributeMap)
    (cachedValues : List (Text × AttributeValue)) : Bool :=
  cachedValues.all fun entry => (lookupValue values entry.1).any fun value =>
    sameValue value entry.2

/-- The condition that a cache holds for an expression, attribute names and values. -/
def ConditionCache.find (cache : ConditionCache) (expression : Text)
    (names : Option (VecMap Text Text)) (values : Option AttributeMap) : Option Condition :=
  ((cache.get expression).bind fun conditions => conditions.find? fun cached =>
    attributeNamesMatch names cached.attributeNames
      && conditionAttributeValuesMatch values cached.attributeValues).map
    CachedConditionExpression.condition

/-- The cache with one more condition for an expression. -/
def ConditionCache.push (cache : ConditionCache) (expression : Text)
    (names : Option (VecMap Text Text)) (values : Option AttributeMap) (condition : Condition) :
    ConditionCache :=
  cache.insert expression ((cache.get expression).getD [] ++
    [⟨sortedAttributeNames names, sortedConditionAttributeValues expression values, condition⟩])

/-- What the parsers rest on: the character tables, the JSON reader of literals, and the JSON text
of values. -/
structure UpdateEnvironment where
  tables : CharTables
  json : JsonReader
  jsonText : AttributeValue → Text

namespace UpdateEnvironment

/-- The context in which the condition of a request is parsed. -/
def context (env : UpdateEnvironment) (names : Option (VecMap Text Text))
    (values : Option AttributeMap) : ExpressionContext where
  names := lookupName names
  values := lookupValue values
  jsonText := env.jsonText

/-- `parse_condition_expression_typed`. -/
def parseCondition (env : UpdateEnvironment) (expression : Text)
    (names : Option (VecMap Text Text)) (values : Option AttributeMap) :
    Except ParseError Condition :=
  parseConditionExpression env.tables (env.context names values) expression

end UpdateEnvironment

/-- `cached_condition_expression`. As with plans, the cache is seen under the read lock and under
the write lock, and `none` is a poisoned lock. -/
def cachedConditionExpression (env : UpdateEnvironment)
    (readCache writeCache : Option ConditionCache) (expression : Text)
    (names : Option (VecMap Text Text)) (values : Option AttributeMap) :
    Except ParseError Condition × Option ConditionCache :=
  match readCache.bind fun cache => cache.find expression names values with
  | some condition => (.ok condition, writeCache)
  | none =>
    match env.parseCondition expression names values with
    | .error error => (.error error, writeCache)
    | .ok condition =>
      match writeCache with
      | none => (.ok condition, none)
      | some cache =>
        match cache.find expression names values with
        | some cached => (.ok cached, some cache)
        | none => (.ok condition, some (cache.push expression names values condition))

/-! ### Requests -/

/-- The arguments of `before_update_item_optional`. Nested maps of the values are hash maps. -/
structure UpdateRequest where
  updateExpression : Option Text
  conditionExpression : Option Text
  names : Option (VecMap Text Text)
  values : Option AttributeMap
  values_sorted : ∀ key value, lookupValue values key = some value → value.SortedNames

/-- The two kinds of validation error. -/
inductive UpdateRequestError
  | update (error : StorageError)
  | condition (error : ParseError)
  deriving DecidableEq

/-- The SET operation of a bound operand that is no sum. -/
def setBoundOperation (field : Text) : UpdateOperand → BoundUpdateOperation
  | .value value => .set field value
  | .ifNotExists path (.value operand) => .setIfNotExists field path operand
  | .listAppend (.value operand1) (.value operand2) => .setListAppend field operand1 operand2
  | operand => .setExpression field operand

/-- One round of `bind_borrowed_update_expression_plan`. Its branches for operands that are
placeholders or literals come to the same as the general one. -/
def bindBorrowedOperationPlan (values : Option AttributeMap) :
    UpdateOperationPlan → Except StorageError BoundUpdateOperation
  | .set field (.arithmetic lhs operator rhs) => do
      let lhs ← bindUpdateValuePlan values lhs
      let rhs ← bindUpdateValuePlan values rhs
      pure (.setArithmetic field lhs rhs operator)
  | .set field value => do
      let operand ← bindUpdateValuePlan values value
      pure (setBoundOperation field operand)
  | .add field value => do
      let value ← bindScalarUpdateValuePlan values value
      pure (.add field value)
  | .remove field => pure (.remove field)
  | .delete field value => do
      let value ← bindScalarUpdateValuePlan values value
      pure (.delete field value)

def bindBorrowedUpdateExpressionPlan (values : Option AttributeMap)
    (plan : List UpdateOperationPlan) : Except StorageError (List BoundUpdateOperation) :=
  plan.mapM (bindBorrowedOperationPlan values)

/-- The two caches of the process. -/
structure UpdateCaches where
  plans : Option PlanCache
  conditions : Option ConditionCache

/-- The caches of a process that starts. -/
def UpdateCaches.empty : UpdateCaches :=
  ⟨some OrderedMap.empty, some OrderedMap.empty⟩

/-- What a call of `before_update_item_optional` returns. -/
abbrev BeforeUpdate : Type :=
  Except UpdateRequestError (List BoundUpdateOperation × Option Condition)

/-- The operations of a request, through the plan cache. -/
def cachedOperations (env : UpdateEnvironment) (cache : Option PlanCache)
    (request : UpdateRequest) :
    Except StorageError (List BoundUpdateOperation) × Option PlanCache :=
  match request.updateExpression with
  | none => (.ok [], cache)
  | some expression =>
    let (plan, cache) :=
      cachedUpdateExpressionPlan env.json cache cache expression request.names
    (plan >>= bindBorrowedUpdateExpressionPlan request.values, cache)

/-- The condition of a request, through the condition cache. -/
def cachedCondition (env : UpdateEnvironment) (cache : Option ConditionCache)
    (request : UpdateRequest) : Except ParseError (Option Condition) × Option ConditionCache :=
  match request.conditionExpression with
  | none => (.ok none, cache)
  | some expression =>
    let (condition, cache) :=
      cachedConditionExpression env cache cache expression request.names request.values
    (condition.map some, cache)

/-- `before_update_item_optional`, with the caches that it leaves behind. -/
def beforeUpdateItemOptional (env : UpdateEnvironment) (caches : UpdateCaches)
    (request : UpdateRequest) : BeforeUpdate × UpdateCaches :=
  match cachedOperations env caches.plans request with
  | (.error error, plans) => (.error (.update error), ⟨plans, caches.conditions⟩)
  | (.ok operations, plans) =>
    match cachedCondition env caches.conditions request with
    | (.error error, conditions) => (.error (.condition error), ⟨plans, conditions⟩)
    | (.ok condition, conditions) => (.ok (operations, condition), ⟨plans, conditions⟩)

/-- Requests one after the other. -/
def runRequests (env : UpdateEnvironment) (caches : UpdateCaches) :
    List UpdateRequest → List BeforeUpdate
  | [] => []
  | request :: rest =>
    let (result, caches) := beforeUpdateItemOptional env caches request
    result :: runRequests env caches rest

/-! ### Requests without caches -/

namespace UpdateRequest

/-- The operations of a request, parsed and bound. -/
def operations (env : UpdateEnvironment) (request : UpdateRequest) :
    Except StorageError (List BoundUpdateOperation) :=
  match request.updateExpression with
  | none => .ok []
  | some expression => parseUpdateExpressionPlan env.json request.names expression >>=
      bindBorrowedUpdateExpressionPlan request.values

/-- The condition of a request, parsed. -/
def condition (env : UpdateEnvironment) (request : UpdateRequest) :
    Except ParseError (Option Condition) :=
  match request.conditionExpression with
  | none => .ok none
  | some expression =>
    (env.parseCondition expression request.names request.values).map some

/-- What a request gives without any cache. -/
def parse (env : UpdateEnvironment) (request : UpdateRequest) : BeforeUpdate :=
  match request.operations env with
  | .error error => .error (.update error)
  | .ok operations =>
    match request.condition env with
    | .error error => .error (.condition error)
    | .ok condition => .ok (operations, condition)

/-- The scanner collects every placeholder that the lexer reads. -/
def Collected (env : UpdateEnvironment) (request : UpdateRequest) : Prop :=
  ∀ expression ∈ request.conditionExpression,
    ∀ name ∈ (Lexer.lex env.tables expression).valueNames, name ∈ usedValues expression

end UpdateRequest

/-! ### Soundness of the condition cache -/

theorem mem_sortedConditionAttributeValues {expression key : Text} {values : Option AttributeMap}
    {value : AttributeValue} :
    (key, value) ∈ sortedConditionAttributeValues expression values ↔
      lookupValue values key = some value ∧ key ∈ usedValues expression := by
  rw [sortedConditionAttributeValues, mem_mergeSort, mem_filter, decide_eq_true_eq]
  refine and_congr_left fun _ => ?_
  cases values with
  | none => simp [lookupValue]
  | some m => exact m.get_eq_some_iff.symm

/-- Every condition of the cache is the one that parsing its expression gives, with the names and
values of some request under which it is filed. -/
def ConditionCache.Sound (env : UpdateEnvironment) (cache : ConditionCache) : Prop :=
  ∀ expression conditions, cache.get expression = some conditions → ∀ cached ∈ conditions,
    ∃ request : UpdateRequest, cached.attributeNames = sortedAttributeNames request.names ∧
      cached.attributeValues = sortedConditionAttributeValues expression request.values ∧
      env.parseCondition expression request.names request.values = .ok cached.condition

theorem ConditionCache.sound_empty (env : UpdateEnvironment) :
    ConditionCache.Sound env OrderedMap.empty := by
  intro expression conditions hconditions
  cases hconditions

/-- Values that match a filed condition are those with which it was parsed, for every placeholder
that is collected and had a value. -/
theorem lookupValue_of_match {expression key : Text} {request filed : UpdateRequest}
    (h : conditionAttributeValuesMatch request.values
      (sortedConditionAttributeValues expression filed.values) = true)
    (hkey : key ∈ usedValues expression) (hsome : (lookupValue filed.values key).isSome = true) :
    lookupValue request.values key = lookupValue filed.values key := by
  obtain ⟨value, hvalue⟩ := Option.isSome_iff_exists.1 hsome
  have hmem := mem_sortedConditionAttributeValues.2 ⟨hvalue, hkey⟩
  have hany := all_eq_true.1 h _ hmem
  cases hother : lookupValue request.values key with
  | none =>
    simp only [hother] at hany
    cases hany
  | some other =>
    simp only [hother, Option.any_some] at hany
    rw [hvalue, eq_of_sameValue (request.values_sorted key other hother)
      (filed.values_sorted key value hvalue) hany]

variable {env : UpdateEnvironment} {request : UpdateRequest} {expression : Text}

/-- **A condition found in the cache is the one that parsing would give.** It was parsed, so that
each of its placeholders had a value, and these are the values that are compared. -/
theorem ConditionCache.Sound.find {cache : ConditionCache}
    (h : cache.Sound env) (hcollected : request.Collected env)
    (hexpression : request.conditionExpression = some expression) {condition : Condition}
    (hfind : cache.find expression request.names request.values = some condition) :
    env.parseCondition expression request.names request.values = .ok condition := by
  obtain ⟨cached, hcached, rfl⟩ := Option.map_eq_some_iff.mp hfind
  obtain ⟨conditions, hconditions, hcached⟩ := Option.bind_eq_some_iff.mp hcached
  obtain ⟨filed, hnames, hvalues, hparse⟩ :=
    h expression conditions hconditions cached (mem_of_find?_eq_some hcached)
  have hmatch := find?_some hcached
  rw [Bool.and_eq_true, hnames, hvalues] at hmatch
  have hlookup : lookupName request.names = lookupName filed.names :=
    funext fun key => (lookupName_eq_of_match hmatch.1 key).symm
  have hcontext : env.context request.names request.values
      = ConditionParser.withValues (env.context filed.names filed.values)
          (lookupValue request.values) := by
    simp only [UpdateEnvironment.context, ConditionParser.withValues, hlookup]
  rw [UpdateEnvironment.parseCondition, hcontext, ConditionParser.parse_congr, ← hparse]
  · rfl
  · intro name hname
    exact lookupValue_of_match hmatch.2 (hcollected expression hexpression name hname)
      (ConditionParser.values_of_parse hparse name hname)

/-- Filing a parsed condition keeps the cache sound. -/
theorem ConditionCache.Sound.push {cache : ConditionCache}
    (h : cache.Sound env) {condition : Condition}
    (hparse : env.parseCondition expression request.names request.values = .ok condition) :
    (cache.push expression request.names request.values condition).Sound env := by
  intro expression' conditions hconditions cached hcached
  rw [ConditionCache.push, OrderedMap.get_insert] at hconditions
  split at hconditions
  · rename_i heq
    subst heq
    cases hconditions
    rcases mem_append.mp hcached with hmem | hmem
    · cases hold : cache.get expression' with
      | none => simp [hold] at hmem
      | some conditions =>
        rw [hold] at hmem
        exact h expression' conditions hold cached hmem
    · obtain rfl := mem_singleton.mp hmem
      exact ⟨request, rfl, rfl, hparse⟩
  · exact h expression' conditions hconditions cached hcached

/-- A lookup in sound caches returns what parsing returns, and leaves a sound cache behind. -/
theorem cachedConditionExpression_eq
    {readCache writeCache : Option ConditionCache} (hread : ∀ c ∈ readCache, c.Sound env)
    (hwrite : ∀ c ∈ writeCache, c.Sound env) (hcollected : request.Collected env)
    (hexpression : request.conditionExpression = some expression) :
    (cachedConditionExpression env readCache writeCache expression request.names
        request.values).1 = env.parseCondition expression request.names request.values ∧
      ∀ c ∈ (cachedConditionExpression env readCache writeCache expression request.names
        request.values).2, c.Sound env := by
  rw [cachedConditionExpression]
  split
  · rename_i condition hfind
    obtain ⟨cache, hcache, hfind⟩ := Option.bind_eq_some_iff.mp hfind
    exact ⟨((hread cache hcache).find hcollected hexpression hfind).symm, hwrite⟩
  · cases hparse : env.parseCondition expression request.names request.values with
    | error error => exact ⟨rfl, hwrite⟩
    | ok condition =>
      cases writeCache with
      | none => exact ⟨rfl, hwrite⟩
      | some cache =>
        have hsound := hwrite cache rfl
        cases hfind : cache.find expression request.names request.values with
        | some cached =>
          have heq := hsound.find hcollected hexpression hfind
          rw [hparse] at heq
          simp only [hfind]
          exact ⟨heq.symm, hwrite⟩
        | none =>
          simp only [hfind]
          refine ⟨trivial, ?_⟩
          rintro c hc
          cases hc
          exact hsound.push hparse

/-! ### Runs of requests -/

/-- Both caches are sound, if their locks are not poisoned. -/
structure UpdateCaches.Sound (env : UpdateEnvironment) (caches : UpdateCaches) : Prop where
  plans : ∀ c ∈ caches.plans, c.Sound env.json
  conditions : ∀ c ∈ caches.conditions, c.Sound env

theorem UpdateCaches.sound_empty (env : UpdateEnvironment) : UpdateCaches.empty.Sound env where
  plans := by
    rintro c hc
    cases hc
    exact PlanCache.sound_empty env.json
  conditions := by
    rintro c hc
    cases hc
    exact ConditionCache.sound_empty env

theorem cachedOperations_eq {cache : Option PlanCache}
    (h : ∀ c ∈ cache, c.Sound env.json) (request : UpdateRequest) :
    (cachedOperations env cache request).1 = request.operations env ∧
      ∀ c ∈ (cachedOperations env cache request).2, c.Sound env.json := by
  rw [cachedOperations, UpdateRequest.operations]
  cases request.updateExpression with
  | none => exact ⟨rfl, h⟩
  | some expression =>
    obtain ⟨hplan, hsound⟩ := cachedUpdateExpressionPlan_eq h h expression request.names
    exact ⟨congrArg (· >>= bindBorrowedUpdateExpressionPlan request.values) hplan, hsound⟩

theorem cachedCondition_eq {cache : Option ConditionCache} (h : ∀ c ∈ cache, c.Sound env)
    (hcollected : request.Collected env) :
    (cachedCondition env cache request).1 = request.condition env ∧
      ∀ c ∈ (cachedCondition env cache request).2, c.Sound env := by
  rw [cachedCondition, UpdateRequest.condition]
  cases hexpression : request.conditionExpression with
  | none => exact ⟨rfl, h⟩
  | some expression =>
    obtain ⟨hcondition, hsound⟩ := cachedConditionExpression_eq h h hcollected hexpression
    exact ⟨congrArg (Except.map some) hcondition, hsound⟩

/-- **One call**: it returns what parsing gives, and the caches stay sound. -/
theorem beforeUpdateItemOptional_eq {caches : UpdateCaches}
    (h : caches.Sound env) (hcollected : request.Collected env) :
    (beforeUpdateItemOptional env caches request).1 = request.parse env ∧
      (beforeUpdateItemOptional env caches request).2.Sound env := by
  obtain ⟨hoperations, hplans⟩ := cachedOperations_eq h.plans request
  obtain ⟨hcondition, hconditions⟩ := cachedCondition_eq h.conditions hcollected
  rw [beforeUpdateItemOptional, UpdateRequest.parse, ← hoperations, ← hcondition]
  generalize cachedOperations env caches.plans request = operations at hplans ⊢
  generalize cachedCondition env caches.conditions request = condition at hconditions ⊢
  rcases operations with ⟨error | operations, plans⟩
  · exact ⟨rfl, hplans, h.conditions⟩
  · rcases condition with ⟨error | condition, conditions⟩
    · exact ⟨rfl, hplans, hconditions⟩
    · exact ⟨rfl, hplans, hconditions⟩

theorem runRequests_of_sound {caches : UpdateCaches}
    (h : caches.Sound env) {requests : List UpdateRequest}
    (hcollected : ∀ request ∈ requests, request.Collected env) :
    runRequests env caches requests = requests.map (UpdateRequest.parse env) := by
  induction requests generalizing caches with
  | nil => rfl
  | cons request rest ih =>
    obtain ⟨hresult, hsound⟩ :=
      beforeUpdateItemOptional_eq h (hcollected request mem_cons_self)
    rw [runRequests, map_cons, ← hresult]
    exact congrArg _ (ih hsound fun r hr => hcollected r (mem_cons_of_mem _ hr))

/-- **The caches are invisible**: each of any sequence of requests gets what parsing gives it
without any cache, if the scanner collects the placeholders of the conditions. -/
theorem runRequests_eq (env : UpdateEnvironment) (requests : List UpdateRequest)
    (hcollected : ∀ request ∈ requests, request.Collected env) :
    runRequests env .empty requests = requests.map (UpdateRequest.parse env) :=
  runRequests_of_sound (UpdateCaches.sound_empty env) hcollected

/-- An environment that reads no JSON literals. -/
def plainEnvironment : UpdateEnvironment :=
  ⟨asciiTables, .unused, fun _ => []⟩

/-- A request with a condition on one number. -/
def numberRequest (expression placeholder number : Text) : UpdateRequest where
  updateExpression := none
  conditionExpression := some expression
  names := none
  values := some (OrderedMap.empty.insert placeholder (.N number))
  values_sorted := by
    intro key value h
    rw [lookupValue, Option.bind_some, OrderedMap.get_insert] at h
    split at h
    · cases h
      trivial
    · cases h

theorem usedValues_plain : usedValues (text "a = :v") = [text ":v"] := by
  simp [usedValues, collectPlaceholders, pushNew, isPlaceholderChar, text]

theorem usedValues_bareColon : usedValues (text "a = :") = [] := by
  simp [usedValues, collectPlaceholders, text]

/-- The caches tell two values of a placeholder apart. -/
theorem plain_runRequests :
    runRequests plainEnvironment .empty
        [numberRequest (text "a = :v") (text ":v") (text "1"),
          numberRequest (text "a = :v") (text ":v") (text "2")]
      = [(numberRequest (text "a = :v") (text ":v") (text "1")).parse plainEnvironment,
          (numberRequest (text "a = :v") (text ":v") (text "2")).parse plainEnvironment] := by
  have hcollected (number : Text) :
      (numberRequest (text "a = :v") (text ":v") number).Collected plainEnvironment := by
    rintro expression hexpression name hname
    cases hexpression
    have hlexed : (Lexer.lex plainEnvironment.tables (text "a = :v")).valueNames = [text ":v"] := by
      decide
    rw [usedValues_plain, ← hlexed]
    exact hname
  refine runRequests_eq plainEnvironment _ fun request hmem => ?_
  simp only [mem_cons, not_mem_nil, or_false] at hmem
  rcases hmem with rfl | rfl
  · exact hcollected _
  · exact hcollected _

/-- **A bare colon is not collected**: the second request gets the condition of the first. -/
theorem bareColon_runRequests :
    runRequests plainEnvironment .empty
        [numberRequest (text "a = :") (text ":") (text "1"),
          numberRequest (text "a = :") (text ":") (text "2")]
      = [.ok ([], some (.equal (text "a") (.N (text "1")))),
          .ok ([], some (.equal (text "a") (.N (text "1"))))] ∧
    (numberRequest (text "a = :") (text ":") (text "2")).parse plainEnvironment
      = .ok ([], some (.equal (text "a") (.N (text "2")))) := by
  have hvalues (number : Text) : sortedConditionAttributeValues (text "a = :")
      (numberRequest (text "a = :") (text ":") number).values = [] := by
    simp [sortedConditionAttributeValues, usedValues_bareColon]
  have hnames : sortedAttributeNames none = [] := by simp [sortedAttributeNames]
  have hfirst : beforeUpdateItemOptional plainEnvironment .empty
      (numberRequest (text "a = :") (text ":") (text "1"))
        = (.ok ([], some (.equal (text "a") (.N (text "1")))), ⟨some OrderedMap.empty,
            some (ConditionCache.push OrderedMap.empty (text "a = :") none
              (numberRequest (text "a = :") (text ":") (text "1")).values
              (.equal (text "a") (.N (text "1"))))⟩) := rfl
  refine ⟨?_, rfl⟩
  simp only [runRequests, hfirst]
  rw [ConditionCache.push, hvalues, hnames]
  rfl

end AuxStorage
