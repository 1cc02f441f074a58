import AuxStorage.UpdateExpression

/-!
# Binding Update Expressions, and the Plan Cache

A parsed expression is a plan that names the values of the request; binding looks these
values up. Plans are kept in a process-wide cache, keyed by the text of the expression and
the attribute names it was parsed with. A call reads the cache under one lock and writes
it under another, so other calls may come in between, and a poisoned lock skips the cache.
-/

namespace AuxStorage

open Str

/-! ### Binding -/

inductive UpdateOperand where
  | value (value : AttributeValue)
  | path (path : Text)
  | ifNotExists (path : Text) (operand : UpdateOperand)
  | listAppend (operand1 operand2 : UpdateOperand)
  | arithmetic (lhs : UpdateOperand) (operator : ArithmeticOperator) (rhs : UpdateOperand)
  deriving DecidableEq, Repr

inductive UpdateOperation where
  | set (field : Text) (value : AttributeValue)
  | setExpression (field : Text) (value : UpdateOperand)
  | setIfNotExists (field path : Text) (operand : AttributeValue)
  | setListAppend (field : Text) (operand1 operand2 : AttributeValue)
  | add (field : Text) (value : AttributeValue)
  | remove (field : Text)
  | delete (field : Text) (value : AttributeValue)
  deriving DecidableEq, Repr

def resolvePlannedAttributeValue (values : Option AttributeMap) (name : Text) :
    Except StorageError AttributeValue :=
  match values with
  | none => .error (.validation (text "Attribute value " ++ name
      ++ text " requires ExpressionAttributeValues"))
  | some values => okOr (.validation (text "Attribute value " ++ name
      ++ text " not found in ExpressionAttributeValues")) (values.get name)

def bindUpdateValuePlan (values : Option AttributeMap) :
    UpdateValuePlan → Except StorageError UpdateOperand
  | .placeholder name => do
      let value ← resolvePlannedAttributeValue values name
      pure (.value value)
  | .literal value => pure (.value value)
  | .path path => pure (.path path)
  | .ifNotExists path operand => do
      let operand ← bindUpdateValuePlan values operand
      pure (.ifNotExists path operand)
  | .listAppend operand1 operand2 => do
      let operand1 ← bindUpdateValuePlan values operand1
      let operand2 ← bindUpdateValuePlan values operand2
      pure (.listAppend operand1 operand2)
  | .arithmetic lhs operator rhs => do
      let lhs ← bindUpdateValuePlan values lhs
      let rhs ← bindUpdateValuePlan values rhs
      pure (.arithmetic lhs operator rhs)

def bindScalarUpdateValuePlan (values : Option AttributeMap) (plan : UpdateValuePlan) :
    Except StorageError AttributeValue := do
  match ← bindUpdateValuePlan values plan with
  | .value value => pure value
  | _ => .error (.validation (text
      "Update operation does not support document paths or function calls"))

/-- The SET operation of a bound operand. -/
def setOperation (field : Text) : UpdateOperand → UpdateOperation
  | .value value => .set field value
  | .ifNotExists path (.value operand) => .setIfNotExists field path operand
  | .listAppend (.value operand1) (.value operand2) =>
    .setListAppend field operand1 operand2
  | operand => .setExpression field operand

/-- One round of the loop of `bind_update_expression_plan`. -/
def bindUpdateOperationPlan (values : Option AttributeMap) :
    UpdateOperationPlan → Except StorageError UpdateOperation
  | .set field value => do
      let operand ← bindUpdateValuePlan values value
      pure (setOperation field operand)
  | .add field value => do
      let value ← bindScalarUpdateValuePlan values value
      pure (.add field value)
  | .remove field => pure (.remove field)
  | .delete field value => do
      let value ← bindScalarUpdateValuePlan values value
      pure (.delete field value)

def bindUpdateExpressionPlan (values : Option AttributeMap)
    (plan : List UpdateOperationPlan) : Except StorageError (List UpdateOperation) :=
  plan.mapM (bindUpdateOperationPlan values)

/-! ### The plan cache -/

structure CachedUpdateExpressionPlan where
  attributeNames : List (Text × Text)
  plan : List UpdateOperationPlan

/-- The plans of each expression text. -/
abbrev PlanCache : Type := OrderedMap Text (List CachedUpdateExpressionPlan)

def attributeNamesMatch (names : Option (VecMap Text Text))
    (cachedNames : List (Text × Text)) : Bool :=
  match names with
  | none => cachedNames.isEmpty
  | some names =>
    names.len == cachedNames.length
      && cachedNames.all fun entry => names.get entry.1 == some entry.2

/-- The order of two entries by name, then by value. -/
def attributeNameLe (a b : Text × Text) : Bool :=
  ((List.compareLex compare a.1 b.1).then (List.compareLex compare a.2 b.2)).isLE

def sortedAttributeNames (names : Option (VecMap Text Text)) : List (Text × Text) :=
  ((names.map OrderedMap.entries).getD []).mergeSort attributeNameLe

/-- The plan a cache holds for an expression and attribute names. -/
def PlanCache.find (cache : PlanCache) (expression : Text)
    (names : Option (VecMap Text Text)) : Option (List UpdateOperationPlan) :=
  ((cache.get expression).bind fun plans =>
    plans.find? fun cached => attributeNamesMatch names cached.attributeNames).map
      CachedUpdateExpressionPlan.plan

/-- The cache with one more plan for an expression. -/
def PlanCache.push (cache : PlanCache) (expression : Text)
    (names : Option (VecMap Text Text)) (plan : List UpdateOperationPlan) : PlanCache :=
  cache.insert expression
    ((cache.get expression).getD [] ++ [⟨sortedAttributeNames names, plan⟩])

/-- `cached_update_expression_plan`. The cache is seen twice, under the read lock and under
the write lock, and `none` is a poisoned lock. The result comes with the cache left
behind. -/
def cachedUpdateExpressionPlan (json : JsonReader) (readCache writeCache : Option PlanCache)
    (expression : Text) (names : Option (VecMap Text Text)) :
    Except StorageError (List UpdateOperationPlan) × Option PlanCache :=
  match readCache.bind fun cache => cache.find expression names with
  | some plan => (.ok plan, writeCache)
  | none =>
    match parseUpdateExpressionPlan json names expression with
    | .error e => (.error e, writeCache)
    | .ok plan =>
      match writeCache with
      | none => (.ok plan, none)
      | some cache =>
        match cache.find expression names with
        | some cached => (.ok cached, some cache)
        | none => (.ok plan, some (cache.push expression names plan))

def parseUpdateExpression (json : JsonReader) (readCache writeCache : Option PlanCache)
    (expression : Text) (names : Option (VecMap Text Text)) (values : Option AttributeMap) :
    Except StorageError (List UpdateOperation) := do
  let plan ← (cachedUpdateExpressionPlan json readCache writeCache expression names).1
  bindUpdateExpressionPlan values plan

/-! ### A successful parse depends on the names only through lookups -/

variable {m : VecMap Text Text}

theorem resolvePathAliases_congr {m' : VecMap Text Text} (hget : ∀ key, m.get key = m'.get key)
    (path : Text) : resolvePathAliases m path = resolvePathAliases m' path := by
  induction path using resolvePathAliases.induct with
  | case1 => rw [resolvePathAliases, resolvePathAliases]
  | case2 ch rest hch ih =>
    rw [resolvePathAliases, resolvePathAliases, if_pos hch, if_pos hch, ih]
  | case3 ch rest hch ih =>
    rw [resolvePathAliases, resolvePathAliases, if_neg hch, if_neg hch]
    simp only [hget, ih]

theorem resolvePathAliases_ne_ok (hget : ∀ key, m.get key = none) {path resolved : Text}
    (hpath : '#' ∈ path) : resolvePathAliases m path ≠ .ok resolved := by
  induction path generalizing resolved with
  | nil => simp at hpath
  | cons ch rest ih =>
    intro h
    rw [resolvePathAliases] at h
    by_cases hch : ch = '#'
    · rw [if_neg (by simpa using hch), Except.bind_eq_ok] at h
      obtain ⟨value, hvalue, -⟩ := h
      rw [hget] at hvalue
      cases hvalue
    · rw [if_pos hch, Except.bind_eq_ok] at h
      obtain ⟨value, hvalue, -⟩ := h
      exact ih (by simpa [Ne.symm hch] using hpath) hvalue

/-- The attribute name of an alias. -/
def lookupName (names : Option (VecMap Text Text)) (key : Text) : Option Text :=
  names.bind fun names => names.get key

section SameNames

variable {json : JsonReader} {names names' : Option (VecMap Text Text)}
  (hnames : ∀ key, lookupName names key = lookupName names' key)

include hnames

theorem resolveDocumentPath_congr {path resolved : Text}
    (h : resolveDocumentPath names path = .ok resolved) :
    resolveDocumentPath names' path = .ok resolved := by
  simp only [resolveDocumentPath] at h ⊢
  by_cases hpath : '#' ∈ path
  · rw [if_neg (by simpa using hpath)] at h ⊢
    cases names with
    | none => cases h
    | some m =>
      cases names' with
      | none => exact absurd h (resolvePathAliases_ne_ok hnames hpath)
      | some m' =>
        rw [← h]
        exact (resolvePathAliases_congr hnames path).symm
  · rw [if_pos hpath] at h ⊢
    exact h

variable {valueExpr : Text} {value : ResolvedValue}

/-- The same for a document path or a literal. -/
theorem atomValuePlan_congr (h : atomValuePlan json names valueExpr = .ok value) :
    atomValuePlan json names' valueExpr = .ok value := by
  have hpath : ∀ {value}, (do
      let path ← resolveDocumentPath names (trim valueExpr)
      pure (ResolvedValue.value (.path path))) = Except.ok value → (do
      let path ← resolveDocumentPath names' (trim valueExpr)
      pure (ResolvedValue.value (.path path))) = Except.ok value := by
    intro value h
    rw [Except.bind_eq_ok] at h ⊢
    obtain ⟨path, hp, h⟩ := h
    exact ⟨path, resolveDocumentPath_congr hnames hp, h⟩
  rw [atomValuePlan] at h ⊢
  split_ifs at h ⊢
  · exact hpath h
  · exact h
  · cases hread : json.read valueExpr with
    | some jsonValue =>
      rw [hread] at h
      exact h
    | none =>
      rw [hread] at h
      exact hpath h

/-- The same for a whole value expression. -/
theorem resolveAttributeValuePlan_congr
    (h : resolveAttributeValuePlan json names valueExpr = .ok value) :
    resolveAttributeValuePlan json names' valueExpr = .ok value := by
  induction valueExpr using resolveAttributeValuePlan.induct generalizing value with
  | case1 x lhs operator rhs harith ihl ihr =>
    rw [resolveAttributeValuePlan_arithmetic json _ harith] at h ⊢
    simp only [Except.bind_eq_ok] at h ⊢
    obtain ⟨l, hl, r, hr, h⟩ := h
    exact ⟨l, ihl hl, r, ihr hr, h⟩
  | case2 x harith hhead =>
    rw [resolveAttributeValuePlan_placeholder json _ harith hhead] at h ⊢
    exact h
  | case3 x harith hhead inner hcall hpair =>
    rw [resolveAttributeValuePlan_ifNotExists_arity json _ harith hhead hcall hpair] at h
    cases h
  | case4 x harith hhead inner hcall pathPart operandPart hpair ih =>
    rw [resolveAttributeValuePlan_ifNotExists json _ harith hhead hcall hpair] at h ⊢
    simp only [Except.bind_eq_ok] at h ⊢
    obtain ⟨path, hp, operand, ho, h⟩ := h
    exact ⟨path, resolveDocumentPath_congr hnames hp, operand, ih ho, h⟩
  | case5 x harith hhead hine inner hcall hpair =>
    rw [resolveAttributeValuePlan_listAppend_arity json _ harith hhead hine hcall
      hpair] at h
    cases h
  | case6 x harith hhead hine inner hcall op1 op2 hpair ih1 ih2 =>
    rw [resolveAttributeValuePlan_listAppend json _ harith hhead hine hcall hpair] at h ⊢
    simp only [Except.bind_eq_ok] at h ⊢
    obtain ⟨operand1, h1, operand2, h2, h⟩ := h
    exact ⟨operand1, ih1 h1, operand2, ih2 h2, h⟩
  | case7 x harith hhead hine happ =>
    rw [resolveAttributeValuePlan_atom json _ harith hhead hine happ] at h ⊢
    exact atomValuePlan_congr hnames h

variable {plan : UpdateOperationPlan}

theorem setOperationPlan_congr {field : Text}
    (h : setOperationPlan json names field valueExpr = .ok plan) :
    setOperationPlan json names' field valueExpr = .ok plan := by
  simp only [setOperationPlan, Except.bind_eq_ok] at h ⊢
  obtain ⟨path, hp, value, hv, h⟩ := h
  exact ⟨path, resolveDocumentPath_congr hnames hp, value,
    resolveAttributeValuePlan_congr hnames hv, h⟩

variable {part : Text}

theorem pathValuePlan_congr {build : Text → UpdateValuePlan → UpdateOperationPlan} {message : Text}
    {parts : Text × Text} (h : pathValuePlan json names build message part parts = .ok plan) :
    pathValuePlan json names' build message part parts = .ok plan := by
  simp only [pathValuePlan, Except.bind_eq_ok] at h ⊢
  obtain ⟨path, hp, value, hv, h⟩ := h
  exact ⟨path, resolveDocumentPath_congr hnames hp, value,
    resolveAttributeValuePlan_congr hnames hv, h⟩

theorem removePlan_congr {path : Text} (h : (do
      let field ← resolveDocumentPath names path
      pure (UpdateOperationPlan.remove field)) = Except.ok plan) :
    (do
      let field ← resolveDocumentPath names' path
      pure (UpdateOperationPlan.remove field)) = Except.ok plan := by
  rw [Except.bind_eq_ok] at h ⊢
  obtain ⟨field, hp, h⟩ := h
  exact ⟨field, resolveDocumentPath_congr hnames hp, h⟩

/-- The same for a part without keyword. -/
theorem continuationPlan_congr {isFirst : Bool}
    (h : continuationPlan json names isFirst part = .ok plan) :
    continuationPlan json names' isFirst part = .ok plan := by
  simp only [continuationPlan] at h ⊢
  split_ifs at h ⊢
  · split at h
    · exact setOperationPlan_congr hnames h
    · cases h
  · split at h
    · exact pathValuePlan_congr hnames h
    · cases h
  · exact removePlan_congr hnames h

theorem partPlan_congr {isFirst : Bool} (h : partPlan json names isFirst part = .ok plan) :
    partPlan json names' isFirst part = .ok plan := by
  rw [partPlan] at h ⊢
  split_ifs at h ⊢
  split at h
  · simp only at h ⊢
    split at h
    · exact setOperationPlan_congr hnames h
    · cases h
  · split at h
    · simp only at h ⊢
      split at h
      · exact pathValuePlan_congr hnames h
      · cases h
    · split at h
      · exact removePlan_congr hnames h
      · split at h
        · simp only at h ⊢
          split at h
          · exact pathValuePlan_congr hnames h
          · cases h
        · exact continuationPlan_congr hnames h

theorem parseParts_congr {operations plan : List UpdateOperationPlan} {parts : List Text}
    (h : parseParts json names operations parts = .ok plan) :
    parseParts json names' operations parts = .ok plan := by
  induction parts generalizing operations with
  | nil => exact h
  | cons part parts ih =>
    rw [parseParts, Except.bind_eq_ok] at h ⊢
    obtain ⟨operation, hop, h⟩ := h
    exact ⟨operation, partPlan_congr hnames hop, ih h⟩

end SameNames

/-! ### Cached names -/

variable {names : Option (VecMap Text Text)}

theorem mem_sortedAttributeNames {key value : Text} :
    (key, value) ∈ sortedAttributeNames names ↔ lookupName names key = some value := by
  rw [sortedAttributeNames, List.mem_mergeSort]
  cases names with
  | none => simp [lookupName]
  | some m => exact m.get_eq_some_iff.symm

/-- **Matching names are the same names**: a cached entry matches exactly when it was made
with the same lookups. -/
theorem lookupName_eq_of_match {names cached : Option (VecMap Text Text)}
    (h : attributeNamesMatch names (sortedAttributeNames cached)) (key : Text) :
    lookupName cached key = lookupName names key := by
  have hfound : ∀ {value}, lookupName cached key = some value →
      lookupName names key = some value := by
    intro value hvalue
    have hmem := mem_sortedAttributeNames.mpr hvalue
    cases names with
    | none =>
      rw [List.isEmpty_iff.mp h] at hmem
      cases hmem
    | some m =>
      simp only [attributeNamesMatch, Bool.and_eq_true, List.all_eq_true] at h
      simpa [lookupName] using h.2 _ hmem
  cases hcached : lookupName cached key with
  | some value => exact (hfound hcached).symm
  | none =>
    -- A further key of the request would make its map the longer one.
    cases names with
    | none => rfl
    | some m =>
      simp only [attributeNamesMatch, Bool.and_eq_true, List.all_eq_true, beq_iff_eq] at h
      have hsub : (sortedAttributeNames cached).map Prod.fst ⊆ m.entries.map Prod.fst := by
        intro k hk
        obtain ⟨entry, hentry, rfl⟩ := List.mem_map.mp hk
        exact List.mem_map_of_mem (m.get_eq_some_iff.mp (h.2 entry hentry))
      have hnodup : ((sortedAttributeNames cached).map Prod.fst).Nodup := by
        rw [sortedAttributeNames, ((List.mergeSort_perm _ attributeNameLe).map Prod.fst).nodup_iff]
        cases cached with
        | none => exact List.nodup_nil
        | some c => exact c.nodup
      have hperm := (hnodup.subperm hsub).perm_of_length_le (by
        rw [List.length_map, List.length_map]
        exact h.1.le)
      rw [lookupName, Option.bind_some, eq_comm, m.get_eq_none_iff, ← hperm.mem_iff]
      intro hk
      obtain ⟨⟨k, value⟩, hentry, rfl⟩ := List.mem_map.mp hk
      rw [mem_sortedAttributeNames.mp hentry] at hcached
      cases hcached

/-! ### Soundness of the cache -/

/-- Every plan of the cache is the one parsing its expression gives, with the attribute
names the plan is filed under. -/
def PlanCache.Sound (json : JsonReader) (cache : PlanCache) : Prop :=
  ∀ expression plans, cache.get expression = some plans → ∀ cached ∈ plans,
    ∃ names, cached.attributeNames = sortedAttributeNames names ∧
      parseUpdateExpressionPlan json names expression = .ok cached.plan

variable {json : JsonReader} {cache : PlanCache} {expression : Text}
  {plan : List UpdateOperationPlan}

theorem PlanCache.Sound.find (h : cache.Sound json)
    (hfind : cache.find expression names = some plan) :
    parseUpdateExpressionPlan json names expression = .ok plan := by
  obtain ⟨cached, hcached, rfl⟩ := Option.map_eq_some_iff.mp hfind
  obtain ⟨plans, hplans, hcached⟩ := Option.bind_eq_some_iff.mp hcached
  obtain ⟨names', hnames', hparse⟩ :=
    h expression plans hplans cached (List.mem_of_find?_eq_some hcached)
  have hmatch : attributeNamesMatch names (sortedAttributeNames names') := by
    rw [← hnames']
    simpa using List.find?_some hcached
  exact parseParts_congr (lookupName_eq_of_match hmatch) hparse

theorem PlanCache.sound_empty (json : JsonReader) : PlanCache.Sound json OrderedMap.empty := by
  intro expression plans hplans
  cases hplans

theorem PlanCache.Sound.push (h : cache.Sound json)
    (hplan : parseUpdateExpressionPlan json names expression = .ok plan) :
    (cache.push expression names plan).Sound json := by
  intro expression' plans hplans cached hcached
  rw [PlanCache.push, OrderedMap.get_insert] at hplans
  split at hplans
  · rename_i heq
    cases hplans
    rcases List.mem_append.mp hcached with hmem | hmem
    · cases hold : cache.get expression with
      | none => simp [hold] at hmem
      | some plans =>
        rw [hold] at hmem
        rw [heq]
        exact h expression plans hold cached hmem
    · obtain rfl := List.mem_singleton.mp hmem
      exact ⟨names, rfl, heq ▸ hplan⟩
  · exact h expression' plans hplans cached hcached

variable {readCache writeCache : Option PlanCache}

/-- **The cache is invisible**: with sound caches a lookup returns what parsing returns,
and leaves a sound cache behind. -/
theorem cachedUpdateExpressionPlan_eq (hread : ∀ c ∈ readCache, c.Sound json)
    (hwrite : ∀ c ∈ writeCache, c.Sound json) (expression : Text)
    (names : Option (VecMap Text Text)) :
    (cachedUpdateExpressionPlan json readCache writeCache expression names).1
        = parseUpdateExpressionPlan json names expression ∧
      ∀ c ∈ (cachedUpdateExpressionPlan json readCache writeCache expression names).2,
        c.Sound json := by
  rw [cachedUpdateExpressionPlan]
  split
  · rename_i plan hfind
    obtain ⟨cache, hcache, hfind⟩ := Option.bind_eq_some_iff.mp hfind
    exact ⟨((hread cache hcache).find hfind).symm, hwrite⟩
  · cases hparse : parseUpdateExpressionPlan json names expression with
    | error e => exact ⟨rfl, hwrite⟩
    | ok plan =>
      cases writeCache with
      | none => exact ⟨rfl, hwrite⟩
      | some cache =>
        have hsound := hwrite cache rfl
        cases hfind : cache.find expression names with
        | some cached =>
          have heq := hsound.find hfind
          rw [hparse] at heq
          simp only [hfind]
          exact ⟨heq.symm, hwrite⟩
        | none =>
          simp only [hfind]
          refine ⟨trivial, ?_⟩
          rintro c hc
          cases hc
          exact hsound.push hparse

/-- The caches a sequence of calls can leave behind, starting with the empty one. Between
the two locks of a call any other call may run, and a lock may be poisoned. -/
inductive PlanCache.Reachable (json : JsonReader) : Option PlanCache → Prop
  | empty : Reachable json (some OrderedMap.empty)
  | poisoned : Reachable json none
  | call {readCache writeCache : Option PlanCache} (expression : Text)
      (names : Option (VecMap Text Text)) :
      Reachable json readCache → Reachable json writeCache →
      Reachable json
        (cachedUpdateExpressionPlan json readCache writeCache expression names).2

theorem PlanCache.Reachable.sound {cache : Option PlanCache}
    (h : PlanCache.Reachable json cache) : ∀ c ∈ cache, c.Sound json := by
  induction h with
  | empty =>
    rintro c hc
    cases hc
    exact PlanCache.sound_empty json
  | poisoned => simp
  | call expression names _ _ ihread ihwrite =>
    exact (cachedUpdateExpressionPlan_eq ihread ihwrite expression names).2

/-- With reachable caches, `parse_update_expression` parses and binds. -/
theorem parseUpdateExpression_eq (hread : PlanCache.Reachable json readCache)
    (hwrite : PlanCache.Reachable json writeCache) (expression : Text)
    (names : Option (VecMap Text Text)) (values : Option AttributeMap) :
    parseUpdateExpression json readCache writeCache expression names values
      = (parseUpdateExpressionPlan json names expression >>=
          bindUpdateExpressionPlan values) := by
  rw [parseUpdateExpression,
    (cachedUpdateExpressionPlan_eq hread.sound hwrite.sound expression names).1]

end AuxStorage
