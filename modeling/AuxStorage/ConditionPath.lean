import AuxStorage.ConditionFuel

/-!
# The Paths of Conditions

A path of an expression is a list of steps, and each name in it, written out or behind a
placeholder, is one segment (`literalPathValue`). The parser joins the steps to a text, which the
evaluator cuts again at every dot and bracket. The two readings differ exactly when a
placeholder stands for a name with a dot or a bracket in it. A path with an index that is no
machine number leads nowhere in both readings.
-/

namespace AuxStorage

open Document TokenStream
open Option (bind_eq_bind bind_fun_none bind_some)
open List hiding append_nil length_append
open Condition (equal)

/-! ### The literal reading -/

/-- The segment of a step. -/
def ConditionStep.segment : ConditionStep → Option UpdatePathSegment
  | .identifier name | .placeholder name => some (.name name)
  | .index digits => (parseUsize digits).map .index

/-- The value that steps lead to, one segment for each. -/
def followSteps (current : AttributeValue) : List ConditionStep → Option AttributeValue
  | [] => some current
  | step :: steps => do
      let segment ← step.segment
      let value ← getSegment segment current
      followSteps value steps

/-- **The literal reading of a path**: every name is one segment, whatever its characters. -/
def literalPathValue (item : AttributeValueLookup) : List ConditionStep → Option AttributeValue
  | .identifier name :: steps | .placeholder name :: steps => do
      let current ← item name
      followSteps current steps
  | _ => none

/-- A name without the characters at which a path is cut. -/
def PlainName (name : Text) : Prop :=
  ∀ c ∈ name, isPathSeparator c = false

instance (name : Text) : Decidable (PlainName name) :=
  inferInstanceAs (Decidable (∀ c ∈ name, isPathSeparator c = false))

/-- What lexed tokens say about a step: an identifier has no separator, and an index is made
of the characters of numbers. -/
def ConditionStep.Lexed : ConditionStep → Prop
  | .identifier name => PlainName name
  | .placeholder _ => True
  | .index digits => ∀ c ∈ digits, Lexer.isNumber c = true

/-- A step whose name has no separator. -/
def ConditionStep.Plain : ConditionStep → Prop
  | .identifier name | .placeholder name => PlainName name
  | .index digits => ∀ c ∈ digits, Lexer.isNumber c = true

/-- An index that a list can have. -/
def ConditionStep.Readable : ConditionStep → Prop
  | .index digits => (parseUsize digits).isSome
  | _ => True

theorem isNumber_closing : Lexer.isNumber ']' = false := by decide

variable {digits : Text}

theorem closing_not_mem (h : ∀ c ∈ digits, Lexer.isNumber c = true) : ']' ∉ digits := by
  intro hmem
  have hclosing := h _ hmem
  rw [isNumber_closing] at hclosing
  cases hclosing

/-! ### Cutting a path -/

theorem tailText_head (steps : List ConditionStep) :
    ∀ c ∈ (tailText steps).head?, isPathSeparator c = true := by
  cases steps with
  | nil => simp
  | cons step steps =>
    intro c hc
    cases step <;> simp [ConditionStep.text] at hc <;> subst hc <;> rfl

theorem takeWhile_of_head {α : Type} {p : α → Bool} {l : List α}
    (h : ∀ a ∈ l.head?, p a = false) : l.takeWhile p = [] ∧ l.dropWhile p = l := by
  cases l with
  | nil => exact ⟨rfl, rfl⟩
  | cons a l => simp [h a (by simp)]

variable {name : Text}

theorem rootField_append {rest : Text} (hname : PlainName name)
    (hrest : ∀ c ∈ rest.head?, isPathSeparator c = true) :
    rootField (name ++ rest) = name ∧ pathTail (name ++ rest) = rest := by
  have hall : ∀ c ∈ name, (!isPathSeparator c) = true := by
    intro c hc
    rw [hname c hc]
    rfl
  obtain ⟨htake, hdrop⟩ : rest.takeWhile (fun c => !isPathSeparator c) = [] ∧
      rest.dropWhile (fun c => !isPathSeparator c) = rest :=
    takeWhile_of_head fun c hc => by rw [hrest c hc]; rfl
  rw [rootField, pathTail, takeWhile_append_of_pos hall, dropWhile_append_of_pos hall,
    htake, hdrop, List.append_nil]
  exact ⟨rfl, rfl⟩

theorem plainName_rootField (path : Text) : PlainName (rootField path) := by
  intro c hc
  have h := mem_takeWhile_imp hc
  simpa using h

theorem followPath_bracket (current : AttributeValue) (h : ']' ∉ digits) (rest : Text) :
    followPath current ('[' :: (digits ++ ']' :: rest))
      = (parseUsize digits).bind fun index =>
          (getSegment (.index index) current).bind (followPath · rest) :=
  followPath_index current (Str.splitOnce_append h rest)

variable {steps : List ConditionStep}

/-- **Steps without separators in their names are followed one by one.** The induction is on
the steps; each one is cut off at the separator the next one begins with. -/
theorem followPath_tailText (h : ∀ step ∈ steps, step.Plain) (current : AttributeValue) :
    followPath current (tailText steps) = followSteps current steps := by
  induction steps generalizing current with
  | nil => rw [tailText_nil, followPath, followSteps]
  | cons step steps ih =>
    have hsteps := fun value => ih (fun s hs => h s (mem_cons_of_mem step hs)) value
    have hstep := h step (by simp)
    cases step with
    | identifier name | placeholder name =>
      obtain ⟨hroot, htail⟩ := rootField_append hstep (tailText_head steps)
      rw [tailText_cons, ConditionStep.text, cons_append, followPath_dot, hroot, htail, followSteps]
      simp only [ConditionStep.segment, bind_eq_bind, bind_some, hsteps]
    | index digits =>
      rw [tailText_cons, ConditionStep.text, cons_append, append_assoc,
        singleton_append, followPath_bracket current (closing_not_mem hstep), followSteps]
      simp only [ConditionStep.segment, bind_eq_bind, Option.bind_map, hsteps]
      rfl

/-! ### Unreadable indexes -/

theorem parseUsize_eq_none_of_mem {c : Char} (hc : c ∈ digits) (hdigit : c.isDigit = false)
    (hplus : c ≠ '+') : parseUsize digits = none := by
  rw [parseUsize]
  refine if_neg fun h => ?_
  have hmem : c ∈ (if digits.head? = some '+' then digits.tail else digits) := by
    split
    · rename_i hhead
      cases digits with
      | nil => cases hc
      | cons d digits =>
        rcases mem_cons.mp hc with rfl | hc
        · exact absurd (Option.some.inj hhead) hplus
        · exact hc
    · exact hc
  have hall := all_eq_true.mp h.2 c hmem
  rw [hdigit] at hall
  cases hall

theorem pathTail_append_bracket (before rest : Text) :
    pathTail (before ++ '[' :: rest) = pathTail before ++ '[' :: rest := by
  rw [pathTail, pathTail, dropWhile_append]
  split
  · rename_i hempty
    rw [isEmpty_iff.mp hempty]
    rfl
  · rfl

/-- An unreadable index is reached as an index, or is cut into one that begins earlier and
has a bracket in it. The induction is on what stands before it. -/
theorem followPath_unreadable (hclosing : ']' ∉ digits) (hdigits : parseUsize digits = none)
    (before rest : Text) (current : AttributeValue) :
    followPath current (before ++ '[' :: (digits ++ ']' :: rest)) = none := by
  induction hlength : before.length using Nat.strong_induction_on generalizing before current with
  | _ length ih =>
    cases before with
    | nil =>
      rw [nil_append, followPath_bracket current hclosing, hdigits]
      rfl
    | cons c before =>
      rw [length_cons] at hlength
      rw [cons_append]
      by_cases hdot : c = '.'
      · subst hdot
        have hle := length_pathTail_le before
        have hnone : ∀ value, followPath value (pathTail before ++ '[' :: (digits ++ ']' :: rest))
            = none := fun value => ih _ (by omega) (pathTail before) value rfl
        rw [followPath_dot, pathTail_append_bracket]
        simp only [hnone, bind_fun_none]
      by_cases hbracket : c = '['
      · subst hbracket
        by_cases hmem : ']' ∈ before
        · obtain ⟨index, after, rfl, hindex⟩ := eq_append_cons_of_mem hmem
          have hnone : ∀ value, followPath value (after ++ '[' :: (digits ++ ']' :: rest))
              = none := by
            intro value
            refine ih after.length ?_ after value rfl
            rw [List.length_append, length_cons] at hlength
            omega
          rw [append_assoc, cons_append, followPath_bracket current hindex]
          simp only [hnone, bind_fun_none]
        · have hindex : ']' ∉ before ++ '[' :: digits := by
            simp [hmem, hclosing]
          have hsplit : before ++ '[' :: (digits ++ ']' :: rest)
              = (before ++ '[' :: digits) ++ ']' :: rest := by simp
          have hnone : parseUsize (before ++ '[' :: digits) = none :=
            parseUsize_eq_none_of_mem (by simp) (c := '[') (by decide) (by decide)
          rw [hsplit, followPath_bracket current hindex, hnone]
          rfl
      · rw [followPath, if_neg hdot, if_neg hbracket]

theorem tailText_of_index_mem (h : .index digits ∈ steps) :
    ∃ before rest, tailText steps = before ++ '[' :: (digits ++ ']' :: rest) := by
  obtain ⟨left, right, rfl⟩ := append_of_mem h
  refine ⟨tailText left, tailText right, ?_⟩
  simp [tailText, ConditionStep.text]

theorem followSteps_unreadable (h : .index digits ∈ steps) (hdigits : parseUsize digits = none)
    (current : AttributeValue) : followSteps current steps = none := by
  induction steps generalizing current with
  | nil => cases h
  | cons step steps ih =>
    rw [followSteps]
    rcases mem_cons.mp h with rfl | h
    · simp [ConditionStep.segment, hdigits]
    · simp only [ih h, bind_eq_bind, bind_fun_none]

/-! ### Probes -/

/-- A value in which steps lead to a leaf, and no name leads anywhere else. -/
def probe : List ConditionStep → AttributeValue
  | [] => .NULL true
  | .identifier name :: steps | .placeholder name :: steps => .M [(name, probe steps)]
  | .index digits :: steps =>
    .L (List.replicate ((parseUsize digits).getD 0) (.NULL true) ++ [probe steps])

theorem lookup_singleton (name other : Text) (value : AttributeValue) :
    OrderedMap.lookup [(name, value)] other = if name = other then some value else none := by
  rw [OrderedMap.lookup_cons, OrderedMap.lookup_nil]

theorem getSegment_probe_index {index : ℕ} (h : parseUsize digits = some index)
    (steps : List ConditionStep) :
    getSegment (.index index) (probe (.index digits :: steps)) = some (probe steps) := by
  rw [probe, h, Option.getD_some, getSegment, getElem?_append_right (by simp)]
  simp

theorem followSteps_probe (h : ∀ step ∈ steps, step.Readable) :
    followSteps (probe steps) steps = some (.NULL true) := by
  induction steps with
  | nil => rfl
  | cons step steps ih =>
    have hsteps := ih fun s hs => h s (mem_cons_of_mem step hs)
    rw [followSteps]
    cases step with
    | identifier name | placeholder name =>
      simp only [ConditionStep.segment, probe, getSegment, lookup_singleton, if_pos, hsteps,
        bind_eq_bind, bind_some]
    | index digits =>
      have hreadable : (parseUsize digits).isSome := h (.index digits) (by simp)
      obtain ⟨index, hindex⟩ := Option.isSome_iff_exists.mp hreadable
      simp only [ConditionStep.segment, hindex, Option.map_some, bind_eq_bind,
        bind_some, getSegment_probe_index hindex, hsteps]

theorem rootField_ne (h : ¬PlainName name) (rest : Text) : name ≠ rootField (name ++ rest) :=
  fun heq => h (heq ▸ plainName_rootField _)

/-- **A placeholder with a separator is cut**: its first part is no name of the probe. -/
theorem followPath_probe (hlexed : ∀ step ∈ steps, step.Lexed) (hmem : .placeholder name ∈ steps)
    (hname : ¬PlainName name) : followPath (probe steps) (tailText steps) = none := by
  induction steps with
  | nil => cases hmem
  | cons step steps ih =>
    have hsteps := ih fun s hs => hlexed s (mem_cons_of_mem step hs)
    have hstep := hlexed step (by simp)
    rw [tailText_cons]
    cases step with
    | identifier first =>
      obtain ⟨hroot, htail⟩ := rootField_append hstep (tailText_head steps)
      rw [ConditionStep.text, cons_append, followPath_dot, hroot, htail, probe, getSegment,
        lookup_singleton, if_pos rfl]
      exact hsteps (by simpa using hmem)
    | placeholder first =>
      rw [ConditionStep.text, cons_append, followPath_dot, probe, getSegment, lookup_singleton]
      by_cases hplain : PlainName first
      · obtain ⟨hroot, htail⟩ := rootField_append hplain (tailText_head steps)
        rw [hroot, htail, if_pos rfl]
        refine hsteps ?_
        rcases mem_cons.mp hmem with heq | hmem
        · exact absurd hplain (by cases heq; exact hname)
        · exact hmem
      · rw [if_neg (rootField_ne hplain _)]
        rfl
    | index digits =>
      rw [ConditionStep.text, cons_append, append_assoc, singleton_append,
        followPath_bracket _ (closing_not_mem hstep)]
      cases hindex : parseUsize digits with
      | none => rfl
      | some index =>
        rw [bind_some, getSegment_probe_index hindex]
        exact hsteps (by simpa using hmem)

/-! ### Paths of expressions -/

variable {context : ExpressionContext} {tokens : List Token}

theorem PathTokens.exists_name (h : PathTokens context tokens steps) :
    ∃ name rest, (steps = .identifier name :: rest ∨ steps = .placeholder name :: rest) ∧
      pathText steps = name ++ tailText rest := by
  obtain ⟨hname, -⟩ := h
  cases hname with
  | identifier name => exact ⟨name, _, .inl rfl, rfl⟩
  | placeholder h => exact ⟨_, _, .inr rfl, rfl⟩

variable {tables : CharTables}

theorem isPathSeparator_of_isIdentifier {c : Char} (h : Lexer.isIdentifier tables c = true) :
    isPathSeparator c = false := by
  have hascii : ∀ d : Char, d.toNat < 128 →
      Lexer.isIdentifier tables d = (d.isAlpha || d.isDigit || d == '_') := by
    intro d hd
    rw [Lexer.isIdentifier, tables.isAlphabetic_ascii d hd, tables.isNumeric_ascii d hd]
  rw [isPathSeparator, Bool.or_eq_false_iff]
  refine ⟨beq_false_of_ne ?_, beq_false_of_ne ?_⟩
  · rintro rfl
    rw [hascii _ (by decide)] at h
    exact absurd h (by decide)
  · rintro rfl
    rw [hascii _ (by decide)] at h
    exact absurd h (by decide)

theorem NameToken.lexed {token : Token} {step : ConditionStep} (h : NameToken context token step)
    (hlexed : token.Lexed tables) : step.Lexed := by
  cases h with
  | identifier name => exact fun c hc => isPathSeparator_of_isIdentifier (hlexed c hc)
  | placeholder h => trivial

theorem TailTokens.lexed (h : TailTokens context tokens steps)
    (hlexed : ∀ token ∈ tokens, token.Lexed tables) : ∀ step ∈ steps, step.Lexed := by
  induction h with
  | nil => simp
  | name hname _ ih =>
    exact forall_mem_cons.mpr
      ⟨hname.lexed (hlexed _ (by simp)), ih fun t ht => hlexed t (by simp [ht])⟩
  | index digits _ ih =>
    exact forall_mem_cons.mpr
      ⟨hlexed (.number digits) (by simp), ih fun t ht => hlexed t (by simp [ht])⟩

theorem PathTokens.lexed (h : PathTokens context tokens steps)
    (hlexed : ∀ token ∈ tokens, token.Lexed tables) : ∀ step ∈ steps, step.Lexed := by
  obtain ⟨hname, htail⟩ := h
  exact forall_mem_cons.mpr
    ⟨hname.lexed (hlexed _ (by simp)), htail.lexed fun t ht => hlexed t (by simp [ht])⟩

theorem Occurrences.exists_tokens {paths : List (List ConditionStep)}
    (h : Occurrences context tokens paths) (hsteps : steps ∈ paths) :
    ∃ path, PathTokens context path steps ∧ path ⊆ tokens := by
  induction h with
  | nil => cases hsteps
  | other _ _ ih =>
    obtain ⟨path, hpath, hsub⟩ := ih hsteps
    exact ⟨path, hpath, List.Subset.trans hsub (subset_cons_self _ _)⟩
  | path leaves hpath _ ih =>
    rcases mem_append.mp hsteps with hsteps | hsteps
    · obtain rfl := eq_of_mem_replicate hsteps
      exact ⟨_, hpath, subset_append_left _ _⟩
    · obtain ⟨path, hpath, hsub⟩ := ih hsteps
      exact ⟨path, hpath, List.Subset.trans hsub (subset_append_right _ _)⟩

/-- The item with one attribute. -/
def singleAttribute (name : Text) (value : AttributeValue) : AttributeMap :=
  OrderedMap.empty.insert name value

theorem get_singleAttribute (name other : Text) (value : AttributeValue) :
    (singleAttribute name value).get other = if other = name then some value else none := by
  rw [singleAttribute, OrderedMap.get_insert, OrderedMap.get_empty]

theorem getPathValue_unreadable (hclosing : ']' ∉ digits) (hdigits : parseUsize digits = none)
    (h : .index digits ∈ steps) (item : AttributeValueLookup) (name : Text) :
    Condition.getPathValue item (name ++ tailText steps) = none := by
  obtain ⟨before, rest, htext⟩ := tailText_of_index_mem h
  rw [Condition.getPathValue, htext, ← append_assoc, pathTail_append_bracket]
  simp only [followPath_unreadable hclosing hdigits, bind_eq_bind, bind_fun_none]

/-- What the literal reading of a path needs: no placeholder stands for a name with a
separator, or the path has an index that is no machine number. -/
def LiteralPath (steps : List ConditionStep) : Prop :=
  (∀ name, .placeholder name ∈ steps → PlainName name) ∨
    ∃ digits, .index digits ∈ steps ∧ parseUsize digits = none

theorem getPathValue_of_literalPath (hlexed : ∀ step ∈ steps, step.Lexed)
    (h : (PlainName name ∧ ∀ n, .placeholder n ∈ steps → PlainName n) ∨
      ∃ digits, .index digits ∈ steps ∧ parseUsize digits = none) (item : AttributeValueLookup) :
    Condition.getPathValue item (name ++ tailText steps) = (item name).bind (followSteps · steps) := by
  rcases h with ⟨hname, hplain⟩ | ⟨digits, hmem, hdigits⟩
  · obtain ⟨hroot, htail⟩ := rootField_append hname (tailText_head steps)
    have hsteps : ∀ step ∈ steps, step.Plain := by
      intro step hstep
      have hlexed := hlexed step hstep
      cases step with
      | identifier n => exact hlexed
      | placeholder n => exact hplain n hstep
      | index digits => exact hlexed
    rw [Condition.getPathValue, hroot, htail]
    simp only [followPath_tailText hsteps, bind_eq_bind]
  · have hclosing := closing_not_mem (hlexed _ hmem)
    rw [getPathValue_unreadable hclosing hdigits hmem]
    simp only [followSteps_unreadable hmem hdigits, bind_fun_none]

/-- A name with a separator is cut: the item of the probe has no attribute under its root. -/
theorem getPathValue_probe (hlexed : ∀ step ∈ steps, step.Lexed)
    (h : ¬PlainName name ∨ ∃ n, .placeholder n ∈ steps ∧ ¬PlainName n) :
    Condition.getPathValue (singleAttribute name (probe steps)).get (name ++ tailText steps)
      = none := by
  rw [Condition.getPathValue, get_singleAttribute]
  by_cases hname : PlainName name
  · obtain ⟨hroot, htail⟩ := rootField_append hname (tailText_head steps)
    obtain ⟨n, hmem, hn⟩ := h.resolve_left (not_not_intro hname)
    rw [hroot, htail, if_pos rfl]
    exact followPath_probe hlexed hmem hn
  · rw [if_neg (rootField_ne hname _).symm]
    rfl

/-- **The two readings of a path agree on every item exactly when no placeholder is cut.** -/
theorem getPathValue_eq_literal_iff (hpath : PathTokens context tokens steps)
    (hlexed : ∀ step ∈ steps, step.Lexed) :
    (∀ item : AttributeMap,
      Condition.getPathValue item.get (pathText steps) = literalPathValue item.get steps)
      ↔ LiteralPath steps := by
  obtain ⟨name, rest, hsteps, htext⟩ := hpath.exists_name
  have hrest : ∀ step ∈ rest, step.Lexed := by
    rcases hsteps with rfl | rfl
    · exact fun step hstep => hlexed step (mem_cons_of_mem _ hstep)
    · exact fun step hstep => hlexed step (mem_cons_of_mem _ hstep)
  have hliteral : ∀ item, literalPathValue item steps = (item name).bind (followSteps · rest) := by
    rcases hsteps with rfl | rfl
    · exact fun item => rfl
    · exact fun item => rfl
  have hcondition : LiteralPath steps ↔ (PlainName name ∧ ∀ n, .placeholder n ∈ rest → PlainName n) ∨
      ∃ digits, .index digits ∈ rest ∧ parseUsize digits = none := by
    rcases hsteps with rfl | rfl
    · have hname : PlainName name := hlexed (.identifier name) (by simp)
      simp [LiteralPath, hname]
    · simp [LiteralPath]
  rw [htext, hcondition]
  constructor
  · intro h
    by_contra hnot
    rw [not_or] at hnot
    obtain ⟨hcut, hindex⟩ := hnot
    have hreadable : ∀ step ∈ rest, step.Readable := by
      intro step hstep
      cases step with
      | identifier n | placeholder n => trivial
      | index digits =>
        exact Option.isSome_iff_ne_none.mpr fun hnone => hindex ⟨digits, hstep, hnone⟩
    have hprobe := h (singleAttribute name (probe rest))
    rw [hliteral, get_singleAttribute, if_pos rfl, bind_some, followSteps_probe hreadable,
      getPathValue_probe hrest] at hprobe
    · cases hprobe
    · by_contra hplain
      push Not at hplain
      exact hcut hplain
  · intro h item
    rw [hliteral]
    exact getPathValue_of_literalPath hrest h item.get

/-- **A placeholder of a condition is one literal segment exactly when its name has no dot and
no bracket.** The paths a parsed condition reads are the paths of its expression, in their
order. Such a path leads, in every item, to what its names literally name if and only if no
placeholder in it stands for a name with a separator, or it leads nowhere in either reading
because of an index that is no machine number. -/
theorem conditionPaths_literal_iff {tables : CharTables} {context : ExpressionContext}
    {expression : Text} {condition : Condition}
    (h : parseConditionExpression tables context expression = .ok condition) :
    ∃ tokens paths, Lexer.lex tables expression = append tokens .eof ∧
      Occurrences context tokens paths ∧ condition.attributePaths = paths.map pathText ∧
      ∀ steps ∈ paths, ((∀ item : AttributeMap,
        Condition.getPathValue item.get (pathText steps) = literalPathValue item.get steps)
          ↔ LiteralPath steps) := by
  obtain ⟨rest, ⟨tokens, paths, hstream, hoccurs, hfields, -⟩, hready, hend⟩ :=
    ConditionParser.reads_of_parse h
  have hlexed := Lexer.lex_lexed tables expression
  rw [hstream] at hlexed
  obtain ⟨htokens, hrest⟩ := hlexed.of_append
  have heof : rest = .eof := by
    refine eq_eof_of_current hend hready ?_
    rintro tail rfl
    cases hrest with
    | cons hfalse _ => exact hfalse
  refine ⟨tokens, paths, heof ▸ hstream, hoccurs, hfields, fun steps hsteps => ?_⟩
  obtain ⟨path, hpath, hsub⟩ := hoccurs.exists_tokens hsteps
  exact getPathValue_eq_literal_iff hpath (hpath.lexed fun token ht => htokens token (hsub ht))

/-- A placeholder for the name `a.b`, and a value to compare with. -/
def dottedContext : ExpressionContext where
  names := fun key => if key = text "#n" then some (text "a.b") else none
  values := fun key => if key = text ":v" then some (.S (text "x")) else none
  jsonText := fun _ => []

theorem conditionPaths_literal_iff_dotted :
    parseConditionExpression asciiTables dottedContext (text "#n = :v")
        = .ok (.equal (text "a.b") (.S (text "x"))) ∧
      ∃ tokens paths, Lexer.lex asciiTables (text "#n = :v") = append tokens .eof ∧
        Occurrences dottedContext tokens paths ∧
        (equal (text "a.b") (.S (text "x"))).attributePaths = paths.map pathText ∧
        ∀ steps ∈ paths, ((∀ item : AttributeMap,
          Condition.getPathValue item.get (pathText steps) = literalPathValue item.get steps)
            ↔ LiteralPath steps) :=
  ⟨rfl, conditionPaths_literal_iff rfl⟩

/-- **A placeholder is cut.** The expression `#n = :v`, with `#n` for the name `a.b`, fails on
the item whose attribute `a.b` has the value, and holds on an item whose attribute `a` is a
map with the value under `b`. -/
theorem placeholder_cut :
    parseConditionExpression asciiTables dottedContext (text "#n = :v")
        = .ok (.equal (text "a.b") (.S (text "x"))) ∧
      evaluateCondition (singleAttribute (text "a.b") (.S (text "x"))).get
        (.equal (text "a.b") (.S (text "x"))) = false ∧
      evaluateCondition (singleAttribute (text "a") (.M [(text "b", .S (text "x"))])).get
        (.equal (text "a.b") (.S (text "x"))) = true := by
  have hroot : rootField (text "a.b") = text "a" := by decide
  have htail : pathTail (text "a.b") = '.' :: text "b" := by decide
  have hnext : rootField (text "b") = text "b" ∧ pathTail (text "b") = [] := by decide
  refine ⟨rfl, ?_, ?_⟩
  · rw [evaluateCondition_of_fieldTest _ rfl, Condition.getPathValue, hroot, get_singleAttribute,
      if_neg (by decide)]
    rfl
  · rw [evaluateCondition_of_fieldTest _ rfl, Condition.getPathValue, hroot, htail,
      get_singleAttribute, if_pos rfl, bind_eq_bind, bind_some, followPath_dot,
      hnext.1, hnext.2, getSegment, lookup_singleton, if_pos rfl, bind_some, followPath]
    rfl

end AuxStorage
