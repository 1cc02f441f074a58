import AuxStorage.ConditionPath

/-!
# Three Readers of Document Paths

The text of a document path is read in three places: by the parser of update paths, by the parser
of the paths in a response, and by the lookup of conditions, which follows the text without
parsing it first. Each cuts a path in its own way, and they differ on texts that are no paths: an
index without its closing bracket, a name right behind an index, or an empty name.

The **spelling** of a path says which texts are paths. On these the readers agree.
-/

namespace AuxStorage

open Document List

/-! ### The parser of response paths -/

/-- The error of a response path. -/
def invalidResponsePath : StorageError :=
  .validation (text "Invalid document path")

/-- The loop of `parse_response_path`, with the segments so far and the text since the start of the
name. A dot behind an index belongs to the index. -/
def parseResponsePathLoop (segments : List UpdatePathSegment) (current : Text) (rest : Text) :
    Except StorageError (List UpdatePathSegment) :=
  match rest with
  | [] =>
    let segments := pushName segments current
    if segments = [] then .error invalidResponsePath else pure segments
  | ch :: tail =>
    if ch = '.' then
      if current = [] then .error invalidResponsePath
      else parseResponsePathLoop (pushName segments current) [] tail
    else if ch = '[' then
      match _h : Str.splitOnce ']' tail with
      | none => .error invalidResponsePath
      | some (digits, behind) => do
          let index ← okOr invalidResponsePath (parseUsize digits)
          parseResponsePathLoop (pushName segments current ++ [.index index]) []
            (if behind.head? = some '.' then behind.tail else behind)
    else parseResponsePathLoop segments (current ++ [ch]) tail
termination_by rest.length
decreasing_by
  · simp
  · have hlength := Str.length_splitOnce_lt _h
    split
    · simp only [length_tail, length_cons]
      omega
    · simp only [length_cons]
      omega
  · simp

def parseResponsePath (path : Text) : Except StorageError (List UpdatePathSegment) :=
  parseResponsePathLoop [] [] path

/-! ### Spellings -/

/-- The text of the steps behind the first name. The digits of an index are any that are read as
its number. -/
inductive TailSpells : Text → List UpdatePathSegment → Prop
  | nil : TailSpells [] []
  | name {name rest : Text} {path : List UpdatePathSegment} (hne : name ≠ [])
      (hplain : PlainName name) (tail : TailSpells rest path) :
      TailSpells ('.' :: (name ++ rest)) (.name name :: path)
  | index {digits rest : Text} {index : ℕ} {path : List UpdatePathSegment}
      (hdigits : parseUsize digits = some index) (tail : TailSpells rest path) :
      TailSpells ('[' :: (digits ++ ']' :: rest)) (.index index :: path)

/-- **The text of a well-formed path**: names without separators, behind dots except for the first
one, and list indexes in brackets. -/
inductive Spells : Text → List UpdatePathSegment → Prop
  | intro {name rest : Text} {path : List UpdatePathSegment} (hne : name ≠ [])
      (hplain : PlainName name) (tail : TailSpells rest path) :
      Spells (name ++ rest) (.name name :: path)

theorem closing_not_mem_of_parseUsize {digits : Text} {index : ℕ}
    (h : parseUsize digits = some index) : ']' ∉ digits := by
  intro hmem
  rw [parseUsize_eq_none_of_mem hmem (by decide) (by decide)] at h
  cases h

variable {rest : Text} {path : List UpdatePathSegment}

/-- Behind a name there is a separator, or nothing. -/
theorem TailSpells.head (h : TailSpells rest path) :
    ∀ c ∈ rest.head?, isPathSeparator c = true := by
  cases h with
  | nil => simp
  | name hne hplain tail => simp [isPathSeparator]
  | index hdigits tail => simp [isPathSeparator]

variable {name : Text}

theorem PlainName.ne_separator (h : PlainName name) {c : Char} (hc : c ∈ name) :
    c ≠ '.' ∧ c ≠ '[' := by
  have hsep := h c hc
  rw [isPathSeparator, Bool.or_eq_false_iff, beq_eq_false_iff_ne, beq_eq_false_iff_ne] at hsep
  exact hsep

theorem pushName_of_ne_nil {segments : List UpdatePathSegment} (h : name ≠ []) :
    pushName segments name = segments ++ [.name name] :=
  if_neg h

/-! ### The parser of update paths -/

theorem parseUpdatePathLoop_name (path : Text) (hne : name ≠ []) (hplain : PlainName name)
    (segments : List UpdatePathSegment) (current : Text) (after : Bool) (rest : Text) :
    parseUpdatePathLoop path segments current after (name ++ rest)
      = parseUpdatePathLoop path segments (current ++ name) false rest := by
  induction name generalizing current after with
  | nil => exact absurd rfl hne
  | cons c name ih =>
    obtain ⟨hdot, hbracket⟩ := hplain.ne_separator (mem_cons_self ..)
    rw [cons_append, parseUpdatePathLoop, if_neg hdot, if_neg hbracket]
    cases name with
    | nil => rfl
    | cons d name =>
      rw [ih (by simp) fun c hc => hplain c (mem_cons_of_mem _ hc), append_assoc,
        singleton_append]

variable {tail : List UpdatePathSegment}

/-- The loop reads the steps behind a finished name or index. -/
theorem parseUpdatePathLoop_tail (path : Text) (h : TailSpells rest tail)
    (segments : List UpdatePathSegment) (current : Text) (after : Bool)
    (hready : current ≠ [] ∨ after = true) (hne : pushName segments current ≠ []) :
    parseUpdatePathLoop path segments current after rest
      = .ok (pushName segments current ++ tail) := by
  induction h generalizing segments current after with
  | nil =>
    rw [parseUpdatePathLoop, if_neg hne, append_nil]
    rfl
  | @name name rest tail hname hplain _ ih =>
    have hopen : ¬(current = [] ∧ ¬after = true) := by tauto
    rw [parseUpdatePathLoop, if_pos rfl, if_neg hopen,
      parseUpdatePathLoop_name path hname hplain, nil_append,
      ih _ name false (.inl hname) (by simp [pushName_of_ne_nil hname]),
      pushName_of_ne_nil hname, append_assoc, singleton_append]
  | @index digits rest index tail hdigits _ ih =>
    have hclosing := closing_not_mem_of_parseUsize hdigits
    have hall : ∀ c ∈ digits, decide (c ≠ ']') = true :=
      fun c hc => decide_eq_true fun heq => hclosing (heq ▸ hc)
    rw [parseUpdatePathLoop, if_neg (by decide), if_pos rfl,
      takeWhile_append_of_pos hall, dropWhile_append_of_pos hall,
      takeWhile_cons_of_neg (by simp), dropWhile_cons_of_neg (by simp),
      append_nil, hdigits]
    change parseUpdatePathLoop path _ [] true rest = _
    rw [ih _ [] true (.inr rfl) (by simp [pushName])]
    simp [pushName]

variable {field : Text}

/-- A name alone is read at the top level, as the parser would read it. -/
theorem Spells.fieldPath (h : Spells field path) :
    parseUpdatePath field = .ok path ∧ AuxStorage.fieldPath field = some path := by
  obtain ⟨hne, hplain, tail⟩ := h
  rename_i name rest tailPath
  have hparse : parseUpdatePath (name ++ rest) = .ok (.name name :: tailPath) := by
    rw [parseUpdatePath, parseUpdatePathLoop_name _ hne hplain, nil_append,
      parseUpdatePathLoop_tail _ tail [] name false (.inl hne) (by simp [pushName_of_ne_nil hne]),
      pushName_of_ne_nil hne]
    rfl
  refine ⟨hparse, ?_⟩
  rw [AuxStorage.fieldPath]
  split
  · rename_i htop
    cases tail with
    | nil => rw [append_nil]
    | name => simp [isTopLevelPath] at htop
    | index => simp [isTopLevelPath] at htop
  · rw [hparse]
    rfl

/-! ### The parser of response paths reads spellings -/

theorem parseResponsePathLoop_name (hplain : PlainName name) (segments : List UpdatePathSegment)
    (current rest : Text) :
    parseResponsePathLoop segments current (name ++ rest)
      = parseResponsePathLoop segments (current ++ name) rest := by
  induction name generalizing current with
  | nil => rw [nil_append, append_nil]
  | cons c name ih =>
    obtain ⟨hdot, hbracket⟩ := hplain.ne_separator (mem_cons_self ..)
    rw [cons_append, parseResponsePathLoop, if_neg hdot, if_neg hbracket,
      ih fun c hc => hplain c (mem_cons_of_mem _ hc), append_assoc, singleton_append]

theorem parseResponsePathLoop_index {digits : Text} {index : ℕ}
    (hdigits : parseUsize digits = some index) (segments : List UpdatePathSegment)
    (current rest : Text) :
    parseResponsePathLoop segments current ('[' :: (digits ++ ']' :: rest))
      = parseResponsePathLoop (pushName segments current ++ [.index index]) []
          (if rest.head? = some '.' then rest.tail else rest) := by
  have hsplit := Str.splitOnce_append (closing_not_mem_of_parseUsize hdigits) rest
  rw [parseResponsePathLoop, if_neg (by decide), if_pos rfl]
  split
  · rename_i hnone
    cases hsplit.symm.trans hnone
  · rename_i digits' behind hsome
    cases hsplit.symm.trans hsome
    rw [hdigits]
    rfl

/-- The loop reads the steps behind a name, and behind an index whose dot it has taken. -/
theorem parseResponsePathLoop_tail (h : TailSpells rest tail) (segments : List UpdatePathSegment) :
    (∀ current, current ≠ [] → parseResponsePathLoop segments current rest
      = .ok (segments ++ .name current :: tail)) ∧
    (segments ≠ [] → parseResponsePathLoop segments []
      (if rest.head? = some '.' then rest.tail else rest) = .ok (segments ++ tail)) := by
  induction h generalizing segments with
  | nil =>
    refine ⟨fun current hne => ?_, fun hne => ?_⟩
    · rw [parseResponsePathLoop, pushName_of_ne_nil hne, if_neg (by simp)]
      rfl
    · rw [if_neg (by simp), parseResponsePathLoop, pushName, if_pos rfl, if_neg hne,
        append_nil]
      rfl
  | @name name rest tail hname hplain _ ih =>
    refine ⟨fun current hne => ?_, fun hne => ?_⟩
    · rw [parseResponsePathLoop, if_pos rfl, if_neg hne, pushName_of_ne_nil hne,
        parseResponsePathLoop_name hplain, nil_append, (ih _).1 name hname,
        append_assoc, singleton_append]
    · rw [if_pos head?_cons, tail_cons, parseResponsePathLoop_name hplain, nil_append,
        (ih _).1 name hname]
  | @index digits rest index tail hdigits _ ih =>
    refine ⟨fun current hne => ?_, fun hne => ?_⟩
    · rw [parseResponsePathLoop_index hdigits, (ih _).2 (by simp), pushName_of_ne_nil hne]
      simp
    · rw [if_neg (by simp), parseResponsePathLoop_index hdigits, (ih _).2 (by simp), pushName,
        if_pos rfl, append_assoc, singleton_append]

theorem Spells.parseResponsePath (h : Spells field path) :
    AuxStorage.parseResponsePath field = .ok path := by
  obtain ⟨hne, hplain, tail⟩ := h
  rw [AuxStorage.parseResponsePath, parseResponsePathLoop_name hplain, nil_append,
    (parseResponsePathLoop_tail tail []).1 _ hne, nil_append]

/-! ### The lookup of conditions -/

/-- The value that segments lead to. -/
def follow (path : List UpdatePathSegment) (value : AttributeValue) : Option AttributeValue :=
  path.foldlM (fun value segment => getSegment segment value) value

theorem follow_nil (value : AttributeValue) : follow [] value = some value := rfl

theorem follow_cons (segment : UpdatePathSegment) (path : List UpdatePathSegment)
    (value : AttributeValue) :
    follow (segment :: path) value = (getSegment segment value).bind (follow path) := rfl

theorem getPathValue_name (item : AttributeMap) (name : Text) (path : List UpdatePathSegment) :
    getPathValue item (.name name :: path) = (item.get name).bind (follow path) := rfl

theorem followPath_spelling (h : TailSpells rest path) (value : AttributeValue) :
    followPath value rest = follow path value := by
  induction h generalizing value with
  | nil => rw [followPath, follow_nil]
  | @name name rest path _ hplain tail ih =>
    obtain ⟨hroot, htail⟩ := rootField_append hplain tail.head
    rw [followPath_dot, hroot, htail, follow_cons]
    exact congrArg _ (funext ih)
  | @index digits rest index path hdigits _ ih =>
    rw [followPath_bracket value (closing_not_mem_of_parseUsize hdigits), hdigits,
      Option.bind_some, follow_cons]
    exact congrArg _ (funext ih)

/-- **The lookup of conditions leads where the path leads.** -/
theorem Spells.conditionPath (h : Spells field path) (item : AttributeMap) :
    Condition.getPathValue item.get field = getPathValue item path := by
  obtain ⟨hne, hplain, tail⟩ := h
  obtain ⟨hroot, htail⟩ := rootField_append hplain tail.head
  rw [Condition.getPathValue, hroot, htail, getPathValue_name]
  exact congrArg _ (funext (followPath_spelling tail))

theorem Spells.getAttributeValue (h : Spells field path) (item : AttributeMap) :
    AuxStorage.getAttributeValue item field = getPathValue item path := by
  have hparse := h.fieldPath.1
  rw [AuxStorage.getAttributeValue, hparse]
  split
  · rename_i htop
    obtain ⟨hne, hplain, tail⟩ := h
    cases tail with
    | nil =>
      rw [append_nil, getPathValue_name]
      cases item.get _ <;> rfl
    | name => simp [isTopLevelPath] at htop
    | index => simp [isTopLevelPath] at htop
  · rfl

end AuxStorage
