import AuxStorage.UpdateParts

/-!
# Resolving the Paths and Values of a Written Expression

The parser resolves the document paths and value expressions of a tree whose aliases,
placeholders and literals the request defines: a path to its resolved text, and a value
expression to a plan that binds.
-/

namespace AuxStorage

open Str List

/-! ### Document paths -/

variable {m : VecMap Text Text} {t resolved : Text}

/-- Characters before an alias are copied. -/
theorem resolvePathAliases_append {s : Text} (hs : '#' ∉ s)
    (ht : resolvePathAliases m t = .ok resolved) :
    resolvePathAliases m (s ++ t) = .ok (s ++ resolved) := by
  induction s with
  | nil => exact ht
  | cons c s ih =>
    have hc : c ≠ '#' := fun hc => hs (by simp [hc])
    rw [cons_append, resolvePathAliases, if_pos hc, ih fun hmem => hs (mem_cons_of_mem _ hmem)]
    rfl

/-- Document-path punctuation, or nothing, behind a name. -/
def PathEnd (t : Text) : Prop :=
  ∀ c ∈ t.head?, aliasEnd c = true

/-- An alias is replaced by its attribute name. -/
theorem resolvePathAliases_alias {word : Word} {value : Text}
    (hvalue : m.get ('#' :: word.text) = some value)
    (hplain : value.any (fun c => c == '.' || c == '[' || c == ']') = false) (hend : PathEnd t)
    (ht : resolvePathAliases m t = .ok resolved) :
    resolvePathAliases m ('#' :: word.text ++ t) = .ok (value ++ resolved) := by
  have hword : ∀ c ∈ word.text, (!aliasEnd c) = true := by
    intro c hc
    have hrange := isWordChar_range (word.word c hc)
    simp only [aliasEnd, Bool.not_eq_true', Bool.or_eq_false_iff, beq_eq_false_iff_ne]
    constructor <;>
      (rintro rfl
       revert hrange
       decide)
  have hstop : ∀ c ∈ t.head?, (!aliasEnd c) = false := fun c hc => by simp [hend c hc]
  have htake : (word.text ++ t).takeWhile (!aliasEnd ·) = word.text := by
    rw [takeWhile_append_of_pos hword]
    cases t with
    | nil => simp
    | cons c t => simp [hstop c rfl]
  have hdrop : (word.text ++ t).dropWhile (!aliasEnd ·) = t := by
    rw [dropWhile_append_of_pos hword]
    cases t with
    | nil => rfl
    | cons c t => rw [dropWhile_cons_of_neg (by simp [hend c rfl])]
  rw [cons_append, resolvePathAliases, if_neg (by simp)]
  simp only [htake, hdrop, hvalue, okOr, bind, Except.bind, hplain, ht]
  rfl

theorem PathName.resolvePathAliases_text (n : PathName) {value : Text}
    (hvalue : n.resolve (some m) = some value) (hend : PathEnd t)
    (ht : resolvePathAliases m t = .ok resolved) :
    resolvePathAliases m (n.text ++ t) = .ok (value ++ resolved) := by
  cases n with
  | plain name =>
    cases hvalue
    refine resolvePathAliases_append ?_ ht
    intro hmem
    exact absurd (name.word '#' hmem) (by decide)
  | «alias» word =>
    obtain ⟨hget, hplain⟩ := Option.filter_eq_some_iff.mp hvalue
    exact resolvePathAliases_alias hget (by simpa using hplain) hend ht

theorem PathStep.pathEnd (s : PathStep) (t : Text) : PathEnd (s.text ++ t) := by
  cases s <;>
    (rintro c hc
     cases hc
     rfl)

/-- The steps of a written path. -/
theorem resolvePathAliases_steps {steps : List PathStep} {resolved : List Text}
    (h : steps.mapM (PathStep.resolve (some m)) = some resolved) :
    resolvePathAliases m (steps.flatMap PathStep.text) = .ok resolved.flatten := by
  induction steps generalizing resolved with
  | nil =>
    cases h
    rw [flatMap_nil, resolvePathAliases]
    rfl
  | cons step steps ih =>
    rw [mapM_cons] at h
    obtain ⟨value, hvalue, h⟩ := Option.bind_eq_some_iff.mp h
    obtain ⟨values, hvalues, h⟩ := Option.bind_eq_some_iff.mp h
    cases h
    have hend : PathEnd (steps.flatMap PathStep.text) := by
      cases steps with
      | nil => simp [PathEnd]
      | cons next steps => exact next.pathEnd _
    cases step with
    | field name =>
      obtain ⟨root, hroot, rfl⟩ := Option.map_eq_some_iff.mp hvalue
      have hname := name.resolvePathAliases_text hroot hend (ih hvalues)
      exact resolvePathAliases_append (s := ['.']) (by decide) hname
    | index digits =>
      cases hvalue
      refine resolvePathAliases_append (s := '[' :: digits.text ++ [']']) ?_ (ih hvalues)
      intro hmem
      simp only [cons_append, mem_cons, mem_append, not_mem_nil, or_false] at hmem
      rcases hmem with hmem | hmem | hmem
      · exact absurd hmem (by decide)
      · exact absurd (digits.digit '#' hmem) (by decide)
      · exact absurd hmem (by decide)

theorem DocPath.resolvePathAliases_text (p : DocPath) (h : p.resolve (some m) = some resolved) :
    resolvePathAliases m p.text = .ok resolved := by
  obtain ⟨root, hroot, h⟩ := Option.bind_eq_some_iff.mp h
  obtain ⟨steps, hsteps, h⟩ := Option.bind_eq_some_iff.mp h
  cases h
  refine p.root.resolvePathAliases_text hroot ?_ (resolvePathAliases_steps hsteps)
  cases p.steps with
  | nil => simp [PathEnd]
  | cons next steps => exact next.pathEnd _

/-- **A written path resolves to its attribute path.** -/
theorem DocPath.resolveDocumentPath_text {names : Option (VecMap Text Text)} (p : DocPath)
    (h : p.resolve names = some resolved) : resolveDocumentPath names p.text = .ok resolved := by
  -- A path without alias resolves to itself, with or without names.
  have hplain : ∀ m : VecMap Text Text, p.resolve (some m) = some resolved →
      '#' ∉ p.text → p.text = resolved := by
    intro m hm hhash
    have hnil : resolvePathAliases m [] = .ok [] := by
      rw [resolvePathAliases]
      rfl
    have hcopy := resolvePathAliases_append hhash hnil
    rw [append_nil, p.resolvePathAliases_text hm] at hcopy
    exact (Except.ok.inj hcopy).symm
  simp only [resolveDocumentPath]
  cases names with
  | some m =>
    by_cases hhash : '#' ∈ p.text
    · rw [if_neg (by simpa using hhash)]
      exact p.resolvePathAliases_text h
    · rw [if_pos hhash, hplain m h hhash]
      rfl
  | none =>
    have hempty : p.resolve (some OrderedMap.empty) = some resolved := by
      have hname : PathName.resolve (some OrderedMap.empty) = PathName.resolve none := by
        funext n
        cases n <;> rfl
      have hstep : PathStep.resolve (some OrderedMap.empty) = PathStep.resolve none := by
        funext s
        cases s with
        | field name => rw [PathStep.resolve, hname, PathStep.resolve]
        | index digits => rfl
      rwa [DocPath.resolve, hname, hstep]
    have hhash : '#' ∉ p.text := fun hmem =>
      resolvePathAliases_ne_ok (fun _ => rfl) hmem (p.resolvePathAliases_text hempty)
    rw [if_pos hhash, hplain _ hempty hhash]
    rfl

/-! ### Scanning value expressions -/

/-- Scans a text outside string literals for the characters of `stop` at the top level. -/
def stopScan (stop : Char → Bool) : ScanState → Text → Option ScanState
  | s, [] => some s
  | s, ch :: rest =>
    if s.inString then stopScan stop (s.stringChar ch) rest
    else if stop ch ∧ s.parenDepth = 0 then none
    else stopScan stop (s.plainChar ch) rest

/-- Scans compose along concatenation. -/
theorem stopScan_append (stop : Char → Bool) (state : ScanState) (s t : Text) :
    stopScan stop state (s ++ t)
      = (stopScan stop state s).bind fun state' => stopScan stop state' t := by
  induction s generalizing state with
  | nil => rfl
  | cons ch s ih =>
    simp only [cons_append, stopScan, ih]
    split
    · rfl
    · split <;> rfl

variable {state state' : ScanState}

theorem stopScan_append_eq {stop : Char → Bool} {state'' : ScanState} {s : Text}
    (hs : stopScan stop state s = some state') (ht : stopScan stop state' t = some state'') :
    stopScan stop state (s ++ t) = some state'' := by
  rw [stopScan_append, hs]
  exact ht

/-- The characters of operators. -/
def isOperator (c : Char) : Bool :=
  c == '+' || c == '-'

theorem arithmeticScan_append {before rest : Text} (h : stopScan isOperator state t = some state') :
    arithmeticScan state before (t ++ rest) = arithmeticScan state' (before ++ t) rest := by
  induction t generalizing state before with
  | nil =>
    cases h
    simp
  | cons ch t ih =>
    rw [stopScan] at h
    rw [cons_append, arithmeticScan]
    have happend : before ++ ch :: t = before ++ [ch] ++ t := by simp
    rw [happend]
    split at h
    · rename_i hstring
      rw [if_pos hstring]
      exact ih h
    · rename_i hstring
      split at h
      · cases h
      · rename_i hstop
        rw [if_neg hstring, if_neg (by
          rintro ⟨hop, hdepth, -⟩
          refine hstop ⟨?_, hdepth⟩
          rcases hop with rfl | rfl <;> rfl)]
        exact ih h

theorem commaPairScan_append {before rest : Text} {comma : Option (Text × Text)}
    (h : stopScan (· == ',') state t = some state') :
    commaPairScan state before comma (t ++ rest)
      = commaPairScan state' (before ++ t) comma rest := by
  induction t generalizing state before with
  | nil =>
    cases h
    simp
  | cons ch t ih =>
    rw [stopScan] at h
    rw [cons_append, commaPairScan]
    have happend : before ++ ch :: t = before ++ [ch] ++ t := by simp
    rw [happend]
    split at h
    · rename_i hstring
      rw [if_pos hstring]
      exact ih h
    · rename_i hstring
      split at h
      · cases h
      · rename_i hstop
        rw [if_neg hstring, if_neg (by simpa using hstop)]
        exact ih h

/-- The state outside string literals, inside `depth` parentheses. -/
abbrev ScanState.at (depth : ℕ) : ScanState := ⟨depth, false, false⟩

/-- A character without effect on the scans. -/
def isPlain (c : Char) : Bool :=
  c != '"' && c != '(' && c != ')' && !isOperator c && c != ','

/-- The scans stop at operators and commas only. -/
def StopsAtPunctuation (stop : Char → Bool) : Prop :=
  ∀ c, stop c = true → isOperator c = true ∨ c = ','

theorem stopsAt_isOperator : StopsAtPunctuation isOperator := fun _ hc => .inl hc

theorem stopsAt_comma : StopsAtPunctuation (· == ',') := fun _ hc => .inr (by simpa using hc)

variable {c : Char}

/-- A class of characters without the marks of the scans is plain. -/
theorem isPlain_of_class (p : Char → Bool) (h : p c = true)
    (hmarks : ['"', '(', ')', '+', '-', ','].any p = false) : isPlain c = true := by
  have hne : ∀ m ∈ ['"', '(', ')', '+', '-', ','], c ≠ m := by
    rintro m hm rfl
    exact any_eq_false.mp hmarks c hm h
  simpa [isPlain, isOperator, and_assoc] using hne

theorem isPlain_of_isPathChar (h : isPathChar c = true) : isPlain c = true :=
  isPlain_of_class isPathChar h rfl

theorem isPlain_of_isWhitespace (h : isWhitespace c = true) : isPlain c = true :=
  isPlain_of_class isWhitespace h rfl

/-- The inside of a string literal. -/
theorem stopScan_word (stop : Char → Bool) {depth : ℕ} {word : Text}
    (hchars : ∀ c ∈ word, isWordChar c = true) :
    stopScan stop ⟨depth, true, false⟩ (word ++ ['"']) = some (.at depth) := by
  induction word with
  | nil => rfl
  | cons ch word ih =>
    have hrange := isWordChar_range (hchars ch (by simp))
    have hquote : ch ≠ '"' := by
      rintro rfl
      revert hrange
      decide
    have hslash : ch ≠ '\\' := by
      rintro rfl
      revert hrange
      decide
    have hsame : ScanState.stringChar ⟨depth, true, false⟩ ch = ⟨depth, true, false⟩ := by
      simp [ScanState.stringChar, hquote, hslash]
    rw [cons_append, stopScan, if_pos rfl, hsame]
    exact ih fun c hc => hchars c (mem_cons_of_mem _ hc)

section Scans

variable {stop : Char → Bool} (hstop : StopsAtPunctuation stop) {depth : ℕ}
include hstop

/-- Plain characters leave the state unchanged. -/
theorem stopScan_plain {t : Text} (ht : ∀ c ∈ t, isPlain c = true) :
    stopScan stop (.at depth) t = some (.at depth) := by
  induction t with
  | nil => rfl
  | cons ch t ih =>
    have hch := ht ch (by simp)
    simp only [isPlain, Bool.and_eq_true, bne_iff_ne, ne_eq, Bool.not_eq_true'] at hch
    have hnot : ¬(stop ch = true ∧ (ScanState.at depth).parenDepth = 0) := by
      rintro ⟨hs, -⟩
      rcases hstop ch hs with hop | hcomma
      · rw [hop] at hch
        exact absurd hch.1.2 (by simp)
      · exact hch.2 hcomma
    have hsame : (ScanState.at depth).plainChar ch = .at depth := by
      simp [ScanState.plainChar, hch]
    rw [stopScan, if_neg (by simp), if_neg hnot, hsame]
    exact ih fun c hc => ht c (mem_cons_of_mem _ hc)

theorem Layout.stopScan_text (l : Layout) : stopScan stop (.at depth) l.text = some (.at depth) :=
  stopScan_plain hstop fun c hc => isPlain_of_isWhitespace (l.blank c hc)

theorem DocPath.stopScan_text (p : DocPath) : stopScan stop (.at depth) p.text = some (.at depth) :=
  stopScan_plain hstop fun c hc => isPlain_of_isPathChar (p.pathChars c hc)

theorem LiteralSyntax.stopScan_text (l : LiteralSyntax) :
    stopScan stop (.at depth) l.text = some (.at depth) := by
  cases l with
  | number digits =>
    refine stopScan_plain hstop fun c hc => isPlain_of_isPathChar ?_
    exact isPathChar_of_isWordChar (isWordChar_of_isDigit (digits.digit c hc))
  | string word hchars =>
    have hquote : stop '"' = false := by
      cases hq : stop '"' with
      | false => rfl
      | true => exact absurd (hstop _ hq) (by decide)
    rw [LiteralSyntax.text, cons_append, stopScan, if_neg (by simp),
      if_neg (by simp [hquote])]
    exact stopScan_word stop hchars

/-- A call scans to the state before it when its arguments do so inside the
parentheses. -/
theorem stopScan_callText {name first second : Text} (hname : ∀ c ∈ name, isPlain c = true)
    (l₁ l₂ l₃ l₄ : Layout) (hfirst : stopScan stop (.at (depth + 1)) first = some (.at (depth + 1)))
    (hsecond : stopScan stop (.at (depth + 1)) second = some (.at (depth + 1))) :
    stopScan stop (.at depth) (callText name l₁ first l₂ l₃ second l₄) = some (.at depth) := by
  have hopen : stopScan stop (.at depth) ['('] = some (.at (depth + 1)) := by
    have hparen : stop '(' = false := by
      cases hp : stop '(' with
      | false => rfl
      | true => exact absurd (hstop _ hp) (by decide)
    rw [stopScan, if_neg (by simp), if_neg (by simp [hparen])]
    rfl
  have hcomma : stopScan stop (.at (depth + 1)) [','] = some (.at (depth + 1)) := by
    rw [stopScan, if_neg (by simp), if_neg (by simp)]
    rfl
  have hclose : stopScan stop (.at (depth + 1)) [')'] = some (.at depth) := by
    rw [stopScan, if_neg (by simp), if_neg (by simp)]
    rfl
  have htext : callText name l₁ first l₂ l₃ second l₄
      = name ++ (['('] ++ (l₁.text ++ (first ++ (l₂.text ++ ([','] ++ (l₃.text ++ (second
        ++ (l₄.text ++ [')'])))))))) := by
    simp [callText]
  rw [htext]
  refine stopScan_append_eq (stopScan_plain hstop hname) ?_
  refine stopScan_append_eq hopen (stopScan_append_eq (l₁.stopScan_text hstop) ?_)
  refine stopScan_append_eq hfirst (stopScan_append_eq (l₂.stopScan_text hstop) ?_)
  refine stopScan_append_eq hcomma (stopScan_append_eq (l₃.stopScan_text hstop) ?_)
  exact stopScan_append_eq hsecond (stopScan_append_eq (l₄.stopScan_text hstop) hclose)

/-- **Value expressions are scanned to their end**: inside parentheses, when the scan does
not stop at operators, and when the expression has no operator at its top. -/
theorem Operand.stopScan_text {top : Bool} (o : Operand top)
    (h : 0 < depth ∨ top = false ∨ ∀ op : ArithmeticOperator, stop op.symbol = false) :
    stopScan stop (.at depth) o.text = some (.at depth) := by
  induction o generalizing depth with
  | placeholder word =>
    refine stopScan_plain hstop ?_
    rintro c (_ | ⟨_, hc⟩)
    · rfl
    · exact isPlain_of_isPathChar (isPathChar_of_isWordChar (word.word c hc))
  | path p => exact p.stopScan_text hstop
  | literal value => exact value.stopScan_text hstop
  | ifNotExists l₁ p l₂ l₃ operand l₄ ih =>
    exact stopScan_callText hstop
      (all_eq_true.mp (by decide : ifNotExistsName.all isPlain = true))
      l₁ l₂ l₃ l₄ (p.stopScan_text hstop) (ih (.inl (Nat.succ_pos depth)))
  | listAppend l₁ operand1 l₂ l₃ operand2 l₄ ih1 ih2 =>
    exact stopScan_callText hstop
      (all_eq_true.mp (by decide : listAppendName.all isPlain = true))
      l₁ l₂ l₃ l₄ (ih1 (.inl (Nat.succ_pos depth))) (ih2 (.inl (Nat.succ_pos depth)))
  | arithmetic lhs l₁ operator l₂ rhs ihl ihr =>
    have hsymbol : stopScan stop (.at depth) [operator.symbol] = some (.at depth) := by
      have hnot : ¬(stop operator.symbol = true ∧ (ScanState.at depth).parenDepth = 0) := by
        rintro ⟨hs, hdepth⟩
        rcases h with h | h | h
        · exact h.ne' hdepth
        · cases h
        · simp [h operator] at hs
      rw [stopScan, if_neg (by simp), if_neg hnot]
      cases operator <;> rfl
    refine stopScan_append_eq (ihl (.inr (.inl rfl))) ?_
    refine stopScan_append_eq (l₁.stopScan_text hstop) ?_
    refine stopScan_append_eq (s := [operator.symbol]) hsymbol ?_
    exact stopScan_append_eq (l₂.stopScan_text hstop) (ihr h)

end Scans

/-! ### Splitting value expressions -/

/-- A value expression without operator at its top is not split at an operator. -/
theorem splitTopLevelArithmetic_eq_none (o : Operand false) :
    splitTopLevelArithmetic o.text = none := by
  have hscan : stopScan isOperator (.at 0) o.text = some (.at 0) :=
    o.stopScan_text stopsAt_isOperator (.inr (.inl rfl))
  have h : arithmeticScan (.at 0) [] (o.text ++ []) = none := arithmeticScan_append hscan
  rwa [append_nil] at h

/-- An operator is split off with its operands. -/
theorem splitTopLevelArithmetic_text (lhs : Operand false) (l₁ : Layout)
    (operator : ArithmeticOperator) (l₂ : Layout) (rhs : Operand true) :
    splitTopLevelArithmetic (Operand.arithmetic lhs l₁ operator l₂ rhs).text
      = some (lhs.text, operator, rhs.text) := by
  have htext : (Operand.arithmetic lhs l₁ operator l₂ rhs).text
      = (lhs.text ++ l₁.text) ++ operator.symbol :: (l₂.text ++ rhs.text) := by
    simp [Operand.text]
  have hscan : stopScan isOperator (.at 0) (lhs.text ++ l₁.text) = some (.at 0) :=
    stopScan_append_eq (lhs.stopScan_text stopsAt_isOperator (.inr (.inl rfl)))
      (l₁.stopScan_text stopsAt_isOperator)
  have hlhs : trim (lhs.text ++ l₁.text) = lhs.text := by
    simpa using trim_pad Blank.nil lhs.firm.toSolid l₁.blank
  have hrhs : trim (l₂.text ++ rhs.text) = rhs.text := by
    simpa using trim_pad l₂.blank rhs.firm.toSolid Blank.nil
  have hop : (operator.symbol = '+' ∨ operator.symbol = '-') ∧ (ScanState.at 0).parenDepth = 0
      ∧ lhs.text ++ l₁.text ≠ [] := by
    refine ⟨?_, rfl, by simp [lhs.firm.ne_nil]⟩
    cases operator
    · exact .inl rfl
    · exact .inr rfl
  rw [htext, splitTopLevelArithmetic, ScanState.start, arithmeticScan_append hscan,
    nil_append, arithmeticScan, if_neg (by simp), if_pos hop]
  simp only [hlhs, hrhs, lhs.firm.ne_nil, rhs.firm.ne_nil, or_self, if_false]
  cases operator <;> rfl

theorem callArguments_callText (name : Text) (l₁ : Layout) (first : Text) (l₂ l₃ : Layout)
    (second : Text) (l₄ : Layout) :
    callArguments name (callText name l₁ first l₂ l₃ second l₄)
      = some (l₁.text ++ first ++ l₂.text ++ ',' :: (l₃.text ++ second ++ l₄.text)) := by
  have htext : callText name l₁ first l₂ l₃ second l₄ = (name ++ ['('])
      ++ ((l₁.text ++ first ++ l₂.text ++ ',' :: (l₃.text ++ second ++ l₄.text)) ++ [')']) := by
    simp [callText]
  rw [callArguments, htext, stripPrefix_append, Option.bind_some, stripSuffix_append]

/-- An argument list is split at its comma. -/
theorem splitTopLevelCommaPair_text {first second : Text} (l₁ l₂ l₃ l₄ : Layout)
    (hfirst : stopScan (· == ',') (.at 0) first = some (.at 0))
    (hsecond : stopScan (· == ',') (.at 0) second = some (.at 0)) :
    splitTopLevelCommaPair (l₁.text ++ first ++ l₂.text ++ ',' :: (l₃.text ++ second ++ l₄.text))
      = some (l₁.text ++ first ++ l₂.text, l₃.text ++ second ++ l₄.text) := by
  have hbefore : stopScan (· == ',') (.at 0) (l₁.text ++ first ++ l₂.text) = some (.at 0) :=
    stopScan_append_eq (stopScan_append_eq (l₁.stopScan_text stopsAt_comma) hfirst)
      (l₂.stopScan_text stopsAt_comma)
  have hbehind : stopScan (· == ',') (.at 0) (l₃.text ++ second ++ l₄.text) = some (.at 0) :=
    stopScan_append_eq (stopScan_append_eq (l₃.stopScan_text stopsAt_comma) hsecond)
      (l₄.stopScan_text stopsAt_comma)
  have hend : commaPairScan (.at 0) (l₁.text ++ first ++ l₂.text ++ [','])
      (some (l₁.text ++ first ++ l₂.text, l₃.text ++ second ++ l₄.text))
      (l₃.text ++ second ++ l₄.text ++ [])
        = some (l₁.text ++ first ++ l₂.text, l₃.text ++ second ++ l₄.text) :=
    commaPairScan_append hbehind
  rw [append_nil] at hend
  rw [splitTopLevelCommaPair, ScanState.start, commaPairScan_append hbefore, nil_append,
    commaPairScan, if_neg (by simp), if_pos (by simp)]
  simp only [Option.isSome_none, Bool.false_eq_true, if_false]
  exact hend

theorem callArguments_eq_none {name t : Text} (h : ¬(name ++ ['(']) <+: t) :
    callArguments name t = none := by
  rw [callArguments, stripPrefix_eq_none h]
  rfl

/-! ### Resolving value expressions -/

section Resolution

variable (json : JsonReader) (names : Option (VecMap Text Text))

theorem PathName.head_text (n : PathName) :
    ∃ c rest, n.text = c :: rest ∧ (c.isAlpha = true ∨ c = '_' ∨ c = '#') := by
  cases n with
  | plain name =>
    obtain ⟨c, rest, hname⟩ := exists_cons_of_ne_nil name.ne_nil
    have hhead := name.head c (by rw [hname]; rfl)
    exact ⟨c, rest, hname, hhead.imp_right .inl⟩
  | «alias» word => exact ⟨'#', word.text, rfl, .inr (.inr rfl)⟩

/-- A path that begins with a letter is read as a document path. -/
theorem DocPath.isDocumentPathExpression_text (p : DocPath) {rest : Text}
    (htext : p.text = c :: rest) (hc : c.isAlpha = true ∨ c = '#') :
    isDocumentPathExpression p.text = true := by
  have hparen : '(' ∉ p.text := fun hmem => absurd (p.pathChars '(' hmem) (by decide)
  have hprefix : ∀ name : Text, '(' ∈ name → name.isPrefixOf p.text = false := by
    intro name hname
    cases hpre : name.isPrefixOf p.text with
    | false => rfl
    | true => exact absurd ((List.isPrefixOf_iff_prefix.mp hpre).subset hname) hparen
  rw [isDocumentPathExpression, trim_solid p.firm.toSolid]
  split
  · rfl
  · rename_i hplain
    rw [not_or, not_or] at hplain
    -- Without alias and step, the path is a name, and so no reserved word.
    have hname : ∃ name : Identifier, p.text = name.text := by
      obtain ⟨root, steps⟩ := p
      cases steps with
      | nil =>
        cases root with
        | plain name => exact ⟨name, by simp [DocPath.text, PathName.text]⟩
        | «alias» word => exact absurd rfl hplain.1
      | cons step steps =>
        cases step with
        | field name => exact absurd (by simp [DocPath.text, PathStep.text]) hplain.2.1
        | index digits => exact absurd (by simp [DocPath.text, PathStep.text]) hplain.2.2
    obtain ⟨name, hname⟩ := hname
    have hword : ∀ word upper : Text, upper ∈ reservedNames →
        eqIgnoreAsciiCase word upper = true → p.text ≠ word := by
      rintro word upper hmem heq rfl
      rw [hname, name.not_reserved upper hmem] at heq
      cases heq
    have halpha : c.isAlpha = true := by
      rcases hc with hc | rfl
      · exact hc
      · exact absurd (by rw [htext]; rfl) hplain.1
    have htrue := hword "true".toList "TRUE".toList (by decide) (by decide)
    have hfalse := hword "false".toList "FALSE".toList (by decide) (by decide)
    have hnull := hword "null".toList "NULL".toList (by decide) (by decide)
    have hine := hprefix "if_not_exists(".toList (by decide)
    have happ := hprefix "list_append(".toList (by decide)
    rw [htext] at htrue hfalse hnull hine happ ⊢
    simp [halpha, htrue, hfalse, hnull, hine, happ]

variable {name t : Text}

/-- A path is read as a document path, also behind the failed attempt to read it as a
literal. -/
theorem DocPath.atomValuePlan_text (p : DocPath) :
    atomValuePlan json names p.text = (do
      let path ← resolveDocumentPath names p.text
      pure (.value (.path path))) := by
  obtain ⟨c, rest, hroot, hc⟩ := p.root.head_text
  have htext : p.text = c :: (rest ++ p.steps.flatMap PathStep.text) := by
    rw [DocPath.text, hroot, cons_append]
  rw [atomValuePlan, trim_solid p.firm.toSolid]
  split
  · rfl
  · rename_i hexpr
    have hunderscore : c = '_' := by
      rcases hc with hc | hc | hc
      · exact absurd (p.isDocumentPathExpression_text htext (.inl hc)) hexpr
      · exact hc
      · exact absurd (p.isDocumentPathExpression_text htext (.inr hc)) hexpr
    subst hunderscore
    have hread : json.read p.text = none := by
      rw [htext]
      exact json.read_underscore _
    rw [hread]
    simp only
    rw [if_neg (by simp [htext])]

theorem isDocumentPathExpression_eq_false {rest : Text}
    (hsolid : Solid (c :: rest)) (halpha : c.isAlpha = false) (hhash : c ≠ '#')
    (hdot : '.' ∉ c :: rest) (hbracket : '[' ∉ c :: rest) :
    isDocumentPathExpression (c :: rest) = false := by
  rw [isDocumentPathExpression, trim_solid hsolid, if_neg]
  · simp [halpha]
  · rintro (h | h | h)
    · exact hhash (Option.some.inj h)
    · exact hdot h
    · exact hbracket h

theorem isAlpha_eq_false_of_isDigit (h : c.isDigit = true) : c.isAlpha = false := by
  simp only [Char.isDigit, Bool.and_eq_true, decide_eq_true_eq, ge_iff_le,
    UInt32.le_iff_toNat_le] at h
  change 48 ≤ c.val.toNat ∧ c.val.toNat ≤ 57 at h
  simp only [Char.isAlpha, Char.isUpper, Char.isLower, Bool.or_eq_false_iff,
    Bool.and_eq_false_iff, decide_eq_false_iff_not, ge_iff_le, UInt32.le_iff_toNat_le]
  change ¬(65 ≤ c.val.toNat ∧ c.val.toNat ≤ 90) ∧ (¬97 ≤ c.val.toNat ∨ ¬c.val.toNat ≤ 122)
  omega

/-- A literal is no document path. -/
theorem LiteralSyntax.isDocumentPathExpression_text (l : LiteralSyntax) :
    isDocumentPathExpression l.text = false := by
  have hsolid := l.firm.toSolid
  cases l with
  | number digits =>
    have hnot : ∀ d : Char, d.isDigit = false → d ∉ digits.text := by
      intro d hd hmem
      rw [digits.digit d hmem] at hd
      cases hd
    have hdot := hnot '.' rfl
    have hbracket := hnot '[' rfl
    have hhash := hnot '#' rfl
    simp only [LiteralSyntax.text] at hsolid ⊢
    obtain ⟨c, rest, hdigits⟩ := exists_cons_of_ne_nil digits.ne_nil
    have hc := digits.digit c (by simp [hdigits])
    rw [hdigits] at hsolid hdot hbracket hhash ⊢
    refine isDocumentPathExpression_eq_false hsolid (isAlpha_eq_false_of_isDigit hc) ?_
      hdot hbracket
    rintro rfl
    simp at hhash
  | string word hchars =>
    have hnot : ∀ d : Char, isWordChar d = false → d ≠ '"' → d ∉ '"' :: (word ++ ['"']) := by
      intro d hd hquote hmem
      simp only [mem_cons, mem_append, not_mem_nil, or_false] at hmem
      rcases hmem with rfl | hmem | rfl
      · exact hquote rfl
      · rw [hchars d hmem] at hd
        cases hd
      · exact hquote rfl
    exact isDocumentPathExpression_eq_false hsolid rfl (by decide)
      (hnot '.' (by decide) (by decide)) (hnot '[' (by decide) (by decide))

theorem callArguments_of_notMem (h : '(' ∉ t) : callArguments name t = none :=
  callArguments_eq_none fun hpre => h (hpre.subset (by simp))

/-- A written literal resolves. -/
theorem LiteralSyntax.resolve_text (l : LiteralSyntax) {jsonValue : JsonValue}
    {value : AttributeValue} (hread : json.read l.text = some jsonValue)
    (hvalue : literalValue l.text jsonValue = .ok value) :
    resolveAttributeValuePlan json names l.text = .ok (.value (.literal value)) := by
  have hchars : ∀ c ∈ l.text, isWordChar c = true ∨ c = '"' := by
    cases l with
    | number digits => exact fun c hc => .inl (isWordChar_of_isDigit (digits.digit c hc))
    | string word hchars =>
      intro c hc
      simp only [LiteralSyntax.text, cons_append, mem_cons, mem_append, not_mem_nil, or_false] at hc
      rcases hc with rfl | hc | rfl
      · exact .inr rfl
      · exact .inl (hchars c hc)
      · exact .inr rfl
  have hparen : '(' ∉ l.text := fun hmem => absurd (hchars _ hmem) (by decide)
  have hhead : l.text.head? ≠ some ':' := fun hhead =>
    absurd (hchars _ (mem_of_mem_head? hhead)) (by decide)
  have harith : splitTopLevelArithmetic l.text = none :=
    splitTopLevelArithmetic_eq_none (.literal l)
  rw [resolveAttributeValuePlan_atom json names harith hhead (callArguments_of_notMem hparen)
    (callArguments_of_notMem hparen), atomValuePlan, l.isDocumentPathExpression_text, hread]
  simp only [Bool.false_eq_true, if_false, hvalue]
  rfl

theorem DocPath.resolve_text (p : DocPath) {resolved : Text} (h : p.resolve names = some resolved) :
    resolveAttributeValuePlan json names p.text = .ok (.value (.path resolved)) := by
  have hparen : '(' ∉ p.text := fun hmem => absurd (p.pathChars '(' hmem) (by decide)
  have hhead : p.text.head? ≠ some ':' := fun hhead =>
    absurd (p.pathChars ':' (mem_of_mem_head? hhead)) (by decide)
  have harith : splitTopLevelArithmetic p.text = none :=
    splitTopLevelArithmetic_eq_none (.path p)
  rw [resolveAttributeValuePlan_atom json names harith hhead (callArguments_of_notMem hparen)
    (callArguments_of_notMem hparen), p.atomValuePlan_text, p.resolveDocumentPath_text h]
  rfl

theorem Word.resolve_text (w : Word) :
    resolveAttributeValuePlan json names (':' :: w.text)
      = .ok (.value (.placeholder (':' :: w.text))) :=
  resolveAttributeValuePlan_placeholder json names
    (splitTopLevelArithmetic_eq_none (.placeholder w)) rfl

theorem head?_callText (hname : name ≠ []) (l₁ : Layout) (first : Text) (l₂ l₃ : Layout)
    (second : Text) (l₄ : Layout) :
    (callText name l₁ first l₂ l₃ second l₄).head? = name.head? := by
  rw [callText, append_assoc, head?_append_of_ne_nil _ hname]

/-- A written call of `if_not_exists` resolves its arguments. -/
theorem resolve_ifNotExists (l₁ : Layout) (p : DocPath) (l₂ l₃ : Layout)
    (operand : Operand true) (l₄ : Layout) :
    resolveAttributeValuePlan json names
        (callText ifNotExistsName l₁ p.text l₂ l₃ operand.text l₄) = (do
      let path ← resolveDocumentPath names p.text
      let resolved ← resolveAttributeValuePlan json names operand.text
      pure (.function (.ifNotExists path resolved.intoOkPlan))) := by
  have harith : splitTopLevelArithmetic
      (callText ifNotExistsName l₁ p.text l₂ l₃ operand.text l₄) = none :=
    splitTopLevelArithmetic_eq_none (.ifNotExists l₁ p l₂ l₃ operand l₄)
  have hhead : (callText ifNotExistsName l₁ p.text l₂ l₃ operand.text l₄).head? ≠ some ':' := by
    rw [head?_callText (by decide)]
    decide
  have hcall := callArguments_callText ifNotExistsName l₁ p.text l₂ l₃ operand.text l₄
  have hpair := splitTopLevelCommaPair_text l₁ l₂ l₃ l₄ (p.stopScan_text stopsAt_comma)
    (operand.stopScan_text stopsAt_comma (.inr (.inr (by rintro (_ | _) <;> rfl))))
  rw [resolveAttributeValuePlan_ifNotExists json names harith hhead hcall hpair,
    trim_pad l₁.blank p.firm.toSolid l₂.blank, trim_pad l₃.blank operand.firm.toSolid l₄.blank]

/-- A written call of `list_append` resolves its arguments. -/
theorem resolve_listAppend (l₁ : Layout) (operand1 : Operand true) (l₂ l₃ : Layout)
    (operand2 : Operand true) (l₄ : Layout) :
    resolveAttributeValuePlan json names
        (callText listAppendName l₁ operand1.text l₂ l₃ operand2.text l₄) = (do
      let resolved1 ← resolveAttributeValuePlan json names operand1.text
      let resolved2 ← resolveAttributeValuePlan json names operand2.text
      pure (.function (.listAppend resolved1.intoOkPlan resolved2.intoOkPlan))) := by
  have harith : splitTopLevelArithmetic
      (callText listAppendName l₁ operand1.text l₂ l₃ operand2.text l₄) = none :=
    splitTopLevelArithmetic_eq_none (.listAppend l₁ operand1 l₂ l₃ operand2 l₄)
  have hhead :
      (callText listAppendName l₁ operand1.text l₂ l₃ operand2.text l₄).head? = some 'l' := by
    rw [head?_callText (by decide)]
    decide
  have hother : callArguments ifNotExistsName
      (callText listAppendName l₁ operand1.text l₂ l₃ operand2.text l₄) = none := by
    refine callArguments_eq_none ?_
    rintro ⟨rest, hrest⟩
    rw [← hrest, append_assoc, head?_append_of_ne_nil _ (by decide)] at hhead
    revert hhead
    decide
  have hcall := callArguments_callText listAppendName l₁ operand1.text l₂ l₃ operand2.text l₄
  have hpair := splitTopLevelCommaPair_text l₁ l₂ l₃ l₄
    (operand1.stopScan_text stopsAt_comma (.inr (.inr (by rintro (_ | _) <;> rfl))))
    (operand2.stopScan_text stopsAt_comma (.inr (.inr (by rintro (_ | _) <;> rfl))))
  rw [resolveAttributeValuePlan_listAppend json names harith (by rw [hhead]; decide) hother
    hcall hpair, trim_pad l₁.blank operand1.firm.toSolid l₂.blank,
    trim_pad l₃.blank operand2.firm.toSolid l₄.blank]

variable (values : Option AttributeMap)

/-- A placeholder the request defines binds. -/
theorem resolvePlannedAttributeValue_ok (h : ∃ values' ∈ values, (values'.get name).isSome) :
    ∃ value, resolvePlannedAttributeValue values name = .ok value := by
  obtain ⟨values', rfl, hget⟩ := h
  obtain ⟨value, hvalue⟩ := Option.isSome_iff_exists.mp hget
  refine ⟨value, ?_⟩
  rw [resolvePlannedAttributeValue]
  simp [hvalue, okOr]

/-- **A written value expression resolves, and its plan binds.** -/
theorem Operand.resolve_text {top : Bool} (o : Operand top) (h : o.Resolves json names values) :
    ∃ resolved, resolveAttributeValuePlan json names o.text = .ok resolved ∧
      ∃ operand, bindUpdateValuePlan values resolved.intoOkPlan = .ok operand := by
  induction o with
  | placeholder word =>
    obtain ⟨value, hvalue⟩ := resolvePlannedAttributeValue_ok values h
    refine ⟨_, word.resolve_text json names, .value value, ?_⟩
    rw [ResolvedValue.intoOkPlan, bindUpdateValuePlan, hvalue]
    rfl
  | path p =>
    obtain ⟨resolved, hresolved⟩ := Option.isSome_iff_exists.mp h
    exact ⟨_, p.resolve_text json names hresolved, .path resolved, rfl⟩
  | literal l =>
    obtain ⟨jsonValue, hread, value, hvalue⟩ := h
    exact ⟨_, l.resolve_text json names hread hvalue, .value value, rfl⟩
  | ifNotExists l₁ p l₂ l₃ operand l₄ ih =>
    obtain ⟨hpath, hoperand⟩ := h
    obtain ⟨path, hpath⟩ := Option.isSome_iff_exists.mp hpath
    obtain ⟨resolved, hresolved, bound, hbound⟩ := ih hoperand
    refine ⟨.function (.ifNotExists path resolved.intoOkPlan), ?_, .ifNotExists path bound, ?_⟩
    · rw [Operand.text, resolve_ifNotExists, p.resolveDocumentPath_text hpath, hresolved]
      rfl
    · rw [ResolvedValue.intoOkPlan, SetFunctionPlan.intoOkPlan, bindUpdateValuePlan, hbound]
      rfl
  | listAppend l₁ operand1 l₂ l₃ operand2 l₄ ih1 ih2 =>
    obtain ⟨resolved1, hresolved1, bound1, hbound1⟩ := ih1 h.1
    obtain ⟨resolved2, hresolved2, bound2, hbound2⟩ := ih2 h.2
    refine ⟨.function (.listAppend resolved1.intoOkPlan resolved2.intoOkPlan), ?_,
      .listAppend bound1 bound2, ?_⟩
    · rw [Operand.text, resolve_listAppend, hresolved1, hresolved2]
      rfl
    · rw [ResolvedValue.intoOkPlan, SetFunctionPlan.intoOkPlan, bindUpdateValuePlan, hbound1,
        hbound2]
      rfl
  | arithmetic lhs l₁ operator l₂ rhs ihl ihr =>
    obtain ⟨resolvedL, hresolvedL, boundL, hboundL⟩ := ihl h.1
    obtain ⟨resolvedR, hresolvedR, boundR, hboundR⟩ := ihr h.2
    refine ⟨.value (.arithmetic resolvedL.intoOkPlan operator resolvedR.intoOkPlan), ?_,
      .arithmetic boundL operator boundR, ?_⟩
    · rw [resolveAttributeValuePlan_arithmetic json names
        (splitTopLevelArithmetic_text lhs l₁ operator l₂ rhs), hresolvedL, hresolvedR]
      rfl
    · rw [ResolvedValue.intoOkPlan, bindUpdateValuePlan, hboundL, hboundR]
      rfl

end Resolution

end AuxStorage
