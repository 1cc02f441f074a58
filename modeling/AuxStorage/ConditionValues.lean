import AuxStorage.ConditionFuel

/-!
# The Values That a Condition Reads

The parser of conditions looks up the value of a placeholder when it takes its token. So a
condition that was parsed has a value for **every** placeholder of its expression, and contexts
that agree on these placeholders parse the expression alike. The second is not clear from the
first: an opening parenthesis is tried as that of an operand, and a value that is missing could
make the trial fail.
-/

namespace AuxStorage

open TokenStream

namespace ConditionParser

variable {context : ExpressionContext} {tables : CharTables} {expression : Text}

/-- **A parsed expression has values for all its placeholders.** -/
theorem values_of_parse {condition : Condition}
    (h : parseConditionExpression tables context expression = .ok condition) :
    ∀ name ∈ (Lexer.lex tables expression).valueNames, (context.values name).isSome = true := by
  rw [parseConditionExpression, parse] at h
  obtain ⟨s, hready, h⟩ := Except.bind_eq_ok.1 h
  obtain ⟨rfl, -⟩ := ready_eq_ok.mp hready
  obtain ⟨⟨parsed, rest⟩, hparse, h⟩ := Except.bind_eq_ok.1 h
  obtain ⟨tokens, htokens, hvalues⟩ := (suppliedWith context _).orExpression _ _ hparse
  have hlexed := (htokens ▸ Lexer.lex_lexed tables expression).of_append.2
  intro name hmem
  rw [htokens, mem_valueNames_append] at hmem
  rcases hmem with hmem | hmem
  · exact hvalues name hmem
  · dsimp only at h
    split at h
    · rename_i hend
      cases hlexed with
      | eof => cases hmem
      | fault => cases hmem
      | cons htoken =>
        rw [current] at hend
        rw [hend] at htoken
        cases htoken
    · cases h

/-! ### Contexts with other values -/

variable {values : Text → Option AttributeValue}

/-- The functions of the Boolean structure do not see the other values either. -/
structure AlikeWith (context : ExpressionContext) (values : Text → Option AttributeValue)
    (fuel : ℕ) : Prop where
  orExpression : ∀ {s}, Agree context values s →
    parseOrExpression (withValues context values) fuel s = parseOrExpression context fuel s
  orLoop : ∀ left {s}, Agree context values s →
    orLoop (withValues context values) fuel left s = orLoop context fuel left s
  andExpression : ∀ {s}, Agree context values s →
    parseAndExpression (withValues context values) fuel s = parseAndExpression context fuel s
  andLoop : ∀ left {s}, Agree context values s →
    andLoop (withValues context values) fuel left s = andLoop context fuel left s
  notExpression : ∀ {s}, Agree context values s →
    parseNotExpression (withValues context values) fuel s = parseNotExpression context fuel s
  primary : ∀ {s}, Agree context values s →
    parsePrimary (withValues context values) fuel s = parsePrimary context fuel s

theorem alikeWith (context : ExpressionContext) (values : Text → Option AttributeValue)
    (fuel : ℕ) : AlikeWith context values fuel := by
  have h := followsWith context values fuel
  exact ⟨h.orExpression.alike, fun left => (h.orLoop left).alike, h.andExpression.alike,
    fun left => (h.andLoop left).alike, h.notExpression.alike, h.primary.alike⟩

/-- **Values that agree on the placeholders of an expression parse it alike.** -/
theorem parse_congr
    (h : ∀ name ∈ (Lexer.lex tables expression).valueNames, values name = context.values name) :
    parseConditionExpression tables (withValues context values) expression
      = parseConditionExpression tables context expression := by
  rw [parseConditionExpression, parseConditionExpression, parse, parse]
  refine bind_alike fun s hready => ?_
  obtain ⟨rfl, -⟩ := ready_eq_ok.mp hready
  rw [(alikeWith context values _).orExpression h]

end ConditionParser

end AuxStorage
