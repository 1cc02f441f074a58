import AuxStorage.ConditionParser

/-!
# What the Condition Parser Reads

The parser takes the tokens of an expression one after the other. The tokens of a path stand
for its steps (`PathTokens`), and the paths of an expression are separated by tokens that
belong to no path (`Occurrences`). The fields of a parsed condition are the paths of its
expression, in their order.
-/

namespace AuxStorage

open Str
open List hiding append_cons append_nil length_append

/-! ### Streams -/

namespace TokenStream

/-- The stream with tokens put in front of it. -/
def append : List Token → TokenStream → TokenStream
  | [], stream => stream
  | token :: tokens, stream => .cons token (append tokens stream)

@[simp] theorem append_nil (stream : TokenStream) : append [] stream = stream := rfl

@[simp] theorem append_cons (token : Token) (tokens : List Token) (stream : TokenStream) :
    append (token :: tokens) stream = .cons token (append tokens stream) := rfl

theorem append_append (s t : List Token) (stream : TokenStream) :
    append (s ++ t) stream = append s (append t stream) := by
  induction s with
  | nil => rfl
  | cons token s ih => rw [cons_append, append_cons, append_cons, ih]

theorem length_append (tokens : List Token) (stream : TokenStream) :
    (append tokens stream).length = tokens.length + stream.length := by
  induction tokens with
  | nil => simp
  | cons token tokens ih => rw [append_cons, length, ih, length_cons]; omega

/-- The head of the stream can be the current token. -/
def IsReady (stream : TokenStream) : Prop :=
  stream.ready = .ok stream

variable {stream rest : TokenStream}

theorem ready_eq_ok : stream.ready = .ok rest ↔ rest = stream ∧ stream.IsReady := by
  cases stream <;> simp [IsReady, ready, eq_comm]

@[simp] theorem isReady_eof : IsReady .eof := rfl

@[simp] theorem isReady_cons (token : Token) (rest : TokenStream) : IsReady (.cons token rest) :=
  rfl

variable {token : Token}

theorem eq_cons_of_current (h : stream.current = token) (hne : token ≠ .eof) :
    ∃ rest, stream = .cons token rest := by
  cases stream with
  | eof => exact absurd h.symm hne
  | fault error => exact absurd h.symm hne
  | cons head rest => exact ⟨rest, by rw [← h]; rfl⟩

theorem eq_eof_of_current (h : stream.current = .eof) (hready : stream.IsReady)
    (hcons : ∀ rest, stream ≠ .cons .eof rest) : stream = .eof := by
  cases stream with
  | eof => rfl
  | fault error => cases hready
  | cons head rest => exact absurd (by rw [← h]; rfl) (hcons rest)

theorem expectToken_eq_ok {expected : Token} (hne : expected ≠ .eof)
    (h : stream.expectToken expected = .ok rest) : stream = .cons expected rest ∧ rest.IsReady := by
  rw [expectToken] at h
  split at h
  · rename_i hcurrent
    obtain ⟨tail, rfl⟩ := eq_cons_of_current hcurrent hne
    obtain ⟨rfl, hready⟩ := ready_eq_ok.mp h
    exact ⟨rfl, hready⟩
  · cases h

theorem advance_eq_ok (hcurrent : stream.current = token) (hne : token ≠ .eof)
    (h : stream.advance = .ok rest) : stream = .cons token rest ∧ rest.IsReady := by
  obtain ⟨tail, rfl⟩ := eq_cons_of_current hcurrent hne
  obtain ⟨rfl, hready⟩ := ready_eq_ok.mp h
  exact ⟨rfl, hready⟩

end TokenStream

open TokenStream

/-! ### Lexed tokens -/

/-- What the lexer puts into its tokens. The end of the expression is no token of a stream. -/
def Token.Lexed (tables : CharTables) : Token → Prop
  | .identifier name => ∀ c ∈ name, Lexer.isIdentifier tables c = true
  | .number value => ∀ c ∈ value, Lexer.isNumber c = true
  | .eof => False
  | _ => True

/-- All tokens of a stream are lexed, and the fuel of the lexer was enough. -/
inductive TokenStream.Lexed (tables : CharTables) : TokenStream → Prop
  | eof : Lexed tables .eof
  | fault {error : ParseError} (h : error ≠ .outOfFuel) : Lexed tables (.fault error)
  | cons {token : Token} {rest : TokenStream} (htoken : token.Lexed tables)
      (hrest : Lexed tables rest) : Lexed tables (.cons token rest)

namespace Lexer

variable {tables : CharTables}

theorem readString_ne_outOfFuel (quote : Char) (value input : Text) :
    readString quote value input ≠ .error .outOfFuel := by
  fun_induction readString quote value input <;> simp_all [pure, Except.pure]

theorem length_readString {quote : Char} {value input result rest : Text}
    (h : readString quote value input = .ok (result, rest)) : rest.length < input.length := by
  fun_induction readString quote value input <;>
    simp_all [pure, Except.pure] <;> omega

theorem find?_lexed {α : Type} {entries : List (α × Token)} {p : α × Token → Bool}
    {entry : α × Token} (hentries : ∀ e ∈ entries, e.2.Lexed tables)
    (h : entries.find? p = some entry) : entry.2.Lexed tables :=
  hentries entry (mem_of_find?_eq_some h)

theorem keyword_lexed {identifier : Text} (h : ∀ c ∈ identifier, isIdentifier tables c = true) :
    (keyword identifier).Lexed tables := by
  rw [keyword]
  split
  · rename_i entry hentry
    rcases Option.or_eq_some_iff.mp hentry with hentry | ⟨-, hentry⟩
    · exact find?_lexed (by simp [operatorKeywords, Token.Lexed]) hentry
    · exact find?_lexed (by simp [functionNames, Token.Lexed]) hentry
  · exact h

/-- **A token is lexed, and takes its first character and no more than the input.** -/
theorem nextToken_eq_ok {ch : Char} {rest rest' : Text}
    (h : nextToken tables ch rest = .ok (token, rest')) :
    token.Lexed tables ∧ rest'.length ≤ rest.length := by
  have htail : rest.tail.length ≤ rest.length := by simp
  have hdrop : ∀ p : Char → Bool, (rest.dropWhile p).length ≤ rest.length :=
    fun p => length_dropWhile_le p rest
  rw [nextToken] at h
  split at h
  · rename_i entry hentry
    cases h
    exact ⟨find?_lexed (by simp [punctuation, Token.Lexed]) hentry, le_rfl⟩
  split_ifs at h with hless hne hle hgreater hge hquote hname hvalue hnumber halpha
  all_goals first
    | (cases h; exact ⟨trivial, le_rfl⟩)
    | (cases h; exact ⟨trivial, htail⟩)
    | (cases h; exact ⟨trivial, hdrop _⟩)
    | skip
  · obtain ⟨⟨value, tail⟩, hread, hvalue⟩ := Except.bind_eq_ok.mp h
    cases hvalue
    exact ⟨trivial, (length_readString hread).le⟩
  · cases h
    refine ⟨?_, hdrop _⟩
    intro c hc
    rcases mem_cons.mp hc with rfl | hc
    · rcases hnumber with hdigit | rfl
      · simp [isNumber, hdigit]
      · rfl
    · exact mem_takeWhile_imp hc
  · cases h
    refine ⟨keyword_lexed ?_, hdrop _⟩
    intro c hc
    rcases mem_cons.mp hc with rfl | hc
    · simp [isIdentifier, halpha]
    · exact mem_takeWhile_imp hc

theorem nextToken_ne_outOfFuel (ch : Char) (rest : Text) :
    nextToken tables ch rest ≠ .error .outOfFuel := by
  intro h
  rw [nextToken] at h
  split at h
  · cases h
  split_ifs at h
  all_goals first | cases h | skip
  cases hread : readString ch [] rest with
  | error error =>
    rw [hread] at h
    cases h
    exact readString_ne_outOfFuel _ _ _ hread
  | ok result => rw [hread] at h; cases h

theorem tokens_lexed {fuel : ℕ} {input : Text} (hfuel : input.length < fuel) :
    (tokens tables fuel input).Lexed tables := by
  induction fuel generalizing input with
  | zero => omega
  | succ fuel ih =>
    have hdrop : (input.dropWhile isWhitespace).length ≤ input.length :=
      length_dropWhile_le _ _
    rw [tokens]
    split
    · exact .eof
    · rename_i ch rest hinput
      rw [hinput, length_cons] at hdrop
      split
      · rename_i error hnext
        exact .fault fun heq => nextToken_ne_outOfFuel ch rest (heq ▸ hnext)
      · rename_i token rest' hnext
        obtain ⟨hlexed, hlength⟩ := nextToken_eq_ok hnext
        exact .cons hlexed (ih (by omega))

/-- **The tokens of an expression are lexed.** -/
theorem lex_lexed (tables : CharTables) (input : Text) : (lex tables input).Lexed tables :=
  tokens_lexed (Nat.lt_succ_self _)

end Lexer

theorem TokenStream.Lexed.of_append {tables : CharTables} {tokens : List Token}
    {rest : TokenStream} (h : (append tokens rest).Lexed tables) :
    (∀ token ∈ tokens, token.Lexed tables) ∧ rest.Lexed tables := by
  induction tokens with
  | nil => exact ⟨by simp, h⟩
  | cons head tokens ih =>
    cases h with
    | cons hhead htail =>
      obtain ⟨htokens, hrest⟩ := ih htail
      refine ⟨fun token hmem => ?_, hrest⟩
      rcases mem_cons.mp hmem with rfl | hmem
      · exact hhead
      · exact htokens token hmem

/-! ### The tokens of a path -/

/-- A step of a path: a name that is written out, the name a placeholder stands for, or an
index. -/
inductive ConditionStep where
  | identifier (name : Text)
  | placeholder (name : Text)
  | index (digits : Text)
  deriving DecidableEq

/-- The text of a step behind the first one. -/
def ConditionStep.text : ConditionStep → Text
  | .identifier name | .placeholder name => '.' :: name
  | .index digits => '[' :: (digits ++ [']'])

/-- The text of the steps behind the first one. -/
def tailText (steps : List ConditionStep) : Text :=
  steps.flatMap ConditionStep.text

@[simp] theorem tailText_nil : tailText [] = [] := rfl

@[simp] theorem tailText_cons (step : ConditionStep) (steps : List ConditionStep) :
    tailText (step :: steps) = step.text ++ tailText steps := rfl

/-- The text of a path. It begins with a name. -/
def pathText (steps : List ConditionStep) : Text :=
  (tailText steps).tail

/-- The tokens of a name. -/
inductive NameToken (context : ExpressionContext) : Token → ConditionStep → Prop
  | identifier (name : Text) : NameToken context (.identifier name) (.identifier name)
  | placeholder {key name : Text} (h : context.names key = some name) :
      NameToken context (.attributeName key) (.placeholder name)

variable {step : ConditionStep} {context : ExpressionContext}

theorem NameToken.exists_text (h : NameToken context token step) :
    ∃ name, step.text = '.' :: name := by
  cases h with
  | identifier name => exact ⟨name, rfl⟩
  | placeholder h => exact ⟨_, rfl⟩

theorem NameToken.ne_eof (h : NameToken context token step) : token ≠ .eof := by
  cases h <;> simp

/-- The tokens of the steps behind the first one. -/
inductive TailTokens (context : ExpressionContext) : List Token → List ConditionStep → Prop
  | nil : TailTokens context [] []
  | name {token : Token} {step : ConditionStep} {tokens : List Token} {steps : List ConditionStep}
      (hname : NameToken context token step) (htail : TailTokens context tokens steps) :
      TailTokens context (.dot :: token :: tokens) (step :: steps)
  | index (digits : Text) {tokens : List Token} {steps : List ConditionStep}
      (htail : TailTokens context tokens steps) :
      TailTokens context (.leftBracket :: .number digits :: .rightBracket :: tokens)
        (.index digits :: steps)

/-- The tokens of a path. -/
inductive PathTokens (context : ExpressionContext) : List Token → List ConditionStep → Prop
  | intro {token : Token} {step : ConditionStep} {tokens : List Token} {steps : List ConditionStep}
      (hname : NameToken context token step) (htail : TailTokens context tokens steps) :
      PathTokens context (token :: tokens) (step :: steps)

namespace ConditionParser

theorem pathName_eq_ok {unexpected : Token → ParseError} {name : Text} :
    pathName context unexpected token = .ok name
      ↔ ∃ step, NameToken context token step ∧ step.text = '.' :: name := by
  constructor
  · intro h
    cases token <;> simp only [pathName, okOr_eq_ok, reduceCtorEq] at h
    case identifier actual =>
      cases h
      exact ⟨_, .identifier _, rfl⟩
    case attributeName key => exact ⟨_, .placeholder h, rfl⟩
  · rintro ⟨step, hname, htext⟩
    cases hname with
    | identifier actual =>
      cases htext
      rfl
    | placeholder h =>
      cases htext
      simp only [pathName, okOr_eq_ok]
      exact h

/-- A path goes on. -/
def ContinuesPath (stream : TokenStream) : Prop :=
  stream.current = .dot ∨ stream.current = .leftBracket

variable {stream rest : TokenStream}

/-- **The loop reads the tokens of the steps that follow.** -/
theorem pathLoop_eq_ok {path path' : Text} (h : pathLoop context path stream = .ok (path', rest)) :
    ∃ tokens steps, stream = append tokens rest ∧ TailTokens context tokens steps ∧
      path' = path ++ tailText steps ∧ (stream.IsReady → rest.IsReady) ∧
      ¬ContinuesPath rest := by
  fun_induction pathLoop context path stream with
  | case1 path token rest' ih =>
    simp only [Except.bind_eq_ok] at h
    obtain ⟨name, hname, _, hready, h⟩ := h
    obtain ⟨tokens, steps, rfl, htail, rfl, hrest, hend⟩ := ih name h
    obtain ⟨step, hstep, htext⟩ := pathName_eq_ok.mp hname
    refine ⟨.dot :: token :: tokens, step :: steps, rfl, .name hstep htail, ?_, fun _ => ?_, hend⟩
    · rw [tailText_cons, htext, append_assoc]
    · exact hrest (ready_eq_ok.mp hready).2
  | case3 path digits rest' ih =>
    simp only [Except.bind_eq_ok] at h
    obtain ⟨_, hready, h⟩ := h
    obtain ⟨tokens, steps, rfl, htail, rfl, hrest, hend⟩ := ih h
    refine ⟨.leftBracket :: .number digits :: .rightBracket :: tokens, .index digits :: steps,
      rfl, .index digits htail, ?_, fun _ => ?_, hend⟩
    · rw [tailText_cons, ConditionStep.text, append_assoc]
    · exact hrest (ready_eq_ok.mp hready).2
  | case2 => simp [Except.bind_eq_ok] at h
  | case4 => simp [Except.bind_eq_ok] at h
  | case5 => simp [Except.bind_eq_ok] at h
  | case6 path stream hdot hdot' hindex hindex' hbracket =>
    cases h
    refine ⟨[], [], rfl, .nil, by simp, id, ?_⟩
    rintro (hcurrent | hcurrent)
    · obtain ⟨tail, rfl⟩ := eq_cons_of_current hcurrent (by decide)
      exact hdot' _ rfl
    · obtain ⟨tail, rfl⟩ := eq_cons_of_current hcurrent (by decide)
      exact hbracket _ rfl

/-- The loop takes all steps in front of a token that continues no path. -/
theorem pathLoop_append {tokens : List Token} {steps : List ConditionStep}
    (h : TailTokens context tokens steps) (path : Text) (hready : rest.IsReady)
    (hend : ¬ContinuesPath rest) :
    pathLoop context path (append tokens rest) = .ok (path ++ tailText steps, rest) := by
  have hprefix : ∀ {tokens steps}, TailTokens context tokens steps →
      (append tokens rest).ready = .ok (append tokens rest) := by
    intro tokens steps htail
    cases htail with
    | nil => exact hready
    | name | index => rfl
  induction h generalizing path with
  | nil =>
    rw [append_nil, tailText_nil, List.append_nil]
    cases rest with
    | eof => rfl
    | fault error => cases hready
    | cons token rest =>
      cases token with
      | dot => exact absurd (.inl rfl) hend
      | leftBracket => exact absurd (.inr rfl) hend
      | _ => rfl
  | @name token _ _ _ hname htail ih =>
    obtain ⟨name, htext⟩ := hname.exists_text
    have hread : pathName context .expectedSegment token = .ok name :=
      pathName_eq_ok.mpr ⟨_, hname, htext⟩
    rw [append_cons, append_cons, pathLoop, hread]
    simp only [bind, Except.bind, hprefix htail]
    rw [ih, tailText_cons, htext, append_assoc]
  | index digits htail ih =>
    rw [append_cons, append_cons, append_cons, pathLoop]
    simp only [bind, Except.bind, hprefix htail]
    rw [ih, tailText_cons, ConditionStep.text, append_assoc]

/-- **A path is read exactly from its tokens.** -/
theorem parseAttributePath_eq_ok {path : Text} :
    parseAttributePath context stream = .ok (path, rest)
      ↔ ∃ tokens steps, stream = append tokens rest ∧ PathTokens context tokens steps ∧
        path = pathText steps ∧ rest.IsReady ∧ ¬ContinuesPath rest := by
  constructor
  · intro h
    simp only [parseAttributePath, Except.bind_eq_ok] at h
    obtain ⟨name, hname, stream', hadvance, h⟩ := h
    obtain ⟨step, hstep, htext⟩ := pathName_eq_ok.mp hname
    generalize hcurrent : stream.current = token at hstep
    obtain ⟨rfl, hready⟩ := advance_eq_ok hcurrent hstep.ne_eof hadvance
    obtain ⟨tokens, steps, rfl, htail, rfl, hrest, hend⟩ := pathLoop_eq_ok h
    refine ⟨token :: tokens, step :: steps, rfl, .intro hstep htail, ?_, hrest hready, hend⟩
    rw [pathText, tailText_cons, htext]
    rfl
  · rintro ⟨_, _, rfl, ⟨hname, htail⟩, rfl, hready, hend⟩
    rename_i token step tokens steps
    obtain ⟨name, htext⟩ := hname.exists_text
    have hread : pathName context .expectedPath token = .ok name :=
      pathName_eq_ok.mpr ⟨_, hname, htext⟩
    have hnext : (append tokens rest).IsReady := by
      cases htail with
      | nil => exact hready
      | name | index => rfl
    rw [parseAttributePath, append_cons, current, hread, advance, hnext, pathText, tailText_cons,
      htext]
    exact pathLoop_append htail name hready hend

end ConditionParser

/-! ### The paths of an expression -/

/-- The tokens that belong to no path. -/
def Token.outsidePath : Token → Bool
  | .identifier _ | .attributeName _ | .dot | .leftBracket | .rightBracket | .eof => false
  | _ => true

/-- The paths that tokens hold, in their order. A path can be read by several leaves in a row,
as the path of a size between two bounds is. -/
inductive Occurrences (context : ExpressionContext) :
    List Token → List (List ConditionStep) → Prop
  | nil : Occurrences context [] []
  | other {token : Token} {tokens : List Token} {paths : List (List ConditionStep)}
      (htoken : token.outsidePath = true) (htail : Occurrences context tokens paths) :
      Occurrences context (token :: tokens) paths
  | path {tokens tokens' : List Token} {steps : List ConditionStep}
      {paths : List (List ConditionStep)} (leaves : ℕ) (hpath : PathTokens context tokens steps)
      (htail : Occurrences context tokens' paths) :
      Occurrences context (tokens ++ tokens') (List.replicate (leaves + 1) steps ++ paths)

theorem Occurrences.append {s t : List Token}
    {p q : List (List ConditionStep)} (hs : Occurrences context s p)
    (ht : Occurrences context t q) : Occurrences context (s ++ t) (p ++ q) := by
  induction hs with
  | nil => exact ht
  | other htoken _ ih => exact .other htoken ih
  | path leaves hpath _ ih =>
    rw [append_assoc, append_assoc]
    exact .path leaves hpath ih

/-- The parser goes from a stream to another one, and reads paths with the given texts. -/
def ReadsPaths (context : ExpressionContext) (stream : TokenStream) (fields : List Text)
    (rest : TokenStream) : Prop :=
  ∃ tokens paths, stream = append tokens rest ∧ Occurrences context tokens paths ∧
    fields = paths.map pathText ∧ (stream.IsReady → rest.IsReady)

namespace ReadsPaths

variable {s t r : TokenStream} {f g : List Text}

theorem refl (s : TokenStream) : ReadsPaths context s [] s :=
  ⟨[], [], rfl, .nil, rfl, id⟩

theorem trans (hs : ReadsPaths context s f t) (ht : ReadsPaths context t g r) :
    ReadsPaths context s (f ++ g) r := by
  obtain ⟨tokens, paths, rfl, hoccurs, rfl, hready⟩ := hs
  obtain ⟨tokens', paths', rfl, hoccurs', rfl, hready'⟩ := ht
  exact ⟨tokens ++ tokens', paths ++ paths', (append_append ..).symm, hoccurs.append hoccurs',
    by rw [map_append], fun h => hready' (hready h)⟩

theorem length_le (hs : ReadsPaths context s f t) : t.length ≤ s.length := by
  obtain ⟨tokens, paths, rfl, -⟩ := hs
  rw [length_append]
  omega

theorem cons (h : token.outsidePath = true) (hready : r.IsReady) :
    ReadsPaths context (.cons token r) [] r :=
  ⟨[token], [], rfl, .other h .nil, rfl, fun _ => hready⟩

theorem expectToken (h : t.expectToken token = .ok r)
    (htoken : token.outsidePath = true) : ReadsPaths context t [] r := by
  obtain ⟨rfl, hready⟩ := expectToken_eq_ok (by rintro rfl; cases htoken) h
  exact cons htoken hready

theorem advance (h : t.advance = .ok r) (hcurrent : t.current = token)
    (htoken : token.outsidePath = true) : ReadsPaths context t [] r := by
  obtain ⟨rfl, hready⟩ := advance_eq_ok hcurrent (by rintro rfl; cases htoken) h
  exact cons htoken hready

theorem parseAttributePath {field : Text} (leaves : ℕ)
    (h : ConditionParser.parseAttributePath context s = .ok (field, r)) :
    ReadsPaths context s (List.replicate (leaves + 1) field) r := by
  obtain ⟨tokens, steps, rfl, hpath, rfl, hready, -⟩ :=
    ConditionParser.parseAttributePath_eq_ok.mp h
  refine ⟨tokens, replicate (leaves + 1) steps, rfl, ?_, by simp, fun _ => hready⟩
  simpa using Occurrences.path leaves hpath .nil

theorem parseAttributeValue {value : AttributeValue}
    (h : ConditionParser.parseAttributeValue context s = .ok (value, r)) :
    ReadsPaths context s [] r := by
  fun_induction ConditionParser.parseAttributeValue context s generalizing value r with
  | case1 rest ih =>
    simp only [Except.bind_eq_ok] at h
    obtain ⟨_, hready, ⟨_, _⟩, hvalue, _, hclose, h⟩ := h
    cases h
    exact (cons rfl (ready_eq_ok.mp hready).2).trans ((ih hvalue).trans (expectToken hclose rfl))
  | case2 name rest =>
    simp only [Except.bind_eq_ok] at h
    obtain ⟨_, _, _, hready, h⟩ := h
    cases h
    obtain ⟨rfl, hready⟩ := ready_eq_ok.mp hready
    exact cons rfl hready
  | case3 _ rest | case4 _ rest =>
    simp only [Except.bind_eq_ok] at h
    obtain ⟨_, hready, h⟩ := h
    cases h
    obtain ⟨rfl, hready⟩ := ready_eq_ok.mp hready
    exact cons rfl hready
  | case5 => cases h

end ReadsPaths

namespace ConditionParser

variable {s t r : TokenStream} {condition : Condition} {field : Text}
  {token : Token} {α β : Type}

/-! ### Computations that read paths -/

/-- A computation that reads from a stream, behind the paths that were read before, the paths
of what it returns. -/
def Reads (context : ExpressionContext) (s : TokenStream) (before : List Text)
    (paths : α → List Text) (x : Except ParseError (α × TokenStream)) : Prop :=
  ∀ a r, x = .ok (a, r) → ∃ fields, ReadsPaths context s fields r ∧ paths a = before ++ fields

namespace Reads

variable {before : List Text} {paths : α → List Text}

theorem pure {a : α} (h : paths a = before) : Reads context s before paths (.ok (a, s)) := by
  intro b r hb
  cases hb
  exact ⟨[], .refl s, by rw [h, List.append_nil]⟩

theorem error (error : ParseError) : Reads context s before paths (.error error) := by
  intro a r h
  cases h

variable {x : Except ParseError (α × TokenStream)}

theorem of_readsPaths
    (h : ∀ {r a}, x = .ok (a, r) → ReadsPaths context s (paths a) r) : Reads context s [] paths x :=
  fun _ _ hx => ⟨_, h hx, rfl⟩

theorem readsPaths (h : Reads context s [] paths x) {a : α} (hx : x = .ok (a, r)) :
    ReadsPaths context s (paths a) r := by
  obtain ⟨fields, hreads, hpaths⟩ := h a r hx
  rw [hpaths]
  exact hreads

theorem behind {fields : List Text} (hs : ReadsPaths context s fields t)
    (hx : Reads context t (before ++ fields) paths x) : Reads context s before paths x := by
  intro a r h
  obtain ⟨fields', hreads, hpaths⟩ := hx a r h
  exact ⟨fields ++ fields', hs.trans hreads, by rw [hpaths, append_assoc]⟩

theorem bind {x : Except ParseError (β × TokenStream)} {read : β → List Text}
    {f : β × TokenStream → Except ParseError (α × TokenStream)} (hx : Reads context s [] read x)
    (hf : ∀ b t, Reads context t (before ++ read b) paths (f (b, t))) :
    Reads context s before paths (x >>= f) := by
  intro a r h
  obtain ⟨⟨b, t⟩, hb, h⟩ := Except.bind_eq_ok.1 h
  obtain ⟨fields, hreads, hread⟩ := hx b t hb
  have ht := hf b t
  rw [hread] at ht
  exact behind hreads ht a r h

/-- A computation that takes nothing from the stream. -/
theorem andThen {x : Except ParseError β} {f : β → Except ParseError (α × TokenStream)}
    (hf : ∀ b, x = .ok b → Reads context s before paths (f b)) :
    Reads context s before paths (x >>= f) := by
  intro a r h
  obtain ⟨b, hb, h⟩ := Except.bind_eq_ok.1 h
  exact hf b hb a r h

variable {f : TokenStream → Except ParseError (α × TokenStream)}

theorem skip {x : Except ParseError TokenStream} (hx : ∀ t, x = .ok t → ReadsPaths context s [] t)
    (hf : ∀ t, x = .ok t → Reads context t before paths (f t)) :
    Reads context s before paths (x >>= f) := by
  intro a r h
  obtain ⟨t, ht, h⟩ := Except.bind_eq_ok.1 h
  have hreads := hf t ht
  rw [← List.append_nil before] at hreads
  exact behind (hx t ht) hreads a r h

/-- The operators of a comparison belong to no path. -/
theorem advance (htoken : s.current.outsidePath = true)
    (hf : ∀ t, Reads context t before paths (f t)) :
    Reads context s before paths (s.advance >>= f) :=
  skip (fun _ h => .advance h rfl htoken) fun t _ => hf t

theorem expectToken (htoken : token.outsidePath = true)
    (hf : ∀ t, Reads context t before paths (f t)) :
    Reads context s before paths (s.expectToken token >>= f) :=
  skip (fun _ h => .expectToken h htoken) fun t _ => hf t

end Reads

end ConditionParser

end AuxStorage
