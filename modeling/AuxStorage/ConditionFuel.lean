import AuxStorage.ConditionTokens

/-!
# What the Condition Parser Takes From Its Tokens

Every token takes a character of the expression, and every parenthesis, negation and
connective takes a token. The fuel of the lexer and the parser is a bound on these, so that
it is never used up. On its way through the tokens the parser looks up the value of every
placeholder it takes.
-/

namespace AuxStorage

open TokenStream
open List (append_assoc cons_append)
open Condition (andThen attributePaths attributePathsOf orElse)
open ConditionParser (andLoop orLoop)

/-- The placeholders of values in a stream. -/
def TokenStream.valueNames : TokenStream → List Text
  | .cons (.attributeValue name) rest => name :: rest.valueNames
  | .cons _ rest => rest.valueNames
  | _ => []

theorem TokenStream.mem_valueNames_append {name : Text} {tokens : List Token}
    {rest : TokenStream} : name ∈ (append tokens rest).valueNames ↔
      .attributeValue name ∈ tokens ∨ name ∈ rest.valueNames := by
  induction tokens with
  | nil => simp
  | cons token tokens ih =>
    rw [append_cons]
    cases token <;> simp [valueNames, ih, or_assoc]

/-- A token that is no placeholder of a value. -/
def Token.isPlain : Token → Bool
  | .attributeValue _ => false
  | _ => true

/-- A token that is no placeholder of a value, and belongs to no path. -/
def Token.isBare (token : Token) : Bool :=
  token.isPlain && token.outsidePath

namespace ConditionParser

variable {context : ExpressionContext} {s t r : TokenStream} {token : Token} {field : Text}
  {α : Type}

/-! ### Fueled computations -/

/-- A computation that does not use up its fuel. -/
def Fueled (x : Except ParseError α) : Prop :=
  x ≠ .error .outOfFuel

theorem Fueled.ok (a : α) : Fueled (.ok a) := by
  simp [Fueled]

theorem Fueled.error {error : ParseError} (h : error ≠ .outOfFuel) :
    Fueled (.error error : Except ParseError α) := by
  simpa [Fueled] using h

theorem Fueled.bind {α β : Type} {x : Except ParseError α} {f : α → Except ParseError β}
    (hx : Fueled x) (hf : ∀ a, x = .ok a → Fueled (f a)) : Fueled (x >>= f) := by
  cases x with
  | error error => exact .error fun h => hx (h ▸ rfl)
  | ok a => exact hf a rfl

theorem Fueled.okOr {error : ParseError} (h : error ≠ .outOfFuel) (o : Option α) :
    Fueled (okOr error o) := by
  cases o with
  | none => exact .error h
  | some a => exact .ok a

/-- A stream whose tokens were lexed with enough fuel. -/
def FueledStream (stream : TokenStream) : Prop :=
  ∀ tokens, stream ≠ append tokens (.fault .outOfFuel)

theorem FueledStream.ready (hs : FueledStream s) : Fueled s.ready := by
  cases s with
  | fault error => exact .error fun h => hs [] (h ▸ rfl)
  | eof => exact .ok _
  | cons token rest => exact .ok _

theorem FueledStream.tail (hs : FueledStream (.cons token s)) : FueledStream s :=
  fun tokens h => hs (token :: tokens) (by rw [h, append_cons])

theorem FueledStream.reads {fields : List Text} (hs : FueledStream s)
    (h : ReadsPaths context s fields r) : FueledStream r := by
  obtain ⟨tokens, _, rfl, -⟩ := h
  intro tokens' hr
  exact hs (tokens ++ tokens') (by rw [hr, append_append])

theorem FueledStream.advance (hs : FueledStream s) : Fueled s.advance := by
  cases s with
  | cons token rest => exact hs.tail.ready
  | eof => exact hs.ready
  | fault error => exact hs.ready

theorem FueledStream.of_advance (hs : FueledStream s) (h : s.advance = .ok r) : FueledStream r := by
  cases s with
  | cons token rest =>
    obtain ⟨rfl, -⟩ := ready_eq_ok.mp h
    exact hs.tail
  | eof =>
    cases h
    exact hs
  | fault error => cases h

theorem FueledStream.of_expectToken (hs : FueledStream s)
    (h : s.expectToken token = .ok r) : FueledStream r := by
  rw [TokenStream.expectToken] at h
  split at h
  · exact hs.of_advance h
  · cases h

theorem FueledStream.expectToken (hs : FueledStream s) : Fueled (s.expectToken token) := by
  rw [TokenStream.expectToken]
  split
  · exact hs.advance
  · exact .error (by simp)

theorem fueled_pathName {unexpected : Token → ParseError}
    (h : ∀ token, unexpected token ≠ .outOfFuel) (token : Token) :
    Fueled (pathName context unexpected token) := by
  cases token <;> first | exact .ok _ | exact .okOr (by simp) _ | exact .error (h _)

theorem fueled_pathLoop (path : Text) (hs : FueledStream s) : Fueled (pathLoop context path s) := by
  fun_induction pathLoop context path s with
  | case1 path token rest ih =>
    refine .bind (fueled_pathName (by simp) token) fun name _ => ?_
    exact .bind hs.tail.tail.ready fun _ _ => ih name hs.tail.tail
  | case3 path digits rest ih =>
    exact .bind hs.tail.tail.tail.ready fun _ _ => ih hs.tail.tail.tail
  | case2 path rest => exact .bind hs.tail.ready fun _ _ => .error (by simp)
  | case4 path digits rest => exact .bind hs.tail.tail.ready fun _ _ => .error (by simp)
  | case5 path rest => exact .bind hs.tail.ready fun _ _ => .error (by simp)
  | case6 => exact .ok _

theorem fueled_parseAttributePath (hs : FueledStream s) : Fueled (parseAttributePath context s) :=
  .bind (fueled_pathName (by simp) _) fun name _ =>
    .bind hs.advance fun _ ht => fueled_pathLoop name (hs.of_advance ht)

theorem fueled_parseAttributeValue (hs : FueledStream s) :
    Fueled (parseAttributeValue context s) := by
  fun_induction parseAttributeValue context s with
  | case1 rest ih =>
    refine .bind hs.tail.ready fun _ _ => .bind (ih hs.tail) fun _ hvalue => ?_
    exact .bind (hs.tail.reads (.parseAttributeValue hvalue)).expectToken fun _ _ => .ok _
  | case2 name rest => exact .bind (.okOr (by simp) _) fun _ _ => .bind hs.tail.ready fun _ _ => .ok _
  | case3 | case4 => exact .bind hs.tail.ready fun _ _ => .ok _
  | case5 => exact .error (by simp)

/-! ### Values of a parsed expression -/

/-- The parser goes from a stream to another one, and the placeholders on its way have values. -/
def Consumes (context : ExpressionContext) (s r : TokenStream) : Prop :=
  ∃ tokens, s = append tokens r ∧
    ∀ name, .attributeValue name ∈ tokens → (context.values name).isSome = true

theorem Consumes.refl (s : TokenStream) : Consumes context s s :=
  ⟨[], rfl, fun _ h => by cases h⟩

theorem Consumes.trans (hs : Consumes context s t) (ht : Consumes context t r) :
    Consumes context s r := by
  obtain ⟨tokens, rfl, hvalues⟩ := hs
  obtain ⟨tokens', rfl, hvalues'⟩ := ht
  refine ⟨tokens ++ tokens', (append_append ..).symm, fun name hmem => ?_⟩
  rcases List.mem_append.1 hmem with hmem | hmem
  · exact hvalues name hmem
  · exact hvalues' name hmem

theorem Consumes.cons (h : token.isPlain = true) (r : TokenStream) :
    Consumes context (.cons token r) r := by
  refine ⟨[token], rfl, fun name hmem => ?_⟩
  obtain rfl := List.mem_singleton.1 hmem
  cases h

theorem Consumes.placeholder {name : Text} {error : ParseError} {value : AttributeValue}
    (h : okOr error (context.values name) = .ok value) :
    Consumes context (.cons (.attributeValue name) r) r := by
  refine ⟨[.attributeValue name], rfl, fun other hmem => ?_⟩
  cases List.mem_singleton.1 hmem
  rw [okOr_eq_ok.1 h]
  rfl

theorem Consumes.valueNames_subset (h : Consumes context s r) : r.valueNames ⊆ s.valueNames := by
  obtain ⟨tokens, rfl, -⟩ := h
  exact fun name hmem => mem_valueNames_append.2 (.inr hmem)

theorem Consumes.of_advance (hplain : s.current.isPlain = true) (h : s.advance = .ok r) :
    Consumes context s r := by
  cases s with
  | cons token rest =>
    obtain ⟨rfl, -⟩ := ready_eq_ok.mp h
    exact .cons hplain r
  | eof =>
    cases h
    exact .refl _
  | fault error => cases h

theorem Consumes.of_expectToken (hplain : token.isPlain = true) (h : s.expectToken token = .ok r) :
    Consumes context s r := by
  rw [TokenStream.expectToken] at h
  split at h
  · rename_i hcurrent
    exact .of_advance (by rw [hcurrent]; exact hplain) h
  · cases h

theorem Consumes.of_parseAttributePath (h : parseAttributePath context s = .ok (field, r)) :
    Consumes context s r := by
  obtain ⟨tokens, steps, rfl, hpath, -⟩ := parseAttributePath_eq_ok.mp h
  refine ⟨tokens, rfl, fun name hmem => ?_⟩
  have hname {token : Token} {step : ConditionStep} (h : NameToken context token step) :
      token ≠ .attributeValue name := by cases h <;> simp
  have htail {tokens : List Token} {steps : List ConditionStep}
      (h : TailTokens context tokens steps) : .attributeValue name ∉ tokens := by
    induction h with
    | nil => simp
    | name htoken _ ih => simp [ih, (hname htoken).symm]
    | index digits _ ih => simp [ih]
  cases hpath with
  | intro htoken hrest => simp [htail hrest, (hname htoken).symm] at hmem

/-- A computation that consumes what it takes from a stream. -/
def Supplied (context : ExpressionContext) (s : TokenStream)
    (x : Except ParseError (α × TokenStream)) : Prop :=
  ∀ a r, x = .ok (a, r) → Consumes context s r

/-- The context with other values. -/
def withValues (context : ExpressionContext) (values : Text → Option AttributeValue) :
    ExpressionContext :=
  { context with values }

variable {values : Text → Option AttributeValue}

/-- The values agree on the placeholders of a stream. -/
def Agree (context : ExpressionContext) (values : Text → Option AttributeValue)
    (s : TokenStream) : Prop :=
  ∀ name ∈ s.valueNames, values name = context.values name

theorem Agree.of_consumes (hs : Agree context values s) (h : Consumes context s r) :
    Agree context values r :=
  fun name hmem => hs name (h.valueNames_subset hmem)

theorem Agree.tail (hs : Agree context values (.cons token s)) : Agree context values s := by
  intro name hmem
  refine hs name ?_
  rw [← append_nil s, ← append_cons, mem_valueNames_append]
  exact .inr hmem

variable {β : Type}

theorem bind_alike {x : Except ParseError β} {f g : β → Except ParseError α}
    (hf : ∀ b, x = .ok b → g b = f b) : (x >>= g) = (x >>= f) := by
  cases x with
  | error => rfl
  | ok b => exact hf b rfl

theorem pathLoop_withValues (path : Text) (s : TokenStream) :
    pathLoop (withValues context values) path s = pathLoop context path s := by
  fun_induction pathLoop context path s with
  | case1 path token rest ih =>
    rw [pathLoop]
    simp only [ih]
    rfl
  | case2 path rest h => rw [pathLoop.eq_2 _ _ _ h]
  | case3 path digits rest ih => rw [pathLoop, ih]
  | case4 path digits rest h => rw [pathLoop.eq_4 _ _ _ _ h]
  | case5 path rest h h' => rw [pathLoop.eq_5 _ _ _ h h']
  | case6 path stream hdot hdot' hindex hindex' hbracket =>
    rw [pathLoop.eq_6 _ _ _ hdot hdot' hindex hindex' hbracket]

theorem parseAttributePath_withValues (s : TokenStream) :
    parseAttributePath (withValues context values) s = parseAttributePath context s := by
  simp only [parseAttributePath, pathLoop_withValues]
  rfl

/-- A computation that consumes what it takes from a stream, and the same computation in the
context with other values: it has the same outcome when the values agree. -/
structure Follows (context : ExpressionContext) (values : Text → Option AttributeValue)
    (s : TokenStream) (x y : Except ParseError (α × TokenStream)) : Prop where
  supplied : Supplied context s x
  alike : Agree context values s → y = x

variable {x y : Except ParseError (β × TokenStream)}
  {f g : β × TokenStream → Except ParseError (α × TokenStream)}

namespace Follows

theorem pure (a : α) : Follows context values s (.ok (a, s)) (.ok (a, s)) := by
  refine ⟨fun b r h => ?_, fun _ => rfl⟩
  cases h
  exact .refl s

theorem error (error : ParseError) :
    Follows context values s (.error error : Except ParseError (α × TokenStream)) (.error error) :=
  ⟨fun a r h => (by cases h), fun _ => rfl⟩

theorem bind (hx : Follows context values s x y)
    (hf : ∀ b t, Follows context values t (f (b, t)) (g (b, t))) :
    Follows context values s (x >>= f) (y >>= g) := by
  refine ⟨fun a r h => ?_, fun hs => ?_⟩
  · obtain ⟨⟨b, t⟩, hb, h⟩ := Except.bind_eq_ok.1 h
    exact (hx.supplied b t hb).trans ((hf b t).supplied a r h)
  · rw [hx.alike hs]
    exact bind_alike fun ⟨b, t⟩ hb => (hf b t).alike (hs.of_consumes (hx.supplied b t hb))

theorem of_alike {x y y' : Except ParseError (α × TokenStream)}
    (h : Agree context values s → y = y') (hx : Follows context values s x y') :
    Follows context values s x y :=
  ⟨hx.supplied, fun hs => (h hs).trans (hx.alike hs)⟩

variable {f g : TokenStream → Except ParseError (α × TokenStream)}

/-- Behind a computation that takes a part of the stream and returns nothing else. -/
theorem skip {x : Except ParseError TokenStream} (hx : ∀ t, x = .ok t → Consumes context s t)
    (hf : ∀ t, x = .ok t → Follows context values t (f t) (g t)) :
    Follows context values s (x >>= f) (x >>= g) := by
  refine ⟨fun a r h => ?_, fun hs => bind_alike fun t ht => ?_⟩
  · obtain ⟨t, ht, h⟩ := Except.bind_eq_ok.1 h
    exact (hx t ht).trans ((hf t ht).supplied a r h)
  · exact (hf t ht).alike (hs.of_consumes (hx t ht))

theorem advance (hplain : s.current.isPlain = true)
    (hf : ∀ t, Follows context values t (f t) (g t)) :
    Follows context values s (s.advance >>= f) (s.advance >>= g) :=
  skip (fun _ => .of_advance hplain) fun t _ => hf t

theorem expectToken (hplain : token.isPlain = true)
    (hf : ∀ t, Follows context values t (f t) (g t)) :
    Follows context values s (s.expectToken token >>= f) (s.expectToken token >>= g) :=
  skip (fun _ => .of_expectToken hplain) fun t _ => hf t

end Follows

/-- **A value is looked up when its placeholder is taken.** -/
theorem follows_parseAttributeValue : Follows context values s (parseAttributeValue context s)
    (parseAttributeValue (withValues context values) s) := by
  fun_induction parseAttributeValue context s with
  | case1 rest ih =>
    rw [parseAttributeValue]
    refine .skip (fun _ => .of_advance (s := .cons .leftParen rest) rfl) fun t ht => ?_
    obtain ⟨rfl, -⟩ := ready_eq_ok.mp ht
    exact ih.bind fun _ _ => .expectToken rfl fun _ => .pure _
  | case2 name rest =>
    rw [parseAttributeValue]
    refine ⟨fun a r h => ?_, fun hs => ?_⟩
    · obtain ⟨value, hvalue, hrest⟩ := Except.bind_eq_ok.1 h
      obtain ⟨t, ht, hok⟩ := Except.bind_eq_ok.1 hrest
      obtain ⟨rfl, -⟩ := ready_eq_ok.mp ht
      cases hok
      exact .placeholder hvalue
    · change (okOr _ (values name) >>= _) = _
      rw [hs name List.mem_cons_self]
  | case3 value rest | case4 value rest =>
    rw [parseAttributeValue]
    exact .advance (s := .cons _ rest) rfl fun _ => .pure _
  | case5 stream h1 h2 h3 h4 =>
    rw [parseAttributeValue.eq_5 _ _ h1 h2 h3 h4]
    exact .error _

/-! ### Comparisons -/

theorem Consumes.fueledStream (h : Consumes context s r) (hs : FueledStream s) :
    FueledStream r := by
  obtain ⟨tokens, rfl, -⟩ := h
  exact fun tokens' hr => hs (tokens ++ tokens') (by rw [hr, append_append])

/-- A computation that follows its stream, and uses up no fuel. -/
structure Runs (context : ExpressionContext) (values : Text → Option AttributeValue)
    (s : TokenStream) (x y : Except ParseError (α × TokenStream)) : Prop
    extends Follows context values s x y where
  fueled : FueledStream s → Fueled x

/-- A function of the parser that runs so. -/
abbrev RunsOn (context : ExpressionContext) (values : Text → Option AttributeValue)
    (s : TokenStream)
    (parse : ExpressionContext → TokenStream → Except ParseError (α × TokenStream)) : Prop :=
  Runs context values s (parse context s) (parse (withValues context values) s)

theorem Runs.bind (hx : Runs context values s x y)
    (hf : ∀ b t, Runs context values t (f (b, t)) (g (b, t))) :
    Runs context values s (x >>= f) (y >>= g) :=
  ⟨hx.toFollows.bind fun b t => (hf b t).toFollows, fun hs => (hx.fueled hs).bind
    fun ⟨b, t⟩ h => (hf b t).fueled ((hx.supplied b t h).fueledStream hs)⟩

theorem Runs.expectToken {f g : TokenStream → Except ParseError (α × TokenStream)}
    (hplain : token.isPlain = true) (hf : ∀ t, Runs context values t (f t) (g t)) :
    Runs context values s (s.expectToken token >>= f) (s.expectToken token >>= g) :=
  ⟨.expectToken hplain fun t => (hf t).toFollows,
    fun hs => hs.expectToken.bind fun t ht => (hf t).fueled (hs.of_expectToken ht)⟩

/-- A computation that runs so, and reads behind the paths that were read before the paths of
what it returns. -/
structure Traced (context : ExpressionContext) (values : Text → Option AttributeValue)
    (s : TokenStream) (before : List Text) (paths : α → List Text)
    (x y : Except ParseError (α × TokenStream)) : Prop extends Runs context values s x y where
  reads : Reads context s before paths x

abbrev TracedOn (context : ExpressionContext) (values : Text → Option AttributeValue)
    (s : TokenStream) (before : List Text) (paths : α → List Text)
    (parse : ExpressionContext → TokenStream → Except ParseError (α × TokenStream)) : Prop :=
  Traced context values s before paths (parse context s) (parse (withValues context values) s)

variable {before : List Text} {paths : α → List Text}

namespace Traced

theorem pure {a : α} (h : paths a = before) :
    Traced context values s before paths (.ok (a, s)) (.ok (a, s)) :=
  ⟨⟨.pure a, fun _ => .ok _⟩, .pure h⟩

theorem error {error : ParseError} (h : error ≠ .outOfFuel) :
    Traced context values s before paths (.error error) (.error error) :=
  ⟨⟨.error error, fun _ => .error h⟩, .error error⟩

theorem bind {read : β → List Text} (hx : Traced context values s [] read x y)
    (hf : ∀ b t, Traced context values t (before ++ read b) paths (f (b, t)) (g (b, t))) :
    Traced context values s before paths (x >>= f) (y >>= g) :=
  ⟨hx.toRuns.bind fun b t => (hf b t).toRuns, hx.reads.bind fun b t => (hf b t).reads⟩

/-- A computation that takes nothing from the stream. -/
theorem andThen {x : Except ParseError β}
    {f g : β → Except ParseError (α × TokenStream)} (hx : Fueled x)
    (hf : ∀ b, x = .ok b → Traced context values s before paths (f b) (g b)) :
    Traced context values s before paths (x >>= f) (x >>= g) := by
  refine ⟨⟨⟨fun a r h => ?_, fun hs => bind_alike fun b hb => (hf b hb).alike hs⟩,
    fun hs => hx.bind fun b h => (hf b h).fueled hs⟩, .andThen fun b hb => (hf b hb).reads⟩
  obtain ⟨b, hb, h⟩ := Except.bind_eq_ok.1 h
  exact (hf b hb).supplied a r h

variable {f g : TokenStream → Except ParseError (α × TokenStream)}

theorem advance (htoken : s.current.isBare = true)
    (hf : ∀ t, Traced context values t before paths (f t) (g t)) :
    Traced context values s before paths (s.advance >>= f) (s.advance >>= g) := by
  rw [Token.isBare, Bool.and_eq_true] at htoken
  exact ⟨⟨.advance htoken.1 fun t => (hf t).toFollows,
    fun hs => hs.advance.bind fun t ht => (hf t).fueled (hs.of_advance ht)⟩,
    .advance htoken.2 fun t => (hf t).reads⟩

theorem expectToken (htoken : token.isBare = true)
    (hf : ∀ t, Traced context values t before paths (f t) (g t)) :
    Traced context values s before paths (s.expectToken token >>= f)
      (s.expectToken token >>= g) := by
  rw [Token.isBare, Bool.and_eq_true] at htoken
  exact ⟨.expectToken htoken.1 fun t => (hf t).toRuns, .expectToken htoken.2 fun t => (hf t).reads⟩

/-- A placeholder is taken, and its value looked up. -/
theorem placeholder {name : Text} {error : ParseError}
    {f g : AttributeValue → TokenStream → Except ParseError (α × TokenStream)}
    (herror : error ≠ .outOfFuel)
    (hf : ∀ value, Traced context values s before paths (f value s) (g value s)) :
    Traced context values (.cons (.attributeValue name) s) before paths
      (s.ready >>= fun t => okOr error (context.values name) >>= fun value => f value t)
      (s.ready >>= fun t => okOr error (values name) >>= fun value => g value t) := by
  refine ⟨⟨⟨fun a r h => ?_, fun hs => bind_alike fun t ht => ?_⟩, fun hs =>
    .bind hs.tail.ready fun t ht => .bind (.okOr herror _) fun value _ => ?_⟩,
    .skip (fun t ht => ?_) fun t ht => .andThen fun value _ => ?_⟩
  · obtain ⟨t, ht, hlook⟩ := Except.bind_eq_ok.1 h
    obtain ⟨rfl, -⟩ := ready_eq_ok.mp ht
    obtain ⟨value, hvalue, h⟩ := Except.bind_eq_ok.1 hlook
    exact (Consumes.placeholder hvalue).trans ((hf value).supplied a r h)
  · obtain ⟨rfl, -⟩ := ready_eq_ok.mp ht
    rw [hs name List.mem_cons_self]
    exact bind_alike fun value _ => (hf value).alike hs.tail
  · obtain ⟨rfl, -⟩ := ready_eq_ok.mp ht
    exact (hf value).fueled hs.tail
  · obtain ⟨rfl, hready⟩ := ready_eq_ok.mp ht
    exact .cons rfl hready
  · obtain ⟨rfl, -⟩ := ready_eq_ok.mp ht
    exact (hf value).reads

end Traced

theorem traced_parseAttributePath (leaves : ℕ) :
    TracedOn context values s [] (List.replicate (leaves + 1)) parseAttributePath :=
  ⟨⟨⟨fun _ _ h => .of_parseAttributePath h, fun _ => parseAttributePath_withValues s⟩,
    fueled_parseAttributePath⟩, fun _ _ h => ⟨_, .parseAttributePath leaves h, rfl⟩⟩

theorem traced_parseAttributeValue :
    TracedOn context values s [] (fun _ => []) parseAttributeValue :=
  ⟨⟨follows_parseAttributeValue, fueled_parseAttributeValue⟩,
    fun _ _ h => ⟨_, .parseAttributeValue h, rfl⟩⟩

theorem traced_parseValue : TracedOn context values s [] (fun _ => []) parseValue :=
  traced_parseAttributeValue.bind fun _ _ => .pure rfl

theorem traced_parseBetween (hcurrent : s.current = .between) :
    TracedOn context values s [] (fun _ => []) parseBetween := by
  refine .advance (by rw [hcurrent]; rfl) fun t => traced_parseAttributeValue.bind fun lower u =>
    .expectToken rfl fun v => traced_parseAttributeValue.bind fun upper w => ?_
  dsimp only
  split
  · exact .error (by simp)
  · exact .pure rfl

theorem traced_parseOrder {build : Text → Condition} (htoken : s.current.isBare = true)
    (hbuild : ∀ value, (build value).attributePaths = [field]) :
    TracedOn context values s [field] attributePaths (parseOrder · build) :=
  .advance htoken fun _ => traced_parseValue.bind fun value _ => .pure (hbuild value)

theorem traced_parseTyped {build : AttributeValue → Condition}
    (htoken : s.current.isBare = true)
    (hbuild : ∀ value, (build value).attributePaths = [field]) :
    TracedOn context values s [field] attributePaths (parseTyped · build) :=
  .advance htoken fun _ => traced_parseAttributeValue.bind fun value _ => .pure (hbuild value)

/-- The rest of a list of values, with fuel for every token that is left. -/
theorem follows_parseValueList (fuel : ℕ) (list : List AttributeValue) :
    Follows context values s (parseValueList context fuel list s)
        (parseValueList (withValues context values) fuel list s) ∧
      Reads context s [] (fun _ => []) (parseValueList context fuel list s) ∧
      (FueledStream s → s.length < fuel → Fueled (parseValueList context fuel list s)) := by
  induction fuel generalizing s list with
  | zero => exact ⟨.error _, .error _, by omega⟩
  | succ fuel ih =>
    have hvalue (t : TokenStream) := @traced_parseAttributeValue context t values
    rw [parseValueList, parseValueList]
    split
    · rename_i hcurrent
      refine ⟨.advance (by rw [hcurrent]; rfl) fun t => (hvalue t).toFollows.bind fun _ _ => (ih _).1,
        .advance (by rw [hcurrent]; rfl) fun t => (hvalue t).reads.bind fun _ _ => (ih _).2.1,
        fun hs hfuel => .bind hs.advance fun t ht => ?_⟩
      obtain ⟨rfl, -⟩ := advance_eq_ok hcurrent (by simp) ht
      refine .bind ((hvalue t).fueled hs.tail) fun ⟨value, r⟩ hread => ?_
      have hreads := (hvalue t).reads.readsPaths hread
      have hlength := hreads.length_le
      rw [length] at hfuel
      exact (ih _).2.2 (hs.tail.reads hreads) (by omega)
    · exact ⟨.pure _, .pure rfl, fun _ _ => .ok _⟩
    · exact ⟨.error _, .error _, fun _ _ => .error (by simp)⟩

theorem traced_parseValueList {list : List AttributeValue} :
    TracedOn context values s [] (fun _ => []) (parseValueList · (s.length + 1) list) := by
  obtain ⟨hfollows, hreads, hfueled⟩ := follows_parseValueList (s.length + 1) list
  exact ⟨⟨hfollows, fun hs => hfueled hs (Nat.lt_succ_self _)⟩, hreads⟩

theorem traced_parseIn (hcurrent : s.current = .inKeyword) :
    TracedOn context values s [field] attributePaths (parseIn · field) := by
  refine .advance (by rw [hcurrent]; rfl) fun t => .expectToken rfl fun u => ?_
  dsimp only
  split
  · -- A first placeholder is looked up here.
    refine .placeholder (by simp) fun value => ?_
    split
    · exact .expectToken rfl fun _ => .pure rfl
    · exact traced_parseValueList.bind fun _ _ => .expectToken rfl fun _ => .pure rfl
  · exact traced_parseAttributeValue.bind fun _ _ => traced_parseValueList.bind fun _ _ =>
      .expectToken rfl fun _ => .pure rfl

theorem traced_parseComparison :
    TracedOn context values s [field] attributePaths (parseComparison · field) := by
  rw [TracedOn, parseComparison, parseComparison]
  split
  case h_7 hcurrent => exact (traced_parseBetween hcurrent).bind fun _ _ => .pure rfl
  case h_8 hcurrent => exact traced_parseIn hcurrent
  case h_9 => exact .error (by simp)
  all_goals
    rename_i hcurrent
    first
      | exact traced_parseTyped (by rw [hcurrent]; rfl) fun _ => rfl
      | exact traced_parseOrder (by rw [hcurrent]; rfl) fun _ => rfl

variable {path : Text → Condition}

theorem traced_parseLeftEquality {build : AttributeValue → Condition}
    (htoken : s.current.isBare = true) (hbuild : ∀ value, (build value).attributePaths = [])
    (hpath : ∀ field, (path field).attributePaths = [field]) :
    TracedOn context values s [] attributePaths (parseLeftEquality · build path) := by
  refine .advance htoken fun t => ?_
  split
  · exact traced_parseAttributeValue.bind fun value _ => .pure (hbuild value)
  · exact (traced_parseAttributePath 0).bind fun field _ => .pure (hpath field)

theorem traced_parseLeftOrder (htoken : s.current.isBare = true)
    (hpath : ∀ field, (path field).attributePaths = [field]) :
    TracedOn context values s [] attributePaths (parseLeftOrder · path) :=
  .advance htoken fun _ => (traced_parseAttributePath 0).bind fun field _ => .pure (hpath field)

theorem traced_parseValueLeftComparisonFromValue (left : AttributeValue) :
    TracedOn context values s [] attributePaths (parseValueLeftComparisonFromValue · left) := by
  rw [TracedOn, parseValueLeftComparisonFromValue, parseValueLeftComparisonFromValue]
  split
  case h_7 => exact .error (by simp)
  all_goals
    rename_i hcurrent
    first
      | exact traced_parseLeftEquality (by rw [hcurrent]; rfl) (fun _ => rfl) fun _ => rfl
      | exact traced_parseLeftOrder (by rw [hcurrent]; rfl) fun _ => rfl

theorem traced_tryParseParenthesizedOperandComparison :
    TracedOn context values s [] attributePaths tryParseParenthesizedOperandComparison := by
  refine .expectToken rfl fun t => ?_
  split
  · exact traced_parseAttributeValue.bind fun _ _ => .expectToken rfl fun _ =>
      traced_parseValueLeftComparisonFromValue _
  · exact (traced_parseAttributePath 0).bind fun _ _ => .expectToken rfl fun _ =>
      traced_parseComparison

/-- A size comparison is one leaf, or two between bounds. -/
theorem traced_parseSizeComparison (field : Text) (s : TokenStream) :
    ∃ leaves, TracedOn context values s (List.replicate (leaves + 1) field) attributePaths
      (parseSizeComparison · field) := by
  simp only [TracedOn, parseSizeComparison]
  split
  · rename_i hcurrent
    exact ⟨1, (traced_parseBetween hcurrent).bind fun _ _ => .andThen (.okOr (by simp) _)
      fun _ _ => .andThen (.okOr (by simp) _) fun _ _ => .pure rfl⟩
  · refine ⟨0, .andThen (.okOr (by simp) _) fun operator hoperator => ?_⟩
    have htoken : s.current.isBare = true := by
      rw [okOr_eq_ok] at hoperator
      cases hcurrent : s.current <;> rw [hcurrent] at hoperator <;> first | rfl | cases hoperator
    refine .advance htoken fun t => traced_parseValue.bind fun value u =>
      .andThen (.okOr (by simp) _) fun size _ => ?_
    split
    · exact .pure rfl
    · exact .pure rfl

theorem traced_parseFunctionPath (leaves : ℕ) (htoken : s.current.isBare = true) :
    TracedOn context values s [] (List.replicate (leaves + 1)) parseFunctionPath :=
  .advance htoken fun _ => .expectToken rfl fun _ => traced_parseAttributePath leaves

theorem traced_parseOperand : TracedOn context values s [] attributePaths parseOperand := by
  rw [TracedOn, parseOperand, parseOperand]
  split
  case h_1 hcurrent | h_2 hcurrent =>
    exact (traced_parseFunctionPath 0 (by rw [hcurrent]; rfl)).bind fun _ _ =>
      .expectToken rfl fun _ => .pure rfl
  case h_3 hcurrent =>
    exact (traced_parseFunctionPath 0 (by rw [hcurrent]; rfl)).bind fun _ _ =>
      .expectToken rfl fun _ => traced_parseAttributeValue.bind fun _ _ =>
        .expectToken rfl fun _ => .pure rfl
  case h_4 hcurrent =>
    refine (traced_parseFunctionPath 0 (by rw [hcurrent]; rfl)).bind fun _ _ =>
      .expectToken rfl fun u => .andThen ?_ fun same _ => ?_
    · cases u.current <;>
        first | exact .ok _ | exact .bind (.okOr (by simp) _) fun _ _ => .ok _
    · split
      · exact .error (by simp)
      · exact traced_parseAttributeValue.bind fun _ _ => .expectToken rfl fun _ => .pure rfl
  case h_5 hcurrent =>
    refine (traced_parseFunctionPath 0 (by rw [hcurrent]; rfl)).bind fun _ _ =>
      .expectToken rfl fun _ => traced_parseAttributeValue.bind fun value _ => ?_
    dsimp only
    split
    · exact .expectToken rfl fun _ => .pure rfl
    · exact .error (by simp)
  case h_6 hcurrent =>
    -- How many leaves read the path is only known from the comparison behind it.
    have hpath (leaves : ℕ) := @traced_parseFunctionPath context s values leaves
      (by rw [hcurrent]; rfl)
    refine ⟨(hpath 0).toRuns.bind fun field t => .expectToken rfl fun u => ?_,
      fun condition r h => ?_⟩
    · obtain ⟨leaves, hsize⟩ := traced_parseSizeComparison field u
      exact hsize.toRuns
    · obtain ⟨⟨field, t⟩, hfield, hclosed⟩ := Except.bind_eq_ok.1 h
      obtain ⟨u, hclose, hsize⟩ := Except.bind_eq_ok.1 hclosed
      obtain ⟨leaves, htraced⟩ := @traced_parseSizeComparison context values field u
      obtain ⟨fields, hread, hfields⟩ := (hpath leaves).reads field t hfield
      have hreads := htraced.reads
      rw [hfields, ← List.append_nil ([] ++ fields)] at hreads
      exact Reads.behind hread (.behind (.expectToken hclose rfl) hreads) condition r hsize
  case h_10 => exact (traced_parseAttributePath 0).bind fun _ _ => traced_parseComparison
  all_goals
    exact traced_parseAttributeValue.bind fun _ _ => traced_parseValueLeftComparisonFromValue _

theorem runs_parseOperand : RunsOn context values s parseOperand :=
  traced_parseOperand.toRuns

/-! ### Boolean structure -/

theorem attributePathsOf_append (left right : List Condition) :
    attributePathsOf (left ++ right) = attributePathsOf left ++ attributePathsOf right := by
  induction left with
  | nil => rfl
  | cons condition left ih =>
    rw [cons_append, attributePathsOf, ih, attributePathsOf, append_assoc]

theorem attributePathsOf_pair (left right : Condition) :
    attributePathsOf [left, right] = left.attributePaths ++ right.attributePaths := by
  simp [attributePathsOf]

theorem attributePaths_andThen (left right : Condition) :
    (left.andThen right).attributePaths = left.attributePaths ++ right.attributePaths := by
  cases left <;> simp only [andThen, attributePaths, attributePathsOf_pair]
  case and conditions =>
    rw [attributePathsOf_append]
    simp [attributePathsOf]

theorem attributePaths_orElse (left right : Condition) :
    (left.orElse right).attributePaths = left.attributePaths ++ right.attributePaths := by
  cases left <;> simp only [orElse, attributePaths, attributePathsOf_pair]
  case or conditions =>
    rw [attributePathsOf_append]
    simp [attributePathsOf]

/-- What every function of the Boolean structure does with its fuel: it reads the paths of
the condition it returns. -/
structure ReadsWith (context : ExpressionContext) (fuel : ℕ) : Prop where
  orExpression : ∀ {s r condition}, parseOrExpression context fuel s = .ok (condition, r) →
    ReadsPaths context s condition.attributePaths r
  orLoop : ∀ {left s r condition}, orLoop context fuel left s = .ok (condition, r) →
    ∃ fields, ReadsPaths context s fields r ∧
      condition.attributePaths = left.attributePaths ++ fields
  andExpression : ∀ {s r condition}, parseAndExpression context fuel s = .ok (condition, r) →
    ReadsPaths context s condition.attributePaths r
  andLoop : ∀ {left s r condition}, andLoop context fuel left s = .ok (condition, r) →
    ∃ fields, ReadsPaths context s fields r ∧
      condition.attributePaths = left.attributePaths ++ fields
  notExpression : ∀ {s r condition}, parseNotExpression context fuel s = .ok (condition, r) →
    ReadsPaths context s condition.attributePaths r
  primary : ∀ {s r condition}, parsePrimary context fuel s = .ok (condition, r) →
    ReadsPaths context s condition.attributePaths r

/-- The induction is on the fuel; every call is made with less of it. -/
theorem readsWith (context : ExpressionContext) (fuel : ℕ) : ReadsWith context fuel := by
  induction fuel with
  | zero =>
    constructor
    all_goals intros; rename_i h; cases h
  | succ fuel ih =>
    constructor
    case orExpression =>
      intro s r condition
      rw [parseOrExpression]
      exact Reads.readsPaths ((Reads.of_readsPaths ih.andExpression).bind fun _ _ _ _ => ih.orLoop)
    case andExpression =>
      intro s r condition
      rw [parseAndExpression]
      exact Reads.readsPaths ((Reads.of_readsPaths ih.notExpression).bind fun _ _ _ _ => ih.andLoop)
    case orLoop =>
      intro left s r condition
      have hreads : Reads context s left.attributePaths attributePaths
          (orLoop context (fuel + 1) left s) := by
        rw [orLoop]
        split
        · rename_i hcurrent
          refine .advance (by rw [hcurrent]; rfl) fun t =>
            (Reads.of_readsPaths ih.andExpression).bind fun right u => ?_
          rw [← attributePaths_orElse]
          exact fun _ _ => ih.orLoop
        · exact .pure rfl
      exact hreads condition r
    case andLoop =>
      intro left s r condition
      have hreads : Reads context s left.attributePaths attributePaths
          (andLoop context (fuel + 1) left s) := by
        rw [andLoop]
        split
        · rename_i hcurrent
          refine .advance (by rw [hcurrent]; rfl) fun t =>
            (Reads.of_readsPaths ih.notExpression).bind fun right u => ?_
          rw [← attributePaths_andThen]
          exact fun _ _ => ih.andLoop
        · exact .pure rfl
      exact hreads condition r
    case notExpression =>
      intro s r condition
      rw [parseNotExpression]
      split
      · rename_i hcurrent
        refine Reads.readsPaths (.advance (by rw [hcurrent]; rfl) fun t =>
          (Reads.of_readsPaths ih.notExpression).bind fun inner u => ?_)
        exact .pure rfl
      · exact ih.primary
    case primary =>
      intro s r condition
      rw [parsePrimary]
      split
      · rename_i hcurrent
        split
        · rename_i result hresult
          intro h
          cases h
          exact (@traced_tryParseParenthesizedOperandComparison context s context.values).reads.readsPaths
            hresult
        · exact Reads.readsPaths (.advance (by rw [hcurrent]; rfl) fun _ =>
            (Reads.of_readsPaths ih.orExpression).bind fun _ _ => .expectToken rfl fun _ =>
              .pure rfl)
      · exact (@traced_parseOperand context s context.values).reads.readsPaths

/-- **The paths of a parsed condition are the paths of its expression**, in their order. -/
theorem reads_of_parse {stream : TokenStream} (h : parse context stream = .ok condition) :
    ∃ rest, ReadsPaths context stream condition.attributePaths rest ∧ rest.IsReady ∧
      rest.current = .eof := by
  simp only [parse, Except.bind_eq_ok] at h
  obtain ⟨_, hready, ⟨_, rest⟩, hcondition, h⟩ := h
  obtain ⟨rfl, hready⟩ := ready_eq_ok.mp hready
  split at h
  · rename_i hend
    cases h
    have hreads := (readsWith context _).orExpression hcondition
    obtain ⟨_, _, _, _, _, hrest⟩ := id hreads
    exact ⟨rest, hreads, hrest hready, hend⟩
  · cases h

/-- The fuel that every function of the Boolean structure needs: four nested calls for every
token, and the calls that are left of the four. -/
structure FueledWith (context : ExpressionContext) (fuel : ℕ) : Prop where
  orExpression : ∀ {s}, FueledStream s → 4 * s.length + 4 ≤ fuel →
    Fueled (parseOrExpression context fuel s)
  orLoop : ∀ left {s}, FueledStream s → 4 * s.length + 1 ≤ fuel →
    Fueled (orLoop context fuel left s)
  andExpression : ∀ {s}, FueledStream s → 4 * s.length + 3 ≤ fuel →
    Fueled (parseAndExpression context fuel s)
  andLoop : ∀ left {s}, FueledStream s → 4 * s.length + 1 ≤ fuel →
    Fueled (andLoop context fuel left s)
  notExpression : ∀ {s}, FueledStream s → 4 * s.length + 2 ≤ fuel →
    Fueled (parseNotExpression context fuel s)
  primary : ∀ {s}, FueledStream s → 4 * s.length + 1 ≤ fuel →
    Fueled (parsePrimary context fuel s)

/-- A step over a token leaves one token less. -/
theorem FueledStream.bind_advance {α : Type} {f : TokenStream → Except ParseError α}
    (hs : FueledStream s) (hcurrent : s.current = token) (hne : token ≠ .eof)
    (hf : ∀ t, FueledStream t → t.length + 1 = s.length → Fueled (f t)) :
    Fueled (s.advance >>= f) := by
  refine hs.advance.bind fun t ht => hf t (hs.of_advance ht) ?_
  obtain ⟨rfl, -⟩ := advance_eq_ok hcurrent hne ht
  rfl

theorem fueledWith (context : ExpressionContext) (fuel : ℕ) : FueledWith context fuel := by
  induction fuel with
  | zero =>
    constructor
    all_goals intros; omega
  | succ fuel ih =>
    constructor
    case orExpression =>
      intro s hs hfuel
      rw [parseOrExpression]
      refine .bind (ih.andExpression hs (by omega)) fun ⟨left, t⟩ hleft => ?_
      have hreads := (readsWith context fuel).andExpression hleft
      have hlength := hreads.length_le
      exact ih.orLoop left (hs.reads hreads) (by omega)
    case andExpression =>
      intro s hs hfuel
      rw [parseAndExpression]
      refine .bind (ih.notExpression hs (by omega)) fun ⟨left, t⟩ hleft => ?_
      have hreads := (readsWith context fuel).notExpression hleft
      have hlength := hreads.length_le
      exact ih.andLoop left (hs.reads hreads) (by omega)
    case orLoop =>
      intro left s hs hfuel
      rw [orLoop]
      split
      · rename_i hcurrent
        refine hs.bind_advance hcurrent (by simp) fun t ht htaken => ?_
        refine .bind (ih.andExpression ht (by omega)) fun ⟨right, u⟩ hright => ?_
        have hreads := (readsWith context fuel).andExpression hright
        have hlength := hreads.length_le
        exact ih.orLoop _ (ht.reads hreads) (by omega)
      · exact .ok _
    case andLoop =>
      intro left s hs hfuel
      rw [andLoop]
      split
      · rename_i hcurrent
        refine hs.bind_advance hcurrent (by simp) fun t ht htaken => ?_
        refine .bind (ih.notExpression ht (by omega)) fun ⟨right, u⟩ hright => ?_
        have hreads := (readsWith context fuel).notExpression hright
        have hlength := hreads.length_le
        exact ih.andLoop _ (ht.reads hreads) (by omega)
      · exact .ok _
    case notExpression =>
      intro s hs hfuel
      rw [parseNotExpression]
      split
      · rename_i hcurrent
        refine hs.bind_advance hcurrent (by simp) fun t ht htaken => ?_
        exact .bind (ih.notExpression ht (by omega)) fun _ _ => .ok _
      · exact ih.primary hs (by omega)
    case primary =>
      intro s hs hfuel
      rw [parsePrimary]
      split
      · rename_i hcurrent
        split
        · exact .ok _
        · refine hs.bind_advance hcurrent (by simp) fun t ht htaken => ?_
          refine .bind (ih.orExpression ht (by omega)) fun ⟨condition, u⟩ hcondition => ?_
          have hu := ht.reads ((readsWith context fuel).orExpression hcondition)
          exact .bind hu.expectToken fun _ _ => .ok _
      · exact (@runs_parseOperand context s context.values).fueled hs

/-- The same for the functions of the Boolean structure. -/
structure SuppliedWith (context : ExpressionContext) (fuel : ℕ) : Prop where
  orExpression : ∀ {s}, Supplied context s (parseOrExpression context fuel s)
  orLoop : ∀ left {s}, Supplied context s (orLoop context fuel left s)
  andExpression : ∀ {s}, Supplied context s (parseAndExpression context fuel s)
  andLoop : ∀ left {s}, Supplied context s (andLoop context fuel left s)
  notExpression : ∀ {s}, Supplied context s (parseNotExpression context fuel s)
  primary : ∀ {s}, Supplied context s (parsePrimary context fuel s)

/-- The functions of the Boolean structure follow their streams. -/
structure FollowsWith (context : ExpressionContext) (values : Text → Option AttributeValue)
    (fuel : ℕ) : Prop where
  orExpression : ∀ {s}, Follows context values s (parseOrExpression context fuel s)
    (parseOrExpression (withValues context values) fuel s)
  orLoop : ∀ left {s}, Follows context values s (orLoop context fuel left s)
    (orLoop (withValues context values) fuel left s)
  andExpression : ∀ {s}, Follows context values s (parseAndExpression context fuel s)
    (parseAndExpression (withValues context values) fuel s)
  andLoop : ∀ left {s}, Follows context values s (andLoop context fuel left s)
    (andLoop (withValues context values) fuel left s)
  notExpression : ∀ {s}, Follows context values s (parseNotExpression context fuel s)
    (parseNotExpression (withValues context values) fuel s)
  primary : ∀ {s}, Follows context values s (parsePrimary context fuel s)
    (parsePrimary (withValues context values) fuel s)

theorem followsWith (context : ExpressionContext) (values : Text → Option AttributeValue)
    (fuel : ℕ) : FollowsWith context values fuel := by
  induction fuel with
  | zero =>
    constructor
    all_goals intros; exact Follows.error _
  | succ fuel ih =>
    constructor
    case orExpression =>
      intro s
      rw [parseOrExpression, parseOrExpression]
      exact ih.andExpression.bind fun left _ => ih.orLoop left
    case andExpression =>
      intro s
      rw [parseAndExpression, parseAndExpression]
      exact ih.notExpression.bind fun left _ => ih.andLoop left
    case orLoop =>
      intro left s
      rw [orLoop, orLoop]
      split
      · rename_i hcurrent
        exact .advance (by rw [hcurrent]; rfl) fun _ => ih.andExpression.bind fun _ _ =>
          ih.orLoop _
      · exact .pure _
    case andLoop =>
      intro left s
      rw [andLoop, andLoop]
      split
      · rename_i hcurrent
        exact .advance (by rw [hcurrent]; rfl) fun _ => ih.notExpression.bind fun _ _ =>
          ih.andLoop _
      · exact .pure _
    case notExpression =>
      intro s
      rw [parseNotExpression, parseNotExpression]
      split
      · rename_i hcurrent
        exact .advance (by rw [hcurrent]; rfl) fun _ => ih.notExpression.bind fun _ _ => .pure _
      · exact ih.primary
    case primary =>
      intro s
      -- The trial of an operand has the same outcome in both contexts.
      have htry := @traced_tryParseParenthesizedOperandComparison context s values
      rw [parsePrimary, parsePrimary]
      split
      · rename_i hcurrent
        refine .of_alike (fun hs => by rw [htry.alike hs]) ?_
        split
        · rename_i result hresult
          refine ⟨fun a r h => ?_, fun _ => rfl⟩
          cases h
          exact htry.supplied a r hresult
        · exact .advance (by rw [hcurrent]; rfl) fun _ => ih.orExpression.bind fun _ _ =>
            .expectToken rfl fun _ => .pure _
      · exact runs_parseOperand.toFollows

theorem suppliedWith (context : ExpressionContext) (fuel : ℕ) : SuppliedWith context fuel := by
  have h := followsWith context context.values fuel
  exact ⟨h.orExpression.supplied, fun left => (h.orLoop left).supplied, h.andExpression.supplied,
    fun left => (h.andLoop left).supplied, h.notExpression.supplied, h.primary.supplied⟩

end ConditionParser

/-- **The fuel of the model is never used up**: an expression is parsed, or has one of the
errors of the program. -/
theorem parseConditionExpression_ne_outOfFuel (tables : CharTables) (context : ExpressionContext)
    (expression : Text) :
    parseConditionExpression tables context expression ≠ .error .outOfFuel := by
  have hstream : ConditionParser.FueledStream (Lexer.lex tables expression) := by
    intro tokens h
    have hlexed := (h ▸ Lexer.lex_lexed tables expression).of_append.2
    cases hlexed with
    | fault h => exact h rfl
  refine ConditionParser.Fueled.bind hstream.ready fun stream hready => ?_
  obtain ⟨rfl, -⟩ := ready_eq_ok.mp hready
  refine .bind ((ConditionParser.fueledWith context _).orExpression hstream le_rfl)
    fun ⟨condition, rest⟩ _ => ?_
  dsimp only
  split
  · exact .ok _
  · exact .error (by simp)

end AuxStorage
