import AuxStorage.UpdateScan

/-!
# The Parts of a Written Expression

The normal form of a written expression, and the parts it is cut into. A clause is *set
off* when white space stands on both sides of its keyword; the parser sees exactly these
keywords. Every other keyword runs into the part around it.
-/

namespace AuxStorage

open Str List

/-! ### Actions are solid -/

/-- A text that begins with no white space and ends with no white space or comma. -/
structure Firm (t : Text) : Prop extends Solid t where
  last_ne : t.getLast? ≠ some ','

/-- A text that ends with no white space or comma. -/
structure Ended (t : Text) : Prop where
  ne_nil : t ≠ []
  last : ∀ c ∈ t.getLast?, isWhitespace c = false
  last_ne : t.getLast? ≠ some ','

variable {t : Text}

theorem Firm.ended (h : Firm t) : Ended t :=
  ⟨h.ne_nil, h.last, h.last_ne⟩

theorem Ended.append (s : Text) (h : Ended t) : Ended (s ++ t) := by
  refine ⟨by simp [h.ne_nil], ?_, ?_⟩ <;> rw [getLast?_append_of_ne_nil _ h.ne_nil]
  · exact h.last
  · exact h.last_ne

theorem Firm.of_inert (hne : t ≠ []) (h : ∀ c ∈ t, isInert c = true) :
    Firm t where
  toSolid := Solid.of_forall hne fun c hc => isInert.not_whitespace (h c hc)
  last_ne hlast := by
    have hcomma := h ',' (mem_of_mem_getLast? hlast)
    exact absurd hcomma (by decide)

variable {s : Text}

theorem Firm.between (hs : Firm s) (m : Text) (ht : Firm t) :
    Firm (s ++ m ++ t) where
  toSolid := hs.toSolid.between m ht.toSolid
  last_ne := by
    rw [getLast?_append_of_ne_nil _ ht.ne_nil]
    exact ht.last_ne

theorem DocPath.firm (p : DocPath) : Firm p.text :=
  Firm.of_inert p.ne_nil fun c hc => isInert_of_isPathChar (p.pathChars c hc)

theorem Word.firm_placeholder (w : Word) : Firm (':' :: w.text) := by
  refine Firm.of_inert (by simp) ?_
  rintro c (_ | ⟨_, hc⟩)
  · decide
  · exact w.inert c hc

theorem LiteralSyntax.firm (l : LiteralSyntax) : Firm l.text := by
  cases l with
  | number digits => exact Firm.of_inert digits.ne_nil digits.inert
  | string word hchars =>
    refine Firm.of_inert (by simp [LiteralSyntax.text]) ?_
    intro c hc
    simp only [LiteralSyntax.text, cons_append, mem_cons, mem_append, not_mem_nil, or_false] at hc
    rcases hc with rfl | hc | rfl
    · decide
    · exact isInert_of_isPathChar (isPathChar_of_isWordChar (hchars c hc))
    · decide

theorem firm_callText {name : Text} (hname : Firm name) (l₁ : Layout) (first : Text)
    (l₂ l₃ : Layout) (second : Text) (l₄ : Layout) :
    Firm (callText name l₁ first l₂ l₃ second l₄) where
  toSolid := by
    refine hname.toSolid.between _ (Solid.of_forall (by simp) ?_)
    rintro c hc
    obtain rfl := mem_singleton.mp hc
    decide
  last_ne := by
    rw [callText, getLast?_append_of_ne_nil _ (by simp)]
    simp

theorem Operand.firm {top : Bool} (o : Operand top) : Firm o.text := by
  induction o with
  | placeholder word => exact word.firm_placeholder
  | path p => exact p.firm
  | literal value => exact value.firm
  | ifNotExists l₁ p l₂ l₃ operand l₄ ih =>
    exact firm_callText (Firm.of_inert (by decide)
      (all_eq_true.mp (by decide : ifNotExistsName.all isInert = true))) ..
  | listAppend l₁ operand1 l₂ l₃ operand2 l₄ ih1 ih2 =>
    exact firm_callText (Firm.of_inert (by decide)
      (all_eq_true.mp (by decide : listAppendName.all isInert = true))) ..
  | arithmetic lhs l₁ operator l₂ rhs ihl ihr =>
    have h := ihl.between (l₁.text ++ operator.symbol :: l₂.text) ihr
    simpa [Operand.text] using h

variable {kind : UpdateSection} (a : Action kind)

theorem Action.firm : Firm a.text := by
  cases a with
  | assign p l₁ l₂ value =>
    have h := p.firm.between (l₁.text ++ '=' :: l₂.text) value.firm
    simpa [Action.text, Action.path, Action.tail] using h
  | drop p =>
    have h := p.firm
    simpa [Action.text, Action.path, Action.tail] using h
  | addValue p gap value | deleteValue p gap value =>
    have h := p.firm.between gap.text value.firm_placeholder
    simpa [Action.text, Action.path, Action.tail] using h

/-! ### Expressions are ASCII texts -/

/-- A text of ASCII characters. -/
def Ascii (t : Text) : Prop :=
  ∀ c ∈ t, c.utf8Size = 1

theorem Ascii.append (hs : Ascii s) (ht : Ascii t) : Ascii (s ++ t) := by
  intro c hc
  rcases mem_append.mp hc with h | h
  · exact hs c h
  · exact ht c h

theorem Ascii.cons {c : Char} {t : Text} (hc : c.utf8Size = 1) (ht : Ascii t) : Ascii (c :: t) := by
  rintro d (_ | ⟨_, hd⟩)
  · exact hc
  · exact ht d hd

theorem utf8Size_of_isPathChar {c : Char} (h : isPathChar c = true) : c.utf8Size = 1 := by
  have hrange := isPathChar_range h
  rw [Char.utf8Size, if_pos]
  rw [UInt32.le_iff_toNat_le]
  change c.toNat ≤ 127
  omega

theorem DocPath.ascii (p : DocPath) : Ascii p.text := fun c hc =>
  utf8Size_of_isPathChar (p.pathChars c hc)

theorem Word.ascii (w : Word) : Ascii w.text := fun c hc =>
  utf8Size_of_isPathChar (isPathChar_of_isWordChar (w.word c hc))

theorem LiteralSyntax.ascii (l : LiteralSyntax) : Ascii l.text := by
  cases l with
  | number digits =>
    exact fun c hc => utf8Size_of_isPathChar
      (isPathChar_of_isWordChar (isWordChar_of_isDigit (digits.digit c hc)))
  | string word hchars =>
    refine Ascii.cons (by decide) (Ascii.append (fun c hc => ?_) (Ascii.cons (by decide) ?_))
    · exact utf8Size_of_isPathChar (isPathChar_of_isWordChar (hchars c hc))
    · simp [Ascii]

theorem ascii_callText {name : Text} (hname : Ascii name) {l₁ l₂ l₃ l₄ : Layout}
    {first second : Text} (hfirst : Ascii first) (hsecond : Ascii second) :
    Ascii (callText name l₁ first l₂ l₃ second l₄) := by
  have harguments : Ascii (l₁.text ++ first ++ l₂.text ++ ','
      :: (l₃.text ++ second ++ l₄.text)) :=
    Ascii.append (Ascii.append (Ascii.append l₁.ascii hfirst) l₂.ascii)
      (Ascii.cons (by decide) (Ascii.append (Ascii.append l₃.ascii hsecond) l₄.ascii))
  exact Ascii.append (Ascii.append hname (Ascii.cons (by decide) harguments))
    (Ascii.cons (by decide) (by simp [Ascii]))

theorem Operand.ascii {top : Bool} (o : Operand top) : Ascii o.text := by
  induction o with
  | placeholder word => exact Ascii.cons (by decide) word.ascii
  | path p => exact p.ascii
  | literal value => exact value.ascii
  | ifNotExists l₁ p l₂ l₃ operand l₄ ih =>
    have hname : Ascii ifNotExistsName := forall_iff_forall_mem.mp (by decide)
    exact ascii_callText hname p.ascii ih
  | listAppend l₁ operand1 l₂ l₃ operand2 l₄ ih1 ih2 =>
    have hname : Ascii listAppendName := forall_iff_forall_mem.mp (by decide)
    exact ascii_callText hname ih1 ih2
  | arithmetic lhs l₁ operator l₂ rhs ihl ihr =>
    refine Ascii.append ihl (Ascii.append l₁.ascii (Ascii.cons ?_ (Ascii.append l₂.ascii ihr)))
    cases operator <;> decide

theorem Action.ascii : Ascii a.text := by
  cases a with
  | assign p l₁ l₂ value =>
    exact Ascii.append p.ascii (Ascii.append l₁.ascii (Ascii.cons (by decide)
      (Ascii.append l₂.ascii value.ascii)))
  | drop p => exact Ascii.append p.ascii (by simp [Ascii, Action.tail])
  | addValue p gap value | deleteValue p gap value =>
    exact Ascii.append p.ascii (Ascii.append gap.ascii (Ascii.cons (by decide) value.ascii))

/-! ### Recognising a keyword -/

theorem UpdateSection.keyword_mem (kind : UpdateSection) : kind.keyword ∈ sectionKeywords := by
  cases kind <;> simp [UpdateSection.keyword, sectionKeywords]

theorem UpdateSection.keyword_inert (kind : UpdateSection) :
    ∀ d ∈ kind.keyword, isInert d = true := fun d hd =>
  isInert_of_isPathChar (isPathChar_of_isWordChar (isWordChar_of_isAlpha
    (isAlpha_of_spells kind.keyword_mem (by simp [eqIgnoreAsciiCase]) d hd)))

theorem splitAtBytes_take {n : ℕ} (hascii : Ascii (t.take n)) (hn : n ≤ t.length) :
    splitAtBytes n t = some (t.take n, t.drop n) := by
  have hcut := splitAtBytes_append hascii (t.drop n)
  rwa [length_take, Nat.min_eq_left hn, take_append_drop] at hcut

/-- On ASCII texts, the keyword search is a plain search. -/
theorem findSectionKeyword_eq {remaining : Text} {keywords : List Text}
    (hascii : Ascii (remaining.take 6)) (hlen : 6 ≤ remaining.length)
    (hkeywords : ∀ k ∈ keywords, k.length ≤ 6) :
    findSectionKeyword remaining keywords
      = (keywords.find? (keywordMatches remaining)).map fun k => (k, k.length) := by
  induction keywords with
  | nil => rfl
  | cons keyword keywords ih =>
    have hkeyword := hkeywords keyword (by simp)
    have hcut := splitAtBytes_take (n := keyword.length) (t := remaining)
      (fun c hc => hascii c (take_subset_take_left _ hkeyword hc)) (by omega)
    rw [findSectionKeyword, hcut]
    simp only
    by_cases hmatch : keywordMatches remaining keyword = true
    · rw [find?_cons_of_pos hmatch, if_pos (by
        rwa [keywordMatches, Bool.and_eq_true] at hmatch)]
      rfl
    · rw [find?_cons_of_neg hmatch, if_neg (by
        rwa [keywordMatches, Bool.and_eq_true] at hmatch)]
      exact ih fun k hk => hkeywords k (mem_cons_of_mem _ hk)

variable {keyword : Text}

/-- A spelled keyword in front of white space matches itself only. -/
theorem keywordMatches_iff {rest : Text} {w : Char}
    (hspelled : eqIgnoreAsciiCase keyword kind.keyword = true) (hw : isWhitespace w = true)
    {k : Text} (hk : k ∈ sectionKeywords) :
    keywordMatches (keyword ++ w :: rest) k = true ↔ k = kind.keyword := by
  have hmem := kind.keyword_mem
  have hletters := isAlpha_of_spells hmem hspelled
  have hlower := beq_iff_eq.mp hspelled
  have hlen := length_of_eqIgnoreAsciiCase hspelled
  constructor
  · intro hmatch
    have hle := length_le_of_keywordMatches (fun c hc => isInert.not_whitespace
      (isInert_of_isPathChar (isPathChar_of_isWordChar
        (isWordChar_of_isAlpha (hletters c hc))))) hmatch
    rw [keywordMatches, Bool.and_eq_true] at hmatch
    rcases hle.lt_or_eq with hlt | hsame
    · -- The white space would be a letter of the keyword.
      have hwmem : w ∈ (keyword ++ w :: rest).take k.length := mem_take_append_cons hlt _
      have hword := isWordChar_of_isAlpha (isAlpha_of_spells hk hmatch.1 w hwmem)
      rw [isWordChar_of_whitespace hw] at hword
      cases hword
    · rw [← hsame, take_left] at hmatch
      have hsame' := beq_iff_eq.mp hmatch.1
      rw [hlower] at hsame'
      have hinj : ∀ k ∈ sectionKeywords, ∀ k' ∈ sectionKeywords,
          k.map Char.toLower = k'.map Char.toLower → k = k' := by
        decide
      exact (hinj _ hmem _ hk hsame').symm
  · rintro rfl
    rw [keywordMatches, ← hlen, take_left, drop_left, hspelled]
    simp [hw]

/-- **A keyword set off by white space is recognised.** -/
theorem findSectionKeyword_spelled {rest : Text} {w : Char}
    (hspelled : eqIgnoreAsciiCase keyword kind.keyword = true) (hw : isWhitespace w = true)
    (hascii : Ascii ((keyword ++ w :: rest).take 6)) (hlen : 6 ≤ (keyword ++ w :: rest).length) :
    findSectionKeyword (keyword ++ w :: rest) sectionKeywords
      = some (kind.keyword, kind.keyword.length) := by
  rw [findSectionKeyword_eq hascii hlen (by decide)]
  have hmatch : ∀ {k}, k ∈ sectionKeywords →
      (keywordMatches (keyword ++ w :: rest) k = true ↔ k = kind.keyword) :=
    fun hk => keywordMatches_iff hspelled hw hk
  have hmem := kind.keyword_mem
  have hfind : (sectionKeywords.find? (keywordMatches (keyword ++ w :: rest)))
      = some kind.keyword := by
    cases hfound : sectionKeywords.find? (keywordMatches (keyword ++ w :: rest)) with
    | none =>
      have hnone := find?_eq_none.mp hfound kind.keyword hmem
      exact absurd ((hmatch hmem).mpr rfl) hnone
    | some k =>
      have hk := mem_of_find?_eq_some hfound
      rw [(hmatch hk).mp (find?_some hfound)]
  rw [hfind]
  rfl

/-! ### Normal forms -/

/-- The keyword of a clause stands between white space, as the parser needs it to. The
first clause needs none before it. -/
def Clause.setOff (isFirst : Bool) (c : Clause) : Bool :=
  !c.after.text.isEmpty && (isFirst || !c.before.text.isEmpty)

/-- The text that begins the part of a set-off clause. -/
def UpdateSection.partStart (kind : UpdateSection) : Text :=
  kind.keyword ++ [' ']

/-- What the normalisation makes of a keyword and the layout around it. -/
def Clause.normalStart (isFirst : Bool) (c : Clause) : Text :=
  if c.setOff isFirst then (if isFirst then [] else [' ']) ++ c.kind.partStart
  else c.before.text ++ c.keyword ++ c.after.text

/-- What the normalisation makes of a clause. -/
def Clause.normal (isFirst : Bool) (c : Clause) : Text :=
  c.normalStart isFirst ++ c.body

/-- The normal form of an expression. -/
def UpdateExpressionSyntax.normal (e : UpdateExpressionSyntax) : Text :=
  e.head.normal true ++ (e.tail.flatMap (Clause.normal false) ++ e.trailing.text)

open UpdateExpressionSyntax

theorem Action.firm_body (rest : List (NextAction kind)) :
    Firm (a.text ++ rest.flatMap NextAction.text) := by
  induction rest generalizing a with
  | nil => simpa using a.firm
  | cons next rest ih =>
    have h := a.firm.between (next.l₁.text ++ ',' :: next.l₂.text) (ih next.action)
    simpa [NextAction.text] using h

theorem Clause.firm_body (c : Clause) : Firm c.body :=
  c.first.firm_body c.rest

variable {l normalized follow : Text} {previous : Option Char}

/-- White space is copied by the normalisation. -/
theorem normalizeLoop_blank (hl : Blank l) {depth : ℕ} :
    normalizeLoop previous depth normalized (l ++ follow)
      = normalizeLoop (lastChar previous l) depth (normalized ++ l) follow :=
  (normalizeLoop_quiet (quietScan_blank hl)).1

theorem normalizeLoop_comma :
    normalizeLoop previous 0 normalized (',' :: t)
      = normalizeLoop (some ',') 0 (normalized ++ [',']) t := by
  have hnone : updateSectionKeywordAt previous (',' :: t) = none := by
    rw [updateSectionKeywordAt]
    split
    · rfl
    · by_contra hfound
      obtain ⟨found, hfound⟩ := Option.ne_none_iff_exists'.mp hfound
      have hstart := startsKeyword_of_findSectionKeyword (fun k hk => hk) hfound
      rw [startsKeyword_eq_false (by decide)] at hstart
      cases hstart
  rw [normalizeLoop, if_neg (by decide), if_neg (by decide), if_pos rfl, hnone]

theorem NextAction.boundary (next : NextAction kind) (t : Text) : Boundary (next.text ++ t) := by
  rw [NextAction.text, append_assoc, cons_append]
  exact Boundary.blank_append next.l₁.blank (Boundary.cons (by decide))

/-- The last character of a nonempty text is its own. -/
theorem lastChar_of_ne_nil (h : t ≠ []) (previous : Option Char) :
    lastChar previous t = t.getLast? := by
  rw [lastChar, Option.or_eq_left_of_isSome]
  rw [getLast?_isSome]
  exact h

/-- **Normalisation copies the actions of a clause.** -/
theorem normalizeLoop_actions (rest : List (NextAction kind))
    (hjoins : Joins (a.text ++ rest.flatMap NextAction.text) follow) :
    normalizeLoop previous 0 normalized (a.text ++ rest.flatMap NextAction.text ++ follow)
      = normalizeLoop (a.text ++ rest.flatMap NextAction.text).getLast? 0
          (normalized ++ (a.text ++ rest.flatMap NextAction.text)) follow := by
  induction rest generalizing a previous normalized with
  | nil =>
    simp only [flatMap_nil, append_nil] at hjoins ⊢
    rw [(normalizeLoop_quiet (a.quiet _ _ _ hjoins)).1, lastChar_of_ne_nil a.firm.ne_nil]
  | cons next rest ih =>
    have hrest := (next.action.firm_body rest).ne_nil
    have hbody : a.text ++ (next :: rest).flatMap NextAction.text
        = a.text ++ next.l₁.text ++ ',' :: next.l₂.text
          ++ (next.action.text ++ rest.flatMap NextAction.text) := by
      simp [NextAction.text]
    have hshape : a.text ++ (next :: rest).flatMap NextAction.text ++ follow
        = a.text ++ (next.text ++ (rest.flatMap NextAction.text ++ follow)) := by simp
    have hquiet := a.quiet (next.text ++ (rest.flatMap NextAction.text ++ follow))
      (breakBehind previous) 0 (Or.inl (next.boundary _))
    have hnext : next.text ++ (rest.flatMap NextAction.text ++ follow)
        = next.l₁.text ++ (',' :: (next.l₂.text
          ++ (next.action.text ++ rest.flatMap NextAction.text ++ follow))) := by
      simp [NextAction.text]
    rw [hbody] at hjoins
    rw [hshape, (normalizeLoop_quiet hquiet).1, hnext,
      normalizeLoop_blank next.l₁.blank, normalizeLoop_comma, normalizeLoop_blank next.l₂.blank,
      ih next.action (hjoins.of_append hrest), hbody, getLast?_append_of_ne_nil _ hrest]
    simp

/-! ### Normalising a keyword -/

theorem Clause.keyword_letters (c : Clause) : ∀ d ∈ c.keyword, d.isAlpha = true :=
  isAlpha_of_spells c.kind.keyword_mem c.spelled

theorem Clause.keyword_inert (c : Clause) : ∀ d ∈ c.keyword, isInert d = true := fun d hd =>
  isInert_of_isPathChar (isPathChar_of_isWordChar (isWordChar_of_isAlpha (c.keyword_letters d hd)))

theorem Clause.length_keyword (c : Clause) : c.keyword.length = c.kind.keyword.length :=
  length_of_eqIgnoreAsciiCase c.spelled

theorem UpdateSection.three_le_length (kind : UpdateSection) : 3 ≤ kind.keyword.length := by
  cases kind <;> decide

theorem Clause.keyword_ne_nil (c : Clause) : c.keyword ≠ [] := by
  have hlen := c.kind.three_le_length
  rw [← c.length_keyword] at hlen
  exact ne_nil_of_length_pos (by omega)

theorem Action.five_le : 5 ≤ kind.keyword.length + a.text.length := by
  have hpath := length_pos_of_ne_nil a.path.ne_nil
  rw [Action.text, length_append]
  cases a with
  | assign p l₁ l₂ value =>
    have hkeyword := UpdateSection.set.three_le_length
    simp only [Action.tail, length_append, length_cons]
    omega
  | drop p =>
    have hkeyword : UpdateSection.remove.keyword.length = 6 := rfl
    omega
  | addValue p gap value =>
    have hkeyword := UpdateSection.add.three_le_length
    simp only [Action.tail, length_append, length_cons]
    omega
  | deleteValue p gap value =>
    have hkeyword : UpdateSection.delete.keyword.length = 6 := rfl
    omega

variable {c : Clause}

/-- **The normalisation of a set-off keyword**: one space behind it, and one before it
unless it comes first. -/
theorem normalizeLoop_keyword (hafter : c.after.text ≠ [])
    (hbreak : breakBehind (lastChar previous c.before.text) = true) :
    normalizeLoop previous 0 normalized
        (c.before.text ++ (c.keyword ++ (c.after.text ++ (c.body ++ follow))))
      = normalizeLoop c.after.text.getLast? 0
          (pushKeyword (normalized ++ c.before.text) c.kind.keyword) (c.body ++ follow) := by
  rw [normalizeLoop_blank c.before.blank]
  obtain ⟨w, ws, hws⟩ := exists_cons_of_ne_nil hafter
  obtain ⟨k, ks, hks⟩ := exists_cons_of_ne_nil c.keyword_ne_nil
  have hk := c.keyword_inert k (by simp [hks])
  simp only [isInert, Bool.and_eq_true, bne_iff_ne, ne_eq, Bool.not_eq_true'] at hk
  obtain ⟨⟨⟨-, hl⟩, hr⟩, -⟩ := hk
  have hlen := c.length_keyword
  have hfound : updateSectionKeywordAt (lastChar previous c.before.text)
      (c.keyword ++ (c.after.text ++ (c.body ++ follow)))
      = some (c.kind.keyword, c.kind.keyword.length) := by
    rw [updateSectionKeywordAt, if_neg (by simpa [breakBehind] using hbreak), hws,
      cons_append]
    refine findSectionKeyword_spelled c.spelled (c.after.blank w (by simp [hws])) ?_ ?_
    · -- The first six characters are in the keyword, the layout and the first action.
      have hsix : 6 ≤ (c.keyword ++ (w :: ws ++ c.first.text)).length := by
        have hfive := c.first.five_le
        simp only [length_append, length_cons]
        omega
      have hascii : Ascii (c.keyword ++ (w :: ws ++ c.first.text)) := by
        refine Ascii.append (fun d hd => ?_) (Ascii.append (hws ▸ c.after.ascii) c.first.ascii)
        exact utf8Size_of_isPathChar
          (isPathChar_of_isWordChar (isWordChar_of_isAlpha (c.keyword_letters d hd)))
      have hshape : c.keyword ++ w :: (ws ++ (c.body ++ follow))
          = c.keyword ++ (w :: ws ++ c.first.text)
            ++ (c.rest.flatMap NextAction.text ++ follow) := by
        simp [Clause.body]
      rw [hshape, take_append_of_le_length hsix]
      exact fun d hd => hascii d (mem_of_mem_take hd)
    · have hfive := c.first.five_le
      simp only [length_append, length_cons, Clause.body]
      omega
  have hdrop : (ks ++ (c.after.text ++ (c.body ++ follow))).drop (c.kind.keyword.length - 1)
      = c.after.text ++ (c.body ++ follow) := by
    rw [← hlen, hks, length_cons, Nat.add_sub_cancel, drop_left]
  have hhead : ∀ d ∈ (c.body ++ follow).head?, isWhitespace d = false := by
    intro d hd
    rw [head?_append_of_ne_nil _ c.firm_body.ne_nil] at hd
    exact c.firm_body.head d hd
  have htake : (c.after.text ++ (c.body ++ follow)).takeWhile isWhitespace
      = c.after.text := by
    rw [takeWhile_append_of_pos c.after.blank]
    cases hbody : c.body ++ follow with
    | nil => simp
    | cons d t => simp [hhead d (by simp [hbody])]
  rw [hks, cons_append, normalizeLoop, if_neg hl, if_neg hr, if_pos rfl,
    ← cons_append, ← hks, hfound]
  simp only
  rw [hdrop, htake, dropWhile_blank c.after.blank, dropWhile_of_head hhead]

theorem Clause.startsKeyword_touching (c : Clause) (t : Text) :
    startsKeyword (c.keyword ++ '#' :: t) = false := by
  rw [← singleton_append, ← append_assoc]
  refine startsKeyword_of_not_alpha (c := '#') ?_ (by simp) (by decide)
  intro d hd
  rcases mem_append.mp hd with hd | hd
  · exact isInert.not_whitespace (c.keyword_inert d hd)
  · obtain rfl := mem_singleton.mp hd
    decide

/-- **A keyword that is not set off runs into the text around it.** -/
theorem Clause.quietScan_start (c : Clause) (follow : Text) {atBreak : Bool}
    (h : c.after.text = [] ∨ c.before.text = [] ∧ atBreak = false) :
    ∃ atBreak', quietScan (c.body ++ follow) (atBreak, 0)
      (c.before.text ++ c.keyword ++ c.after.text) = some (atBreak', 0) := by
  rcases h with hafter | ⟨hbefore, rfl⟩
  · -- The keyword touches an alias.
    obtain ⟨t, ht⟩ : ∃ t, c.body ++ follow = '#' :: t := by
      have hhash := c.separated.resolve_left (fun hne => hne hafter)
      obtain ⟨t, ht⟩ := head?_eq_some_iff.mp hhash
      exact ⟨t ++ c.rest.flatMap NextAction.text ++ follow, by simp [Clause.body, ht]⟩
    have hkey : startsKeyword (c.keyword ++ (c.body ++ follow)) = false := by
      rw [ht]
      exact c.startsKeyword_touching t
    rw [hafter, append_nil]
    exact ⟨false, quietScan_append_eq (quietScan_blank c.before.blank)
      (quietScan_token c.keyword_ne_nil c.keyword_inert hkey)⟩
  · rw [hbefore, nil_append]
    exact ⟨_, quietScan_append_eq (quietScan_inside c.keyword_inert)
      (quietScan_blank c.after.blank)⟩

/-! ### Normalising an expression -/

/-- A keyword may begin behind nonempty white space. -/
theorem breakBehind_blank (hl : Blank l) (h : l ≠ [] ∨ breakBehind previous = true) :
    breakBehind (lastChar previous l) = true := by
  by_cases hne : l = []
  · subst hne
    simpa [lastChar] using h
  · rw [lastChar_of_ne_nil hne]
    obtain ⟨c, hc⟩ := Option.isSome_iff_exists.mp (getLast?_isSome.mpr hne)
    have hblank := hl c (mem_of_mem_getLast? hc)
    simp [breakBehind, hc, hblank]

/-- No keyword can begin behind a text that ends so. -/
theorem Ended.breakBehind_eq_false (h : Ended t) : breakBehind t.getLast? = false := by
  obtain ⟨c, hc⟩ := Option.isSome_iff_exists.mp (getLast?_isSome.mpr h.ne_nil)
  have hblank := h.last c hc
  have hcomma : c ≠ ',' := fun heq => h.last_ne (heq ▸ hc)
  simp [breakBehind, hc, hblank, hcomma]

theorem pushKeyword_blank (hl : Blank l) : pushKeyword l keyword = keyword ++ [' '] := by
  have hdrop := rdropWhile_blank hl []
  rw [nil_append] at hdrop
  rw [pushKeyword, hdrop]
  simp

theorem pushKeyword_ended (ht : Ended t) (hl : Blank l) :
    pushKeyword (t ++ l) keyword = t ++ ([' '] ++ (keyword ++ [' '])) := by
  rw [pushKeyword, rdropWhile_blank hl, rdropWhile_of_last ht.last]
  simp [ht.ne_nil, ht.last_ne]

variable {cs : List Clause} (trailing : Layout)

section Joins

variable (hchain : (c :: cs).IsChain fun previous c => c.Follows previous)

include hchain

/-- What follows the actions of a clause joins them. -/
theorem Clause.joins {clauseText : Clause → Text}
    (htext : ∀ d ∈ cs, (∃ l t, clauseText d = l ++ t ∧ Blank l ∧
      l ≠ []) ∨ d.before.text = []) : Joins c.body (cs.flatMap clauseText ++ trailing.text) := by
  cases cs with
  | nil =>
    have h := Boundary.blank_append trailing.blank Boundary.nil
    rw [append_nil] at h
    exact Or.inl h
  | cons d cs =>
    rcases htext d (by simp) with ⟨l, t, hl, hblank, hne⟩ | hbefore
    · obtain ⟨w, l, rfl⟩ := exists_cons_of_ne_nil hne
      rw [flatMap_cons, hl]
      refine Or.inl (Boundary.cons ?_)
      by_contra hpath
      rw [Bool.not_eq_false] at hpath
      have hw := hblank w (by simp)
      rw [isInert.not_whitespace (isInert_of_isPathChar hpath)] at hw
      cases hw
    · have hfollows : d.Follows c := (isChain_cons_cons.mp hchain).1
      rcases hfollows with hne | hlast | hlast
      · exact absurd hbefore hne
      · rw [Clause.text, getLast?_append_of_ne_nil _ c.firm_body.ne_nil] at hlast
        exact Or.inr (Or.inl hlast)
      · rw [Clause.text, getLast?_append_of_ne_nil _ c.firm_body.ne_nil] at hlast
        exact Or.inr (Or.inr hlast)

/-- The written clauses join the actions before them. -/
theorem Clause.joins_text :
    Joins c.body (cs.flatMap Clause.text ++ trailing.text) := by
  refine Clause.joins trailing hchain fun d _ => ?_
  by_cases hbefore : d.before.text = []
  · exact Or.inr hbefore
  · exact Or.inl ⟨d.before.text, _, by rw [Clause.text, append_assoc, append_assoc],
      d.before.blank, hbefore⟩

theorem Clause.joins_normal :
    Joins c.body (cs.flatMap (Clause.normal false) ++ trailing.text) := by
  refine Clause.joins trailing hchain fun d _ => ?_
  rw [Clause.normal, Clause.normalStart]
  split
  · exact Or.inl ⟨[' '], d.kind.partStart ++ d.body, by simp, by simp [Blank]; decide,
      by simp⟩
  · by_cases hbefore : d.before.text = []
    · exact Or.inr hbefore
    · exact Or.inl ⟨d.before.text, _, by rw [append_assoc, append_assoc],
        d.before.blank, hbefore⟩

end Joins

/-- The normalisation of a clause, which comes first or behind a text that ends in an action. -/
theorem normalizeLoop_clause {isFirst : Bool} {rest : Text}
    (hstart : if isFirst then normalized = [] else Ended normalized) (hjoins : Joins c.body follow)
    (hrest : ∀ start, Ended start → normalizeLoop start.getLast? 0 start follow = start ++ rest) :
    normalizeLoop normalized.getLast? 0 normalized (c.text ++ follow)
      = normalized ++ (c.normal isFirst ++ rest) := by
  -- Behind the keyword the actions are copied, and what follows comes after them.
  have hbody : ∀ (previous : Option Char) (start : Text),
      normalizeLoop previous 0 start (c.body ++ follow) = start ++ (c.body ++ rest) := by
    intro previous start
    have hended := hrest _ (c.firm_body.ended.append start)
    rw [getLast?_append_of_ne_nil start c.firm_body.ne_nil, append_assoc] at hended
    rw [Clause.body, normalizeLoop_actions c.first c.rest hjoins, ← Clause.body, hended]
  have hshape : c.text ++ follow
      = c.before.text ++ (c.keyword ++ (c.after.text ++ (c.body ++ follow))) := by
    simp [Clause.text]
  rw [hshape, Clause.normal, Clause.normalStart, append_assoc]
  by_cases hset : c.setOff isFirst = true
  · have hset' := hset
    simp only [Clause.setOff, Bool.and_eq_true, Bool.or_eq_true, Bool.not_eq_true',
      isEmpty_eq_false_iff] at hset'
    have hbreak : c.before.text ≠ [] ∨ breakBehind normalized.getLast? = true :=
      hset'.2.symm.imp_right fun hfirst => by
        rw [if_pos hfirst] at hstart
        rw [hstart]
        rfl
    have hpush : pushKeyword (normalized ++ c.before.text) c.kind.keyword
        = normalized ++ ((if isFirst then [] else [' ']) ++ c.kind.partStart) := by
      cases isFirst with
      | true =>
        subst hstart
        exact pushKeyword_blank c.before.blank
      | false => exact pushKeyword_ended hstart c.before.blank
    rw [if_pos hset, normalizeLoop_keyword hset'.1 (breakBehind_blank c.before.blank hbreak), hpush,
      hbody, append_assoc]
  · have hunset := hset
    simp only [Clause.setOff, Bool.and_eq_true, Bool.or_eq_true, Bool.not_eq_true',
      isEmpty_eq_false_iff, not_and_or, not_or, not_not] at hunset
    have hquiet : c.after.text = [] ∨
        c.before.text = [] ∧ breakBehind normalized.getLast? = false :=
      hunset.imp_right fun h => ⟨h.2, by
        rw [if_neg h.1] at hstart
        exact hstart.breakBehind_eq_false⟩
    obtain ⟨atBreak', hscan⟩ := c.quietScan_start follow hquiet
    rw [if_neg hset, ← append_assoc c.keyword, ← append_assoc c.before.text,
      ← append_assoc c.before.text, (normalizeLoop_quiet hscan).1, hbody, append_assoc]

/-- The normalisation of further clauses. -/
theorem normalizeLoop_clauses {p : Clause}
    (hchain : (p :: cs).IsChain fun previous c => c.Follows previous) (hended : Ended normalized) :
    normalizeLoop normalized.getLast? 0 normalized
        (cs.flatMap Clause.text ++ trailing.text)
      = normalized ++ (cs.flatMap (Clause.normal false) ++ trailing.text) := by
  induction cs generalizing p normalized with
  | nil =>
    rw [flatMap_nil, flatMap_nil, nil_append]
    nth_rewrite 1 [← append_nil trailing.text]
    rw [normalizeLoop_blank trailing.blank, normalizeLoop]
  | cons c cs ih =>
    have hchain' := (isChain_cons_cons.mp hchain).2
    rw [flatMap_cons, flatMap_cons, append_assoc, append_assoc]
    exact normalizeLoop_clause hended (Clause.joins_text trailing hchain') fun _ => ih hchain'

/-- **The normal form of an expression** is what the normalisation computes. -/
theorem normalize_text (e : UpdateExpressionSyntax) :
    normalizeUpdateSectionKeywords e.text = e.normal := by
  obtain ⟨c, cs, trailing, -, hchain⟩ := e
  rw [normalizeUpdateSectionKeywords, UpdateExpressionSyntax.text, clauses, flatMap_cons,
    append_assoc]
  exact @normalizeLoop_clause _ _ _ true _ rfl (Clause.joins_text trailing hchain) fun _ =>
    normalizeLoop_clauses trailing hchain

/-! ### Parts -/

/-- The parts of the actions of a clause behind the collected text `start`; `next` gives
the parts from the last of them on. -/
def actionParts (start : Text) {kind : UpdateSection} (a : Action kind) :
    List (NextAction kind) → (Text → List Text) → List Text
  | [], next => next (start ++ a.text)
  | further :: rest, next => (start ++ a.text) :: actionParts [] further.action rest next

/-- The parts of further clauses behind the collected text `current`: a set-off keyword
begins a new part, and any other one goes on with the old one. -/
def clauseParts (current : Text) : List Clause → List Text
  | [] => [current]
  | c :: cs =>
    if c.setOff false then
      current :: actionParts c.kind.partStart c.first c.rest fun last => clauseParts last cs
    else actionParts (current ++ (c.before.text ++ c.keyword ++ c.after.text)) c.first c.rest
      fun last => clauseParts last cs

/-- The parts of an expression. -/
def UpdateExpressionSyntax.parts (e : UpdateExpressionSyntax) : List Text :=
  actionParts (if e.head.setOff true then e.head.kind.partStart else e.head.keyword)
    e.head.first e.head.rest fun last => clauseParts last e.tail

/-- A collected text without its leading white space. -/
def lead (t : Text) : Text :=
  t.dropWhile isWhitespace

/-- Leading white space is not part of a collected text. -/
theorem lead_blank (hl : Blank l) : lead l = [] := by
  have h := dropWhile_blank hl []
  rwa [append_nil] at h

/-- A collected text that goes on keeps its beginning. -/
theorem lead_append {raw : Text} (ht : Firm t) (m : Text) :
    lead (raw ++ t ++ m) = lead raw ++ t ++ m := by
  have hhead : (t ++ m).dropWhile isWhitespace = t ++ m := by
    refine dropWhile_of_head fun c hc => ?_
    rw [head?_append_of_ne_nil _ ht.ne_nil] at hc
    exact ht.head c hc
  rw [lead, append_assoc, dropWhile_append, hhead, lead]
  split
  · rename_i hempty
    rw [isEmpty_iff.mp hempty]
    rfl
  · rw [append_assoc]

theorem emitPart_firm {raw : Text} (ht : Firm t) (hl : Blank l) :
    emitPart (raw ++ t ++ l) = [lead raw ++ t] := by
  have htrim : trim (raw ++ t ++ l) = lead raw ++ t := by
    have hlast : ∀ c ∈ (lead raw ++ t).getLast?, isWhitespace c = false := by
      rw [getLast?_append_of_ne_nil _ ht.ne_nil]
      exact ht.last
    rw [trim, ← lead, lead_append ht, rdropWhile_blank hl, rdropWhile_of_last hlast]
  rw [emitPart, htrim, if_neg (by simp [ht.ne_nil])]

theorem startsKeyword_of_quietScan {state : Bool × ℕ} (hne : t ≠ [])
    (h : quietScan follow (true, 0) t = some state) : startsKeyword (t ++ follow) = false := by
  obtain ⟨c, t, rfl⟩ := exists_cons_of_ne_nil hne
  by_contra hstart
  rw [Bool.not_eq_false] at hstart
  have hword : isWordChar c = true := by
    by_contra hword
    rw [Bool.not_eq_true] at hword
    rw [cons_append, startsKeyword_eq_false hword] at hstart
    cases hstart
  have hl : c ≠ '(' := by
    rintro rfl
    exact absurd hword (by decide)
  have hr : c ≠ ')' := by
    rintro rfl
    exact absurd hword (by decide)
  rw [quietScan, if_neg hl, if_neg hr, if_pos ⟨rfl, Or.inr ⟨rfl, hstart⟩⟩] at h
  cases h

/-- White space in front of no keyword is collected. -/
theorem splitLoop_blank (hl : Blank l) {current : Text} (hfollow : startsKeyword follow = false) :
    splitLoop 0 current (l ++ follow) = splitLoop 0 (current ++ l) follow := by
  have hscan : quietScan follow (false, 0) l = some (if l = [] then false else true, 0) :=
    quietScan_blank hl
  exact splitLoop_quiet current hscan fun _ => hfollow

theorem splitLoop_comma {current : Text} :
    splitLoop 0 current (',' :: t) = emitPart current ++ splitLoop 0 [] t := by
  rw [splitLoop, if_neg (by decide), if_neg (by decide), if_pos rfl, if_pos rfl]

theorem Action.startsKeyword_eq_false {rest : List (NextAction kind)}
    (hjoins : Joins (a.text ++ rest.flatMap NextAction.text) follow) :
    startsKeyword (a.text ++ rest.flatMap NextAction.text ++ follow) = false := by
  rw [append_assoc]
  refine startsKeyword_of_quietScan a.firm.ne_nil (a.quiet _ true 0 ?_)
  cases rest with
  | nil => simpa using hjoins
  | cons further rest =>
    rw [flatMap_cons, append_assoc]
    exact Or.inl (further.boundary _)

variable {next : Text → List Text}

/-- **The actions of a clause are cut at their commas.** -/
theorem splitLoop_actions (rest : List (NextAction kind)) (raw : Text)
    (hnext : ∀ (raw t : Text), Firm t → splitLoop 0 (raw ++ t) follow = next (lead raw ++ t))
    (hjoins : Joins (a.text ++ rest.flatMap NextAction.text) follow) :
    splitLoop 0 raw (a.text ++ rest.flatMap NextAction.text ++ follow)
      = actionParts (lead raw) a rest next := by
  induction rest generalizing a raw with
  | nil =>
    simp only [flatMap_nil, append_nil] at hjoins ⊢
    have hcopy := splitLoop_quiet raw (a.quiet follow false 0 hjoins) (by simp)
    rw [actionParts, ← hnext raw a.text a.firm]
    exact hcopy
  | cons further rest ih =>
    have hrest := (further.action.firm_body rest).ne_nil
    have hbody : a.text ++ (further :: rest).flatMap NextAction.text
        = a.text ++ further.l₁.text ++ ',' :: further.l₂.text
          ++ (further.action.text ++ rest.flatMap NextAction.text) := by
      simp [NextAction.text]
    have hshape : a.text ++ (further :: rest).flatMap NextAction.text ++ follow
        = a.text ++ (further.text ++ (rest.flatMap NextAction.text ++ follow)) := by simp
    have hfurther : further.text ++ (rest.flatMap NextAction.text ++ follow)
        = further.l₁.text ++ (',' :: (further.l₂.text
          ++ (further.action.text ++ rest.flatMap NextAction.text ++ follow))) := by
      simp [NextAction.text]
    have hquiet := a.quiet (further.text ++ (rest.flatMap NextAction.text ++ follow))
      false 0 (Or.inl (further.boundary _))
    have hcopy := splitLoop_quiet raw hquiet (by simp)
    rw [hbody] at hjoins
    have hjoins' := hjoins.of_append hrest
    have hkey : startsKeyword
        (further.action.text ++ rest.flatMap NextAction.text ++ follow) = false :=
      further.action.startsKeyword_eq_false hjoins'
    rw [hshape]
    refine Eq.trans hcopy ?_
    simp only [Nat.cast_zero]
    rw [hfurther, splitLoop_blank further.l₁.blank (startsKeyword_eq_false (by decide)),
      splitLoop_comma, splitLoop_blank further.l₂.blank hkey, nil_append,
      emitPart_firm a.firm further.l₁.blank, ih further.action _ hjoins',
      lead_blank further.l₂.blank]
    rfl

/-- A set-off keyword ends a part and begins the next one. -/
theorem splitLoop_keyword (kind : UpdateSection) (current t : Text) :
    splitLoop 0 current (' ' :: (kind.partStart ++ t))
      = emitPart current ++ splitLoop 0 kind.partStart t := by
  have hfound : splitKeyword (' ' :: (kind.partStart ++ t))
      = some (kind.partStart, kind.partStart.length + 1) := by
    cases kind <;> rfl
  rw [splitLoop, if_neg (by decide), if_neg (by decide), if_neg (by decide),
    if_pos ⟨rfl, rfl⟩, hfound]
  simp only [Nat.add_sub_cancel, drop_left]

theorem lead_partStart (kind : UpdateSection) : lead kind.partStart = kind.partStart := by
  cases kind <;> rfl

/-- **Further clauses are cut at their set-off keywords.** -/
theorem splitLoop_clauses {p : Clause}
    (hchain : (p :: cs).IsChain fun previous c => c.Follows previous) (raw t : Text) (ht : Firm t) :
    splitLoop 0 (raw ++ t) (cs.flatMap (Clause.normal false) ++ trailing.text)
      = clauseParts (lead raw ++ t) cs := by
  induction cs generalizing p raw t with
  | nil =>
    have hblank : splitLoop 0 (raw ++ t) (trailing.text ++ [])
        = splitLoop 0 (raw ++ t ++ trailing.text) [] := splitLoop_blank trailing.blank rfl
    rw [append_nil] at hblank
    rw [flatMap_nil, nil_append, hblank, splitLoop, clauseParts, emitPart_firm ht trailing.blank]
  | cons c cs ih =>
    have hchain' := (isChain_cons_cons.mp hchain).2
    have hjoins := Clause.joins_normal trailing hchain'
    have hactions : ∀ raw, splitLoop 0 raw
        (c.body ++ (cs.flatMap (Clause.normal false) ++ trailing.text))
        = actionParts (lead raw) c.first c.rest fun last => clauseParts last cs :=
      fun raw => splitLoop_actions c.first c.rest raw (ih hchain') hjoins
    have hshape : (c :: cs).flatMap (Clause.normal false) ++ trailing.text
        = c.normalStart false
          ++ (c.body ++ (cs.flatMap (Clause.normal false) ++ trailing.text)) := by
      simp [Clause.normal]
    rw [hshape, clauseParts, Clause.normalStart]
    by_cases hset : c.setOff false = true
    · have hemit : emitPart (raw ++ t ++ []) = [lead raw ++ t] := emitPart_firm ht Blank.nil
      rw [append_nil] at hemit
      rw [if_pos hset, if_pos hset]
      simp only [Bool.false_eq_true, if_false, cons_append, nil_append]
      rw [splitLoop_keyword, hemit, hactions, lead_partStart]
      rfl
    · have hunset := hset
      simp only [Clause.setOff, Bool.false_or, Bool.and_eq_true, Bool.not_eq_true',
        isEmpty_eq_false_iff, not_and_or, not_not] at hunset
      have hstart : c.after.text = [] ∨ c.before.text = [] ∧ false = false :=
        hunset.imp_right fun hbefore => ⟨hbefore, rfl⟩
      obtain ⟨atBreak', hscan⟩ := c.quietScan_start
        (cs.flatMap (Clause.normal false) ++ trailing.text) hstart
      have hcopy := splitLoop_quiet (raw ++ t) hscan
        fun _ => c.first.startsKeyword_eq_false hjoins
      rw [if_neg hset, if_neg hset]
      refine Eq.trans hcopy ?_
      simp only [Nat.cast_zero]
      rw [hactions, lead_append ht]

/-- **The parts of an expression** are what cutting its normal form computes. -/
theorem parts_text (e : UpdateExpressionSyntax) :
    splitOperationPartsPreservingFunctions (normalizeUpdateSectionKeywords e.text) = e.parts := by
  rw [normalize_text]
  obtain ⟨c, cs, trailing, -, hchain⟩ := e
  have hjoins := Clause.joins_normal trailing hchain
  have hactions : ∀ raw, splitLoop 0 raw
      (c.body ++ (cs.flatMap (Clause.normal false) ++ trailing.text))
      = actionParts (lead raw) c.first c.rest fun last => clauseParts last cs :=
    fun raw => splitLoop_actions c.first c.rest raw (splitLoop_clauses trailing hchain) hjoins
  rw [splitOperationPartsPreservingFunctions, normal, Clause.normal,
    append_assoc, parts, Clause.normalStart]
  simp only
  by_cases hset : c.setOff true = true
  · have hkey := c.first.startsKeyword_eq_false hjoins
    have hcopy : splitLoop 0 [] (c.kind.partStart
        ++ (c.body ++ (cs.flatMap (Clause.normal false) ++ trailing.text)))
        = splitLoop 0 c.kind.partStart
          (c.body ++ (cs.flatMap (Clause.normal false) ++ trailing.text)) := by
      have hscan : quietScan (c.body ++ (cs.flatMap (Clause.normal false) ++ trailing.text))
          (false, 0) c.kind.partStart = some (true, 0) :=
        quietScan_append_eq (quietScan_inside c.kind.keyword_inert)
          (quietScan_blank (by simp [Blank]; decide))
      exact splitLoop_quiet [] hscan fun _ => hkey
    rw [if_pos hset, if_pos hset, if_true, nil_append, hcopy, hactions, lead_partStart]
  · have hunset := hset
    simp only [Clause.setOff, Bool.true_or, Bool.and_true, Bool.not_eq_true',
      isEmpty_eq_false_iff, not_not] at hunset
    have hstart : c.after.text = [] ∨ c.before.text = [] ∧ false = false := Or.inl hunset
    obtain ⟨atBreak', hscan⟩ := c.quietScan_start
      (cs.flatMap (Clause.normal false) ++ trailing.text) hstart
    have hcopy := splitLoop_quiet [] hscan fun _ => c.first.startsKeyword_eq_false hjoins
    rw [if_neg hset, if_neg hset]
    refine Eq.trans hcopy ?_
    simp only [Nat.cast_zero]
    have hlead : lead (c.before.text ++ c.keyword) = c.keyword := by
      rw [lead, dropWhile_blank c.before.blank]
      refine dropWhile_of_head fun d hd => ?_
      exact isInert.not_whitespace (c.keyword_inert d (mem_of_mem_head? hd))
    rw [hactions, nil_append, hunset, append_nil, hlead]

/-! ### One part for each action -/

/-- The parts of a set-off clause: the keyword stands before the first action only. -/
def Clause.parts (c : Clause) : List Text :=
  (c.kind.partStart ++ c.first.text) :: c.rest.map fun next => next.action.text

theorem actionParts_cons (start : Text) (a : Action kind) (rest : List (NextAction kind))
    (tail : List Text) :
    actionParts start a rest (fun last => last :: tail)
      = ((start ++ a.text) :: rest.map fun next => next.action.text) ++ tail := by
  induction rest generalizing start a with
  | nil => rfl
  | cons further rest ih =>
    rw [actionParts, ih]
    rfl

theorem clauseParts_of_setOff (h : ∀ c ∈ cs, c.setOff false = true) :
    (fun current => clauseParts current cs) = fun current => current :: cs.flatMap Clause.parts := by
  induction cs with
  | nil => rfl
  | cons c cs ih =>
    funext current
    rw [clauseParts, if_pos (h c (by simp)), ih fun c hc => h c (mem_cons_of_mem _ hc),
      actionParts_cons, flatMap_cons]
    rfl

variable {e : UpdateExpressionSyntax}

/-- **When all clauses are set off, there is one part for each action.** -/
theorem parts_of_setOff (hhead : e.head.setOff true = true)
    (htail : ∀ c ∈ e.tail, c.setOff false = true) : e.parts = e.clauses.flatMap Clause.parts := by
  rw [parts, if_pos hhead, clauseParts_of_setOff htail, actionParts_cons]
  rfl

theorem length_actionParts (rest : List (NextAction kind)) (start : Text) {n : ℕ}
    (hnext : ∀ last, (next last).length = n) :
    (actionParts start a rest next).length = rest.length + n := by
  induction rest generalizing start a with
  | nil => simpa [actionParts] using hnext _
  | cons further rest ih =>
    rw [actionParts, length_cons, ih, length_cons]
    omega

theorem length_clauseParts (cs : List Clause) (current : Text) :
    (clauseParts current cs).length + cs.countP (fun c => !c.setOff false)
      = (cs.map fun c => c.rest.length + 1).sum + 1 := by
  induction cs generalizing current with
  | nil => rfl
  | cons c cs ih =>
    have hnext : ∀ last, (clauseParts last cs).length
        = (cs.map fun c => c.rest.length + 1).sum + 1
          - cs.countP (fun c => !c.setOff false) := by
      intro last
      have := ih last
      omega
    have hcount := ih current
    rw [clauseParts, countP_cons, map_cons, sum_cons]
    split
    · rename_i hset
      rw [length_cons, length_actionParts _ _ _ hnext]
      simp only [hset, Bool.not_true, Bool.false_eq_true, if_false]
      omega
    · rename_i hset
      rw [length_actionParts _ _ _ hnext]
      simp only [hset, Bool.not_false, if_true]
      omega

theorem UpdateExpressionSyntax.length_sections (e : UpdateExpressionSyntax) :
    e.sections.length = (e.clauses.map fun c => c.rest.length + 1).sum := by
  rw [sections, length_flatMap]
  simp [Clause.actions]

/-- **With as many parts as actions, every further clause is set off.** -/
theorem setOff_of_length_parts (h : e.parts.length = e.sections.length) :
    ∀ c ∈ e.tail, c.setOff false = true := by
  have hnext : ∀ last, (clauseParts last e.tail).length
      = (e.tail.map fun c => c.rest.length + 1).sum + 1
        - e.tail.countP (fun c => !c.setOff false) := by
    intro last
    have := length_clauseParts e.tail last
    omega
  rw [length_sections, parts, length_actionParts _ _ _ hnext, clauses, map_cons, sum_cons] at h
  have hzero : e.tail.countP (fun c => !c.setOff false) = 0 := by
    omega
  intro c hc
  simpa using countP_eq_zero.mp hzero c hc

end AuxStorage
