import AuxStorage.UpdateGrammar

/-!
# Scanning Update Expressions

What the two text loops of the parser, keyword normalisation and cutting into parts, do to
a written expression. Both copy every text that holds no top-level comma and no top-level
keyword. `quietScan` recognises such texts; it composes along concatenation, so that a tree
is scanned token by token, and each loop is shown once to copy a quiet text.
-/

namespace AuxStorage

open Str List
open Bool (and_eq_true not_eq_false or_eq_true)

/-! ### Characters -/

variable {c : Char}

/-- The code points of the characters of names. -/
theorem isWordChar_range (h : isWordChar c = true) :
    48 ≤ c.toNat ∧ c.toNat ≤ 57 ∨ 65 ≤ c.toNat ∧ c.toNat ≤ 90 ∨ c.toNat = 95 ∨
      97 ≤ c.toNat ∧ c.toNat ≤ 122 := by
  simp only [isWordChar, Char.isAlphanum, Char.isAlpha, Char.isUpper, Char.isLower,
    Char.isDigit, or_eq_true, and_eq_true, decide_eq_true_eq,
    UInt32.le_iff_toNat_le, ge_iff_le, beq_iff_eq] at h
  change ((65 ≤ c.toNat ∧ c.toNat ≤ 90 ∨ 97 ≤ c.toNat ∧ c.toNat ≤ 122) ∨
    48 ≤ c.toNat ∧ c.toNat ≤ 57) ∨ c = '_' at h
  rcases h with ((h | h) | h) | rfl
  · omega
  · omega
  · omega
  · decide

/-- The code points of the characters of document paths. -/
theorem isPathChar_range (h : isPathChar c = true) :
    48 ≤ c.toNat ∧ c.toNat ≤ 57 ∨ 65 ≤ c.toNat ∧ c.toNat ≤ 90 ∨ c.toNat = 95 ∨
      97 ≤ c.toNat ∧ c.toNat ≤ 122 ∨ c.toNat = 35 ∨ c.toNat = 46 ∨ c.toNat = 91 ∨
      c.toNat = 93 := by
  simp only [isPathChar, or_eq_true, beq_iff_eq] at h
  rcases h with (((h | rfl) | rfl) | rfl) | rfl
  · have := isWordChar_range h
    omega
  all_goals decide

/-- White space has no code point of a printable ASCII character. -/
theorem isWhitespace_eq_false (h : 33 ≤ c.toNat) (h' : c.toNat ≤ 126) : isWhitespace c = false := by
  have hval : c.toNat = c.val.toNat := rfl
  rw [hval] at h h'
  simp only [isWhitespace, Bool.or_eq_false_iff, Bool.and_eq_false_iff, decide_eq_false_iff_not,
    beq_eq_false_iff_ne, ne_eq]
  omega

/-- A character that both loops copy wherever it stands. -/
def isInert (c : Char) : Bool :=
  !isWhitespace c && c != '(' && c != ')' && c != ','

/-- A printable ASCII character other than parentheses and comma is inert. -/
theorem isInert_of_range (h : 33 ≤ c.toNat) (h' : c.toNat ≤ 126) (h₁ : c.toNat ≠ 40)
    (h₂ : c.toNat ≠ 41) (h₃ : c.toNat ≠ 44) : isInert c = true := by
  have hw := isWhitespace_eq_false h h'
  simp only [isInert, hw, Bool.not_false, Bool.true_and, and_eq_true, bne_iff_ne, ne_eq]
  refine ⟨⟨?_, ?_⟩, ?_⟩
  · rintro rfl
    exact h₁ rfl
  · rintro rfl
    exact h₂ rfl
  · rintro rfl
    exact h₃ rfl

theorem isInert_of_isPathChar (h : isPathChar c = true) : isInert c = true := by
  have := isPathChar_range h
  exact isInert_of_range (by omega) (by omega) (by omega) (by omega) (by omega)

theorem isPathChar_of_isWordChar (h : isWordChar c = true) : isPathChar c = true := by
  simp [isPathChar, h]

theorem isWordChar_of_isDigit (h : c.isDigit = true) : isWordChar c = true := by
  simp [isWordChar, Char.isAlphanum, h]

/-- An inert character is no white space. -/
theorem isInert.not_whitespace (h : isInert c = true) : isWhitespace c = false := by
  simp only [isInert, and_eq_true, Bool.not_eq_true'] at h
  exact h.1.1.1

/-! ### Keywords -/

/-- The text begins with this keyword, in any case, and white space behind it. -/
def keywordMatches (t keyword : Text) : Bool :=
  eqIgnoreAsciiCase (t.take keyword.length) keyword
    && (t.drop keyword.length).head?.any isWhitespace

/-- The text begins with a keyword. -/
def startsKeyword (t : Text) : Bool :=
  sectionKeywords.any (keywordMatches t)

variable {s t : Text}

theorem length_of_eqIgnoreAsciiCase (h : eqIgnoreAsciiCase s t = true) : s.length = t.length := by
  have := congrArg List.length (beq_iff_eq.mp h)
  simpa using this

/-- A keyword found by the normalisation begins the text. -/
theorem startsKeyword_of_findSectionKeyword {remaining : Text} {keywords : List Text}
    (hsub : ∀ k ∈ keywords, k ∈ sectionKeywords) {found : Text × ℕ}
    (h : findSectionKeyword remaining keywords = some found) : startsKeyword remaining = true := by
  induction keywords with
  | nil => cases h
  | cons keyword keywords ih =>
    rw [findSectionKeyword] at h
    cases hcut : splitAtBytes keyword.length remaining with
    | none => simp [hcut] at h
    | some parts =>
      obtain ⟨candidate, after⟩ := parts
      simp only [hcut] at h
      split at h
      · rename_i hmatch
        obtain rfl := splitAtBytes_eq_append hcut
        have hlen := length_of_eqIgnoreAsciiCase hmatch.1
        refine any_eq_true.mpr ⟨keyword, hsub keyword (by simp), ?_⟩
        rw [keywordMatches, ← hlen, take_left, drop_left, hmatch.1, hmatch.2]
        rfl
      · exact ih (fun k hk => hsub k (mem_cons_of_mem _ hk)) h

theorem startsKeyword_of_splitKeyword {found : Text × ℕ} (h : splitKeyword (' ' :: t) = some found) :
    startsKeyword t = true := by
  obtain ⟨entry, hentry, -⟩ := Option.map_eq_some_iff.mp h
  have hmem := mem_of_find?_eq_some hentry
  have hpre : entry.1.isPrefixOf (' ' :: t) = true := by
    simpa using find?_some hentry
  obtain ⟨rest, hrest⟩ := isPrefixOf_iff_prefix.mp hpre
  simp only [updateSectionPatterns, mem_cons, not_mem_nil, or_false] at hmem
  rcases hmem with rfl | rfl | rfl | rfl <;>
    (obtain rfl := (List.cons.inj hrest).2
     rfl)

theorem isAlpha_of_spells {keyword : Text} (hkeyword : keyword ∈ sectionKeywords)
    (h : eqIgnoreAsciiCase s keyword = true) : ∀ c ∈ s, c.isAlpha = true := by
  intro c hc
  have hletters : ∀ k ∈ sectionKeywords, ∀ d ∈ k.map Char.toLower, d.isAlpha = true := by
    simp [sectionKeywords, text]
  have hmem : c.toLower ∈ keyword.map Char.toLower := by
    rw [← beq_iff_eq.mp h]
    exact mem_map_of_mem hc
  have hlower := hletters keyword hkeyword _ hmem
  by_cases hup : c.isUpper = true
  · simp [Char.isAlpha, hup]
  · rwa [Char.toLower_eq_of_not_isUpper hup] at hlower

theorem isWordChar_of_isAlpha (h : c.isAlpha = true) : isWordChar c = true := by
  simp [isWordChar, Char.isAlphanum, h]

/-- A character of no name begins no keyword. -/
theorem startsKeyword_eq_false (h : isWordChar c = false) : startsKeyword (c :: t) = false := by
  rw [startsKeyword, any_eq_false]
  intro keyword hkeyword hmatch
  rw [keywordMatches, and_eq_true] at hmatch
  have hpos : ∀ k ∈ sectionKeywords, 0 < k.length := by decide
  have hmem : c ∈ (c :: t).take keyword.length := by
    obtain ⟨n, hn⟩ := Nat.exists_eq_succ_of_ne_zero (hpos keyword hkeyword).ne'
    rw [hn, take_succ_cons]
    exact mem_cons_self
  rw [isWordChar_of_isAlpha (isAlpha_of_spells hkeyword hmatch.1 c hmem)] at h
  cases h

/-- White space is in no name. -/
theorem isWordChar_of_whitespace (h : isWhitespace c = true) : isWordChar c = false := by
  by_contra hword
  rw [not_eq_false] at hword
  have hrange := isWordChar_range hword
  rw [isWhitespace_eq_false (by omega) (by omega)] at h
  cases h

/-- A text that no character of a document path begins. -/
def Boundary (t : Text) : Prop :=
  ∀ c ∈ t.head?, isPathChar c = false

variable {token follow : Text}

/-- The characters of a text in front of white space end at it: a keyword that matches in
front of a text without white space is at least as long. -/
theorem length_le_of_keywordMatches {keyword : Text} (hchars : ∀ c ∈ token, isWhitespace c = false)
    (h : keywordMatches (token ++ follow) keyword = true) : token.length ≤ keyword.length := by
  rw [keywordMatches, and_eq_true] at h
  by_contra hgt
  rw [not_le] at hgt
  obtain ⟨-, hnext⟩ := h
  rw [drop_append_of_le_length hgt.le] at hnext
  cases hrest : token.drop keyword.length with
  | nil =>
    rw [drop_eq_nil_iff] at hrest
    omega
  | cons c rest =>
    have hc : c ∈ token := mem_of_mem_drop (hrest ▸ mem_cons_self)
    simp [hrest, hchars c hc] at hnext

theorem startsKeyword_of_not_alpha (hchars : ∀ c ∈ token, isWhitespace c = false) (hc : c ∈ token)
    (hletter : c.isAlpha = false) : startsKeyword (token ++ follow) = false := by
  rw [startsKeyword, any_eq_false]
  intro keyword hkeyword hmatch
  have hle := length_le_of_keywordMatches hchars hmatch
  rw [keywordMatches, and_eq_true] at hmatch
  have hmem : c ∈ (token ++ follow).take keyword.length := by
    rw [take_append]
    exact mem_append_left _ (by rwa [take_of_length_le hle])
  rw [isAlpha_of_spells hkeyword hmatch.1 c hmem] at hletter
  cases hletter

theorem mem_take_append_cons {α : Type} {l : List α} {n : ℕ} (hlt : l.length < n) {a : α}
    (r : List α) : a ∈ (l ++ a :: r).take n := by
  obtain ⟨m, rfl⟩ := Nat.exists_eq_add_of_lt hlt
  rw [take_append, Nat.add_assoc, Nat.add_sub_cancel_left, take_succ_cons]
  exact mem_append_right _ mem_cons_self

/-- **A path is no keyword**: path characters up to a boundary that spell no keyword. -/
theorem startsKeyword_path (hchars : ∀ c ∈ token, isPathChar c = true)
    (hspell : ∀ keyword ∈ sectionKeywords, eqIgnoreAsciiCase token keyword = false)
    (hfollow : Boundary follow) : startsKeyword (token ++ follow) = false := by
  rw [startsKeyword, any_eq_false]
  intro keyword hkeyword hmatch
  have hle := length_le_of_keywordMatches
    (fun c hc => isInert.not_whitespace (isInert_of_isPathChar (hchars c hc))) hmatch
  rw [keywordMatches, and_eq_true] at hmatch
  obtain ⟨heq, -⟩ := hmatch
  rcases hle.lt_or_eq with hlt | hsame
  · -- The keyword reaches into what follows, which is no letter.
    have hlen := length_of_eqIgnoreAsciiCase heq
    rw [length_take, length_append] at hlen
    cases follow with
    | nil =>
      simp only [length_nil] at hlen
      omega
    | cons c follow =>
      have hmem : c ∈ (token ++ c :: follow).take keyword.length := mem_take_append_cons hlt _
      have hword := isWordChar_of_isAlpha (isAlpha_of_spells hkeyword heq c hmem)
      have hpath := hfollow c rfl
      rw [isPathChar_of_isWordChar hword] at hpath
      cases hpath
  · rw [← hsame, take_left] at heq
    rw [hspell keyword hkeyword] at heq
    cases heq

/-! ### Quiet texts -/

/-- Scans a text in front of `follow` for top-level commas and keywords. The state says
whether a keyword could begin here, and how many parentheses are open; the scan fails at a
top-level comma, keyword or closing parenthesis. -/
def quietScan (follow : Text) : Bool × ℕ → Text → Option (Bool × ℕ)
  | state, [] => some state
  | (atBreak, depth), c :: t =>
    if c = '(' then quietScan follow (false, depth + 1) t
    else if c = ')' then
      if depth = 0 then none else quietScan follow (false, depth - 1) t
    else if depth = 0 ∧ (c = ',' ∨ atBreak = true ∧ startsKeyword (c :: t ++ follow)) then
      none
    else quietScan follow (isWhitespace c || c == ',', depth) t

/-- Scans compose along concatenation. -/
theorem quietScan_append (follow : Text) (state : Bool × ℕ) (s t : Text) :
    quietScan follow state (s ++ t)
      = (quietScan (t ++ follow) state s).bind fun state' => quietScan follow state' t := by
  induction s generalizing state with
  | nil => rfl
  | cons c s ih =>
    obtain ⟨atBreak, depth⟩ := state
    simp only [cons_append, quietScan, ih, append_assoc]
    split
    · rfl
    · split
      · split <;> rfl
      · split <;> rfl

variable {state : Bool × ℕ}

theorem quietScan_append_eq {state' state'' : Bool × ℕ}
    (hs : quietScan (t ++ follow) state s = some state')
    (ht : quietScan follow state' t = some state'') :
    quietScan follow state (s ++ t) = some state'' := by
  rw [quietScan_append, hs]
  exact ht

variable {atBreak : Bool} {depth : ℕ}

theorem quietScan_inert (hc : isInert c = true)
    (hkey : atBreak = true → startsKeyword (c :: t ++ follow) = false) :
    quietScan follow (atBreak, depth) (c :: t) = quietScan follow (false, depth) t := by
  simp only [isInert, and_eq_true, bne_iff_ne, ne_eq, Bool.not_eq_true'] at hc
  obtain ⟨⟨⟨hw, hl⟩, hr⟩, hcomma⟩ := hc
  have hstop : ¬(depth = 0 ∧
      (c = ',' ∨ atBreak = true ∧ startsKeyword (c :: t ++ follow) = true)) := by
    rintro ⟨-, hc | ⟨hbreak, hstart⟩⟩
    · exact hcomma hc
    · rw [hkey hbreak] at hstart
      cases hstart
  rw [quietScan, if_neg hl, if_neg hr, if_neg hstop, hw, beq_false_of_ne hcomma]
  rfl

theorem quietScan_inside (hinert : ∀ c ∈ token, isInert c = true) :
    quietScan follow (false, depth) token = some (false, depth) := by
  induction token with
  | nil => rfl
  | cons c token ih =>
    rw [quietScan_inert (hinert c (by simp)) (by simp)]
    exact ih fun x hx => hinert x (mem_cons_of_mem _ hx)

theorem quietScan_token (hne : token ≠ []) (hinert : ∀ c ∈ token, isInert c = true)
    (hkey : startsKeyword (token ++ follow) = false) :
    quietScan follow (atBreak, depth) token = some (false, depth) := by
  cases token with
  | nil => exact absurd rfl hne
  | cons c token =>
    rw [quietScan_inert (hinert c (by simp)) (fun _ => hkey)]
    exact quietScan_inside fun x hx => hinert x (mem_cons_of_mem _ hx)

/-- White space is quiet, and a keyword can begin behind it. -/
theorem quietScan_blank (ht : Blank t) :
    quietScan follow (atBreak, depth) t = some (if t = [] then atBreak else true, depth) := by
  induction t generalizing atBreak with
  | nil => rfl
  | cons c t ih =>
    have hc := ht c (by simp)
    have hne : c ≠ '(' ∧ c ≠ ')' ∧ c ≠ ',' := by
      refine ⟨?_, ?_, ?_⟩ <;>
        (rintro rfl
         exact absurd hc (by decide))
    have hkey := startsKeyword_eq_false (t := t ++ follow) (isWordChar_of_whitespace hc)
    rw [quietScan, if_neg hne.1, if_neg hne.2.1, if_neg (by
      rintro ⟨-, hcomma | ⟨-, hstart⟩⟩
      · exact hne.2.2 hcomma
      · rw [cons_append, hkey] at hstart
        cases hstart), hc, Bool.true_or, ih fun x hx => ht x (mem_cons_of_mem _ hx)]
    simp

theorem quietScan_comma :
    quietScan follow (atBreak, depth + 1) (',' :: t) = quietScan follow (true, depth + 1) t := by
  simp [quietScan]

/-! ### The loops copy quiet texts -/

/-- A keyword may begin behind this character. -/
def breakBehind (previous : Option Char) : Bool :=
  !previous.any fun c => !isWhitespace c && c != ','

/-- The last character of a text, or the one before it. -/
def lastChar (previous : Option Char) (t : Text) : Option Char :=
  t.getLast?.or previous

theorem lastChar_cons (previous : Option Char) (c : Char) (t : Text) :
    lastChar previous (c :: t) = lastChar (some c) t := by
  rw [lastChar, lastChar, getLast?_cons]
  cases t.getLast? <;> rfl

/-- **Normalisation copies a quiet text.** -/
theorem normalizeLoop_quiet {normalized : Text} {previous : Option Char}
    (h : quietScan follow (breakBehind previous, depth) t = some state) :
    normalizeLoop previous depth normalized (t ++ follow)
        = normalizeLoop (lastChar previous t) state.2 (normalized ++ t) follow ∧
      state.1 = breakBehind (lastChar previous t) := by
  induction t generalizing previous depth normalized with
  | nil =>
    cases h
    simp [lastChar]
  | cons c t ih =>
    rw [quietScan] at h
    rw [lastChar_cons, cons_append, normalizeLoop]
    have happend : normalized ++ c :: t = normalized ++ [c] ++ t := by simp
    rw [happend]
    by_cases hl : c = '('
    · rw [if_pos hl] at h ⊢
      subst hl
      exact ih h
    rw [if_neg hl] at h ⊢
    by_cases hr : c = ')'
    · rw [if_pos hr] at h ⊢
      subst hr
      split at h
      · cases h
      · exact ih h
    rw [if_neg hr] at h ⊢
    split at h
    · cases h
    rename_i hstop
    have hnext : breakBehind (some c) = (isWhitespace c || c == ',') := by
      simp [breakBehind, bne]
    rw [← hnext] at h
    by_cases hdepth : depth = 0
    · rw [if_pos hdepth]
      have hnone : updateSectionKeywordAt previous (c :: (t ++ follow)) = none := by
        rw [updateSectionKeywordAt]
        split
        · rfl
        · rename_i hprev
          by_contra hfound
          obtain ⟨found, hfound⟩ := Option.ne_none_iff_exists'.mp hfound
          refine hstop ⟨hdepth, Or.inr ⟨?_, ?_⟩⟩
          · simpa [breakBehind] using hprev
          · exact startsKeyword_of_findSectionKeyword (fun k hk => hk) hfound
      rw [hnone]
      exact ih h
    · rw [if_neg hdepth]
      exact ih h

/-- **Cutting copies a quiet text**, if no keyword follows its trailing white space. -/
theorem splitLoop_quiet (current : Text) (h : quietScan follow (atBreak, depth) t = some state)
    (hfollow : state.1 = true → startsKeyword follow = false) :
    splitLoop depth current (t ++ follow) = splitLoop state.2 (current ++ t) follow := by
  induction t generalizing atBreak depth current with
  | nil =>
    cases h
    simp
  | cons c t ih =>
    rw [quietScan] at h
    rw [cons_append, splitLoop]
    have happend : current ++ c :: t = current ++ [c] ++ t := by simp
    rw [happend]
    by_cases hl : c = '('
    · rw [if_pos hl] at h ⊢
      exact_mod_cast ih _ h
    rw [if_neg hl] at h ⊢
    by_cases hr : c = ')'
    · rw [if_pos hr] at h ⊢
      split at h
      · cases h
      · rename_i hdepth
        have hcast : (depth : ℤ) - 1 = ((depth - 1 : ℕ) : ℤ) := by omega
        rw [hcast]
        exact ih _ h
    rw [if_neg hr] at h ⊢
    split at h
    · cases h
    rename_i hstop
    by_cases hcomma : c = ','
    · have hdepth : ¬(depth : ℤ) = 0 := by
        intro hzero
        exact hstop ⟨by exact_mod_cast hzero, Or.inl hcomma⟩
      rw [if_pos hcomma, if_neg hdepth]
      exact ih _ h
    rw [if_neg hcomma]
    by_cases hspace : (depth : ℤ) = 0 ∧ c = ' '
    · rw [if_pos hspace]
      obtain ⟨hzero, rfl⟩ := hspace
      have hnone : splitKeyword (' ' :: (t ++ follow)) = none := by
        by_contra hfound
        obtain ⟨found, hfound⟩ := Option.ne_none_iff_exists'.mp hfound
        have hstart := startsKeyword_of_splitKeyword hfound
        -- The keyword begins in the rest of the text, or right behind it.
        cases t with
        | nil =>
          cases h
          rw [nil_append, hfollow rfl] at hstart
          cases hstart
        | cons d t =>
          have hbreak : (isWhitespace ' ' || ' ' == ',') = true := by decide
          have hword : isWordChar d = true := by
            by_contra hd
            rw [Bool.not_eq_true] at hd
            rw [cons_append, startsKeyword_eq_false hd] at hstart
            cases hstart
          have hdl : d ≠ '(' := by
            rintro rfl
            exact absurd hword (by decide)
          have hdr : d ≠ ')' := by
            rintro rfl
            exact absurd hword (by decide)
          rw [hbreak, quietScan, if_neg hdl, if_neg hdr, if_pos
            ⟨by exact_mod_cast hzero, Or.inr ⟨rfl, hstart⟩⟩] at h
          cases h
      rw [hnone]
      exact ih _ h
    · rw [if_neg hspace]
      exact ih _ h

/-! ### The tokens of a tree are quiet -/

theorem Boundary.nil : Boundary [] := by
  simp [Boundary]

theorem Boundary.cons {c : Char} {t : Text} (h : isPathChar c = false) : Boundary (c :: t) := by
  rintro d hd
  cases hd
  exact h

theorem Boundary.blank_append (hs : Blank s) (ht : Boundary t) : Boundary (s ++ t) := by
  cases s with
  | nil => exact ht
  | cons c s =>
    refine Boundary.cons ?_
    by_contra hpath
    rw [not_eq_false] at hpath
    have hc := hs c (by simp)
    rw [isInert.not_whitespace (isInert_of_isPathChar hpath)] at hc
    cases hc

/-- What may stand behind a text: a boundary, or anything behind a closing bracket. -/
def Joins (t follow : Text) : Prop :=
  Boundary follow ∨ t.getLast? = some ')' ∨ t.getLast? = some ']'

/-- A text that both loops copy, wherever it stands. -/
def Quiet (t : Text) : Prop :=
  ∀ (follow : Text) (atBreak : Bool) (depth : ℕ), Joins t follow →
    quietScan follow (atBreak, depth) t = some (false, depth)

theorem Quiet.ne_nil (h : Quiet t) : t ≠ [] := by
  rintro rfl
  have hscan := h [] true 0 (Or.inl Boundary.nil)
  cases hscan

/-- What may stand behind the end of a text. -/
theorem Joins.of_append (ht : t ≠ []) (h : Joins (s ++ t) follow) : Joins t follow := by
  rwa [Joins, getLast?_append_of_ne_nil _ ht] at h

theorem Word.inert (w : Word) : ∀ c ∈ w.text, isInert c = true := fun c hc =>
  isInert_of_isPathChar (isPathChar_of_isWordChar (w.word c hc))

theorem Digits.inert (d : Digits) : ∀ c ∈ d.text, isInert c = true := fun c hc =>
  isInert_of_isPathChar (isPathChar_of_isWordChar (isWordChar_of_isDigit (d.digit c hc)))

theorem PathName.pathChars (n : PathName) : ∀ c ∈ n.text, isPathChar c = true := by
  cases n with
  | plain name => exact fun c hc => isPathChar_of_isWordChar (name.word c hc)
  | «alias» word =>
    rintro c (_ | ⟨_, hc⟩)
    · decide
    · exact isPathChar_of_isWordChar (word.word c hc)

theorem PathStep.pathChars (s : PathStep) : ∀ c ∈ s.text, isPathChar c = true := by
  cases s with
  | field name =>
    rintro c (_ | ⟨_, hc⟩)
    · decide
    · exact name.pathChars c hc
  | index digits =>
    intro c hc
    simp only [PathStep.text, cons_append, mem_cons, mem_append, not_mem_nil, or_false] at hc
    rcases hc with rfl | hc | rfl
    · decide
    · exact isPathChar_of_isWordChar (isWordChar_of_isDigit (digits.digit c hc))
    · decide

theorem DocPath.pathChars (p : DocPath) : ∀ c ∈ p.text, isPathChar c = true := by
  intro c hc
  rcases mem_append.mp hc with hc | hc
  · exact p.root.pathChars c hc
  · obtain ⟨step, -, hc⟩ := mem_flatMap.mp hc
    exact step.pathChars c hc

theorem PathName.ne_nil (n : PathName) : n.text ≠ [] := by
  cases n with
  | plain name => exact name.ne_nil
  | «alias» word => simp [PathName.text]

theorem DocPath.ne_nil (p : DocPath) : p.text ≠ [] := by
  simp [DocPath.text, p.root.ne_nil]

/-- A document path spells no keyword: a step or an alias has a character of no keyword,
and a lone name is not reserved. -/
theorem DocPath.not_keyword (p : DocPath) :
    ∀ keyword ∈ sectionKeywords, eqIgnoreAsciiCase p.text keyword = false := by
  intro keyword hkeyword
  by_contra hspell
  rw [not_eq_false] at hspell
  have hword := isAlpha_of_spells hkeyword hspell
  obtain ⟨root, steps⟩ := p
  cases steps with
  | cons step steps =>
    cases step with
    | field name =>
      exact absurd (hword '.' (by simp [DocPath.text, PathStep.text])) (by decide)
    | index digits =>
      exact absurd (hword '[' (by simp [DocPath.text, PathStep.text])) (by decide)
  | nil =>
    cases root with
    | «alias» word =>
      exact absurd (hword '#' (by simp [DocPath.text, PathName.text])) (by decide)
    | plain name =>
      have hreserved := name.not_reserved keyword (mem_append_left _ hkeyword)
      simp only [DocPath.text, PathName.text, flatMap_nil, append_nil] at hspell
      rw [hspell] at hreserved
      cases hreserved

theorem DocPath.quiet (p : DocPath) : Quiet p.text := by
  intro follow atBreak depth hjoins
  have hinert : ∀ c ∈ p.text, isInert c = true := fun c hc =>
    isInert_of_isPathChar (p.pathChars c hc)
  have hblank : ∀ c ∈ p.text, isWhitespace c = false := fun c hc =>
    isInert.not_whitespace (hinert c hc)
  refine quietScan_token p.ne_nil hinert ?_
  rcases hjoins with hfollow | hlast | hlast
  · exact startsKeyword_path p.pathChars p.not_keyword hfollow
  · exact startsKeyword_of_not_alpha hblank (mem_of_mem_getLast? hlast) (by decide)
  · exact startsKeyword_of_not_alpha hblank (mem_of_mem_getLast? hlast) (by decide)

/-- A token of inert characters that begins with the character of no name is quiet. -/
theorem quiet_of_head (hc : isInert c = true) (hword : isWordChar c = false)
    (ht : ∀ d ∈ t, isInert d = true) : Quiet (c :: t) := by
  intro follow atBreak depth _
  refine quietScan_token (by simp) ?_ (startsKeyword_eq_false hword)
  rintro d (_ | ⟨_, hd⟩)
  · exact hc
  · exact ht d hd

theorem Word.quiet_placeholder (w : Word) : Quiet (':' :: w.text) :=
  quiet_of_head (by decide) (by decide) w.inert

/-- Literals are quiet. -/
theorem LiteralSyntax.quiet (l : LiteralSyntax) : Quiet l.text := by
  cases l with
  | number digits =>
    intro follow atBreak depth _
    obtain ⟨c, hc⟩ := exists_mem_of_ne_nil _ digits.ne_nil
    refine quietScan_token digits.ne_nil digits.inert (startsKeyword_of_not_alpha
      (fun c hc => isInert.not_whitespace (digits.inert c hc)) hc ?_)
    by_contra hletter
    have hdigit := digits.digit c hc
    simp only [not_eq_false, Char.isAlpha, Char.isUpper, Char.isLower, Char.isDigit,
      or_eq_true, and_eq_true, decide_eq_true_eq, UInt32.le_iff_toNat_le,
      ge_iff_le] at hletter hdigit
    change 65 ≤ c.toNat ∧ c.toNat ≤ 90 ∨ 97 ≤ c.toNat ∧ c.toNat ≤ 122 at hletter
    change 48 ≤ c.toNat ∧ c.toNat ≤ 57 at hdigit
    omega
  | string word hchars =>
    refine quiet_of_head (by decide) (by decide) ?_
    intro c hc
    rcases mem_append.mp hc with hc | hc
    · exact isInert_of_isPathChar (isPathChar_of_isWordChar (hchars c hc))
    · obtain rfl := mem_singleton.mp hc
      decide

/-! ### Value expressions and actions are quiet -/

variable {l : Text}

theorem Quiet.blank_append (hl : Blank l) (ht : Quiet t) : Quiet (l ++ t) := by
  intro follow atBreak depth hjoins
  exact quietScan_append_eq (quietScan_blank hl) (ht _ _ _ (hjoins.of_append ht.ne_nil))

theorem Quiet.cons {c : Char} {t : Text} (hc : isInert c = true)
    (hword : isWordChar c = false) (ht : Quiet t) : Quiet (c :: t) := by
  intro follow atBreak depth hjoins
  rw [quietScan_inert hc (fun _ => startsKeyword_eq_false hword)]
  rw [← singleton_append] at hjoins
  exact ht _ _ _ (hjoins.of_append ht.ne_nil)

theorem Quiet.append (hs : Quiet s) (ht : Quiet t) (hboundary : ∀ follow, Boundary (t ++ follow)) :
    Quiet (s ++ t) := by
  intro follow atBreak depth hjoins
  exact quietScan_append_eq (hs _ _ _ (Or.inl (hboundary follow)))
    (ht _ _ _ (hjoins.of_append ht.ne_nil))

/-- A text that both loops copy inside parentheses. -/
def Settles (t : Text) : Prop :=
  ∀ (follow : Text) (atBreak : Bool) (depth : ℕ), Boundary follow →
    ∃ atBreak', quietScan follow (atBreak, depth + 1) t = some (atBreak', depth + 1)

theorem Settles.blank (hl : Blank l) : Settles l := fun _ _ _ _ =>
  ⟨_, quietScan_blank hl⟩

theorem Settles.blank_append (hl : Blank l) (ht : Settles t) : Settles (l ++ t) := by
  intro follow atBreak depth hfollow
  obtain ⟨atBreak', h⟩ := ht follow _ depth hfollow
  exact ⟨atBreak', quietScan_append_eq (quietScan_blank hl) h⟩

theorem Settles.comma (ht : Settles t) : Settles (',' :: t) := by
  intro follow atBreak depth hfollow
  rw [quietScan_comma]
  exact ht _ _ _ hfollow

theorem Quiet.settles_append (hs : Quiet s) (ht : Settles t)
    (hboundary : ∀ {follow}, Boundary follow → Boundary (t ++ follow)) : Settles (s ++ t) := by
  intro follow atBreak depth hfollow
  obtain ⟨atBreak', h⟩ := ht follow _ depth hfollow
  exact ⟨atBreak', quietScan_append_eq (hs _ _ _ (Or.inl (hboundary hfollow))) h⟩

theorem Settles.arguments (l₁ l₂ l₃ l₄ : Layout) {first second : Text} (hfirst : Quiet first)
    (hsecond : Quiet second) :
    Settles (l₁.text ++ first ++ l₂.text ++ ',' :: (l₃.text ++ second ++ l₄.text)) := by
  have hcomma : ∀ {t : Text}, Boundary (',' :: t) := Boundary.cons (by decide)
  simp only [append_assoc]
  refine Settles.blank_append l₁.blank (hfirst.settles_append ?_ ?_)
  · refine Settles.blank_append l₂.blank (Settles.comma (Settles.blank_append l₃.blank ?_))
    exact hsecond.settles_append (Settles.blank l₄.blank)
      fun hfollow => Boundary.blank_append l₄.blank hfollow
  · intro follow _
    rw [append_assoc]
    exact Boundary.blank_append l₂.blank hcomma

theorem quiet_callText {name : Text} (hne : name ≠ []) (hname : name.all isInert = true)
    (hkey : ∀ follow, startsKeyword (name ++ follow) = false) {l₁ l₂ l₃ l₄ : Layout}
    {first second : Text} (hfirst : Quiet first) (hsecond : Quiet second) :
    Quiet (callText name l₁ first l₂ l₃ second l₄) := by
  intro follow atBreak depth _
  rw [callText, append_assoc]
  refine quietScan_append_eq
    (quietScan_token hne (all_eq_true.mp hname) (hkey _)) ?_
  rw [cons_append, quietScan, if_pos rfl]
  obtain ⟨atBreak', h⟩ := Settles.arguments l₁ l₂ l₃ l₄ hfirst hsecond
    ([')'] ++ follow) false depth
    (Boundary.cons (by decide : isPathChar ')' = false))
  refine quietScan_append_eq h ?_
  simp [quietScan]

theorem ArithmeticOperator.symbol_chars (operator : ArithmeticOperator) :
    isInert operator.symbol = true ∧ isWordChar operator.symbol = false ∧
      isPathChar operator.symbol = false := by
  cases operator <;> exact ⟨by decide, by decide, by decide⟩

/-- **Value expressions are quiet.** -/
theorem Operand.quiet {top : Bool} (o : Operand top) : Quiet o.text := by
  induction o with
  | placeholder word => exact word.quiet_placeholder
  | path p => exact p.quiet
  | literal value => exact value.quiet
  | ifNotExists l₁ p l₂ l₃ operand l₄ ih =>
    exact quiet_callText (by decide) (by decide) (fun _ => rfl) p.quiet ih
  | listAppend l₁ operand1 l₂ l₃ operand2 l₄ ih1 ih2 =>
    exact quiet_callText (by decide) (by decide) (fun _ => rfl) ih1 ih2
  | arithmetic lhs l₁ operator l₂ rhs ihl ihr =>
    obtain ⟨hinert, hword, hpath⟩ := operator.symbol_chars
    have htail : Quiet (l₁.text ++ operator.symbol :: (l₂.text ++ rhs.text)) :=
      Quiet.blank_append l₁.blank
        (Quiet.cons hinert hword (Quiet.blank_append l₂.blank ihr))
    refine Quiet.append ihl htail ?_
    intro follow
    rw [append_assoc, cons_append]
    exact Boundary.blank_append l₁.blank (Boundary.cons hpath)

/-- **Actions are quiet.** -/
theorem Action.quiet {kind : UpdateSection} (a : Action kind) : Quiet a.text := by
  have hgap : ∀ (p : DocPath) (gap : Gap) (value : Word),
      Quiet (p.text ++ (gap.text ++ ':' :: value.text)) := by
    intro p gap value
    refine p.quiet.append (Quiet.blank_append gap.blank value.quiet_placeholder) ?_
    intro follow
    rw [append_assoc]
    exact Boundary.blank_append gap.blank (Boundary.cons (by decide))
  cases a with
  | assign p l₁ l₂ value =>
    refine p.quiet.append (Quiet.blank_append l₁.blank (Quiet.cons (by decide) (by decide)
      (Quiet.blank_append l₂.blank value.quiet))) ?_
    intro follow
    simp only [Action.tail]
    rw [append_assoc]
    exact Boundary.blank_append l₁.blank (Boundary.cons (by decide))
  | drop p =>
    rw [Action.text, Action.tail, append_nil]
    exact p.quiet
  | addValue p gap value => exact hgap p gap value
  | deleteValue p gap value => exact hgap p gap value

end AuxStorage
