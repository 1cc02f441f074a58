import AuxStorage.ReadSequence.Binding

/-!
# String Templates

A template is made of literal text and of names between braces. Its parts, written one after the
other, are the template again, and binding puts the texts of the inputs in the place of the names.
-/

namespace AuxStorage.ReadSequence

open List Str

namespace TemplatePart

/-- A part as it stands in a template. -/
def write : TemplatePart → Text
  | .literal string => string
  | .input name => '\x7b' :: (name ++ ['\x7d'])

/-- What may stand in a template: text without braces, and the name of an input. -/
def WellFormed : TemplatePart → Prop
  | .literal string => ∀ c ∈ string, isBrace c = false
  | .input name => isInputName name = true

end TemplatePart

open TemplatePart

/-- A template in parts, at least one of which is an input. -/
structure IsTemplate (template : Text) (parts : List TemplatePart) : Prop where
  wellFormed : ∀ part ∈ parts, part.WellFormed
  write_eq : parts.flatMap write = template
  exists_input : ∃ name, .input name ∈ parts

variable {parts : List TemplatePart} {sawInput : Bool} {before remaining : Text}

theorem templatePartsFrom_literal (h : ∀ c ∈ before, isBrace c = false) :
    ∃ read : List TemplatePart, templatePartsFrom true before = read.map .ok := by
  have hdrop : before.dropWhile (fun c => !isBrace c) = [] :=
    dropWhile_eq_nil_iff.mpr (by simpa using h)
  rw [templatePartsFrom]
  split
  · exact ⟨[], rfl⟩
  · dsimp only
    split
    · exact ⟨[.literal _], rfl⟩
    · rename_i hcons
      rw [hdrop] at hcons
      cases hcons

/-- The first name between braces, and the literal before it. -/
theorem templatePartsFrom_input {name rest : Text} (h : ∀ c ∈ before, isBrace c = false)
    (hname : isInputName name = true) :
    ∃ first : List TemplatePart, templatePartsFrom sawInput (before ++ write (.input name) ++ rest)
      = first.map .ok ++ templatePartsFrom true rest := by
  have hclosed : '\x7d' ∉ name := by
    intro hmem
    rw [isInputName, Bool.and_eq_true, all_eq_true] at hname
    exact absurd (hname.2 _ hmem) (by decide)
  have hdrop : (before ++ write (.input name) ++ rest).dropWhile (fun c => !isBrace c)
      = '\x7b' :: (name ++ '\x7d' :: rest) := by
    rw [append_assoc, dropWhile_append_of_pos (by simpa using h)]
    simp [write, isBrace]
  rw [templatePartsFrom, if_neg (by simp [write])]
  dsimp only
  split
  · rename_i hnil
    rw [hdrop] at hnil
    cases hnil
  · rename_i brace suffix hcons
    rw [hdrop] at hcons
    cases hcons
    rw [if_neg (by decide)]
    split
    · rename_i hnone
      rw [splitOnce_append hclosed] at hnone
      cases hnone
    · rename_i found behind hsome
      rw [splitOnce_append hclosed] at hsome
      cases hsome
      rw [if_pos hname]
      split
      · exact ⟨[.input name], rfl⟩
      · exact ⟨[.literal _, .input name], rfl⟩

/-- The texts of parts are read without an error, behind text that is still to be yielded. -/
theorem exists_templatePartsFrom (hparts : ∀ part ∈ parts, part.WellFormed)
    (hbefore : ∀ c ∈ before, isBrace c = false)
    (hinput : sawInput = true ∨ ∃ name, .input name ∈ parts) :
    ∃ read : List TemplatePart,
      templatePartsFrom sawInput (before ++ parts.flatMap write) = read.map .ok := by
  induction parts generalizing sawInput before with
  | nil =>
    obtain rfl : sawInput = true := hinput.resolve_right (by simp)
    rw [flatMap_nil, append_nil]
    exact templatePartsFrom_literal hbefore
  | cons part rest ih =>
    obtain ⟨hpart, hrest⟩ := forall_mem_cons.mp hparts
    rw [flatMap_cons, ← append_assoc]
    cases part with
    | literal string =>
      -- Text behind text is one literal.
      exact ih hrest (forall_mem_append.mpr ⟨hbefore, hpart⟩)
        (hinput.imp_right fun ⟨name, hname⟩ => ⟨name, by simpa using hname⟩)
    | input name =>
      obtain ⟨first, hfirst⟩ := @templatePartsFrom_input sawInput before name (rest.flatMap write)
        hbefore hpart
      obtain ⟨read, hread⟩ := @ih true [] hrest (by simp) (.inl rfl)
      exact ⟨first ++ read, by rw [hfirst, map_append, ← hread, nil_append]⟩

theorem mem_takeWhile_literal : ∀ c ∈ remaining.takeWhile fun c => !isBrace c, isBrace c = false :=
  fun _ hc => by simpa using mem_takeWhile_imp hc

/-- A brace that opens, and the name up to one that closes. -/
theorem eq_write_input {brace : Char} {suffix name rest : Text}
    (hdrop : remaining.dropWhile (fun c => !isBrace c) = brace :: suffix)
    (hbrace : ¬brace = '\x7d') (hsplit : splitOnce '\x7d' suffix = some (name, rest)) :
    remaining = remaining.takeWhile (fun c => !isBrace c) ++ (write (.input name) ++ rest) := by
  have hhead := head?_dropWhile_not (fun c => !isBrace c) remaining
  rw [hdrop] at hhead
  obtain rfl : brace = '\x7b' := by simpa [isBrace, hbrace] using hhead
  have hname : write (.input name) ++ rest = '\x7b' :: suffix := by
    rw [splitOnce_eq_some hsplit, write, cons_append, append_assoc, singleton_append]
  rw [hname, ← hdrop, takeWhile_append_dropWhile]

/-- What is read is the template again. -/
theorem templatePartsFrom_wellFormed (h : templatePartsFrom sawInput remaining = parts.map .ok) :
    (∀ part ∈ parts, part.WellFormed) ∧ parts.flatMap write = remaining ∧
      (sawInput = true ∨ ∃ name, .input name ∈ parts) := by
  fun_induction templatePartsFrom sawInput remaining generalizing parts
  case case1 =>
    obtain rfl := map_eq_nil_iff.mp h.symm
    simp
  case case3 sawInput remaining _ before hdrop =>
    obtain ⟨part, rest, rfl, hpart, hrest⟩ := map_eq_cons_iff.mp h.symm
    cases hpart
    have hall := takeWhile_append_dropWhile (p := fun c => !isBrace c) (l := remaining)
    rw [hdrop, append_nil] at hall
    cases sawInput with
    | false => cases rest <;> simp at hrest
    | true =>
      obtain rfl := map_eq_nil_iff.mp hrest
      exact ⟨forall_mem_singleton.mpr mem_takeWhile_literal, (append_nil _).trans hall, .inl rfl⟩
  case case6 hdrop hbrace name rest hsplit hname _ hempty ih =>
    obtain ⟨part, read, rfl, hpart, hread⟩ := map_eq_cons_iff.mp h.symm
    cases hpart
    obtain ⟨hwell, hwrite, -⟩ := ih hread.symm
    refine ⟨forall_mem_cons.mpr ⟨hname, hwell⟩, ?_, .inr ⟨name, mem_cons_self⟩⟩
    have hall := eq_write_input hdrop hbrace hsplit
    rw [show takeWhile _ _ = [] from hempty, nil_append] at hall
    rw [flatMap_cons, hwrite, hall]
  case case7 hdrop hbrace name rest hsplit hname _ hempty ih =>
    obtain ⟨literal, rest', rfl, hliteral, hrest⟩ := map_eq_cons_iff.mp h.symm
    cases hliteral
    obtain ⟨part, read, rfl, hpart, hread⟩ := map_eq_cons_iff.mp hrest
    cases hpart
    obtain ⟨hwell, hwrite, -⟩ := ih hread.symm
    refine ⟨forall_mem_cons.mpr ⟨mem_takeWhile_literal, forall_mem_cons.mpr ⟨hname, hwell⟩⟩, ?_,
      .inr ⟨name, by simp⟩⟩
    rw [flatMap_cons, flatMap_cons, hwrite]
    exact (eq_write_input hdrop hbrace hsplit).symm
  all_goals cases parts <;> simp at h

/-- **String templates are read and bound as they are written.** A template is accepted exactly if
it is made of literal text and of names between braces, with at least one name. What is read from
it are such parts; bound to strings it becomes its parts one after the other, with the string of
each input in the place of its name. -/
theorem stringTemplate_spec (template : Text) :
    (checkTemplate template = .ok () ↔ ∃ parts, IsTemplate template parts) ∧
    (checkTemplate template = .ok () → ∃ parts, templateParts template = parts.map .ok ∧
      IsTemplate template parts ∧ ∀ inputs : Text → Option AttributeValue,
        (∀ name ∈ parts.flatMap inputNames, ∃ string, inputs name = some (.S string)) →
        ∃ filled, Forall₂ (Fills inputs) parts filled ∧
          bindStringTemplate inputs template = .ok (.S filled.flatten)) := by
  have hread (h : checkTemplate template = .ok ()) :
      ∃ parts, templateParts template = parts.map .ok ∧ IsTemplate template parts := by
    obtain ⟨parts, hparts⟩ := exists_parts_of_checkTemplate h
    obtain ⟨hwell, hwrite, hinput⟩ := templatePartsFrom_wellFormed hparts
    exact ⟨parts, hparts, hwell, hwrite, hinput.resolve_left Bool.false_ne_true⟩
  refine ⟨⟨fun h => ?_, fun ⟨parts, h⟩ => ?_⟩, fun h => ?_⟩
  · obtain ⟨parts, -, htemplate⟩ := hread h
    exact ⟨parts, htemplate⟩
  · obtain ⟨read, hparts⟩ := @exists_templatePartsFrom parts false [] h.wellFormed (by simp)
      (.inr h.exists_input)
    rw [nil_append, h.write_eq] at hparts
    rw [checkTemplate, templateParts, hparts]
    clear hparts
    induction read with
    | nil => rfl
    | cons part read ih => exact ih
  · obtain ⟨parts, hparts, htemplate⟩ := hread h
    refine ⟨parts, hparts, htemplate, fun inputs hstrings => ?_⟩
    obtain ⟨filled, hfilled⟩ := exists_fills hstrings
    exact ⟨filled, hfilled, bindStringTemplate_eq_ok.mpr ⟨parts, filled, hparts, hfilled, rfl⟩⟩

end AuxStorage.ReadSequence
