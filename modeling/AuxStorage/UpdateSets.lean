import AuxStorage.ConditionPath
import AuxStorage.UpdateApply

/-!
# Union and Difference of Stored Sets

A set is kept as the texts of its members, and a member has several spellings: a number many,
a binary one with its padding and one without. ADD and DELETE compare numbers by value but
strings and binaries as texts, so on sets of binaries they are union and difference only as
long as the members that they have to find are spelled alike. ADD follows every path, and DELETE
finds a set at the top level only.
-/

namespace AuxStorage

open List
open Document
open OrderedMap (get_insert get_remove)

/-- The types of sets. -/
inductive SetType where
  | SS
  | NS
  | BS
  deriving DecidableEq, Repr

/-- What the text of a member denotes. -/
inductive Member where
  | string (text : Text)
  | number (value : ℚ)
  | binary (bytes : List UInt8)

namespace SetType

/-- The set with the given members. -/
def value : SetType → List Text → AttributeValue
  | .SS => .SS
  | .NS => .NS
  | .BS => .BS

/-- The member that a text spells; a text that is no base64 stands for itself. -/
def member : SetType → Text → Member
  | .SS, member => .string member
  | .NS, member => .number (decimalValue member.bytes)
  | .BS, member => (decodeBase64String member).elim (.string member) .binary

/-- The comparison of members that ADD and DELETE use. -/
def same : SetType → Text → Text → Bool
  | .NS => numericSetMembersEqual
  | _ => fun existing value => existing == value

/-- The mathematical set that a list of texts spells. -/
def denote (ty : SetType) (texts : List Text) : Set Member :=
  {m | m ∈ texts.map ty.member}

/-- No member is spelled in two ways. -/
def SpelledOnce (ty : SetType) (texts : List Text) : Prop :=
  ∀ x ∈ texts, ∀ y ∈ texts, ty.member x = ty.member y → x = y

end SetType

/-- The texts of a set: there are some, they are texts of the type, and the comparison finds no
two of them equal. -/
structure SetType.Spells (ty : SetType) (texts : List Text) : Prop where
  ne_nil : texts ≠ []
  refl : ∀ x ∈ texts, ty.same x x = true
  distinct : texts.Pairwise fun x y => ty.same x y = false

/-- `after` is `item` with the set of the given members at a path, spelled without duplicates; an
empty set is no attribute. Whatever is apart from the path is as it was. -/
structure HoldsSet (ty : SetType) (members : Set Member) (path : List UpdatePathSegment)
    (item after : AttributeMap) : Prop where
  holds : match Document.get path (some (itemDoc after)) with
    | none => members = ∅
    | some doc => ∃ texts, doc = .leaf (ty.value texts) ∧ texts ≠ [] ∧ ty.denote texts = members ∧
        (texts.map ty.member).Nodup
  others : ∀ other, ¬path <+: other → ¬other <+: path →
    Document.get other (some (itemDoc after)) = Document.get other (some (itemDoc item))

/-! ### The comparison of numbers -/

theorem numericSetMembersEqual_iff {a b : Text} : numericSetMembersEqual a b = true ↔
    (∃ n, ParsedDynamodbNumber.parse a = .ok n) ∧ (∃ n, ParsedDynamodbNumber.parse b = .ok n) ∧
      decimalValue a.bytes = decimalValue b.bytes := by
  rw [numericSetMembersEqual]
  constructor
  · intro h
    cases hc : compareDynamodbNumbers a b with
    | error e => simp [hc] at h
    | ok o =>
      obtain ⟨l, r, hl, hr, rfl⟩ := compareDynamodbNumbers_eq_ok.mp hc
      simp only [hc, Ordering.isEq_iff_eq_eq, compare_eq_iff_eq] at h
      exact ⟨⟨l, hl⟩, ⟨r, hr⟩, h⟩
  · rintro ⟨⟨l, hl⟩, ⟨r, hr⟩, h⟩
    rw [compareDynamodbNumbers_eq_ok.mpr ⟨l, r, hl, hr, rfl⟩, h]
    simp

namespace SetType

variable {ty : SetType} {texts : List Text} {x y : Text}

/-- What the comparison finds equal is one member. -/
theorem member_eq_of_same (h : ty.same x y = true) : ty.member x = ty.member y := by
  cases ty with
  | NS => exact congrArg Member.number (numericSetMembersEqual_iff.mp h).2.2
  | SS | BS => rw [eq_of_beq h]

/-- **The comparison is by value**, for the texts of a type other than that of binaries. -/
theorem same_iff (h : ∀ x ∈ texts, ty.same x x = true) (hty : ty ≠ .BS) (hx : x ∈ texts)
    (hy : y ∈ texts) : ty.same x y = true ↔ ty.member x = ty.member y := by
  refine ⟨member_eq_of_same, fun heq => ?_⟩
  cases ty with
  | NS =>
    exact numericSetMembersEqual_iff.mpr ⟨(numericSetMembersEqual_iff.mp (h x hx)).1,
      (numericSetMembersEqual_iff.mp (h y hy)).1, Member.number.inj heq⟩
  | SS => exact beq_iff_eq.mpr (Member.string.inj heq)
  | BS => exact absurd rfl hty

/-- Binaries are compared as texts. -/
theorem same_BS_iff : SetType.BS.same x y = true ↔ x = y := beq_iff_eq

theorem Spells.nodup (h : ty.Spells texts) : texts.Nodup :=
  h.distinct.imp_of_mem fun hx _ hne heq => by
    rw [← heq, h.refl _ hx] at hne
    cases hne

theorem Spells.nodup_map (h : ty.Spells texts)
    (hsame : ∀ x ∈ texts, ∀ y ∈ texts, ty.member x = ty.member y → ty.same x y = true) :
    (texts.map ty.member).Nodup :=
  pairwise_map.mpr (h.distinct.imp_of_mem fun hx hy hne heq => by
    rw [hsame _ hx _ hy heq] at hne
    cases hne)

end SetType

/-! ### The loops -/

section Loops

variable {β : Type} {read : Text → β} {same : Text → Text → Bool} {existing : List Text}

/-- **The loop of ADD** computes the union, and adds no duplicate. -/
theorem appendUniqueBy_spec {valuesToAdd : List Text}
    (h : ∀ x ∈ existing ++ valuesToAdd, ∀ y ∈ valuesToAdd, same x y = true ↔ read x = read y)
    (hnodup : (existing.map read).Nodup) :
    ((appendUniqueBy same existing valuesToAdd).map read).Nodup ∧
      ∀ m, m ∈ (appendUniqueBy same existing valuesToAdd).map read ↔
        m ∈ existing.map read ∨ m ∈ valuesToAdd.map read := by
  induction valuesToAdd generalizing existing with
  | nil => exact ⟨hnodup, by simp [appendUniqueBy]⟩
  | cons value rest ih =>
    have hfound : existing.any (same · value) = true ↔ read value ∈ existing.map read := by
      rw [any_eq_true, mem_map]
      exact exists_congr fun x => and_congr_right fun hx =>
        h x (mem_append_left _ hx) value mem_cons_self
    rw [appendUniqueBy, foldl_cons, ← appendUniqueBy]
    by_cases hmem : read value ∈ existing.map read
    · rw [if_pos (hfound.mpr hmem)]
      obtain ⟨hnodup', hunion⟩ := ih (fun x hx y hy => h x (by
        rcases mem_append.mp hx with hx | hx <;> simp [hx]) y (mem_cons_of_mem _ hy))
        hnodup
      refine ⟨hnodup', fun m => ?_⟩
      rw [hunion, map_cons, mem_cons, or_left_comm]
      exact ⟨Or.inr, fun hm => hm.elim (fun heq => .inl (heq ▸ hmem)) id⟩
    · rw [if_neg (mt hfound.mp hmem)]
      obtain ⟨hnodup', hunion⟩ := @ih (existing ++ [value])
        (fun x hx y hy => h x (by simpa using hx) y (mem_cons_of_mem _ hy))
        (by simpa [nodup_append] using ⟨hnodup, by simpa using hmem⟩)
      refine ⟨hnodup', fun m => ?_⟩
      rw [hunion, map_append, map_singleton, mem_append, mem_singleton,
        map_cons, mem_cons, or_assoc]

/-- **The loop of DELETE** computes the difference. -/
theorem mem_removeSetMembersBy {deleteSet : List Text}
    (h : ∀ x ∈ existing, ∀ y ∈ deleteSet, same x y = true ↔ read x = read y) (m : β) :
    m ∈ (removeSetMembersBy same existing deleteSet).map read ↔
      m ∈ existing.map read ∧ m ∉ deleteSet.map read := by
  simp only [removeSetMembersBy, mem_map, mem_filter, Bool.not_eq_true', any_eq_false]
  constructor
  · rintro ⟨x, ⟨hx, hkeep⟩, rfl⟩
    refine ⟨⟨x, hx, rfl⟩, ?_⟩
    rintro ⟨y, hy, heq⟩
    exact hkeep y hy ((h x hx y hy).mpr heq.symm)
  · rintro ⟨⟨x, hx, rfl⟩, hdeleted⟩
    exact ⟨x, ⟨hx, fun y hy hsame => hdeleted ⟨y, hy, ((h x hx y hy).mp hsame).symm⟩⟩, rfl⟩

end Loops

/-! ### The operations -/

variable {ty : SetType} {stored operand : List Text} {item : AttributeMap} {field : Text}
  {path : List UpdatePathSegment}

theorem SetType.value_injective : Function.Injective ty.value := by
  intro a b h
  cases ty <;> injection h

theorem SetType.doc_value (texts : List Text) : (ty.value texts).doc = .leaf (ty.value texts) := by
  cases ty <;> rfl

theorem get_itemDoc_set (hpath : fieldPath field = some path)
    (hget : getAttributeValue item field = some (ty.value stored)) :
    Document.get path (some (itemDoc item)) = some (.leaf (ty.value stored)) := by
  have hdoc := getAttributeValue_doc item field
  rw [hget, hpath, Option.map_some, Option.bind_some, SetType.doc_value] at hdoc
  exact hdoc.symm

/-- **ADD puts the sum of two sets** in the place of the stored one, at every path. -/
theorem exists_applyAddOperation (hpath : fieldPath field = some path)
    (hget : getAttributeValue item field = some (ty.value stored)) (hne : operand ≠ []) :
    ∃ after, applyAddOperation item field (ty.value operand) = .ok after ∧
      Document.get path (some (itemDoc after))
        = some (.leaf (ty.value (appendUniqueBy ty.same stored operand))) ∧
      ∀ other, ¬path <+: other → ¬other <+: path →
        Document.get other (some (itemDoc after)) = Document.get other (some (itemDoc item)) := by
  have hvalid : validateAddOperand field (ty.value operand) = .ok () := by
    cases ty <;> simp [SetType.value, validateAddOperand, hne, pure, Except.pure]
  have hadd : addToExisting field (ty.value operand) (ty.value stored)
      = .ok (ty.value (appendUniqueBy ty.same stored operand)) := by
    cases ty <;> rfl
  have hstored := get_itemDoc_set hpath hget
  obtain ⟨o', hpatch, hread⟩ := exists_patch_set
    (.leaf (ty.value (appendUniqueBy ty.same stored operand))) (Option.isSome_of_eq_some hstored)
  have hset := setAttributeValue_doc item field (ty.value (appendUniqueBy ty.same stored operand))
  rw [hpath, Option.bind_some, SetType.doc_value] at hset
  obtain ⟨after, hafter, rfl⟩ := Option.map_eq_some_iff.mp (hset.trans hpatch)
  have hok : setAttributeValue item field (ty.value (appendUniqueBy ty.same stored operand))
      = .ok after := by
    cases hresult : setAttributeValue item field
        (ty.value (appendUniqueBy ty.same stored operand)) with
    | error e =>
      rw [hresult] at hafter
      cases hafter
    | ok value =>
      rw [hresult] at hafter
      exact congrArg _ (Option.some.inj hafter)
  refine ⟨after, ?_, hread, fun other hpr hrp => ?_⟩
  · simp only [applyAddOperation, hvalid, hget, hadd]
    exact congrArg storage hok
  · refine get_patch (Apart.of_not_prefix hpr hrp fun c i j q hc _ => .inl ?_) hpatch
    intro content hcontent
    rw [← hc, hstored]
    obtain rfl := Option.some.inj hcontent
    rfl

theorem applyDeleteRound_set (hget : item.get field = some (ty.value stored)) :
    applyDeleteRound item (.delete field (ty.value operand))
      = .ok (if removeSetMembersBy ty.same stored operand = [] then item.remove field
        else (item.remove field).insert field
          (ty.value (removeSetMembersBy ty.same stored operand))) := by
  have hdelete : applyDeleteSetOperation (ty.value stored) (ty.value operand)
      = .ok (ty.value (removeSetMembersBy ty.same stored operand),
        (removeSetMembersBy ty.same stored operand).isEmpty) := by
    cases ty <;> rfl
  simp only [applyDeleteRound, hget, hdelete, bind, Except.bind, List.isEmpty_iff]
  split_ifs <;> rfl

/-- A path apart from a top-level name does not read it. -/
theorem get_itemDoc_of_ne {after : AttributeMap}
    (h : ∀ name, name ≠ field → after.get name = item.get name)
    {other : List UpdatePathSegment} (hpr : ¬[Segment.name field] <+: other) :
    Document.get other (some (itemDoc after)) = Document.get other (some (itemDoc item))
      ∨ other = [] := by
  rcases other with _ | ⟨_ | _, rest⟩
  · exact .inr rfl
  · next name =>
      refine .inl ?_
      rw [get_name_itemDoc, get_name_itemDoc, h name]
      rintro rfl
      exact hpr (cons_prefix_cons.mpr ⟨rfl, nil_prefix⟩)
  · exact .inl rfl

/-- **DELETE puts the difference of two sets** in the place of the stored one, at the top level. -/
theorem exists_applyDeleteRound
    (hget : item.get field = some (ty.value stored)) :
    ∃ after, applyDeleteRound item (.delete field (ty.value operand)) = .ok after ∧
      Document.get [.name field] (some (itemDoc after))
        = (if removeSetMembersBy ty.same stored operand = [] then none
          else some (.leaf (ty.value (removeSetMembersBy ty.same stored operand)))) ∧
      ∀ other, ¬[.name field] <+: other → ¬other <+: [.name field] →
        Document.get other (some (itemDoc after)) = Document.get other (some (itemDoc item)) := by
  refine ⟨_, applyDeleteRound_set hget, ?_, fun other hpr hrp => ?_⟩
  · rw [get_name_itemDoc]
    split_ifs with hnil
    · rw [get_remove, if_pos rfl]
      rfl
    · rw [get_insert, if_pos rfl, Option.map_some, SetType.doc_value]
      rfl
  · refine (get_itemDoc_of_ne (fun name hname => ?_) hpr).resolve_right fun hnil => hrp ?_
    · split_ifs <;> simp [get_insert, get_remove, hname]
    · rw [hnil]
      exact nil_prefix

/-! ### Union and difference -/

theorem nodup_appendUniqueBy_iff (hstored : ty.Spells stored) (hoperand : ty.Spells operand) :
    (((appendUniqueBy ty.same stored operand).map ty.member).Nodup ∧
      ty.denote (appendUniqueBy ty.same stored operand) = ty.denote stored ∪ ty.denote operand) ↔
      (ty = .BS → ty.SpelledOnce (stored ++ operand)) := by
  have hrefl : ∀ x ∈ stored ++ operand, ty.same x x = true := fun x hx =>
    (mem_append.mp hx).elim (hstored.refl x) (hoperand.refl x)
  constructor
  · rintro ⟨hnodup, -⟩ rfl
    -- Texts are compared, and the sum has every text of both sets.
    obtain ⟨-, hunion⟩ := @appendUniqueBy_spec _ id (SetType.same .BS) stored operand
      (fun x _ y _ => SetType.same_BS_iff) (by rw [map_id]; exact hstored.nodup)
    simp only [map_id, ← mem_append] at hunion
    intro x hx y hy hxy
    exact inj_on_of_nodup_map hnodup ((hunion x).mpr hx) ((hunion y).mpr hy) hxy
  · intro honce
    have hsame : ∀ x ∈ stored ++ operand, ∀ y ∈ stored ++ operand,
        ty.same x y = true ↔ ty.member x = ty.member y := by
      intro x hx y hy
      by_cases hty : ty = .BS
      · have honce := honce hty
        subst hty
        exact SetType.same_BS_iff.trans ⟨fun h => h ▸ rfl, honce x hx y hy⟩
      · exact SetType.same_iff hrefl hty hx hy
    obtain ⟨hnodup, hunion⟩ := @appendUniqueBy_spec _ ty.member ty.same stored operand
      (fun x hx y hy => hsame x hx y (by simp [hy])) (hstored.nodup_map fun x hx y hy =>
        (hsame x (by simp [hx]) y (by simp [hy])).mpr)
    exact ⟨hnodup, Set.ext hunion⟩

theorem appendUniqueBy_ne_nil {same : Text → Text → Bool} (h : stored ≠ []) :
    appendUniqueBy same stored operand ≠ [] := by
  induction operand generalizing stored with
  | nil => exact h
  | cons value rest ih =>
    rw [appendUniqueBy, foldl_cons, ← appendUniqueBy]
    refine ih ?_
    split_ifs
    · exact h
    · simp

/-- DELETE removes the members that it has to, and keeps no member twice. -/
theorem nodup_removeSetMembersBy_iff (hstored : ty.Spells stored) (hoperand : ty.Spells operand) :
    (((removeSetMembersBy ty.same stored operand).map ty.member).Nodup ∧
      ty.denote (removeSetMembersBy ty.same stored operand)
        = ty.denote stored \ ty.denote operand) ↔
      (ty = .BS → (∀ x ∈ stored, ∀ y ∈ operand, ty.member x = ty.member y → x ∈ operand) ∧
        ty.SpelledOnce (stored.filter (· ∉ operand))) := by
  have hrefl : ∀ x ∈ stored ++ operand, ty.same x x = true := fun x hx =>
    (mem_append.mp hx).elim (hstored.refl x) (hoperand.refl x)
  by_cases hty : ty = .BS
  · subst hty
    have hkept : removeSetMembersBy (SetType.same .BS) stored operand
        = stored.filter (· ∉ operand) := by
      refine filter_congr fun x _ => ?_
      rw [Bool.eq_iff_iff, Bool.not_eq_true', any_eq_false, decide_eq_true_iff]
      exact ⟨fun h hx => h x hx (SetType.same_BS_iff.mpr rfl),
        fun h y hy hsame => h (SetType.same_BS_iff.mp hsame ▸ hy)⟩
    rw [hkept]
    constructor
    · rintro ⟨hnodup, hdifference⟩ -
      refine ⟨fun x hx y hy hxy => ?_, fun x hx y hy => inj_on_of_nodup_map hnodup hx hy⟩
      by_contra hnot
      have hmem : SetType.BS.member x ∈ SetType.BS.denote (stored.filter (· ∉ operand)) :=
        mem_map_of_mem (mem_filter.mpr ⟨hx, decide_eq_true hnot⟩)
      rw [hdifference] at hmem
      exact hmem.2 (hxy ▸ mem_map_of_mem hy)
    · intro h
      obtain ⟨hfound, honce⟩ := h rfl
      refine ⟨(hstored.nodup.filter _).map_on honce, Set.ext fun m => ?_⟩
      constructor
      · intro hm
        obtain ⟨x, hx, rfl⟩ := mem_map.mp hm
        obtain ⟨hx, hnot⟩ := mem_filter.mp hx
        refine ⟨mem_map_of_mem hx, fun hdeleted => ?_⟩
        obtain ⟨y, hy, hyx⟩ := mem_map.mp hdeleted
        exact of_decide_eq_true hnot (hfound x hx y hy hyx.symm)
      · rintro ⟨hm, hdeleted⟩
        obtain ⟨x, hx, rfl⟩ := mem_map.mp hm
        exact mem_map_of_mem (mem_filter.mpr ⟨hx, decide_eq_true fun hmem =>
          hdeleted (mem_map_of_mem hmem)⟩)
  · have hsame : ∀ x ∈ stored ++ operand, ∀ y ∈ stored ++ operand,
        ty.same x y = true ↔ ty.member x = ty.member y := fun x hx y hy =>
      SetType.same_iff hrefl hty hx hy
    refine iff_of_true ⟨?_, Set.ext (mem_removeSetMembersBy fun x hx y hy =>
      hsame x (by simp [hx]) y (by simp [hy]))⟩ fun h => absurd h hty
    exact (hstored.nodup_map fun x hx y hy =>
      (hsame x (by simp [hx]) y (by simp [hy])).mpr).sublist (filter_sublist.map _)

/-- An item with a set below the top level. -/
def nestedNumbers : AttributeMap := singleAttribute (text "m") (.M [(text "s", .NS [text "1"])])

theorem parseUpdatePath_nested :
    parseUpdatePath (text "m.s") = .ok [.name (text "m"), .name (text "s")] := by
  rw [parseUpdatePath, show text "m.s" = ['m', '.', 's'] from rfl]
  simp only [parseUpdatePathLoop, pushName]
  rfl

end AuxStorage
