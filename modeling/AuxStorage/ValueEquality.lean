import AuxStorage.ConditionComparison
import AuxStorage.UpdateSets

/-!
# Equality of Values

A value denotes a tree: what stands at each of its paths, where numbers are rationals, binaries
are bytes and sets are sets. The equality of conditions compares all of this by value, except
for binaries, whose texts it compares.
-/

namespace AuxStorage

open Document
open AttributeValue (doc doc_L doc_M)
open List (mem_map)
open OrderedMap (lookup lookup_eq_none_iff mem_of_lookup_eq_some)
open SetType (member)

/-- What stands at a place of a value. -/
inductive Node where
  | scalar (ty : SetType) (member : Member)
  | set (ty : SetType) (members : Set Member)
  | bool (value : Bool)
  | null (value : Bool)
  | list
  | map

/-- The root of a document, for a reading of the texts of each type. -/
def node (read : SetType → Text → Member) : Doc Text AttributeValue → Node
  | .leaf (.S text) => .scalar .SS (read .SS text)
  | .leaf (.N number) => .scalar .NS (read .NS number)
  | .leaf (.B base64) => .scalar .BS (read .BS base64)
  | .leaf (.SS texts) => .set .SS {m | m ∈ texts.map (read .SS)}
  | .leaf (.NS numbers) => .set .NS {m | m ∈ numbers.map (read .NS)}
  | .leaf (.BS base64s) => .set .BS {m | m ∈ base64s.map (read .BS)}
  | .leaf (.BOOL value) => .bool value
  | .leaf (.NULL value) => .null value
  | .leaf (.L _) | .list _ => .list
  | .leaf (.M _) | .map _ => .map

/-- What a document denotes: the nodes at its paths. -/
def denote (read : SetType → Text → Member) (doc : Doc Text AttributeValue) (path : Path Text) :
    Option Node :=
  (Document.get path (some doc)).map (node read)

/-- The reading that takes a binary for its text. -/
def textMember : SetType → Text → Member
  | .BS, base64 => .string base64
  | ty, text => ty.member text

/-- The values that are stored. -/
inductive AttributeValue.Valid : AttributeValue → Prop where
  | S (text : Text) : Valid (.S text)
  | N {number : Text} (h : SetType.NS.same number number = true) : Valid (.N number)
  | B (base64 : Text) : Valid (.B base64)
  | SS {texts : List Text} (h : SetType.SS.Spells texts) : Valid (.SS texts)
  | NS {numbers : List Text} (h : SetType.NS.Spells numbers) : Valid (.NS numbers)
  | BS {base64s : List Text} (h : SetType.BS.Spells base64s) : Valid (.BS base64s)
  | BOOL (value : Bool) : Valid (.BOOL value)
  | NULL (value : Bool) : Valid (.NULL value)
  | L {values : List AttributeValue} (h : ∀ value ∈ values, Valid value) : Valid (.L values)
  | M {entries : List (Text × AttributeValue)} (hnames : (entries.map Prod.fst).Nodup)
      (h : ∀ entry ∈ entries, Valid entry.2) : Valid (.M entries)

/-! ### Denotations -/

section Denotations

variable {read : SetType → Text → Member} {d d' : Doc Text AttributeValue}

theorem denote_cons (s : Segment Text) (p : Path Text) :
    denote read d (s :: p) = ((child s d).map (denote read)).bind (· p) := by
  rw [denote, Document.get, Option.bind_some]
  cases child s d with
  | none => rw [get_none]; rfl
  | some => rfl

/-- Documents denote the same when their roots and their children do. -/
theorem denote_eq_iff : denote read d = denote read d' ↔ node read d = node read d' ∧
    ∀ s, (child s d).map (denote read) = (child s d').map (denote read) := by
  constructor
  · intro h
    refine ⟨Option.some.inj (congrFun h []), fun s => ?_⟩
    have hs : ∀ p, ((child s d).map (denote read)).bind (· p)
        = ((child s d').map (denote read)).bind (· p) := fun p => by
      rw [← denote_cons, h, denote_cons]
    rcases hc : child s d with _ | c <;> rcases hc' : child s d' with _ | c' <;>
      rw [hc, hc'] at hs
    · cases hs []
    · cases hs []
    · exact congrArg some (funext hs)
  · rintro ⟨hroot, hs⟩
    funext p
    cases p with
    | nil => exact congrArg some hroot
    | cons s p => rw [denote_cons, denote_cons, hs]

@[simp] theorem child_leaf (s : Segment Text) (value : AttributeValue) :
    child s (.leaf value) = none := by
  cases s <;> rfl

/-- A node whose binaries are texts, with their bytes. -/
def Node.decode : Node → Node
  | .scalar .BS (.string base64) => .scalar .BS (member .BS base64)
  | .set .BS members => .set .BS {m | ∃ base64, .string base64 ∈ members ∧ member .BS base64 = m}
  | node => node

theorem denote_member_congr (h : denote textMember d = denote textMember d') :
    denote member d = denote member d' := by
  have hdecode (d : Doc Text AttributeValue) (path : Path Text) :
      denote member d path = (denote textMember d path).map Node.decode := by
    rw [denote, denote, Option.map_map]
    congr 1
    funext d
    rcases d with value | _ | _
    · cases value <;> simp [node, textMember, Node.decode]
    · rfl
    · rfl
  funext path
  rw [hdecode, hdecode, h]

theorem denote_list (left right : List AttributeValue) :
    denote read (AttributeValue.L left).doc = denote read (AttributeValue.L right).doc ↔
      left.map (denote read ·.doc) = right.map (denote read ·.doc) := by
  rw [denote_eq_iff, doc_L, doc_L]
  refine ⟨fun h => List.ext_getElem? fun i => ?_, fun h => ⟨rfl, fun s => ?_⟩⟩
  · simpa [child, Function.comp_def] using h.2 (.index i)
  · cases s with
    | name => rfl
    | index i => simpa [child, Function.comp_def] using congrArg (·[i]?) h

theorem denote_map (left right : List (Text × AttributeValue)) :
    denote read (AttributeValue.M left).doc = denote read (AttributeValue.M right).doc ↔
      ∀ name, (lookup left name).map (denote read ·.doc)
        = (lookup right name).map (denote read ·.doc) := by
  rw [denote_eq_iff, doc_M, doc_M]
  refine ⟨fun h name => ?_, fun h => ⟨rfl, fun s => ?_⟩⟩
  · simpa [child, Function.comp_def] using h.2 (.name name)
  · cases s with
    | name name => simpa [child, Function.comp_def] using h name
    | index => rfl

end Denotations

/-! ### Sets -/

/-- Lists without repetition have the same elements when they are equally long and the one is
part of the other. -/
theorem nodup_mem_iff {α : Type} {l r : List α} (hl : l.Nodup) (hr : r.Nodup) :
    (l.length = r.length ∧ ∀ x ∈ l, x ∈ r) ↔ ∀ x, x ∈ l ↔ x ∈ r := by
  rw [← List.perm_ext_iff_of_nodup hl hr]
  exact ⟨fun h => (hl.subperm h.2).perm_of_length_le h.1.ge, fun h => ⟨h.length_eq, h.subset⟩⟩

section Sets

variable {ty : SetType} {x y : Text} {left right : List Text}

/-- The comparison is by value, binaries read as texts. -/
theorem SetType.same_iff_textMember (hx : ty.same x x = true) (hy : ty.same y y = true) :
    ty.same x y = true ↔ textMember ty x = textMember ty y := by
  have hxy : ∀ t ∈ [x, y], ty.same t t = true := by simp [hx, hy]
  cases ty with
  | BS => simp [same, textMember]
  | SS | NS => exact same_iff hxy (by decide) (by simp) (by simp)

/-- A set has no member twice. -/
theorem SetType.Spells.nodup_textMember (h : ty.Spells left) :
    (left.map (textMember ty)).Nodup :=
  List.pairwise_map.mpr (h.distinct.imp_of_mem fun hx hy hne heq => by
    rw [(same_iff_textMember (h.refl _ hx) (h.refl _ hy)).mpr heq] at hne
    cases hne)

theorem numbersEqual_eq (a b : Text) : numbersEqual a b = SetType.NS.same a b := by
  rw [numbersEqual, SetType.same, numericSetMembersEqual]
  rcases compareDynamodbNumbers a b with _ | (_ | _ | _) <;> rfl

/-- Sets are equal when they have the same members. -/
theorem valuesEqual_set_iff (hl : ty.Spells left) (hr : ty.Spells right) :
    valuesEqual (ty.value left) (ty.value right) = true ↔
      denote textMember (ty.value left).doc = denote textMember (ty.value right).doc := by
  have hequal : valuesEqual (ty.value left) (ty.value right) = true ↔
      left.length = right.length ∧ ∀ x ∈ left, ∃ y ∈ right, ty.same x y = true := by
    cases ty <;> simp [SetType.value, SetType.same, valuesEqual, stringSetsEqual, numberSetsEqual,
      numbersEqual_eq]
  have hdenote : denote textMember (ty.value left).doc = denote textMember (ty.value right).doc ↔
      ∀ m, m ∈ left.map (textMember ty) ↔ m ∈ right.map (textMember ty) := by
    rw [denote_eq_iff]
    cases ty <;> simp [SetType.value, doc, node, Set.ext_iff]
  rw [hequal, hdenote, ← nodup_mem_iff hl.nodup_textMember hr.nodup_textMember, List.length_map,
    List.length_map, List.forall_mem_map]
  refine and_congr_right' (forall₂_congr fun x hx => ?_)
  rw [mem_map]
  refine exists_congr fun y => and_congr_right fun hy => ?_
  rw [SetType.same_iff_textMember (hl.refl x hx) (hr.refl y hy), eq_comm]

end Sets

/-! ### Equality -/

/-- Lists are equal when their elements are. -/
theorem valuesEqual_list (left right : List AttributeValue) :
    valuesEqual (.L left) (.L right) = true ↔ List.Forall₂ (valuesEqual · · = true) left right := by
  rw [valuesEqual, Bool.and_eq_true, beq_iff_eq]
  induction left generalizing right with
  | nil => cases right <;> simp [elementsEqual]
  | cons value left ih =>
    cases right with
    | nil => simp
    | cons other right =>
      rw [elementsEqual, Bool.and_eq_true, List.forall₂_cons, ← ih, List.length_cons,
        List.length_cons, Nat.add_right_cancel_iff, and_left_comm]

/-- Maps are equal when they have the same names, with equal values. -/
theorem valuesEqual_map (left right : List (Text × AttributeValue)) :
    valuesEqual (.M left) (.M right) = true ↔ left.length = right.length ∧ ∀ entry ∈ left,
      ∃ other, lookup right entry.1 = some other ∧ valuesEqual entry.2 other = true := by
  rw [valuesEqual, Bool.and_eq_true, beq_iff_eq]
  refine and_congr_right' ?_
  induction left with
  | nil => simp [entriesEqual]
  | cons entry left ih =>
    rw [entriesEqual, Bool.and_eq_true, ih, List.forall_mem_cons]
    cases lookup right entry.1 <;> simp

/-- **Values are equal when they denote the same**, binaries read as texts. -/
theorem valuesEqual_iff {a b : AttributeValue} (ha : a.Valid) (hb : b.Valid) :
    valuesEqual a b = true ↔ denote textMember a.doc = denote textMember b.doc := by
  have hother {a b : AttributeValue} (hne : node textMember a.doc ≠ node textMember b.doc) :
      ¬denote textMember a.doc = denote textMember b.doc := fun h => hne (denote_eq_iff.mp h).1
  induction ha generalizing b with
  | S | B | BOOL | NULL =>
    rw [denote_eq_iff]
    cases hb <;> simp [valuesEqual, doc, node, textMember, member]
  | N h =>
    rw [denote_eq_iff]
    cases hb
    case N hb => simp [valuesEqual, doc, node, numbersEqual_eq, SetType.same_iff_textMember h hb]
    all_goals simp [valuesEqual, doc, node]
  | SS h | NS h | BS h =>
    cases hb
    all_goals first
      | exact valuesEqual_set_iff h ‹_›
      | simpa [valuesEqual] using hother (by simp [doc, node])
  | L h ih =>
    cases hb
    case L hb =>
      rw [valuesEqual_list, denote_list, ← List.forall₂_eq_eq_eq, List.forall₂_map_left_iff,
        List.forall₂_map_right_iff, List.forall₂_iff_zip, List.forall₂_iff_zip]
      have helements := fun {x y} hxy =>
        ih x (List.of_mem_zip hxy).1 (hb y (List.of_mem_zip hxy).2)
      exact and_congr_right fun _ => ⟨fun h x y hxy => (helements hxy).mp (h hxy),
        fun h x y hxy => (helements hxy).mpr (h hxy)⟩
    all_goals simpa [valuesEqual] using hother (by simp [doc, node])
  | @M left hnames h ih =>
    cases hb
    case M right hnames' hb =>
      have hkeys := nodup_mem_iff hnames hnames'
      rw [List.length_map, List.length_map, List.forall_mem_map] at hkeys
      rw [valuesEqual_map, denote_map]
      constructor
      · rintro ⟨hlength, hentries⟩ name
        have hmem := hkeys.mp ⟨hlength, fun entry hmem => by
          obtain ⟨other, hother, -⟩ := hentries entry hmem
          exact mem_map.mpr ⟨_, mem_of_lookup_eq_some hother, rfl⟩⟩
        cases hfound : lookup left name with
        | none =>
          rw [lookup_eq_none_iff, hmem, ← lookup_eq_none_iff] at hfound
          rw [hfound]
        | some value =>
          have hmem := mem_of_lookup_eq_some hfound
          obtain ⟨other, hother, hequal⟩ := hentries _ hmem
          rw [hother]
          exact congrArg some ((ih _ hmem (hb _ (mem_of_lookup_eq_some hother))).mp hequal)
      · intro h
        refine ⟨(hkeys.mpr fun name => ?_).1, fun entry hmem => ?_⟩
        · have hnone := congrArg (· = none) (h name)
          simp only [Option.map_eq_none_iff, lookup_eq_none_iff] at hnone
          exact not_iff_not.mp hnone.to_iff
        · have hentry := h entry.1
          rw [show lookup left entry.1 = some entry.2 from
            (OrderedMap.get_eq_some_iff ⟨left, hnames⟩).mpr hmem] at hentry
          obtain ⟨other, hother, hequal⟩ := Option.map_eq_some_iff.mp hentry.symm
          have hvalid := hb _ (mem_of_lookup_eq_some hother)
          exact ⟨other, hother, (ih entry hmem hvalid).mpr hequal.symm⟩
    all_goals simpa [valuesEqual] using hother (by simp [doc, node])

/-- **Equality is an equivalence relation** on valid values. It is the equality of what they
denote exactly when values that denote the same have their binaries in one spelling. -/
theorem valuesEqual_sound_iff {a b c : AttributeValue} (ha : a.Valid) (hb : b.Valid)
    (hc : c.Valid) : valuesEqual a a = true ∧ (valuesEqual a b = true → valuesEqual b a = true) ∧
    (valuesEqual a b = true → valuesEqual b c = true → valuesEqual a c = true) ∧
    ((valuesEqual a b = true ↔ denote member a.doc = denote member b.doc) ↔
      (denote member a.doc = denote member b.doc →
        denote textMember a.doc = denote textMember b.doc)) := by
  rw [valuesEqual_iff ha ha, valuesEqual_iff ha hb, valuesEqual_iff hb ha, valuesEqual_iff hb hc,
    valuesEqual_iff ha hc]
  exact ⟨rfl, Eq.symm, Eq.trans, Iff.mpr, fun h => ⟨denote_member_congr, h⟩⟩

/-- Two spellings of one number. -/
theorem valuesEqual_sound_numbers : denote member (AttributeValue.N (text "1")).doc
    = denote member (AttributeValue.N (text "1.0")).doc := by
  have ha : (AttributeValue.N (text "1")).Valid := .N (by decide)
  have hb : (AttributeValue.N (text "1.0")).Valid := .N (by decide)
  have hequal : valuesEqual (.N (text "1")) (.N (text "1.0")) = true := by decide
  have htext := (valuesEqual_iff ha hb).mp hequal
  exact ((valuesEqual_sound_iff ha hb ha).2.2.2.mpr fun _ => htext).mp hequal

/-- Two spellings of one byte denote the same and are not equal. -/
theorem valuesEqual_spellings :
    (AttributeValue.B (text "AQ==")).Valid ∧ (AttributeValue.B (text "AQ")).Valid ∧
      denote member (AttributeValue.B (text "AQ==")).doc
        = denote member (AttributeValue.B (text "AQ")).doc ∧
      valuesEqual (.B (text "AQ==")) (.B (text "AQ")) = false :=
  ⟨.B _, .B _, denote_eq_iff.mpr ⟨rfl, fun s => by cases s <;> rfl⟩, by decide⟩

end AuxStorage
