import AuxStorage.Text
import AuxStorage.Lib.OrderedMap

/-!
# Attribute Values and Items

The dynamically typed values of items, the maps that hold them, and the errors of storage
operations. Numbers and binaries are kept as the texts they are written in, as the program
keeps them. A nested map is the list of its entries; the item itself and the maps of a
request keep their entries in insertion order.
-/

namespace AuxStorage

/-- `StorageError`, as far as the modelled functions return it. -/
inductive StorageError where
  /-- A request that fails validation, with its message. -/
  | validation (message : Text)
  /-- A request that fails validation; its message goes on with the text of the base64
  library, which is left out. -/
  | validationBase64 (message : Text)
  /-- `InternalServerError`. -/
  | internal (message : Text)
  /-- `InternalServerError`; its message goes on with the text of a library, which is left
  out. -/
  | internalLibrary (message : Text)
  /-- `Serialization`, with the error of the JSON library. -/
  | serialization
  deriving DecidableEq, Repr

/-- An internal error that quotes another error behind a text of its own. -/
def StorageError.quotedBehind (opening : Text) : StorageError → StorageError
  | .validation message | .internal message => .internal (opening ++ message)
  | .validationBase64 message | .internalLibrary message => .internalLibrary (opening ++ message)
  | .serialization => .internalLibrary (opening ++ text "Serialization error: ")

inductive AttributeValue where
  | S (text : Text)
  | N (number : Text)
  | B (base64 : Text)
  | SS (texts : List Text)
  | NS (numbers : List Text)
  | BS (base64s : List Text)
  | BOOL (value : Bool)
  | NULL (value : Bool)
  | L (values : List AttributeValue)
  | M (entries : List (Text × AttributeValue))
  deriving Repr, Inhabited

/-- Induction over values: a list or a map has a property when its values have it. -/
@[elab_as_elim]
theorem AttributeValue.nestedInduction {motive : AttributeValue → Prop}
    (S : ∀ text, motive (.S text)) (N : ∀ number, motive (.N number))
    (B : ∀ base64, motive (.B base64)) (SS : ∀ texts, motive (.SS texts))
    (NS : ∀ numbers, motive (.NS numbers)) (BS : ∀ base64s, motive (.BS base64s))
    (BOOL : ∀ value, motive (.BOOL value)) (NULL : ∀ value, motive (.NULL value))
    (L : ∀ values, (∀ value ∈ values, motive value) → motive (.L values))
    (M : ∀ entries, (∀ entry ∈ entries, motive entry.2) → motive (.M entries))
    (value : AttributeValue) : motive value := by
  refine @AttributeValue.rec motive (fun values => ∀ value ∈ values, motive value)
    (fun entries => ∀ entry ∈ entries, motive entry.2) (fun entry => motive entry.2)
    S N B SS NS BS BOOL NULL L M ?_ ?_ ?_ ?_ ?_ value
  · exact fun _ h => by cases h
  · exact fun _ _ hvalue hvalues => List.forall_mem_cons.mpr ⟨hvalue, hvalues⟩
  · exact fun _ h => by cases h
  · exact fun _ _ hentry hentries => List.forall_mem_cons.mpr ⟨hentry, hentries⟩
  · exact fun _ _ hvalue => hvalue

/-! ### Decidable equality -/

/-- Values of different types are different. -/
def AttributeValue.decEqOfSameType (a b : AttributeValue)
    (same : a.ctorIdx = b.ctorIdx → Decidable (a = b)) : Decidable (a = b) :=
  if h : a.ctorIdx = b.ctorIdx then same h else isFalse fun heq => h (heq ▸ rfl)

mutual

/-- Decides the equality of two values of one type. -/
def AttributeValue.decEqSameType :
    (a b : AttributeValue) → a.ctorIdx = b.ctorIdx → Decidable (a = b)
  | .S s, .S t, _ | .N s, .N t, _ | .B s, .B t, _ | .SS s, .SS t, _ | .NS s, .NS t, _
  | .BS s, .BS t, _ | .BOOL s, .BOOL t, _ | .NULL s, .NULL t, _ =>
    decidable_of_iff (s = t) (by simp)
  | .L s, .L t, _ =>
    @decidable_of_iff _ (s = t) (by simp) (AttributeValue.decEqList s t)
  | .M s, .M t, _ =>
    @decidable_of_iff _ (s = t) (by simp) (AttributeValue.decEqEntries s t)

/-- Decides the equality of two lists of values. -/
def AttributeValue.decEqList : (a b : List AttributeValue) → Decidable (a = b)
  | [], [] => isTrue rfl
  | [], _ :: _ | _ :: _, [] => isFalse (by simp)
  | a :: as, b :: bs =>
    @decidable_of_iff _ (a = b ∧ as = bs) (by simp)
      (@instDecidableAnd _ _ (AttributeValue.decEqOfSameType a b (AttributeValue.decEqSameType a b))
        (AttributeValue.decEqList as bs))

/-- Decides the equality of two lists of entries. -/
def AttributeValue.decEqEntries :
    (a b : List (Text × AttributeValue)) → Decidable (a = b)
  | [], [] => isTrue rfl
  | [], _ :: _ | _ :: _, [] => isFalse (by simp)
  | (k, a) :: as, (l, b) :: bs =>
    @decidable_of_iff _ (k = l ∧ a = b ∧ as = bs) (by simp [and_assoc])
      (@instDecidableAnd _ _ inferInstance
        (@instDecidableAnd _ _ (AttributeValue.decEqOfSameType a b (AttributeValue.decEqSameType a b))
          (AttributeValue.decEqEntries as bs)))

end

instance : DecidableEq AttributeValue := fun a b =>
  AttributeValue.decEqOfSameType a b (AttributeValue.decEqSameType a b)

/-! ### Maps of a request -/

abbrev VecMap (K V : Type) : Type := OrderedMap K V

/-- `AttributeMap`: an item, or the values of a request. -/
abbrev AttributeMap : Type := OrderedMap Text AttributeValue

end AuxStorage
