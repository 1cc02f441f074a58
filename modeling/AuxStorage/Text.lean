import Mathlib

/-!
# Text, Bytes, and Checked Arithmetic

The program works on UTF-8 strings and on machine integers with checked operations. A
string is modelled as its list of characters, and its bytes are the UTF-8 encoding of
that list; the comparison of two strings is the lexicographic comparison of their
characters, which is also that of their bytes. Machine integers are plain integers, and
every checked operation of the source is a range test on the exact result.

A definition with the name of an item of the source, in camel case, is its model.
-/

namespace AuxStorage

open List

/-- A string, as the list of its characters. -/
abbrev Text : Type := List Char

instance : LawfulBEq Text := inferInstance

/-- The text of a string literal. -/
abbrev text (s : String) : Text := s.toList

/-- The UTF-8 bytes of a string. -/
def Text.bytes (text : Text) : List UInt8 :=
  text.flatMap String.utf8EncodeChar

/-- `String::from_utf8` and `str::from_utf8`. -/
def Text.fromUtf8 (bytes : List UInt8) : Option Text :=
  bytes.toByteArray.utf8Decode?.map Array.toList

/-- **UTF-8 is read back**: bytes are a text exactly when they are the text's bytes. -/
theorem Text.fromUtf8_eq_some {bytes : List UInt8} {text : Text} :
    Text.fromUtf8 bytes = some text ↔ bytes = text.bytes := by
  constructor
  · intro h
    obtain ⟨chars, hchars, rfl⟩ := Option.map_eq_some_iff.mp h
    obtain ⟨m, hm⟩ := ByteArray.isSome_utf8Decode?_iff.mp (Option.isSome_of_eq_some hchars)
    rw [hm, utf8Decode?_utf8Encode, Option.some.injEq] at hchars
    subst hchars
    have := congrArg (fun b => b.data.toList) hm
    simpa [utf8Encode, Text.bytes] using this
  · rintro rfl
    have h := utf8Decode?_utf8Encode (l := text)
    rw [utf8Encode] at h
    rw [Text.fromUtf8, Text.bytes, h, Option.map_some]

theorem Text.bytes_injective : Function.Injective Text.bytes := by
  intro s t h
  have hs : Text.fromUtf8 s.bytes = some s := Text.fromUtf8_eq_some.mpr rfl
  rw [h, Text.fromUtf8_eq_some.mpr rfl] at hs
  exact (Option.some.inj hs).symm

theorem Text.bytes_append (s t : Text) : Text.bytes (s ++ t) = s.bytes ++ t.bytes :=
  flatMap_append

theorem Text.bytes_cons (c : Char) (t : Text) :
    Text.bytes (c :: t) = String.utf8EncodeChar c ++ t.bytes :=
  flatMap_cons

/-- The bytes of a character show where it ends. -/
theorem utf8EncodeChar_append_inj {c d : Char} {x y : List UInt8} :
    String.utf8EncodeChar c ++ x = String.utf8EncodeChar d ++ y ↔ c = d ∧ x = y := by
  refine ⟨fun h => ?_, fun ⟨hc, hx⟩ => by rw [hc, hx]⟩
  have hdecode : ∀ (c : Char) (x : List UInt8),
      (String.utf8EncodeChar c ++ x).toByteArray.utf8DecodeChar? 0 = some c := by
    intro c x
    rw [toByteArray_append]
    exact ByteArray.utf8DecodeChar?_utf8EncodeChar_append
  obtain rfl : c = d := by
    have hc := hdecode c x
    rw [h, hdecode d y] at hc
    exact (Option.some.inj hc).symm
  exact ⟨rfl, append_cancel_left h⟩

/-- **A text begins another one exactly when its bytes do.** -/
theorem Text.bytes_prefix_iff {s t : Text} : s.bytes <+: t.bytes ↔ s <+: t := by
  constructor
  · induction s generalizing t with
    | nil => simp
    | cons c s ih =>
      rintro ⟨z, hz⟩
      rw [Text.bytes_cons, append_assoc] at hz
      cases t with
      | nil =>
        have hlength := congrArg length hz
        have hpos := c.utf8Size_pos
        simp only [Text.bytes, flatMap_nil, length_append, length_nil,
          String.length_utf8EncodeChar] at hlength
        omega
      | cons d t =>
        rw [Text.bytes_cons] at hz
        obtain ⟨rfl, htail⟩ := utf8EncodeChar_append_inj.mp hz
        exact cons_prefix_cons.mpr ⟨rfl, ih ⟨z, htail⟩⟩
  · rintro ⟨z, rfl⟩
    exact ⟨Text.bytes z, (Text.bytes_append s z).symm⟩

/-- The comparison of two strings, by their bytes. -/
def compareUtf8 (s t : Text) : Ordering :=
  List.compareLex compare s.bytes t.bytes

/-- `Option::ok_or`. -/
def okOr {ε α : Type} (error : ε) : Option α → Except ε α
  | some a => .ok a
  | none => .error error

variable {ε α β γ : Type} {f : α → Except ε β} {l : List α} {r : α → β → Prop} {as : List α}

@[simp] theorem okOr_eq_ok {error : ε} {o : Option α} {a : α} :
    okOr error o = .ok a ↔ o = some a := by
  cases o <;> simp [okOr]

/-- A success of a sequenced computation is a success of both parts. -/
theorem Except.bind_eq_ok {x : Except ε α} {b : β} :
    (x >>= f) = .ok b ↔ ∃ a, x = .ok a ∧ f a = .ok b := by
  cases x with
  | error e => simp [bind, Except.bind]
  | ok a => simp [bind, Except.bind]

theorem Except.mapError_eq_ok {ε' : Type} {x : Except ε α} {f : ε → ε'} {a : α} :
    x.mapError f = .ok a ↔ x = .ok a := by
  cases x <;> simp [Except.mapError]

theorem Except.toOption_bind (x : Except ε α) (f : α → Except ε β) :
    (x >>= f).toOption = x.toOption.bind fun a => (f a).toOption := by
  cases x <;> rfl

theorem toOption_okOr (error : ε) (o : Option α) : (okOr error o).toOption = o := by
  cases o <;> rfl

/-- A traversal succeeds when it succeeds at every element. -/
theorem Except.mapM_eq_ok {r : List β} :
    l.mapM f = .ok r ↔ List.Forall₂ (fun a b => f a = .ok b) l r := by
  induction l generalizing r with
  | nil =>
    rw [mapM_nil, forall₂_nil_left_iff]
    exact ⟨fun h => (Except.ok.inj h).symm, fun h => congrArg Except.ok h.symm⟩
  | cons a l ih =>
    rw [mapM_cons, Except.bind_eq_ok, forall₂_cons_left_iff]
    constructor
    · rintro ⟨b, hb, h⟩
      obtain ⟨bs, hbs, h⟩ := Except.bind_eq_ok.mp h
      exact ⟨b, bs, hb, ih.mp hbs, (Except.ok.inj h).symm⟩
    · rintro ⟨b, bs, hb, hbs, rfl⟩
      exact ⟨b, hb, Except.bind_eq_ok.mpr ⟨bs, ih.mpr hbs, rfl⟩⟩

/-- A loop over checks succeeds when every check does. -/
theorem Except.forM_eq_ok {f : α → Except ε Unit} :
    l.forM f = .ok () ↔ ∀ a ∈ l, f a = .ok () := by
  induction l with
  | nil => simp [pure, Except.pure]
  | cons a rest ih =>
    change (f a >>= fun _ => rest.forM f) = .ok () ↔ _
    rw [Except.bind_eq_ok, forall_mem_cons, ← ih]
    exact ⟨fun ⟨⟨⟩, ha, hrest⟩ => ⟨ha, hrest⟩, fun ⟨ha, hrest⟩ => ⟨(), ha, hrest⟩⟩

/-- A relation that every element has with something pairs a list with another one. -/
theorem exists_forall₂ (h : ∀ a ∈ as, ∃ b, r a b) : ∃ bs, List.Forall₂ r as bs := by
  induction as with
  | nil => exact ⟨[], .nil⟩
  | cons a as ih =>
    obtain ⟨b, hb⟩ := h a mem_cons_self
    obtain ⟨bs, hbs⟩ := ih fun a ha => h a (mem_cons_of_mem _ ha)
    exact ⟨b :: bs, .cons hb hbs⟩

/-- The partner of a member. -/
theorem exists_of_mem_forall₂ {bs : List β}
    (h : List.Forall₂ r as bs) {a : α} (ha : a ∈ as) : ∃ b ∈ bs, r a b := by
  induction h with
  | nil => cases ha
  | cons hr _ ih =>
    rcases mem_cons.mp ha with rfl | ha
    · exact ⟨_, mem_cons_self, hr⟩
    · obtain ⟨b, hb, hab⟩ := ih ha
      exact ⟨b, mem_cons_of_mem _ hb, hab⟩

/-- A traversal behind a traversal succeeds when both succeed at every element. -/
theorem Except.mapM_bind_mapM_eq_ok {g : β → Except ε γ} {r : List γ} :
    (l.mapM f >>= List.mapM g) = .ok r ↔
      List.Forall₂ (fun a c => ∃ b, f a = .ok b ∧ g b = .ok c) l r := by
  simp only [Except.bind_eq_ok, Except.mapM_eq_ok]
  constructor
  · rintro ⟨m, hf, hg⟩
    induction hf generalizing r with
    | nil =>
      obtain rfl := forall₂_nil_left_iff.mp hg
      exact .nil
    | cons h _ ih =>
      obtain ⟨c, cs, hc, hcs, rfl⟩ := forall₂_cons_left_iff.mp hg
      exact .cons ⟨_, h, hc⟩ (ih hcs)
  · intro h
    induction h with
    | nil => exact ⟨[], .nil, .nil⟩
    | cons h _ ih =>
      obtain ⟨b, hf, hg⟩ := h
      obtain ⟨m, hfs, hgs⟩ := ih
      exact ⟨b :: m, .cons hf hfs, .cons hg hgs⟩

/-- A list related to another one element by element, with given images. -/
theorem exists_forall₂_map_eq {R : α → β → Prop} {g : β → γ} {h : α → γ} :
    (∃ r, List.Forall₂ R l r ∧ r.map g = l.map h) ↔ ∀ a ∈ l, ∃ b, R a b ∧ g b = h a := by
  constructor
  · rintro ⟨r, hrel, hmap⟩
    induction hrel with
    | nil => simp
    | @cons a b l r hab _ ih =>
      simp only [map_cons, cons.injEq] at hmap
      rintro x (_ | ⟨_, hx⟩)
      · exact ⟨b, hab, hmap.1⟩
      · exact ih hmap.2 x hx
  · intro hall
    induction l with
    | nil => exact ⟨[], .nil, rfl⟩
    | cons a l ih =>
      obtain ⟨b, hab, hb⟩ := hall a (by simp)
      obtain ⟨r, hrel, hmap⟩ := ih fun x hx => hall x (mem_cons_of_mem _ hx)
      exact ⟨b :: r, .cons hab hrel, by simp [hb, hmap]⟩

/-- The exact result of an `i64` operation, when it is in range. -/
def checkedI64 (z : ℤ) : Option ℤ :=
  if -2 ^ 63 ≤ z ∧ z < 2 ^ 63 then some z else none

/-- The exact result of an `i32` conversion, when it is in range. -/
def checkedI32 (z : ℤ) : Option ℤ :=
  if -2 ^ 31 ≤ z ∧ z < 2 ^ 31 then some z else none

/-- The exact result of a `usize` operation, when it is in range. -/
def checkedUsize (n : ℕ) : Option ℕ :=
  if n < 2 ^ 64 then some n else none

/-- A checked `i64` operation that succeeds returns the exact result. -/
theorem checkedI64_eq_some {z w : ℤ} (h : checkedI64 z = some w) : z = w := by
  unfold checkedI64 at h
  split at h
  · exact Option.some.inj h
  · cases h

/-- A checked `i32` conversion that succeeds returns the exact result. -/
theorem checkedI32_eq_some {z w : ℤ} (h : checkedI32 z = some w) : z = w := by
  unfold checkedI32 at h
  split at h
  · exact Option.some.inj h
  · cases h

/-- A checked `usize` operation that succeeds returns the exact result. -/
theorem checkedUsize_eq_some {n m : ℕ} (h : checkedUsize n = some m) : n = m := by
  unfold checkedUsize at h
  split at h
  · exact Option.some.inj h
  · cases h

end AuxStorage
