import AuxStorage.Text
import AuxStorage.Lib.Str
import AuxStorage.Lib.Numeral

/-!
# Identifiers and Offsets of the System Stream

The bounded texts that name shards, lineages and scopes, and the offsets of records. An
offset is ordered by the number it begins with (`order`), or, when it is a commit
versionstamp, by version and ordinal (`versionstamp`). A number has many spellings; the
program writes one of them (`SystemStreamOffset.numeric`, `SystemStreamOffset.stamp`).

## Main results

* `SystemStreamOffset.order_numeric`, `SystemStreamOffset.versionstamp_stamp`: a written
  offset is read back.
* `SystemStreamOffset.compareLex_stamp`: the texts of written versionstamps are ordered as
  the versionstamps are.
-/

namespace AuxStorage

open Str Numeral

/-- `SystemStreamContractError`, as far as the modelled functions return it. -/
inductive SystemStreamContractError where
  | invalidScopeId
  | invalidShardId
  | invalidLineageId
  | invalidOffset
  | unsupportedScopeVersion
  | invalidGeneration
  | wrongScope
  | wrongGeneration
  | emptyFrontier
  | frontierTooLarge
  | duplicateShard
  | unknownLineage
  | backendContract
  deriving DecidableEq, Repr

/-! ### Bounded texts -/

/-- `char::is_control`. -/
def isControl (c : Char) : Bool :=
  c.toNat < 32 || (127 ≤ c.toNat && c.toNat < 160)

/-- The number of bytes of a text. -/
def byteLength (t : Text) : ℕ :=
  (t.map Char.utf8Size).sum

/-- What `bounded_string_type` accepts. -/
def boundedText (max : ℕ) (value : Text) : Bool :=
  !value.isEmpty && !(trim value).isEmpty && decide (byteLength value ≤ max)
    && !value.any isControl

/-- A text accepted by `bounded_string_type`. -/
structure BoundedText (max : ℕ) where
  asStr : Text
  bounded : boundedText max asStr = true
  deriving DecidableEq

/-- `try_new` of a bounded text. -/
def BoundedText.tryNew {max : ℕ} (error : SystemStreamContractError) (value : Text) :
    Except SystemStreamContractError (BoundedText max) :=
  if h : boundedText max value = true then .ok ⟨value, h⟩ else .error error

abbrev SystemStreamScopeId : Type := BoundedText 128

abbrev SystemStreamShardId : Type := BoundedText 128

abbrev SystemStreamLineageId : Type := BoundedText 128

abbrev SystemStreamOffset : Type := BoundedText 256

/-- The order of texts, by their characters. -/
def compareText (s t : Text) : Ordering :=
  List.compareLex compare s t

/-! ### The order of offsets -/

/-- The parts before and after the first occurrence of a pattern. -/
def splitOncePattern (pattern : Text) : Text → Option (Text × Text)
  | [] => if pattern = [] then some ([], []) else none
  | c :: t =>
    if pattern <+: c :: t then some ([], (c :: t).drop pattern.length)
    else (splitOncePattern pattern t).map fun parts => (c :: parts.1, parts.2)

/-- `"-vs"`, the separator of a versionstamp. -/
def stampMark : Text := ['-', 'v', 's']

namespace SystemStreamOffset

/-- An offset is a bounded text. -/
def tryNew (value : Text) : Except SystemStreamContractError SystemStreamOffset :=
  BoundedText.tryNew .invalidOffset value

/-- `versionstamp`: the version and the ordinal. -/
def versionstamp (offset : SystemStreamOffset) : Option (ℕ × ℕ) := do
  let (version, suffix) ← splitOncePattern stampMark offset.asStr
  let version ← parseUnsigned 10 (2 ^ 64) version
  let suffix ← parseUnsigned 16 (2 ^ 32) suffix
  pure (version, suffix)

/-- The number of an offset. -/
def order (offset : SystemStreamOffset) : Except SystemStreamContractError ℕ :=
  let number := match splitOnce '-' offset.asStr with
    | some (number, _) => number
    | none => offset.asStr
  okOr .invalidOffset (parseUnsigned 10 (2 ^ 64) number)

/-- Offsets of one form are compared, stamps by both numbers. -/
def compareOrder (left right : SystemStreamOffset) :
    Except SystemStreamContractError Ordering :=
  match left.versionstamp, right.versionstamp with
  | some l, some r => pure ((compare l.1 r.1).then (compare l.2 r.2))
  | none, none => do
      let l ← left.order
      let r ← right.order
      pure (compare l r)
  | _, _ => .error .invalidOffset

end SystemStreamOffset

/-! ### The offsets that are written -/

/-- `{n:020}`. -/
@[irreducible] def numericText (n : ℕ) : Text :=
  format 10 20 n

/-- `{version:020}-vs{suffix:08x}`. -/
@[irreducible] def stampText (version suffix : ℕ) : Text :=
  numericText version ++ (stampMark ++ format 16 8 suffix)

/-- The characters of a number. -/
theorem mem_numericText {n : ℕ} {c : Char} (hc : c ∈ numericText n) :
    48 ≤ c.toNat ∧ c.toNat < 103 := by
  rw [numericText] at hc
  exact toNat_of_mem_format (by decide) (by decide) hc

/-- Numbers are padded to twenty digits. -/
@[simp] theorem length_numericText (n : ℕ) : (numericText n).length = 20 := by
  rw [numericText, length_format]

/-- A number has no dash. -/
theorem dash_not_mem_numericText (n : ℕ) : '-' ∉ numericText n := by
  intro hc
  exact absurd (mem_numericText hc).1 (by decide)

theorem utf8Size_of_toNat_lt {c : Char} (h : c.toNat < 127) : c.utf8Size = 1 := by
  rw [Char.utf8Size_eq_one_iff, UInt32.le_iff_toNat_le]
  exact Nat.le_of_lt h

/-- A short text of plain characters is bounded. -/
theorem boundedText_of_plain {t : Text} {max : ℕ} (hne : t ≠ [])
    (hplain : ∀ c ∈ t, 45 ≤ c.toNat ∧ c.toNat < 127) (hlen : t.length ≤ max) :
    boundedText max t = true := by
  have hsolid : Solid t := by
    refine Solid.of_forall hne fun c hc => ?_
    have hrange := hplain c hc
    have hval : c.val.toNat = c.toNat := rfl
    simp only [isWhitespace, hval]
    simp
    omega
  have hbytes : byteLength t = t.length := by
    have hone : t.map Char.utf8Size = t.map fun _ => 1 :=
      List.map_congr_left fun c hc => utf8Size_of_toNat_lt (hplain c hc).2
    rw [byteLength, hone]
    simp
  have hcontrol : t.any isControl = false := by
    rw [List.any_eq_false]
    intro c hc
    have hrange := hplain c hc
    simp [isControl]
    omega
  simp [boundedText, trim_solid hsolid, hne, hbytes, hlen, hcontrol]

/-- A number is an offset. -/
theorem boundedText_numericText (n : ℕ) : boundedText 256 (numericText n) = true := by
  have hlen := length_numericText n
  refine boundedText_of_plain (fun hnil => ?_) (fun c hc => ?_) (by omega)
  · rw [hnil] at hlen
    cases hlen
  · have hrange := mem_numericText hc
    omega

/-- A stamp is an offset. -/
theorem boundedText_stampText (version suffix : ℕ) :
    boundedText 256 (stampText version suffix) = true := by
  have hlen : (stampText version suffix).length = 31 := by
    simp [stampText, stampMark]
  refine boundedText_of_plain (fun hnil => ?_) (fun c hc => ?_) (by omega)
  · rw [hnil] at hlen
    cases hlen
  · rw [stampText] at hc
    rcases List.mem_append.mp hc with hc | hc
    · have hrange := mem_numericText hc
      omega
    · rcases List.mem_append.mp hc with hc | hc
      · have hmark : ∀ c ∈ stampMark, 45 ≤ c.toNat ∧ c.toNat < 127 := by
          simp [stampMark]
        exact hmark c hc
      · have hrange := toNat_of_mem_format (by decide) (by decide) hc
        omega

/-- A text is split at the first occurrence of the pattern. -/
theorem splitOncePattern_append {first : Char} {pattern s : Text} (hs : first ∉ s) (t : Text) :
    splitOncePattern (first :: pattern) (s ++ (first :: pattern ++ t)) = some (s, t) := by
  induction s with
  | nil => simp [splitOncePattern]
  | cons c s ih =>
    have hne : ¬first = c := fun heq => hs (by simp [heq])
    rw [List.cons_append, splitOncePattern, if_neg (fun hp => hne (List.cons_prefix_cons.mp hp).1),
      ih fun hmem => hs (List.mem_cons_of_mem c hmem)]
    rfl

/-- A text without the pattern is not split. -/
theorem splitOncePattern_eq_none {first : Char} {pattern s : Text} (hs : first ∉ s) :
    splitOncePattern (first :: pattern) s = none := by
  induction s with
  | nil => rfl
  | cons c s ih =>
    have hne : ¬first = c := fun heq => hs (by simp [heq])
    rw [splitOncePattern, if_neg (fun hp => hne (List.cons_prefix_cons.mp hp).1),
      ih fun hmem => hs (List.mem_cons_of_mem c hmem)]
    rfl

namespace SystemStreamOffset

/-- The offset that is written for a sequence number. -/
def numeric (n : ℕ) : SystemStreamOffset :=
  ⟨numericText n, boundedText_numericText n⟩

/-- The offset that is written for a versionstamp. -/
def stamp (version suffix : ℕ) : SystemStreamOffset :=
  ⟨stampText version suffix, boundedText_stampText version suffix⟩

theorem asStr_numeric (n : ℕ) : (numeric n).asStr = numericText n := by
  rw [numeric]

theorem asStr_stamp (version suffix : ℕ) :
    (stamp version suffix).asStr
      = numericText version ++ ('-' :: ['v', 's'] ++ format 16 8 suffix) := by
  have htext : (stamp version suffix).asStr = stampText version suffix := by rw [stamp]
  rw [htext, stampText, stampMark]

/-- A number is read as the offset that it is. -/
@[simp] theorem tryNew_numericText (n : ℕ) : tryNew (numericText n) = .ok (numeric n) := by
  rw [tryNew, BoundedText.tryNew, dif_pos (boundedText_numericText n)]
  rfl

/-- A stamp is read as the offset that it is. -/
@[simp] theorem tryNew_stampText (version suffix : ℕ) :
    tryNew (stampText version suffix) = .ok (stamp version suffix) := by
  rw [tryNew, BoundedText.tryNew, dif_pos (boundedText_stampText version suffix)]
  rfl

/-- A number is read back. -/
theorem parseUnsigned_numericText {n : ℕ} (hn : n < 2 ^ 64) :
    parseUnsigned 10 (2 ^ 64) (numericText n) = some n := by
  rw [numericText]
  exact parseUnsigned_format (by decide) (by decide) (by decide) (lt_trans hn (by norm_num)) hn

/-- A number is no stamp. -/
@[simp] theorem versionstamp_numeric (n : ℕ) : (numeric n).versionstamp = none := by
  rw [versionstamp, asStr_numeric, stampMark, splitOncePattern_eq_none (dash_not_mem_numericText n)]
  rfl

/-- The number of a numeric offset. -/
theorem order_numeric {n : ℕ} (hn : n < 2 ^ 64) : (numeric n).order = .ok n := by
  rw [order, asStr_numeric, splitOnce_eq_none (dash_not_mem_numericText n)]
  simp only [parseUnsigned_numericText hn]
  rfl

/-- The numbers of a stamp are read back. -/
theorem versionstamp_stamp {version suffix : ℕ} (hv : version < 2 ^ 64) (hs : suffix < 2 ^ 32) :
    (stamp version suffix).versionstamp = some (version, suffix) := by
  have hsuffix : parseUnsigned 16 (2 ^ 32) (format 16 8 suffix) = some suffix :=
    parseUnsigned_format (by decide) (by decide) (by decide) (lt_of_lt_of_le hs (by norm_num)) hs
  rw [versionstamp, asStr_stamp, stampMark,
    splitOncePattern_append (dash_not_mem_numericText version)]
  simp only [Option.bind_eq_bind, Option.bind_some, parseUnsigned_numericText hv, hsuffix]
  rfl

/-- **The texts of written versionstamps are ordered as the versionstamps are.** -/
theorem compareLex_stamp {v v' s s' : ℕ} (hv : v < 2 ^ 64) (hv' : v' < 2 ^ 64)
    (hs : s < 2 ^ 32) (hs' : s' < 2 ^ 32) :
    compareText (stamp v s).asStr (stamp v' s').asStr = (compare v v').then (compare s s') := by
  have hversion : compareText (numericText v) (numericText v') = compare v v' := by
    rw [numericText, numericText]
    exact compareLex_format (by decide) (by decide) (lt_trans hv (by norm_num))
      (lt_trans hv' (by norm_num))
  have hsuffix : compareText (format 16 8 s) (format 16 8 s') = compare s s' :=
    compareLex_format (by decide) (by decide) (lt_of_lt_of_le hs (by norm_num))
      (lt_of_lt_of_le hs' (by norm_num))
  have hmark : compareText ('-' :: ['v', 's']) ('-' :: ['v', 's']) = .eq := by decide
  have hlen : (numericText v).length = (numericText v').length := by simp
  rw [compareText] at *
  rw [asStr_stamp, asStr_stamp, Positional.compareLex_append hlen,
    Positional.compareLex_append rfl, hversion, hmark, hsuffix]
  rfl

/-- **The order of versionstamps is the order of their texts.** -/
theorem compareOrder_stamp {v v' s s' : ℕ} (hv : v < 2 ^ 64) (hv' : v' < 2 ^ 64)
    (hs : s < 2 ^ 32) (hs' : s' < 2 ^ 32) : compareOrder (stamp v s) (stamp v' s') =
      .ok (compareText (stamp v s).asStr (stamp v' s').asStr) := by
  rw [compareOrder, versionstamp_stamp hv hs, versionstamp_stamp hv' hs', compareLex_stamp] <;>
    first | rfl | assumption

theorem compareOrder_stamp_one : compareOrder (stamp 1 9) (stamp 2 0) =
    .ok (compareText (stamp 1 9).asStr (stamp 2 0).asStr) :=
  compareOrder_stamp (by decide) (by decide) (by decide) (by decide)

end SystemStreamOffset

/-! ### Scopes and positions -/

/-- The scope of a stream, with its generation. -/
structure SystemStreamScope where
  version : ℕ
  scopeId : SystemStreamScopeId
  generation : ℕ
  deriving DecidableEq

/-- A scope is the expected one. -/
def validateScope (actual expected : SystemStreamScope) :
    Except SystemStreamContractError Unit :=
  if actual.version ≠ expected.version ∨ actual.scopeId ≠ expected.scopeId then
    .error .wrongScope
  else if actual.generation ≠ expected.generation then .error .wrongGeneration
  else .ok ()

/-- A place in a stream. -/
structure SystemStreamPosition where
  shardId : SystemStreamShardId
  lineageId : SystemStreamLineageId
  offset : SystemStreamOffset
  deriving DecidableEq

/-- The lineages of a catalog at most. -/
def systemStreamCheckpointMaxEntries : ℕ := 128

end AuxStorage
