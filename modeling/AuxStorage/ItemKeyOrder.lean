import AuxStorage.ItemKey

/-!
# The Order of Storage Keys

A native store sorts rows by the bytes of their key suffix. This module says what that order
means in terms of the **denoted** key values (`KeyValue`): texts ordered by their UTF-8 bytes,
numbers by their rational value, binaries by their decoded bytes.

Among the keys of one hash value the table suffix gives the order of the range values. The
index suffix gives the order of the index range values, and ties are broken by the framed
table key, which puts the shorter table key first.
-/

namespace AuxStorage

open Framing
open List
open ParsedDynamodbNumber (eq_of_value parse)

/-! ### Denoted key values -/

/-- What a key value denotes: a text, a number or a byte string. -/
inductive KeyValue where
  | S (text : Text)
  | N (value : ℚ)
  | B (bytes : List UInt8)
  deriving DecidableEq

/-- The key value an attribute denotes. Numbers outside the supported range, texts that are
no base64, and values that are no scalars denote none. -/
def AttributeValue.keyValue : AttributeValue → Option KeyValue
  | .S s => some (.S s)
  | .N n => (parse n).toOption.map fun _ => .N (decimalValue n.bytes)
  | .B encoded => (decodeBase64String encoded).map .B
  | _ => none

namespace KeyValue

/-- The scalar type of a key value. -/
def type : KeyValue → KeyAttributeType
  | .S _ => .S
  | .N _ => .N
  | .B _ => .B

/-- The order of two values of one type: UTF-8 bytes, numbers, bytes. Values of different
types have none. -/
def typedCompare : KeyValue → KeyValue → Option Ordering
  | .S s, .S t => some (List.compareLex compare s.bytes t.bytes)
  | .N x, .N y => some (compare x y)
  | .B a, .B b => some (List.compareLex compare a b)
  | _, _ => none

/-- A value begins with another one: as a text, or as bytes. A number begins with itself
only. -/
def BeginsWith : KeyValue → KeyValue → Prop
  | .S t, .S s => s <+: t
  | .N x, .N y => x = y
  | .B b, .B a => a <+: b
  | _, _ => False

/-- The bytes a key value is written as. -/
def Written : KeyValue → List UInt8 → Prop
  | .S s, bytes => bytes = s.bytes
  | .N x, bytes => ∃ n : ParsedDynamodbNumber,
      n.WellFormed ∧ n.value = x ∧ encodeNumberBytesInto n = .ok bytes
  | .B b, bytes => bytes = b

variable {v : KeyValue} {l r : List UInt8}

theorem Written.unique (hl : v.Written l) (hr : v.Written r) : l = r := by
  cases v with
  | S s => exact hl.trans hr.symm
  | N x =>
    obtain ⟨n, hn, hnx, hnl⟩ := hl
    obtain ⟨m, hm, hmx, hmr⟩ := hr
    obtain rfl := eq_of_value hn hm (hnx.trans hmx.symm)
    exact Except.ok.inj (hnl.symm.trans hmr)
  | B b => exact hl.trans hr.symm

variable {w : KeyValue}

/-- **The bytes of two values of one type compare as the values.** -/
theorem Written.compareLex {o : Ordering} (hl : v.Written l) (hr : w.Written r)
    (ho : v.typedCompare w = some o) : List.compareLex compare l r = o := by
  cases v <;> cases w <;> simp only [typedCompare, Option.some.injEq, reduceCtorEq] at ho
  case S.S s t => rw [hl, hr, ho]
  case N.N x y =>
    obtain ⟨n, hn, hnx, hnl⟩ := hl
    obtain ⟨m, hm, hmy, hmr⟩ := hr
    rw [compareLex_encodeNumberBytesInto hn hm hnl hmr, hnx, hmy, ho]
  case B.B a b => rw [hl, hr, ho]

/-- **Two values of one type are written alike exactly when they are equal.** -/
theorem Written.inj (hl : v.Written l) (hr : w.Written r) (htype : v.type = w.type) :
    l = r ↔ v = w := by
  refine ⟨fun h => ?_, fun h => hl.unique (h ▸ hr)⟩
  subst h
  cases v <;> cases w <;> simp only [type, reduceCtorEq] at htype
  case S.S s t => rw [Text.bytes_injective (hl.symm.trans hr)]
  case N.N x y =>
    have hself : List.compareLex compare l l = .eq := Std.ReflCmp.compare_self
    rw [hl.compareLex hr rfl, compare_eq_iff_eq] at hself
    rw [hself]
  case B.B a b => rw [← hl.symm.trans hr]

/-- **The bytes of a value begin the bytes of another one of its type exactly when the values
do.** The bytes of numbers all have the same length. -/
theorem Written.prefix_iff (hl : v.Written l) (hr : w.Written r) (htype : v.type = w.type) :
    l <+: r ↔ w.BeginsWith v := by
  cases v <;> cases w <;> simp only [type, reduceCtorEq] at htype
  case S.S s t => rw [hl, hr, Text.bytes_prefix_iff, BeginsWith]
  case N.N x y =>
    have hinj := hl.inj hr rfl
    obtain ⟨n, hn, -, hnl⟩ := hl
    obtain ⟨m, hm, -, hmr⟩ := hr
    have hlength : l.length = r.length := by
      rw [length_encodeNumberBytesInto hn hnl, length_encodeNumberBytesInto hm hmr]
    rw [BeginsWith, eq_comm, ← KeyValue.N.injEq, ← hinj]
    exact ⟨fun h => h.eq_of_length hlength, fun h => h ▸ prefix_rfl⟩
  case B.B a b => rw [hl, hr, BeginsWith]

end KeyValue

variable {value : AttributeValue} {bytes : List UInt8}

/-- **A value is written exactly when it denotes a key value**, and then as that value. -/
theorem serializeAttributeValue_eq_ok :
    serializeAttributeValue value = .ok bytes ↔ ∃ v, value.keyValue = some v ∧ v.Written bytes := by
  cases value with
  | S s =>
    simp only [serializeAttributeValue, AttributeValue.keyValue, Option.some.injEq,
      exists_eq_left', KeyValue.Written]
    exact ⟨fun h => (Except.ok.inj h).symm, fun h => congrArg Except.ok h.symm⟩
  | B encoded =>
    rw [serializeAttributeValue, okOr_eq_ok, AttributeValue.keyValue]
    simp [KeyValue.Written]
  | N n =>
    simp only [serializeAttributeValue, AttributeValue.keyValue, Except.mapError_eq_ok,
      Except.bind_eq_ok]
    cases hparse : parse n with
    | error e => simp [Except.toOption]
    | ok number =>
      have hwf := parseBytes_wellFormed hparse
      have hvalue := parseBytes_value hparse
      simp only [Except.ok.injEq, exists_eq_left', Except.toOption, Option.map_some,
        Option.some.injEq, KeyValue.Written]
      refine ⟨fun h => ⟨number, hwf, hvalue, h⟩, ?_⟩
      rintro ⟨m, hm, hmvalue, hencode⟩
      rwa [eq_of_value hwf hm (hvalue.trans hmvalue.symm)]
  | _ => simp [serializeAttributeValue, AttributeValue.keyValue]

/-! ### The shape of a suffix -/

/-- The hash value and the range value that a key denotes. -/
structure KeyParts where
  hash : KeyValue
  range : Option KeyValue
  deriving DecidableEq

/-- The values denoted by the attributes of a key. -/
def keyParts (hashKey : AttributeValue) : Option AttributeValue → Option KeyParts
  | none => hashKey.keyValue.map fun hash => { hash, range := none }
  | some rangeKey => do
      let hash ← hashKey.keyValue
      let range ← rangeKey.keyValue
      some { hash, range := some range }

/-- What is written for the range of a key, closed in the way of `close`. -/
def RangeWritten (close : List UInt8 → List UInt8) : Option KeyValue → List UInt8 → Prop
  | none, tail => tail = []
  | some range, tail => ∃ data, range.Written data ∧ tail = close data

/-- What is written for the parts of a key. -/
def KeyParts.Written (close : List UInt8 → List UInt8) (parts : KeyParts)
    (bytes : List UInt8) : Prop :=
  ∃ data tail, parts.hash.Written data ∧ data.length < 65536 ∧
    RangeWritten close parts.range tail ∧ bytes = frame data ++ tail

variable {close : List UInt8 → List UInt8} {l r : List UInt8}

theorem KeyParts.Written.unique {parts : KeyParts} (hl : parts.Written close l)
    (hr : parts.Written close r) : l = r := by
  obtain ⟨dl, tl, hdl, -, htl, rfl⟩ := hl
  obtain ⟨dr, tr, hdr, -, htr, rfl⟩ := hr
  obtain ⟨hash, _ | range⟩ := parts
  · rw [hdl.unique hdr, show tl = [] from htl, show tr = [] from htr]
  · obtain ⟨_, hxl, rfl⟩ := htl
    obtain ⟨_, hxr, rfl⟩ := htr
    rw [hdl.unique hdr, hxl.unique hxr]

variable {hashKey : AttributeValue} {rangeKey : Option AttributeValue}

theorem keyParts_eq_some {parts : KeyParts} :
    keyParts hashKey rangeKey = some parts ↔ hashKey.keyValue = some parts.hash ∧
      rangeKey.map AttributeValue.keyValue = parts.range.map some := by
  obtain ⟨hash, range⟩ := parts
  cases rangeKey with
  | none => cases range <;> simp [keyParts]
  | some rangeKey => cases range <;> simp [keyParts, Option.bind_eq_some_iff]

theorem lengthPrefixedAttributeValue_eq_ok :
    lengthPrefixedAttributeValue value = .ok bytes
      ↔ ∃ v data, value.keyValue = some v ∧ v.Written data ∧ data.length < 65536
          ∧ bytes = frame data := by
  simp only [lengthPrefixedAttributeValue, Except.bind_eq_ok, serializeAttributeValue_eq_ok]
  constructor
  · rintro ⟨data, ⟨v, hv, hwritten⟩, h⟩
    split at h
    · next hlength => exact ⟨v, data, hv, hwritten, hlength, (Except.ok.inj h).symm⟩
    · cases h
  · rintro ⟨v, data, hv, hwritten, hlength, rfl⟩
    exact ⟨data, ⟨v, hv, hwritten⟩, by rw [if_pos (by omega)]; rfl⟩

theorem lengthPrefixedKey_eq_ok {data : List UInt8} :
    lengthPrefixedKey data = .ok bytes ↔ data.length < 65536 ∧ bytes = frame data := by
  rw [lengthPrefixedKey]
  constructor
  · intro h
    split at h
    · next hlength => exact ⟨hlength, (Except.ok.inj h).symm⟩
    · cases h
  · rintro ⟨hlength, rfl⟩
    rw [if_pos (by omega)]
    rfl

/-- The parts of a key are written exactly when they denote key values. -/
theorem serializePartsWith_eq_ok :
    serializePartsWith close hashKey rangeKey = .ok bytes
      ↔ ∃ parts, keyParts hashKey rangeKey = some parts ∧ parts.Written close bytes := by
  simp only [serializePartsWith, Except.bind_eq_ok, lengthPrefixedAttributeValue_eq_ok,
    keyParts_eq_some]
  constructor
  · rintro ⟨_, ⟨hash, data, hhash, hdata, hlength, rfl⟩, h⟩
    cases rangeKey with
    | none =>
      exact ⟨⟨hash, none⟩, ⟨hhash, rfl⟩, data, [], hdata, hlength, rfl, by
        rw [append_nil]; exact (Except.ok.inj h).symm⟩
    | some rangeKey =>
      obtain ⟨tail, hserialize, h⟩ := Except.bind_eq_ok.mp h
      obtain ⟨range, hrange, hwritten⟩ := serializeAttributeValue_eq_ok.mp hserialize
      exact ⟨⟨hash, some range⟩, ⟨hhash, congrArg some hrange⟩, data, close tail, hdata,
        hlength, ⟨tail, hwritten, rfl⟩, (Except.ok.inj h).symm⟩
  · rintro ⟨⟨hash, range⟩, ⟨hhash, hrange⟩, data, tail, hdata, hlength, htail, rfl⟩
    refine ⟨_, ⟨hash, data, hhash, hdata, hlength, rfl⟩, ?_⟩
    cases rangeKey with
    | none =>
      cases range with
      | none => rw [show tail = [] from htail, append_nil]; rfl
      | some range => cases hrange
    | some rangeKey =>
      cases range with
      | none => cases hrange
      | some range =>
        obtain ⟨rangeData, hwritten, rfl⟩ := htail
        exact Except.bind_eq_ok.mpr ⟨rangeData,
          serializeAttributeValue_eq_ok.mpr ⟨range, Option.some.inj hrange, hwritten⟩, rfl⟩

/-- The values a table key denotes. -/
def TableKey.parts (key : TableKey) : Option KeyParts :=
  keyParts key.hashKey key.rangeKey

/-- The values an index key denotes, besides its table key. -/
def IndexKey.parts (key : IndexKey) : Option KeyParts :=
  keyParts key.hashKey key.rangeKey

/-- The values an index prefix denotes. -/
def IndexKeyPrefix.parts (key : IndexKeyPrefix) : Option KeyParts :=
  keyParts key.hashKey key.rangeKey

theorem TableKey.sortedStorageSuffix_eq_ok {key : TableKey} :
    key.sortedStorageSuffix = .ok bytes
      ↔ ∃ parts, key.parts = some parts ∧ parts.Written id bytes :=
  serializePartsWith_eq_ok

theorem IndexKey.sortedStorageSuffix_eq_ok {key : IndexKey} :
    key.sortedStorageSuffix = .ok bytes
      ↔ ∃ parts written tableBytes, key.parts = some parts ∧ parts.Written terminated written
          ∧ key.tableKey.sortedStorageSuffix = .ok tableBytes ∧ tableBytes.length < 65536
          ∧ bytes = written ++ frame tableBytes := by
  simp only [IndexKey.sortedStorageSuffix, Except.bind_eq_ok, serializeIndexKeyPartValues,
    serializePartsWith_eq_ok, lengthPrefixedKey_eq_ok]
  constructor
  · rintro ⟨written, ⟨parts, hparts, hwritten⟩, tableBytes, htable, _, ⟨hlength, rfl⟩, h⟩
    exact ⟨parts, written, tableBytes, hparts, hwritten, htable, hlength, (Except.ok.inj h).symm⟩
  · rintro ⟨parts, written, tableBytes, hparts, hwritten, htable, hlength, rfl⟩
    exact ⟨written, ⟨parts, hparts, hwritten⟩, tableBytes, htable, _, ⟨hlength, rfl⟩, rfl⟩

/-- The prefix of an index prefix: the framed hash value and the announced range value. -/
theorem IndexKeyPrefix.sortedStoragePrefix_eq_ok {key : IndexKeyPrefix} :
    (ItemKey.indexPrefix key).sortedStoragePrefix = .ok bytes
      ↔ ∃ parts, key.parts = some parts ∧ parts.Written announced bytes := by
  have hsuffix : key.sortedStorageSuffix = serializePartsWith terminated key.hashKey key.rangeKey :=
    rfl
  simp only [ItemKey.sortedStoragePrefix, IndexKeyPrefix.sortedStorageRangePrefix, hsuffix,
    IndexKeyPrefix.parts]
  cases hrange : key.rangeKey with
  | none =>
    rw [if_neg (by simp), serializePartsWith_eq_ok]
    refine exists_congr fun parts => and_congr_right fun hparts => ?_
    have hnone : parts.range = none := by
      simpa using (keyParts_eq_some.mp hparts).2.symm
    simp only [KeyParts.Written, hnone, RangeWritten]
  | some rangeKey =>
    rw [if_pos (by simp), Except.bind_eq_ok]
    simp only [serializePartsWith_eq_ok]
    have hdrop : ∀ data range, (frame data ++ terminated range).dropLast
        = frame data ++ announced range := by
      intro data range
      rw [terminated, ← append_assoc, dropLast_concat]
    constructor
    · rintro ⟨_, ⟨⟨hash, range⟩, hparts, data, tail, hdata, hlength, htail, rfl⟩, h⟩
      cases range with
      | none => simp [keyParts_eq_some] at hparts
      | some range =>
        obtain ⟨rangeData, hrangeData, rfl⟩ := htail
        exact ⟨⟨hash, some range⟩, hparts, data, announced rangeData, hdata, hlength,
          ⟨rangeData, hrangeData, rfl⟩, by
            rw [← hdrop]; exact (Except.ok.inj h).symm⟩
    · rintro ⟨⟨hash, range⟩, hparts, data, tail, hdata, hlength, htail, rfl⟩
      cases range with
      | none => simp [keyParts_eq_some] at hparts
      | some range =>
        obtain ⟨rangeData, hrangeData, rfl⟩ := htail
        refine ⟨frame data ++ terminated rangeData, ⟨⟨hash, some range⟩, hparts, data,
          terminated rangeData, hdata, hlength, ⟨rangeData, hrangeData, rfl⟩, rfl⟩, ?_⟩
        rw [hdrop]
        rfl

/-! ### The order of suffixes -/

/-- The order of the range values of two keys of one schema: keys without range values do
not differ, and range values of one type compare as that type. -/
def compareRanges : Option KeyValue → Option KeyValue → Option Ordering
  | none, none => some .eq
  | some v, some w => v.typedCompare w
  | _, _ => none

variable {o : Ordering} {p q : KeyParts}

section Closed

variable {x y : List UInt8}
  (hclose : ∀ l r, List.compareLex compare (close l ++ x) (close r ++ y)
    = (List.compareLex compare l r).then (List.compareLex compare x y))

include hclose

/-- Range values compare first, when the way they are closed keeps the order. -/
theorem RangeWritten.compareLex {v w : Option KeyValue} (hl : RangeWritten close v l)
    (hr : RangeWritten close w r) (ho : compareRanges v w = some o) :
    List.compareLex compare (l ++ x) (r ++ y) = o.then (List.compareLex compare x y) := by
  cases v with
  | none =>
    cases w with
    | none =>
      obtain rfl : Ordering.eq = o := Option.some.inj ho
      rw [show l = [] from hl, show r = [] from hr]
      rfl
    | some w => cases ho
  | some v =>
    cases w with
    | none => cases ho
    | some w =>
      obtain ⟨dl, hdl, rfl⟩ := hl
      obtain ⟨dr, hdr, rfl⟩ := hr
      rw [hclose, hdl.compareLex hdr ho]

/-- **Keys of one hash value compare by their range values first**, then by what follows. -/
theorem KeyParts.Written.compareLex (hl : p.Written close l) (hr : q.Written close r)
    (hhash : p.hash = q.hash) (ho : compareRanges p.range q.range = some o) :
    List.compareLex compare (l ++ x) (r ++ y) = o.then (List.compareLex compare x y) := by
  obtain ⟨dl, tl, hdl, hlen, htl, rfl⟩ := hl
  obtain ⟨dr, tr, hdr, -, htr, rfl⟩ := hr
  obtain rfl := hdl.unique (hhash ▸ hdr)
  have hself : List.compareLex compare dl dl = .eq := Std.ReflCmp.compare_self
  rw [append_assoc, append_assoc, compareLex_frame_append hlen hlen,
    Nat.compare_eq_eq.mpr rfl, hself, htl.compareLex hclose htr ho]
  rfl

end Closed

variable {kb : List UInt8}

/-- **Table keys of one hash value are sorted by their range values.** -/
theorem TableKey.compareLex_suffix {k l : TableKey} {lb : List UInt8}
    (hk : k.sortedStorageSuffix = .ok kb) (hl : l.sortedStorageSuffix = .ok lb)
    (hp : k.parts = some p) (hq : l.parts = some q) (hhash : p.hash = q.hash)
    (ho : compareRanges p.range q.range = some o) : List.compareLex compare kb lb = o := by
  obtain ⟨p', hp', hkb⟩ := TableKey.sortedStorageSuffix_eq_ok.mp hk
  obtain ⟨q', hq', hlb⟩ := TableKey.sortedStorageSuffix_eq_ok.mp hl
  cases hp.symm.trans hp'
  cases hq.symm.trans hq'
  have hempty : List.compareLex compare ([] : List UInt8) [] = .eq := rfl
  have h := hkb.compareLex (x := []) (y := []) (fun l r => by
    rw [append_nil, append_nil, hempty, Ordering.then_eq]; rfl) hlb hhash ho
  rwa [append_nil, append_nil, hempty, Ordering.then_eq] at h

/-- **Index keys of one hash value are sorted by their range values, then by the framed
table keys**: the shorter table key first, table keys of one length by their bytes. -/
theorem IndexKey.compareLex_suffix {k l : IndexKey} {lb kt lt : List UInt8}
    (hk : k.sortedStorageSuffix = .ok kb) (hl : l.sortedStorageSuffix = .ok lb)
    (hkt : k.tableKey.sortedStorageSuffix = .ok kt) (hlt : l.tableKey.sortedStorageSuffix = .ok lt)
    (hp : k.parts = some p) (hq : l.parts = some q) (hhash : p.hash = q.hash)
    (ho : compareRanges p.range q.range = some o) :
    List.compareLex compare kb lb
      = o.then ((compare kt.length lt.length).then (List.compareLex compare kt lt)) := by
  obtain ⟨p', kw, kt', hp', hkw, hkt', hklen, rfl⟩ := IndexKey.sortedStorageSuffix_eq_ok.mp hk
  obtain ⟨q', lw, lt', hq', hlw, hlt', hllen, rfl⟩ := IndexKey.sortedStorageSuffix_eq_ok.mp hl
  cases hp.symm.trans hp'
  cases hq.symm.trans hq'
  cases hkt.symm.trans hkt'
  cases hlt.symm.trans hlt'
  have hempty : List.compareLex compare ([] : List UInt8) [] = .eq := rfl
  have htie := compareLex_frame_append hklen hllen [] []
  rw [append_nil, append_nil, hempty, Ordering.then_eq] at htie
  rw [hkw.compareLex (fun _ _ => compareLex_terminated_append _ _ _ _) hlw hhash ho, htie]

/-- **An index prefix selects the index keys of its hash value whose range value begins with
its range value**, among the keys of its schema. -/
theorem IndexKeyPrefix.prefix_suffix_iff {k : IndexKey} {prefixKey : IndexKeyPrefix}
    {pb : List UInt8} (hk : k.sortedStorageSuffix = .ok kb)
    (hpb : (ItemKey.indexPrefix prefixKey).sortedStoragePrefix = .ok pb) (hp : k.parts = some p)
    (hq : prefixKey.parts = some q) (hhash : q.hash.type = p.hash.type)
    (hrange : ∀ w ∈ q.range, ∃ v ∈ p.range, w.type = v.type) :
    pb <+: kb ↔ p.hash = q.hash ∧ ∀ w ∈ q.range, ∃ v ∈ p.range, v.BeginsWith w := by
  obtain ⟨p', kw, kt, hp', hkw, -, -, rfl⟩ := IndexKey.sortedStorageSuffix_eq_ok.mp hk
  obtain ⟨q', hq', hpw⟩ := IndexKeyPrefix.sortedStoragePrefix_eq_ok.mp hpb
  cases hp.symm.trans hp'
  cases hq.symm.trans hq'
  obtain ⟨dk, tk, hdk, hdklen, htk, rfl⟩ := hkw
  obtain ⟨dp, tp, hdp, hdplen, htp, rfl⟩ := hpw
  rw [append_assoc, frame_prefix_iff hdplen hdklen, hdp.inj hdk hhash, eq_comm]
  refine and_congr_right fun _ => ?_
  obtain ⟨qhash, _ | w⟩ := q
  · rw [show tp = [] from htp]
    simp
  · obtain ⟨v, hv, htype⟩ := hrange w rfl
    obtain ⟨phash, prange⟩ := p
    obtain rfl : prange = some v := hv
    obtain ⟨dw, hdw, rfl⟩ := htp
    obtain ⟨dv, hdv, rfl⟩ := htk
    rw [announced_prefix_iff, hdw.prefix_iff hdv htype]
    simp

/-- **The order of storage keys.** Among the keys of one hash value, table suffixes sort by
the range value, and index suffixes by the index range value, with ties broken by the framed
table key, shorter encodings first. The prefix of an index prefix begins exactly the suffixes
with its hash value whose range value begins with its range value. -/
theorem storageKey_order :
    (∀ (k l : TableKey) (kb lb : List UInt8) (p q : KeyParts) (o : Ordering),
      k.sortedStorageSuffix = .ok kb → l.sortedStorageSuffix = .ok lb →
      k.parts = some p → l.parts = some q → p.hash = q.hash →
      compareRanges p.range q.range = some o → List.compareLex compare kb lb = o) ∧
    (∀ (k l : IndexKey) (kb lb kt lt : List UInt8) (p q : KeyParts) (o : Ordering),
      k.sortedStorageSuffix = .ok kb → l.sortedStorageSuffix = .ok lb →
      k.tableKey.sortedStorageSuffix = .ok kt → l.tableKey.sortedStorageSuffix = .ok lt →
      k.parts = some p → l.parts = some q → p.hash = q.hash →
      compareRanges p.range q.range = some o → List.compareLex compare kb lb
        = o.then ((compare kt.length lt.length).then (List.compareLex compare kt lt))) ∧
    (∀ (k : IndexKey) (prefixKey : IndexKeyPrefix) (kb pb : List UInt8) (p q : KeyParts),
      k.sortedStorageSuffix = .ok kb →
      (ItemKey.indexPrefix prefixKey).sortedStoragePrefix = .ok pb →
      k.parts = some p → prefixKey.parts = some q → q.hash.type = p.hash.type →
      (∀ w ∈ q.range, ∃ v ∈ p.range, w.type = v.type) →
      (pb <+: kb ↔ p.hash = q.hash ∧ ∀ w ∈ q.range, ∃ v ∈ p.range, v.BeginsWith w)) := by
  refine ⟨?_, ?_, ?_⟩
  · intro k l kb lb p q o hk hl hp hq hhash ho
    exact TableKey.compareLex_suffix hk hl hp hq hhash ho
  · intro k l kb lb kt lt p q o hk hl hkt hlt hp hq hhash ho
    exact IndexKey.compareLex_suffix hk hl hkt hlt hp hq hhash ho
  · intro k prefixKey kb pb p q hk hpb hp hq hhash hrange
    exact IndexKeyPrefix.prefix_suffix_iff hk hpb hp hq hhash hrange

/-- The row of the index value `r` under hash `h`, of the table item `h`, `tableRange`. -/
def tieKey (tableRange : Text) : IndexKey where
  tableName := text "t"
  indexId := text "i"
  hashKey := .S (text "h")
  rangeKey := some (.S (text "r"))
  tableKey :=
    { tableName := text "t", hashKey := .S (text "h"), rangeKey := some (.S tableRange) }

/-- The three parts of the order on concrete keys. -/
theorem storageKey_order_ties :
    List.compareLex compare (frame [104] ++ [97, 97]) (frame [104] ++ [98]) = .lt ∧
    List.compareLex compare
      (frame [104] ++ terminated [114] ++ frame (frame [104] ++ [97, 97]))
      (frame [104] ++ terminated [114] ++ frame (frame [104] ++ [98])) = .gt ∧
    (frame [104] ++ announced [114] <+:
      frame [104] ++ terminated [114] ++ frame (frame [104] ++ [98]) ↔
      KeyValue.S (text "h") = .S (text "h") ∧ ∀ w ∈ some (KeyValue.S (text "r")),
        ∃ v ∈ some (KeyValue.S (text "r")), v.BeginsWith w) :=
  ⟨storageKey_order.1 (tieKey (text "aa")).tableKey (tieKey (text "b")).tableKey _ _ _ _ .lt
      rfl rfl rfl rfl rfl rfl,
    storageKey_order.2.1 (tieKey (text "aa")) (tieKey (text "b")) _ _ _ _ _ _ .eq
      rfl rfl rfl rfl rfl rfl rfl rfl, storageKey_order.2.2 (tieKey (text "b"))
      ⟨text "t", text "i", .S (text "h"), some (.S (text "r"))⟩ _ _ _ _
      rfl rfl rfl rfl rfl (by simp)⟩

/-- Ties are **not** broken in the order of the table keys: the table key with range `aa`
comes before the one with range `b`, and its index row after the other one. -/
theorem IndexKey.tie_against_tableKey_order :
    ∃ kb lb kt lt,
      (tieKey (text "aa")).sortedStorageSuffix = .ok kb ∧
      (tieKey (text "b")).sortedStorageSuffix = .ok lb ∧
      (tieKey (text "aa")).tableKey.sortedStorageSuffix = .ok kt ∧
      (tieKey (text "b")).tableKey.sortedStorageSuffix = .ok lt ∧
      (tieKey (text "aa")).parts = (tieKey (text "b")).parts ∧
      List.compareLex compare kt lt = .lt ∧ List.compareLex compare kb lb = .gt :=
  ⟨_, _, _, _, rfl, rfl, rfl, rfl, rfl, by decide, by decide⟩

end AuxStorage
