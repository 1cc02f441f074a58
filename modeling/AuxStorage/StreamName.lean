import AuxStorage.PageToken

/-!
# Stream Names

The names under which the changes of a table and of its items are kept: the name of the table, a
marker, and for an item the texts of its key in frames. A key that is too long is replaced by a
digest of it.

## Main results

* `itemTableName_tableItemStream`: the table of an item stream is read back from its name.
* `streamItemPart_inj`, `framedTexts_inj`: **two items of a table have one stream exactly if their
  keys have the same texts**, unless the digest collides.
-/

namespace AuxStorage

open Framing

/-! ### Names -/

def isSanitizedTableNameByte (byte : UInt8) : Bool :=
  48 ≤ byte.toNat && byte.toNat ≤ 57 || 65 ≤ byte.toNat && byte.toNat ≤ 90
    || 97 ≤ byte.toNat && byte.toNat ≤ 122 || byte = 95 || byte = 46 || byte = 45

/-- `TableName::sanitized_name`, as bytes. -/
def sanitizedName (tableName : Text) : List UInt8 :=
  tableName.bytes.filter isSanitizedTableNameByte

def tableStreamSuffix : List UInt8 := (text "/stream-table").bytes

def itemStreamSegment : List UInt8 := (text "/stream-item/").bytes

/-- The byte that ends the name of the table. -/
def slash : UInt8 := 47

/-- `StreamName::item_table_name`. -/
def streamItemTableName (streamName : List UInt8) : Option Text :=
  let suffix := streamName.dropWhile (· != slash)
  if suffix ≠ [] ∧ itemStreamSegment <+: suffix then
    Text.fromUtf8 (streamName.takeWhile (· != slash))
  else none

def streamItemKeyMaxBytes : ℕ := 1024

def streamItemHashPrefix : List UInt8 := (text "hash/").bytes

/-- The part of a stream name that names the item. The digest is the hyphenated text of a version 5
UUID. -/
def streamItemPart (uuidV5 : List UInt8 → Text) (keyPart : List UInt8) : List UInt8 :=
  if streamItemKeyMaxBytes < keyPart.length then streamItemHashPrefix ++ (uuidV5 keyPart).bytes
  else keyPart

/-- `StreamName::table_item_stream`. -/
def tableItemStream (uuidV5 : List UInt8 → Text) (tableName : Text) (itemKey : ItemKey) :
    Except ItemKeyError (List UInt8) := do
  let keyPart ← itemKey.hashRangeKeyPart
  pure (sanitizedName tableName ++ itemStreamSegment ++ streamItemPart uuidV5 keyPart)

/-! ### What a name tells -/

theorem slash_notMem_sanitizedName (tableName : Text) :
    ∀ byte ∈ sanitizedName tableName, (byte != slash) = true := by
  intro byte hbyte
  have hsanitized := (List.mem_filter.mp hbyte).2
  rw [bne_iff_ne]
  rintro rfl
  exact absurd hsanitized (by decide)

/-- The table of an item stream is read back, where its name needs no sanitizing. -/
theorem itemTableName_tableItemStream {uuidV5 : List UInt8 → Text} {tableName : Text}
    {itemKey : ItemKey} {name : List UInt8} (hname : sanitizedName tableName = tableName.bytes)
    (h : tableItemStream uuidV5 tableName itemKey = .ok name) :
    streamItemTableName name = some tableName := by
  obtain ⟨keyPart, -, h⟩ := Except.bind_eq_ok.mp h
  cases h
  have hsegment : ∃ rest, itemStreamSegment ++ streamItemPart uuidV5 keyPart = slash :: rest :=
    ⟨_, rfl⟩
  obtain ⟨rest, hrest⟩ := hsegment
  have hclean := slash_notMem_sanitizedName tableName
  have hdrop : (sanitizedName tableName ++ (slash :: rest)).dropWhile (· != slash)
      = slash :: rest := by
    rw [List.dropWhile_append_of_pos hclean]
    simp
  have htake : (sanitizedName tableName ++ (slash :: rest)).takeWhile (· != slash)
      = sanitizedName tableName := by
    rw [List.takeWhile_append_of_pos hclean]
    simp
  rw [streamItemTableName, List.append_assoc, hrest]
  simp only [hdrop, htake]
  rw [if_pos ⟨List.cons_ne_nil _ _, hrest ▸ List.prefix_append _ _⟩, hname]
  exact Text.fromUtf8_eq_some.mpr rfl

theorem itemTableName_sample : ∃ name,
    tableItemStream (fun _ => []) (text "t") (.table ⟨[], .S (text "k"), none⟩) = .ok name ∧
      streamItemTableName name = some (text "t") :=
  ⟨_, rfl, itemTableName_tableItemStream (by decide)
    (rfl : tableItemStream (fun _ => []) _ (.table ⟨[], .S (text "k"), none⟩) = _)⟩

/-- A short key part does not look like a digest: it starts with its own length. -/
theorem frame_append_ne_hash {data rest other : List UInt8} (hdata : data.length < 65536)
    (hlength : (frame data ++ rest).length ≤ streamItemKeyMaxBytes) :
    frame data ++ rest ≠ streamItemHashPrefix ++ other := by
  intro heq
  have hbound : data.length ≤ 1024 := by
    simp only [List.length_append, length_frame, streamItemKeyMaxBytes] at hlength
    omega
  -- The first byte of the frame would be the letter `h`.
  have hfirst : UInt8.ofNat (data.length / 256) = 104 := (List.cons.inj heq).1
  have hvalue := (toNat_be16 hdata).1
  rw [hfirst, show (104 : UInt8).toNat = 104 from rfl] at hvalue
  omega

section Inj

variable {uuidV5 : List UInt8 → Text} {x y : List UInt8}

/-- The parts of two names are equal only for equal key parts, where the digest does not collide. -/
theorem streamItemPart_inj (hx : ∃ data rest, data.length < 65536 ∧ x = frame data ++ rest)
    (hy : ∃ data rest, data.length < 65536 ∧ y = frame data ++ rest)
    (hfree : uuidV5 x = uuidV5 y → x = y) :
    streamItemPart uuidV5 x = streamItemPart uuidV5 y ↔ x = y := by
  refine ⟨fun h => ?_, fun h => by rw [h]⟩
  obtain ⟨dx, rx, hdx, hxeq⟩ := hx
  obtain ⟨dy, ry, hdy, hyeq⟩ := hy
  unfold streamItemPart at h
  split_ifs at h with hlx hly hly
  · exact hfree (Text.bytes_injective (List.append_cancel_left h))
  · exact absurd h.symm (hyeq ▸ frame_append_ne_hash hdy (hyeq ▸ not_lt.mp hly))
  · exact absurd h (hxeq ▸ frame_append_ne_hash hdx (hxeq ▸ not_lt.mp hlx))
  · exact h

end Inj

/-- The key part of a table key with these texts. -/
def framedTexts (hash : Text) (range : Option Text) : List UInt8 :=
  frame hash.bytes ++ (range.map fun text => frame text.bytes).getD []

/-- A text that fits a frame. -/
def FitsFrame (text : Text) : Prop := text.bytes.length < 65536

theorem hashRangeKeyPart_table {key : TableKey} {hash : Text} {range : Option Text}
    (hhash : key.hashKey.innerStr = some hash)
    (hrange : key.rangeKey.map AttributeValue.innerStr = range.map some)
    (hfitsHash : FitsFrame hash) (hfitsRange : ∀ text ∈ range, FitsFrame text) :
    (ItemKey.table key).hashRangeKeyPart = .ok (framedTexts hash range) := by
  rw [ItemKey.hashRangeKeyPart, hashRangeKeyPartForValues, tokenPart_eq_ok hhash hfitsHash]
  cases hkey : key.rangeKey with
  | none =>
    obtain rfl : range = none := by simpa [hkey] using hrange.symm
    simp [framedTexts, bind, Except.bind, pure, Except.pure]
  | some value =>
    obtain ⟨text, rfl, htext⟩ : ∃ text, range = some text ∧ value.innerStr = some text := by
      cases range with
      | none => simp [hkey] at hrange
      | some text => exact ⟨text, rfl, by simpa [hkey] using hrange⟩
    have hpart := tokenPart_eq_ok htext (hfitsRange text rfl)
    simp [framedTexts, bind, Except.bind, pure, Except.pure, hpart]

theorem framedTexts_inj {hash hash' : Text} {range range' : Option Text}
    (hfits : FitsFrame hash) (hfits' : FitsFrame hash') (hrange : ∀ text ∈ range, FitsFrame text)
    (hrange' : ∀ text ∈ range', FitsFrame text) :
    framedTexts hash range = framedTexts hash' range' ↔ hash = hash' ∧ range = range' := by
  refine ⟨fun h => ?_, fun ⟨h, h'⟩ => by rw [h, h']⟩
  obtain ⟨hbytes, htail⟩ := (frame_append_inj hfits hfits').mp h
  refine ⟨Text.bytes_injective hbytes, ?_⟩
  cases range with
  | none =>
    cases range' with
    | none => rfl
    | some text => exact absurd htail.symm (frame_ne_nil _)
  | some text =>
    cases range' with
    | none => exact absurd htail (frame_ne_nil _)
    | some text' =>
      have hframes : frame text.bytes ++ [] = frame text'.bytes ++ [] := by
        simpa using htail
      obtain ⟨heq, -⟩ := (frame_append_inj (hrange text rfl) (hrange' text' rfl)).mp hframes
      rw [Text.bytes_injective heq]

end AuxStorage
