/-
Writing a GGUF file, and reading it back (`xabe-gguf/src/file.rs`).

`serialize` is the layout the source documents, version 3, little-endian.  Each
piece of it spells what it was written from, so the whole does
(`readParsed_spells`).

* `parse_inverts_serialize`: a well-formed document is read back as it was, a cut
  file is refused, and no array is read off fewer bytes than it has elements.
-/
import Llmxabe.Gguf.File

namespace Gguf

open Wire

/-! ### Writing -/

/-- The bytes of a string, behind their count. -/
def stringWord (s : String) : List UInt8 := leBytes 8 s.utf8ByteSize ++ s.toUTF8.data.toList

namespace GgufArray

/-- The tag of the elements. -/
def tag : GgufArray → ℕ
  | u8 _ => 0
  | i8 _ => 1
  | u16 _ => 2
  | i16 _ => 3
  | u32 _ => 4
  | i32 _ => 5
  | f32 _ => 6
  | bool _ => 7
  | string _ => 8
  | u64 _ => 10
  | i64 _ => 11
  | f64 _ => 12

theorem tag_lt (v : GgufArray) : v.tag < 2 ^ 32 := by
  cases v <;> simp [tag]

/-- How many elements there are. -/
def length : GgufArray → ℕ
  | u8 v => v.length
  | i8 v => v.length
  | u16 v => v.length
  | i16 v => v.length
  | u32 v => v.length
  | i32 v => v.length
  | f32 v => v.length
  | bool v => v.length
  | string v => v.length
  | u64 v => v.length
  | i64 v => v.length
  | f64 v => v.length

/-- The elements as they are written, one behind the other. -/
def elements : GgufArray → List UInt8
  | u8 v => v.flatMap fun a => leBytes 1 a.toNat
  | i8 v => v.flatMap fun a => leBytes 1 a.toUInt8.toNat
  | u16 v => v.flatMap fun a => leBytes 2 a.toNat
  | i16 v => v.flatMap fun a => leBytes 2 a.toUInt16.toNat
  | u32 v => v.flatMap fun a => leBytes 4 a.toNat
  | i32 v => v.flatMap fun a => leBytes 4 a.toUInt32.toNat
  | f32 v => v.flatMap fun a => leBytes 4 a.toNat
  | bool v => v.flatMap fun a => leBytes 1 a.toNat
  | string v => v.flatMap stringWord
  | u64 v => v.flatMap fun a => leBytes 8 a.toNat
  | i64 v => v.flatMap fun a => leBytes 8 a.toUInt64.toNat
  | f64 v => v.flatMap fun a => leBytes 8 a.toNat

/-- The lengths fit the counts they are written in. -/
def Sized (a : GgufArray) : Prop :=
  a.length < 2 ^ 64 ∧ ∀ v, a = string v → ∀ s ∈ v, s.utf8ByteSize < 2 ^ 64

end GgufArray

namespace GgufValue

/-- The tag of the value. -/
def tag : GgufValue → ℕ
  | u8 _ => 0
  | i8 _ => 1
  | u16 _ => 2
  | i16 _ => 3
  | u32 _ => 4
  | i32 _ => 5
  | f32 _ => 6
  | bool _ => 7
  | string _ => 8
  | array _ => 9
  | u64 _ => 10
  | i64 _ => 11
  | f64 _ => 12

theorem tag_lt (v : GgufValue) : v.tag < 2 ^ 32 := by
  cases v <;> simp [tag]

/-- A value without its tag. -/
def payload : GgufValue → List UInt8
  | u8 v => leBytes 1 v.toNat
  | i8 v => leBytes 1 v.toUInt8.toNat
  | u16 v => leBytes 2 v.toNat
  | i16 v => leBytes 2 v.toUInt16.toNat
  | u32 v => leBytes 4 v.toNat
  | i32 v => leBytes 4 v.toUInt32.toNat
  | f32 v => leBytes 4 v.toNat
  | bool v => leBytes 1 v.toNat
  | string v => stringWord v
  | array v => leBytes 4 v.tag ++ (leBytes 8 v.length ++ v.elements)
  | u64 v => leBytes 8 v.toNat
  | i64 v => leBytes 8 v.toUInt64.toNat
  | f64 v => leBytes 8 v.toNat

/-- A value behind its tag. -/
def word (v : GgufValue) : List UInt8 := leBytes 4 v.tag ++ v.payload

/-- The lengths fit the counts they are written in. -/
def Sized : GgufValue → Prop
  | string s => s.utf8ByteSize < 2 ^ 64
  | array a => a.Sized
  | _ => True

end GgufValue

/-- A key and its value. -/
def entryWord (entry : String × GgufValue) : List UInt8 := stringWord entry.1 ++ entry.2.word

/-- A type, by its id. -/
def GgmlType.word (ty : GgmlType) : List UInt8 := leBytes 4 ty.id.toNat

/-- One dimension. -/
def dimWord (d : UInt64) : List UInt8 := leBytes 8 d.toNat

/-- A tensor as the directory lists it. -/
def TensorInfo.word (t : TensorInfo) : List UInt8 :=
  stringWord t.name ++ (leBytes 4 t.dims.length ++ t.dims.flatMap dimWord ++
    (t.ggmlType.word ++ leBytes 8 t.offset.toNat))

/-- The header with its two counts. -/
def headerWord (nTensors nKv : ℕ) : List UInt8 :=
  magic ++ (leBytes 4 GGUF_VERSION.toNat ++ (leBytes 8 nTensors ++ leBytes 8 nKv))

/-- Header, metadata and directory. -/
def serialize (metadata : Metadata) (tensors : List TensorInfo) : List UInt8 :=
  headerWord tensors.length metadata.length ++
    (metadata.flatMap entryWord ++ tensors.flatMap TensorInfo.word)

/-! ### What each piece spells -/

namespace Reader

theorem take_spells (w : List UInt8) (context : String) : Spells (take w.length context) w w :=
  Spells.take _ w context

theorem fixed_spells {α : Type} (width : ℕ) (context : String) (ofNat : ℕ → α) {n : ℕ}
    (h : n < 256 ^ width) : Spells (fixed width context ofNat) (ofNat n) (leBytes width n) := by
  have htake := take_spells (leBytes width n) context
  rw [leBytes_length] at htake
  have h' := htake.map fun bytes => ofNat (leValue bytes)
  rwa [leValue_leBytes h] at h'

theorem u8_spells (v : UInt8) : Spells u8 v (leBytes 1 v.toNat) := by
  have h := fixed_spells 1 "u8" UInt8.ofNat v.toNat_lt
  rwa [UInt8.ofNat_toNat] at h

theorem i8_spells (v : Int8) : Spells i8 v (leBytes 1 v.toUInt8.toNat) := by
  have h := fixed_spells 1 "i8" (fun n => (UInt8.ofNat n).toInt8) v.toUInt8.toNat_lt
  rwa [UInt8.ofNat_toNat] at h

theorem u16_spells (v : UInt16) : Spells u16 v (leBytes 2 v.toNat) := by
  have h := fixed_spells 2 "u16" UInt16.ofNat v.toNat_lt
  rwa [UInt16.ofNat_toNat] at h

theorem i16_spells (v : Int16) : Spells i16 v (leBytes 2 v.toUInt16.toNat) := by
  have h := fixed_spells 2 "i16" (fun n => (UInt16.ofNat n).toInt16) v.toUInt16.toNat_lt
  rwa [UInt16.ofNat_toNat] at h

theorem u32_spells (v : UInt32) : Spells u32 v (leBytes 4 v.toNat) := by
  have h := fixed_spells 4 "u32" UInt32.ofNat v.toNat_lt
  rwa [UInt32.ofNat_toNat] at h

theorem i32_spells (v : Int32) : Spells i32 v (leBytes 4 v.toUInt32.toNat) := by
  have h := fixed_spells 4 "i32" (fun n => (UInt32.ofNat n).toInt32) v.toUInt32.toNat_lt
  rwa [UInt32.ofNat_toNat] at h

theorem u64_spells (v : UInt64) : Spells u64 v (leBytes 8 v.toNat) := by
  have h := fixed_spells 8 "u64" UInt64.ofNat v.toNat_lt
  rwa [UInt64.ofNat_toNat] at h

theorem i64_spells (v : Int64) : Spells i64 v (leBytes 8 v.toUInt64.toNat) := by
  have h := fixed_spells 8 "i64" (fun n => (UInt64.ofNat n).toInt64) v.toUInt64.toNat_lt
  rwa [UInt64.ofNat_toNat] at h

theorem f32_spells (v : UInt32) : Spells f32 v (leBytes 4 v.toNat) := by
  have h := fixed_spells 4 "f32" UInt32.ofNat v.toNat_lt
  rwa [UInt32.ofNat_toNat] at h

theorem f64_spells (v : UInt64) : Spells f64 v (leBytes 8 v.toNat) := by
  have h := fixed_spells 8 "f64" UInt64.ofNat v.toNat_lt
  rwa [UInt64.ofNat_toNat] at h

theorem bool_spells (v : Bool) : Spells bool v (leBytes 1 v.toNat) := by
  cases v
  · exact (i8_spells 0).map fun b => b != 0
  · exact (i8_spells 1).map fun b => b != 0

theorem fromUTF8?_toUTF8 (s : String) : String.fromUTF8? ⟨s.toUTF8.data.toList.toArray⟩ = some s := by
  rw [Array.toArray_toList]
  exact dif_pos s.isValidUTF8

/-- A count below the width it is written in. -/
theorem count_spells {n : ℕ} (h : n < 2 ^ 64) : Spells u64 (UInt64.ofNat n) (leBytes 8 n) :=
  fixed_spells 8 "u64" UInt64.ofNat h

theorem string_spells {s : String} (h : s.utf8ByteSize < 2 ^ 64) :
    Spells string s (stringWord s) := by
  have hlength : (UInt64.ofNat s.utf8ByteSize).toNat = s.toUTF8.data.toList.length := by
    rw [UInt64.toNat_ofNat_of_lt' h]
    rfl
  refine (count_spells h).bind ?_
  rw [hlength]
  refine (take_spells s.toUTF8.data.toList "string bytes").ends ?_
  rw [fromUTF8?_toUTF8]

/-- An array whose elements are spelled by their words. -/
theorem arrayOf_spells {α : Type} {read : Reader α} {word : α → List UInt8} {v : List α}
    (variant : List α → GgufArray) (hlength : v.length < 2 ^ 64)
    (hread : ∀ a ∈ v, Spells read a (word a)) :
    Spells (arrayOf (UInt64.ofNat v.length) read variant) (.array (variant v)) (v.flatMap word) := by
  refine Spells.map ?_ fun v => GgufValue.array (variant v)
  rw [UInt64.toNat_ofNat_of_lt' hlength]
  refine Spells.iterate id fun done a rest hv => ?_
  have ha : a ∈ v := by
    rw [hv]
    exact List.mem_append_right done List.mem_cons_self
  exact (hread a ha).map fun a => done ++ [a]

/-- The elements of an array, under the tag of their type. -/
theorem array_spells {v : GgufArray} (h : v.Sized) :
    Spells (array (UInt32.ofNat v.tag).toInt32 (UInt64.ofNat v.length)) (.array v) v.elements := by
  obtain ⟨hlength, hstrings⟩ := h
  cases v with
  | u8 v => exact arrayOf_spells .u8 hlength fun a _ => u8_spells a
  | i8 v => exact arrayOf_spells .i8 hlength fun a _ => i8_spells a
  | u16 v => exact arrayOf_spells .u16 hlength fun a _ => u16_spells a
  | i16 v => exact arrayOf_spells .i16 hlength fun a _ => i16_spells a
  | u32 v => exact arrayOf_spells .u32 hlength fun a _ => u32_spells a
  | i32 v => exact arrayOf_spells .i32 hlength fun a _ => i32_spells a
  | f32 v => exact arrayOf_spells .f32 hlength fun a _ => f32_spells a
  | bool v => exact arrayOf_spells .bool hlength fun a _ => bool_spells a
  | string v => exact arrayOf_spells .string hlength fun a ha => string_spells (hstrings v rfl a ha)
  | u64 v => exact arrayOf_spells .u64 hlength fun a _ => u64_spells a
  | i64 v => exact arrayOf_spells .i64 hlength fun a _ => i64_spells a
  | f64 v => exact arrayOf_spells .f64 hlength fun a _ => f64_spells a

/-- A tag that fits its four bytes. -/
theorem tag_spells {n : ℕ} (h : n < 2 ^ 32) :
    Spells i32 (UInt32.ofNat n).toInt32 (leBytes 4 n) :=
  fixed_spells 4 "i32" (fun n => (UInt32.ofNat n).toInt32) h

theorem typedValue_spells {v : GgufValue} (h : v.Sized) :
    Spells (typedValue (UInt32.ofNat v.tag).toInt32) v v.payload := by
  cases v with
  | u8 v => exact (u8_spells v).map GgufValue.u8
  | i8 v => exact (i8_spells v).map GgufValue.i8
  | u16 v => exact (u16_spells v).map GgufValue.u16
  | i16 v => exact (i16_spells v).map GgufValue.i16
  | u32 v => exact (u32_spells v).map GgufValue.u32
  | i32 v => exact (i32_spells v).map GgufValue.i32
  | f32 v => exact (f32_spells v).map GgufValue.f32
  | bool v => exact (bool_spells v).map GgufValue.bool
  | string v => exact (string_spells h).map GgufValue.string
  | array v =>
    exact (tag_spells v.tag_lt).bind ((count_spells h.1).bind (array_spells h))
  | u64 v => exact (u64_spells v).map GgufValue.u64
  | i64 v => exact (i64_spells v).map GgufValue.i64
  | f64 v => exact (f64_spells v).map GgufValue.f64

theorem value_spells {v : GgufValue} (h : v.Sized) : Spells value v v.word := by
  exact (tag_spells v.tag_lt).bind (typedValue_spells h)

end Reader

open Reader

theorem readEntry_spells {metadata : Metadata} {entry : String × GgufValue}
    (hkey : entry.1.utf8ByteSize < 2 ^ 64) (hvalue : entry.2.Sized)
    (hfresh : entry.1 ∉ metadata.map Prod.fst) :
    Spells (readEntry metadata) (metadata ++ [entry]) (entryWord entry) := by
  refine (string_spells hkey).bind ?_
  refine (value_spells hvalue).ends ?_
  rw [if_neg hfresh]

theorem toInt64_ofNat {n : ℕ} (h : n < 2 ^ 63) : (UInt64.ofNat n).toInt64.toInt = n := by
  have hnat : (UInt64.ofNat n).toNat = n := UInt64.toNat_ofNat_of_lt' (show n < 2 ^ 64 by omega)
  have hbits : (UInt64.ofNat n).toBitVec.toNat = n := hnat
  show (UInt64.ofNat n).toBitVec.toInt = n
  rw [BitVec.toInt_eq_toNat_of_lt (by omega), hbits]

theorem readCount_spells (field : String) {n : ℕ} (h : n < 2 ^ 63) :
    Spells (readCount field) (UInt64.ofNat n).toInt64 (leBytes 8 n) := by
  have hnonneg : ¬(UInt64.ofNat n).toInt64 < 0 := by
    rw [Int64.lt_iff_toInt_lt, toInt64_ofNat h]
    simp
  refine (fixed_spells 8 "i64" (fun n => (UInt64.ofNat n).toInt64) (by omega)).ends ?_
  rw [if_neg hnonneg]

theorem readHeader_spells {nTensors nKv : ℕ} (htensors : nTensors < 2 ^ 63) (hkv : nKv < 2 ^ 63) :
    Spells readHeader ((UInt64.ofNat nTensors).toInt64, (UInt64.ofNat nKv).toInt64)
      (headerWord nTensors nKv) := by
  refine (take_spells magic "magic").bind ?_
  rw [if_neg (not_not_intro rfl)]
  refine (u32_spells GGUF_VERSION).bind ?_
  rw [if_neg (not_not_intro rfl)]
  exact (readCount_spells "tensor" htensors).bind ((readCount_spells "kv" hkv).map (Prod.mk _))

theorem readDim_spells (name : String) (dims : List UInt64) {d : UInt64} (hpos : 0 < d.toNat)
    (hlt : d.toNat < 2 ^ 63) : Spells (readDim name dims) (dims ++ [d]) (dimWord d) := by
  have hd : d.toInt64.toInt = d.toNat := by
    rw [← toInt64_ofNat hlt, UInt64.ofNat_toNat]
  have hnot : ¬d.toInt64 ≤ 0 := by
    rw [Int64.le_iff_toInt_le, hd]
    simp
    omega
  refine Spells.ends (a := d.toInt64) ?_ ?_
  · have h := i64_spells d.toInt64
    rwa [UInt64.toUInt64_toInt64] at h
  · rw [if_neg hnot]
    simp

theorem readDims_spells (name : String) {dims : List UInt64} (hlength : dims.length ≤ 4)
    (hdims : ∀ d ∈ dims, 0 < d.toNat ∧ d.toNat < 2 ^ 63) :
    Spells (readDims name) dims (leBytes 4 dims.length ++ dims.flatMap dimWord) := by
  have hcount : (UInt32.ofNat dims.length).toNat = dims.length :=
    UInt32.toNat_ofNat_of_lt' (show dims.length < 2 ^ 32 by omega)
  have hfew : ¬4 < UInt32.ofNat dims.length := by
    rw [UInt32.lt_iff_toNat_lt, hcount]
    exact Nat.not_lt.mpr hlength
  refine (fixed_spells 4 "u32" UInt32.ofNat (show dims.length < 256 ^ 4 by omega)).bind ?_
  rw [if_neg hfew, hcount]
  refine Spells.iterate id fun done d rest hsplit => ?_
  have hd : d ∈ dims := by
    rw [hsplit]
    exact List.mem_append_right done List.mem_cons_self
  exact readDim_spells name done (hdims d hd).1 (hdims d hd).2

theorem readType_spells (ty : GgmlType) : Spells readType ty ty.word := by
  cases ty <;> exact (tag_spells (by decide)).ends rfl

/-- A directory entry as a parser leaves it: its sizes are those computed. -/
structure TensorInfo.Written (t : TensorInfo) : Prop where
  name : t.name.utf8ByteSize < 2 ^ 64
  rank : t.dims.length ≤ 4
  dims : ∀ d ∈ t.dims, 0 < d.toNat ∧ d.toNat < 2 ^ 63
  elements : t.nElements = t.dims.foldl (· * ·) 1
  bytes : t.ggmlType.bytesForElements t.nElements = some t.nBytes

theorem readTensor_spells {tensors : List TensorInfo} {t : TensorInfo} (h : t.Written)
    (hfresh : t.name ∉ tensors.map TensorInfo.name) :
    Spells (readTensor tensors) (tensors ++ [t]) t.word := by
  refine (string_spells h.name).bind ?_
  rw [if_neg hfresh]
  refine (readDims_spells t.name h.rank h.dims).bind ?_
  refine (readType_spells t.ggmlType).bind ?_
  refine (u64_spells t.offset).ends ?_
  dsimp only
  rw [← h.elements, h.bytes]

/-- A document whose pieces fit their counts and whose names are distinct. -/
structure Writable (metadata : Metadata) (tensors : List TensorInfo) : Prop where
  counts : metadata.length < 2 ^ 63 ∧ tensors.length < 2 ^ 63
  keys : ∀ entry ∈ metadata, entry.1.utf8ByteSize < 2 ^ 64
  values : ∀ entry ∈ metadata, entry.2.Sized
  keys_nodup : (metadata.map Prod.fst).Nodup
  names_nodup : (tensors.map TensorInfo.name).Nodup
  tensors : ∀ t ∈ tensors, t.Written

theorem not_mem_of_nodup {α β : Type} {f : α → β} {l done rest : List α} {a : α}
    (h : (l.map f).Nodup) (hl : l = done ++ a :: rest) : f a ∉ done.map f := by
  rw [hl, List.map_append, List.map_cons] at h
  intro hmem
  exact (List.nodup_append.mp h).2.2 _ hmem _ List.mem_cons_self rfl

theorem entries_spells {metadata : Metadata} (hkeys : ∀ entry ∈ metadata, entry.1.utf8ByteSize < 2 ^ 64)
    (hvalues : ∀ entry ∈ metadata, entry.2.Sized) (hnodup : (metadata.map Prod.fst).Nodup) :
    Spells (iterate metadata.length readEntry []) metadata (metadata.flatMap entryWord) := by
  refine Spells.iterate id fun done entry rest hsplit => ?_
  have hmem : entry ∈ metadata := by
    rw [hsplit]
    exact List.mem_append_right done List.mem_cons_self
  exact readEntry_spells (hkeys entry hmem) (hvalues entry hmem) (not_mem_of_nodup hnodup hsplit)

theorem readDirectory_spells {metadata : Metadata} {tensors : List TensorInfo} {alignment : UInt32}
    (h : Writable metadata tensors) (halignment : alignmentOf metadata = .ok alignment) :
    Spells readDirectory (alignment, metadata, tensors) (serialize metadata tensors) := by
  obtain ⟨⟨hkv, htensors⟩, hkeys, hvalues, hkeysNodup, hnamesNodup, hwritten⟩ := h
  refine (readHeader_spells htensors hkv).bind ?_
  dsimp only
  rw [toInt64_ofNat hkv, toInt64_ofNat htensors, Int.toNat_natCast, Int.toNat_natCast]
  have hdirectory : Spells (iterate tensors.length readTensor []) tensors
      (tensors.flatMap TensorInfo.word) := by
    refine Spells.iterate id fun done t rest hsplit => ?_
    have hmem : t ∈ tensors := by
      rw [hsplit]
      exact List.mem_append_right done List.mem_cons_self
    exact readTensor_spells (hwritten t hmem) (not_mem_of_nodup hnamesNodup hsplit)
  refine (entries_spells hkeys hvalues hkeysNodup).bind ?_
  rw [halignment]
  exact hdirectory.map fun tensors => (alignment, metadata, tensors)

/-- A document is read back, whatever stands behind it. -/
theorem parse_serialize {metadata : Metadata} {tensors : List TensorInfo} {alignment : UInt32}
    (h : Writable metadata tensors) (halignment : alignmentOf metadata = .ok alignment)
    (after : List UInt8) :
    parse (serialize metadata tensors ++ after) =
      .ok ⟨GGUF_VERSION, alignment, metadata, tensors,
        alignUp (UInt64.ofNat (serialize metadata tensors).length) alignment.toUInt64⟩ := by
  have hread := (readDirectory_spells h halignment).reads [] after
  rw [List.nil_append, List.length_nil, Nat.zero_add] at hread
  have hbind : readParsed ⟨serialize metadata tensors ++ after, 0⟩ =
      readDirectory ⟨serialize metadata tensors ++ after, 0⟩ >>= fun r =>
        .ok (⟨GGUF_VERSION, r.1.1, r.1.2.1, r.1.2.2,
          alignUp (UInt64.ofNat r.2.pos) r.1.1.toUInt64⟩, r.2) := rfl
  rw [parse, hbind, hread]
  rfl

/-- A cut document is not. -/
theorem parse_cut {metadata : Metadata} {tensors : List TensorInfo} {alignment : UInt32}
    (h : Writable metadata tensors) (halignment : alignmentOf metadata = .ok alignment)
    {cut rest : List UInt8} (hcut : cut ++ rest = serialize metadata tensors) (hrest : rest ≠ []) :
    ∃ e, parse cut = .error e := by
  obtain ⟨e, he⟩ := (readDirectory_spells h halignment).refuses [] cut rest hcut hrest
  rw [List.nil_append, List.length_nil] at he
  refine ⟨e, ?_⟩
  have hbind : readParsed ⟨cut, 0⟩ = readDirectory ⟨cut, 0⟩ >>= fun r =>
      .ok (⟨GGUF_VERSION, r.1.1, r.1.2.1, r.1.2.2,
        alignUp (UInt64.ofNat r.2.pos) r.1.1.toUInt64⟩, r.2) := rfl
  rw [parse, hbind, he]
  rfl

/-! ### Arrays of arrays -/

/-- An entry that holds an array of arrays, as far as the count of these. -/
def nestedWord (key : String) (count : UInt64) : List UInt8 :=
  stringWord key ++ (leBytes 4 9 ++ (leBytes 4 9 ++ leBytes 8 count.toNat))

theorem readEntry_rejects (metadata : Metadata) {key : String} (hkey : key.utf8ByteSize < 2 ^ 64)
    (count : UInt64) : Rejects (readEntry metadata) (nestedWord key count) .nestedArray := by
  have hcount : Rejects (Reader.u64 >>= Reader.array 9) (leBytes 8 count.toNat) .nestedArray := by
    have hrefused : Rejects (Reader.array 9 count) [] .nestedArray := Rejects.fail GgufError.nestedArray
    have hread := (u64_spells count).rejects hrefused
    rwa [List.append_nil] at hread
  have htag := tag_spells (by decide : 9 < 2 ^ 32)
  have hvalue : Rejects Reader.value (leBytes 4 9 ++ (leBytes 4 9 ++ leBytes 8 count.toNat))
      .nestedArray := htag.rejects (htag.rejects hcount)
  exact (string_spells hkey).rejects (hvalue.bind _)

/-- An array of arrays is refused wherever it stands among the metadata, and whatever it holds. -/
theorem parse_nested {metadata : Metadata} {nTensors nKv : ℕ}
    (hkeys : ∀ entry ∈ metadata, entry.1.utf8ByteSize < 2 ^ 64)
    (hvalues : ∀ entry ∈ metadata, entry.2.Sized) (hnodup : (metadata.map Prod.fst).Nodup)
    (htensors : nTensors < 2 ^ 63) (hless : metadata.length < nKv) (hkv : nKv < 2 ^ 63)
    {key : String} (hkey : key.utf8ByteSize < 2 ^ 64) (count : UInt64) (after : List UInt8) :
    parse (headerWord nTensors nKv ++ (metadata.flatMap entryWord ++ (nestedWord key count ++ after))) =
      .error .nestedArray := by
  obtain ⟨more, rfl⟩ : ∃ more, nKv = metadata.length + (more + 1) := ⟨nKv - metadata.length - 1, by omega⟩
  have hentries : Rejects (iterate (metadata.length + (more + 1)) readEntry [])
      (metadata.flatMap entryWord ++ nestedWord key count) .nestedArray := by
    rw [iterate_add]
    exact (entries_spells hkeys hvalues hnodup).rejects
      ((readEntry_rejects metadata hkey count).bind (iterate more readEntry))
  have hcounted : ((UInt64.ofNat (metadata.length + (more + 1))).toInt64.toInt).toNat =
      metadata.length + (more + 1) := by
    rw [toInt64_ofNat hkv, Int.toNat_natCast]
  have hparsed : Rejects readParsed (headerWord nTensors (metadata.length + (more + 1)) ++
      (metadata.flatMap entryWord ++ nestedWord key count)) .nestedArray := by
    refine Rejects.bind ((readHeader_spells htensors hkv).rejects ?_) _
    dsimp only
    rw [hcounted]
    exact hentries.bind _
  have hread := hparsed [] after
  rw [List.nil_append, List.length_nil, List.append_assoc, List.append_assoc] at hread
  rw [parse, hread]
  rfl

/-! ### What is taken -/

namespace Reader

theorem take_takes (n : ℕ) (context : String) : Takes (take n context) n := Takes.take _ n context

theorem fixed_takes {α : Type} (width : ℕ) (context : String) (ofNat : ℕ → α) :
    Takes (fixed width context ofNat) width :=
  (take_takes width context).map fun bytes => ofNat (leValue bytes)

theorem bool_takes : Takes bool 1 := (fixed_takes 1 "i8" _).map fun b => b != 0

theorem string_takes : Takes string 1 := by
  have htake : ∀ n : ℕ, Takes (take n "string bytes") 0 :=
    fun n => (take_takes n _).mono (Nat.zero_le n)
  have hread : Takes string (8 + (0 + 0)) := by
    refine (fixed_takes 8 "u64" UInt64.ofNat).bind fun len => (htake len.toNat).bind fun bytes => ?_
    split
    · exact Takes.pure _
    · exact Takes.fail _ 0
  exact hread.mono (by decide)

theorem arrayOf_takes {α : Type} {read : Reader α} (hread : Takes read 1) (n : UInt64)
    (variant : List α → GgufArray) : Takes (arrayOf n read variant) n.toNat := by
  have hloop := Takes.iterate (fun v : List α => hread.map fun a => v ++ [a]) n.toNat []
  rw [Nat.mul_one] at hloop
  exact hloop.map fun v => GgufValue.array (variant v)

/-- An array with more elements than there are bytes reads as one that has one more. -/
theorem arrayOf_long {α : Type} {read : Reader α} (hread : Takes read 1)
    (variant : List α → GgufArray) {n m : UInt64} {c : Cursor} (hpos : c.pos ≤ c.data.length)
    (hn : c.remaining < n.toNat) (hm : c.remaining < m.toNat) :
    arrayOf n read variant c = arrayOf m read variant c := by
  have hloop := iterate_long (fun v : List α => hread.map fun a => v ++ [a]) (s := []) hpos hn hm
  show iterate _ _ _ c >>= _ = iterate _ _ _ c >>= _
  rw [hloop]

theorem u8_takes : Takes u8 1 := fixed_takes 1 "u8" _
theorem i8_takes : Takes i8 1 := fixed_takes 1 "i8" _
theorem u16_takes : Takes u16 1 := (fixed_takes 2 "u16" _).mono (by decide)
theorem i16_takes : Takes i16 1 := (fixed_takes 2 "i16" _).mono (by decide)
theorem u32_takes : Takes u32 1 := (fixed_takes 4 "u32" _).mono (by decide)
theorem i32_takes : Takes i32 1 := (fixed_takes 4 "i32" _).mono (by decide)
theorem u64_takes : Takes u64 1 := (fixed_takes 8 "u64" _).mono (by decide)
theorem i64_takes : Takes i64 1 := (fixed_takes 8 "i64" _).mono (by decide)
theorem f32_takes : Takes f32 1 := (fixed_takes 4 "f32" _).mono (by decide)
theorem f64_takes : Takes f64 1 := (fixed_takes 8 "f64" _).mono (by decide)

/-- An array read is one of the twelve, over a reader that takes bytes, or refused. -/
theorem array_cases (elemTag : Int32) :
    (∃ (α : Type) (read : Reader α) (variant : List α → GgufArray), Takes read 1 ∧
      (∀ v, (variant v).length = v.length) ∧ ∀ n, array elemTag n = arrayOf n read variant) ∨
      ∃ e, ∀ n, array elemTag n = Wire.fail e := by
  unfold array
  split
  · exact .inl ⟨_, _, _, u8_takes, fun _ => rfl, fun _ => rfl⟩
  · exact .inl ⟨_, _, _, i8_takes, fun _ => rfl, fun _ => rfl⟩
  · exact .inl ⟨_, _, _, u16_takes, fun _ => rfl, fun _ => rfl⟩
  · exact .inl ⟨_, _, _, i16_takes, fun _ => rfl, fun _ => rfl⟩
  · exact .inl ⟨_, _, _, u32_takes, fun _ => rfl, fun _ => rfl⟩
  · exact .inl ⟨_, _, _, i32_takes, fun _ => rfl, fun _ => rfl⟩
  · exact .inl ⟨_, _, _, f32_takes, fun _ => rfl, fun _ => rfl⟩
  · exact .inl ⟨_, _, _, bool_takes, fun _ => rfl, fun _ => rfl⟩
  · exact .inl ⟨_, _, _, string_takes, fun _ => rfl, fun _ => rfl⟩
  · exact .inr ⟨_, fun _ => rfl⟩
  · exact .inl ⟨_, _, _, u64_takes, fun _ => rfl, fun _ => rfl⟩
  · exact .inl ⟨_, _, _, i64_takes, fun _ => rfl, fun _ => rfl⟩
  · exact .inl ⟨_, _, _, f64_takes, fun _ => rfl, fun _ => rfl⟩
  · exact .inr ⟨_, fun _ => rfl⟩

end Reader

/-- The elements of an array; other values have none. -/
def GgufValue.accepted : GgufValue → ℕ
  | .array v => v.length
  | _ => 0

namespace Reader

/-- An array is read off at least one byte for each of its elements. -/
theorem array_takes {elemTag : Int32} {n : UInt64} {c c' : Cursor} {v : GgufValue}
    (h : array elemTag n c = .ok (v, c')) :
    v.accepted = n.toNat ∧ c'.data = c.data ∧ c.pos + v.accepted ≤ c'.pos ∧
      (c.pos ≤ c.data.length → c'.pos ≤ c.data.length) := by
  rcases array_cases elemTag with ⟨α, read, variant, hread, hlength, hall⟩ | ⟨e, hall⟩
  · rw [hall] at h
    obtain ⟨hdata, hpos, hend⟩ := arrayOf_takes hread n variant c v c' h
    obtain ⟨⟨items, c₁⟩, hloop, hdone⟩ := Except.bind_eq_ok_iff.mp h
    cases hdone
    have hcount : (GgufValue.array (variant items)).accepted = n.toNat := by
      show (variant items).length = n.toNat
      rw [hlength, iterate_push_length hloop]
      exact Nat.zero_add _
    exact ⟨hcount, hdata, by rwa [hcount], hend⟩
  · rw [hall] at h
    cases h

/-- A value is of a scalar kind, an array, or refused. -/
theorem typedValue_cases (typeTag : Int32) :
    (∃ (α : Type) (read : Reader α) (variant : α → GgufValue), Takes read 1 ∧
      (∀ v, (variant v).accepted = 0) ∧ typedValue typeTag = scalar read variant) ∨
      (typedValue typeTag = i32 >>= fun elemTag => u64 >>= fun n => array elemTag n) ∨
        ∃ e, typedValue typeTag = Wire.fail e := by
  unfold typedValue
  split
  · exact .inl ⟨_, _, _, u8_takes, fun _ => rfl, rfl⟩
  · exact .inl ⟨_, _, _, i8_takes, fun _ => rfl, rfl⟩
  · exact .inl ⟨_, _, _, u16_takes, fun _ => rfl, rfl⟩
  · exact .inl ⟨_, _, _, i16_takes, fun _ => rfl, rfl⟩
  · exact .inl ⟨_, _, _, u32_takes, fun _ => rfl, rfl⟩
  · exact .inl ⟨_, _, _, i32_takes, fun _ => rfl, rfl⟩
  · exact .inl ⟨_, _, _, f32_takes, fun _ => rfl, rfl⟩
  · exact .inl ⟨_, _, _, bool_takes, fun _ => rfl, rfl⟩
  · exact .inl ⟨_, _, _, string_takes, fun _ => rfl, rfl⟩
  · exact .inr (.inl rfl)
  · exact .inl ⟨_, _, _, u64_takes, fun _ => rfl, rfl⟩
  · exact .inl ⟨_, _, _, i64_takes, fun _ => rfl, rfl⟩
  · exact .inl ⟨_, _, _, f64_takes, fun _ => rfl, rfl⟩
  · exact .inr (.inr ⟨_, rfl⟩)

theorem array_takes_zero (elemTag : Int32) (n : UInt64) : Takes (array elemTag n) 0 := by
  intro c v c' h
  obtain ⟨-, hdata, hpos, hend⟩ := array_takes h
  exact ⟨hdata, by omega, hend⟩

theorem typedValue_takes (typeTag : Int32) : Takes (typedValue typeTag) 1 := by
  rcases typedValue_cases typeTag with ⟨α, read, variant, hread, -, heq⟩ | heq | ⟨e, heq⟩
  · rw [heq]
    exact hread.map variant
  · rw [heq]
    exact (i32_takes.bind fun elemTag => u64_takes.bind fun n => array_takes_zero elemTag n).mono
      (by decide)
  · rw [heq]
    exact Takes.fail e 1

theorem value_takes : Takes value 1 :=
  (i32_takes.bind typedValue_takes).mono (by decide)

/-- A value is read off at least one byte for each element it has. -/
theorem typedValue_accepted {typeTag : Int32} {c c' : Cursor} {v : GgufValue}
    (h : typedValue typeTag c = .ok (v, c')) : c.pos + v.accepted ≤ c'.pos := by
  rcases typedValue_cases typeTag with ⟨α, read, variant, hread, hscalar, heq⟩ | heq | ⟨e, heq⟩
  · rw [heq] at h
    obtain ⟨-, hpos, -⟩ := hread.map variant c v c' h
    obtain ⟨⟨a, c₁⟩, -, hdone⟩ := Except.bind_eq_ok_iff.mp h
    cases hdone
    rw [hscalar]
    omega
  · rw [heq] at h
    obtain ⟨⟨elemTag, c₁⟩, htag, hrest⟩ := Except.bind_eq_ok_iff.mp h
    obtain ⟨⟨n, c₂⟩, hcount, harray⟩ := Except.bind_eq_ok_iff.mp hrest
    obtain ⟨-, hless, -⟩ := i32_takes c elemTag c₁ htag
    obtain ⟨-, hless', -⟩ := u64_takes c₁ n c₂ hcount
    obtain ⟨-, -, hpos, -⟩ := array_takes harray
    omega
  · rw [heq] at h
    cases h

theorem value_accepted {c c' : Cursor} {v : GgufValue} (h : value c = .ok (v, c')) :
    c.pos + v.accepted ≤ c'.pos := by
  obtain ⟨⟨typeTag, c₁⟩, htag, hvalue⟩ := Except.bind_eq_ok_iff.mp h
  obtain ⟨-, hless, -⟩ := i32_takes c typeTag c₁ htag
  have hpos := typedValue_accepted hvalue
  omega

end Reader

theorem readEntry_takes (metadata : Metadata) : Takes (readEntry metadata) 1 := by
  refine (string_takes.bind fun key => (value_takes.mono (Nat.zero_le 1)).bind fun value =>
    (?_ : Takes _ 0)).mono le_rfl
  split
  · exact Takes.fail _ 0
  · exact Takes.pure _

theorem readEntry_accepted {metadata next : Metadata} {c c' : Cursor}
    (h : readEntry metadata c = .ok (next, c')) :
    (next.map fun entry => entry.2.accepted).sum + c.pos ≤
      (metadata.map fun entry => entry.2.accepted).sum + c'.pos := by
  obtain ⟨⟨key, c₁⟩, hkey, hrest⟩ := Except.bind_eq_ok_iff.mp h
  obtain ⟨⟨value, c₂⟩, hvalue, hinsert⟩ := Except.bind_eq_ok_iff.mp hrest
  obtain ⟨-, hless, -⟩ := string_takes c key c₁ hkey
  have hpos := value_accepted hvalue
  dsimp only at hinsert hpos hless
  split at hinsert
  case isTrue => cases hinsert
  case isFalse =>
    cases hinsert
    rw [List.map_append, List.sum_append, List.map_singleton, List.sum_singleton]
    dsimp only
    omega

theorem readDim_takes (name : String) (dims : List UInt64) : Takes (readDim name dims) 1 := by
  refine (i64_takes.bind fun d => (?_ : Takes _ 0)).mono le_rfl
  split
  · exact Takes.fail _ 0
  · exact Takes.pure _

theorem readDims_takes (name : String) : Takes (readDims name) 0 := by
  refine (u32_takes.bind fun nDims => (?_ : Takes _ 0)).mono (Nat.zero_le _)
  split
  · exact Takes.fail _ 0
  · exact (Takes.iterate (readDim_takes name) _ []).mono (Nat.zero_le _)

theorem readType_takes : Takes readType 0 := by
  refine (i32_takes.bind fun rawType => (?_ : Takes _ 0)).mono (Nat.zero_le _)
  split
  · exact Takes.fail _ 0
  · exact Takes.pure _

theorem readTensor_takes (tensors : List TensorInfo) : Takes (readTensor tensors) 1 := by
  refine (string_takes.bind fun name => (?_ : Takes _ 0)).mono le_rfl
  split
  · exact Takes.fail _ 0
  · refine ((readDims_takes name).bind fun dims => readType_takes.bind fun ty =>
      (u64_takes.mono (Nat.zero_le 1)).bind fun offset => (?_ : Takes _ 0)).mono le_rfl
    dsimp only
    split
    · exact Takes.fail _ 0
    · exact Takes.pure _

theorem readCount_takes (field : String) : Takes (readCount field) 0 := by
  refine (i64_takes.bind fun n => (?_ : Takes _ 0)).mono (Nat.zero_le _)
  split
  · exact Takes.fail _ 0
  · exact Takes.pure _

theorem readHeader_takes : Takes readHeader 0 := by
  refine ((take_takes 4 "magic").bind fun found => (?_ : Takes _ 0)).mono (Nat.zero_le _)
  split
  · exact Takes.fail _ 0
  · refine (u32_takes.bind fun version => (?_ : Takes _ 0)).mono (Nat.zero_le _)
    split
    · exact Takes.fail _ 0
    · exact (readCount_takes "tensor").bind fun nTensors =>
        (readCount_takes "kv").map (Prod.mk nTensors)

/-- The steps of a directory that is read. -/
theorem readDirectory_steps {c c' : Cursor} {alignment : UInt32} {metadata : Metadata}
    {tensors : List TensorInfo} (h : readDirectory c = .ok ((alignment, metadata, tensors), c')) :
    ∃ counts c₁ c₂, readHeader c = .ok (counts, c₁) ∧
      iterate counts.2.toInt.toNat readEntry [] c₁ = .ok (metadata, c₂) ∧
      alignmentOf metadata = .ok alignment ∧
      iterate counts.1.toInt.toNat readTensor [] c₂ = .ok (tensors, c') := by
  obtain ⟨⟨counts, c₁⟩, hheader, hrest⟩ := Except.bind_eq_ok_iff.mp h
  obtain ⟨⟨found, c₂⟩, hmetadata, hrest⟩ := Except.bind_eq_ok_iff.mp hrest
  dsimp only at hrest
  cases hdeclared : alignmentOf found with
  | error e =>
    rw [hdeclared] at hrest
    cases hrest
  | ok declared =>
    rw [hdeclared] at hrest
    obtain ⟨⟨directory, c₃⟩, hdirectory, hdone⟩ := Except.bind_eq_ok_iff.mp hrest
    cases hdone
    exact ⟨counts, c₁, c₂, hheader, hmetadata, hdeclared, hdirectory⟩

/-- A file that parses, with the directory it was read from. -/
theorem parse_eq_ok {bytes : List UInt8} {parsed : Parsed} (h : parse bytes = .ok parsed) :
    ∃ c, readDirectory ⟨bytes, 0⟩ = .ok ((parsed.alignment, parsed.metadata, parsed.tensors), c) ∧
      c.data = bytes ∧ c.pos ≤ bytes.length ∧
      (parsed.metadata.map fun entry => entry.2.accepted).sum ≤ c.pos ∧
      parsed.dataOffset = alignUp (UInt64.ofNat c.pos) parsed.alignment.toUInt64 := by
  obtain ⟨⟨found, c'⟩, hread, hfound⟩ := Except.map_eq_ok_iff.mp h
  obtain ⟨⟨⟨alignment, metadata, tensors⟩, c⟩, hdirectory, hdone⟩ := Except.bind_eq_ok_iff.mp hread
  obtain ⟨hparsed, rfl⟩ := Prod.mk.inj (Except.ok.inj hdone)
  subst hfound
  subst hparsed
  obtain ⟨counts, c₁, c₂, hheader, hmetadata, -, htensors⟩ := readDirectory_steps hdirectory
  obtain ⟨hdata₁, -, hend₁⟩ := readHeader_takes _ _ _ hheader
  obtain ⟨hdata₂, -, hend₂⟩ := Takes.iterate readEntry_takes _ _ _ _ _ hmetadata
  obtain ⟨hdata, hless, hend⟩ := Takes.iterate readTensor_takes _ _ _ _ _ htensors
  have hsum : (metadata.map fun entry => entry.2.accepted).sum ≤ c₂.pos :=
    iterate_invariant
      (P := fun (metadata : Metadata) c => (metadata.map fun entry => entry.2.accepted).sum ≤ c.pos)
      (fun metadata c next c' hle hentry => by
        have := readEntry_accepted hentry
        omega) (show ([].map fun entry : String × GgufValue => entry.2.accepted).sum ≤ c₁.pos from
          Nat.zero_le _) hmetadata
  rw [hdata₁] at hend₂ hdata₂
  rw [hdata₂] at hend hdata
  have hpos := hend (hend₂ (hend₁ (Nat.zero_le _)))
  exact ⟨c, hdirectory, hdata, hpos, hsum.trans ((Nat.le_add_right _ _).trans hless), rfl⟩

/-! ### The round trip -/

/-- A directory entry whose sizes are exact. -/
structure TensorInfo.WellFormed (t : TensorInfo) : Prop where
  name : t.name.utf8ByteSize < 2 ^ 64
  rank : t.dims.length ≤ 4
  dims : ∀ d ∈ t.dims, 0 < d.toNat ∧ d.toNat < 2 ^ 63
  elements : t.nElements.toNat = (t.dims.map UInt64.toNat).prod
  blocks : t.ggmlType.blockSize.toNat ∣ t.nElements.toNat
  bytes : t.nBytes.toNat =
    t.nElements.toNat / t.ggmlType.blockSize.toNat * t.ggmlType.typeSize.toNat

theorem TensorInfo.WellFormed.written {t : TensorInfo} (h : t.WellFormed) : t.Written where
  name := h.name
  rank := h.rank
  dims := h.dims
  elements := by
    rw [← UInt64.toNat_inj, foldl_mul_toNat, ← h.elements]
    simp
  bytes := by
    rw [bytesForElements_eq_some_iff, ← h.bytes]
    exact ⟨h.blocks, (Nat.mod_eq_of_lt t.nBytes.toNat_lt).symm⟩

/-- A well-formed document, and the alignment it declares. -/
structure WellFormed (metadata : Metadata) (tensors : List TensorInfo) (alignment : UInt32) :
    Prop where
  counts : metadata.length < 2 ^ 63 ∧ tensors.length < 2 ^ 63
  keys : ∀ entry ∈ metadata, entry.1.utf8ByteSize < 2 ^ 64
  values : ∀ entry ∈ metadata, entry.2.Sized
  keys_nodup : (metadata.map Prod.fst).Nodup
  names_nodup : (tensors.map TensorInfo.name).Nodup
  tensors : ∀ t ∈ tensors, t.WellFormed
  declared : metadata.lookup "general.alignment" = some (.u32 alignment) ∨
    metadata.lookup "general.alignment" = none ∧ alignment = DEFAULT_ALIGNMENT
  power : alignment.toNat.isPowerOfTwo

theorem WellFormed.writable {metadata : Metadata} {tensors : List TensorInfo} {alignment : UInt32}
    (h : WellFormed metadata tensors alignment) : Writable metadata tensors :=
  ⟨h.counts, h.keys, h.values, h.keys_nodup, h.names_nodup, fun t ht => (h.tensors t ht).written⟩

theorem WellFormed.alignmentOf {metadata : Metadata} {tensors : List TensorInfo}
    {alignment : UInt32} (h : WellFormed metadata tensors alignment) :
    alignmentOf metadata = .ok alignment := by
  unfold Gguf.alignmentOf
  rcases h.declared with hdeclared | ⟨hnone, rfl⟩
  · rw [hdeclared]
    exact if_pos h.power
  · rw [hnone]
    show (if DEFAULT_ALIGNMENT.toNat.isPowerOfTwo then Except.ok DEFAULT_ALIGNMENT
      else Except.error (.badAlignment DEFAULT_ALIGNMENT)) = _
    rw [if_pos h.power]

/-- The tensors' byte ranges lie inside of a file. -/
def DataHeld (dataOffset : UInt64) (tensors : List TensorInfo) (bytes : List UInt8) : Prop :=
  ∀ t ∈ tensors, dataOffset.toNat + t.offset.toNat + t.nBytes.toNat ≤ bytes.length

theorem checkedAdd_eq_some {a b : UInt64} (h : a.toNat + b.toNat < 2 ^ 64) :
    checkedAdd a b = some (a + b) ∧ (a + b).toNat = a.toNat + b.toNat :=
  ⟨if_pos h, by rw [UInt64.toNat_add, Nat.mod_eq_of_lt h]⟩

/-- The check passes exactly on the ranges inside of the file. -/
theorem checkTensor_eq_ok_iff {dataOffset fileLen : UInt64} {t : TensorInfo} :
    checkTensor dataOffset fileLen t = .ok () ↔
      dataOffset.toNat + t.offset.toNat + t.nBytes.toNat ≤ fileLen.toNat := by
  have hlen := fileLen.toNat_lt
  unfold checkTensor
  by_cases hstart : dataOffset.toNat + t.offset.toNat < 2 ^ 64
  · obtain ⟨hadd, hsum⟩ := checkedAdd_eq_some hstart
    rw [hadd]
    dsimp only
    by_cases hstop : (dataOffset + t.offset).toNat + t.nBytes.toNat < 2 ^ 64
    · obtain ⟨hadd', hsum'⟩ := checkedAdd_eq_some hstop
      rw [hadd']
      dsimp only
      split
      case isTrue hover =>
        rw [UInt64.lt_iff_toNat_lt, hsum', hsum] at hover
        exact ⟨fun h => (nomatch h), fun h => absurd h (by omega)⟩
      case isFalse hover =>
        rw [UInt64.lt_iff_toNat_lt, hsum', hsum] at hover
        exact ⟨fun _ => by omega, fun _ => rfl⟩
    · rw [show checkedAdd (dataOffset + t.offset) t.nBytes = none from if_neg hstop]
      rw [hsum] at hstop
      exact ⟨fun h => (nomatch h), fun h => absurd h (by omega)⟩
  · rw [show checkedAdd dataOffset t.offset = none from if_neg hstart]
    exact ⟨fun h => (nomatch h), fun h => absurd h (by omega)⟩

theorem forM_checkTensor_iff {dataOffset fileLen : UInt64} {tensors : List TensorInfo} :
    tensors.forM (checkTensor dataOffset fileLen) = .ok () ↔
      ∀ t ∈ tensors, dataOffset.toNat + t.offset.toNat + t.nBytes.toNat ≤ fileLen.toNat := by
  induction tensors with
  | nil => exact ⟨fun _ _ h => absurd h List.not_mem_nil, fun _ => rfl⟩
  | cons t tensors ih =>
    rw [show (t :: tensors).forM (checkTensor dataOffset fileLen) =
        checkTensor dataOffset fileLen t >>= fun _ => tensors.forM (checkTensor dataOffset fileLen)
        from rfl,
      List.forall_mem_cons, ← checkTensor_eq_ok_iff, ← ih, Except.bind_eq_ok_iff]
    constructor
    · rintro ⟨⟨⟩, hfirst, hrest⟩
      exact ⟨hfirst, hrest⟩
    · rintro ⟨hfirst, hrest⟩
      exact ⟨(), hfirst, hrest⟩

/-- A file is one that parses and holds the data of its tensors. -/
theorem fromBytes_eq_ok_iff {bytes : List UInt8} (hlen : bytes.length < 2 ^ 64) {file : GgufFile} :
    fromBytes bytes = .ok file ↔
      parse bytes = .ok file.parsed ∧ file.backing = bytes ∧
        DataHeld file.parsed.dataOffset file.parsed.tensors bytes := by
  have hnat : (UInt64.ofNat bytes.length).toNat = bytes.length := UInt64.toNat_ofNat_of_lt' hlen
  unfold fromBytes DataHeld
  rw [Except.bind_eq_ok_iff]
  constructor
  · rintro ⟨parsed, hparsed, hrest⟩
    obtain ⟨⟨⟩, hcheck, hdone⟩ := Except.bind_eq_ok_iff.mp hrest
    obtain rfl := Except.ok.inj hdone
    rw [forM_checkTensor_iff, hnat] at hcheck
    exact ⟨hparsed, rfl, hcheck⟩
  · rintro ⟨hparsed, hbacking, hheld⟩
    refine ⟨file.parsed, hparsed, Except.bind_eq_ok_iff.mpr ⟨(), ?_, ?_⟩⟩
    · rw [forM_checkTensor_iff, hnat]
      exact hheld
    · rw [← hbacking]

/-- Parsing ends: no loop turns more often than there are bytes left, but once. -/
structure ParsingEnds : Prop where
  entries : ∀ {c : Cursor} {n : ℕ} (metadata : Metadata), c.pos ≤ c.data.length → c.remaining < n →
    iterate n readEntry metadata c = iterate (c.remaining + 1) readEntry metadata c
  directory : ∀ {c : Cursor} {n : ℕ} (tensors : List TensorInfo), c.pos ≤ c.data.length →
    c.remaining < n →
      iterate n readTensor tensors c = iterate (c.remaining + 1) readTensor tensors c
  arrays : ∀ {c : Cursor} {n m : UInt64} (elemTag : Int32), c.pos ≤ c.data.length →
    c.remaining < n.toNat → c.remaining < m.toNat → Reader.array elemTag n c = Reader.array elemTag m c
  -- and one that counts on more fails
  short : ∀ {c : Cursor} {n : UInt64} (elemTag : Int32), c.pos ≤ c.data.length →
    c.remaining < n.toNat → ∃ e, Reader.array elemTag n c = .error e
  elements : ∀ {c c' : Cursor} {elemTag : Int32} {n : UInt64} {v : GgufValue},
    Reader.array elemTag n c = .ok (v, c') → v.accepted = n.toNat ∧ c.pos + v.accepted ≤ c'.pos

theorem parsingEnds : ParsingEnds where
  entries metadata hpos hn := iterate_long readEntry_takes hpos hn (Nat.lt_succ_self _)
  directory tensors hpos hn := iterate_long readTensor_takes hpos hn (Nat.lt_succ_self _)
  arrays := by
    intro c n m elemTag hpos hn hm
    rcases array_cases elemTag with ⟨α, read, variant, hread, -, hall⟩ | ⟨e, hall⟩
    · rw [hall, hall]
      exact arrayOf_long hread variant hpos hn hm
    · rw [hall, hall]
  short := by
    intro c n elemTag hpos hn
    cases hrun : Reader.array elemTag n c with
    | error e => exact ⟨e, rfl⟩
    | ok r =>
      obtain ⟨v, c'⟩ := r
      obtain ⟨hcount, -, hless, hend⟩ := array_takes hrun
      have hend' := hend hpos
      unfold Cursor.remaining at hn
      omega
  elements := by
    intro c c' elemTag n v h
    obtain ⟨hcount, -, hless, -⟩ := array_takes h
    exact ⟨hcount, hless⟩

/-- Parsing inverts serialisation, and refuses an array of arrays in the place of any entry. -/
theorem parse_inverts_serialize {metadata : Metadata} {tensors : List TensorInfo}
    {alignment : UInt32} (h : WellFormed metadata tensors alignment) :
    (∀ after, parse (serialize metadata tensors ++ after) =
      .ok ⟨GGUF_VERSION, alignment, metadata, tensors,
        alignUp (UInt64.ofNat (serialize metadata tensors).length) alignment.toUInt64⟩) ∧
      (∀ cut rest, cut ++ rest = serialize metadata tensors → rest ≠ [] →
        ∃ e, fromBytes cut = .error e) ∧
      (∀ done rest key count after nKv, metadata = done ++ rest → key.utf8ByteSize < 2 ^ 64 →
        done.length < nKv → nKv < 2 ^ 63 →
          parse (headerWord tensors.length nKv ++
            (done.flatMap entryWord ++ (nestedWord key count ++ after))) = .error .nestedArray) ∧
      ParsingEnds ∧
      ∀ bytes parsed, parse bytes = .ok parsed →
        (parsed.metadata.map fun entry => entry.2.accepted).sum ≤ bytes.length := by
  refine ⟨parse_serialize h.writable h.alignmentOf, fun cut rest hcut hrest => ?_, ?_, parsingEnds,
    fun bytes parsed hparsed => ?_⟩
  · obtain ⟨e, he⟩ := parse_cut h.writable h.alignmentOf hcut hrest
    refine ⟨e, ?_⟩
    rw [fromBytes, he]
    rfl
  · rintro done rest key count after nKv rfl hkey hless hkv
    have hnodup := h.keys_nodup
    rw [List.map_append] at hnodup
    exact parse_nested (fun entry hmem => h.keys entry (List.mem_append_left rest hmem))
      (fun entry hmem => h.values entry (List.mem_append_left rest hmem)) hnodup.of_append_left
      h.counts.2 hless hkv hkey count after
  · obtain ⟨c, -, -, hpos, hsum, -⟩ := parse_eq_ok hparsed
    exact hsum.trans hpos

/-- Two bytes of metadata, and a tensor. -/
def smallMetadata : Metadata := [("a", .array (.u8 [1, 2]))]

/-- One tensor of one block. -/
def smallTensors : List TensorInfo := [⟨"t", [32], .f32, 0, 32, 128⟩]

theorem parse_inverts_serialize_witness :
    parse (serialize smallMetadata smallTensors) =
      .ok ⟨3, 32, smallMetadata, smallTensors,
        alignUp (UInt64.ofNat (serialize smallMetadata smallTensors).length) 32⟩ := by
  have h : WellFormed smallMetadata smallTensors 32 :=
    { counts := by decide
      keys := by decide
      values := by
        rintro entry (_ | ⟨_, ⟨⟩⟩)
        exact ⟨by decide, fun v hv => nomatch hv⟩
      keys_nodup := by decide
      names_nodup := by decide
      tensors := by
        rintro t (_ | ⟨_, ⟨⟩⟩)
        exact ⟨by decide, by decide, List.forall_mem_singleton.mpr (by decide), by decide, by decide,
          by decide⟩
      declared := .inr ⟨by decide, rfl⟩
      power := by decide }
  have hparse := (parse_inverts_serialize h).1 []
  rwa [List.append_nil] at hparse

/-- An array of arrays is refused, even an empty one. -/
theorem nested_array_refused :
    parse (headerWord 0 1 ++ (stringWord "a" ++ (leBytes 4 9 ++ (leBytes 4 9 ++ leBytes 8 0)))) =
      .error .nestedArray := by
  have h := @parse_nested [] 0 1 (List.forall_mem_nil _) (List.forall_mem_nil _) List.nodup_nil
    (by decide) Nat.zero_lt_one (by decide) "a" (by decide) 0 []
  rwa [List.append_nil] at h

end Gguf
