/-
The GGUF container (`xabe-gguf`): header, metadata and tensor directory.

Floats are their bits.  Metadata is the list of its entries, in file order, and a
tensor is found by its name; that names are distinct makes both the maps of the
source.  `u64` arithmetic wraps, as a release build's does, and a slice that
would panic is `none`.
-/
import Llmxabe.Lib.Wire

namespace Gguf

open Wire

/-! ### Values -/

/-- Element types, by the ids of `enum ggml_type`. -/
inductive GgmlType where
  | f32
  | f16
  | q4_0
  | q8_0
  | q4K
  | q5K
  | q6K
  | bf16
  deriving DecidableEq, Repr

/-- A homogeneous metadata array. -/
inductive GgufArray where
  | u8 (v : List UInt8)
  | i8 (v : List Int8)
  | u16 (v : List UInt16)
  | i16 (v : List Int16)
  | u32 (v : List UInt32)
  | i32 (v : List Int32)
  | f32 (v : List UInt32)
  | bool (v : List Bool)
  | string (v : List String)
  | u64 (v : List UInt64)
  | i64 (v : List Int64)
  | f64 (v : List UInt64)
  deriving DecidableEq

/-- One metadata value. -/
inductive GgufValue where
  | u8 (v : UInt8)
  | i8 (v : Int8)
  | u16 (v : UInt16)
  | i16 (v : Int16)
  | u32 (v : UInt32)
  | i32 (v : Int32)
  | f32 (v : UInt32)
  | bool (v : Bool)
  | string (v : String)
  | u64 (v : UInt64)
  | i64 (v : Int64)
  | f64 (v : UInt64)
  | array (v : GgufArray)
  deriving DecidableEq

/-- A malformed or inconsistent file. -/
inductive GgufError where
  | badMagic (magic : List UInt8)
  | unsupportedVersion (version : UInt32)
  | unexpectedEof (context : String) (offset : ℕ)
  | invalidUtf8 (bytes : List UInt8)
  | negativeCount (field : String) (value : Int64)
  | duplicateKey (key : String)
  | unknownValueType (tag : ℤ)
  | nestedArray
  | badAlignmentType
  | badAlignment (alignment : UInt32)
  | tooManyDimensions (name : String) (nDims : UInt32)
  | zeroDimension (name : String)
  | duplicateTensor (name : String)
  | unsupportedGgmlType (id : ℤ)
  | unalignedElementCount (name : String) (ty : GgmlType) (elements blockSize : UInt64)
  | offsetOverflow (name : String)
  | tensorOutOfBounds (name : String) (start stop fileLen : UInt64)
  deriving DecidableEq

namespace GgmlType

/-- Elements per quantization block. -/
def blockSize : GgmlType → UInt64
  | f32 | f16 | bf16 => 1
  | q4_0 | q8_0 => 32
  | q4K | q5K | q6K => 256

/-- Bytes of one block. -/
def typeSize : GgmlType → UInt64
  | f32 => 4
  | f16 | bf16 => 2
  | q4_0 => 18
  | q8_0 => 34
  | q4K => 144
  | q5K => 176
  | q6K => 210

/-- The id of a type in the file. -/
def id : GgmlType → ℤ
  | f32 => 0
  | f16 => 1
  | q4_0 => 2
  | q8_0 => 8
  | q4K => 12
  | q5K => 13
  | q6K => 14
  | bf16 => 30

/-- The type of an id. -/
def tryFrom (raw : ℤ) : Except GgufError GgmlType :=
  match raw with
  | 0 => .ok f32
  | 1 => .ok f16
  | 2 => .ok q4_0
  | 8 => .ok q8_0
  | 12 => .ok q4K
  | 13 => .ok q5K
  | 14 => .ok q6K
  | 30 => .ok bf16
  | other => .error (.unsupportedGgmlType other)

/-- Bytes of `n` elements, which have to be whole blocks; `none` if they are not. -/
def bytesForElements (ty : GgmlType) (n : UInt64) : Option UInt64 :=
  if n % ty.blockSize = 0 then some (n / ty.blockSize * ty.typeSize) else none

end GgmlType

/-! ### Reading -/

/-- A reader of the file. -/
abbrev Reader (α : Type) := Parser GgufError α

namespace Reader

/-- So many bytes; the context is what an error names. -/
def take (n : ℕ) (context : String) : Reader (List UInt8) :=
  Wire.take GgufError.unexpectedEof n context

/-- A number of a fixed width. -/
def fixed {α : Type} (width : ℕ) (context : String) (ofNat : ℕ → α) : Reader α := do
  let bytes ← take width context
  pure (ofNat (leValue bytes))

/-- One byte. -/
def u8 : Reader UInt8 := fixed 1 "u8" UInt8.ofNat

/-- One byte, signed. -/
def i8 : Reader Int8 := fixed 1 "i8" fun n => (UInt8.ofNat n).toInt8

/-- Two bytes. -/
def u16 : Reader UInt16 := fixed 2 "u16" UInt16.ofNat

/-- Two bytes, signed. -/
def i16 : Reader Int16 := fixed 2 "i16" fun n => (UInt16.ofNat n).toInt16

/-- Four bytes. -/
def u32 : Reader UInt32 := fixed 4 "u32" UInt32.ofNat

/-- Four bytes, signed. -/
def i32 : Reader Int32 := fixed 4 "i32" fun n => (UInt32.ofNat n).toInt32

/-- Eight bytes. -/
def u64 : Reader UInt64 := fixed 8 "u64" UInt64.ofNat

/-- Eight bytes, signed. -/
def i64 : Reader Int64 := fixed 8 "i64" fun n => (UInt64.ofNat n).toInt64

/-- The bits of a single. -/
def f32 : Reader UInt32 := fixed 4 "f32" UInt32.ofNat

/-- The bits of a double. -/
def f64 : Reader UInt64 := fixed 8 "f64" UInt64.ofNat

/-- Any byte but zero is true. -/
def bool : Reader Bool := do
  -- the source reads it signed
  let b ← i8
  pure (b != 0)

/-- A byte length, then UTF-8. -/
def string : Reader String := do
  let len ← u64
  let bytes ← take len.toNat "string bytes"
  match String.fromUTF8? ⟨bytes.toArray⟩ with
  | some s => pure s
  | none => Wire.fail (.invalidUtf8 bytes)

/-- A count, then that many of one reader. -/
def arrayOf {α : Type} (n : UInt64) (read : Reader α) (variant : List α → GgufArray) :
    Reader GgufValue := do
  let v ← iterate n.toNat (fun v => do
    let a ← read
    pure (v ++ [a])) []
  pure (.array (variant v))

/-- An array, by the tag of its elements; one of arrays is refused. -/
def array (elemTag : Int32) (n : UInt64) : Reader GgufValue :=
  match elemTag.toInt with
  | 0 => arrayOf n u8 .u8
  | 1 => arrayOf n i8 .i8
  | 2 => arrayOf n u16 .u16
  | 3 => arrayOf n i16 .i16
  | 4 => arrayOf n u32 .u32
  | 5 => arrayOf n i32 .i32
  | 6 => arrayOf n f32 .f32
  | 7 => arrayOf n bool .bool
  | 8 => arrayOf n string .string
  -- arrays of arrays are refused
  | 9 => Wire.fail .nestedArray
  | 10 => arrayOf n u64 .u64
  | 11 => arrayOf n i64 .i64
  | 12 => arrayOf n f64 .f64
  | other => Wire.fail (.unknownValueType other)

/-- A value of one of the scalar kinds. -/
def scalar {α : Type} (read : Reader α) (variant : α → GgufValue) : Reader GgufValue := do
  let v ← read
  pure (variant v)

/-- A value, by its tag. -/
def typedValue (typeTag : Int32) : Reader GgufValue :=
  match typeTag.toInt with
  | 0 => scalar u8 .u8
  | 1 => scalar i8 .i8
  | 2 => scalar u16 .u16
  | 3 => scalar i16 .i16
  | 4 => scalar u32 .u32
  | 5 => scalar i32 .i32
  | 6 => scalar f32 .f32
  | 7 => scalar bool .bool
  | 8 => scalar string .string
  | 9 => do
    let elemTag ← i32
    let n ← u64
    array elemTag n
  | 10 => scalar u64 .u64
  | 11 => scalar i64 .i64
  | 12 => scalar f64 .f64
  | other => Wire.fail (.unknownValueType other)

/-- A tag, then a value of that kind. -/
def value : Reader GgufValue := do
  let typeTag ← i32
  typedValue typeTag

end Reader

/-! ### The file -/

/-- One entry of the tensor directory. -/
structure TensorInfo where
  name : String
  dims : List UInt64
  ggmlType : GgmlType
  offset : UInt64
  nElements : UInt64
  nBytes : UInt64
  deriving DecidableEq

/-- The entries in file order. -/
abbrev Metadata := List (String × GgufValue)

/-- What a file says of itself, and where its tensor data starts. -/
structure Parsed where
  version : UInt32
  alignment : UInt32
  metadata : Metadata
  tensors : List TensorInfo
  dataOffset : UInt64
  deriving DecidableEq

/-- The one version that is read. -/
def GGUF_VERSION : UInt32 := 3

/-- The alignment of a file that declares none. -/
def DEFAULT_ALIGNMENT : UInt32 := 32

/-- The letters `GGUF`. -/
def magic : List UInt8 := [71, 71, 85, 70]

/-- The next multiple of a power of two; wraps. -/
def alignUp (value alignment : UInt64) : UInt64 :=
  (value + alignment - 1) &&& ~~~(alignment - 1)

/-- A count of the header. -/
def readCount (field : String) : Reader Int64 := do
  let n ← Reader.i64
  if n < 0 then Wire.fail (.negativeCount field n) else pure n

/-- Magic and version, then the counts of tensors and of entries. -/
def readHeader : Reader (Int64 × Int64) := do
  let found ← Reader.take 4 "magic"
  if found ≠ magic then Wire.fail (.badMagic found)
  else
    let version ← Reader.u32
    if version ≠ GGUF_VERSION then Wire.fail (.unsupportedVersion version)
    else
      let nTensors ← readCount "tensor"
      let nKv ← readCount "kv"
      pure (nTensors, nKv)

/-- One more metadata entry; no key comes twice. -/
def readEntry (metadata : Metadata) : Reader Metadata := do
  let key ← Reader.string
  let value ← Reader.value
  -- the value has been read before its key is refused
  if key ∈ metadata.map Prod.fst then Wire.fail (.duplicateKey key)
  else pure (metadata ++ [(key, value)])

/-- The alignment the metadata declare, which has to be a power of two. -/
def alignmentOf (metadata : Metadata) : Except GgufError UInt32 :=
  let alignment : Except GgufError UInt32 := match metadata.lookup "general.alignment" with
    | some (.u32 a) => .ok a
    -- another type is an error, not the default
    | some _ => .error .badAlignmentType
    | none => .ok DEFAULT_ALIGNMENT
  alignment >>= fun a => if a.toNat.isPowerOfTwo then .ok a else .error (.badAlignment a)

/-- One more dimension, which is positive. -/
def readDim (name : String) (dims : List UInt64) : Reader (List UInt64) := do
  let d ← Reader.i64
  if d ≤ 0 then Wire.fail (.zeroDimension name) else pure (dims ++ [d.toUInt64])

/-- At most four dimensions. -/
def readDims (name : String) : Reader (List UInt64) := do
  let nDims ← Reader.u32
  if 4 < nDims then Wire.fail (.tooManyDimensions name nDims)
  else iterate nDims.toNat (readDim name) []

/-- A known element type. -/
def readType : Reader GgmlType := do
  let rawType ← Reader.i32
  match GgmlType.tryFrom rawType.toInt with
  | .error e => Wire.fail e
  | .ok ty => pure ty

/-- One more tensor; no name comes twice. -/
def readTensor (tensors : List TensorInfo) : Reader (List TensorInfo) := do
  let name ← Reader.string
  if name ∈ tensors.map TensorInfo.name then Wire.fail (.duplicateTensor name)
  else
    let dims ← readDims name
    let ty ← readType
    let offset ← Reader.u64
    -- the product wraps as in a release build
    let nElements := dims.foldl (· * ·) 1
    match ty.bytesForElements nElements with
    | none => Wire.fail (.unalignedElementCount name ty nElements ty.blockSize)
    | some nBytes => pure (tensors ++ [⟨name, dims, ty, offset, nElements, nBytes⟩])

/-- The header, the metadata and the directory, with the alignment they declare. -/
def readDirectory : Reader (UInt32 × Metadata × List TensorInfo) := do
  let (nTensors, nKv) ← readHeader
  let metadata ← iterate nKv.toInt.toNat readEntry []
  match alignmentOf metadata with
  | .error e => Wire.fail e
  | .ok alignment =>
    let tensors ← iterate nTensors.toInt.toNat readTensor []
    pure (alignment, metadata, tensors)

/-- The directory, and the aligned offset behind it. -/
def readParsed : Reader Parsed := do
  let (alignment, metadata, tensors) ← readDirectory
  -- the tensor data starts behind the directory, aligned
  let metaEnd ← position
  pure ⟨GGUF_VERSION, alignment, metadata, tensors,
    alignUp (UInt64.ofNat metaEnd) alignment.toUInt64⟩

/-- Read a file from its first byte. -/
def parse (bytes : List UInt8) : Except GgufError Parsed :=
  (readParsed ⟨bytes, 0⟩).map Prod.fst

/-- A parsed file, with its bytes. -/
structure GgufFile where
  backing : List UInt8
  parsed : Parsed

/-- A sum, unless it does not fit. -/
def checkedAdd (a b : UInt64) : Option UInt64 :=
  if a.toNat + b.toNat < 2 ^ 64 then some (a + b) else none

/-- The check of a tensor's byte range against the file. -/
def checkTensor (dataOffset fileLen : UInt64) (t : TensorInfo) : Except GgufError Unit :=
  match checkedAdd dataOffset t.offset with
  | none => .error (.offsetOverflow t.name)
  | some start =>
    match checkedAdd start t.nBytes with
    | none => .error (.offsetOverflow t.name)
    | some stop =>
      if fileLen < stop then .error (.tensorOutOfBounds t.name start stop fileLen) else .ok ()

/-- A file whose tensors lie inside of its bytes. -/
def fromBytes (bytes : List UInt8) : Except GgufError GgufFile :=
  parse bytes >>= fun parsed =>
    parsed.tensors.forM (checkTensor parsed.dataOffset (UInt64.ofNat bytes.length)) >>= fun _ =>
      .ok ⟨bytes, parsed⟩

namespace GgufFile

/-- A tensor, by its name. -/
def tensor (file : GgufFile) (name : String) : Option TensorInfo :=
  file.parsed.tensors.find? fun t => t.name = name

/-- A slice of bytes, which panics beyond their end. -/
def slice (bytes : List UInt8) (start stop : ℕ) : Option (List UInt8) :=
  if start ≤ stop ∧ stop ≤ bytes.length then some ((bytes.drop start).take (stop - start)) else none

/-- A tensor's raw bytes; an inner `none` is a panic. -/
def tensorBytes (file : GgufFile) (name : String) : Option (Option (List UInt8)) :=
  (file.tensor name).map fun info =>
    let start := file.parsed.dataOffset + info.offset
    slice file.backing start.toNat (start + info.nBytes).toNat

end GgufFile

/-! ### Sizes -/

/-- A product of dimensions wraps. -/
theorem foldl_mul_toNat (dims : List UInt64) (a : UInt64) :
    (dims.foldl (· * ·) a).toNat = a.toNat * (dims.map UInt64.toNat).prod % 2 ^ 64 := by
  induction dims generalizing a with
  | nil => rw [List.map_nil, List.prod_nil, Nat.mul_one, Nat.mod_eq_of_lt a.toNat_lt, List.foldl_nil]
  | cons d dims ih =>
    rw [List.foldl_cons, ih, UInt64.toNat_mul, List.map_cons, List.prod_cons, Nat.mod_mul_mod,
      Nat.mul_assoc]

/-- The size of whole blocks, which wraps. -/
theorem bytesForElements_eq_some_iff {ty : GgmlType} {n bytes : UInt64} :
    ty.bytesForElements n = some bytes ↔
      ty.blockSize.toNat ∣ n.toNat ∧
        bytes.toNat = n.toNat / ty.blockSize.toNat * ty.typeSize.toNat % 2 ^ 64 := by
  have hblock : n % ty.blockSize = 0 ↔ ty.blockSize.toNat ∣ n.toNat := by
    rw [← UInt64.toNat_inj, UInt64.toNat_mod, Nat.dvd_iff_mod_eq_zero]
    rfl
  have hsize : n / ty.blockSize * ty.typeSize = bytes ↔
      bytes.toNat = n.toNat / ty.blockSize.toNat * ty.typeSize.toNat % 2 ^ 64 := by
    rw [← UInt64.toNat_inj, UInt64.toNat_mul, UInt64.toNat_div, eq_comm]
  unfold GgmlType.bytesForElements
  split
  case isTrue h => rw [Option.some.injEq, hsize, and_iff_right (hblock.mp h)]
  case isFalse h => exact ⟨fun hnone => absurd hnone (by simp), fun hboth => absurd (hblock.mpr hboth.1) h⟩

end Gguf
