/-
What a directory that parses says of its tensors.

The sizes are products in `u64`, which wrap, and whole blocks are asked of the
element count, not of the rows.  So the sizes and rows of a tensor are what they
should be exactly when its dimensions fit (`parse_sound_iff`); its byte range is
checked in either case.
-/
import Llmxabe.Gguf.RoundTrip

namespace Gguf

open Wire

/-! ### The directory loop -/

/-- One turn of the loop adds one tensor, of a new name and of the computed sizes. -/
theorem readTensor_eq_ok {tensors tensors' : List TensorInfo} {c c' : Cursor}
    (h : readTensor tensors c = .ok (tensors', c')) :
    ∃ t, tensors' = tensors ++ [t] ∧ t.name ∉ tensors.map TensorInfo.name ∧
      t.nElements = t.dims.foldl (· * ·) 1 ∧
      t.ggmlType.bytesForElements t.nElements = some t.nBytes := by
  obtain ⟨⟨name, c₁⟩, -, hrest⟩ := Except.bind_eq_ok_iff.mp h
  dsimp only at hrest
  split at hrest
  case isTrue => cases hrest
  case isFalse hfresh =>
    obtain ⟨⟨dims, c₂⟩, -, hrest⟩ := Except.bind_eq_ok_iff.mp hrest
    obtain ⟨⟨ty, c₃⟩, -, hrest⟩ := Except.bind_eq_ok_iff.mp hrest
    obtain ⟨⟨offset, c₄⟩, -, hrest⟩ := Except.bind_eq_ok_iff.mp hrest
    dsimp only at hrest
    cases hbytes : ty.bytesForElements (dims.foldl (· * ·) 1) with
    | none =>
      rw [hbytes] at hrest
      cases hrest
    | some nBytes =>
      rw [hbytes] at hrest
      cases hrest
      exact ⟨_, rfl, hfresh, rfl, hbytes⟩

/-- The tensors of a directory as the loop leaves them. -/
structure Computed (tensors : List TensorInfo) : Prop where
  names : (tensors.map TensorInfo.name).Nodup
  elements : ∀ t ∈ tensors, t.nElements = t.dims.foldl (· * ·) 1
  bytes : ∀ t ∈ tensors, t.ggmlType.bytesForElements t.nElements = some t.nBytes

theorem Computed.nil : Computed [] :=
  ⟨List.nodup_nil, fun _ ht => absurd ht List.not_mem_nil, fun _ ht => absurd ht List.not_mem_nil⟩

theorem Computed.step {tensors tensors' : List TensorInfo} {c c' : Cursor} (h : Computed tensors)
    (hread : readTensor tensors c = .ok (tensors', c')) : Computed tensors' := by
  obtain ⟨t, rfl, hfresh, helements, hbytes⟩ := readTensor_eq_ok hread
  have hlast : ∀ {P : TensorInfo → Prop}, (∀ u ∈ tensors, P u) → P t → ∀ u ∈ tensors ++ [t], P u := by
    intro P hall ht u hu
    rcases List.mem_append.mp hu with hu | hu
    · exact hall u hu
    · rwa [List.mem_singleton.mp hu]
  refine ⟨?_, hlast h.elements helements, hlast h.bytes hbytes⟩
  rw [List.map_append, List.map_singleton, List.nodup_append]
  refine ⟨h.names, List.nodup_singleton _, ?_⟩
  intro name hname other hother
  rw [List.mem_singleton] at hother
  rintro rfl
  exact hfresh (hother ▸ hname)

theorem readDirectory_computed {c c' : Cursor} {alignment : UInt32} {metadata : Metadata}
    {tensors : List TensorInfo} (h : readDirectory c = .ok ((alignment, metadata, tensors), c')) :
    Computed tensors := by
  obtain ⟨counts, c₁, c₂, -, -, -, htensors⟩ := readDirectory_steps h
  exact iterate_invariant (P := fun tensors _ => Computed tensors)
    (fun _ _ _ _ hcomputed hread => hcomputed.step hread) Computed.nil htensors

/-- Distinct names find their own tensors. -/
theorem Computed.find {tensors : List TensorInfo} (h : Computed tensors) {t : TensorInfo}
    (ht : t ∈ tensors) : tensors.find? (fun u => u.name = t.name) = some t := by
  obtain ⟨before, after, rfl⟩ := List.append_of_mem ht
  rw [List.find?_append, List.find?_eq_none.mpr, Option.none_or, List.find?_cons_of_pos (by simp)]
  intro u hu
  have hfresh := not_mem_of_nodup h.names rfl
  rw [decide_eq_true_eq]
  intro hname
  exact hfresh (hname ▸ List.mem_map_of_mem hu)

/-! ### Where the data starts -/

theorem and_add_and_not (x m : UInt64) : (x &&& m) + (x &&& ~~~m) = x := by
  have hdisjoint : (x.toBitVec &&& m.toBitVec) &&& (x.toBitVec &&& ~~~m.toBitVec) = 0#64 := by
    ext i hi
    rw [BitVec.getElem_and, BitVec.getElem_and, BitVec.getElem_and, BitVec.getElem_not]
    cases m.toBitVec[i] <;> simp
  have hunion : (x.toBitVec &&& m.toBitVec) ||| (x.toBitVec &&& ~~~m.toBitVec) = x.toBitVec := by
    ext i hi
    rw [BitVec.getElem_or, BitVec.getElem_and, BitVec.getElem_and, BitVec.getElem_not]
    cases m.toBitVec[i] <;> simp
  apply UInt64.toBitVec_inj.mp
  rw [UInt64.toBitVec_add, UInt64.toBitVec_and, UInt64.toBitVec_and, UInt64.toBitVec_not,
    BitVec.add_eq_or_of_and_eq_zero _ _ hdisjoint, hunion]

/-- Rounding up rounds up, short of the end of `u64`. -/
theorem le_alignUp {value alignment : UInt64} (hpos : 0 < alignment.toNat)
    (hroom : value.toNat + alignment.toNat < 2 ^ 64) :
    value.toNat ≤ (alignUp value alignment).toNat := by
  have hmask : (alignment - 1).toNat = alignment.toNat - 1 :=
    UInt64.toNat_sub_of_le _ _ (UInt64.le_iff_toNat_le.mpr hpos)
  have hsum : (value + alignment - 1).toNat = value.toNat + alignment.toNat - 1 := by
    rw [UInt64.toNat_sub_of_le, UInt64.toNat_add, Nat.mod_eq_of_lt hroom]
    · rfl
    · rw [UInt64.le_iff_toNat_le, UInt64.toNat_add, Nat.mod_eq_of_lt hroom]
      exact hpos.trans_le (Nat.le_add_left _ _)
  have hsplit : (value + alignment - 1) &&& ~~~(alignment - 1) =
      (value + alignment - 1) - ((value + alignment - 1) &&& (alignment - 1)) := by
    calc (value + alignment - 1) &&& ~~~(alignment - 1)
      _ = ((value + alignment - 1) &&& ~~~(alignment - 1)) +
            ((value + alignment - 1) &&& (alignment - 1)) -
            ((value + alignment - 1) &&& (alignment - 1)) := (UInt64.add_sub_cancel _ _).symm
      _ = (value + alignment - 1) - ((value + alignment - 1) &&& (alignment - 1)) := by
          rw [UInt64.add_comm, and_add_and_not]
  have hlow : ((value + alignment - 1) &&& (alignment - 1)).toNat ≤ alignment.toNat - 1 := by
    rw [UInt64.toNat_and, hmask]
    exact Nat.and_le_right
  have hless : (value + alignment - 1) &&& (alignment - 1) ≤ value + alignment - 1 := by
    rw [UInt64.le_iff_toNat_le, UInt64.toNat_and]
    exact Nat.and_le_left
  rw [alignUp, hsplit, UInt64.toNat_sub_of_le _ _ hless, hsum]
  omega

theorem alignmentOf_eq_ok {metadata : Metadata} {alignment : UInt32}
    (h : alignmentOf metadata = .ok alignment) : alignment.toNat.isPowerOfTwo := by
  obtain ⟨a, -, hpower⟩ := Except.bind_eq_ok_iff.mp h
  split at hpower
  case isTrue ha =>
    obtain rfl := Except.ok.inj hpower
    exact ha
  case isFalse => cases hpower

/-- The end of the directory. -/
def metaEnd (bytes : List UInt8) : ℕ :=
  match readDirectory ⟨bytes, 0⟩ with
  | .ok (_, c) => c.pos
  | .error _ => 0

theorem parse_metaEnd {bytes : List UInt8} (hlen : bytes.length < 2 ^ 63) {parsed : Parsed}
    (h : parse bytes = .ok parsed) :
    Computed parsed.tensors ∧ metaEnd bytes ≤ parsed.dataOffset.toNat := by
  obtain ⟨c, hdirectory, -, hpos, -, hoffset⟩ := parse_eq_ok h
  refine ⟨readDirectory_computed hdirectory, ?_⟩
  obtain ⟨counts, c₁, c₂, -, -, halignment, -⟩ := readDirectory_steps hdirectory
  have hend : (UInt64.ofNat c.pos).toNat = c.pos :=
    UInt64.toNat_ofNat_of_lt' (hpos.trans_lt (hlen.trans (by norm_num [UInt64.size])))
  have hpower := Nat.pos_of_isPowerOfTwo (alignmentOf_eq_ok halignment)
  have hword := parsed.alignment.toNat_lt
  have hle : (UInt64.ofNat c.pos).toNat ≤
      (alignUp (UInt64.ofNat c.pos) parsed.alignment.toUInt64).toNat := by
    refine le_alignUp ?_ ?_
    · rw [UInt32.toNat_toUInt64]
      exact hpower
    · rw [UInt32.toNat_toUInt64, hend]
      omega
  rw [hend] at hle
  rw [metaEnd, hdirectory, hoffset]
  exact hle

/-! ### Soundness -/

namespace TensorInfo

/-- The product of the dimensions. -/
def exactElements (t : TensorInfo) : ℕ := (t.dims.map UInt64.toNat).prod

/-- The size of so many elements in whole blocks. -/
def exactBytes (t : TensorInfo) : ℕ :=
  t.exactElements / t.ggmlType.blockSize.toNat * t.ggmlType.typeSize.toNat

/-- A row: the first dimension, or the one element of a scalar. -/
def row (t : TensorInfo) : ℕ := (t.dims.map UInt64.toNat).headD 1

/-- The tensor's sizes fit `u64`, and its rows are whole blocks. -/
structure Fits (t : TensorInfo) : Prop where
  elements : t.exactElements < 2 ^ 64
  bytes : t.exactBytes < 2 ^ 64
  rows : t.ggmlType.blockSize.toNat ∣ t.row

/-- What a file says of a tensor is so, and its bytes are there. -/
structure Sound (file : GgufFile) (t : TensorInfo) : Prop where
  elements : t.nElements.toNat = t.exactElements
  bytes : t.nBytes.toNat = t.exactBytes
  rows : t.ggmlType.blockSize.toNat ∣ t.row
  behind : metaEnd file.backing ≤ file.parsed.dataOffset.toNat + t.offset.toNat
  inside : file.parsed.dataOffset.toNat + t.offset.toNat + t.nBytes.toNat ≤ file.backing.length
  held : ∃ data, file.tensorBytes t.name = some (some data) ∧ data.length = t.nBytes.toNat

end TensorInfo

/-- The slice of a tensor inside of the file. -/
theorem tensorBytes_eq_some {file : GgufFile} {t : TensorInfo} (ht : t ∈ file.parsed.tensors)
    (hcomputed : Computed file.parsed.tensors) (hlen : file.backing.length < 2 ^ 64)
    (hinside : file.parsed.dataOffset.toNat + t.offset.toNat + t.nBytes.toNat ≤
      file.backing.length) :
    ∃ data, file.tensorBytes t.name = some (some data) ∧ data.length = t.nBytes.toNat := by
  have hstart : (file.parsed.dataOffset + t.offset).toNat =
      file.parsed.dataOffset.toNat + t.offset.toNat :=
    (checkedAdd_eq_some (by omega)).2
  have hstop : (file.parsed.dataOffset + t.offset + t.nBytes).toNat =
      file.parsed.dataOffset.toNat + t.offset.toNat + t.nBytes.toNat := by
    rw [(checkedAdd_eq_some (by omega)).2, hstart]
  have hslice : ∀ start stop, start ≤ stop → stop ≤ file.backing.length →
      ∃ data, GgufFile.slice file.backing start stop = some data ∧ data.length = stop - start := by
    intro start stop hle hend
    refine ⟨_, if_pos ⟨hle, hend⟩, ?_⟩
    rw [List.length_take, List.length_drop]
    omega
  obtain ⟨data, hdata, hlength⟩ := hslice _ _ (Nat.le_add_right _ t.nBytes.toNat) hinside
  refine ⟨data, ?_, by omega⟩
  have hfound : file.tensor t.name = some t := hcomputed.find ht
  rw [GgufFile.tensorBytes, hfound, Option.map_some]
  dsimp only
  rw [hstop, hstart, hdata]

/-- The computed sizes are the exact ones where these fit. -/
theorem Computed.sizes {tensors : List TensorInfo} (h : Computed tensors) {t : TensorInfo}
    (ht : t ∈ tensors) (hfits : t.Fits) :
    t.nElements.toNat = t.exactElements ∧ t.nBytes.toNat = t.exactBytes := by
  have helements : t.nElements.toNat = t.exactElements := by
    have hproduct := foldl_mul_toNat t.dims 1
    rw [← h.elements t ht] at hproduct
    rw [hproduct]
    show 1 * t.exactElements % 2 ^ 64 = t.exactElements
    rw [Nat.one_mul, Nat.mod_eq_of_lt hfits.elements]
  obtain ⟨-, hbytes⟩ := bytesForElements_eq_some_iff.mp (h.bytes t ht)
  rw [helements] at hbytes
  exact ⟨helements, hbytes.trans (Nat.mod_eq_of_lt hfits.bytes)⟩

/-- A parsed file is right about its tensors exactly if all of them fit. -/
theorem parse_sound_iff {bytes : List UInt8} (hlen : bytes.length < 2 ^ 63) {file : GgufFile}
    (h : fromBytes bytes = .ok file) :
    (∀ t ∈ file.parsed.tensors, t.Sound file) ↔ ∀ t ∈ file.parsed.tensors, t.Fits := by
  have hword : bytes.length < 2 ^ 64 := hlen.trans (by decide)
  obtain ⟨hparse, hbacking, hheld⟩ := (fromBytes_eq_ok_iff hword).mp h
  obtain ⟨hcomputed, hend⟩ := parse_metaEnd hlen hparse
  refine forall₂_congr fun t ht => ⟨fun hsound => ?_, fun hfits => ?_⟩
  · refine ⟨?_, ?_, hsound.rows⟩
    · rw [← hsound.elements]
      exact t.nElements.toNat_lt
    · rw [← hsound.bytes]
      exact t.nBytes.toNat_lt
  · obtain ⟨helements, hbytes⟩ := hcomputed.sizes ht hfits
    have hinside := hheld t ht
    rw [← hbacking] at hinside hword hend
    exact ⟨helements, hbytes, hfits.rows, hend.trans (Nat.le_add_right _ _), hinside,
      tensorBytes_eq_some ht hcomputed hword hinside⟩

/-- A tensor of `2 ^ 62` floats, of whose size nothing is left. -/
def hugeTensor : TensorInfo := ⟨"t", [4611686018427387904], .f32, 0, 4611686018427387904, 0⟩

/-- The file with that tensor and no data. -/
def hugeFile : List UInt8 := serialize [] [hugeTensor] ++ List.replicate 7 0

theorem directory_length : (serialize [] [hugeTensor]).length = 57 := by decide

theorem hugeFile_length : hugeFile.length < 2 ^ 63 := by
  rw [hugeFile, List.length_append, directory_length, List.length_replicate]
  decide

theorem fromBytes_hugeFile :
    fromBytes hugeFile = .ok ⟨hugeFile, ⟨3, 32, [], [hugeTensor], 64⟩⟩ := by
  have hwritten : hugeTensor.Written :=
    { name := by decide
      rank := by decide
      dims := List.forall_mem_singleton.mpr (by decide)
      elements := by decide
      bytes := by decide }
  have hwritable : Writable [] [hugeTensor] :=
    { counts := by decide
      keys := by decide
      values := fun _ hentry => absurd hentry List.not_mem_nil
      keys_nodup := by decide
      names_nodup := by decide
      tensors := fun t ht => List.mem_singleton.mp ht ▸ hwritten }
  have hparse := parse_serialize hwritable (rfl : alignmentOf [] = .ok 32) (List.replicate 7 0)
  rw [directory_length] at hparse
  refine (fromBytes_eq_ok_iff (hugeFile_length.trans (by decide))).mpr ⟨hparse, rfl, ?_⟩
  intro t ht
  obtain rfl := List.mem_singleton.mp ht
  rw [hugeFile, List.length_append, directory_length, List.length_replicate]
  decide

theorem parse_sound_iff_huge :
    (∀ t ∈ [hugeTensor], t.Sound ⟨hugeFile, ⟨3, 32, [], [hugeTensor], 64⟩⟩) ↔
      ∀ t ∈ [hugeTensor], t.Fits :=
  parse_sound_iff hugeFile_length fromBytes_hugeFile

/-- The file parses, and its tensor is said to have no bytes. -/
theorem huge_tensor_unsound :
    ∃ file, fromBytes hugeFile = .ok file ∧ ¬∀ t ∈ file.parsed.tensors, t.Sound file := by
  refine ⟨_, fromBytes_hugeFile, fun hsound => ?_⟩
  have hbytes := (hsound hugeTensor (List.mem_singleton_self _)).bytes
  have hexact : hugeTensor.exactBytes = 2 ^ 64 := by rfl
  rw [hexact] at hbytes
  exact absurd hbytes (by norm_num [hugeTensor])

end Gguf
