/-
Packing fields into the bits of a payload.

A loop that fills an array is its list of writes (`scatter`, `scatterOr`).  Where
the bits of the fields and those of the payload correspond one to one
(`Layout`), packing and extracting undo each other and each bit of the payload
belongs to one bit of the fields.
-/
import Mathlib.Tactic

namespace BitLayout

/-! ### Loops that write -/

variable {α : Type} {n m : ℕ}

/-- The array after writes made in order. -/
def scatter (writes : List (Fin n × α)) (a : Fin n → α) : Fin n → α :=
  writes.foldl (fun a w => Function.update a w.1 w.2) a

/-- The array after writes or-ed in. -/
def scatterOr (writes : List (Fin n × BitVec m)) (a : Fin n → BitVec m) : Fin n → BitVec m :=
  writes.foldl (fun a w => Function.update a w.1 (a w.1 ||| w.2)) a

theorem scatter_of_ne {writes : List (Fin n × α)} {a : Fin n → α} {i : Fin n}
    (h : ∀ w ∈ writes, w.1 ≠ i) : scatter writes a i = a i := by
  induction writes generalizing a with
  | nil => rfl
  | cons w writes ih =>
    obtain ⟨hw, hrest⟩ := List.forall_mem_cons.mp h
    calc scatter (w :: writes) a i = Function.update a w.1 w.2 i := ih hrest
      _ = a i := Function.update_of_ne hw.symm _ _

/-- A value written where nothing else is. -/
theorem scatter_once {writes : List (Fin n × α)} {a : Fin n → α} {i : Fin n} {v : α}
    (hw : (i, v) ∈ writes) (hunique : ∀ w ∈ writes, w.1 = i → w.2 = v) :
    scatter writes a i = v := by
  induction writes generalizing a with
  | nil => cases hw
  | cons w writes ih =>
    obtain ⟨hhead, hrest⟩ := List.forall_mem_cons.mp hunique
    by_cases hlater : (i, v) ∈ writes
    · exact ih hlater hrest
    have hnone : ∀ w ∈ writes, w.1 ≠ i := by
      intro w hw hi
      exact hlater (by rw [← hi, ← hrest w hw hi]; exact hw)
    obtain rfl : (i, v) = w := (List.mem_cons.mp hw).resolve_right hlater
    calc scatter ((i, v) :: writes) a i = Function.update a i v i := scatter_of_ne hnone
      _ = v := Function.update_self ..

/-- The bits or-ed into a place are those of its writes. -/
theorem scatterOr_getLsbD (writes : List (Fin n × BitVec m)) (a : Fin n → BitVec m) (i : Fin n)
    (k : ℕ) : (scatterOr writes a i).getLsbD k = true ↔
      (a i).getLsbD k = true ∨ ∃ w ∈ writes, w.1 = i ∧ w.2.getLsbD k = true := by
  induction writes generalizing a with
  | nil => simp [scatterOr]
  | cons w writes ih =>
    have hcons : scatterOr (w :: writes) a =
        scatterOr writes (Function.update a w.1 (a w.1 ||| w.2)) := rfl
    rw [hcons, ih, List.exists_mem_cons_iff]
    by_cases hi : w.1 = i
    · subst hi
      rw [Function.update_self, BitVec.getLsbD_or, Bool.or_eq_true]
      simp [or_assoc]
    · rw [Function.update_of_ne (Ne.symm hi)]
      simp [hi]

/-! ### Bits one to one -/

variable {Payload Fields Place Slot : Type}

/-- Extracting and packing move bits along one correspondence. -/
structure Layout (payloadBit : Payload → Place → Bool) (fieldBit : Fields → Slot → Bool)
    (extract : Payload → Fields) (pack : Fields → Payload) where
  place : Slot ≃ Place
  single : ∀ x, ∃ p, ∀ y, payloadBit p y = true ↔ y = x
  extracted : ∀ p s, fieldBit (extract p) s = payloadBit p (place s)
  packed : ∀ f s, payloadBit (pack f) (place s) = fieldBit f s

namespace Layout

variable {payloadBit : Payload → Place → Bool} {fieldBit : Fields → Slot → Bool}
  {extract : Payload → Fields} {pack : Fields → Payload}

/-- What is packed is extracted, bit by bit. -/
theorem extract_pack (layout : Layout payloadBit fieldBit extract pack) (f : Fields) (s : Slot) :
    fieldBit (extract (pack f)) s = fieldBit f s := by
  rw [layout.extracted, layout.packed]

/-- What is extracted is packed again, bit by bit. -/
theorem pack_extract (layout : Layout payloadBit fieldBit extract pack) (p : Payload) (x : Place) :
    payloadBit (pack (extract p)) x = payloadBit p x := by
  obtain ⟨s, rfl⟩ := layout.place.surjective x
  rw [layout.packed, layout.extracted]

/-- A bit of the payload belongs to one bit of the fields. -/
theorem owner (layout : Layout payloadBit fieldBit extract pack) (x : Place) :
    ∃! s, ∀ p, fieldBit (extract p) s = payloadBit p x := by
  refine ⟨layout.place.symm x, fun p => ?_, fun s hs => ?_⟩
  · rw [layout.extracted, Equiv.apply_symm_apply]
  · obtain ⟨p, hp⟩ := layout.single x
    have hset : payloadBit p (layout.place s) = true := by
      rw [← layout.extracted, hs, hp]
    rw [← (hp _).mp hset, Equiv.symm_apply_apply]

end Layout

end BitLayout
