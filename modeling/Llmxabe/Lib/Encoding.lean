/-
Texts as bytes.

UTF-8 is read from the front: no character's bytes begin those of another one.  And the first byte
of a character tells itself from the others.  So what the bytes of a text begin with begins the
text (`peel`), and the text can be cut where a first byte stands (`cut_at`).
-/
import Mathlib.Data.List.Basic
import Mathlib.Data.List.Infix

namespace Encoding

/-- The bytes of a text. -/
def utf8 (w : List Char) : List UInt8 := w.flatMap String.utf8EncodeChar

/-- Bytes that do not begin inside a character. -/
def Whole (b : List UInt8) : Prop := ∀ x ∈ b.head?, x.IsUTF8FirstByte

variable {u v w : List Char} {a b : List UInt8} {c d : Char}

theorem utf8_cons (c : Char) (w : List Char) : utf8 (c :: w) = String.utf8EncodeChar c ++ utf8 w :=
  List.flatMap_cons

theorem utf8_append (u v : List Char) : utf8 (u ++ v) = utf8 u ++ utf8 v := List.flatMap_append

theorem encode_cons (c : Char) : ∃ x rest, String.utf8EncodeChar c = x :: rest ∧
    x.IsUTF8FirstByte ∧ ∀ y ∈ rest, ¬y.IsUTF8FirstByte := by
  rcases hc : String.utf8EncodeChar c with _ | ⟨x, rest⟩
  · exact absurd hc String.utf8EncodeChar_ne_nil
  · have hfirst : ∀ i (hi : i < (x :: rest).length), ((x :: rest)[i]).IsUTF8FirstByte ↔ i = 0 := by
      rw [← hc]
      exact fun i hi => UInt8.isUTF8FirstByte_getElem_utf8EncodeChar
    refine ⟨x, rest, rfl, (hfirst 0 (Nat.succ_pos _)).mpr rfl, fun y hy => ?_⟩
    obtain ⟨i, hi, rfl⟩ := List.getElem_of_mem hy
    exact fun hy => absurd ((hfirst (i + 1) (Nat.succ_lt_succ hi)).mp hy) (Nat.succ_ne_zero i)

/-- The code is read from its front. -/
theorem encode_inj (h : String.utf8EncodeChar c ++ a = String.utf8EncodeChar d ++ b) : c = d := by
  have hread : ∀ (c : Char) (a : List UInt8),
      ByteArray.utf8DecodeChar? (String.utf8EncodeChar c ++ a).toByteArray 0 = some c := by
    intro c a
    rw [List.toByteArray_append]
    exact ByteArray.utf8DecodeChar?_utf8EncodeChar_append
  have hboth := hread c a
  rw [h, hread d b] at hboth
  exact (Option.some.inj hboth).symm

theorem peel (h : utf8 w = utf8 u ++ b) : ∃ v, w = u ++ v ∧ utf8 v = b := by
  induction u generalizing w with
  | nil => exact ⟨w, rfl, h⟩
  | cons c u ih =>
    rw [utf8_cons, List.append_assoc] at h
    rcases w with _ | ⟨d, w⟩
    · obtain ⟨x, rest, hc, -⟩ := encode_cons c
      rw [hc] at h
      cases h
    · rw [utf8_cons] at h
      obtain rfl := encode_inj h
      obtain ⟨v, rfl, hv⟩ := ih (List.append_cancel_left h)
      exact ⟨v, rfl, hv⟩

theorem utf8_injective : Function.Injective utf8 := by
  intro w u h
  obtain ⟨v, rfl, hv⟩ := peel (h.trans (List.append_nil _).symm)
  rcases v with _ | ⟨c, v⟩
  · exact List.append_nil u
  · obtain ⟨x, rest, hc, -⟩ := encode_cons c
    rw [utf8_cons, hc] at hv
    cases hv

@[simp]
theorem utf8_eq_nil_iff : utf8 w = [] ↔ w = [] := by
  constructor
  · intro h
    exact utf8_injective h
  · rintro rfl
    rfl

/-- A text is cut where a first byte stands. -/
theorem cut_at (h : utf8 w = a ++ b) (hb : Whole b) : ∃ u v, w = u ++ v ∧ utf8 u = a ∧ utf8 v = b := by
  induction w generalizing a with
  | nil =>
    obtain ⟨rfl, rfl⟩ := List.append_eq_nil_iff.mp h.symm
    exact ⟨[], [], rfl, rfl, rfl⟩
  | cons c w ih =>
    rcases a with _ | ⟨x, a⟩
    · exact ⟨[], c :: w, rfl, rfl, h⟩
    · obtain ⟨y, rest, hc, -, hrest⟩ := encode_cons c
      rw [utf8_cons, hc] at h
      obtain ⟨rfl, htail⟩ := List.cons.inj h
      rcases List.append_eq_append_iff.mp htail with ⟨e, rfl, htext⟩ | ⟨e, rfl, rfl⟩
      · obtain ⟨u, v, rfl, rfl, hv⟩ := ih htext
        refine ⟨c :: u, v, rfl, ?_, hv⟩
        rw [utf8_cons, hc]
        rfl
      · rcases e with _ | ⟨z, e⟩
        · refine ⟨[c], w, rfl, ?_, rfl⟩
          rw [utf8_cons, hc, List.append_nil]
          exact List.append_nil _
        · -- the cut would be inside a character
          exact absurd (hb z rfl) (hrest z (List.mem_append_right _ List.mem_cons_self))

theorem Whole.append (h : Whole a) (hne : a ≠ []) (b : List UInt8) : Whole (a ++ b) := by
  rcases a with _ | ⟨x, a⟩
  · exact absurd rfl hne
  · exact h

theorem whole_utf8 (w : List Char) : Whole (utf8 w) := by
  rcases w with _ | ⟨c, w⟩
  · intro x hx
    cases hx
  · obtain ⟨x, rest, hc, hx, -⟩ := encode_cons c
    rw [utf8_cons, hc]
    intro y hy
    cases hy
    exact hx

end Encoding
