/-
Languages of bytes that spell languages of texts.

`Spells L T` says that where the bytes of a text begin with a word of `L`, the text begins with one
of `T` that has these bytes.  It goes through the operations on languages, so a grammar over bytes
is read as one over characters.
-/
import Mathlib
import Llmxabe.Lib.Encoding

open Computability

namespace Encoding

/-- A word of `L` in front is a text of `T` in front. -/
def Spells (L : Language UInt8) (T : Language Char) : Prop :=
  ∀ ⦃w : List Char⦄ ⦃a b : List UInt8⦄, a ∈ L → utf8 w = a ++ b →
    ∃ u ∈ T, ∃ v, w = u ++ v ∧ utf8 u = a ∧ utf8 v = b

variable {L M : Language UInt8} {T U : Language Char} {w closing : List Char}

/-- A text whose bytes are a word. -/
theorem Spells.mem (h : Spells L T) (hw : utf8 w ∈ L) : w ∈ T := by
  obtain ⟨u, hu, v, rfl, -, hv⟩ := h hw (List.append_nil _).symm
  obtain rfl := utf8_eq_nil_iff.mp hv
  rwa [List.append_nil]

theorem Spells.mono {T' : Language Char} (h : Spells L T) (hT : T ≤ T') : Spells L T' := by
  intro w a b ha hw
  obtain ⟨u, hu, hrest⟩ := h ha hw
  exact ⟨u, hT hu, hrest⟩

theorem spells_word (u : List Char) : Spells {utf8 u} {u} := by
  rintro w a b rfl hw
  obtain ⟨v, rfl, hv⟩ := peel hw
  exact ⟨u, rfl, v, rfl, rfl, hv⟩

theorem Spells.add (hL : Spells L T) (hM : Spells M U) : Spells (L + M) (T + U) := by
  intro w a b ha hw
  rcases ha with ha | ha
  · obtain ⟨u, hu, hrest⟩ := hL ha hw
    exact ⟨u, Or.inl hu, hrest⟩
  · obtain ⟨u, hu, hrest⟩ := hM ha hw
    exact ⟨u, Or.inr hu, hrest⟩

theorem Spells.mul (hL : Spells L T) (hM : Spells M U) : Spells (L * M) (T * U) := by
  intro w a b ha hw
  obtain ⟨first, hfirst, second, hsecond, rfl⟩ := Language.mem_mul.mp ha
  rw [List.append_assoc] at hw
  obtain ⟨u, hu, v, rfl, rfl, hv⟩ := hL hfirst hw
  obtain ⟨u', hu', v, rfl, rfl, rfl⟩ := hM hsecond hv
  exact ⟨u ++ u', Language.append_mem_mul hu hu', v, (List.append_assoc _ _ _).symm,
    utf8_append u u', rfl⟩

theorem Spells.kstar (hL : Spells L T) : Spells L∗ T∗ := by
  intro w a b ha hw
  obtain ⟨words, rfl, hwords⟩ := Language.mem_kstar.mp ha
  clear ha
  induction words generalizing w with
  | nil => exact ⟨[], Language.nil_mem_kstar T, w, rfl, rfl, hw⟩
  | cons word words ih =>
    rw [List.flatten_cons, List.append_assoc] at hw
    obtain ⟨u, hu, v, rfl, rfl, hv⟩ := hL (hwords word List.mem_cons_self) hw
    obtain ⟨u', hu', v, rfl, hflat, rfl⟩ := ih (fun a ha => hwords a (List.mem_cons_of_mem _ ha)) hv
    refine ⟨u ++ u', ?_, v, (List.append_assoc _ _ _).symm, ?_, rfl⟩
    · obtain ⟨texts, rfl, htexts⟩ := Language.mem_kstar.mp hu'
      exact Language.mem_kstar.mpr ⟨u :: texts, rfl, List.forall_mem_cons.mpr ⟨hu, htexts⟩⟩
    · rw [utf8_append, hflat, List.flatten_cons]

/-- One of some letters that are a byte each. -/
theorem spells_letters {letters : List Char} (hletters : ∀ c ∈ letters, ∃ x, utf8 [c] = [x]) :
    Spells {a | ∃ x ∈ utf8 letters, a = [x]} {u | ∃ c ∈ letters, u = [c]} := by
  rintro w a b ⟨x, hx, rfl⟩ hw
  obtain ⟨c, hc, hxc⟩ := List.mem_flatMap.mp hx
  obtain ⟨y, hy⟩ := hletters c hc
  have hletter : String.utf8EncodeChar c = [y] := by
    rw [← hy, utf8_cons]
    exact (List.append_nil _).symm
  rw [hletter, List.mem_singleton] at hxc
  subst hxc
  rw [← hy] at hw ⊢
  obtain ⟨v, rfl, hv⟩ := peel hw
  exact ⟨[c], ⟨c, hc, rfl⟩, v, rfl, rfl, hv⟩

/-- Words that end in the bytes of a text. -/
theorem spells_closed (hclosing : closing ≠ []) (h : ∀ a ∈ L, utf8 closing <:+ a) :
    Spells L {u | ∃ text, u = text ++ closing} := by
  intro w a b ha hw
  obtain ⟨text, rfl⟩ := h a ha
  have hne : utf8 closing ≠ [] := mt utf8_eq_nil_iff.mp hclosing
  rw [List.append_assoc] at hw
  obtain ⟨u, v, rfl, rfl, hv⟩ := cut_at hw ((whole_utf8 closing).append hne b)
  obtain ⟨v, rfl, rfl⟩ := peel hv
  exact ⟨u ++ closing, ⟨u, rfl⟩, v, (List.append_assoc _ _ _).symm, utf8_append u closing, rfl⟩

/-- A letter that is a byte stands where the byte stands. -/
theorem mem_of_byte {c : Char} {x : UInt8} (hc : utf8 [c] = [x]) (h : x ∈ utf8 w) : c ∈ w := by
  obtain ⟨a, b, hab⟩ := List.append_of_mem h
  have hbyte : x :: b = utf8 [c] ++ b := by rw [hc]; rfl
  have hwhole : Whole (x :: b) := by
    rw [hbyte]
    exact (whole_utf8 [c]).append (by rw [hc]; exact List.cons_ne_nil _ _) b
  obtain ⟨u, v, rfl, -, hv⟩ := cut_at hab hwhole
  obtain ⟨v, rfl, -⟩ := peel (hv.trans hbyte)
  exact List.mem_append_right _ List.mem_cons_self

end Encoding
