/-
The parser of tool calls and the pieces its text arrives in.

While no block grows past the limit, feeding a text in two pieces leaves the parser as
feeding it at once does, and the events say the same (`drain_extend`).
-/
import Llmxabe.Server.CallParser

namespace ToolCallParser

/-! ### Turns -/

/-- The openers are tags. -/
abbrev Tagged (openers : List (List Char)) : Prop := Markers.Tags '<' '>' openers

theorem close_tagged : Tagged [callClose] := by
  refine ⟨by decide, fun t ht => ⟨"/tool_call".toList, ?_, by decide, by decide⟩⟩
  rw [List.mem_singleton.mp ht]
  rfl

/-- Text that follows what is pending. -/
def extend (p : ToolCallParser) (v : List Char) : ToolCallParser :=
  { p with pending := p.pending ++ v }

theorem extend_nil (p : ToolCallParser) : p.extend [] = p := by
  unfold extend
  rw [List.append_nil]

theorem extend_extend (p : ToolCallParser) (v w : List Char) :
    (p.extend v).extend w = p.extend (v ++ w) := by
  unfold extend
  rw [List.append_assoc]

section Emit

variable (p : ToolCallParser) (text source : List Char)

theorem emitText_eq : (p.emitText text source).1 =
    { p with swallowWhitespace := p.swallowWhitespace && (CallBlock.trimStart text).isEmpty } := by
  obtain ⟨openers, schemas, pending, state, swallow⟩ := p
  unfold emitText
  cases swallow with
  | false => by_cases htext : text = [] <;> simp [htext]
  | true => by_cases htext : CallBlock.trimStart text = [] <;> simp [htext]

end Emit

end ToolCallParser

/-- The characters and the calls of some events. -/
def ToolEvent.atoms : ToolEvent → List (Char ⊕ ParsedToolCall × List Char)
  | text t _ => t.map Sum.inl
  | call c source => [Sum.inr (c, source)]

/-- Events, one character or call at a time. -/
def atomsOf (events : List ToolEvent) : List (Char ⊕ ParsedToolCall × List Char) :=
  events.flatMap ToolEvent.atoms

theorem atomsOf_append (es es' : List ToolEvent) :
    atomsOf (es ++ es') = atomsOf es ++ atomsOf es' := List.flatMap_append

namespace ToolCallParser

theorem atomsOf_emitText (p : ToolCallParser) (text source : List Char) :
    atomsOf (p.emitText text source).2 =
      (if p.swallowWhitespace then CallBlock.trimStart text else text).map Sum.inl := by
  obtain ⟨openers, schemas, pending, state, swallow⟩ := p
  unfold emitText
  cases swallow with
  | false => by_cases htext : text = [] <;> simp [htext, atomsOf, ToolEvent.atoms]
  | true =>
    by_cases htext : CallBlock.trimStart text = [] <;> simp [htext, atomsOf, ToolEvent.atoms]

theorem trimStart_append (a b : List Char) : CallBlock.trimStart (a ++ b) =
    if CallBlock.trimStart a = [] then CallBlock.trimStart b else CallBlock.trimStart a ++ b := by
  unfold CallBlock.trimStart
  rw [List.dropWhile_append]
  simp only [List.isEmpty_iff]

theorem trimStart_append_isEmpty (a b : List Char) : (CallBlock.trimStart (a ++ b)).isEmpty =
    ((CallBlock.trimStart a).isEmpty && (CallBlock.trimStart b).isEmpty) := by
  rw [trimStart_append]
  cases ha : CallBlock.trimStart a with
  | nil => rfl
  | cons x rest => rfl

theorem emitText_append (p q : ToolCallParser) (a b source source' source'' : List Char)
    (hq : q.swallowWhitespace = (p.emitText a source).1.swallowWhitespace) :
    (p.emitText (a ++ b) source').1.swallowWhitespace =
      (q.emitText b source'').1.swallowWhitespace := by
  rw [emitText_eq, emitText_eq, hq, emitText_eq, trimStart_append_isEmpty, Bool.and_assoc]

/-- Two texts one behind the other say what they say together. -/
theorem atomsOf_emitText_append (p q : ToolCallParser) (a b source source' source'' : List Char)
    (hq : q.swallowWhitespace = (p.emitText a source).1.swallowWhitespace) :
    atomsOf (p.emitText (a ++ b) source').2 =
      atomsOf (p.emitText a source).2 ++ atomsOf (q.emitText b source'').2 := by
  rw [atomsOf_emitText, atomsOf_emitText, atomsOf_emitText, hq, emitText_eq, ← List.map_append]
  cases hswallow : p.swallowWhitespace with
  | false => simp
  | true =>
    rw [trimStart_append]
    by_cases ha : CallBlock.trimStart a = []
    · simp [ha]
    · simp [ha]

end ToolCallParser

namespace ToolCallParser

variable {codec : Codec} {p : ToolCallParser}

theorem emitText_extend (p : ToolCallParser) (v text source : List Char) :
    (p.extend v).emitText text source =
      ((p.emitText text source).1.extend v, (p.emitText text source).2) := by
  unfold emitText
  show (if p.swallowWhitespace then _ else _) = _
  split
  case isTrue =>
    split
    · rfl
    · rfl
  case isFalse =>
    split
    · rfl
    · rfl

/-- Two texts one behind the other leave the parser as they do together. -/
theorem emitText_resume {p q : ToolCallParser} {a b source source' source'' : List Char}
    (hopeners : q.openers = p.openers) (hschemas : q.schemas = p.schemas)
    (hswallow : q.swallowWhitespace = (p.emitText a source).1.swallowWhitespace)
    (pending : List Char) (state : ParserState) :
    { (p.emitText (a ++ b) source').1 with pending := pending, state := state } =
      { (q.emitText b source'').1 with pending := pending, state := state } := by
  have hafter := emitText_append p q a b source source' source'' hswallow
  simp only [emitText_eq] at hafter ⊢
  rw [hopeners, hschemas, hafter]

theorem turn_text_some {i : ℕ} {opener : List Char} (hstate : p.state = .text)
    (hfirst : Markers.firstOf p.openers p.pending = some (i, opener)) :
    p.turn codec = (({ (p.emitText (p.pending.take i) (p.pending.take i)).1 with
          pending := p.pending.drop (i + opener.length)
          state := .inCall opener (bodyStart opener) },
        (p.emitText (p.pending.take i) (p.pending.take i)).2), false) := by
  unfold turn
  rw [hstate]
  dsimp only
  rw [hfirst]

theorem turn_text_none (hstate : p.state = .text)
    (hfirst : Markers.firstOf p.openers p.pending = none) :
    p.turn codec = (({ (p.emitText (Markers.released p.openers p.pending)
          (Markers.released p.openers p.pending)).1 with
          pending := Markers.held p.openers p.pending
          state := .text },
        (p.emitText (Markers.released p.openers p.pending)
          (Markers.released p.openers p.pending)).2), true) := by
  unfold turn
  rw [hstate]
  dsimp only
  rw [hfirst]
  dsimp only
  rw [emitText_eq, hstate]

/-- A block is read when its closer stands there. -/
def closeBlock (codec : Codec) (p : ToolCallParser) (opener raw : List Char) :
    ToolCallParser × List ToolEvent :=
  match CallBlock.parseCall codec p.schemas raw with
  | some call => ({ p with swallowWhitespace := true }, [.call call (blockText opener raw ++ callClose)])
  | none => p.emitText (callOpen ++ raw ++ callClose) (blockText opener raw ++ callClose)

theorem turn_call_some {opener raw : List Char} {i : ℕ} (hstate : p.state = .inCall opener raw)
    (hfind : Markers.find p.pending callClose = some i) :
    p.turn codec = (closeBlock codec { p with
        pending := p.pending.drop (i + callClose.length), state := .text } opener
      (raw ++ p.pending.take i), false) := by
  unfold turn closeBlock
  rw [hstate]
  dsimp only
  rw [hfind]
  dsimp only
  cases CallBlock.parseCall codec p.schemas (raw ++ p.pending.take i) <;> rfl

theorem closeBlock_extend (p : ToolCallParser) (v opener raw : List Char) :
    closeBlock codec (p.extend v) opener raw =
      ((closeBlock codec p opener raw).1.extend v, (closeBlock codec p opener raw).2) := by
  unfold closeBlock
  show (match CallBlock.parseCall codec p.schemas raw with
    | some call => _
    | none => _) = _
  split
  · rfl
  · exact emitText_extend p v _ _

theorem turn_call_none {opener raw : List Char} (hstate : p.state = .inCall opener raw)
    (hfind : Markers.find p.pending callClose = none)
    (hshort : Detokenizer.byteLen (raw ++ Markers.released [callClose] p.pending) ≤ maxCallBytes) :
    p.turn codec = (({ p with
        pending := Markers.held [callClose] p.pending
        state := .inCall opener (raw ++ Markers.released [callClose] p.pending) }, []), true) := by
  unfold turn
  rw [hstate]
  dsimp only
  rw [hfind]
  dsimp only
  rw [if_neg (Nat.not_lt.mpr hshort)]

/-! ### Blocks of a text -/

/-- What stands in the blocks of a text, up to their closers or where one may have begun. -/
def contents (openers : List (List Char)) : ℕ → ParserState → List Char → List (List Char)
  | 0, _, _ => []
  | fuel + 1, .text, w =>
    match Markers.firstOf openers w with
    | none => []
    | some (i, opener) =>
      contents openers fuel (.inCall opener (bodyStart opener)) (w.drop (i + opener.length))
  | fuel + 1, .inCall _ raw, w =>
    match Markers.find w callClose with
    | none => [raw ++ Markers.released [callClose] w]
    | some i =>
      (raw ++ w.take i) :: contents openers fuel .text (w.drop (i + callClose.length))

/-- No block grows past the limit. -/
def Fits (openers : List (List Char)) (state : ParserState) (w : List Char) : Prop :=
  ∀ raw ∈ contents openers (w.length + 1) state w, Detokenizer.byteLen raw ≤ maxCallBytes

variable {openers : List (List Char)}

theorem drop_tag_lt {w t : List Char} {i : ℕ} (hne : t ≠ []) (hpre : t <+: w.drop i) :
    (w.drop (i + t.length)).length < w.length := by
  have := Markers.length_of_prefix_drop hpre hne
  have := List.length_pos_iff.mpr hne
  rw [List.length_drop]
  omega

theorem drop_opener_lt {w t : List Char} {i : ℕ} (h : Markers.firstOf openers w = some (i, t)) :
    (w.drop (i + t.length)).length < w.length := by
  obtain ⟨-, hne, hpre, -⟩ := Markers.firstOf_spec h
  exact drop_tag_lt hne hpre

theorem drop_close_lt {w : List Char} {i : ℕ} (h : Markers.find w callClose = some i) :
    (w.drop (i + callClose.length)).length < w.length := by
  obtain ⟨hne, hpre, -⟩ := Markers.find_eq_some_iff.mp h
  exact drop_tag_lt hne hpre

theorem contents_fuel {n m : ℕ} {state : ParserState} {w : List Char} (hn : w.length < n)
    (hm : w.length < m) : contents openers n state w = contents openers m state w := by
  induction n generalizing m state w with
  | zero => omega
  | succ n ih =>
    obtain ⟨m, rfl⟩ := Nat.exists_eq_succ_of_ne_zero (Nat.ne_zero_of_lt hm)
    cases state with
    | text =>
      unfold contents
      rcases hfirst : Markers.firstOf openers w with _ | ⟨i, opener⟩
      · rfl
      · have := drop_opener_lt hfirst
        exact ih (by omega) (by omega)
    | inCall opener raw =>
      unfold contents
      rcases hfind : Markers.find w callClose with _ | i
      · rfl
      · have := drop_close_lt hfind
        exact congrArg _ (ih (by omega) (by omega))

theorem contents_call_some {n : ℕ} {w opener raw : List Char} {i : ℕ}
    (h : Markers.find w callClose = some i) : contents openers (n + 1) (.inCall opener raw) w =
      (raw ++ w.take i) :: contents openers n .text (w.drop (i + callClose.length)) := by
  rw [contents, h]

theorem fits_text_some {w t : List Char} {i : ℕ} (h : Markers.firstOf openers w = some (i, t)) :
    Fits openers .text w ↔ Fits openers (.inCall t (bodyStart t)) (w.drop (i + t.length)) := by
  have hlt := drop_opener_lt h
  unfold Fits
  rw [contents, h]
  dsimp only
  rw [contents_fuel hlt (Nat.lt_succ_self _)]

theorem fits_call_some {w opener raw : List Char} {i : ℕ}
    (h : Markers.find w callClose = some i) :
    Fits openers (.inCall opener raw) w ↔ Detokenizer.byteLen (raw ++ w.take i) ≤ maxCallBytes ∧
      Fits openers .text (w.drop (i + callClose.length)) := by
  have hlt := drop_close_lt h
  unfold Fits
  rw [contents_call_some h, List.forall_mem_cons, contents_fuel hlt (Nat.lt_succ_self _)]

theorem fits_call_none {w opener raw : List Char} (h : Markers.find w callClose = none) :
    Fits openers (.inCall opener raw) w ↔
      Detokenizer.byteLen (raw ++ Markers.released [callClose] w) ≤ maxCallBytes := by
  unfold Fits
  rw [contents, h]
  exact List.forall_mem_singleton

theorem byteLen_mono {a b : List Char} (h : a <+: b) :
    Detokenizer.byteLen a ≤ Detokenizer.byteLen b := by
  obtain ⟨rest, rfl⟩ := h
  rw [Detokenizer.byteLen_append]
  exact Nat.le_add_right _ _

/-! ### The closer -/

theorem find_close_append {w : List Char} {i : ℕ} (h : Markers.find w callClose = some i)
    (v : List Char) : Markers.find (w ++ v) callClose = some i := by
  rw [Markers.find_eq_firstOf] at h ⊢
  obtain ⟨⟨j, t⟩, hfirst, rfl⟩ := Option.map_eq_some_iff.mp h
  rw [Markers.firstOf_append close_tagged hfirst v]
  rfl

theorem find_close_held {w : List Char} (h : Markers.find w callClose = none) (v : List Char) :
    Markers.find (w ++ v) callClose =
      (Markers.find (Markers.held [callClose] w ++ v) callClose).map
        ((Markers.released [callClose] w).length + ·) := by
  rw [Markers.find_eq_firstOf] at h ⊢
  rw [Markers.firstOf_held close_tagged (Option.map_eq_none_iff.mp h) v, Markers.find_eq_firstOf,
    Option.map_map, Option.map_map]
  rfl

/-- A text that fits has fit before. -/
theorem Fits.of_append (htags : Tagged openers) {state : ParserState} {w v : List Char}
    (h : Fits openers state (w ++ v)) : Fits openers state w := by
  induction hn : w.length using Nat.strong_induction_on generalizing state w with
  | _ n ih =>
    cases state with
    | text =>
      rcases hfirst : Markers.firstOf openers w with _ | ⟨i, opener⟩
      · unfold Fits
        rw [contents, hfirst]
        exact List.forall_mem_nil _
      · obtain ⟨-, hne, hpre, -⟩ := Markers.firstOf_spec hfirst
        have hlen := Markers.length_of_prefix_drop hpre hne
        rw [fits_text_some (Markers.firstOf_append htags hfirst v),
          List.drop_append_of_le_length hlen] at h
        rw [fits_text_some hfirst]
        exact ih _ (hn ▸ drop_opener_lt hfirst) h rfl
    | inCall opener raw =>
      rcases hfind : Markers.find w callClose with _ | i
      · -- the closer, or its beginning, stands behind what is released
        rw [fits_call_none hfind]
        rcases hlater : Markers.find (w ++ v) callClose with _ | j
        · rw [fits_call_none hlater] at h
          refine (byteLen_mono ?_).trans h
          rw [← Markers.released_held_append, ← List.append_assoc]
          exact List.prefix_append _ _
        · rw [fits_call_some hlater] at h
          refine (byteLen_mono ?_).trans h.1
          rw [find_close_held hfind] at hlater
          obtain ⟨k, -, rfl⟩ := Option.map_eq_some_iff.mp hlater
          rw [Markers.append_eq_released v, List.take_length_add_append, ← List.append_assoc]
          exact List.prefix_append _ _
      · obtain ⟨hne, hpre, -⟩ := Markers.find_eq_some_iff.mp hfind
        have hlen := Markers.length_of_prefix_drop hpre hne
        rw [fits_call_some (find_close_append hfind v), List.drop_append_of_le_length hlen,
          List.take_append_of_le_length (by omega)] at h
        rw [fits_call_some hfind]
        exact ⟨h.1, ih _ (hn ▸ drop_close_lt hfind) h.2 rfl⟩

/-! ### The loop -/

/-- The loop over what is pending. -/
def drain (codec : Codec) (p : ToolCallParser) : ToolCallParser × List ToolEvent :=
  p.loop codec (p.pending.length + 1)

theorem push_eq (p : ToolCallParser) (text : List Char) :
    p.push codec text = (p.extend text).drain codec := rfl

theorem pending_emitText (p : ToolCallParser) (text source : List Char) :
    (p.emitText text source).1.pending = p.pending := by
  rw [emitText_eq]

theorem pending_closeBlock (p : ToolCallParser) (opener raw : List Char) :
    (closeBlock codec p opener raw).1.pending = p.pending := by
  unfold closeBlock
  cases CallBlock.parseCall codec p.schemas raw with
  | none => exact pending_emitText p _ _
  | some call => rfl

theorem state_closeBlock (p : ToolCallParser) (opener raw : List Char) :
    (closeBlock codec p opener raw).1.state = p.state := by
  unfold closeBlock
  cases CallBlock.parseCall codec p.schemas raw with
  | none =>
    dsimp only
    rw [emitText_eq]
  | some call => rfl

theorem openers_closeBlock (p : ToolCallParser) (opener raw : List Char) :
    (closeBlock codec p opener raw).1.openers = p.openers := by
  unfold closeBlock
  cases CallBlock.parseCall codec p.schemas raw with
  | none =>
    dsimp only
    rw [emitText_eq]
  | some call => rfl

theorem openers_turn (p : ToolCallParser) : (p.turn codec).1.1.openers = p.openers := by
  cases hstate : p.state with
  | text =>
    rcases hfirst : Markers.firstOf p.openers p.pending with _ | ⟨i, opener⟩
    · rw [turn_text_none hstate hfirst, emitText_eq]
    · rw [turn_text_some hstate hfirst, emitText_eq]
  | inCall opener raw =>
    rcases hfind : Markers.find p.pending callClose with _ | i
    · unfold turn
      rw [hstate]
      dsimp only
      rw [hfind]
      dsimp only
      split
      · rw [emitText_eq]
      · rfl
    · rw [turn_call_some hstate hfind, openers_closeBlock]

theorem turn_shrinks (h : (p.turn codec).2 = false) :
    (p.turn codec).1.1.pending.length < p.pending.length := by
  cases hstate : p.state with
  | text =>
    rcases hfirst : Markers.firstOf p.openers p.pending with _ | ⟨i, opener⟩
    · rw [turn_text_none hstate hfirst] at h
      cases h
    · rw [turn_text_some hstate hfirst]
      exact drop_opener_lt hfirst
  | inCall opener raw =>
    rcases hfind : Markers.find p.pending callClose with _ | i
    · unfold turn at h
      rw [hstate] at h
      dsimp only at h
      rw [hfind] at h
      dsimp only at h
      split at h <;> cases h
    · rw [turn_call_some hstate hfind, pending_closeBlock]
      exact drop_close_lt hfind

theorem loop_fuel {n m : ℕ} (hn : p.pending.length < n) (hm : p.pending.length < m) :
    p.loop codec n = p.loop codec m := by
  induction n generalizing m p with
  | zero => omega
  | succ n ih =>
    obtain ⟨m, rfl⟩ := Nat.exists_eq_succ_of_ne_zero (Nat.ne_zero_of_lt hm)
    unfold loop
    cases hreturns : (p.turn codec).2 with
    | true => simp only [hreturns, if_true]
    | false =>
      have hlt := turn_shrinks hreturns
      have hrest : (p.turn codec).1.1.loop codec n = (p.turn codec).1.1.loop codec m :=
        ih (by omega) (by omega)
      simp only [hrest]

theorem drain_of_return (h : (p.turn codec).2 = true) : p.drain codec = (p.turn codec).1 := by
  unfold drain loop
  simp only [h, if_true]

theorem drain_of_turn (h : (p.turn codec).2 = false) :
    p.drain codec = (((p.turn codec).1.1.drain codec).1,
      (p.turn codec).1.2 ++ ((p.turn codec).1.1.drain codec).2) := by
  have hlt := turn_shrinks h
  have hrest : (p.turn codec).1.1.loop codec p.pending.length = (p.turn codec).1.1.drain codec :=
    loop_fuel (by omega) (Nat.lt_succ_self _)
  unfold drain loop
  simp only [h, hrest]
  rfl

/-- A turn that goes on does the same when more text follows. -/
theorem turn_extend (htags : Tagged p.openers) (h : (p.turn codec).2 = false) (v : List Char) :
    (p.extend v).turn codec =
      (((p.turn codec).1.1.extend v, (p.turn codec).1.2), false) := by
  cases hstate : p.state with
  | text =>
    have hstate' : (p.extend v).state = .text := hstate
    rcases hfirst : Markers.firstOf p.openers p.pending with _ | ⟨i, opener⟩
    · rw [turn_text_none hstate hfirst] at h
      cases h
    · obtain ⟨-, hne, hpre, -⟩ := Markers.firstOf_spec hfirst
      have hlen := Markers.length_of_prefix_drop hpre hne
      have hlater : Markers.firstOf (p.extend v).openers (p.extend v).pending = some (i, opener) :=
        Markers.firstOf_append htags hfirst v
      have htake : (p.extend v).pending.take i = p.pending.take i :=
        List.take_append_of_le_length (by omega)
      have hdrop : (p.extend v).pending.drop (i + opener.length) =
          p.pending.drop (i + opener.length) ++ v := List.drop_append_of_le_length hlen
      rw [turn_text_some hstate hfirst, turn_text_some hstate' hlater, htake, hdrop,
        emitText_extend]
      rfl
  | inCall opener raw =>
    have hstate' : (p.extend v).state = .inCall opener raw := hstate
    rcases hfind : Markers.find p.pending callClose with _ | i
    · unfold turn at h
      rw [hstate] at h
      dsimp only at h
      rw [hfind] at h
      dsimp only at h
      split at h <;> cases h
    · obtain ⟨hne, hpre, -⟩ := Markers.find_eq_some_iff.mp hfind
      have hlen := Markers.length_of_prefix_drop hpre hne
      have hlater : Markers.find (p.extend v).pending callClose = some i :=
        find_close_append hfind v
      have htake : (p.extend v).pending.take i = p.pending.take i :=
        List.take_append_of_le_length (by omega)
      have hdrop : (p.extend v).pending.drop (i + callClose.length) =
          p.pending.drop (i + callClose.length) ++ v := List.drop_append_of_le_length hlen
      rw [turn_call_some hstate hfind, turn_call_some hstate' hlater, htake, hdrop]
      have hclose : closeBlock codec ({ p with
          pending := p.pending.drop (i + callClose.length), state := .text }.extend v) opener
          (raw ++ p.pending.take i) = _ := closeBlock_extend _ v opener _
      exact congrArg (fun out => (out, false)) hclose

theorem Fits.turn (htags : Tagged p.openers) (h : (p.turn codec).2 = false) {v : List Char}
    (hfits : Fits p.openers p.state (p.pending ++ v)) :
    Fits p.openers (p.turn codec).1.1.state ((p.turn codec).1.1.pending ++ v) := by
  cases hstate : p.state with
  | text =>
    rcases hfirst : Markers.firstOf p.openers p.pending with _ | ⟨i, opener⟩
    · rw [turn_text_none hstate hfirst] at h
      cases h
    · obtain ⟨-, hne, hpre, -⟩ := Markers.firstOf_spec hfirst
      have hlen := Markers.length_of_prefix_drop hpre hne
      rw [hstate, fits_text_some (Markers.firstOf_append htags hfirst v),
        List.drop_append_of_le_length hlen] at hfits
      rw [turn_text_some hstate hfirst]
      exact hfits
  | inCall opener raw =>
    rcases hfind : Markers.find p.pending callClose with _ | i
    · unfold ToolCallParser.turn at h
      rw [hstate] at h
      dsimp only at h
      rw [hfind] at h
      dsimp only at h
      split at h <;> cases h
    · obtain ⟨hne, hpre, -⟩ := Markers.find_eq_some_iff.mp hfind
      have hlen := Markers.length_of_prefix_drop hpre hne
      rw [hstate, fits_call_some (find_close_append hfind v),
        List.drop_append_of_le_length hlen] at hfits
      rw [turn_call_some hstate hfind, pending_closeBlock, state_closeBlock]
      exact hfits.2

/-- A turn that returns, and the turn it comes to when more text follows. -/
theorem turn_resume (htags : Tagged p.openers) (h : (p.turn codec).2 = true) (v : List Char)
    (hfits : Fits p.openers p.state (p.pending ++ v)) :
    ((p.extend v).turn codec).1.1 = (((p.turn codec).1.1.extend v).turn codec).1.1 ∧
      ((p.extend v).turn codec).2 = (((p.turn codec).1.1.extend v).turn codec).2 ∧
      atomsOf ((p.extend v).turn codec).1.2 = atomsOf (p.turn codec).1.2 ++
        atomsOf (((p.turn codec).1.1.extend v).turn codec).1.2 := by
  cases hstate : p.state with
  | text =>
    have hstate' : (p.extend v).state = .text := hstate
    rcases hfirst : Markers.firstOf p.openers p.pending with _ | ⟨i, opener⟩
    -- no opener yet: what may begin one is held, and the search goes on from there
    · have hsearch := Markers.firstOf_held htags hfirst v
      rw [turn_text_none hstate hfirst]
      set r := Markers.released p.openers p.pending
      set q : ToolCallParser := { (p.emitText r r).1 with
        pending := Markers.held p.openers p.pending, state := .text }
      have hstate'' : (q.extend v).state = .text := rfl
      have hschemas : (q.extend v).schemas = p.schemas := by
        show (p.emitText r r).1.schemas = p.schemas
        rw [emitText_eq]
      have hopeners : (q.extend v).openers = p.openers := by
        show (p.emitText r r).1.openers = p.openers
        rw [emitText_eq]
      have hsplit : p.pending ++ v = r ++ (q.extend v).pending := Markers.append_eq_released v
      have hswallow : (q.extend v).swallowWhitespace =
          ((p.extend v).emitText r r).1.swallowWhitespace := by
        rw [emitText_extend]
        rfl
      have hextend : ((p.extend v).emitText r r).2 = (p.emitText r r).2 := by
        rw [emitText_extend]
      have hatoms := fun b source' source'' => atomsOf_emitText_append (p.extend v) (q.extend v) r b
        r source' source'' hswallow
      rcases hfirst' : Markers.firstOf p.openers (Markers.held p.openers p.pending ++ v) with
        _ | ⟨j, opener⟩
      -- none with the new text either: more of it is released, as text
      · rw [hfirst', Option.map_none] at hsearch
        have hrest : Markers.firstOf (q.extend v).openers (q.extend v).pending = none :=
          hopeners ▸ hfirst'
        have hreleased : Markers.released (p.extend v).openers (p.extend v).pending =
            r ++ Markers.released (q.extend v).openers (q.extend v).pending := by
          rw [hopeners]
          exact (Markers.released_held_append v).symm
        have hheld : Markers.held (p.extend v).openers (p.extend v).pending =
            Markers.held (q.extend v).openers (q.extend v).pending := by
          rw [hopeners]
          exact (Markers.held_held_append v).symm
        rw [turn_text_none hstate' hsearch, turn_text_none hstate'' hrest, hreleased, hheld]
        refine ⟨emitText_resume (p := p.extend v) hopeners hschemas hswallow _ _, rfl, ?_⟩
        rw [hatoms, ← hextend]
      -- the new text completes an opener, or brings one
      · rw [hfirst', Option.map_some] at hsearch
        have hrest : Markers.firstOf (q.extend v).openers (q.extend v).pending = some (j, opener) :=
          hopeners ▸ hfirst'
        have htake : (p.extend v).pending.take (r.length + j) =
            r ++ (q.extend v).pending.take j := by
          show (p.pending ++ v).take (r.length + j) = _
          rw [hsplit]
          exact List.take_length_add_append _
        have hdrop : (p.extend v).pending.drop (r.length + j + opener.length) =
            (q.extend v).pending.drop (j + opener.length) := by
          show (p.pending ++ v).drop (r.length + j + opener.length) = _
          rw [hsplit, Nat.add_assoc]
          exact List.drop_length_add_append _
        rw [turn_text_some hstate' hsearch, turn_text_some hstate'' hrest, htake, hdrop]
        refine ⟨emitText_resume (p := p.extend v) hopeners hschemas hswallow _ _, rfl, ?_⟩
        rw [hatoms, ← hextend]
    -- an opener ends the turn with work left, so the turn does not return
    · rw [turn_text_some hstate hfirst] at h
      cases h
  | inCall opener raw =>
    have hstate' : (p.extend v).state = .inCall opener raw := hstate
    -- the call is still open: its body grows by what cannot begin the closing tag
    rcases hfind : Markers.find p.pending callClose with _ | i
    · have hsearch := find_close_held hfind v
      rw [hstate] at hfits
      have hshort := (fits_call_none hfind).mp (hfits.of_append htags)
      rw [turn_call_none hstate hfind hshort]
      set r := Markers.released [callClose] p.pending
      set q : ToolCallParser := { p with
        pending := Markers.held [callClose] p.pending, state := .inCall opener (raw ++ r) }
      have hstate'' : (q.extend v).state = .inCall opener (raw ++ r) := rfl
      have hsplit : p.pending ++ v = r ++ (q.extend v).pending := Markers.append_eq_released v
      -- it stays open, and within its limit
      rcases hfind' : Markers.find (Markers.held [callClose] p.pending ++ v) callClose with _ | j
      · rw [hfind', Option.map_none] at hsearch
        have hlong := (fits_call_none hsearch).mp hfits
        have hreleased : raw ++ Markers.released [callClose] (p.extend v).pending =
            (raw ++ r) ++ Markers.released [callClose] (q.extend v).pending := by
          rw [List.append_assoc]
          exact congrArg (raw ++ ·) (Markers.released_held_append v).symm
        have hheld : Markers.held [callClose] (p.extend v).pending =
            Markers.held [callClose] (q.extend v).pending := (Markers.held_held_append v).symm
        have hlong' : Detokenizer.byteLen ((raw ++ r) ++
            Markers.released [callClose] (q.extend v).pending) ≤ maxCallBytes := hreleased ▸ hlong
        rw [turn_call_none hstate' hsearch hlong, turn_call_none hstate'' hfind' hlong', hreleased,
          hheld]
        exact ⟨rfl, rfl, rfl⟩
      -- the new text closes it, with the same body
      · rw [hfind', Option.map_some] at hsearch
        have htake : raw ++ (p.extend v).pending.take (r.length + j) =
            (raw ++ r) ++ (q.extend v).pending.take j := by
          show raw ++ (p.pending ++ v).take (r.length + j) = _
          rw [hsplit, List.append_assoc]
          exact congrArg (raw ++ ·) (List.take_length_add_append _)
        have hdrop : (p.extend v).pending.drop (r.length + j + callClose.length) =
            (q.extend v).pending.drop (j + callClose.length) := by
          show (p.pending ++ v).drop (r.length + j + callClose.length) = _
          rw [hsplit, Nat.add_assoc]
          exact List.drop_length_add_append _
        rw [turn_call_some hstate' hsearch, turn_call_some hstate'' hfind', htake, hdrop]
        exact ⟨rfl, rfl, rfl⟩
    -- a closing tag ends the turn with work left
    · rw [turn_call_some hstate hfind] at h
      cases h

/-- Text that arrives in two pieces is read as if it had arrived in one. -/
theorem drain_extend (htags : Tagged p.openers) (v : List Char)
    (hfits : Fits p.openers p.state (p.pending ++ v)) :
    ((p.extend v).drain codec).1 = (((p.drain codec).1.extend v).drain codec).1 ∧
      atomsOf ((p.extend v).drain codec).2 = atomsOf (p.drain codec).2 ++
        atomsOf (((p.drain codec).1.extend v).drain codec).2 := by
  induction hn : p.pending.length using Nat.strong_induction_on generalizing p with
  | _ n ih =>
    cases hreturns : (p.turn codec).2 with
    | true =>
      obtain ⟨hparser, hflag, hatoms⟩ := turn_resume htags hreturns v hfits
      rw [drain_of_return hreturns]
      cases hagain : ((p.extend v).turn codec).2 with
      | true =>
        rw [drain_of_return hagain, drain_of_return (hflag.symm.trans hagain)]
        exact ⟨hparser, hatoms⟩
      | false =>
        rw [drain_of_turn hagain, drain_of_turn (hflag.symm.trans hagain)]
        dsimp only
        rw [hparser]
        refine ⟨rfl, ?_⟩
        rw [atomsOf_append, atomsOf_append, hatoms, List.append_assoc]
    | false =>
      have hturn := turn_extend htags hreturns v
      have hagain : ((p.extend v).turn codec).2 = false := by rw [hturn]
      have hopeners : (p.turn codec).1.1.openers = p.openers := openers_turn p
      obtain ⟨hparser, hatoms⟩ := ih _ (hn ▸ turn_shrinks hreturns) (hopeners ▸ htags)
        (hopeners ▸ hfits.turn htags hreturns) rfl
      rw [drain_of_turn hagain, drain_of_turn hreturns, hturn]
      refine ⟨hparser, ?_⟩
      rw [atomsOf_append, atomsOf_append, hatoms, List.append_assoc]

/-! ### Whole answers -/

theorem pushAll_concat (p : ToolCallParser) (pieces : List (List Char)) (text : List Char) :
    p.pushAll codec (pieces ++ [text]) =
      (((p.pushAll codec pieces).1.push codec text).1,
        (p.pushAll codec pieces).2 ++ ((p.pushAll codec pieces).1.push codec text).2) := by
  induction pieces generalizing p with
  | nil => simp [pushAll]
  | cons piece pieces ih =>
    rw [List.cons_append, pushAll, pushAll, ih]
    dsimp only
    rw [List.append_assoc]

/-- Pieces leave a parser that waits for text as their concatenation does. -/
theorem pushAll_eq (htags : Tagged p.openers) (hwaits : p.drain codec = (p, []))
    (pieces : List (List Char)) (hfits : Fits p.openers p.state (p.pending ++ pieces.flatten)) :
    (p.pushAll codec pieces).1 = (p.push codec pieces.flatten).1 ∧
      atomsOf (p.pushAll codec pieces).2 = atomsOf (p.push codec pieces.flatten).2 := by
  induction pieces using List.reverseRecOn with
  | nil =>
    rw [List.flatten_nil, push_eq, extend_nil, hwaits]
    exact ⟨rfl, rfl⟩
  | append_singleton pieces text ih =>
    rw [List.flatten_append, List.flatten_singleton, ← List.append_assoc] at hfits
    obtain ⟨hparser, hatoms⟩ := ih (hfits.of_append htags)
    obtain ⟨hagain, hmore⟩ := @drain_extend codec (p.extend pieces.flatten) htags text hfits
    rw [pushAll_concat, List.flatten_append, List.flatten_singleton, push_eq p, ← extend_extend,
      hagain, hmore, push_eq, hparser, atomsOf_append, hatoms, push_eq]
    exact ⟨rfl, rfl⟩

/-- A name that the markup can hold. -/
def Named (tools : List ToolDefinition) : Prop :=
  ∀ tool ∈ tools, '<' ∉ tool.name.toList ∧ '>' ∉ tool.name.toList

theorem Named.tagged {tools : List ToolDefinition} (h : Named tools) :
    Tagged (new tools).openers := by
  refine ⟨by decide, fun t ht => ?_⟩
  rcases List.mem_cons.mp ht with rfl | ht
  · exact ⟨"tool_call".toList, by decide, by decide, by decide⟩
  · obtain ⟨tool, htool, rfl⟩ := List.mem_map.mp ht
    obtain ⟨hopening, hclosing⟩ := h tool htool
    have hword : "<function=".toList = '<' :: "function=".toList := by decide
    refine ⟨"function=".toList ++ tool.name.toList, ?_, ?_, ?_⟩
    · rw [hword]
      rfl
    · rw [List.mem_append]
      exact fun hmem => hmem.elim (by decide) hopening
    · rw [List.mem_append]
      exact fun hmem => hmem.elim (by decide) hclosing

theorem new_waits (tools : List ToolDefinition) :
    (new tools).drain codec = (new tools, []) := by
  have hnone : Markers.firstOf (new tools).openers (new tools).pending = none := by
    refine Markers.firstOf_eq_none_iff.mpr fun i hoccurs => ?_
    obtain ⟨t, ht, hne, hpre⟩ := hoccurs
    have := Markers.length_of_prefix_drop hpre hne
    have hpos := List.length_pos_iff.mpr hne
    have hempty : (new tools).pending.length = 0 := rfl
    omega
  have hturn := @turn_text_none codec (new tools) rfl hnone
  rw [drain_of_return (by rw [hturn]), hturn]
  have hreleased : Markers.released (new tools).openers (new tools).pending = [] := List.take_nil
  have hheld : Markers.held (new tools).openers (new tools).pending = [] := List.drop_nil
  rw [hreleased, hheld]
  rfl

/-- While no block grows past the limit, the pieces do not matter. -/
theorem atomsOf_parse {tools : List ToolDefinition} (hnamed : Named tools)
    (pieces : List (List Char)) (hfits : Fits (new tools).openers .text pieces.flatten) :
    atomsOf (parse codec tools pieces) = atomsOf (parse codec tools [pieces.flatten]) := by
  have hwaits : (new tools).drain codec = (new tools, []) := new_waits tools
  obtain ⟨hparser, hatoms⟩ := pushAll_eq hnamed.tagged hwaits pieces hfits
  unfold parse
  dsimp only
  rw [atomsOf_append, hparser, hatoms, pushAll, pushAll, atomsOf_append, atomsOf_append]
  simp only [atomsOf, List.flatMap_nil, List.append_nil]

/-- How a text is cut does not show in the events. -/
theorem parse_cuts {tools : List ToolDefinition} (hnamed : Named tools)
    {pieces pieces' : List (List Char)} (hsame : pieces.flatten = pieces'.flatten)
    (hfits : Fits (new tools).openers .text pieces.flatten) :
    atomsOf (parse codec tools pieces) = atomsOf (parse codec tools pieces') := by
  rw [atomsOf_parse hnamed pieces hfits, atomsOf_parse hnamed pieces' (hsame ▸ hfits), hsame]

/-- One tool. -/
def oneTool : List ToolDefinition := [⟨"f", .null, []⟩]

theorem oneTool_named : Named oneTool := by
  unfold Named oneTool
  decide

/-- A reader of JSON that is not asked anything. -/
def noCodec : Codec where
  parse := fun _ => none
  spell := fun _ => ""
  prompt := fun _ => ""
  decode := fun _ => .error ""

/-- A call whose tags are cut. -/
def cutCall : List (List Char) :=
  ["a <tool".toList, "_call><function=f></function></tool".toList, "_call>".toList]

theorem parse_cuts_witness :
    atomsOf (parse noCodec oneTool cutCall) = atomsOf (parse noCodec oneTool [cutCall.flatten]) := by
  refine parse_cuts oneTool_named ?_ ?_
  · rw [List.flatten_singleton]
  · unfold Fits
    decide

end ToolCallParser
