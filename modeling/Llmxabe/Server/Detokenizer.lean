/-
Turning a token stream into text, one token at a time
(`xabe-server/src/http/generate.rs`).

A tokenizer is known by the bytes of its pieces; it decodes a list of tokens by
the lossy reading of their bytes.  Whatever has been delivered is the reading
of a prefix of the tokens at whose end no character is under way (`Aligned`).
The rest is held while the text ends in a replacement character, incomplete or
not, and the end of the stream asks for nothing more.
-/
import Llmxabe.Lib.Utf8

namespace Detokenizer

/-- What the tokenizer makes of some tokens. -/
def decode (piece : ℕ → List UInt8) (tokens : List ℕ) : List Char := lossy (tokens.flatMap piece)

/-- The length of a text in bytes. -/
def byteLen (text : List Char) : ℕ := (text.map Char.utf8Size).sum

end Detokenizer

/-- The tokens so far, and the window that is decoded. -/
structure Detokenizer where
  tokens : List ℕ
  prefixOffset : ℕ
  readOffset : ℕ
  deriving DecidableEq, Repr

namespace Detokenizer

/-- No token yet. -/
def new : Detokenizer := ⟨[], 0, 0⟩

/-- Decode a window that ends at a new token, and deliver what it added. -/
def push (piece : ℕ → List UInt8) (d : Detokenizer) (token : ℕ) : List Char × Detokenizer :=
  let tokens := d.tokens ++ [token]
  let before := decode piece ((tokens.drop d.prefixOffset).take (d.readOffset - d.prefixOffset))
  let whole := decode piece (tokens.drop d.prefixOffset)
  if byteLen whole ≤ byteLen before ∨ whole.getLast? = some replacement then
    ([], { d with tokens })
  else
    (if before <+: whole then whole.drop before.length else whole,
      ⟨tokens, d.readOffset, tokens.length⟩)

/-- All that is delivered for some tokens. -/
def pushAll (piece : ℕ → List UInt8) : Detokenizer → List ℕ → List Char × Detokenizer
  | d, [] => ([], d)
  | d, token :: tokens =>
    let first := d.push piece token
    let rest := pushAll piece first.2 tokens
    (first.1 ++ rest.1, rest.2)

/-- What is asked for when the engine says it is done. -/
def atDone (_ : Detokenizer) : List Char := []

/-- The deltas of a token list, up to its end. -/
def delivered (piece : ℕ → List UInt8) (tokens : List ℕ) : List Char :=
  (new.pushAll piece tokens).1

/-- The deltas with what the end of the stream adds. -/
def deliveredAtEnd (piece : ℕ → List UInt8) (tokens : List ℕ) : List Char :=
  delivered piece tokens ++ (new.pushAll piece tokens).2.atDone

/-- Incremental decoding is batch decoding: at the end all has been delivered,
and before it only a suffix is held, while the text ends in an incomplete
character. -/
structure Faithful (piece : ℕ → List UInt8) (tokens : List ℕ) : Prop where
  atEnd : deliveredAtEnd piece tokens = decode piece tokens
  sofar : ∀ pre, pre <+: tokens → ∃ held, delivered piece pre ++ held = decode piece pre ∧
    (held ≠ [] → Incomplete (pre.flatMap piece))

/-- The text ends in a replacement character. -/
def EndsReplaced (piece : ℕ → List UInt8) (tokens : List ℕ) : Prop :=
  (decode piece tokens).getLast? = some replacement

/-! ### What has been delivered -/

/-- The delivered text reads the tokens up to `readOffset`, where no character
is under way; anything behind it ends in a replacement character. -/
structure Aligned (piece : ℕ → List UInt8) (text : List Char) (d : Detokenizer) : Prop where
  ordered : d.prefixOffset ≤ d.readOffset
  inside : d.readOffset ≤ d.tokens.length
  idle : ¬ Incomplete ((d.tokens.take d.prefixOffset).flatMap piece)
  idleRead : ¬ Incomplete ((d.tokens.take d.readOffset).flatMap piece)
  text_eq : text = decode piece (d.tokens.take d.readOffset)
  settled : text.getLast? ≠ some replacement
  held : text ≠ decode piece d.tokens → EndsReplaced piece d.tokens

section Push

variable {piece : ℕ → List UInt8} {text : List Char} {d : Detokenizer}

theorem byteLen_append (as bs : List Char) : byteLen (as ++ bs) = byteLen as + byteLen bs := by
  rw [byteLen, List.map_append, List.sum_append]
  rfl

theorem byteLen_eq_zero_iff {as : List Char} : byteLen as = 0 ↔ as = [] := by
  constructor
  · intro h
    by_contra hne
    obtain ⟨c, cs, rfl⟩ := List.exists_cons_of_ne_nil hne
    rw [byteLen, List.map_cons, List.sum_cons] at h
    have hpos := c.utf8Size_pos
    omega
  · rintro rfl
    rfl

theorem decode_append {as bs : List ℕ} (h : ¬ Incomplete (as.flatMap piece)) :
    decode piece (as ++ bs) = decode piece as ++ decode piece bs := by
  rw [decode, List.flatMap_append]
  exact lossy_append h

theorem Aligned.new : Aligned piece [] new := by
  refine ⟨le_rfl, le_rfl, fun h => h rfl, fun h => h rfl, rfl, fun h => ?_, fun h => absurd rfl h⟩
  cases h

/-- A delta delivers what its token completed. -/
theorem Aligned.push (h : Aligned piece text d) (token : ℕ) :
    Aligned piece (text ++ (d.push piece token).1) (d.push piece token).2 := by
  have hordered := h.ordered
  have hinside := h.inside
  set tokens := d.tokens ++ [token] with htokens
  set shown := (d.tokens.take d.readOffset).drop d.prefixOffset with hshown
  set rest := tokens.drop d.readOffset with hrest
  have htake : ∀ n ≤ d.tokens.length, tokens.take n = d.tokens.take n := fun n hn =>
    List.take_append_of_le_length hn
  have hlength : tokens.length = d.tokens.length + 1 := List.length_append
  have hbound : d.readOffset ≤ tokens.length := by omega
  have hbefore : (tokens.drop d.prefixOffset).take (d.readOffset - d.prefixOffset) = shown := by
    rw [hshown, ← htake _ hinside, List.drop_take]
  have hread : d.tokens.take d.prefixOffset ++ shown = d.tokens.take d.readOffset := by
    have hfront : d.tokens.take d.prefixOffset
        = (d.tokens.take d.readOffset).take d.prefixOffset := by
      rw [List.take_take, Nat.min_eq_left hordered]
    rw [hfront, List.take_append_drop]
  have hwindow : tokens.drop d.prefixOffset = shown ++ rest := by
    have hskip : rest = (tokens.drop d.prefixOffset).drop (d.readOffset - d.prefixOffset) := by
      rw [List.drop_drop, Nat.add_sub_cancel' hordered]
    rw [← hbefore, hskip, List.take_append_drop]
  have hall : tokens = d.tokens.take d.readOffset ++ rest := by
    rw [← htake _ hinside, hrest, List.take_append_drop]
  -- no character is under way where the new tokens begin
  have hidle : ¬ Incomplete (shown.flatMap piece) := by
    have hread' := h.idleRead
    rw [← hread, List.flatMap_append, incomplete_append h.idle] at hread'
    exact hread'
  -- the window decodes as what was delivered and what is new
  have hwhole : decode piece (tokens.drop d.prefixOffset)
      = decode piece shown ++ decode piece rest := by
    rw [hwindow, decode_append hidle]
  have hdecode : decode piece tokens = text ++ decode piece rest := by
    rw [h.text_eq]
    exact (congrArg (decode piece) hall).trans (decode_append h.idleRead)
  -- the last character of the window is that of the whole text
  have hlast : decode piece rest ≠ [] →
      (decode piece shown ++ decode piece rest).getLast? = (decode piece rest).getLast? ∧
        (decode piece tokens).getLast? = (decode piece rest).getLast? := by
    intro hne
    have hc : (decode piece rest).getLast? = some ((decode piece rest).getLast hne) :=
      List.getLast?_eq_some_getLast hne
    rw [hdecode, List.getLast?_append, List.getLast?_append, hc]
    exact ⟨rfl, rfl⟩
  have hpush : d.push piece token = if byteLen (decode piece shown ++ decode piece rest)
        ≤ byteLen (decode piece shown) ∨
          (decode piece shown ++ decode piece rest).getLast? = some replacement then
      ([], { d with tokens }) else
      (if decode piece shown <+: decode piece shown ++ decode piece rest then
          (decode piece shown ++ decode piece rest).drop (decode piece shown).length
        else decode piece shown ++ decode piece rest, ⟨tokens, d.readOffset, tokens.length⟩) := by
    rw [Detokenizer.push, ← htokens, hbefore, hwhole]
  rw [hpush]
  split
  · -- held back
    rename_i hheld
    simp only
    rw [List.append_nil]
    refine ⟨hordered, hbound, ?_, ?_, ?_, h.settled, fun hmore => ?_⟩
    · rw [htake _ (hordered.trans hinside)]
      exact h.idle
    · rw [htake _ hinside]
      exact h.idleRead
    · rw [htake _ hinside]
      exact h.text_eq
    · have hne : decode piece rest ≠ [] := by
        intro hnil
        rw [hdecode, hnil, List.append_nil] at hmore
        exact hmore rfl
      obtain ⟨hsame, hend⟩ := hlast hne
      obtain hshort | hreplaced := hheld
      · rw [byteLen_append] at hshort
        exact absurd (byteLen_eq_zero_iff.mp (by omega)) hne
      · exact hend.trans (hsame.symm.trans hreplaced)
  · -- delivered
    rename_i hfree
    obtain ⟨hlong, hsettled⟩ := not_or.mp hfree
    have hne : decode piece rest ≠ [] := by
      intro hnil
      rw [hnil, List.append_nil] at hlong
      exact hlong le_rfl
    obtain ⟨hsame, hend⟩ := hlast hne
    have hdone : ¬ Incomplete (tokens.flatMap piece) := by
      intro hunder
      exact hsettled (hsame.trans (hend.symm.trans hunder.getLast))
    simp only
    rw [if_pos (List.prefix_append _ _), List.drop_left, ← hdecode]
    have hfull : tokens.take tokens.length = tokens := List.take_length
    refine ⟨hbound, le_rfl, ?_, ?_, ?_, ?_, fun hmore => absurd rfl hmore⟩
    · rw [htake _ hinside]
      exact h.idleRead
    · rw [hfull]
      exact hdone
    · rw [hfull]
    · rw [hend, ← hsame]
      exact hsettled

theorem Aligned.pushAll : ∀ {text : List Char} {d : Detokenizer},
    Aligned piece text d → ∀ tokens : List ℕ,
      Aligned piece (text ++ (d.pushAll piece tokens).1) (d.pushAll piece tokens).2 ∧
        (d.pushAll piece tokens).2.tokens = d.tokens ++ tokens
  | text, d, h, [] => by
    rw [Detokenizer.pushAll, List.append_nil, List.append_nil]
    exact ⟨h, rfl⟩
  | text, d, h, token :: tokens => by
    have hfirst : (d.push piece token).2.tokens = d.tokens ++ [token] := by
      rw [Detokenizer.push]
      split
      · rfl
      · rfl
    obtain ⟨hrest, htokens⟩ := (h.push token).pushAll tokens
    rw [List.append_assoc] at hrest
    rw [hfirst, List.append_assoc] at htokens
    exact ⟨hrest, htokens⟩

/-- The delivered text is the whole reading, unless that ends in a replacement
character; and always a part of it. -/
theorem delivered_spec (piece : ℕ → List UInt8) (tokens : List ℕ) :
    (∃ held, delivered piece tokens ++ held = decode piece tokens) ∧
      (delivered piece tokens = decode piece tokens ↔ ¬ EndsReplaced piece tokens) := by
  have hnew : Aligned piece [] new := Aligned.new
  obtain ⟨h, htokens⟩ := hnew.pushAll tokens
  rw [List.nil_append] at h
  have htokens' : (new.pushAll piece tokens).2.tokens = tokens := htokens
  set text := delivered piece tokens with htext
  have haligned : Aligned piece text (new.pushAll piece tokens).2 := h
  refine ⟨⟨decode piece (tokens.drop (new.pushAll piece tokens).2.readOffset), ?_⟩,
    fun heq hends => ?_, fun hends => ?_⟩
  · have hread := haligned.text_eq
    have hidle := haligned.idleRead
    rw [htokens'] at hread hidle
    rw [hread, ← decode_append hidle, List.take_append_drop]
  · have hsettled := haligned.settled
    rw [heq] at hsettled
    exact hsettled hends
  · by_contra hne
    have hheld := haligned.held
    rw [htokens'] at hheld
    exact hends (hheld hne)

end Push

/-- Incremental decoding is batch decoding if and only if the whole text does
not end in a replacement character, and no text on the way does, except while a
character is incomplete. -/
theorem faithful_iff (piece : ℕ → List UInt8) (tokens : List ℕ) :
    Faithful piece tokens ↔ ¬ EndsReplaced piece tokens ∧
      ∀ pre, pre <+: tokens → EndsReplaced piece pre → Incomplete (pre.flatMap piece) := by
  constructor
  · rintro ⟨hend, hsofar⟩
    rw [deliveredAtEnd, atDone, List.append_nil] at hend
    refine ⟨(delivered_spec piece tokens).2.mp hend, fun pre hpre hends => ?_⟩
    obtain ⟨held, hheld, hunder⟩ := hsofar pre hpre
    refine hunder fun hnil => ?_
    rw [hnil, List.append_nil] at hheld
    exact (delivered_spec piece pre).2.mp hheld hends
  · rintro ⟨hends, hsofar⟩
    refine ⟨?_, fun pre hpre => ?_⟩
    · rw [deliveredAtEnd, atDone, List.append_nil]
      exact (delivered_spec piece tokens).2.mpr hends
    · obtain ⟨⟨held, hheld⟩, hall⟩ := delivered_spec piece pre
      refine ⟨held, hheld, fun hne => hsofar pre hpre ?_⟩
      by_contra hfree
      have hsame := hall.mpr hfree
      rw [hsame] at hheld
      exact hne (List.append_cancel_left (hheld.trans (List.append_nil _).symm))

/-- A letter, and the first byte of a three-byte character. -/
def cutPiece (_ : ℕ) : List UInt8 := [0x61, 0xE2]

/-- A stream that ends inside a character never delivers its last token. -/
theorem tail_never_delivered :
    deliveredAtEnd cutPiece [0] = [] ∧ decode cutPiece [0] = ['a', replacement] ∧
      ¬ Faithful cutPiece [0] := by
  have hnothing : deliveredAtEnd cutPiece [0] = [] := by decide
  have hwhole : decode cutPiece [0] = ['a', replacement] := by decide
  refine ⟨hnothing, hwhole, fun hfaithful => ?_⟩
  have hend := hfaithful.atEnd
  rw [hnothing, hwhole] at hend
  cases hend

end Detokenizer
