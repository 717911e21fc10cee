/-
The vocabulary a grammar is masked against.

The pieces are held in a trie, and the walk through it abandons a subtree with its
first impossible byte; where every cursor sits in free text only the tokens that
can start the closing tag are fed to the machine.  A node keeps one token, so of
several tokens with the same bytes the walk sees the last.

The flat edge arrays of the source are the trie they encode (the order of a node's
edges is the order of the walk and nothing else), and `piece_bytes` is the table.

* `mask_exact_iff`: when the mask is the check of each token on its own;
* `duplicate_piece_excluded`: two tokens of the same bytes outside free text.
-/
import Llmxabe.Grammar.Moves
import Llmxabe.Lib.BitWords
import Llmxabe.Lib.Trie

namespace Grammar

open BitWords (setBit clearBit)

/-- The byte a closing tag starts with. -/
def closeFirst : UInt8 := CLOSE.headD 0

/-- The pieces of the tokens, with what is computed of them beforehand. -/
structure Vocab where
  trie : Trie.Node UInt8 ℕ
  breaking : List (ℕ × List UInt8)
  freeText : List (BitVec 64)
  eog : List ℕ
  pieces : List (List UInt8)

namespace Vocab

/-! ### Building -/

/-- What is computed of the pieces. -/
structure Tables where
  trie : Trie.Node UInt8 ℕ
  breaking : List (ℕ × List UInt8)
  freeText : List (BitVec 64)

/-- One turn of the loop over the pieces. -/
def addPiece (eog : List ℕ) (tables : Tables) (piece : List UInt8) (token : ℕ) : Tables :=
  if piece = [] ∨ token ∈ eog then
    { tables with freeText := clearBit tables.freeText token }
  else
    let tables :=
      if closeFirst ∈ piece then
        { tables with
          breaking := tables.breaking ++ [(token, piece)]
          freeText := clearBit tables.freeText token }
      else tables
    { tables with trie := Trie.insert token piece tables.trie }

/-- A mask of every token but the end-of-generation ones. -/
def clearEog (eog : List ℕ) (len : ℕ) : List (BitVec 64) :=
  eog.foldl (fun mask token => if token < len then clearBit mask token else mask)
    (BitWords.full len)

/-- The tables of some pieces. -/
def new (pieces : List (List UInt8)) (eog : List ℕ) : Vocab :=
  let tables := pieces.zipIdx.foldl (fun tables (piece, token) => addPiece eog tables piece token)
    { trie := (none, .nil), breaking := [], freeText := clearEog eog pieces.length }
  { trie := tables.trie
    breaking := tables.breaking
    freeText := tables.freeText
    eog
    pieces }

variable (v : Vocab) (m : Machine)

/-- How many tokens there are. -/
def len : ℕ := v.pieces.length

/-- Nothing for a token outside the vocabulary. -/
def piece (token : ℕ) : List UInt8 := v.pieces.getD token []

/-! ### The mask -/

/-- A step of the machine, unless it dies on it. -/
def stepLive (cursors : List Cursor) (byte : UInt8) : Option (List Cursor) :=
  let next := m.step cursors byte
  if next = [] then none else some next

/-- Whether feeding `piece` leaves the machine alive. -/
def survives (cursors : List Cursor) (piece : List UInt8) : Bool :=
  Trie.survives (stepLive m) cursors piece

/-- The tokens below a trie's edges that the machine survives. -/
def walk (cursors : List Cursor) : List ℕ := Trie.walk (stepLive m) cursors v.trie.2

/-- The tokens admitted before the end-of-generation ones. -/
def allowText (cursors : List Cursor) : List (BitVec 64) :=
  if m.isFreeText cursors then
    v.breaking.foldl (fun allow (token, piece) =>
      if survives m cursors piece then setBit allow token else allow) v.freeText
  else
    (v.walk m cursors).foldl setBit (List.replicate (BitWords.words v.len) 0)

/-- The tokens that the machine admits next. -/
def allow (cursors : List Cursor) : List (BitVec 64) :=
  if m.acceptsEnd cursors then
    v.eog.foldl (fun allow token => if token < v.len then setBit allow token else allow)
      (v.allowText m cursors)
  else v.allowText m cursors

/-- A logits row wider than the vocabulary carries ids that spell nothing. -/
def mask {α : Type} (blank : α) (cursors : List Cursor) (logits : List α) : List α :=
  BitWords.applyMask blank (v.allow m cursors) (logits.take v.len) ++
    (logits.drop v.len).map fun _ => blank

/-! ### What the tables hold -/

variable {v m} {pieces : List (List UInt8)} {eog : List ℕ} {tables : Tables}
  {piece : List UInt8} {token t : ℕ} {cursors : List Cursor} {byte : UInt8}

/-- The last token that spells `piece`, the end-of-generation ones aside. -/
def LastOf (pieces : List (List UInt8)) (eog : List ℕ) (piece : List UInt8) (token : ℕ) : Prop :=
  pieces[token]? = some piece ∧ token ∉ eog ∧
    ∀ later > token, pieces[later]? = some piece → later ∈ eog

/-- What the loop has made of the pieces it has seen. -/
structure Holds (pieces : List (List UInt8)) (eog : List ℕ) (len : ℕ) (tables : Tables) : Prop where
  distinct : Trie.Distinct tables.trie.2
  last : ∀ piece ≠ [], ∀ token,
    Trie.find piece tables.trie = some token ↔ LastOf pieces eog piece token
  breaking : ∀ token piece, (token, piece) ∈ tables.breaking ↔
    pieces[token]? = some piece ∧ token ∉ eog ∧ closeFirst ∈ piece
  words : tables.freeText.length = BitWords.words len
  freeText : ∀ token < len, BitWords.test tables.freeText token = true ↔ token ∉ eog ∧
    ∀ piece, pieces[token]? = some piece → piece ≠ [] ∧ closeFirst ∉ piece

theorem clearEog_spec (eog : List ℕ) (len : ℕ) (mask : List (BitVec 64))
    (hmask : mask.length = BitWords.words len) :
    (eog.foldl (fun mask token => if token < len then clearBit mask token else mask) mask).length =
      BitWords.words len ∧
    ∀ token < len, BitWords.test (eog.foldl
      (fun mask token => if token < len then clearBit mask token else mask) mask) token = true ↔
        token ∉ eog ∧ BitWords.test mask token = true := by
  induction eog generalizing mask with
  | nil => exact ⟨hmask, fun token _ => by simp⟩
  | cons e eog ih =>
    rw [List.foldl_cons]
    split
    case isTrue he =>
      have hlen : (clearBit mask e).length = BitWords.words len := BitWords.length_clearBit.trans hmask
      refine ⟨(ih _ hlen).1, fun token htoken => ?_⟩
      rw [(ih _ hlen).2 token htoken, BitWords.test_clearBit (hmask ▸ BitWords.div_lt_words he)]
      simp only [List.mem_cons, not_or, Bool.and_eq_true, Bool.not_eq_true', decide_eq_false_iff_not,
        eq_comm (a := token) (b := e)]
      tauto
    case isFalse he =>
      refine ⟨(ih _ hmask).1, fun token htoken => ?_⟩
      rw [(ih _ hmask).2 token htoken, List.mem_cons, not_or]
      refine and_congr_left fun _ => (and_iff_right ?_).symm
      rintro rfl
      exact he htoken

theorem holds_nil (eog : List ℕ) (len : ℕ) :
    Holds [] eog len { trie := (none, .nil), breaking := [], freeText := clearEog eog len } where
  distinct := trivial
  last piece _ token := by
    rw [Trie.find_none]
    constructor
    · intro h
      cases h
    · rintro ⟨h, -⟩
      cases h
  breaking token piece := by simp
  words := (clearEog_spec eog len _ BitWords.length_full).1
  freeText token htoken := by
    unfold clearEog
    rw [(clearEog_spec eog len _ BitWords.length_full).2 token htoken,
      and_iff_left (BitWords.test_full htoken)]
    exact (and_iff_left (by simp)).symm

theorem getElem?_concat_iff {x : List UInt8} :
    (pieces ++ [x])[t]? = some piece ↔
      pieces[t]? = some piece ∨ t = pieces.length ∧ x = piece := by
  rcases Nat.lt_trichotomy t pieces.length with hlt | rfl | hgt
  · rw [List.getElem?_append_left hlt]
    exact ⟨Or.inl, fun h => h.resolve_right fun h => by omega⟩
  · rw [List.getElem?_concat_length]
    simp
  · rw [List.getElem?_eq_none (by simp; omega), List.getElem?_eq_none (by omega)]
    simp only [reduceCtorEq, false_or, false_iff, not_and]
    omega

theorem lastOf_concat {x : List UInt8} :
    LastOf (pieces ++ [x]) eog piece t ↔
      if pieces.length ∉ eog ∧ piece = x then t = pieces.length else LastOf pieces eog piece t := by
  have hout : pieces[pieces.length]? = none := List.getElem?_eq_none (Nat.le_refl _)
  have hlt : ∀ {k}, pieces[k]? = some piece → k < pieces.length := fun h =>
    (List.getElem?_eq_some_iff.mp h).1
  unfold LastOf
  simp only [getElem?_concat_iff]
  split
  case isTrue hnew =>
    obtain ⟨heog, rfl⟩ := hnew
    constructor
    · rintro ⟨h | ⟨rfl, -⟩, -, hlater⟩
      · exact absurd (hlater _ (hlt h) (Or.inr ⟨rfl, rfl⟩)) heog
      · rfl
    · rintro rfl
      refine ⟨Or.inr ⟨rfl, rfl⟩, heog, ?_⟩
      rintro later hlater (h | ⟨rfl, -⟩)
      · exact absurd (hlt h) (by omega)
      · omega
  case isFalse hold =>
    rw [not_and] at hold
    constructor
    · rintro ⟨h | ⟨rfl, rfl⟩, heog, hlater⟩
      · exact ⟨h, heog, fun later hgt h => hlater later hgt (Or.inl h)⟩
      · exact absurd rfl (hold heog)
    · rintro ⟨h, heog, hlater⟩
      refine ⟨Or.inl h, heog, ?_⟩
      rintro later hgt (h' | ⟨rfl, rfl⟩)
      · exact hlater later hgt h'
      · by_contra hnot
        exact hold hnot rfl

theorem Holds.addPiece {len : ℕ} (h : Holds pieces eog len tables) (hlen : pieces.length < len)
    (piece : List UInt8) :
    Holds (pieces ++ [piece]) eog len (addPiece eog tables piece pieces.length) := by
  have hword : pieces.length / 64 < tables.freeText.length := h.words ▸ BitWords.div_lt_words hlen
  have hout : pieces[pieces.length]? = none := List.getElem?_eq_none (Nat.le_refl _)
  -- the token's own bit, where it is cleared and where it is not
  have hcleared : (piece = [] ∨ pieces.length ∈ eog) ∨ closeFirst ∈ piece → ∀ token < len,
      BitWords.test (clearBit tables.freeText pieces.length) token = true ↔ token ∉ eog ∧
        ∀ q, (pieces ++ [piece])[token]? = some q → q ≠ [] ∧ closeFirst ∉ q := by
    intro hbad token htoken
    rw [BitWords.test_clearBit hword, Bool.and_eq_true, h.freeText token htoken]
    simp only [Bool.not_eq_true', decide_eq_false_iff_not, getElem?_concat_iff]
    constructor
    · rintro ⟨⟨heog, hq⟩, hne⟩
      refine ⟨heog, fun q hq' => hq q (hq'.resolve_right fun h => hne h.1.symm)⟩
    · rintro ⟨heog, hq⟩
      refine ⟨⟨heog, fun q hq' => hq q (Or.inl hq')⟩, ?_⟩
      rintro rfl
      obtain ⟨hne, hfirst⟩ := hq piece (Or.inr ⟨rfl, rfl⟩)
      rcases hbad with (h | h) | h
      exacts [hne h, heog h, hfirst h]
  unfold Vocab.addPiece
  by_cases hskip : piece = [] ∨ pieces.length ∈ eog
  · rw [if_pos hskip]
    -- a token without text, or of the end: the trie stays, and its bit is cleared
    refine ⟨h.distinct, fun q hq token => ?_, fun token q => ?_, ?_, hcleared (Or.inl hskip)⟩
    · rw [h.last q hq, lastOf_concat, if_neg]
      rintro ⟨heog, rfl⟩
      exact hskip.elim hq heog
    · rw [h.breaking, getElem?_concat_iff]
      constructor
      · exact fun ⟨hq, hrest⟩ => ⟨Or.inl hq, hrest⟩
      · rintro ⟨hq | ⟨rfl, rfl⟩, heog, hfirst⟩
        · exact ⟨hq, heog, hfirst⟩
        · rcases hskip with rfl | hskip
          · cases hfirst
          · exact absurd hskip heog
    · exact BitWords.length_clearBit.trans h.words
  · rw [if_neg hskip]
    rw [not_or] at hskip
    -- else the token enters the trie, in front of an earlier one with the same text
    have hlast : ∀ q ≠ [], ∀ token,
        Trie.find q (Trie.insert pieces.length piece tables.trie) = some token ↔
          LastOf (pieces ++ [piece]) eog q token := by
      intro q hq token
      rw [Trie.find_insert, lastOf_concat]
      by_cases heq : q = piece
      · rw [if_pos heq, if_pos ⟨hskip.2, heq⟩, Option.some.injEq, eq_comm]
      · rw [if_neg heq, if_neg fun h => heq h.2]
        exact h.last q hq token
    by_cases hfirst : closeFirst ∈ piece
    · simp only [if_pos hfirst]
      -- it may begin a close tag, so it is listed with the tokens to walk
      refine ⟨h.distinct.insert, hlast, fun token q => ?_, ?_, hcleared (Or.inr hfirst)⟩
      · rw [List.mem_append, h.breaking, getElem?_concat_iff, List.mem_singleton, Prod.mk.injEq]
        constructor
        · rintro (⟨hq, hrest⟩ | ⟨rfl, rfl⟩)
          · exact ⟨Or.inl hq, hrest⟩
          · exact ⟨Or.inr ⟨rfl, rfl⟩, hskip.2, hfirst⟩
        · rintro ⟨hq | ⟨rfl, rfl⟩, hrest⟩
          · exact Or.inl ⟨hq, hrest⟩
          · exact Or.inr ⟨rfl, rfl⟩
      · exact BitWords.length_clearBit.trans h.words
    · simp only [if_neg hfirst]
      -- it does not: a free text takes it
      refine ⟨h.distinct.insert, hlast, fun token q => ?_, h.words, fun token htoken => ?_⟩
      · rw [h.breaking, getElem?_concat_iff]
        constructor
        · exact fun ⟨hq, hrest⟩ => ⟨Or.inl hq, hrest⟩
        · rintro ⟨hq | ⟨rfl, rfl⟩, heog, hmem⟩
          · exact ⟨hq, heog, hmem⟩
          · exact absurd hmem hfirst
      · rw [h.freeText token htoken]
        simp only [getElem?_concat_iff]
        refine and_congr_right fun _ => ⟨?_, fun hq q hq' => hq q (Or.inl hq')⟩
        rintro hq q (hq' | ⟨-, rfl⟩)
        · exact hq q hq'
        · exact ⟨hskip.1, hfirst⟩

theorem holds_new (pieces : List (List UInt8)) (eog : List ℕ) :
    Holds pieces eog pieces.length
      { trie := (new pieces eog).trie, breaking := (new pieces eog).breaking,
        freeText := (new pieces eog).freeText } := by
  have hfold : ∀ seen : List (List UInt8), seen.length ≤ pieces.length →
      Holds seen eog pieces.length (seen.zipIdx.foldl
        (fun tables (piece, token) => Vocab.addPiece eog tables piece token)
        { trie := (none, .nil), breaking := [], freeText := clearEog eog pieces.length }) := by
    intro seen hseen
    induction seen using List.reverseRecOn with
    | nil => exact holds_nil eog pieces.length
    | append_singleton seen piece ih =>
      rw [List.length_append, List.length_singleton] at hseen
      rw [List.zipIdx_append, List.foldl_append]
      have hnext := (ih (by omega)).addPiece (by omega) piece
      simpa using hnext
  exact hfold pieces (Nat.le_refl _)

/-! ### The machine under the walk -/

theorem feed_nil (m : Machine) (word : List UInt8) : m.feed [] word = [] := by
  induction word with
  | nil => rfl
  | cons byte word ih => exact ih

theorem survives_cons :
    survives m cursors (byte :: piece) = true ↔
      m.step cursors byte ≠ [] ∧ survives m (m.step cursors byte) piece = true := by
  unfold survives
  rw [Trie.survives]
  by_cases hstep : m.step cursors byte = []
  · simp [stepLive, hstep]
  · simp [stepLive, hstep]

theorem survives_iff (hpiece : piece ≠ []) :
    survives m cursors piece = true ↔ m.feed cursors piece ≠ [] := by
  induction piece generalizing cursors with
  | nil => exact absurd rfl hpiece
  | cons byte piece ih =>
    rw [survives_cons]
    change _ ↔ m.feed (m.step cursors byte) piece ≠ []
    by_cases hstep : m.step cursors byte = []
    · simp [hstep, feed_nil]
    · rw [and_iff_right hstep]
      cases piece with
      | nil => exact ⟨fun _ => hstep, fun _ => rfl⟩
      | cons b piece => exact ih (List.cons_ne_nil b piece)

/-- A byte that cannot start the closing tag leaves free text as it is. -/
theorem step_freeText (hfree : m.isFreeText cursors = true) (hne : cursors ≠ [])
    (hbyte : byte ≠ closeFirst) :
    m.step cursors byte ≠ [] ∧ m.isFreeText (m.step cursors byte) = true := by
  have hcursor : ∀ c ∈ cursors, ∃ next, m.state c.state = .untilClose 0 next := by
    intro c hc
    have h := List.all_eq_true.mp hfree c hc
    rcases hs : m.state c.state with _ | _ | _ | _ | _ | ⟨k, next⟩ | _
    case untilClose =>
      cases k with
      | zero => exact ⟨next, rfl⟩
      | succ k => simp [hs] at h
    all_goals simp [hs] at h
  have hadvance : ∀ c ∈ cursors, m.advance c byte = some c := by
    intro c hc
    obtain ⟨next, hs⟩ := hcursor c hc
    have hclose : CLOSE[0]? = some closeFirst := by decide
    have hmatched : m.advanceClose 0 byte = 0 := by
      simp [Machine.advanceClose, Scan.advance, hclose, Ne.symm hbyte]
    have hlen : 0 ≠ CLOSE.length := by decide
    simp [Machine.advance, hs, hmatched, hlen]
  have hmem : ∀ c, c ∈ m.step cursors byte ↔ c ∈ cursors := by
    intro c
    have hout : ∀ d, d ∈ m.advanceAll cursors byte ↔ d ∈ cursors := by
      intro d
      rw [Machine.mem_advanceAll]
      constructor
      · rintro ⟨c, hc, h⟩
        rw [hadvance c hc] at h
        exact Option.some.inj h ▸ hc
      · exact fun hd => ⟨d, hd, hadvance d hd⟩
    have hwaiting : ∀ c ∈ cursors, m.expand c = none := by
      intro c hc
      obtain ⟨next, hs⟩ := hcursor c hc
      rw [Machine.expand_eq_none, hs]
      trivial
    unfold Machine.step Machine.close
    rw [Worklist.mem_close fun d hd => Worklist.Bounded.of_none (hwaiting d ((hout d).mp hd))]
    constructor
    · rintro ⟨-, d, hd, hrun⟩
      have hd := (hout d).mp hd
      rcases hrun.cases_head with rfl | ⟨e, ⟨cs, hcs, -⟩, -⟩
      · exact hd
      · rw [hwaiting d hd] at hcs
        cases hcs
    · exact fun hc => ⟨hwaiting c hc, c, (hout c).mpr hc, .refl⟩
  constructor
  · obtain ⟨c, hc⟩ := List.exists_mem_of_ne_nil cursors hne
    exact List.ne_nil_of_mem ((hmem c).mpr hc)
  · exact List.all_eq_true.mpr fun c hc => List.all_eq_true.mp hfree c ((hmem c).mp hc)

theorem survives_freeText (hfree : m.isFreeText cursors = true) (hne : cursors ≠ [])
    (hpiece : closeFirst ∉ piece) : survives m cursors piece = true := by
  induction piece generalizing cursors with
  | nil => rfl
  | cons byte piece ih =>
    rw [List.mem_cons, not_or] at hpiece
    obtain ⟨hstep, hfree'⟩ := step_freeText hfree hne (Ne.symm hpiece.1)
    exact survives_cons.mpr ⟨hstep, ih hfree' hstep hpiece.2⟩

/-! ### What the mask admits -/

theorem test_foldl_setBit {ι : Type} (items : List ι) (keep : ι → Bool) (index : ι → ℕ)
    (set : List (BitVec 64)) (h : ∀ x ∈ items, keep x = true → index x / 64 < set.length) :
    (items.foldl (fun set x => if keep x then setBit set (index x) else set) set).length =
      set.length ∧
    ∀ t, BitWords.test (items.foldl
      (fun set x => if keep x then setBit set (index x) else set) set) t = true ↔
        BitWords.test set t = true ∨ ∃ x ∈ items, keep x = true ∧ index x = t := by
  induction items generalizing set with
  | nil => exact ⟨rfl, fun t => by simp⟩
  | cons x items ih =>
    rw [List.foldl_cons]
    by_cases hkeep : keep x = true
    · rw [if_pos hkeep]
      have hx := h x List.mem_cons_self hkeep
      have hrest : ∀ y ∈ items, keep y = true → index y / 64 < (setBit set (index x)).length := by
        intro y hy hy'
        rw [BitWords.length_setBit]
        exact h y (List.mem_cons_of_mem x hy) hy'
      refine ⟨(ih _ hrest).1.trans BitWords.length_setBit, fun t => ?_⟩
      rw [(ih _ hrest).2 t, BitWords.test_setBit hx]
      simp [hkeep, or_assoc]
    · rw [if_neg hkeep]
      have hrest := fun y hy => h y (List.mem_cons_of_mem x hy)
      refine ⟨(ih _ hrest).1, fun t => ?_⟩
      rw [(ih _ hrest).2 t]
      simp [hkeep]

/-- What the mask admits of the tokens that extend the output. -/
def AdmitsText (pieces : List (List UInt8)) (eog : List ℕ) (m : Machine) (cursors : List Cursor)
    (token : ℕ) : Prop :=
  token ∉ eog ∧ ∃ piece, pieces[token]? = some piece ∧ piece ≠ [] ∧
    if m.isFreeText cursors then
      closeFirst ∉ piece ∨ m.feed cursors piece ≠ []
    else LastOf pieces eog piece token ∧ m.feed cursors piece ≠ []

theorem test_allowText (eog : List ℕ) (m : Machine) (cursors : List Cursor)
    (ht : t < pieces.length) :
    ((new pieces eog).allowText m cursors).length = BitWords.words pieces.length ∧
    (BitWords.test ((new pieces eog).allowText m cursors) t = true ↔
      AdmitsText pieces eog m cursors t) := by
  have hholds := holds_new pieces eog
  have hlt : ∀ {token piece}, pieces[token]? = some piece →
      token / 64 < BitWords.words pieces.length := fun h =>
    BitWords.div_lt_words (List.getElem?_eq_some_iff.mp h).1
  unfold allowText AdmitsText
  by_cases hfree : m.isFreeText cursors = true
  -- in free text: the bits set at the start, and the walk over the tokens that may close it
  · simp only [hfree, if_true]
    obtain ⟨hlen, htest⟩ := test_foldl_setBit (new pieces eog).breaking
      (fun x => survives m cursors x.2) Prod.fst (new pieces eog).freeText (by
        rintro ⟨token, piece⟩ hx -
        rw [hholds.words]
        exact hlt ((hholds.breaking token piece).mp hx).1)
    refine ⟨hlen.trans hholds.words, (htest t).trans ?_⟩
    rw [hholds.freeText t ht]
    constructor
    -- a bit set at the start, or by the walk
    · rintro (⟨heog, hpiece⟩ | ⟨⟨token, piece⟩, hx, hsurvives, rfl⟩)
      · obtain ⟨hne, hfirst⟩ := hpiece _ (List.getElem?_eq_getElem ht)
        exact ⟨heog, _, List.getElem?_eq_getElem ht, hne, Or.inl hfirst⟩
      · obtain ⟨hpiece, heog, hfirst⟩ := (hholds.breaking token piece).mp hx
        have hne := List.ne_nil_of_mem hfirst
        exact ⟨heog, piece, hpiece, hne, Or.inr ((survives_iff hne).mp hsurvives)⟩
    · rintro ⟨heog, piece, hpiece, hne, h⟩
      by_cases hfirst : closeFirst ∈ piece
      · refine Or.inr ⟨(t, piece), (hholds.breaking t piece).mpr ⟨hpiece, heog, hfirst⟩, ?_, rfl⟩
        exact (survives_iff hne).mpr (h.resolve_left (not_not.mpr hfirst))
      · refine Or.inl ⟨heog, fun q hq => ?_⟩
        obtain rfl := Option.some.inj (hpiece.symm.trans hq)
        exact ⟨hne, hfirst⟩
  -- elsewhere: the walk over the whole trie, from an empty mask
  · simp only [hfree]
    have hwalk : ∀ token, token ∈ (new pieces eog).walk m cursors ↔
        ∃ piece ≠ [], LastOf pieces eog piece token ∧ m.feed cursors piece ≠ [] := by
      intro token
      unfold walk
      rw [Trie.mem_walk hholds.distinct]
      constructor
      · rintro ⟨letter, key, hfind, hsurvives⟩
        have hne := List.cons_ne_nil letter key
        exact ⟨letter :: key, hne, (hholds.last _ hne token).mp hfind,
          (survives_iff hne).mp hsurvives⟩
      · rintro ⟨piece, hne, hlast, hfeed⟩
        obtain ⟨letter, key, rfl⟩ := List.exists_cons_of_ne_nil hne
        exact ⟨letter, key, (hholds.last _ hne token).mpr hlast, (survives_iff hne).mpr hfeed⟩
    -- the mask has the bits of what the walk yields
    obtain ⟨hlen, htest⟩ := test_foldl_setBit ((new pieces eog).walk m cursors)
      (fun _ => true) id (List.replicate (BitWords.words pieces.length) 0) (by
        intro token htoken _
        obtain ⟨piece, -, hlast, -⟩ := (hwalk token).mp htoken
        rw [List.length_replicate]
        exact hlt hlast.1)
    refine ⟨hlen.trans (List.length_replicate ..), (htest t).trans ?_⟩
    have hzero : BitWords.test (List.replicate (BitWords.words pieces.length) 0) t = false := by
      unfold BitWords.test
      rw [List.getD_eq_getElem?_getD, List.getElem?_replicate_of_lt (BitWords.div_lt_words ht)]
      exact BitVec.getLsbD_zero
    rw [hzero]
    constructor
    · rintro (h | ⟨token, htoken, -, rfl⟩)
      · cases h
      · obtain ⟨piece, hne, hlast, hfeed⟩ := (hwalk token).mp htoken
        exact ⟨hlast.2.1, piece, hlast.1, hne, hlast, hfeed⟩
    · rintro ⟨-, piece, -, hne, hlast, hfeed⟩
      exact Or.inr ⟨t, (hwalk t).mpr ⟨piece, hne, hlast, hfeed⟩, rfl, rfl⟩

theorem test_allow (eog : List ℕ) (m : Machine) (cursors : List Cursor) (ht : t < pieces.length) :
    ((new pieces eog).allow m cursors).length = BitWords.words pieces.length ∧
    (BitWords.test ((new pieces eog).allow m cursors) t = true ↔
      AdmitsText pieces eog m cursors t ∨ t ∈ eog ∧ m.acceptsEnd cursors = true) := by
  obtain ⟨hlen, htest⟩ := test_allowText eog m cursors ht
  unfold allow
  by_cases hend : m.acceptsEnd cursors = true
  · rw [if_pos hend]
    obtain ⟨hlen', htest'⟩ := test_foldl_setBit eog (fun token => decide (token < pieces.length)) id
      ((new pieces eog).allowText m cursors) (by
        intro token _ htoken
        rw [hlen]
        exact BitWords.div_lt_words (of_decide_eq_true htoken))
    have hfold : eog.foldl (fun set token =>
        if token < (new pieces eog).len then setBit set token else set)
        ((new pieces eog).allowText m cursors) = eog.foldl (fun set token =>
        if decide (token < pieces.length) = true then setBit set (id token) else set)
        ((new pieces eog).allowText m cursors) := by
      simp only [decide_eq_true_eq, id_eq]
      rfl
    refine ⟨?_, ?_⟩
    · exact (congrArg List.length hfold).trans (hlen'.trans hlen)
    · change BitWords.test (eog.foldl (fun set token =>
        if token < (new pieces eog).len then setBit set token else set)
        ((new pieces eog).allowText m cursors)) t = true ↔ _
      rw [hfold, htest', htest]
      refine or_congr_right ⟨?_, fun h => ⟨t, h.1, decide_eq_true ht, rfl⟩⟩
      rintro ⟨token, htoken, -, rfl⟩
      exact ⟨htoken, hend⟩
  · rw [if_neg hend]
    refine ⟨hlen, htest.trans (or_iff_left ?_).symm⟩
    exact fun h => hend h.2

/-! ### The mask and the check of each token -/

/-- Whether the machine takes a token next, asked of that token alone. -/
def PerToken (pieces : List (List UInt8)) (eog : List ℕ) (m : Machine) (cursors : List Cursor)
    (token : ℕ) : Prop :=
  if token ∈ eog then m.acceptsEnd cursors = true
  else ∃ piece, pieces[token]? = some piece ∧ piece ≠ [] ∧ m.feed cursors piece ≠ []

/-- The mask keeps exactly the tokens that the machine takes next. -/
def MaskExact (pieces : List (List UInt8)) (eog : List ℕ) (m : Machine) (cursors : List Cursor) :
    Prop :=
  ∀ (α : Type) (blank : α) (logits : List α), pieces.length ≤ logits.length →
    ∀ token x, logits[token]? = some x →
      (token < pieces.length ∧ PerToken pieces eog m cursors token →
        ((new pieces eog).mask m blank cursors logits)[token]? = some x) ∧
      (¬(token < pieces.length ∧ PerToken pieces eog m cursors token) →
        ((new pieces eog).mask m blank cursors logits)[token]? = some blank)

theorem mask_getElem? (eog : List ℕ) (m : Machine) (cursors : List Cursor) {α : Type} (blank : α)
    {x : α} {logits : List α}
    (hlen : pieces.length ≤ logits.length) (hx : logits[token]? = some x) :
    ((new pieces eog).mask m blank cursors logits)[token]? =
      some (if token < pieces.length ∧
        BitWords.test ((new pieces eog).allow m cursors) token = true then x else blank) := by
  have hrow : (BitWords.applyMask blank ((new pieces eog).allow m cursors)
      (logits.take pieces.length)).length = pieces.length := by
    rw [BitWords.length_applyMask, List.length_take, Nat.min_eq_left hlen]
  change (BitWords.applyMask blank ((new pieces eog).allow m cursors) (logits.take pieces.length) ++
    (logits.drop pieces.length).map fun _ => blank)[token]? = _
  rcases Nat.lt_or_ge token pieces.length with hlt | hge
  · have hwords := (test_allow eog m cursors hlt).1
    rw [List.getElem?_append_left (by omega), BitWords.applyMask_getElem?,
      List.getElem?_take_of_lt hlt, hx]
    · simp [hlt]
    · rw [hwords, List.length_take]
      unfold BitWords.words
      omega
  · rw [List.getElem?_append_right (by omega), hrow, List.getElem?_map, List.getElem?_drop,
      Nat.add_sub_cancel' hge, hx, if_neg fun h => by omega]
    rfl

theorem maskExact_iff_admits :
    MaskExact pieces eog m cursors ↔ ∀ token < pieces.length,
      (AdmitsText pieces eog m cursors token ∨ token ∈ eog ∧ m.acceptsEnd cursors = true) ↔
        PerToken pieces eog m cursors token := by
  constructor
  · intro h token htoken
    rw [← (test_allow eog m cursors htoken).2]
    obtain ⟨hkept, hblank⟩ := h Bool false (List.replicate pieces.length true)
      (by rw [List.length_replicate]) token true (List.getElem?_replicate_of_lt htoken)
    have hmask := mask_getElem? eog m cursors false
      (List.length_replicate (n := pieces.length) (a := true)).ge
      (List.getElem?_replicate_of_lt htoken)
    rw [hmask] at hkept hblank
    constructor
    · intro htest
      by_contra hnot
      have := hblank fun h => hnot h.2
      simp [htoken, htest] at this
    · intro hper
      have := hkept ⟨htoken, hper⟩
      simpa [htoken] using this
  · intro h α blank logits hlen token x hx
    rw [mask_getElem? eog m cursors blank hlen hx]
    by_cases htoken : token < pieces.length
    · have htest := (test_allow eog m cursors htoken).2.trans
        (h token htoken)
      constructor
      · exact fun hper => by rw [if_pos ⟨htoken, htest.mpr hper.2⟩]
      · intro hper
        rw [if_neg fun h => hper ⟨htoken, htest.mp h.2⟩]
    · constructor
      · exact fun hper => absurd hper.1 htoken
      · exact fun _ => by rw [if_neg fun h => htoken h.1]

/-- The mask is the check of each token, except that outside free text a token is
lost behind a later one with the same bytes, and that in free text no cursor at all
counts as free text too. -/
theorem mask_exact_iff (pieces : List (List UInt8)) (eog : List ℕ) (m : Machine)
    (cursors : List Cursor) :
    MaskExact pieces eog m cursors ↔
      (m.isFreeText cursors = true → cursors ≠ [] ∨
        ∀ token piece, pieces[token]? = some piece → token ∉ eog →
          piece = [] ∨ closeFirst ∈ piece) ∧
      (m.isFreeText cursors = false → ∀ token later piece, token < later →
        pieces[token]? = some piece → pieces[later]? = some piece → piece ≠ [] →
        token ∉ eog → later ∉ eog → m.feed cursors piece = []) := by
  rw [maskExact_iff_admits]
  unfold AdmitsText PerToken
  by_cases hfree : m.isFreeText cursors = true
  -- in free text a token passes without `<`, or if the machine takes it
  · simp only [hfree, if_true, true_imp_iff, Bool.true_eq_false, false_imp_iff, and_true]
    constructor
    -- without a cursor the machine takes no token, and only then can the two differ
    · intro h
      by_contra hnot
      rw [not_or, not_not] at hnot
      obtain ⟨rfl, hnot⟩ := hnot
      refine hnot fun token piece hpiece heog => ?_
      by_contra hadmitted
      rw [not_or] at hadmitted
      have := (h token (List.getElem?_eq_some_iff.mp hpiece).1).mp
        (Or.inl ⟨heog, piece, hpiece, hadmitted.1, Or.inl hadmitted.2⟩)
      rw [if_neg heog] at this
      obtain ⟨q, -, -, hfeed⟩ := this
      exact hfeed (feed_nil m q)
    · intro h token htoken
      by_cases heog : token ∈ eog
      · simp [heog]
      · simp only [heog, not_false_eq_true, true_and, false_and, or_false, if_false]
        refine exists_congr fun piece => and_congr_right fun hpiece => and_congr_right fun hne => ?_
        refine or_iff_right_of_imp fun hfirst => ?_
        rcases h with hcursors | hnone
        · exact (survives_iff hne).mp (survives_freeText hfree hcursors hfirst)
        · exact absurd (hnone token piece hpiece heog) (not_or.mpr ⟨hne, hfirst⟩)
  -- elsewhere only the last token with its text is found
  · rw [Bool.not_eq_true] at hfree
    simp only [hfree, Bool.false_eq_true, if_false, true_imp_iff, false_imp_iff, true_and]
    constructor
    -- two tokens with one text: the mask has the later one only
    · intro h token later piece hlt hpiece hlater hne heog heog'
      by_contra hfeed
      have := (h token (List.getElem?_eq_some_iff.mp hpiece).1).mpr (by
        rw [if_neg heog]
        exact ⟨piece, hpiece, hne, hfeed⟩)
      rcases this with ⟨-, q, hq, -, hlast, -⟩ | ⟨hmem, -⟩
      · obtain rfl := Option.some.inj (hpiece.symm.trans hq)
        exact heog' (hlast.2.2 later hlt hlater)
      · exact heog hmem
    · intro h token htoken
      by_cases heog : token ∈ eog
      · simp [heog]
      · simp only [heog, not_false_eq_true, true_and, false_and, or_false, if_false]
        refine exists_congr fun piece => and_congr_right fun hpiece => and_congr_right fun hne => ?_
        -- a later token with this text contradicts the condition
        refine and_iff_right_of_imp fun hfeed => ⟨hpiece, heog, fun later hgt hlater => ?_⟩
        by_contra heog'
        exact hfeed (h token later piece hgt hpiece hlater hne heog heog')

/-- Of two tokens with the same bytes only the second is admitted outside free text. -/
theorem duplicate_lost (hfree : m.isFreeText cursors = false) (hne : piece ≠ [])
    (hfeed : m.feed cursors piece ≠ []) : ¬MaskExact [piece, piece] [] m cursors := by
  rw [maskExact_iff_admits]
  intro h
  have hper : PerToken [piece, piece] [] m cursors 0 := by
    rw [PerToken, if_neg List.not_mem_nil]
    exact ⟨piece, rfl, hne, hfeed⟩
  rcases (h 0 (by simp)).mpr hper with ⟨-, q, hq, -, hlast⟩ | ⟨hmem, -⟩
  · rw [hfree, if_neg Bool.false_ne_true] at hlast
    obtain rfl : piece = q := Option.some.inj hq
    exact absurd (hlast.1.2.2 1 Nat.one_pos rfl) List.not_mem_nil
  · cases hmem

/-- Two tokens that spell `<`, at the start of a call. -/
theorem duplicate_piece_excluded :
    ¬MaskExact [bytes "<", bytes "<"] [] (Machine.compile [⟨bytes "t", []⟩] false)
      (Machine.compile [⟨bytes "t", []⟩] false).start :=
  duplicate_lost (by decide +kernel) (by decide) (by decide +kernel)

end Vocab

end Grammar
