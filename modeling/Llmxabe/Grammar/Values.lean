/-
What the builder's value states spell.

A stretch `Spans i next L` leads from one state to another by the words of `L`,
with the tool and the written parameters left as they are.  Each function of the
builder makes a `Piece`: a stretch, and silent runs in its cells that are at most
`depth` longer than behind it.  The pieces are put together in the order the
builder puts them.
-/
import Llmxabe.Grammar.Moves
import Llmxabe.Grammar.Reference

open Computability

namespace Grammar

open Reference (this oneOf)

variable {m : Machine} {stops : State → Prop} {i next a b lo hi n depth : ℕ}
  {L L' : Language UInt8} {t : List State}

/-! ### Stretches -/

/-- The states from one to another read the language, and keep tool and parameters. -/
def Spans (m : Machine) (stops : State → Prop) (i next : ℕ) (L : Language UInt8) : Prop :=
  ∀ tool written, (m.moves stops).Fragment ⟨i, tool, written⟩ {⟨next, tool, written⟩} L

theorem Spans.congr (h : Spans m stops i next L) (hL : L = L') : Spans m stops i next L' :=
  hL ▸ h

theorem Spans.nil (i : ℕ) : Spans m stops i i 1 := fun _ _ => Moves.Fragment.nil _

theorem Spans.byte {byte : UInt8} (h : m.state i = .byte byte next) :
    Spans m stops i next {[byte]} := by
  intro tool written
  refine Moves.Fragment.letter (fun b e => Machine.read_byte h b) fun e => Machine.not_silent ?_
  rw [h]
  trivial

theorem Spans.seq (h : Spans m stops i a L) (h' : Spans m stops a next L')
    (hword : (∃ w, w ∈ L') ∨ (m.moves stops).Halting) : Spans m stops i next (L * L') := by
  intro tool written
  refine (h tool written).seq ?_ hword
  rintro c rfl
  exact h' tool written

section Split

variable (hstops : ∀ s, stops s → s.Waiting)
include hstops

theorem Spans.split {alts : List ℕ} (h : m.state i = .split alts)
    (halts : ∀ alt ∈ alts, ∃ L' ≤ L, Spans m stops alt next L')
    (hword : ∀ w ∈ L, ∃ alt ∈ alts, ∃ L', w ∈ L' ∧ Spans m stops alt next L') :
    Spans m stops i next L := by
  intro tool written
  have hwaiting : ¬(m.state i).Waiting := by
    rw [h]
    exact id
  refine Moves.Fragment.alts (fun e he => ?_) (fun w hw => ?_)
    (fun byte e => Machine.not_read hwaiting) fun hw => hwaiting (hstops _ hw)
  · obtain ⟨alt, halt, rfl⟩ := (Machine.silent_split h).mp he
    obtain ⟨L', hle, hspans⟩ := halts alt halt
    exact ⟨L', hle, hspans tool written⟩
  · obtain ⟨alt, halt, L', hw, hspans⟩ := hword w hw
    exact ⟨_, L', (Machine.silent_split h).mpr ⟨alt, halt, rfl⟩, hw, hspans tool written⟩

/-- A choice of two. -/
theorem Spans.either (h : m.state i = .split [a, b]) (ha : Spans m stops a next L)
    (hb : Spans m stops b next L') : Spans m stops i next (L + L') := by
  refine Spans.split hstops h (fun alt halt => ?_) fun w hw => ?_
  · rcases List.mem_pair.mp halt with rfl | rfl
    · exact ⟨L, le_self_add, ha⟩
    · exact ⟨L', le_add_self, hb⟩
  · rcases hw with hw | hw
    · exact ⟨a, List.mem_cons_self, L, hw, ha⟩
    · exact ⟨b, by simp, L', hw, hb⟩

/-- A loop through `again`, or out of it. -/
theorem Spans.loop (h : m.state i = .split [a, next]) (ha : Spans m stops a i L) (hL : [] ∉ L) :
    Spans m stops i next L∗ := by
  intro tool written
  have hwaiting : ¬(m.state i).Waiting := by
    rw [h]
    exact id
  refine Moves.Fragment.star (A := {⟨i, tool, written⟩}) ?_ ?_ ?_ ?_ ?_ hL rfl
  · rintro c rfl
    exact ⟨_, rfl, (Machine.silent_split h).mpr ⟨next, by simp, rfl⟩⟩
  · rintro c rfl w hw
    exact ⟨_, L, (Machine.silent_split h).mpr ⟨a, by simp, rfl⟩, hw, ha tool written⟩
  · rintro c rfl e he
    obtain ⟨alt, halt, rfl⟩ := (Machine.silent_split h).mp he
    rcases List.mem_pair.mp halt with rfl | rfl
    · exact Or.inr ⟨L, le_refl L, ha tool written⟩
    · exact Or.inl rfl
  · rintro c rfl byte e
    exact Machine.not_read hwaiting
  · rintro c rfl hw
    exact hwaiting (hstops _ hw)

end Split

/-! ### The text value -/

section Text

theorem borders_close : Scan.Borders CLOSE (kmpFallback CLOSE) := by decide

theorem close_ne_nil : CLOSE ≠ [] := by decide

variable (hfallback : m.fallback = kmpFallback CLOSE)
  (hstates : ∀ k < CLOSE.length, m.state (i + k) = .untilClose k next)
include hfallback hstates

/-- One byte of a text value, `k` bytes into its closing tag. -/
theorem read_text {u : List UInt8} {k : ℕ} (h : Scan.Searching CLOSE u k)
    (stops : State → Prop) (tool : ℕ) (written : BitVec 64) (byte : UInt8) :
    (m.advanceClose k byte = CLOSE.length ∧ Scan.Ends CLOSE (u ++ [byte]) ∧
      ∀ d, (m.moves stops).read ⟨i + k, tool, written⟩ byte d ↔ d = ⟨next, tool, written⟩) ∨
    Scan.Searching CLOSE (u ++ [byte]) (m.advanceClose k byte) ∧
      ∀ d, (m.moves stops).read ⟨i + k, tool, written⟩ byte d ↔
        d = ⟨i + m.advanceClose k byte, tool, written⟩ := by
  have hread : ∀ d, (m.moves stops).read ⟨i + k, tool, written⟩ byte d ↔ _ :=
    fun d => Machine.read_untilClose (hstates k h.lt) byte
  unfold Machine.advanceClose at hread ⊢
  rw [hfallback] at hread ⊢
  rcases h.step (a := byte) borders_close with ⟨hend, hends⟩ | ⟨hend, hsearching⟩
  · refine Or.inl ⟨hend, hends, fun d => ?_⟩
    rw [hread, if_pos hend]
  · refine Or.inr ⟨hsearching, fun d => ?_⟩
    rw [hread, if_neg hend, Nat.add_sub_cancel]

theorem text_spells {u v : List UInt8} {k tool : ℕ} {written : BitVec 64}
    (h : Scan.Searching CLOSE u k) (hends : Scan.Ends CLOSE (u ++ v)) :
    (m.moves stops).Path ⟨i + k, tool, written⟩ v ⟨next, tool, written⟩ := by
  induction v generalizing u k with
  | nil =>
    rw [List.append_nil] at hends
    exact absurd hends h.not_ends
  | cons byte v ih =>
    rcases read_text hfallback hstates h stops tool written byte with
      ⟨-, hends', hread⟩ | ⟨hsearching, hread⟩
    · have hsame := hends.2 (u ++ [byte]) ⟨v, by simp⟩ hends'.1
      obtain rfl : v = [] := by simpa using hsame
      exact .read ((hread _).mpr rfl) (.nil _)
    · refine .read ((hread _).mpr rfl) (ih hsearching ?_)
      rwa [List.append_assoc]

omit hfallback hstates in
theorem text_completes {u : List UInt8} {k : ℕ} (h : Scan.Searching CLOSE u k) :
    ∃ v, Scan.Ends CLOSE (u ++ v) := by
  refine ⟨CLOSE.drop k, ?_⟩
  induction hn : CLOSE.length - k generalizing u k with
  | zero =>
    have := h.lt
    omega
  | succ n ih =>
    have hk := h.lt
    have hdrop : CLOSE.drop k = CLOSE[k] :: CLOSE.drop (k + 1) := List.drop_eq_getElem_cons hk
    have hread : Scan.advance CLOSE (kmpFallback CLOSE) CLOSE[k] (k + 1) k = k + 1 :=
      Scan.advance_read (List.getElem?_eq_getElem hk)
    rw [hdrop, List.append_cons]
    rcases h.step (a := CLOSE[k]) borders_close with ⟨hend, hends⟩ | ⟨hend, hsearching⟩
    · rw [hread] at hend
      rwa [hend, List.drop_length, List.append_nil]
    · rw [hread] at hsearching
      exact ih hsearching (by omega)

theorem text_passes {u v : List UInt8} {k tool : ℕ} {written : BitVec 64} {e : Cursor}
    (h : Scan.Searching CLOSE u k) (hpath : (m.moves stops).Path ⟨i + k, tool, written⟩ v e) :
    (∃ v₁ v₂, Scan.Ends CLOSE (u ++ v₁) ∧ v = v₁ ++ v₂ ∧
      (m.moves stops).Path ⟨next, tool, written⟩ v₂ e) ∨
    ∃ v', Scan.Ends CLOSE (u ++ v ++ v') ∧
      (m.moves stops).Path e v' ⟨next, tool, written⟩ := by
  induction v generalizing u k with
  | nil =>
    have hwaiting : (m.state (i + k)).Waiting := by
      rw [hstates k h.lt]
      trivial
    cases hpath with
    | silent hs _ => exact absurd hs (Machine.not_silent hwaiting)
    | nil =>
      obtain ⟨v', hv'⟩ := text_completes h
      rw [List.append_nil]
      exact Or.inr ⟨v', hv', text_spells hfallback hstates h hv'⟩
  | cons byte v ih =>
    have hwaiting : (m.state (i + k)).Waiting := by
      rw [hstates k h.lt]
      trivial
    cases hpath with
    | silent hs _ => exact absurd hs (Machine.not_silent hwaiting)
    | read hr hpath =>
      rcases read_text hfallback hstates h stops tool written byte with
        ⟨-, hends, hread⟩ | ⟨hsearching, hread⟩
      · obtain rfl := (hread _).mp hr
        exact Or.inl ⟨[byte], v, hends, rfl, hpath⟩
      · obtain rfl := (hread _).mp hr
        rcases ih hsearching hpath with ⟨v₁, v₂, hends, rfl, hp⟩ | ⟨v', hends, hp⟩
        · rw [List.append_assoc] at hends
          exact Or.inl ⟨byte :: v₁, v₂, hends, rfl, hp⟩
        · rw [List.append_assoc u] at hends
          exact Or.inr ⟨v', hends, hp⟩

theorem Spans.text : Spans m stops i next {w | Scan.Ends CLOSE w} := by
  intro tool written
  have hstart : Scan.Searching CLOSE [] 0 := Scan.Searching.start close_ne_nil
  constructor
  · intro w hw
    exact ⟨_, rfl, text_spells (i := i) (u := []) hfallback hstates hstart hw⟩
  · intro w e hpath _
    rcases text_passes (i := i) (u := []) hfallback hstates hstart hpath with
      ⟨u, v, hu, hw, hp⟩ | ⟨v, hv, hp⟩
    · exact Or.inl ⟨u, v, hu, hw, _, rfl, hp⟩
    · exact Or.inr ⟨v, hv, _, rfl, hp⟩

end Text

/-! ### Pieces -/

/-- The cells `lo ≤ j < hi` lead from `i` to `next` by the words of `L`. -/
structure Piece (next : ℕ) (L : Language UInt8) (depth : ℕ) (t : List State) (lo hi i : ℕ) :
    Prop where
  spans : ∀ m : Machine, m.states = t → m.fallback = kmpFallback CLOSE → ∀ stops,
    (∀ s, stops s → s.Waiting) → Spans m stops i next L
  settles : ∀ m : Machine, m.states = t → ∀ n, m.Settles n next →
    m.Settles (n + depth) i ∧ ∀ j, lo ≤ j → j < hi → m.Settles (n + depth) j

theorem state_of_cell {s : State} (hm : m.states = t) (h : t[i]? = some s) : m.state i = s :=
  Machine.state_of_getElem? (hm ▸ h)

theorem Piece.settles_entry {d : ℕ} (h : Piece next L depth t lo hi i) (hm : m.states = t)
    (hn : m.Settles n next) (hd : n + depth ≤ d) : m.Settles d i :=
  (h.settles m hm n hn).1.mono hd

theorem Piece.settles_cell {d j : ℕ} (h : Piece next L depth t lo hi i) (hm : m.states = t)
    (hn : m.Settles n next) (hd : n + depth ≤ d) (hlo : lo ≤ j) (hhi : j < hi) : m.Settles d j :=
  ((h.settles m hm n hn).2 j hlo hhi).mono hd

theorem settles_byte {byte : UInt8} (h : m.state i = .byte byte next) : m.Settles n i :=
  .waiting (by rw [h]; trivial)

/-- Silent runs are short in a range of cells. -/
def Covered (m : Machine) (d lo hi : ℕ) : Prop := ∀ j, lo ≤ j → j < hi → m.Settles d j

theorem Covered.trans {d mid : ℕ} (h : Covered m d lo mid) (h' : Covered m d mid hi) :
    Covered m d lo hi := by
  intro j hlo hhi
  rcases Nat.lt_or_ge j mid with hlt | hge
  exacts [h j hlo hlt, h' j hge hhi]

theorem Covered.one {d : ℕ} (h : m.Settles d lo) : Covered m d lo (lo + 1) := by
  intro j hlo hhi
  obtain rfl : j = lo := by omega
  exact h

theorem Piece.covered {d : ℕ} (h : Piece next L depth t lo hi i) (hm : m.states = t)
    (hn : m.Settles n next) (hd : n + depth ≤ d) : Covered m d lo hi :=
  fun _ hlo hhi => h.settles_cell hm hn hd hlo hhi

open Arena (Builds)

theorem mem_self (w : List UInt8) : w ∈ ({w} : Language UInt8) := rfl

theorem singleton_mul (u v : List UInt8) : ({u} * {v} : Language UInt8) = {u ++ v} := by
  ext w
  rw [Language.mem_mul]
  constructor
  · rintro ⟨a, rfl, b, rfl, rfl⟩
    rfl
  · rintro rfl
    exact ⟨u, rfl, v, rfl, rfl⟩

/-- A literal takes a cell for each byte. -/
theorem builds_literal (word : List UInt8) (next : ℕ) :
    Builds ∅ (literal word next) (fun t lo hi i =>
      Piece next {word} 0 t lo hi i ∧ hi = lo + word.length ∧
        ∀ m : Machine, m.states = t → word ≠ [] → m.Settles 0 i) := by
  induction word with
  | nil =>
    unfold literal
    rw [List.foldrM_nil]
    refine (Builds.pure next).mono ?_
    rintro t lo hi i - ⟨rfl, rfl⟩
    refine ⟨⟨fun m _ _ stops _ => Spans.nil _, fun m _ n hn => ⟨hn, ?_⟩⟩, rfl, ?_⟩
    · intro j hlo hhi
      omega
    · exact fun m _ hne => absurd rfl hne
  | cons byte word ih =>
    unfold literal at ih ⊢
    rw [List.foldrM_cons]
    refine (ih.andThen fun rest => Builds.add (.byte byte rest)).mono ?_
    rintro t lo hi i - ⟨mid, rest, hlo, hmid, ⟨hrest, rfl, -⟩, rfl, rfl, hcell⟩
    have hfirst : ∀ {m : Machine} {n}, m.states = t → m.Settles n (lo + word.length) :=
      fun hm => settles_byte (state_of_cell hm hcell)
    refine ⟨⟨?_, ?_⟩, by rw [List.length_cons]; omega, fun m hm _ => hfirst hm⟩
    · intro m hm hfallback stops hstops
      refine ((Spans.byte (state_of_cell hm hcell)).seq
        (hrest.spans m hm hfallback stops hstops) (Or.inl ⟨word, rfl⟩)).congr ?_
      exact singleton_mul [byte] word
    · intro m hm n hn
      refine ⟨hfirst hm, fun j hj hj' => ?_⟩
      rcases Nat.lt_or_ge j (lo + word.length) with hlt | hge
      · exact hrest.settles_cell hm hn (Nat.le_refl _) hj hlt
      · obtain rfl : j = lo + word.length := by omega
        exact hfirst hm

/-- Cells for several bytes, one behind the other. -/
def Letters (t : List State) (lo : ℕ) (letters : List UInt8) (next : ℕ) : Prop :=
  ∀ k byte, letters[k]? = some byte → t[lo + k]? = some (.byte byte next)

theorem Letters.spans {letters : List UInt8} (h : Letters t lo letters next) (hm : m.states = t)
    (stops : State → Prop) :
    (∀ alt ∈ List.range' lo letters.length, ∃ byte ∈ letters,
      Spans m stops alt next {[byte]}) ∧
    ∀ byte ∈ letters, ∃ alt ∈ List.range' lo letters.length, Spans m stops alt next {[byte]} := by
  constructor
  · intro alt halt
    obtain ⟨k, hk, rfl⟩ := List.mem_range'.mp halt
    refine ⟨letters[k], List.getElem_mem hk, Spans.byte (state_of_cell hm ?_)⟩
    rw [Nat.one_mul]
    exact h k letters[k] (List.getElem?_eq_getElem hk)
  · intro byte hbyte
    obtain ⟨k, hk, rfl⟩ := List.getElem_of_mem hbyte
    refine ⟨lo + k, List.mem_range'.mpr ⟨k, hk, by omega⟩, Spans.byte (state_of_cell hm ?_)⟩
    exact h k letters[k] (List.getElem?_eq_getElem hk)

theorem Letters.settles {letters : List UInt8} {j : ℕ} (h : Letters t lo letters next)
    (hm : m.states = t) (hlo : lo ≤ j) (hhi : j < lo + letters.length) : m.Settles n j := by
  obtain ⟨k, rfl⟩ := Nat.exists_eq_add_of_le hlo
  exact settles_byte (state_of_cell hm (h k letters[k] (List.getElem?_eq_getElem (by omega))))

/-- The letters under a split. -/
theorem Letters.piece {letters : List UInt8} (h : Letters t lo letters next)
    (hsplit : t[hi]? = some (.split (List.range' lo letters.length)))
    (hhi : hi = lo + letters.length) :
    Piece next (Reference.oneOf letters) 1 t lo (hi + 1) hi ∧
      ∀ m : Machine, m.states = t → m.Settles 1 hi := by
  have hentry : ∀ m : Machine, m.states = t → m.Settles 1 hi := by
    intro m hm
    refine Machine.Settles.split (state_of_cell hm hsplit) fun alt halt => ?_
    obtain ⟨k, hk, rfl⟩ := List.mem_range'.mp halt
    exact h.settles hm (by omega) (by omega)
  refine ⟨⟨?_, fun m hm n _ => ⟨(hentry m hm).mono (by omega), fun j hlo hj => ?_⟩⟩, hentry⟩
  · intro m hm _ stops hstops
    obtain ⟨hcells, hbytes⟩ := h.spans hm stops
    refine Spans.split hstops (state_of_cell hm hsplit) (fun alt halt => ?_) fun w hw => ?_
    · obtain ⟨byte, hbyte, hspans⟩ := hcells alt halt
      refine ⟨_, ?_, hspans⟩
      rintro w rfl
      exact ⟨byte, hbyte, rfl⟩
    · obtain ⟨byte, hbyte, rfl⟩ := hw
      obtain ⟨alt, halt, hspans⟩ := hbytes byte hbyte
      exact ⟨alt, halt, _, mem_self [byte], hspans⟩
  · rcases Nat.lt_or_ge j hi with hlt | hge
    · exact h.settles hm hlo (by omega)
    · obtain rfl : j = hi := by omega
      exact (hentry m hm).mono (by omega)

theorem builds_digit (next : ℕ) :
    Builds ∅ (digit next) (fun t lo hi i => Piece next Reference.digit 1 t lo hi i ∧
      ∀ m : Machine, m.states = t → m.Settles 1 i) := by
  unfold digit
  refine ((Builds.addEach (fun byte => State.byte byte next) (bytes "0123456789")).andThen
    fun alts => Builds.add (.split alts)).mono ?_
  rintro t lo hi i - ⟨mid, alts, -, -, ⟨rfl, rfl, hletters⟩, rfl, rfl, hsplit⟩
  exact Letters.piece hletters hsplit rfl

theorem nil_notMem_oneOf (letters : List UInt8) : [] ∉ Reference.oneOf letters := by
  rintro ⟨byte, -, h⟩
  cases h

/-- Behind `more`: the digit that comes back to it, its two ways on, the first digit. -/
theorem builds_digits_body (more next : ℕ) :
    Builds {more} (do
      let again ← digit more
      Arena.patch more (State.split [again, next])
      digit more) (fun t lo hi i => ∃ again mid, lo ≤ mid ∧ mid ≤ hi ∧
        Piece more Reference.digit 1 t lo mid again ∧
        (∀ m : Machine, m.states = t → m.Settles 1 again) ∧
        t[more]? = some (.split [again, next]) ∧
        Piece more Reference.digit 1 t mid hi i ∧ ∀ m : Machine, m.states = t → m.Settles 1 i) := by
  have hpatch := fun again => ((Builds.patch more (State.split [again, next])).bind
    (fun _ => builds_digit more) (Set.disjoint_empty _))
  rw [Set.union_empty] at hpatch
  refine ((builds_digit more).andThen hpatch).mono ?_
  rintro t lo hi i - ⟨mid, again, hlo, hmid, ⟨hagain, hagain'⟩, mid', -, hle, hle',
    ⟨rfl, hpatched⟩, hi, hi'⟩
  exact ⟨again, mid', hlo, hle', hagain, hagain', hpatched, hi, hi'⟩

theorem builds_digits (next : ℕ) :
    Builds ∅ (digits next) (fun t lo hi i =>
      Piece next (Reference.digit * Reference.digit∗) 3 t lo hi i ∧
        ∀ m : Machine, m.states = t → m.Settles 1 i) := by
  have hbody := Builds.reserve (H := ∅) (State.split []) fun more _ =>
    insert_empty_eq (β := Set ℕ) more ▸ builds_digits_body more next
  refine Builds.mono hbody ?_
  rintro t lo hi i - ⟨again, mid, hlo, hmid, hagain, hagain', hmore, hi, hi'⟩
  refine ⟨⟨?_, ?_⟩, hi'⟩
  · intro m hm hfallback stops hstops
    refine (hi.spans m hm hfallback stops hstops).seq ?_ (Or.inl ⟨[], Language.nil_mem_kstar _⟩)
    exact Spans.loop hstops (state_of_cell hm hmore)
      (hagain.spans m hm hfallback stops hstops) (nil_notMem_oneOf _)
  · intro m hm n hn
    have hsplit : m.Settles (n + 2) lo := by
      refine Machine.Settles.split (n := n + 1) (state_of_cell hm hmore) fun alt halt => ?_
      rcases List.mem_pair.mp halt with rfl | rfl
      · exact (hagain' m hm).mono (by omega)
      · exact hn.mono (by omega)
    refine ⟨(hi' m hm).mono (by omega), ?_⟩
    exact (Covered.one (hsplit.mono (by omega))).trans
      ((hagain.covered hm hsplit (by omega)).trans (hi.covered hm hsplit (by omega)))

theorem mem_one_add {w : List UInt8} : w ∈ 1 + L ↔ w = [] ∨ w ∈ L := by
  rw [Language.mem_add, Language.mem_one]

/-- A split over two bytes. -/
theorem Spans.eitherByte {x y : UInt8} (hstops : ∀ s, stops s → s.Waiting)
    (h : m.state i = .split [a, b]) (ha : m.state a = .byte x next)
    (hb : m.state b = .byte y next) : Spans m stops i next (Reference.oneOf [x, y]) := by
  refine (Spans.either hstops h (Spans.byte ha) (Spans.byte hb)).congr ?_
  ext w
  rw [Language.mem_add]
  constructor
  · rintro (rfl | rfl)
    exacts [⟨x, by simp, rfl⟩, ⟨y, by simp, rfl⟩]
  · rintro ⟨byte, hbyte, rfl⟩
    rcases List.mem_pair.mp hbyte with rfl | rfl
    exacts [Or.inl rfl, Or.inr rfl]

theorem exists_digits : ∃ w, w ∈ Reference.digit * Reference.digit∗ :=
  ⟨[0x30] ++ [], Language.append_mem_mul ⟨0x30, by decide, rfl⟩ (Language.nil_mem_kstar _)⟩

theorem builds_exponent (next : ℕ) :
    Builds ∅ (exponent next) (fun t lo hi i => Piece next Reference.exponent 3 t lo hi i ∧
      ∀ m : Machine, m.states = t → m.Settles 1 i) := by
  unfold exponent split
  refine ((builds_digits next).andThen fun exponentDigits =>
    (Builds.add _).andThen fun plus => (Builds.add _).andThen fun minusExponent =>
    (Builds.add _).andThen fun signed => (Builds.add _).andThen fun lower =>
    (Builds.add _).andThen fun upper => Builds.add _).mono ?_
  rintro t lo hi i - ⟨p, exponentDigits, -, -, ⟨hdigits, hdigits'⟩, _, plus, -, -, ⟨rfl, rfl, hplus⟩,
    _, _, -, -, ⟨rfl, rfl, hminus⟩, _, _, -, -, ⟨rfl, rfl, hsigned⟩,
    _, _, -, -, ⟨rfl, rfl, hlower⟩, _, _, -, -, ⟨rfl, rfl, hupper⟩, rfl, rfl, hsplit⟩
  -- the letter of the exponent, either case
  have hentry : ∀ m : Machine, m.states = t → m.Settles 1 (plus + 1 + 1 + 1 + 1 + 1) := by
    intro m hm
    refine Machine.Settles.split (state_of_cell hm hsplit) fun alt halt => ?_
    rcases List.mem_pair.mp halt with rfl | rfl
    exacts [settles_byte (state_of_cell hm hlower), settles_byte (state_of_cell hm hupper)]
  refine ⟨⟨?_, ?_⟩, hentry⟩
  · intro m hm hfallback stops hstops
    have hspans := hdigits.spans m hm hfallback stops hstops
    -- a sign or none, and the digits
    have hsign : Spans m stops (plus + 1 + 1) next
        ((1 + Reference.oneOf (bytes "+-")) * (Reference.digit * Reference.digit∗)) := by
      -- whichever alternative the split takes, it spells an end of this language
      refine Spans.split hstops (state_of_cell hm hsigned) (fun alt halt => ?_) fun w hw => ?_
      · simp only [List.mem_cons, List.not_mem_nil, or_false] at halt
        rcases halt with rfl | rfl | rfl
        · exact ⟨_, mul_le_mul_left (fun w hw => Or.inr ⟨0x2b, by decide, hw⟩) _,
            (Spans.byte (state_of_cell hm hplus)).seq hspans (Or.inl exists_digits)⟩
        · exact ⟨_, mul_le_mul_left (fun w hw => Or.inr ⟨0x2d, by decide, hw⟩) _,
            (Spans.byte (state_of_cell hm hminus)).seq hspans (Or.inl exists_digits)⟩
        · refine ⟨_, ?_, hspans⟩
          rw [one_add_mul]
          exact le_self_add
      -- and each word of the language has its alternative
      · obtain ⟨u, hu, v, hv, rfl⟩ := Language.mem_mul.mp hw
        rcases mem_one_add.mp hu with rfl | ⟨byte, hbyte, rfl⟩
        · exact ⟨exponentDigits, by simp, _, hv, hspans⟩
        · have hbyte' : byte = 0x2b ∨ byte = 0x2d := List.mem_pair.mp hbyte
          rcases hbyte' with rfl | rfl
          · exact ⟨plus, by simp, _, Language.append_mem_mul (mem_self _) hv,
              (Spans.byte (state_of_cell hm hplus)).seq hspans (Or.inl exists_digits)⟩
          · exact ⟨plus + 1, by simp, _, Language.append_mem_mul (mem_self _) hv,
              (Spans.byte (state_of_cell hm hminus)).seq hspans (Or.inl exists_digits)⟩
    refine (Spans.eitherByte hstops (state_of_cell hm hsplit) (state_of_cell hm hlower)
      (state_of_cell hm hupper)).seq hsign (Or.inl ?_)
    obtain ⟨w, hw⟩ := exists_digits
    exact ⟨[] ++ w, Language.append_mem_mul (mem_one_add.mpr (Or.inl rfl)) hw⟩
  · intro m hm n hn
    refine ⟨(hentry m hm).mono (by omega), ?_⟩
    -- every cell settles, in the order of the arena
    have hsign : m.Settles 2 (plus + 1 + 1) := by
      refine Machine.Settles.split (state_of_cell hm hsigned) fun alt halt => ?_
      simp only [List.mem_cons, List.not_mem_nil, or_false] at halt
      rcases halt with rfl | rfl | rfl
      · exact settles_byte (state_of_cell hm hplus)
      · exact settles_byte (state_of_cell hm hminus)
      · exact hdigits' m hm
    exact (hdigits.covered hm hn (Nat.le_refl _)).trans <|
      (Covered.one (settles_byte (state_of_cell hm hplus))).trans <|
      (Covered.one (settles_byte (state_of_cell hm hminus))).trans <|
      (Covered.one (hsign.mono (by omega))).trans <|
      (Covered.one (settles_byte (state_of_cell hm hlower))).trans <|
      (Covered.one (settles_byte (state_of_cell hm hupper))).trans <|
      Covered.one ((hentry m hm).mono (by omega))

theorem magnitude_eq : this "0" + oneOf (bytes "123456789") *
    (1 + Reference.digit * Reference.digit∗) = Reference.magnitude := by
  unfold Reference.magnitude
  rw [Language.one_add_self_mul_kstar_eq_kstar]

theorem builds_magnitude (tail : ℕ) :
    Builds ∅ (magnitude tail) (fun t lo hi i => Piece tail Reference.magnitude 3 t lo hi i ∧
      ∀ m : Machine, m.states = t → m.Settles 1 i) := by
  unfold magnitude split
  refine ((Builds.add _).andThen fun zeroByte => (builds_digits tail).andThen fun more =>
    (Builds.add _).andThen fun rest =>
    (Builds.addEach (fun byte => State.byte byte rest) (bytes "123456789")).andThen fun leading =>
    Builds.add _).mono ?_
  rintro t lo hi i - ⟨_, zeroByte, -, -, ⟨rfl, rfl, hzero⟩, _, more, -, -, ⟨hmore, hmore'⟩,
    _, rest, -, -, ⟨rfl, rfl, hrest⟩, _, _, -, -, ⟨rfl, rfl, hleading⟩, rfl, rfl, hsplit⟩
  have hletters : Letters t (rest + 1) (bytes "123456789") rest := hleading
  have hlen : (bytes "123456789").length = 9 := by decide
  have hentry : ∀ m : Machine, m.states = t →
      m.Settles 1 (rest + 1 + (bytes "123456789").length) := by
    intro m hm
    refine Machine.Settles.split (state_of_cell hm hsplit) fun alt halt => ?_
    rcases List.mem_cons.mp halt with rfl | halt
    · exact settles_byte (state_of_cell hm hzero)
    · obtain ⟨k, hk, rfl⟩ := List.mem_range'.mp halt
      exact hletters.settles hm (by omega) (by omega)
  refine ⟨⟨?_, ?_⟩, hentry⟩
  · intro m hm hfallback stops hstops
    have hdigits := hmore.spans m hm hfallback stops hstops
    -- behind a leading digit: nothing more, or more digits
    have hbehind : Spans m stops rest tail (1 + Reference.digit * Reference.digit∗) :=
      Spans.either hstops (state_of_cell hm hrest) (Spans.nil tail) hdigits
    have hnil : ∃ w, w ∈ 1 + Reference.digit * Reference.digit∗ :=
      ⟨[], mem_one_add.mpr (Or.inl rfl)⟩
    obtain ⟨hcells, hbytes⟩ := hletters.spans hm stops
    refine Spans.congr ?_ magnitude_eq
    refine Spans.split hstops (state_of_cell hm hsplit) (fun alt halt => ?_) fun w hw => ?_
    -- whichever alternative the split takes, it spells words of the language
    · rcases List.mem_cons.mp halt with rfl | halt
      · exact ⟨_, le_self_add, Spans.byte (state_of_cell hm hzero)⟩
      · obtain ⟨byte, hbyte, hspans⟩ := hcells alt halt
        refine ⟨_, le_trans (mul_le_mul_left ?_ _) le_add_self, hspans.seq hbehind (Or.inl hnil)⟩
        rintro w rfl
        exact ⟨byte, hbyte, rfl⟩
    -- a word is a zero, or begins with another digit
    · rcases hw with rfl | hw
      · exact ⟨_, List.mem_cons_self, _, mem_self _, Spans.byte (state_of_cell hm hzero)⟩
      · obtain ⟨u, ⟨byte, hbyte, rfl⟩, v, hv, rfl⟩ := Language.mem_mul.mp hw
        obtain ⟨alt, halt, hspans⟩ := hbytes byte hbyte
        exact ⟨alt, List.mem_cons_of_mem _ halt, _, Language.append_mem_mul (mem_self _) hv,
          hspans.seq hbehind (Or.inl hnil)⟩
  · intro m hm n hn
    -- every cell settles, in the order of the arena
    have hbehind : m.Settles (n + 2) rest := by
      refine Machine.Settles.split (n := n + 1) (state_of_cell hm hrest) fun alt halt => ?_
      rcases List.mem_pair.mp halt with rfl | rfl
      · exact hn.mono (by omega)
      · exact (hmore' m hm).mono (by omega)
    refine ⟨(hentry m hm).mono (by omega), ?_⟩
    exact (Covered.one (settles_byte (state_of_cell hm hzero))).trans <|
      (hmore.covered hm hn (Nat.le_refl _)).trans <|
      (Covered.one (hbehind.mono (by omega))).trans <|
      Covered.trans (fun j hlo hhi => hletters.settles hm hlo hhi) <|
      Covered.one ((hentry m hm).mono (by omega))

theorem builds_fraction (fractional : Bool) (tail : ℕ) :
    Builds ∅ (fraction fractional tail)
      (Piece tail (if fractional then 1 + Reference.fraction else 1) 3) := by
  unfold fraction
  cases fractional
  · refine (Builds.pure tail).mono ?_
    rintro t lo hi i - ⟨rfl, rfl⟩
    refine ⟨fun m _ _ stops _ => Spans.nil _, fun m _ n hn => ⟨hn.mono (by omega), ?_⟩⟩
    intro j hlo hhi
    omega
  · refine ((builds_digits tail).andThen fun afterPoint => (Builds.add _).andThen fun point =>
      Builds.add _).mono ?_
    rintro t lo hi i - ⟨_, afterPoint, -, -, ⟨hdigits, -⟩, _, point, -, -, ⟨rfl, rfl, hpoint⟩,
      rfl, rfl, hsplit⟩
    refine ⟨?_, ?_⟩
    · intro m hm hfallback stops hstops
      refine Spans.either hstops (state_of_cell hm hsplit) (Spans.nil tail) ?_
      exact (Spans.byte (state_of_cell hm hpoint)).seq
        (hdigits.spans m hm hfallback stops hstops) (Or.inl exists_digits)
    · intro m hm n hn
      have hentry : m.Settles (n + 1) (point + 1) := by
        refine Machine.Settles.split (state_of_cell hm hsplit) fun alt halt => ?_
        rcases List.mem_pair.mp halt with rfl | rfl
        · exact hn
        · exact settles_byte (state_of_cell hm hpoint)
      refine ⟨hentry.mono (by omega), ?_⟩
      exact (hdigits.covered hm hn (Nat.le_refl _)).trans <|
        (Covered.one (settles_byte (state_of_cell hm hpoint))).trans <|
        Covered.one (hentry.mono (by omega))

theorem exists_magnitude : ∃ w, w ∈ Reference.magnitude := ⟨bytes "0", Or.inl rfl⟩

theorem exists_optional (L : Language UInt8) : ∃ w, w ∈ 1 + L := ⟨[], mem_one_add.mpr (Or.inl rfl)⟩

theorem exists_mul (h : ∃ w, w ∈ L) (h' : ∃ w, w ∈ L') : ∃ w, w ∈ L * L' := by
  obtain ⟨u, hu⟩ := h
  obtain ⟨v, hv⟩ := h'
  exact ⟨u ++ v, Language.append_mem_mul hu hv⟩

/-- What the machine reads of a number. -/
def numberWith (fractional : Bool) : Language UInt8 :=
  (1 + this "-") * (Reference.magnitude *
    ((if fractional then 1 + Reference.fraction else 1) * (1 + Reference.exponent)))

theorem builds_number (next : ℕ) (fractional : Bool) :
    Builds ∅ (number next fractional) (Piece next (numberWith fractional) 8) := by
  unfold number split
  refine ((builds_exponent next).andThen fun exponent => (Builds.add _).andThen fun tail =>
    (builds_fraction fractional tail).andThen fun tail' =>
    (builds_magnitude tail').andThen fun magnitude => (Builds.add _).andThen fun minus =>
    Builds.add _).mono ?_
  rintro t lo hi i - ⟨_, exponent, -, -, ⟨hexponent, hexponent'⟩, _, tail, -, -, ⟨rfl, rfl, htail⟩,
    _, tail', -, -, hfraction, _, magnitude, -, -, ⟨hmagnitude, hmagnitude'⟩,
    _, minus, -, -, ⟨rfl, rfl, hminus⟩, rfl, rfl, hsplit⟩
  have hfractionWord : ∃ w, w ∈ (if fractional then 1 + Reference.fraction else 1) := by
    cases fractional
    · exact ⟨[], rfl⟩
    · exact exists_optional _
  refine ⟨?_, ?_⟩
  · intro m hm hfallback stops hstops
    have hend : Spans m stops tail next (1 + Reference.exponent) :=
      Spans.either hstops (state_of_cell hm htail) (Spans.nil next)
        (hexponent.spans m hm hfallback stops hstops)
    have hunsigned := (hmagnitude.spans m hm hfallback stops hstops).seq
      ((hfraction.spans m hm hfallback stops hstops).seq hend (Or.inl (exists_optional _)))
      (Or.inl (exists_mul hfractionWord (exists_optional _)))
    refine (Spans.either hstops (state_of_cell hm hsplit) hunsigned
      ((Spans.byte (state_of_cell hm hminus)).seq hunsigned (Or.inl ?_))).congr ?_
    · exact exists_mul exists_magnitude (exists_mul hfractionWord (exists_optional _))
    · exact (one_add_mul _ _).symm
  · intro m hm n hn
    have htail' : m.Settles (n + 2) tail := by
      refine Machine.Settles.split (n := n + 1) (state_of_cell hm htail) fun alt halt => ?_
      rcases List.mem_pair.mp halt with rfl | rfl
      · exact hn.mono (by omega)
      · exact (hexponent' m hm).mono (by omega)
    have hfront := hfraction.settles_entry hm htail' (Nat.le_refl _)
    have hentry : m.Settles 2 (minus + 1) := by
      refine Machine.Settles.split (state_of_cell hm hsplit) fun alt halt => ?_
      rcases List.mem_pair.mp halt with rfl | rfl
      · exact hmagnitude' m hm
      · exact settles_byte (state_of_cell hm hminus)
    refine ⟨hentry.mono (by omega), ?_⟩
    exact (hexponent.covered hm hn (by omega)).trans <|
      (Covered.one (htail'.mono (by omega))).trans <|
      (hfraction.covered hm htail' (by omega)).trans <|
      (hmagnitude.covered hm hfront (by omega)).trans <|
      (Covered.one (settles_byte (state_of_cell hm hminus))).trans <|
      Covered.one (hentry.mono (by omega))

/-! ### The value of a parameter -/

theorem builds_text (next : ℕ) :
    Builds ∅ (untilChain next) (Piece next {w | Scan.Ends CLOSE w} 0) := by
  unfold untilChain
  refine (Builds.size.andThen fun first =>
    (Builds.addEach (fun k => State.untilClose k next) (List.range CLOSE.length)).andThen
      fun _ => Builds.pure first).mono ?_
  rintro t lo hi i - ⟨_, first, -, -, ⟨rfl, rfl⟩, _, _, -, -, ⟨rfl, -, hcells⟩, rfl, rfl⟩
  have hstates : ∀ {m : Machine}, m.states = t → ∀ k < CLOSE.length,
      m.state (i + k) = .untilClose k next := by
    intro m hm k hk
    exact state_of_cell hm (hcells k k (List.getElem?_range hk))
  have hwaiting : ∀ {m : Machine} {n k : ℕ}, m.states = t → k < CLOSE.length →
      m.Settles n (i + k) := by
    intro m n k hm hk
    refine Machine.Settles.waiting ?_
    rw [hstates hm k hk]
    trivial
  refine ⟨fun m hm hfallback stops _ => Spans.text hfallback (hstates hm), fun m hm n _ => ⟨?_, ?_⟩⟩
  · exact hwaiting (k := 0) hm (by decide)
  · intro j hlo hhi
    obtain ⟨k, rfl⟩ := Nat.exists_eq_add_of_le hlo
    rw [List.length_range] at hhi
    exact hwaiting hm (by omega)

/-- The literals under a split, each leading to the closing tag. -/
theorem builds_literals (literals : List (List UInt8)) (close : ℕ) :
    Builds ∅ (do
      let alts ← literals.mapM fun text => literal text close
      split alts) (Piece close (Reference.oneWord literals) 1) := by
  refine ((Builds.mapM literals fun text _ => builds_literal text close).andThen fun alts =>
    Builds.add (.split alts)).mono ?_
  rintro t lo hi i - ⟨_, alts, -, -, ⟨htexts, halts, hcells⟩, rfl, rfl, hsplit⟩
  refine ⟨?_, ?_⟩
  · intro m hm hfallback stops hstops
    refine Spans.split hstops (state_of_cell hm hsplit) (fun alt halt => ?_) fun w hw => ?_
    · obtain ⟨text, htext, _, _, -, -, hpiece, -⟩ := halts alt halt
      refine ⟨_, ?_, hpiece.spans m hm hfallback stops hstops⟩
      rintro w rfl
      exact htext
    · obtain ⟨alt, halt, _, _, -, -, hpiece, -⟩ := htexts w hw
      exact ⟨alt, halt, _, mem_self w, hpiece.spans m hm hfallback stops hstops⟩
  · intro m hm n hn
    have hentry : m.Settles (n + 1) i := by
      refine Machine.Settles.split (state_of_cell hm hsplit) fun alt halt => ?_
      obtain ⟨text, -, _, _, -, -, hpiece, -⟩ := halts alt halt
      exact hpiece.settles_entry hm hn (Nat.le_refl _)
    have hcovered : Covered m n lo i := by
      intro j hlo hhi
      obtain ⟨text, -, _, _, _, hlo', hhi', hpiece, -⟩ := hcells j hlo hhi
      exact hpiece.settles_cell hm hn (Nat.le_refl _) hlo' hhi'
    refine ⟨hentry, Covered.trans (fun j hlo hhi => (hcovered j hlo hhi).mono (by omega)) ?_⟩
    exact Covered.one hentry

/-- A value in front of the tag that closes it. -/
theorem builds_closed {f : ℕ → Builder ℕ} {depth : ℕ} (args : ℕ)
    (h : ∀ close, Builds ∅ (f close) (Piece close L depth)) :
    Builds ∅ (do
      let close ← literal CLOSE args
      f close) (Piece args (L * {CLOSE}) depth) := by
  refine ((builds_literal CLOSE args).andThen fun close => h close).mono ?_
  rintro t lo hi i - ⟨_, close, -, -, ⟨hclose, -, hclose'⟩, hpiece⟩
  refine ⟨?_, ?_⟩
  · intro m hm hfallback stops hstops
    exact (hpiece.spans m hm hfallback stops hstops).seq
      (hclose.spans m hm hfallback stops hstops) (Or.inl ⟨CLOSE, mem_self _⟩)
  · intro m hm n hn
    have hnext : m.Settles n close := (hclose' m hm close_ne_nil).mono (Nat.zero_le n)
    refine ⟨hpiece.settles_entry hm hnext (Nat.le_refl _), ?_⟩
    exact (hclose.covered hm hn (by omega)).trans (hpiece.covered hm hnext (Nat.le_refl _))

theorem Piece.weaken {d : ℕ} (h : Piece next L depth t lo hi i) (hL : L = L') (hd : depth ≤ d) :
    Piece next L' d t lo hi i := by
  subst hL
  refine ⟨h.spans, fun m hm n hn => ⟨h.settles_entry hm hn (by omega), ?_⟩⟩
  exact h.covered hm hn (by omega)

theorem builds_boolean (close : ℕ) :
    Builds ∅ (do
      let yes ← literal (bytes "true") close
      let no ← literal (bytes "false") close
      split [yes, no]) (Piece close (this "true" + this "false") 1) := by
  refine ((builds_literal (bytes "true") close).andThen fun yes =>
    (builds_literal (bytes "false") close).andThen fun no => Builds.add (.split [yes, no])).mono ?_
  rintro t lo hi i - ⟨_, yes, -, -, ⟨hyes, -⟩, _, no, -, -, ⟨hno, -⟩, rfl, rfl, hsplit⟩
  refine ⟨?_, ?_⟩
  · intro m hm hfallback stops hstops
    exact Spans.either hstops (state_of_cell hm hsplit) (hyes.spans m hm hfallback stops hstops)
      (hno.spans m hm hfallback stops hstops)
  · intro m hm n hn
    have hentry : m.Settles (n + 1) i := by
      refine Machine.Settles.split (state_of_cell hm hsplit) fun alt halt => ?_
      rcases List.mem_pair.mp halt with rfl | rfl
      · exact hyes.settles_entry hm hn (Nat.le_refl _)
      · exact hno.settles_entry hm hn (Nat.le_refl _)
    refine ⟨hentry, ?_⟩
    exact (hyes.covered hm hn (by omega)).trans <|
      (hno.covered hm hn (by omega)).trans (Covered.one hentry)

/-- A value spells what is documented, an integer with an exponent or without. -/
theorem builds_value (spec : ValueSpec) (args : ℕ) :
    Builds ∅ (value spec args)
      (Piece args (Reference.value Reference.exponentInteger spec) 8) := by
  unfold value
  cases spec with
  | text => exact (builds_text args).mono fun t lo hi i _ h => h.weaken rfl (by omega)
  | literals literals =>
    exact (builds_closed args fun close => builds_literals literals close).mono
      fun t lo hi i _ h => h.weaken rfl (by omega)
  | boolean =>
    exact (builds_closed args fun close => builds_boolean close).mono
      fun t lo hi i _ h => h.weaken rfl (by omega)
  | null =>
    have hnull : ∀ close, Builds ∅ (literal (bytes "null") close)
        (Piece close (this "null") 0) := fun close =>
      (builds_literal (bytes "null") close).mono fun t lo hi i _ h => h.1
    exact (builds_closed args hnull).mono fun t lo hi i _ h => h.weaken rfl (by omega)
  | integer =>
    refine (builds_closed args fun close => builds_number close false).mono
      fun t lo hi i _ h => h.weaken ?_ (Nat.le_refl _)
    unfold numberWith Reference.value Reference.exponentInteger
    rw [if_neg Bool.false_ne_true, one_mul]
  | number =>
    exact (builds_closed args fun close => builds_number close true).mono
      fun t lo hi i _ h => h.weaken rfl (Nat.le_refl _)

end Grammar
