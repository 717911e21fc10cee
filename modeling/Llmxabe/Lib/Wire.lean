/-
Parsers over a cursor.

A word spells a value for a parser (`Spells`) if the parser reads the value off
it, whatever stands before and after, and refuses every cut of it.  A parser
that takes at least so many bytes (`Takes`) bounds how far a loop over it can
go (`iterate_long`).
-/
import Llmxabe.Lib.Fallible

namespace Wire

/-- A position in the bytes. -/
structure Cursor where
  data : List UInt8
  pos : ℕ
  deriving DecidableEq

/-- Bytes not read yet. -/
def Cursor.remaining (c : Cursor) : ℕ := c.data.length - c.pos

/-- Reads at a cursor or fails. -/
abbrev Parser (ε α : Type) := StateT Cursor (Except ε) α

variable {ε α β σ : Type}

/-- The next `n` bytes. -/
def take (eof : String → ℕ → ε) (n : ℕ) (context : String) : Parser ε (List UInt8) := fun c =>
  if c.remaining < n then .error (eof context c.pos)
  else .ok ((c.data.drop c.pos).take n, { c with pos := c.pos + n })

/-- Refuse with an error. -/
def fail (e : ε) : Parser ε α := fun _ => .error e

/-- Where the cursor stands. -/
def position : Parser ε ℕ := fun c => .ok (c.pos, c)

/-- A loop that reads on. -/
def iterate : ℕ → (σ → Parser ε σ) → σ → Parser ε σ
  | 0, _, s => pure s
  | n + 1, body, s => body s >>= iterate n body

/-! ### Little-endian numbers -/

/-- A number in `width` bytes, little-endian. -/
def leBytes : ℕ → ℕ → List UInt8
  | 0, _ => []
  | width + 1, n => UInt8.ofNat n :: leBytes width (n / 256)

/-- The number that little-endian bytes spell. -/
def leValue : List UInt8 → ℕ
  | [] => 0
  | b :: bytes => b.toNat + 256 * leValue bytes

@[simp]
theorem leBytes_length (width n : ℕ) : (leBytes width n).length = width := by
  induction width generalizing n with
  | zero => rfl
  | succ width ih => rw [leBytes, List.length_cons, ih]

theorem leValue_leBytes {width n : ℕ} (h : n < 256 ^ width) : leValue (leBytes width n) = n := by
  induction width generalizing n with
  | zero =>
    have hzero : n = 0 := by simpa using h
    rw [hzero]
    rfl
  | succ width ih =>
    have hrest : n / 256 < 256 ^ width := by
      rw [Nat.div_lt_iff_lt_mul (by decide)]
      rwa [pow_succ] at h
    rw [leBytes, leValue, ih hrest, UInt8.toNat_ofNat']
    exact Nat.mod_add_div n 256

/-! ### What a word spells -/

/-- The parser reads the value off the word and refuses its cuts. -/
structure Spells (p : Parser ε α) (a : α) (w : List UInt8) : Prop where
  reads : ∀ before after, p ⟨before ++ w ++ after, before.length⟩ =
    .ok (a, ⟨before ++ w ++ after, before.length + w.length⟩)
  refuses : ∀ before cut rest, cut ++ rest = w → rest ≠ [] →
    ∃ e, p ⟨before ++ cut, before.length⟩ = .error e

namespace Spells

variable {p : Parser ε α} {f : α → Parser ε β} {a : α} {b : β} {w w' : List UInt8}

theorem pure (a : α) : Spells (pure a : Parser ε α) a [] := by
  constructor
  · intro before after
    rfl
  · intro before cut rest hw hrest
    exact absurd (List.append_eq_nil_iff.mp hw).2 hrest

/-- What follows a word is read behind it. -/
theorem reads_bind (hp : Spells p a w) (f : α → Parser ε β) (before after : List UInt8) :
    (p >>= f) ⟨before ++ w ++ after, before.length⟩ =
      f a ⟨before ++ w ++ after, (before ++ w).length⟩ := by
  show p _ >>= _ = _
  rw [hp.reads before after, List.length_append]
  rfl

/-- One parser after another. -/
theorem bind (hp : Spells p a w) (hf : Spells (f a) b w') : Spells (p >>= f) b (w ++ w') := by
  constructor
  · intro before after
    have hfirst := hp.reads_bind f before (w' ++ after)
    have hsecond := hf.reads (before ++ w) after
    rw [← List.append_assoc] at hfirst
    rw [List.length_append] at hsecond
    rw [← List.append_assoc before, List.append_assoc _ w', List.length_append, ← Nat.add_assoc,
      ← List.append_assoc]
    exact hfirst.trans (by rw [List.length_append]; exact hsecond)
  · intro before cut rest hw hrest
    -- the cut ends inside of the first word or behind it
    rcases List.append_eq_append_iff.mp hw with ⟨middle, hcut, hrest'⟩ | ⟨middle, hcut, hrest'⟩
    · by_cases hmiddle : middle = []
      · subst hmiddle
        obtain rfl : w = cut := by rw [hcut, List.append_nil]
        obtain ⟨e, he⟩ := hf.refuses (before ++ w) [] w' rfl (by rwa [hrest'] at hrest)
        refine ⟨e, ?_⟩
        have hfirst := hp.reads_bind f before []
        rw [List.append_nil] at hfirst he
        exact hfirst.trans he
      · obtain ⟨e, he⟩ := hp.refuses before cut middle hcut.symm hmiddle
        refine ⟨e, ?_⟩
        show p _ >>= _ = _
        rw [he]
        rfl
    · obtain ⟨e, he⟩ := hf.refuses (before ++ w) middle rest hrest'.symm hrest
      refine ⟨e, ?_⟩
      rw [hcut, ← List.append_assoc, hp.reads_bind]
      exact he

/-- A parser with nothing left to read behind it. -/
theorem ends (hp : Spells p a w) (hf : f a = Pure.pure b) : Spells (p >>= f) b w := by
  have hdone : Spells (f a) b [] := by
    rw [hf]
    exact Spells.pure b
  have h := hp.bind hdone
  rwa [List.append_nil] at h

/-- What is made of a value read. -/
theorem map (hp : Spells p a w) (g : α → β) : Spells (p >>= fun a => Pure.pure (g a)) (g a) w :=
  hp.ends rfl

theorem take (eof : String → ℕ → ε) (w : List UInt8) (context : String) :
    Spells (Wire.take eof w.length context) w w := by
  constructor
  · intro before after
    have hroom : ¬Cursor.remaining ⟨before ++ w ++ after, before.length⟩ < w.length := by
      simp only [Cursor.remaining, List.length_append]
      omega
    rw [Wire.take, if_neg hroom]
    simp
  · intro before cut rest hw hrest
    have hpos := List.length_pos_of_ne_nil hrest
    have hshort : Cursor.remaining ⟨before ++ cut, before.length⟩ < w.length := by
      simp only [Cursor.remaining, List.length_append, ← hw]
      omega
    exact ⟨_, if_pos hshort⟩

/-- A loop over items that each spell its next state. -/
theorem iterate {ι : Type} {items : List ι} (state : List ι → σ) {word : ι → List UInt8}
    {body : σ → Parser ε σ}
    (hbody : ∀ done item rest, items = done ++ item :: rest →
      Spells (body (state done)) (state (done ++ [item])) (word item)) :
    Spells (Wire.iterate items.length body (state [])) (state items) (items.flatMap word) := by
  have hall : ∀ done todo, items = done ++ todo →
      Spells (Wire.iterate todo.length body (state done)) (state items) (todo.flatMap word) := by
    intro done todo
    induction todo generalizing done with
    | nil =>
      intro hitems
      rw [hitems, List.append_nil]
      exact Spells.pure _
    | cons item todo ih =>
      intro hitems
      rw [List.length_cons, List.flatMap_cons]
      exact (hbody done item todo hitems).bind (ih (done ++ [item]) (by simpa using hitems))
  exact hall [] items rfl

end Spells

/-- A word at which a parser fails, whatever stands before and after. -/
def Rejects (p : Parser ε α) (w : List UInt8) (e : ε) : Prop :=
  ∀ before after, p ⟨before ++ w ++ after, before.length⟩ = .error e

namespace Rejects

variable {p : Parser ε α} {f : α → Parser ε β} {a : α} {w w' : List UInt8} {e : ε}

theorem fail (e : ε) : Rejects (Wire.fail e : Parser ε α) [] e := by
  intro before after
  rfl

theorem bind (hp : Rejects p w e) (f : α → Parser ε β) : Rejects (p >>= f) w e := by
  intro before after
  show p _ >>= _ = _
  rw [hp before after]
  rfl

end Rejects

/-- A parser that fails behind a word. -/
theorem Spells.rejects {p : Parser ε α} {f : α → Parser ε β} {a : α} {w w' : List UInt8} {e : ε}
    (hp : Spells p a w) (hf : Rejects (f a) w' e) : Rejects (p >>= f) (w ++ w') e := by
  intro before after
  have hfirst := hp.reads_bind f before (w' ++ after)
  have hsecond := hf (before ++ w) after
  rw [← List.append_assoc] at hfirst
  rw [← List.append_assoc before, List.append_assoc _ w', ← List.append_assoc]
  exact hfirst.trans hsecond

/-- A loop is its first turns and then the others. -/
theorem iterate_add (n m : ℕ) (body : σ → Parser ε σ) (s : σ) :
    iterate (n + m) body s = iterate n body s >>= iterate m body := by
  induction n generalizing s with
  | zero =>
    rw [Nat.zero_add]
    rfl
  | succ n ih =>
    rw [Nat.succ_add]
    funext c
    show (body s c >>= fun r => iterate (n + m) body r.1 r.2) =
      ((body s c >>= fun r => iterate n body r.1 r.2) >>= fun r => iterate m body r.1 r.2)
    rcases body s c with e | ⟨s', c'⟩
    · rfl
    · exact congrFun (ih s') c'

/-! ### How far a parser goes -/

/-- A parser that succeeds takes at least `k` bytes, of those that are there. -/
def Takes (p : Parser ε α) (k : ℕ) : Prop :=
  ∀ c a c', p c = .ok (a, c') →
    c'.data = c.data ∧ c.pos + k ≤ c'.pos ∧ (c.pos ≤ c.data.length → c'.pos ≤ c.data.length)

namespace Takes

variable {p : Parser ε α} {f : α → Parser ε β} {k m : ℕ}

theorem mono (h : Takes p k) (hle : m ≤ k) : Takes p m := by
  intro c a c' hok
  obtain ⟨hdata, hpos, hend⟩ := h c a c' hok
  exact ⟨hdata, by omega, hend⟩

theorem pure (a : α) : Takes (pure a : Parser ε α) 0 := by
  rintro c a c' ⟨⟩
  exact ⟨rfl, le_rfl, id⟩

theorem fail (e : ε) (k : ℕ) : Takes (Wire.fail e : Parser ε α) k := by
  rintro c a c' ⟨⟩

theorem position : Takes (Wire.position : Parser ε ℕ) 0 := by
  rintro c a c' ⟨⟩
  exact ⟨rfl, le_rfl, id⟩

theorem take (eof : String → ℕ → ε) (n : ℕ) (context : String) :
    Takes (Wire.take eof n context) n := by
  intro c a c' hok
  unfold Wire.take at hok
  split at hok
  case isTrue => cases hok
  case isFalse hroom =>
    cases hok
    refine ⟨rfl, le_rfl, fun hpos => ?_⟩
    unfold Cursor.remaining at hroom
    dsimp only
    omega

theorem bind (hp : Takes p k) (hf : ∀ a, Takes (f a) m) : Takes (p >>= f) (k + m) := by
  intro c b c'' hok
  obtain ⟨⟨a, c'⟩, hfirst, hsecond⟩ := Except.bind_eq_ok_iff.mp hok
  obtain ⟨hdata, hpos, hend⟩ := hp c a c' hfirst
  obtain ⟨hdata', hpos', hend'⟩ := hf a c' b c'' hsecond
  rw [hdata] at hdata' hend'
  exact ⟨hdata', by omega, fun h => hend' (hend h)⟩

theorem map (hp : Takes p k) (g : α → β) : Takes (p >>= fun a => Pure.pure (g a)) k :=
  hp.bind fun a => Takes.pure (g a)

theorem iterate {body : σ → Parser ε σ} (hbody : ∀ s, Takes (body s) k) (n : ℕ) (s : σ) :
    Takes (Wire.iterate n body s) (n * k) := by
  induction n generalizing s with
  | zero =>
    rw [Nat.zero_mul]
    exact Takes.pure s
  | succ n ih =>
    rw [Nat.succ_mul, Nat.add_comm (n * k)]
    exact (hbody s).bind ih

end Takes

/-- What every turn of a loop keeps. -/
theorem iterate_invariant {body : σ → Parser ε σ} {P : σ → Cursor → Prop}
    (hbody : ∀ s c s' c', P s c → body s c = .ok (s', c') → P s' c') {n : ℕ} :
    ∀ {s c s' c'}, P s c → iterate n body s c = .ok (s', c') → P s' c' := by
  induction n with
  | zero =>
    rintro s c s' c' hs ⟨⟩
    exact hs
  | succ n ih =>
    intro s c s' c' hs hrun
    obtain ⟨⟨next, c''⟩, hturn, hrest⟩ := Except.bind_eq_ok_iff.mp hrun
    exact ih (hbody s c next c'' hs hturn) hrest

/-- A loop that pushes an item a turn. -/
theorem iterate_push_length {p : Parser ε α} {n : ℕ} :
    ∀ {s : List α} {c s' c'}, iterate n (fun s => p >>= fun a => pure (s ++ [a])) s c = .ok (s', c') →
      s'.length = s.length + n := by
  induction n with
  | zero =>
    rintro s c s' c' ⟨⟩
    rfl
  | succ n ih =>
    intro s c s' c' hrun
    obtain ⟨⟨next, c''⟩, hturn, hrest⟩ := Except.bind_eq_ok_iff.mp hrun
    obtain ⟨⟨a, c₁⟩, -, hpush⟩ := Except.bind_eq_ok_iff.mp hturn
    cases hpush
    rw [ih hrest, List.length_append, List.length_singleton]
    omega

/-- A loop that takes bytes at every turn is done, one way or the other, once it
has turned more often than there are bytes. -/
theorem iterate_long {body : σ → Parser ε σ} (hbody : ∀ s, Takes (body s) 1) {n m : ℕ} {s : σ}
    {c : Cursor} (hpos : c.pos ≤ c.data.length) (hn : c.remaining < n) (hm : c.remaining < m) :
    iterate n body s c = iterate m body s c := by
  induction n generalizing m s c with
  | zero => omega
  | succ n ih =>
    obtain ⟨m, rfl⟩ : ∃ m', m = m' + 1 := ⟨m - 1, by omega⟩
    show (body s c >>= fun r => iterate n body r.1 r.2) =
      (body s c >>= fun r => iterate m body r.1 r.2)
    cases hturn : body s c with
    | error e => rfl
    | ok r =>
      obtain ⟨s', c'⟩ := r
      obtain ⟨hdata, hless, hend⟩ := hbody s c s' c' hturn
      have hend' := hend hpos
      unfold Cursor.remaining at hn hm ih
      refine ih ?_ ?_ ?_ <;> dsimp only <;> rw [hdata] <;> omega

end Wire
