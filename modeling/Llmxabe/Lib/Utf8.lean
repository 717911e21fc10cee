/-
Lossy decoding of UTF-8, one byte at a time.

The decoder's state is the character under way.  A byte that cannot continue it
ends it with a replacement character and is read afresh; so does the end of the
input.  Decoding is not a homomorphism, but it is one wherever no character is
under way (`lossy_append`), and a character under way shows as a replacement
at the end (`Incomplete.getLast`).
-/
import Mathlib.Tactic

/-- What stands for bytes that are no character. -/
def replacement : Char := '\uFFFD'

/-- A character under way: what is known of it, how many bytes are missing, and
the range of the next one. -/
structure Partial where
  code : ℕ
  missing : ℕ
  low : UInt8
  high : UInt8
  deriving DecidableEq

/-- What a first byte promises. -/
def leadByte (b : UInt8) : Option Partial :=
  if 0xC2 ≤ b ∧ b ≤ 0xDF then some ⟨b.toNat - 0xC0, 1, 0x80, 0xBF⟩
  else if b = 0xE0 then some ⟨0, 2, 0xA0, 0xBF⟩
  else if b = 0xED then some ⟨0xD, 2, 0x80, 0x9F⟩
  else if 0xE1 ≤ b ∧ b ≤ 0xEF then some ⟨b.toNat - 0xE0, 2, 0x80, 0xBF⟩
  else if b = 0xF0 then some ⟨0, 3, 0x90, 0xBF⟩
  else if b = 0xF4 then some ⟨4, 3, 0x80, 0x8F⟩
  else if 0xF1 ≤ b ∧ b ≤ 0xF3 then some ⟨b.toNat - 0xF0, 3, 0x80, 0xBF⟩
  else none

/-- Read a byte with no character under way. -/
def startByte (b : UInt8) : List Char × Option Partial :=
  if b < 0x80 then ([Char.ofNat b.toNat], none)
  else match leadByte b with
    | some p => ([], some p)
    | none => ([replacement], none)

/-- Read one byte. -/
def readByte : Option Partial → UInt8 → List Char × Option Partial
  | none, b => startByte b
  | some p, b =>
    if p.low ≤ b ∧ b ≤ p.high then
      let code := p.code * 64 + b.toNat % 64
      if p.missing ≤ 1 then ([Char.ofNat code], none)
      else ([], some ⟨code, p.missing - 1, 0x80, 0xBF⟩)
    else (replacement :: (startByte b).1, (startByte b).2)

/-- Read some bytes. -/
def readBytes : Option Partial → List UInt8 → List Char × Option Partial
  | state, [] => ([], state)
  | state, b :: bs =>
    ((readByte state b).1 ++ (readBytes (readByte state b).2 bs).1,
      (readBytes (readByte state b).2 bs).2)

/-- What the end of the input makes of a character under way. -/
def cutOff : Option Partial → List Char
  | none => []
  | some _ => [replacement]

/-- The lossy reading of some bytes. -/
def lossy (bs : List UInt8) : List Char :=
  (readBytes none bs).1 ++ cutOff (readBytes none bs).2

example : lossy [0x61, 0xE2, 0x82, 0xE2, 0x82, 0xAC, 0xFF] = ['a', replacement, '€', replacement] :=
  by decide

/-- The bytes end in an incomplete character. -/
def Incomplete (bs : List UInt8) : Prop := (readBytes none bs).2 ≠ none

section Decoding

variable {as bs : List UInt8} {state : Option Partial}

theorem readBytes_append :
    ∀ {state : Option Partial} {as : List UInt8}, readBytes state (as ++ bs)
      = ((readBytes state as).1 ++ (readBytes (readBytes state as).2 bs).1,
        (readBytes (readBytes state as).2 bs).2)
  | _, [] => rfl
  | state, a :: as => by
    rw [List.cons_append, readBytes, readBytes, readBytes_append, List.append_assoc]

/-- Where no character is under way, what follows is read for itself. -/
theorem lossy_append (h : ¬ Incomplete as) : lossy (as ++ bs) = lossy as ++ lossy bs := by
  have hidle : (readBytes none as).2 = none := not_not.mp h
  rw [lossy, lossy, lossy, readBytes_append, hidle, cutOff, List.append_nil, List.append_assoc]

theorem incomplete_append (h : ¬ Incomplete as) : Incomplete (as ++ bs) ↔ Incomplete bs := by
  have hidle : (readBytes none as).2 = none := not_not.mp h
  rw [Incomplete, Incomplete, readBytes_append, hidle]

/-- A character under way shows as a replacement at the end. -/
theorem Incomplete.getLast (h : Incomplete bs) : (lossy bs).getLast? = some replacement := by
  obtain ⟨p, hp⟩ := Option.ne_none_iff_exists'.mp h
  rw [lossy, hp, cutOff, List.getLast?_append, List.getLast?_singleton, Option.some_or]

end Decoding
