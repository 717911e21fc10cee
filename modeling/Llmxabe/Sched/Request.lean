/-
Request-facing types of the scheduler: what a caller submits and what one
scheduling step reports back (`xabe-sched/src/request.rs`), and the refusals
an admission may answer with (`xabe-sched/src/error.rs`).

Inputs that the source declares as `u32` have the type `U32`; values that the
scheduler computes from them are natural numbers, produced by the wrapping
operations `addU32` and `subU32`.
-/
import Llmxabe.Lib.Wrapping

/-- The source's `u32`. -/
abbrev U32 := Fin (2 ^ 32)

instance U32.neZero : NeZero (2 ^ 32 : ℕ) := ⟨by decide⟩

/-- `u32` addition: wraps in a release build, panics in a checked one. -/
def addU32 (a b : ℕ) : Wrapping ℕ := Wrapping.add (2 ^ 32) a b

/-- `u32` subtraction. -/
def subU32 (a b : ℕ) : Wrapping ℕ := Wrapping.sub (2 ^ 32) a b

@[simp] theorem addU32_val (a b : ℕ) : (addU32 a b).val = (a + b) % 2 ^ 32 := rfl

theorem addU32_overflow {a b : ℕ} (h : a + b < 2 ^ 32) : (addU32 a b).overflow = false :=
  Wrapping.add_overflow_of_lt h

theorem subU32_val {a b : ℕ} (h : b ≤ a) (ha : a < 2 ^ 32) : (subU32 a b).val = a - b :=
  Wrapping.sub_val_of_le h ha

theorem subU32_overflow {a b : ℕ} (h : b ≤ a) : (subU32 a b).overflow = false :=
  Wrapping.sub_overflow_of_le h

theorem subU32_val_lt (a b : ℕ) : (subU32 a b).val < 2 ^ 32 :=
  Wrapping.sub_val_lt (by norm_num)

/-- `u32::saturating_add`. -/
def satAddU32 (a b : ℕ) : ℕ := min (a + b) (2 ^ 32 - 1)

/-- `u32::saturating_mul`. -/
def satMulU32 (a b : ℕ) : ℕ := min (a * b) (2 ^ 32 - 1)

/-- `div_ceil`. -/
def divCeil (a b : ℕ) : ℕ := (a + b - 1) / b

/-- A ceiling covers what it was taken of. -/
theorem le_divCeil_mul {a b : ℕ} (hb : 0 < b) : a ≤ divCeil a b * b := by
  have hdm := Nat.div_add_mod (a + b - 1) b
  have hmod := Nat.mod_lt (a + b - 1) hb
  rw [divCeil, Nat.mul_comm]
  omega

/-- A ceiling wastes less than one block. -/
theorem divCeil_mul_lt {a b : ℕ} (hb : 0 < b) : divCeil a b * b < a + b := by
  have hdm := Nat.div_add_mod (a + b - 1) b
  rw [divCeil, Nat.mul_comm]
  omega

theorem divCeil_le_iff {a b n : ℕ} (hb : 0 < b) : divCeil a b ≤ n ↔ a ≤ n * b := by
  constructor
  · intro h
    exact (le_divCeil_mul hb).trans (Nat.mul_le_mul_right b h)
  · intro h
    by_contra hlt
    have h1 : (n + 1) * b ≤ divCeil a b * b := Nat.mul_le_mul_right b (by omega)
    have h2 := divCeil_mul_lt (a := a) hb
    rw [Nat.add_mul, Nat.one_mul] at h1
    omega

/-- Opaque request identifier, assigned by the caller. -/
abbrev RequestId := ℕ

/-- A request as submitted for admission. -/
structure NewRequest where
  id : RequestId
  promptTokens : U32
  maxOutputTokens : U32
  deriving DecidableEq, Repr

/-- Tokens the request could occupy over its life, saturating. -/
def NewRequest.fullSeqLen (req : NewRequest) : ℕ :=
  satAddU32 req.promptTokens req.maxOutputTokens

/-- One decoding request's contribution to a scheduled step. -/
structure DecodeItem where
  id : RequestId
  tokens : ℕ
  deriving DecidableEq, Repr

/-- One prefilling request's contribution to a scheduled step. -/
structure PrefillItem where
  id : RequestId
  tokens : ℕ
  deriving DecidableEq, Repr

/-- The result of one scheduling step. -/
structure BatchDescription where
  decodes : List DecodeItem
  prefills : List PrefillItem
  deriving DecidableEq, Repr

namespace BatchDescription

/-- Tokens of the decode items. -/
def decodeTokens (batch : BatchDescription) : ℕ := (batch.decodes.map (·.tokens)).sum

/-- Tokens of the prefill items. -/
def prefillTokens (batch : BatchDescription) : ℕ := (batch.prefills.map (·.tokens)).sum

/-- Total tokens scheduled this step, as an unbounded sum. -/
def totalTokens (batch : BatchDescription) : ℕ := batch.decodeTokens + batch.prefillTokens

end BatchDescription

/-- A request rejected at admission time. -/
inductive AdmissionError where
  | invalidReusablePrefix (prefixTokens promptTokens : ℕ)
  | exceedsTotalCapacity (fullSeqLen neededBlocks totalBlocks : ℕ)
  | waitingQueueFull (capacity : ℕ)
  deriving DecidableEq, Repr
