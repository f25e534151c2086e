/-! Decimal text of 64-bit numbers: digits after an optional `+`, nothing else. -/
namespace GrammarFuzz.Number

def digit? (c : Char) : Option Nat :=
  if '0' ≤ c ∧ c ≤ '9' then some (c.toNat - '0'.toNat) else none

/-- Read digits after those already read; none of another character or beyond 64 bits. -/
def readDigits : Nat → List Char → Option Nat
  | read, [] => some read
  | read, c :: rest => do
      let digit ← digit? c
      let read := read * 10 + digit
      if read < UInt64.size then readDigits read rest else none

def readWord? (text : String) : Option Nat :=
  let digits := match text.toList with
    | '+' :: digits => digits
    | digits => digits
  if digits.isEmpty then none else readDigits 0 digits

/-- Decimal digits, at least one and perhaps after a plus sign, that stand for the number. -/
def Denotes (text : String) (number : Nat) : Prop :=
  ∃ digits : List Char, digits ≠ [] ∧ (∀ c ∈ digits, c.isDigit = true) ∧
    (text.toList = digits ∨ text.toList = '+' :: digits) ∧ Nat.ofDigitChars 10 digits 0 = number

theorem digit?_eq_some_iff {c : Char} {digit : Nat} :
    digit? c = some digit ↔ c.isDigit = true ∧ c.toNat - '0'.toNat = digit := by
  have same : ('0' ≤ c ∧ c ≤ '9') ↔ c.isDigit = true := by
    rw [Char.isDigit, Bool.and_eq_true, decide_eq_true_iff, decide_eq_true_iff]
    rfl
  unfold digit?
  split
  · simp_all
  · simp_all

theorem le_ofDigitChars (digits : List Char) : ∀ read, read ≤ Nat.ofDigitChars 10 digits read := by
  induction digits with
  | nil => exact Nat.le_refl
  | cons c rest ih =>
      intro read
      rw [Nat.ofDigitChars_cons]
      refine Nat.le_trans ?_ (ih _)
      omega

/-- What the digits read so far stand for only grows, so it is too large at no place before the
end unless it is too large in the end. -/
theorem readDigits_eq_some_iff (digits : List Char) {number : Nat} : ∀ {read}, read < UInt64.size →
    (readDigits read digits = some number ↔ (∀ c ∈ digits, c.isDigit = true) ∧
      Nat.ofDigitChars 10 digits read = number ∧ number < UInt64.size) := by
  induction digits with
  | nil =>
      intro read small
      simp only [readDigits, Option.some.injEq, Nat.ofDigitChars_nil, List.not_mem_nil,
        false_implies, implies_true, true_and]
      exact ⟨fun same => ⟨same, same ▸ small⟩, And.left⟩
  | cons c rest ih =>
      intro read small
      have value : read * 10 + (c.toNat - '0'.toNat) = 10 * read + (c.toNat - '0'.toNat) := by
        rw [Nat.mul_comm]
      simp only [readDigits, Option.bind_eq_bind, Option.bind_eq_some_iff, digit?_eq_some_iff,
        List.forall_mem_cons, Nat.ofDigitChars_cons, and_assoc, ← value]
      constructor
      · rintro ⟨_, digit, rfl, further⟩
        split at further
        · exact ⟨digit, (ih ‹_›).mp further⟩
        · contradiction
      · rintro ⟨digit, digits, spelled, bound⟩
        have fits : read * 10 + (c.toNat - '0'.toNat) < UInt64.size :=
          Nat.lt_of_le_of_lt (le_ofDigitChars rest _) (spelled ▸ bound)
        exact ⟨_, digit, rfl, (if_pos fits).trans ((ih fits).mpr ⟨digits, spelled, bound⟩)⟩

/-- Exactly the numbers of 64 bits are read, from decimal digits and from nothing else. -/
theorem readWord?_eq_some_iff {text : String} {number : Nat} :
    readWord? text = some number ↔ Denotes text number ∧ number < UInt64.size := by
  have reads {digits : List Char} : (if digits.isEmpty then none else readDigits 0 digits) =
      some number ↔ digits ≠ [] ∧ (∀ c ∈ digits, c.isDigit = true) ∧
        Nat.ofDigitChars 10 digits 0 = number ∧ number < UInt64.size := by
    cases digits with
    | nil => simp
    | cons c rest => simpa using readDigits_eq_some_iff (c :: rest) (by decide)
  unfold readWord? Denotes
  split
  · rename_i digits signed
    rw [reads, signed]
    constructor
    · rintro ⟨some, all, spelled, bound⟩
      exact ⟨⟨digits, some, all, .inr rfl, spelled⟩, bound⟩
    · rintro ⟨⟨_, some, all, rfl | same, spelled⟩, bound⟩
      · exact absurd (all '+' List.mem_cons_self) (by decide)
      · obtain rfl := List.tail_eq_of_cons_eq same
        exact ⟨some, all, spelled, bound⟩
  · rename_i digits unsigned
    rw [reads]
    constructor
    · rintro ⟨some, all, spelled, bound⟩
      exact ⟨⟨_, some, all, .inl rfl, spelled⟩, bound⟩
    · rintro ⟨⟨digits, some, all, rfl | signed, spelled⟩, bound⟩
      · exact ⟨some, all, spelled, bound⟩
      · exact absurd signed (unsigned digits)

end GrammarFuzz.Number
