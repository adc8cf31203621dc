import Assembler.Text.Literal
import Mathlib.Data.List.Infix
import Mathlib.Data.Nat.Digits.Defs

/-!
# What literals denote

A literal is well spelled if it has digits, all of them below its base, and every underscore stands
between two digits or between the sign of the base and a digit. Exactly then it is read, and as the
number that its digits have in the base (`Literal.read_eq_some_iff`).
-/

namespace Assembler.Text.Literal

/-- A literal whose digits, behind the sign of the base, make sense. -/
structure WellSpelled (chars : List Char) : Prop where
  nonempty : ∃ char ∈ (split chars).2, char ≠ '_'
  below : ∀ char ∈ (split chars).2, char ≠ '_' →
    ∃ digit < (split chars).1, digitValue char = some digit
  /-- Only the sign of a base may stand right before an underscore. -/
  first : (split chars).1 = 10 → (split chars).2.head? ≠ some '_'
  last : (split chars).2.getLast? ≠ some '_'
  single : ¬ ['_', '_'] <:+: (split chars).2

/-- The number that a well spelled literal stands for. -/
structure Denotes (chars : List Char) (value : Nat) : Prop extends WellSpelled chars where
  value_eq : value = Nat.ofDigits (split chars).1
    (((split chars).2.filter fun char => char ≠ '_').filterMap digitValue).reverse

/-- Separators stand between digits only. -/
theorem separatorsOk_iff {separable : Bool} {digits : List Char} :
    separatorsOk separable digits = true ↔
      (separable = false → digits.head? ≠ some '_') ∧ digits.getLast? ≠ some '_' ∧
        ¬ ['_', '_'] <:+: digits := by
  induction digits generalizing separable with
  | nil => simp [separatorsOk]
  | cons char rest ih =>
    have inside : ['_', '_'] <:+: char :: rest ↔
        (char = '_' ∧ rest.head? = some '_') ∨ ['_', '_'] <:+: rest := by
      rw [List.infix_cons_iff, List.cons_prefix_cons, @eq_comm _ '_' char]
      cases rest <;> simp [@eq_comm _ '_']
    by_cases underscore : char = '_'
    · subst underscore
      rw [separatorsOk, Bool.and_eq_true, Bool.and_eq_true, ih, inside, List.getLast?_cons]
      cases rest <;> cases separable <;> simp [List.getLast?_cons, and_left_comm]
    · rw [separatorsOk.eq_3 _ _ _ underscore, ih, inside, List.getLast?_cons]
      cases rest <;> simp [underscore, List.getLast?_cons]

/-- Digits below the base are read from left to right. -/
theorem readDigits_eq_some_iff {base value : Nat} {digits : List Char} :
    readDigits base digits = some value ↔
      (∀ char ∈ digits, ∃ digit < base, digitValue char = some digit) ∧
        value = Nat.ofDigits base (digits.filterMap digitValue).reverse := by
  have fold : ∀ before : Nat, (digits.foldlM (fun value char => do
        let digit ← digitValue char
        if digit < base then some (value * base + digit) else none) before) = some value ↔
      (∀ char ∈ digits, ∃ digit < base, digitValue char = some digit) ∧
        value = (digits.filterMap digitValue).foldl (fun value digit => digit + base * value)
          before := by
    induction digits with
    | nil => simp [eq_comm]
    | cons char rest ih =>
      intro before
      rw [List.foldlM_cons]
      cases known : digitValue char with
      | none => simp [known]
      | some digit =>
        by_cases below : digit < base
        · have next : before * base + digit = digit + base * before := by
            rw [Nat.mul_comm, Nat.add_comm]
          simp only [bind, Option.bind_some, if_pos below, next] at ih ⊢
          rw [ih, List.forall_mem_cons, List.filterMap_cons_some known, List.foldl_cons]
          simp [known, below]
        · simp [known, below]
  rw [readDigits, fold, Nat.ofDigits_eq_foldr, List.foldr_reverse]
  rfl

/-- A literal is read exactly if it is well spelled, as the number that it denotes. -/
theorem read_eq_some_iff {chars : List Char} {value : Nat} :
    read chars = some value ↔ Denotes chars value := by
  have nonempty : ((split chars).2.filter fun char => char ≠ '_').isEmpty = false ↔
      ∃ char ∈ (split chars).2, char ≠ '_' := by
    simp
  have separated := @separatorsOk_iff ((split chars).1 ≠ 10) (split chars).2
  have base : decide ((split chars).1 ≠ 10) = false ↔ (split chars).1 = 10 := by simp
  rw [base] at separated
  have digits : (∀ char ∈ (split chars).2.filter fun char => char ≠ '_',
        ∃ digit < (split chars).1, digitValue char = some digit) ↔
      ∀ char ∈ (split chars).2, char ≠ '_' →
        ∃ digit < (split chars).1, digitValue char = some digit := by
    simp
  unfold read
  dsimp only
  constructor
  · intro reads
    split at reads
    · cases reads
    · next sane =>
      simp only [Bool.or_eq_true, Bool.not_eq_true', not_or, Bool.not_eq_true,
        Bool.not_eq_false] at sane
      obtain ⟨below, value⟩ := readDigits_eq_some_iff.mp reads
      obtain ⟨first, last, single⟩ := separated.mp sane.2
      exact ⟨⟨nonempty.mp sane.1, digits.mp below, first, last, single⟩, value⟩
  · intro denotes
    have sane := nonempty.mpr denotes.nonempty
    have apart := separated.mpr ⟨denotes.first, denotes.last, denotes.single⟩
    rw [if_neg (by rw [sane, apart]; simp)]
    exact readDigits_eq_some_iff.mpr ⟨digits.mpr denotes.below, denotes.value_eq⟩

end Assembler.Text.Literal
