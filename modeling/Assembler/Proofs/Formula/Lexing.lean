import Assembler.Formula.Token
import Mathlib.Data.List.Infix

/-!
# The tokens of a text

A text falls into tokens from left to right. Blanks are skipped, and a token takes as many
characters as it can (`Token.Lexes`). Every text falls into tokens in exactly one way, which is what
scanning it character by character finds (`Token.lexes_iff`).
-/

namespace Assembler.Token

variable {char first : Char} {chars reversed : List Char} {last : Partial}

/-- The characters of a number: digits and underscores behind a digit, or behind a zero and the sign
of a base. Only the sign of base sixteen lets letters count as digits. -/
inductive IsNumber : List Char → Prop where
  | decimal {first : Char} {rest : List Char} (digit : first.isDigit = true)
    (digits : ∀ char ∈ rest, char = '_' ∨ char.isDigit = true) : IsNumber (first :: rest)
  | hexadecimal {base : Char} {rest : List Char} (sign : base = 'x' ∨ base = 'X')
    (digits : ∀ char ∈ rest, char = '_' ∨ isHexDigit char = true) :
    IsNumber ('0' :: base :: rest)
  | signed {base : Char} {rest : List Char}
    (sign : base = 'o' ∨ base = 'O' ∨ base = 'b' ∨ base = 'B')
    (digits : ∀ char ∈ rest, char = '_' ∨ char.isDigit = true) : IsNumber ('0' :: base :: rest)

/-- The characters of a token. -/
inductive Spells : Token → List Char → Prop where
  | name {first : Char} {rest : List Char} (starts : startsName first = true)
    (continues : ∀ char ∈ rest, continuesName char = true) :
    Spells (.name (String.ofList (first :: rest))) (first :: rest)
  | number {chars : List Char} (isNumber : IsNumber chars) :
    Spells (.number (String.ofList chars)) chars
  | mark {char : Char} (visible : isBlank char = false) (unnamed : startsName char = false)
    (undigit : char.isDigit = false) : Spells (.mark char) [char]

/-- The tokens that characters fall into: blanks are skipped, and the characters of a token are the
longest that spell one. -/
inductive Lexes : List Char → List Token → Prop where
  | nil : Lexes [] []
  | blank {char : Char} {rest : List Char} {tokens : List Token} (isBlank : isBlank char = true)
    (later : Lexes rest tokens) : Lexes (char :: rest) tokens
  | token {token : Token} {chars rest : List Char} {tokens : List Token}
    (spells : Spells token chars)
    (longest : ∀ other longer, Spells other longer → longer <+: chars ++ rest →
      longer.length ≤ chars.length)
    (later : Lexes rest tokens) : Lexes (chars ++ rest) (token :: tokens)

/-! ### Characters that begin tokens -/

theorem isDigit_iff : char.isDigit = true ↔ '0' ≤ char ∧ char ≤ '9' := by
  simp [Char.isDigit, Char.le_def]

/-- No digit is blank. -/
theorem isBlank_eq_false_of_isDigit (digit : char.isDigit = true) :
    isBlank char = false := by
  obtain ⟨low, high⟩ := isDigit_iff.mp digit
  simp only [isBlank, Bool.or_eq_false_iff, decide_eq_false_iff_not]
  refine ⟨⟨⟨?_, ?_⟩, ?_⟩, ?_⟩ <;> rintro rfl <;> revert low <;> decide

/-- No digit starts a name. -/
theorem startsName_eq_false_of_isDigit (digit : char.isDigit = true) :
    startsName char = false := by
  obtain ⟨low, high⟩ := isDigit_iff.mp digit
  have notLower : ¬ 'a' ≤ char := fun above => absurd (Char.le_trans above high) (by decide)
  have notUpper : ¬ 'A' ≤ char := fun above => absurd (Char.le_trans above high) (by decide)
  have notUnderscore : char ≠ '_' := by
    rintro rfl
    revert high
    decide
  have notPoint : char ≠ '.' := by
    rintro rfl
    revert low
    decide
  simp [startsName, notLower, notUpper, notUnderscore, notPoint]

/-- What starts a name is not blank. -/
theorem isBlank_eq_false_of_startsName (starts : startsName char = true) :
    isBlank char = false := by
  by_contra blank
  simp only [Bool.not_eq_false, isBlank, Bool.or_eq_true, decide_eq_true_eq] at blank
  rcases blank with ((rfl | rfl) | rfl) | rfl <;> revert starts <;> decide

namespace Partial

/-- A token with more characters, if all of them belong to it. -/
def extendAll (current : Partial) (chars : List Char) : Option Partial :=
  chars.foldlM extend current

@[simp] theorem extendAll_nil (current : Partial) : current.extendAll [] = some current := rfl

theorem extendAll_cons (current : Partial) (char : Char) (rest : List Char) :
    current.extendAll (char :: rest) = (current.extend char).bind fun next => next.extendAll rest :=
  rfl

/-- A token is extended by characters in two parts one after the other. -/
theorem extendAll_append (current : Partial) (first second : List Char) :
    current.extendAll (first ++ second) =
      (current.extendAll first).bind fun next => next.extendAll second :=
  List.foldlM_append ..

/-- Nothing extends the absence of a token. -/
theorem extendAll_none :
    Partial.none.extendAll chars = some last ↔ chars = [] ∧ last = .none := by
  cases chars with
  | nil => simp [eq_comm]
  | cons char rest => simp [extendAll_cons, extend]

/-- A name goes on with the characters that may stand inside a name. -/
theorem extendAll_name :
    (Partial.name reversed).extendAll chars = some last ↔
      (∀ char ∈ chars, continuesName char = true) ∧ last = .name (chars.reverse ++ reversed) := by
  induction chars generalizing reversed with
  | nil => exact ⟨fun same => ⟨by simp, (Option.some.inj same).symm⟩, fun same => same.2 ▸ rfl⟩
  | cons char rest ih =>
    rw [extendAll_cons, extend]
    by_cases belongs : continuesName char = true
    · rw [if_pos belongs, Option.bind_some, ih]
      simp [belongs]
    · rw [if_neg belongs]
      simp [belongs]

/-- Whether a character goes on with a number, behind the sign of its base. -/
def goesOn (hexadecimal : Bool) (char : Char) : Bool :=
  char = '_' || (if hexadecimal then isHexDigit char else char.isDigit)

/-- Beyond a leading zero, a number goes on with the digits of its base. -/
theorem extend_digits (past : reversed ≠ ['0']) (hexadecimal : Bool) (char : Char) :
    (Partial.number reversed hexadecimal).extend char =
      if goesOn hexadecimal char then some (.number (char :: reversed) hexadecimal)
      else Option.none := by
  simp only [extend, past, decide_false, Bool.false_and, Bool.false_eq_true, if_false, goesOn]
  rfl

/-- A number goes on with digits and underscores, once a sign of the base can no longer come. -/
theorem extendAll_digits {hexadecimal : Bool} (begun : reversed ≠ []) (past : reversed ≠ ['0']) :
    (Partial.number reversed hexadecimal).extendAll chars = some last ↔
      (∀ char ∈ chars, goesOn hexadecimal char = true) ∧
        last = .number (chars.reverse ++ reversed) hexadecimal := by
  induction chars generalizing reversed with
  | nil => exact ⟨fun same => ⟨by simp, (Option.some.inj same).symm⟩, fun same => same.2 ▸ rfl⟩
  | cons char rest ih =>
    have further : char :: reversed ≠ ['0'] := fun same => begun (List.cons.inj same).2
    rw [extendAll_cons, extend_digits past]
    by_cases belongs : goesOn hexadecimal char = true
    · rw [if_pos belongs, Option.bind_some, ih (List.cons_ne_nil _ _) further]
      simp [belongs]
    · rw [if_neg belongs]
      simp [belongs]

theorem goesOn_false :
    goesOn false char = true ↔ char = '_' ∨ char.isDigit = true := by
  simp [goesOn]

theorem goesOn_true :
    goesOn true char = true ↔ char = '_' ∨ isHexDigit char = true := by
  simp [goesOn]

/-- A number that is extended has all the characters. -/
theorem exists_of_extendAll_number {hexadecimal : Bool}
    (extended : (Partial.number reversed hexadecimal).extendAll chars = some last) :
    ∃ base, last = .number (chars.reverse ++ reversed) base := by
  induction chars generalizing reversed hexadecimal with
  | nil => exact ⟨hexadecimal, (Option.some.inj extended).symm⟩
  | cons char rest ih =>
    obtain ⟨next, taken, extended⟩ := Option.bind_eq_some_iff.mp extended
    obtain ⟨base, rfl⟩ : ∃ base, next = .number (char :: reversed) base := by
      simp only [extend] at taken
      split at taken
      · exact ⟨_, (Option.some.inj taken).symm⟩
      · split at taken
        · exact ⟨_, (Option.some.inj taken).symm⟩
        · by_cases belongs : goesOn hexadecimal char = true
          · rw [goesOn] at belongs
            rw [if_pos belongs] at taken
            exact ⟨_, (Option.some.inj taken).symm⟩
          · rw [goesOn] at belongs
            rw [if_neg belongs] at taken
            cases taken
    obtain ⟨base, same⟩ := ih extended
    exact ⟨base, by simpa using same⟩

/-- Behind a zero, what comes next decides how the number goes on. -/
theorem extend_zero (char : Char) :
    (Partial.number ['0'] false).extend char =
      if char = 'x' ∨ char = 'X' then some (.number [char, '0'] true)
      else if char = 'o' ∨ char = 'O' ∨ char = 'b' ∨ char = 'B' then
        some (.number [char, '0'] false)
      else if goesOn false char then some (.number [char, '0'] false)
      else Option.none := by
  simp [extend, goesOn, or_assoc]

/-- The numbers are what digits can be extended to. -/
theorem extendAll_digit_iff (digit : first.isDigit = true) :
    (∃ last, (Partial.number [first] false).extendAll chars = some last) ↔
      IsNumber (first :: chars) := by
  have further : ∀ {reversed : List Char} {hexadecimal : Bool} {rest : List Char},
      reversed ≠ [] → reversed ≠ ['0'] →
      ((∃ last, (Partial.number reversed hexadecimal).extendAll rest = some last) ↔
        ∀ char ∈ rest, goesOn hexadecimal char = true) := by
    intro reversed hexadecimal rest begun past
    simp only [extendAll_digits begun past, exists_and_left, exists_eq, and_true]
  by_cases zero : first = '0'
  · subst zero
    cases chars with
    | nil => exact ⟨fun _ => .decimal rfl (by simp), fun _ => ⟨_, rfl⟩⟩
    | cons char rest =>
      have begun : [char, '0'] ≠ [] := List.cons_ne_nil _ _
      have past : [char, '0'] ≠ ['0'] := by simp
      rw [extendAll_cons, extend_zero]
      split
      · next sign =>
        rw [Option.bind_some, further begun past]
        simp only [goesOn_true]
        refine ⟨.hexadecimal sign, fun isNumber => ?_⟩
        cases isNumber with
        | decimal _ digits =>
          exfalso
          rcases sign with rfl | rfl <;> simpa using digits _ List.mem_cons_self
        | hexadecimal _ digits => exact digits
        | signed other _ =>
          exfalso
          rcases sign with rfl | rfl <;> simp at other
      · next decimal =>
        split
        · next sign =>
          rw [Option.bind_some, further begun past]
          simp only [goesOn_false]
          refine ⟨.signed sign, fun isNumber => ?_⟩
          cases isNumber with
          | decimal _ digits => exact fun char member => digits char (List.mem_cons_of_mem _ member)
          | hexadecimal other _ => exact absurd other decimal
          | signed _ digits => exact digits
        · next unsigned =>
          have plain : IsNumber ('0' :: char :: rest) ↔
              ∀ other ∈ char :: rest, other = '_' ∨ other.isDigit = true := by
            refine ⟨fun isNumber => ?_, .decimal rfl⟩
            cases isNumber with
            | decimal _ digits => exact digits
            | hexadecimal sign _ => exact absurd sign decimal
            | signed sign _ => exact absurd sign unsigned
          rw [plain]
          split
          · next belongs =>
            rw [Option.bind_some, further begun past]
            simp only [List.forall_mem_cons, ← goesOn_false, belongs, true_and]
          · next refused =>
            simp only [List.forall_mem_cons, ← goesOn_false, refused, false_and, Option.bind_none,
              reduceCtorEq, exists_false, Bool.false_eq_true]
  · rw [further (List.cons_ne_nil _ _) (by simp [zero])]
    simp only [goesOn_false]
    refine ⟨.decimal digit, fun isNumber => ?_⟩
    cases isNumber with
    | decimal _ digits => exact digits
    | hexadecimal | signed => exact absurd rfl zero

end Partial

/-- The characters of a token are those that its first character can be extended by. -/
theorem spells_iff {token : Token} :
    Spells token (first :: chars) ↔
      ∃ last, (Partial.start first).2.extendAll chars = some last ∧
        (Partial.start first).1 ++ last.close = [token] := by
  constructor
  · intro spells
    unfold Partial.start
    cases spells with
    | name starts continues =>
      rw [if_neg (by simp [isBlank_eq_false_of_startsName starts]), if_pos starts]
      exact ⟨_, Partial.extendAll_name.mpr ⟨continues, rfl⟩, by simp [Partial.close]⟩
    | number isNumber =>
      have digit : first.isDigit = true := by
        cases isNumber with
        | decimal digit _ => exact digit
        | hexadecimal | signed => rfl
      rw [if_neg (by simp [isBlank_eq_false_of_isDigit digit]),
        if_neg (by simp [startsName_eq_false_of_isDigit digit]), if_pos digit]
      obtain ⟨last, extended⟩ := (Partial.extendAll_digit_iff digit).mpr isNumber
      obtain ⟨base, rfl⟩ := Partial.exists_of_extendAll_number extended
      exact ⟨_, extended, by simp [Partial.close]⟩
    | mark visible unnamed undigit =>
      rw [if_neg (by simp [visible]), if_neg (by simp [unnamed]), if_neg (by simp [undigit])]
      exact ⟨_, rfl, rfl⟩
  · rintro ⟨last, extended, closed⟩
    unfold Partial.start at extended closed
    split at extended
    · next blank =>
      rw [if_pos blank] at closed
      obtain ⟨_, rfl⟩ := Partial.extendAll_none.mp extended
      cases closed
    · next visible =>
      rw [if_neg visible] at closed
      split at extended
      · next starts =>
        rw [if_pos starts] at closed
        obtain ⟨continues, rfl⟩ := Partial.extendAll_name.mp extended
        simp only [Partial.close, List.nil_append, List.reverse_append, List.reverse_reverse,
          List.reverse_singleton, List.singleton_append, List.cons.injEq, and_true] at closed
        exact closed ▸ .name starts continues
      · next unnamed =>
        rw [if_neg unnamed] at closed
        split at extended
        · next digit =>
          rw [if_pos digit] at closed
          obtain ⟨base, rfl⟩ := Partial.exists_of_extendAll_number extended
          simp only [Partial.close, List.nil_append, List.reverse_append, List.reverse_reverse,
            List.reverse_singleton, List.singleton_append, List.cons.injEq, and_true] at closed
          exact closed ▸ .number ((Partial.extendAll_digit_iff digit).mp ⟨_, extended⟩)
        · next undigit =>
          rw [if_neg undigit] at closed
          obtain ⟨rfl, rfl⟩ := Partial.extendAll_none.mp extended
          simp only [Partial.close, List.append_nil, List.cons.injEq, and_true] at closed
          exact closed ▸ .mark (by simpa using visible) (by simpa using unnamed)
            (by simpa using undigit)

/-- Scanning afresh starts with the first character. -/
theorem scan_none (first : Char) (rest : List Char) :
    scan .none (first :: rest) = (Partial.start first).1 ++ scan (Partial.start first).2 rest := by
  simp [scan, Partial.extend, Partial.close]

/-- A text is scanned by taking what belongs to the current token, as far as it goes, and starting
afresh behind it. -/
theorem exists_scan (current : Partial) (chars : List Char) :
    ∃ taken rest last, chars = taken ++ rest ∧ current.extendAll taken = some last ∧
      (∀ char ∈ rest.head?, last.extend char = none) ∧
      scan current chars = last.close ++ scan .none rest := by
  induction chars generalizing current with
  | nil => exact ⟨[], [], current, rfl, rfl, by simp, by simp [scan, Partial.close]⟩
  | cons char rest ih =>
    cases belongs : current.extend char with
    | some next =>
      obtain ⟨taken, behind, last, rfl, extended, stops, scans⟩ := ih next
      refine ⟨char :: taken, behind, last, rfl, ?_, stops, ?_⟩
      · rw [Partial.extendAll_cons, belongs, Option.bind_some, extended]
      · rw [scan, belongs]
        exact scans
    | none =>
      refine ⟨[], char :: rest, current, rfl, rfl, by simpa using belongs, ?_⟩
      rw [scan, belongs, scan_none, ← List.append_assoc]

/-- A visible character and what extends it are one token. -/
theorem close_of_start (visible : isBlank first = false)
    (extended : (Partial.start first).2.extendAll chars = some last) :
    ∃ token, (Partial.start first).1 ++ last.close = [token] := by
  unfold Partial.start at extended ⊢
  rw [if_neg (by simp [visible])] at extended ⊢
  split at extended
  · next starts =>
    rw [if_pos starts]
    obtain ⟨_, rfl⟩ := Partial.extendAll_name.mp extended
    exact ⟨_, rfl⟩
  · next unnamed =>
    rw [if_neg unnamed]
    split at extended
    · next digit =>
      rw [if_pos digit]
      obtain ⟨_, rfl⟩ := Partial.exists_of_extendAll_number extended
      exact ⟨_, rfl⟩
    · next undigit =>
      rw [if_neg undigit]
      obtain ⟨_, rfl⟩ := Partial.extendAll_none.mp extended
      exact ⟨_, rfl⟩

/-- What a token cannot be extended by is no part of a longer one. -/
theorem longest_of_stops {taken rest : List Char}
    (extended : (Partial.start first).2.extendAll taken = some last)
    (stops : ∀ char ∈ rest.head?, last.extend char = none) :
    ∀ other longer, Spells other longer → longer <+: first :: taken ++ rest →
      longer.length ≤ (first :: taken).length := by
  intro other longer spells among
  by_contra exceeds
  have inside : first :: taken <+: longer :=
    List.prefix_of_prefix_length_le (List.prefix_append _ _) among (by omega)
  obtain ⟨more, rfl⟩ := inside
  obtain ⟨next, shorter⟩ := (List.prefix_append_right_inj _).mp among
  cases more with
  | nil => simp at exceeds
  | cons char more =>
    rw [List.cons_append] at spells
    obtain ⟨final, reaches, _⟩ := spells_iff.mp spells
    rw [Partial.extendAll_append, extended, Option.bind_some, Partial.extendAll_cons,
      stops char (by simp [← shorter])] at reaches
    cases reaches

/-- Blanks before a token are skipped. -/
theorem scan_blank (blank : isBlank first = true) (rest : List Char) :
    scan .none (first :: rest) = scan .none rest := by
  rw [scan_none, Partial.start, if_pos blank]
  rfl

/-- Scanning finds tokens that a text falls into. -/
theorem lexes_scan (chars : List Char) : Lexes chars (scan .none chars) := by
  induction count : chars.length using Nat.strong_induction_on generalizing chars with
  | _ count ih =>
    subst count
    cases chars with
    | nil => exact .nil
    | cons first rest =>
      cases visible : isBlank first with
      | true =>
        rw [scan_blank visible]
        exact .blank visible (ih rest.length (Nat.lt_succ_self _) rest rfl)
      | false =>
        obtain ⟨taken, behind, last, rfl, extended, stops, scans⟩ :=
          exists_scan (Partial.start first).2 rest
        obtain ⟨token, closes⟩ := close_of_start visible extended
        have shorter : behind.length < (first :: (taken ++ behind)).length := by
          simp only [List.length_cons, List.length_append]
          omega
        rw [scan_none, scans, ← List.append_assoc, closes]
        exact .token (spells_iff.mpr ⟨last, extended, closes⟩) (longest_of_stops extended stops)
          (ih behind.length shorter behind rfl)

/-- Tokens that a text falls into are those that scanning finds. -/
theorem Lexes.scan_eq {tokens : List Token} (lexes : Lexes chars tokens) :
    scan .none chars = tokens := by
  induction lexes with
  | nil => rfl
  | blank isBlank _ ih => rw [scan_blank isBlank, ih]
  | @token token chars rest tokens spells longest _ ih =>
    cases chars with
    | nil =>
      cases spells with
      | number isNumber => cases isNumber
    | cons first run =>
      obtain ⟨last, extended, closes⟩ := spells_iff.mp spells
      obtain ⟨taken, behind, final, whole, reaches, stops, scans⟩ :=
        exists_scan (Partial.start first).2 (run ++ rest)
      -- Both runs are the longest that spell a token, so they are one.
      have visible : isBlank first = false := by
        by_contra blank
        rw [Bool.not_eq_false] at blank
        rw [Partial.start, if_pos blank] at extended closes
        obtain ⟨_, rfl⟩ := Partial.extendAll_none.mp extended
        cases closes
      obtain ⟨other, alsoCloses⟩ := close_of_start visible reaches
      have upper : (first :: taken).length ≤ (first :: run).length := by
        refine longest other _ (spells_iff.mpr ⟨final, reaches, alsoCloses⟩) ?_
        rw [List.cons_append, whole, ← List.cons_append]
        exact List.prefix_append _ _
      have lower : (first :: run).length ≤ (first :: taken).length := by
        refine longest_of_stops reaches stops token _ spells ?_
        rw [List.cons_append, ← whole, ← List.cons_append]
        exact List.prefix_append _ _
      obtain ⟨rfl, rfl⟩ := List.append_inj whole (by simp only [List.length_cons] at *; omega)
      rw [extended] at reaches
      cases reaches
      rw [List.cons_append, scan_none, scans, ← List.append_assoc, closes, ih]
      rfl

/-- Every text falls into tokens in one way, which scanning finds. -/
theorem lexes_iff {tokens : List Token} :
    Lexes chars tokens ↔ tokens = scan .none chars :=
  ⟨fun lexes => lexes.scan_eq.symm, fun same => same ▸ lexes_scan chars⟩

/-- The characters of a text, without a mark of the byte order in front. -/
def content (text : String) : List Char :=
  if text.toList.head? = some '\ufeff' then text.toList.tail else text.toList

/-- Lexing a text scans its content. -/
theorem ofText_eq (text : String) : ofText text = scan .none (content text) := by
  unfold ofText content
  cases text.toList with
  | nil => rfl
  | cons first rest =>
    have mark : first.toNat = 0xfeff ↔ first = '\ufeff' := by
      rw [← Char.toNat_inj]
      rfl
    simp only [mark, List.head?_cons, Option.some.injEq, List.tail_cons]
    split <;> rfl

end Assembler.Token
