import Assembler.Proofs.Layout.Clean
import Mathlib.Tactic.Ring

/-!
# Addresses and distances

Layout measures a distance from the offsets in a section, and emission from addresses. They agree as
long as no address wraps (`address_eq_exactValue`): the base of the section counts as often as the
coefficients add up to, which is not at all for a distance and once for a target.
-/

namespace Assembler

variable {ε α : Type} {good : α → Prop}

variable {location : Location} {field : Field}

/-- A computation ends with a good result, or with an error that was to be expected. -/
def Yields {ε α : Type} (good : α → Prop) (bad : ε → Prop) : Except ε α → Prop
  | .ok result => good result
  | .error error => bad error

/-- One computation after another yields what the second one does. -/
theorem Yields.bind {β : Type} {later : β → Prop} {bad : ε → Prop}
    {first : Except ε α} {next : α → Except ε β} (yields : Yields good bad first)
    (continues : ∀ result, good result → Yields later bad (next result)) :
    Yields later bad (first >>= next) := by
  cases first with
  | ok result => exact continues result yields
  | error error => exact yields

theorem Yields.mono {bad worse : ε → Prop} {outcome : Except ε α}
    (yields : Yields good bad outcome) (errors : ∀ error, bad error → worse error) :
    Yields good worse outcome := by
  cases outcome with
  | ok result => exact yields
  | error error => exact errors error yields

/-- A computation that cannot fail yields a result. -/
theorem Yields.exists_ok {outcome : Except ε α}
    (yields : Yields good (fun _ => False) outcome) :
    ∃ result, outcome = .ok result ∧ good result := by
  cases outcome with
  | ok result => exact ⟨result, rfl, yields⟩
  | error => exact yields.elim

/-- The sum of the coefficients of an expression, in unbounded integers. -/
def Expr.coefficientSum (expr : Expr) : Int :=
  (expr.terms.map fun term => term.coefficient.toInt).sum

/-- The positions of an expression. -/
def Expr.places (expr : Expr) : List Location :=
  expr.terms.filterMap fun term =>
    match term.base with
    | .place location => some location
    | .symbol _ => none

/-- The positions of an expression are those of its terms. -/
theorem Expr.mem_places {expr : Expr} :
    location ∈ expr.places ↔ ∃ term ∈ expr.terms, term.base = .place location := by
  simp only [Expr.places, List.mem_filterMap]
  refine exists_congr fun term => and_congr_right fun _ => ?_
  cases term.base <;> simp

/-- A reference to a symbol or a section that does not exist, not to bytes that cannot be had. -/
def Dangling.Missing : Dangling → Prop
  | .symbol _ | .missingSection _ => True
  | .bytes .. | .bytesBefore _ | .allBytes => False

/-- Looking up a symbol fails only if it is missing. -/
theorem SymbolTable.get_missing (table : SymbolTable) (id : SymbolId) :
    Yields (fun _ => True) Dangling.Missing (table.get id) := by
  unfold get
  split <;> trivial

namespace Object

/-- Looking up a section fails only if it is missing. -/
theorem getSection_missing (object : Object) (id : Int) :
    Yields (fun _ => True) Dangling.Missing (object.getSection id) := by
  unfold getSection
  split
  · split <;> trivial
  · trivial

@[simp] theorem getSection_natCast (object : Object) (id : Nat) :
    object.getSection id =
      match object.sections[id]? with
      | some sect => .ok sect
      | none => .error (.missingSection id) := rfl

/-- The address of a position, zero when it is in no section. -/
def addressAt (object : Object) (location : Location) : UInt64 :=
  (object.locationAddress location).toOption.getD 0

/-- What a term adds to the value of an expression. -/
def weight (object : Object) (term : Term) : Int :=
  match term.base with
  | .place location => (object.addressAt location).toNat * term.coefficient.toInt
  | .symbol _ => 0

/-- The section of a position exists. -/
def covers (object : Object) (location : Location) : Bool :=
  (object.getSection location.sectionId).isOk

/-- An object covers a position if it has the section. -/
theorem covers_iff {object : Object} :
    object.covers location = true ↔ ∃ sect, object.getSection location.sectionId = .ok sect := by
  unfold covers
  cases object.getSection location.sectionId <;> simp [Except.isOk, Except.toBool]

/-- A position has an address if its section exists. -/
theorem exists_locationAddress {object : Object} (covers : object.covers location = true) :
    ∃ address, object.locationAddress location = .ok address := by
  obtain ⟨sect, found⟩ := covers_iff.mp covers
  exact ⟨sect.base + sect.offsetOf location,
    by simp [Object.locationAddress, found, bind, Except.bind, pure, Except.pure]⟩

/-- The offset and the address of a position can be found if its section can. -/
theorem location_yields {object : Object} {bad : Dangling → Prop}
    (sect : Yields (fun _ => True) bad (object.getSection location.sectionId)) :
    Yields (fun _ => True) bad (object.locationOffset location) ∧
      Yields (fun _ => True) bad (object.locationAddress location) :=
  ⟨sect.bind fun _ _ => trivial, sect.bind fun _ _ => trivial⟩

/-- Add what a term adds to a sum. -/
def addTerm (object : Object) (sum : Int) (term : Term) : Except Dangling Int :=
  match term.base with
  | .place location => do
    return sum + (← object.locationAddress location).toNat * term.coefficient.toInt
  | .symbol _ => return sum

theorem address_eq_foldlM (object : Object) (expr : Expr) :
    object.address expr = expr.terms.foldlM object.addTerm expr.constant := rfl

/-- An address is found unless something is missing. -/
theorem address_missing (object : Object) (expr : Expr) :
    Yields (fun _ => True) Dangling.Missing (object.address expr) := by
  rw [address_eq_foldlM]
  generalize expr.constant = start
  induction expr.terms generalizing start with
  | nil => trivial
  | cons term rest ih =>
    have first : Yields (fun _ => True) Dangling.Missing (object.addTerm start term) := by
      unfold addTerm
      cases term.base with
      | symbol => trivial
      | place location =>
        exact (location_yields (object.getSection_missing _)).2.bind fun _ _ => trivial
    rw [List.foldlM_cons]
    exact first.bind fun sum _ => ih sum

/-- A term whose position is known adds its weight. -/
theorem addTerm_eq {object : Object} {term : Term}
    (known : ∀ location, term.base = .place location → object.covers location = true)
    (sum : Int) :
    object.addTerm sum term = .ok (sum + object.weight term) := by
  unfold addTerm weight
  cases base : term.base with
  | symbol id => simp [pure, Except.pure]
  | place location =>
    obtain ⟨address, found⟩ := exists_locationAddress (known location base)
    simp [addressAt, found, Except.toOption, bind, Except.bind, pure, Except.pure]

/-- The value of an expression is its constant and what its terms add. -/
theorem address_eq {object : Object} {expr : Expr}
    (covers : ∀ location ∈ expr.places, object.covers location = true) :
    object.address expr = .ok (expr.constant + (expr.terms.map object.weight).sum) := by
  rw [address_eq_foldlM]
  have locates : ∀ term ∈ expr.terms, ∀ location, term.base = .place location →
      object.covers location = true :=
    fun term member location base => covers location (Expr.mem_places.mpr ⟨term, member, base⟩)
  generalize expr.constant = start
  generalize expr.terms = terms at locates ⊢
  induction terms generalizing start with
  | nil => simp [pure, Except.pure]
  | cons term rest ih =>
    have first := addTerm_eq (locates term List.mem_cons_self) start
    rw [List.foldlM_cons, first, List.map_cons, List.sum_cons, ← Int.add_assoc]
    exact ih _ fun other member => locates other (List.mem_cons_of_mem _ member)

/-- Adding a constant to an expression adds it to its value. -/
theorem address_addInt (object : Object) (expr : Expr) (constant : Int) :
    object.address (expr.addInt constant) = (object.address expr).map (· + constant) := by
  rw [address_eq_foldlM, address_eq_foldlM]
  change expr.terms.foldlM object.addTerm (expr.constant + constant) = _
  generalize expr.constant = start
  generalize expr.terms = terms
  induction terms generalizing start with
  | nil => rfl
  | cons term rest ih =>
    have first : object.addTerm (start + constant) term =
        (object.addTerm start term).map (· + constant) := by
      unfold addTerm
      cases term.base with
      | symbol id => rfl
      | place location =>
        dsimp only
        cases object.locationAddress location with
        | error reference => rfl
        | ok address =>
          simp only [bind, Except.bind, pure, Except.pure, Except.map, Except.ok.injEq]
          ring
    rw [List.foldlM_cons, List.foldlM_cons, first]
    cases object.addTerm start term with
    | error reference => rfl
    | ok sum => exact ih sum

end Object

/-- The positions of a field without a symbol are those of its terms, and what it counts from. -/
theorem Field.positions_eq_some {positions : List (Int64 × Location)}
    (found : field.positions = some positions) :
    field.symbol = none ∧ ∃ places : List (Int64 × Location),
      field.expr.terms =
        places.map (fun (coefficient, location) => ⟨coefficient, .place location⟩) ∧
      positions = places ++ (field.origin.map fun location => (-1, location)).toList := by
  have placed : ∀ (terms : List Term) (places : List (Int64 × Location)),
      (terms.mapM fun term =>
        match term.base with
        | .place location => some (term.coefficient, location)
        | .symbol _ => none) = some places →
      terms = places.map fun (coefficient, location) => ⟨coefficient, .place location⟩ := by
    intro terms
    induction terms with
    | nil =>
      intro places mapped
      simp only [List.mapM_nil, pure, Option.some.injEq] at mapped
      rw [← mapped, List.map_nil]
    | cons term rest ih =>
      intro places mapped
      rw [List.mapM_cons] at mapped
      cases base : term.base with
      | symbol id => simp [base] at mapped
      | place location =>
        simp only [base, Option.bind_eq_bind, Option.bind_some] at mapped
        obtain ⟨others, later, same⟩ := Option.bind_eq_some_iff.mp mapped
        simp only [pure, Option.some.injEq] at same
        rw [← same, List.map_cons, ← ih others later]
        simp [← base]
  unfold Field.positions at found
  split at found
  · cases found
  · next absent =>
    obtain ⟨places, mapped, same⟩ := Option.bind_eq_some_iff.mp found
    simp only [pure, Option.some.injEq] at same
    exact ⟨by simpa using absent, places, placed _ _ mapped, same.symm⟩

/-- The positions of a distance are in its section, and their coefficients cancel. -/
theorem Field.isDistanceIn_iff {home : Nat} :
    field.isDistanceIn home = true ↔ ∃ positions, field.positions = some positions ∧
      (∀ position ∈ positions, position.2.sectionId = home) ∧
      (positions.map Prod.fst).sum = 0 := by
  unfold Field.isDistanceIn
  cases field.positions <;> simp

/-- A sum of words is the sum of their values, as a word. -/
theorem sum_eq_ofInt (words : List Int64) :
    words.sum = Int64.ofInt (words.map Int64.toInt).sum := by
  induction words with
  | nil => rfl
  | cons word rest ih =>
    rw [List.sum_cons, ih, List.map_cons, List.sum_cons, Int64.ofInt_add, Int64.ofInt_toInt]

/-- The coefficients of a distance cancel, those of a target that a position is subtracted from add
up to one. Words may cancel where integers do not, so the sum has to be a word. -/
theorem Field.coefficientSum_eq {home : Nat} (distance : field.isDistanceIn home = true)
    (word : isWord field.expr.coefficientSum = true) :
    field.expr.coefficientSum = field.origin.elim 0 fun _ => 1 := by
  obtain ⟨positions, known, _, cancels⟩ := Field.isDistanceIn_iff.mp distance
  obtain ⟨_, places, terms, rfl⟩ := Field.positions_eq_some known
  have sum : field.expr.coefficientSum = (places.map fun place => place.1.toInt).sum := by
    rw [Expr.coefficientSum, terms, List.map_map]
    rfl
  have wrapped : (places.map Prod.fst).sum = Int64.ofInt field.expr.coefficientSum := by
    rw [sum_eq_ofInt, sum, List.map_map]
    rfl
  rw [isWord_iff_toInt_ofInt, ← wrapped] at word
  rw [List.map_append, List.sum_append] at cancels
  rw [← word]
  cases counted : field.origin with
  | none =>
    have zero : (places.map Prod.fst).sum = 0 := by simpa [counted] using cancels
    rw [zero]
    rfl
  | some location =>
    rw [counted] at cancels
    have one : (places.map Prod.fst).sum = 1 := by
      change _ + (-1 + 0) = (0 : Int64) at cancels
      grind
    rw [one]
    rfl

section

variable {object : Object} {sect : Section} {id : Nat}

variable (found : object.sections[id]? = some sect)
include found

/-- The address of a position in a section of the object. -/
theorem locationAddress_of_section (inside : location.sectionId = id) :
    object.locationAddress location = .ok (sect.base + sect.offsetOf location) := by
  simp [Object.locationAddress, inside, found, bind, Except.bind, pure, Except.pure]

/-- Scaled addresses are scaled offsets, and the base as often as the coefficients add up to. -/
theorem sum_weight {places : List (Int64 × Location)}
    (inside : ∀ place ∈ places, place.2.sectionId = id)
    (unwrapped : ∀ place ∈ places, sect.base.toNat + (sect.offsetOf place.2).toNat < 2 ^ 64) :
    ((places.map fun (coefficient, location) => (⟨coefficient, .place location⟩ : Term)).map
        object.weight).sum =
      (places.map fun (coefficient, location) =>
        coefficient.toInt * (sect.offsetOf location).toNat).sum +
      sect.base.toNat * (places.map fun place => place.1.toInt).sum := by
  induction places with
  | nil => simp
  | cons place rest ih =>
    obtain ⟨coefficient, location⟩ := place
    have located := locationAddress_of_section found (inside _ List.mem_cons_self)
    have exact_ : (sect.base + sect.offsetOf location).toNat =
        sect.base.toNat + (sect.offsetOf location).toNat := by
      rw [UInt64.toNat_add]
      exact Nat.mod_eq_of_lt (unwrapped _ List.mem_cons_self)
    have adds : object.weight ⟨coefficient, .place location⟩ =
        (sect.base.toNat + (sect.offsetOf location).toNat) * coefficient.toInt := by
      simp [Object.weight, Object.addressAt, located, Except.toOption, exact_]
    have others := ih (fun place member => inside place (List.mem_cons_of_mem _ member))
      (fun place member => unwrapped place (List.mem_cons_of_mem _ member))
    simp only [List.map_cons, List.sum_cons, others, adds]
    ring

/-- The value that emission finds for a distance is the one that layout found, if no address wraps.
Where layout subtracts a position, emission has not done so yet. -/
theorem address_eq_exactValue (distance : field.isDistanceIn id = true)
    (word : isWord field.expr.coefficientSum = true)
    (unwrapped : ∀ location ∈ field.expr.places,
      sect.base.toNat + (sect.offsetOf location).toNat < 2 ^ 64) :
    object.address field.expr =
      .ok ((sect.relaxed id).exactValue field + field.origin.elim 0 fun location =>
        (sect.base.toNat + (sect.offsetOf location).toNat : Int)) := by
  have sum := Field.coefficientSum_eq distance word
  obtain ⟨positions, known, inside, _⟩ := Field.isDistanceIn_iff.mp distance
  obtain ⟨_, places, terms, rfl⟩ := Field.positions_eq_some known
  have placed (location : Location) :
      location ∈ field.expr.places ↔ ∃ place ∈ places, place.2 = location := by
    rw [Expr.mem_places, terms]
    simp
  have covers : ∀ location ∈ field.expr.places, object.covers location = true := by
    intro location member
    obtain ⟨place, placeMember, rfl⟩ := (placed location).mp member
    rw [Object.covers_iff, inside place (List.mem_append_left _ placeMember)]
    exact ⟨sect, by rw [Object.getSection_natCast, found]⟩
  have weighs := sum_weight found (fun place member => inside place (List.mem_append_left _ member))
    (fun place member => unwrapped _ ((placed place.2).mpr ⟨place, member, rfl⟩))
  have bases : (places.map fun place => place.1.toInt).sum = field.origin.elim 0 fun _ => 1 := by
    rw [← sum, Expr.coefficientSum, terms, List.map_map]
    rfl
  rw [Object.address_eq covers, Except.ok.injEq, terms, weighs, bases]
  simp only [Relaxation.exactValue, known, Option.getD_some, List.map_append, List.sum_append]
  cases field.origin with
  | none =>
    simp [Section.relaxed, Section.offsetOf]
  | some location =>
    simp [Section.relaxed, Section.offsetOf]
    ring

end

end Assembler
