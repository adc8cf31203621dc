import Assembler.Proofs.Layout.Measures

/-!
# What stops the preparation of a chunk

Preparing a chunk expands the expressions that it reads (`Chunk.reads`). It stops at one that cannot
be expanded, or with a problem of its own, whose causes are among `preparationCauses`. `Halts` says
so of a computation, and there is one lemma about it for each function that preparing a chunk calls,
up to `Chunk.prepare_halts`. As expanding is to blame for circles only, every error has its causes
among `preparationCauses` (`preparationProblem_causes`).
-/

namespace Assembler

/-- The causes that preparing a chunk can give. -/
def preparationCauses : List Cause :=
  [.tooComplex, .notConstant, .circularReference, .valueSize, .negativeMultiple, .multipleOffset,
    .badAlignment, .incbinRange]

/-! ### What preparing a chunk expands -/

/-- The expressions of a field that settling it expands. -/
def Field.pending (field : Field) : List Expr := if field.settled then [] else [field.expr]

/-- The expressions that settling a body expands. -/
def Body.pending : Body → List Expr
  | .data items => (items.flatMap DataItem.fields).flatMap Field.pending
  | .leb128 integer => [integer.number]
  | .instruction code => (code.operands.map Operand.field).flatMap Field.pending
  | .branch jump => jump.target.pending
  | .reserve .. | .binary _ | .align _ | .org _ => []

/-- The expressions of a body that have to be constants. -/
def Body.quantities : Body → List Expr
  | .reserve count _ => [count]
  | .binary part => part.start.toList ++ part.maxLength.toList
  | .align padding => padding.boundary :: padding.maxSkip.toList
  | .org padding => [padding.start]
  | .data _ | .leb128 _ | .instruction _ | .branch _ => []

/-- The expressions that a layout of a chunk expands. -/
def Chunk.reads (chunk : Chunk) : List Expr :=
  chunk.repeats.toList ++ (chunk.body.quantities ++ chunk.body.pending)

/-- Settling a body expands the expressions of the fields that it settles. -/
theorem Body.mem_pending {body : Body} {expr : Expr} (line : Int) :
    expr ∈ body.pending ↔ ∃ field, body.Settles line field ∧ expr ∈ field.pending := by
  cases body with
  | data items => simp only [pending, Settles, List.mem_flatMap (l := items.flatMap _),
      DataItem.mem_fields]
  | instruction code => simp [pending, Settles]
  | leb128 | branch => simp [pending, Settles, Field.pending]
  | reserve | binary | align | org => simp [pending, Settles]

/-- Settling leaves the quantities of a body alone. -/
theorem Body.quantities_settle (body : Body) (table : SymbolTable) (sectionId index : Nat)
    (line : Int) : (body.settle table sectionId index line).1.quantities = body.quantities := by
  cases body <;> rfl

/-! ### Halts -/

/-- A computation that halts in allowed ways only. -/
def Halts {α : Type} (allowed : Halt → Prop) (result : Except Halt α) : Prop :=
  ∀ halt, result = .error halt → allowed halt

namespace Halts

variable {α β : Type} {allowed : Halt → Prop}

theorem ok (value : α) : Halts allowed (.ok value : Except Halt α) := by
  intro halt impossible
  cases impossible

theorem error {halt : Halt} (isAllowed : allowed halt) :
    Halts allowed (.error halt : Except Halt α) := by
  intro other same
  cases same
  exact isAllowed

theorem bind {first : Except Halt α} {next : α → Except Halt β} (halts : Halts allowed first)
    (later : ∀ value, Halts allowed (next value)) : Halts allowed (first >>= next) := by
  cases first with
  | error halt => exact error (halts halt rfl)
  | ok value => exact later value

theorem foldlM {step : β → α → Except Halt β} (halts : ∀ sum item, Halts allowed (step sum item))
    (items : List α) (start : β) : Halts allowed (items.foldlM step start) := by
  induction items generalizing start with
  | nil => exact ok start
  | cons item rest ih =>
    rw [List.foldlM_cons]
    exact bind (halts start item) ih

end Halts

/-- The problems that preparing a chunk gives are allowed, and what is allowed is so in the context
of a part of the chunk. -/
structure AllowsPreparation (allowed : Halt → Prop) : Prop where
  problem : ∀ {error : Error}, error.causes ⊆ preparationCauses → allowed (.problem error)
  within : ∀ {context : Error → Error} {halt : Halt},
    (∀ error, (context error).causes = error.causes) → allowed halt → allowed (halt.within context)

section

variable {allowed : Halt → Prop} (allows : AllowsPreparation allowed) {table : SymbolTable}
  {expr : Expr} {α : Type}
include allows

/-- A problem of preparation is allowed. -/
theorem AllowsPreparation.halts {error : Error}
    (among : error.causes ⊆ preparationCauses := by simp [Error.causes, preparationCauses]) :
    Halts allowed (.error (.problem error) : Except Halt α) :=
  .error (allows.problem among)

/-- A context does not change what is allowed. -/
theorem AllowsPreparation.wrap {context : Error → Error} {result : Except Halt α}
    (same : ∀ error, (context error).causes = error.causes) (halts : Halts allowed result) :
    Halts allowed (Halt.wrap context result) := by
  cases result with
  | ok value => exact .ok value
  | error halt => exact .error (allows.within same (halts halt rfl))

/-- Finding a constant. -/
theorem constantWord_halts (expands : Halts allowed (table.expand expr)) :
    Halts allowed (table.constantWord expr) := by
  refine .bind expands fun value => ?_
  split
  · exact .ok _
  · exact allows.halts

/-- Finding a constant that is not negative. -/
theorem naturalWord_halts (quantity : Quantity) (expands : Halts allowed (table.expand expr)) :
    Halts allowed (table.naturalWord quantity expr) := by
  refine .bind (allows.wrap (fun _ => rfl) (constantWord_halts allows expands)) fun value => ?_
  split
  · exact allows.halts (by simp [Error.causes])
  · exact .ok _

/-- Settling a field. -/
theorem Field.settle_halts {field : Field} (site : Location)
    (expands : ∀ expr ∈ field.pending, Halts allowed (table.expand expr)) :
    Halts allowed (field.settle table site) := by
  unfold Field.settle
  split
  · exact .ok _
  · next unsettled =>
    have expands := expands field.expr (by simp [pending, unsettled])
    refine .bind expands fun expanded => .bind ?_ fun _ => .ok _
    refine .foldlM (fun sum term => ?_) _ _
    cases term.base with
    | place location => exact .ok _
    | symbol id =>
      dsimp only
      split
      · exact allows.halts
      · exact .ok _

/-- Settling a body. -/
theorem Body.settle_halts {body : Body} {sectionId index : Nat} {line : Int} {halt : Halt}
    (expands : ∀ expr ∈ body.pending, Halts allowed (table.expand expr))
    (stopped : (body.settle table sectionId index line).2 = some halt) : allowed halt := by
  rcases Body.settle_halt stopped with ⟨field, site, cause, _, isField, fails, same, rfl⟩ | ⟨_, rfl⟩
  · refine allows.within same (Field.settle_halts allows site (fun expr member => ?_) cause fails)
    exact expands expr ((Body.mem_pending line).mpr ⟨field, isField, member⟩)
  · exact allows.problem (by simp [Error.causes, preparationCauses])

/-- Finding the number of copies to start from. -/
theorem initialCopies_halts {chunk : Chunk} (sectionId index : Nat)
    (expands : ∀ expr ∈ chunk.repeats, Halts allowed (table.expand expr)) :
    Halts allowed (chunk.initialCopies table sectionId index) := by
  unfold Chunk.initialCopies
  cases counted : chunk.repeats with
  | none => exact .ok _
  | some count =>
    dsimp only
    split
    · exact allows.halts
    · refine .bind (allows.wrap (fun _ => rfl) (expands count counted)) fun expanded => ?_
      -- A count that is a constant and a distance that is deferred are checked alike.
      repeat' split
      all_goals first | exact .ok _ | exact allows.halts

/-- Measuring data. -/
theorem measureItems_halts (items : List DataItem) : Halts allowed (measureItems items) := by
  induction items with
  | nil => exact .ok _
  | cons item rest ih =>
    cases item with
    | bytes bytes => exact .bind ih fun _ => .ok _
    | field field =>
      rw [measureItems]
      split
      · exact allows.halts
      · exact .bind ih fun _ => .ok _

/-- Choosing a part of given bytes. -/
theorem window_halts {part : Binary}
    (expands : ∀ expr ∈ part.start.toList ++ part.maxLength.toList,
      Halts allowed (table.expand expr)) : Halts allowed (part.window table) := by
  obtain ⟨first, second⟩ := List.forall_mem_append.mp expands
  refine .bind ?_ fun start => ?_
  · unfold Binary.windowStart
    cases given : part.start with
    | none => exact .ok _
    | some expr =>
      refine .bind (naturalWord_halts allows _ (first expr (by simp [given]))) fun start => ?_
      by_cases beyond : part.data.length < start.toNat
      · rw [if_pos beyond]
        exact allows.halts
      · rw [if_neg beyond]
        exact .ok _
  · cases given : part.maxLength with
    | none => exact .ok _
    | some expr =>
      exact .bind (naturalWord_halts allows _ (second expr (by simp [given]))) fun _ => .ok _

omit allows in
/-- Fill sequences of wrong lengths are a problem without a cause of its own. -/
theorem causes_checkCodeFill {codeFill : List (List UInt8)} {error : Error}
    (wrong : checkCodeFill codeFill = some error) : error.causes = [] := by
  unfold checkCodeFill at wrong
  split at wrong
  · cases wrong
  · split at wrong
    · rw [Option.some.injEq] at wrong
      rw [← wrong, Error.causes]
    · split at wrong
      · rw [Option.some.injEq] at wrong
        rw [← wrong, Error.causes]
      · cases wrong

/-- Finding the rule of an alignment. -/
theorem setter_halts {padding : Align}
    (expands : ∀ expr ∈ padding.boundary :: padding.maxSkip.toList,
      Halts allowed (table.expand expr)) : Halts allowed (padding.setter table) := by
  obtain ⟨first, second⟩ := List.forall_mem_cons.mp expands
  refine .bind (allows.wrap (fun _ => rfl) (constantWord_halts allows first)) fun boundary => ?_
  by_cases bad : (decide (boundary ≤ 0) || !isPowerOfTwo boundary.toUInt64) = true
  · rw [if_pos bad]
    exact allows.halts
  · rw [if_neg bad]
    refine .bind ?_ fun maxSkip => ?_
    · unfold Align.skipLimit
      cases given : padding.maxSkip with
      | none => exact .ok _
      | some expr => exact naturalWord_halts allows _ (second expr (by simp [given]))
    · cases wrong : checkCodeFill padding.codeFill with
      | none => exact .ok _
      | some error => exact allows.halts (by simp [causes_checkCodeFill wrong])

omit allows in
/-- An operand is refused for its size at most. -/
theorem causes_checkOperands {name : String} {size number : Nat} {operands : List Operand}
    {error : Error} (wrong : checkOperands name size number operands = some error) :
    error.causes ⊆ preparationCauses := by
  induction operands generalizing number with
  | nil => cases wrong
  | cons operand rest ih =>
    rw [checkOperands] at wrong
    split at wrong
    · rw [Option.some.injEq] at wrong
      simp [← wrong, Error.causes, preparationCauses]
    · split at wrong
      · rw [Option.some.injEq] at wrong
        simp [← wrong, Error.causes]
      · exact ih wrong

/-- Measuring a body. -/
theorem Body.measure_halts {body : Body} (index : Nat) (counted : Bool) (copies : Int64)
    (expands : ∀ expr ∈ body.quantities, Halts allowed (table.expand expr)) :
    Halts allowed (body.measure table index counted copies) := by
  unfold Body.measure
  cases body with
  | data items => exact .bind (measureItems_halts allows items) fun _ => .ok _
  | leb128 integer =>
    dsimp only
    split <;> exact .ok _
  | reserve | org =>
    exact .bind (naturalWord_halts allows _ (expands _ List.mem_cons_self)) fun _ => .ok _
  | binary part => exact .bind (window_halts allows expands) fun _ => .ok _
  | align padding => exact .bind (setter_halts allows expands) fun _ => .ok _
  | instruction code =>
    dsimp only
    split
    · next error wrong => exact allows.halts (causes_checkOperands wrong)
    · exact .ok _
  | branch jump =>
    dsimp only
    unfold Branch.measure
    split
    · exact allows.halts
    · dsimp only
      split
      · exact .ok _
      · exact .ok _
      · split <;> exact .ok _

/-- Preparing a chunk halts as expanding what it reads does, or with a problem of its own. -/
theorem Chunk.prepare_halts {chunk : Chunk} {sectionId index : Nat}
    (expands : ∀ expr ∈ chunk.reads, Halts allowed (table.expand expr)) :
    Halts allowed (chunk.prepare table sectionId index).2 := by
  obtain ⟨repeats, fields⟩ := List.forall_mem_append.mp expands
  obtain ⟨quantities, pending⟩ := List.forall_mem_append.mp fields
  intro halt failed
  obtain ⟨_, _, ⟨_, unsettled | uncounted⟩ | ⟨_, _, _, unmeasured⟩⟩ :=
    prepare_failed (Prod.ext rfl failed)
  · exact Body.settle_halts allows pending unsettled
  · exact initialCopies_halts allows sectionId index
      (fun expr member => repeats expr (Option.mem_toList.mpr member)) halt uncounted
  · refine Body.measure_halts allows index _ _ ?_ halt unmeasured
    rw [Body.quantities_settle]
    exact quantities

end

/-! ### Who is to blame -/

/-- A halt whose causes preparing a chunk can give. -/
def Halt.Blames : Halt → Prop
  | .dangling _ => True
  | .problem error => error.causes ⊆ preparationCauses

/-- Causes of preparation are allowed to a chunk that is prepared. -/
theorem Halt.allowsPreparation_blames : AllowsPreparation Halt.Blames where
  problem := id
  within := by
    intro context halt same blames
    cases halt with
    | dangling reference => trivial
    | problem error =>
      rw [Halt.within, Halt.Blames, same error]
      exact blames

/-- Expanding an expression is to blame for a circle at most, if expanding the EQUs in it is. -/
theorem blames_expandBelow_of_lower {table : SymbolTable} {depth : Nat}
    (lower : ∀ below, depth = below + 1 → ∀ opened expr,
      Halts Halt.Blames (table.expandBelow below opened expr))
    (opened : List SymbolId) (expr : Expr) :
    Halts Halt.Blames (table.expandBelow depth opened expr) := by
  unfold SymbolTable.expandBelow
  refine Halts.foldlM (fun sum term => ?_) _ _
  cases term.base with
  | place location => exact .ok _
  | symbol id =>
    dsimp only
    cases table.get? id with
    | none =>
      have unknown : (Halt.dangling (.symbol id)).Blames := trivial
      exact .error unknown
    | some symbol =>
      have circular : (Halt.problem (.circularEqu symbol.name)).Blames := by
        simp [Halt.Blames, Error.causes, preparationCauses]
      dsimp only
      cases symbol.meaning with
      | undefined | imported | label => exact .ok _
      | equ body =>
        dsimp only
        split
        · exact .error circular
        · cases depth with
          | zero => exact .error circular
          | succ below => exact .bind (lower below rfl _ _) fun _ => .ok _

/-- Expanding an expression fails at an EQU that leads back to itself only. -/
theorem blames_expand (table : SymbolTable) (expr : Expr) :
    Halts Halt.Blames (table.expand expr) := by
  have below : ∀ depth opened expr, Halts Halt.Blames (table.expandBelow depth opened expr) := by
    intro depth
    induction depth using Nat.strongRecOn with
    | ind depth ih =>
      exact blames_expandBelow_of_lower fun below same => ih below (by omega)
  exact below _ _ _

/-- Preparing a chunk fails for causes of preparation only. -/
theorem preparationProblem_causes {chunk : Chunk} {table : SymbolTable} {sectionId index : Nat}
    {error : Error} (failed : chunk.preparationProblem table sectionId index = some error) :
    error.causes ⊆ preparationCauses := by
  unfold Chunk.preparationProblem at failed
  cases result : chunk.prepare table sectionId index with
  | mk changed outcome =>
    rw [result] at failed
    cases outcome with
    | ok spans => cases failed
    | error halt =>
      have blamed : halt.Blames := Chunk.prepare_halts Halt.allowsPreparation_blames
        (fun expr _ => blames_expand table expr) halt (congrArg Prod.snd result)
      cases halt with
      | dangling reference => cases failed
      | problem other =>
        cases failed
        exact blamed

end Assembler
