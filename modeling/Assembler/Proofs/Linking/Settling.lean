import Assembler.Proofs.Emission.Content
import Assembler.Proofs.Layout.Blame
import Assembler.Proofs.Layout.Window
import Assembler.Proofs.Linking.Expansion

/-!
# Settling fields over imports

A field that was settled over a table has at most one import left in it. Settled over the linked
table it has the address in its constant instead (`Field.settle_link`), and the same goes for every
field of a body. Nothing else about a field changes.
-/

namespace Assembler

variable {early : Expr} {symbol : Option SymbolId}

/-- The term of a symbol that counts once. -/
def Term.ofSymbol (id : SymbolId) : Term := ⟨1, .symbol id⟩

namespace SymbolTable

/-- Whether no import counts more often in an expression than a word can say. -/
def Exact (table : SymbolTable) (expr : Expr) : Prop :=
  ∀ id, table.imports id = true → isWord (table.count expr id) = true

/-- Only the numbers of the table's symbols have to be tried. -/
theorem exact_iff {table : SymbolTable} {expr : Expr} :
    table.Exact expr ↔ ∀ index < table.symbols.length,
      table.imports ((index : Int) + 1) = true →
        isWord (table.count expr ((index : Int) + 1)) = true := by
  refine ⟨fun exact index _ imported => exact _ imported, fun each id imported => ?_⟩
  cases found : table.get? id with
  | none => simp [imports, found] at imported
  | some symbol =>
    obtain ⟨index, inRange, rfl⟩ := get?_bounds found
    exact each index inRange imported

instance (table : SymbolTable) (expr : Expr) : Decidable (table.Exact expr) :=
  decidable_of_iff _ exact_iff.symm

/-- What linking adds to the constant of a field with a symbol. -/
def shift (table : SymbolTable) (address : String → UInt64) : Option SymbolId → Int
  | some id => if table.imports id then (table.addressOf address id).toNat else 0
  | none => 0

/-- A position is no import. -/
theorem isLocal_of_isPlace {table : SymbolTable} {term : Term} (isPlace : term.isPlace = true) :
    table.isLocal term.base = true := by
  unfold Term.isPlace at isPlace
  cases base : term.base with
  | place location => rfl
  | symbol id => simp [base] at isPlace

section

variable {address : String → UInt64} {counts : SymbolId → Int} {late : Expr} {table : SymbolTable}
  (follows : table.Follows address early late counts)
  (exact : ∀ id, table.imports id = true → isWord (counts id) = true)
  (left : early.terms.filter (fun term => !term.isPlace) = symbol.toList.map Term.ofSymbol)
include follows exact left

/-- An import that is left once counts once, and one that is not left does not count. -/
theorem Follows.counts_eq (id : SymbolId) (imported : table.imports id = true) :
    counts id = if symbol = some id then 1 else 0 := by
  have word : Expr.coefficientOf early.terms (.symbol id) = if symbol = some id then 1 else 0 := by
    have among : early.terms.filter (fun term => term.base = .symbol id) =
        (early.terms.filter fun term => !term.isPlace).filter
          fun term => term.base = .symbol id := by
      rw [List.filter_filter]
      apply List.filter_congr
      intro term _
      by_cases same : term.base = .symbol id <;> simp [same, Term.isPlace]
    rw [Expr.coefficientOf, among, left]
    cases symbol with
    | none => rfl
    | some other =>
      by_cases same : other = id <;> simp [Term.ofSymbol, same]
  have exactly := isWord_iff_toInt_ofInt.mp (exact id imported)
  rw [← follows.coefficients id imported, word] at exactly
  rw [← exactly]
  split <;> rfl

/-- The address of the import that is left goes into the constant. -/
theorem Follows.constant_eq :
    late.constant = early.constant + table.shift address symbol := by
  have counts_eq := follows.counts_eq exact left
  have absent : ∀ id, symbol ≠ some id → counts id = 0 := by
    intro id different
    cases imported : table.imports id with
    | false => exact follows.others id imported
    | true => rw [counts_eq id imported, if_neg different]
  rw [follows.constant]
  congr 1
  cases symbol with
  | none =>
    apply Finset.sum_eq_zero
    intro index _
    rw [absent _ (by simp), Int.zero_mul]
  | some id =>
    cases imported : table.imports id with
    | false =>
      rw [shift, imported, if_neg (by simp)]
      apply Finset.sum_eq_zero
      intro index _
      by_cases same : id = (index : Int) + 1
      · rw [← same, follows.others id imported, Int.zero_mul]
      · rw [absent _ (by simpa using same), Int.zero_mul]
    | true =>
      obtain ⟨entry, found, _⟩ := (Option.any_eq_true _ _).mp imported
      obtain ⟨index, inRange, rfl⟩ := get?_bounds found
      rw [Finset.sum_eq_single index]
      · rw [counts_eq _ imported, if_pos rfl, Int.one_mul, shift, imported, if_pos rfl]
      · intro other _ different
        rw [absent _ (by simpa using different.symm), Int.zero_mul]
      · intro outside
        exact absurd (Finset.mem_range.mpr inRange) outside

end

/-- An expansion without symbols is the same over the linked table. -/
theorem expand_link_of_places {table : SymbolTable} (address : String → UInt64) {expr : Expr}
    (expands : table.expand expr = .ok early) (exact : table.Exact expr)
    (places : ∀ term ∈ early.terms, term.isPlace = true) :
    (table.link address).expand expr = .ok early := by
  obtain ⟨late, linked, follows⟩ := exists_expand_link address expands
  have left : early.terms.filter (fun term => !term.isPlace) =
      (none : Option SymbolId).toList.map Term.ofSymbol := by
    rw [Option.toList_none, List.map_nil, List.filter_eq_nil_iff]
    intro term member
    simp [places term member]
  have constant := follows.constant_eq exact left
  have terms : late.terms = early.terms := by
    rw [follows.terms, List.filter_eq_self]
    exact fun term member => isLocal_of_isPlace (places term member)
  rw [linked]
  congr 1
  cases late
  cases early
  simp only [shift, Int.add_zero] at constant terms
  rw [constant, terms]

end SymbolTable

/-- A field with the address of its symbol in its constant, if the symbol is an import. -/
def Field.link (field : Field) (table : SymbolTable) (address : String → UInt64) : Field :=
  { field with
    expr := field.expr.addInt (table.shift address field.symbol)
    symbol := field.symbol.filter fun id => !table.imports id }

namespace Field

variable {table : SymbolTable} {address : String → UInt64}

/-- A field without an import stays as it is. -/
theorem link_of_local {field : Field} (others : ∀ id ∈ field.symbol, table.imports id = false) :
    field.link table address = field := by
  obtain ⟨expr, symbol⟩ := field
  cases symbol with
  | none => simp [link, SymbolTable.shift, Expr.addInt]
  | some id => simp [link, SymbolTable.shift, Expr.addInt, others id rfl]

/-- Put a term with the positions, or take it out as the symbol that is left. -/
def splitTerm (source : Expr) (state : Expr × Option SymbolId) (term : Term) :
    Except Halt (Expr × Option SymbolId) :=
  match term.base with
  | .place _ => .ok (state.1.addTerm term, state.2)
  | .symbol id =>
    if state.2.isSome || term.coefficient ≠ 1 then .error (.problem (.tooComplex source))
    else .ok (state.1, some id)

theorem split_eq (source expanded : Expr) :
    split source expanded =
      expanded.terms.foldlM (splitTerm source) (.ofInt expanded.constant, none) := rfl

/-- A symbol is known from its term. -/
theorem map_ofSymbol_inj {held : Option SymbolId} :
    held.toList.map Term.ofSymbol = symbol.toList.map Term.ofSymbol ↔ held = symbol := by
  cases held <;> cases symbol <;> simp [Term.ofSymbol]

/-- Terms are split into positions and at most one symbol, which counts once. -/
theorem foldlM_splitTerm_eq_ok_iff {source start rest : Expr} {terms : List Term}
    {held : Option SymbolId} :
    terms.foldlM (splitTerm source) (start, held) = .ok (rest, symbol) ↔
      rest =
        { constant := start.constant
          terms := (terms.filter Term.isPlace).foldl
            (fun terms term => Expr.insertTerm term terms) start.terms } ∧
      held.toList.map Term.ofSymbol ++ terms.filter (fun term => !term.isPlace) =
        symbol.toList.map Term.ofSymbol := by
  induction terms generalizing start held with
  | nil =>
    simp only [List.foldlM_nil, pure, Except.pure, Except.ok.injEq, Prod.mk.injEq, List.filter_nil,
      List.foldl_nil, List.append_nil, map_ofSymbol_inj]
    exact and_congr_left fun _ => eq_comm
  | cons term others ih =>
    obtain ⟨coefficient, base⟩ := term
    rw [List.foldlM_cons]
    cases base with
    | place location =>
      rw [List.filter_cons_of_pos (by rfl), List.filter_cons_of_neg (by simp [Term.isPlace])]
      exact ih
    | symbol id =>
      rw [List.filter_cons_of_neg (by simp [Term.isPlace]), List.filter_cons_of_pos (by rfl)]
      cases held with
      | some other =>
        -- A second symbol is one too many.
        have longer : ∀ later : List Term, Term.ofSymbol other ::
            ⟨coefficient, .symbol id⟩ :: later ≠ symbol.toList.map Term.ofSymbol := by
          intro later same
          have lengths := congrArg List.length same
          cases symbol <;> simp at lengths
        simp [splitTerm, bind, Except.bind, longer]
      | none =>
        by_cases once : coefficient = 1
        · subst once
          have taken : splitTerm source (start, none) ⟨1, .symbol id⟩ = .ok (start, some id) := by
            simp [splitTerm]
          rw [taken]
          exact ih
        · have refused : splitTerm source (start, none) ⟨coefficient, .symbol id⟩ =
              .error (.problem (.tooComplex source)) := by
            simp [splitTerm, once]
          have different : ∀ later : List Term,
              ⟨coefficient, .symbol id⟩ :: later ≠ symbol.toList.map Term.ofSymbol := by
            intro later same
            cases symbol with
            | none => cases same
            | some other =>
              simp only [Option.toList_some, List.map_cons, List.cons.injEq, Term.ofSymbol,
                Term.mk.injEq] at same
              exact once same.1.1
          simp [refused, bind, Except.bind, different]

/-- Splitting over the linked table leaves the import out and adds its address. -/
theorem split_link {source late rest : Expr} {counts : SymbolId → Int}
    (follows : table.Follows address early late counts)
    (exact : ∀ id, table.imports id = true → isWord (counts id) = true)
    (splits : split source early = .ok (rest, symbol)) :
    split source late = .ok (rest.addInt (table.shift address symbol),
      symbol.filter fun id => !table.imports id) := by
  rw [split_eq, foldlM_splitTerm_eq_ok_iff] at splits ⊢
  obtain ⟨rfl, left⟩ := splits
  rw [Option.toList_none, List.map_nil, List.nil_append] at left ⊢
  have places : late.terms.filter Term.isPlace = early.terms.filter Term.isPlace := by
    rw [follows.terms, List.filter_filter]
    apply List.filter_congr
    intro term _
    cases isPlace : term.isPlace with
    | false => rfl
    | true => rw [SymbolTable.isLocal_of_isPlace isPlace, Bool.and_self]
  constructor
  · simp only [Expr.addInt, Expr.ofInt, places, follows.constant_eq exact left]
  · rw [follows.terms, List.filter_filter]
    have swapped : early.terms.filter
        (fun term => !term.isPlace && table.isLocal term.base) =
          (early.terms.filter fun term => !term.isPlace).filter
            fun term => table.isLocal term.base := by
      rw [List.filter_filter]
      apply List.filter_congr
      intro term _
      exact Bool.and_comm ..
    rw [swapped, left]
    cases symbol with
    | none => rfl
    | some id =>
      cases imported : table.imports id <;>
        simp [Term.ofSymbol, SymbolTable.isLocal, imported, Option.filter]

/-- A field that has not been settled with an import left in it. -/
def Fresh (field : Field) (table : SymbolTable) : Prop :=
  field.settled = true → ∀ id ∈ field.symbol, table.imports id = false
deriving Decidable

/-- A field settles over the linked table as it does over the table, with its import linked. -/
theorem settle_link {field settled : Field} {site : Location}
    (settles : field.settle table site = .ok settled) (fresh : field.Fresh table)
    (exact : ∀ expr ∈ field.pending, table.Exact expr) :
    field.settle (table.link address) site = .ok (settled.link table address) := by
  unfold settle at settles ⊢
  cases already : field.settled with
  | true =>
    rw [already, if_pos rfl] at settles
    cases settles
    rw [if_pos rfl, link_of_local (fresh already)]
    rfl
  | false =>
    rw [already, if_neg (by simp)] at settles
    rw [if_neg (by simp)]
    obtain ⟨early, expands, settles⟩ := exists_of_bind_ok settles
    obtain ⟨⟨rest, symbol⟩, splits, same⟩ := exists_of_bind_ok settles
    cases same
    obtain ⟨late, linked, follows⟩ := SymbolTable.exists_expand_link address expands
    have exactly : table.Exact field.expr := exact _ (by simp [pending, already])
    simp only [linked, split_link follows exactly splits, bind, Except.bind, pure, Except.pure]
    rfl

end Field

section

variable (table : SymbolTable) (address : String → UInt64)

/-- An item of data with its import linked. -/
def DataItem.link : DataItem → DataItem
  | .bytes content => .bytes content
  | .field inner => .field (inner.link table address)

/-- An operand with its import linked. -/
def Operand.link (operand : Operand) : Operand :=
  { operand with field := operand.field.link table address }

/-- A branch with its import linked. -/
def Branch.link (branch : Branch) : Branch :=
  { branch with target := branch.target.link table address }

/-- A body with its imports linked. An integer has none. -/
def Body.link : Body → Body
  | .data items => .data (items.map (DataItem.link table address))
  | .instruction code =>
    .instruction { code with operands := code.operands.map (Operand.link table address) }
  | .branch jump => .branch (jump.link table address)
  | .leb128 integer => .leb128 integer
  | .reserve count itemSize => .reserve count itemSize
  | .binary part => .binary part
  | .align padding => .align padding
  | .org padding => .org padding

end

section

variable {table : SymbolTable} {address : String → UInt64} {sectionId index : Nat}

/-- Data settles over the linked table as it does over the table, with its imports linked. -/
theorem settleItems_link {offset : UInt64} {items settled : List DataItem}
    (settles : settleItems table sectionId index offset items = (settled, none))
    (fresh : ∀ field ∈ items.flatMap DataItem.fields, field.Fresh table)
    (exact : ∀ expr ∈ (items.flatMap DataItem.fields).flatMap Field.pending, table.Exact expr) :
    settleItems (table.link address) sectionId index offset items =
      (settled.map (DataItem.link table address), none) := by
  induction items generalizing offset settled with
  | nil =>
    cases settles
    rfl
  | cons item rest ih =>
    rw [List.flatMap_cons] at fresh exact
    rw [List.flatMap_append] at exact
    obtain ⟨freshFirst, freshRest⟩ := List.forall_mem_append.mp fresh
    obtain ⟨exactFirst, exactRest⟩ := List.forall_mem_append.mp exact
    cases item with
    | bytes content =>
      obtain ⟨rfl, clean⟩ := Prod.mk.inj settles
      rw [settleItems, ih (Prod.ext rfl clean) freshRest exactRest]
      rfl
    | field inner =>
      cases first : inner.settle table ⟨sectionId, index, offset⟩ with
      | error halt => simp [settleItems, first] at settles
      | ok value =>
        rw [settleItems_cons first] at settles
        obtain ⟨rfl, clean⟩ := Prod.mk.inj settles
        have linked := @Field.settle_link table address inner value _ first
          (freshFirst inner (List.mem_singleton_self _))
          (by simpa [DataItem.fields] using exactFirst)
        rw [settleItems_cons linked, ih (Prod.ext rfl clean) freshRest exactRest]
        rfl

/-- Operands settle over the linked table as they do over the table, with their imports linked. -/
theorem settleOperands_link {name : String} {number : Nat} {operands settled : List Operand}
    (settles : settleOperands table sectionId index name number operands = (settled, none))
    (fresh : ∀ field ∈ operands.map Operand.field, field.Fresh table)
    (exact : ∀ expr ∈ (operands.map Operand.field).flatMap Field.pending, table.Exact expr) :
    settleOperands (table.link address) sectionId index name number operands =
      (settled.map (Operand.link table address), none) := by
  induction operands generalizing number settled with
  | nil =>
    cases settles
    rfl
  | cons operand rest ih =>
    rw [List.map_cons] at fresh exact
    rw [List.flatMap_cons] at exact
    obtain ⟨freshFirst, freshRest⟩ := List.forall_mem_cons.mp fresh
    obtain ⟨exactFirst, exactRest⟩ := List.forall_mem_append.mp exact
    cases first : operand.field.settle table ⟨sectionId, index, operand.offset⟩ with
    | error halt => simp [settleOperands, first] at settles
    | ok value =>
      rw [settleOperands_cons first] at settles
      obtain ⟨rfl, clean⟩ := Prod.mk.inj settles
      have linked := @Field.settle_link table address operand.field value _ first freshFirst
        exactFirst
      rw [settleOperands_cons linked, ih (Prod.ext rfl clean) freshRest exactRest]
      rfl

/-- The fields of a body settle over the linked table as they do over the table, with their imports
linked. -/
theorem Body.settle_link {body settled : Body} {line : Int}
    (settles : body.settle table sectionId index line = (settled, none))
    (fresh : ∀ field ∈ body.fields, field.Fresh table)
    (exact : ∀ expr ∈ body.pending, table.Exact expr) :
    body.settle (table.link address) sectionId index line =
      (settled.link table address, none) := by
  cases body with
  | data items =>
    rw [Body.settle] at settles ⊢
    cases inner : settleItems table sectionId index 0 items with
    | mk items halt =>
      simp only [inner, Prod.mk.injEq] at settles
      obtain ⟨rfl, rfl⟩ := settles
      simp only [settleItems_link inner fresh exact]
      rfl
  | instruction code =>
    rw [Body.settle] at settles ⊢
    cases inner : settleOperands table sectionId index code.name 0 code.operands with
    | mk operands halt =>
      simp only [inner, Prod.mk.injEq] at settles
      obtain ⟨rfl, rfl⟩ := settles
      simp only [settleOperands_link inner fresh exact]
      rfl
  | branch jump =>
    rw [Body.settle, Branch.settle] at settles ⊢
    cases inner : jump.target.settle table ⟨sectionId, index, 0⟩ with
    | error halt => simp [inner] at settles
    | ok target =>
      simp only [inner, Prod.mk.injEq] at settles
      obtain ⟨rfl, _⟩ := settles
      have linked := @Field.settle_link table address jump.target target _ inner
        (fresh _ (List.mem_singleton.mpr rfl)) exact
      simp only [linked]
      rfl
  | leb128 integer =>
    rw [Body.settle, VariableInteger.settle] at settles ⊢
    dsimp only at settles ⊢
    split at settles
    · cases settles
    · next value inner =>
      -- An integer that settles has no symbol, so that nothing is linked in it.
      simp only [Prod.mk.injEq, Option.map_eq_none_iff] at settles
      obtain ⟨rfl, unsymbolic⟩ := settles
      have linked := @Field.settle_link table address _ value _ inner (by simp [Field.Fresh])
        (by simpa [Field.pending, Body.pending] using exact)
      rw [Field.link_of_local (by simp [unsymbolic])] at linked
      simp only [linked, unsymbolic]
      rfl
  | reserve | binary | align | org =>
    cases settles
    rfl

/-- If a field has an import and counts from its own position, it says from where. -/
def Field.Anchored (field : Field) (table : SymbolTable) : Prop :=
  field.symbol.any table.imports = true → field.ipRelative = true → field.origin.isSome = true

/-- Settling a field gives it the position that it counts from. -/
theorem Field.settle_anchored {field settled : Field} {site : Location}
    (settles : field.settle table site = .ok settled) (fresh : field.Fresh table) :
    settled.Anchored table := by
  intro imported relative
  cases already : field.settled with
  | true =>
    rw [Field.settle, already, if_pos rfl] at settles
    cases settles
    obtain ⟨id, known, isImport⟩ := (Option.any_eq_true _ _).mp imported
    rw [fresh already id known] at isImport
    cases isImport
  | false =>
    have same : settled.ipRelative = field.ipRelative := by
      rw [Field.settle, already, if_neg (by simp)] at settles
      obtain ⟨_, _, settles⟩ := exists_of_bind_ok settles
      obtain ⟨_, _, settles⟩ := exists_of_bind_ok settles
      cases settles
      rfl
    rw [Field.settle_ok already settles, ← same, relative]
    cases field.origin <;> rfl

/-- The fields of a body that was settled say where they count from. -/
theorem Body.settle_anchored {body settled : Body} {line : Int}
    (settles : body.settle table sectionId index line = (settled, none))
    (fresh : ∀ field ∈ body.fields, field.Fresh table) :
    ∀ field ∈ settled.fields, field.Anchored table := by
  have done := congrArg Prod.snd settles
  obtain rfl : _ = settled := congrArg Prod.fst settles
  intro field member
  cases body with
  | data items =>
    obtain ⟨source, site, among, settles⟩ := (settleItems_done done).2 field
      (DataItem.mem_fields.mp member)
    exact Field.settle_anchored settles (fresh source (DataItem.mem_fields.mpr among))
  | instruction code =>
    obtain ⟨operand, isOperand, rfl⟩ := List.mem_map.mp member
    obtain ⟨source, among, site, settles⟩ := (settleOperands_done done).2 operand isOperand
    exact Field.settle_anchored settles (fresh _ (List.mem_map_of_mem among))
  | branch jump =>
    obtain ⟨counted, _⟩ := Branch.settle_ok (Prod.ext rfl done)
    cases List.mem_singleton.mp member
    exact fun _ _ => Option.isSome_iff_exists.mpr ⟨_, counted⟩
  | leb128 integer =>
    obtain ⟨unsymbolic, _⟩ := VariableInteger.settle_ok (Prod.ext rfl done)
    obtain rfl : field = (integer.settle table sectionId index line).1.value :=
      List.mem_singleton.mp member
    exact fun imported => by simp [unsymbolic] at imported
  | reserve | binary | align | org => cases member

end

end Assembler
