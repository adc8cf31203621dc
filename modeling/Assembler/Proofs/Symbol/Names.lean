import Assembler.Proofs.Symbol.Definition

/-!
# Names and numbers

A name is found by the first symbol that has it. The symbols of a table only ever become more, keep
their names and, once they have one, their meanings (`SymbolTable.Lasts`). So a name that is found
keeps its number. In a table without repeated names (`SymbolTable.Distinct`) names and numbers are
each other's inverse (`Distinct.find?_eq_some_iff`), and the operations keep such a table one.
-/

namespace Assembler.SymbolTable

variable {table middle after : SymbolTable} {name : String} {id : SymbolId}

/-- A name is found by the first symbol that has it. -/
theorem find?_eq_some_iff_first :
    table.find? name = some id ↔ ∃ (index : Nat) (symbol : Symbol), id = (index : Int) + 1 ∧
      table.get? ((index : Int) + 1) = some symbol ∧ symbol.name = name ∧
      ∀ earlier < index, ∀ other, table.get? ((earlier : Int) + 1) = some other →
        other.name ≠ name := by
  have at_place : table.find? name = some id ↔ ∃ index : Nat,
      (table.symbols.findIdx? fun symbol => symbol.name == name) = some index ∧
        id = (index : Int) + 1 := by
    unfold find?
    cases table.symbols.findIdx? fun symbol => symbol.name == name <;> simp [eq_comm]
  simp only [at_place, List.findIdx?_eq_some_iff_getElem, beq_iff_eq, get?_succ]
  constructor
  · rintro ⟨index, ⟨inRange, named, first⟩, rfl⟩
    refine ⟨index, _, rfl, List.getElem?_eq_getElem inRange, named, ?_⟩
    intro earlier before other there
    obtain ⟨_, rfl⟩ := List.getElem?_eq_some_iff.mp there
    exact first earlier before
  · rintro ⟨index, symbol, rfl, found, named, first⟩
    obtain ⟨inRange, rfl⟩ := List.getElem?_eq_some_iff.mp found
    refine ⟨index, ⟨inRange, named, fun earlier before => ?_⟩, rfl⟩
    exact first earlier before _ (List.getElem?_eq_getElem _)

/-- A name is unknown if no symbol has it. -/
theorem find?_eq_none_iff :
    table.find? name = none ↔ ∀ symbol ∈ table.symbols, symbol.name ≠ name := by
  have absent := @List.findIdx?_eq_none_iff _ table.symbols fun symbol => symbol.name == name
  simp only [beq_eq_false_iff_ne] at absent
  rw [← absent, find?]
  cases table.symbols.findIdx? fun symbol => symbol.name == name <;> simp

/-- The symbol of a name that is found has that name. -/
theorem exists_named_of_find? (found : table.find? name = some id) :
    ∃ symbol, table.get? id = some symbol ∧ symbol.name = name := by
  obtain ⟨index, symbol, rfl, holds, named, _⟩ := find?_eq_some_iff_first.mp found
  exact ⟨symbol, holds, named⟩

/-- A symbol that is found by its name has that name. -/
theorem nameOf_of_find? (found : table.find? name = some id) : table.nameOf id = name := by
  obtain ⟨symbol, holds, named⟩ := exists_named_of_find? found
  rw [nameOf, holds, ← named]
  rfl

/-- No symbol has the number zero. -/
theorem ne_zero_of_find? (found : table.find? name = some id) : id ≠ 0 := by
  obtain ⟨index, _, rfl, _⟩ := find?_eq_some_iff_first.mp found
  exact Nat.cast_add_one_ne_zero index

/-- The numbers of symbols go from one up to how many there are. -/
theorem exists_get?_iff {number : Int} :
    (∃ symbol, table.get? number = some symbol) ↔ 1 ≤ number ∧ number ≤ table.symbols.length := by
  constructor
  · rintro ⟨symbol, found⟩
    obtain ⟨index, inRange, same⟩ := get?_bounds found
    have same : number = (index : Int) + 1 := same
    omega
  · rintro ⟨low, high⟩
    obtain ⟨index, rfl⟩ : ∃ index : Nat, number = (index : Int) + 1 :=
      ⟨(number - 1).toNat, by omega⟩
    exact ⟨_, List.getElem?_eq_getElem (by omega : index < table.symbols.length)⟩

/-! ### Symbols last -/

/-- A later table has the symbols of an earlier one under their numbers and names, and with their
meanings and lines if they have any. -/
def Lasts (table after : SymbolTable) : Prop :=
  ∀ id symbol, table.get? id = some symbol → ∃ late, after.get? id = some late ∧
    late.name = symbol.name ∧ (symbol.meaning ≠ .undefined → late = symbol)

namespace Lasts

theorem refl (table : SymbolTable) : table.Lasts table :=
  fun _ symbol found => ⟨symbol, found, rfl, fun _ => rfl⟩

theorem trans (first : table.Lasts middle) (second : middle.Lasts after) : table.Lasts after := by
  intro id symbol found
  obtain ⟨between, foundBetween, sameName, same⟩ := first id symbol found
  obtain ⟨late, foundLate, lateName, stays⟩ := second id between foundBetween
  refine ⟨late, foundLate, lateName.trans sameName, fun defined => ?_⟩
  obtain rfl := same defined
  exact stays defined

/-- Names keep their symbols. -/
theorem find? (lasts : table.Lasts after) (found : table.find? name = some id) :
    after.find? name = some id := by
  rw [find?_eq_some_iff_first] at found ⊢
  obtain ⟨index, symbol, rfl, holds, named, first⟩ := found
  obtain ⟨late, holdsLate, lateName, _⟩ := lasts _ symbol holds
  refine ⟨index, late, rfl, holdsLate, lateName.trans named, fun earlier before other there => ?_⟩
  -- The symbols before it are those of the earlier table, under their names.
  have holds : table.symbols[index]? = some symbol := holds
  have inRange : earlier < table.symbols.length :=
    Nat.lt_trans before (List.getElem?_eq_some_iff.mp holds).1
  have early : table.get? ((earlier : Int) + 1) = some table.symbols[earlier] :=
    List.getElem?_eq_getElem inRange
  obtain ⟨same, isSame, sameName, _⟩ := lasts _ _ early
  obtain rfl := Option.some.inj (isSame.symm.trans there)
  rw [sameName]
  exact first earlier before _ early

/-- Symbols keep the meanings that they have. -/
theorem meaning (lasts : table.Lasts after) {symbol : Symbol} (found : table.get? id = some symbol)
    (defined : symbol.meaning ≠ .undefined) : after.get? id = some symbol := by
  obtain ⟨late, foundLate, _, same⟩ := lasts id symbol found
  rw [foundLate, same defined]

end Lasts

/-- A new name leaves the table as it is otherwise. -/
theorem lasts_intern (table : SymbolTable) (name : String) :
    table.Lasts (table.intern name).1 := by
  obtain ⟨_, _, known, others⟩ :=
    @intern_ok table (table.intern name).1 name (table.intern name).2 rfl
  intro id symbol found
  refine ⟨symbol, ?_, rfl, fun _ => rfl⟩
  by_cases own : id = (table.intern name).2
  · subst own
    exact known symbol found
  · rw [others id own, found]

/-- A name has the number that it was interned under. -/
theorem find?_intern (table : SymbolTable) (name : String) :
    (table.intern name).1.find? name = some (table.intern name).2 := by
  unfold intern
  split
  · next id found => exact found
  · next absent =>
    rw [find?_eq_some_iff_first]
    refine ⟨table.symbols.length, { name }, rfl, List.getElem?_concat_length, rfl, ?_⟩
    intro earlier before other there
    rw [get?_succ, List.getElem?_append_left before] at there
    exact find?_eq_none_iff.mp absent other (List.mem_of_getElem? there)

/-- A definition that is accepted was one of a name without a meaning, which now has it. -/
theorem define_accepted {meaning : Meaning} {line : Int}
    (accepted : table.define name meaning line = (after, id, none)) :
    table.Lasts after ∧ after.find? name = some id ∧
      after.get? id = some { name, meaning, line } := by
  unfold define at accepted
  cases interned : table.intern name with | mk named number =>
  have found := table.find?_intern name
  have lasts := table.lasts_intern name
  rw [interned] at found lasts
  obtain ⟨symbol, holds, sameName⟩ := exists_named_of_find? found
  simp only [interned, holds] at accepted
  split at accepted
  · next undefined =>
    cases accepted
    obtain ⟨own, others⟩ := get?_set holds { name, meaning, line }
    have defines : named.Lasts (named.set id { name, meaning, line }) := by
      intro other old there
      by_cases same : other = id
      · subst same
        obtain rfl := Option.some.inj (holds.symm.trans there)
        exact ⟨_, own, sameName.symm, fun meant => absurd undefined meant⟩
      · exact ⟨old, (others other same).trans there, rfl, fun _ => rfl⟩
    exact ⟨lasts.trans defines, defines.find? found, own⟩
  · cases accepted

/-- A definition is refused if the name has a meaning already, and then changes nothing. -/
theorem define_refused_iff {meaning : Meaning} {line : Int} {error : Error} :
    table.define name meaning line = (after, id, some error) ↔
      after = table ∧ table.find? name = some id ∧ ∃ symbol, table.get? id = some symbol ∧
        symbol.meaning ≠ .undefined ∧ error = .redefined name symbol.line := by
  unfold define intern
  cases found : table.find? name with
  | some known =>
    obtain ⟨symbol, holds, _⟩ := exists_named_of_find? found
    simp only [holds]
    split
    · next undefined =>
      simp only [Prod.mk.injEq, reduceCtorEq, and_false, false_iff, not_and, not_exists]
      rintro _ same other there defined
      obtain rfl := Option.some.inj same
      obtain rfl := Option.some.inj (holds.symm.trans there)
      exact absurd undefined defined
    · next defined =>
      constructor
      · rintro ⟨⟩
        exact ⟨rfl, rfl, symbol, holds, defined, rfl⟩
      · rintro ⟨rfl, same, other, there, _, rfl⟩
        obtain rfl := Option.some.inj same
        obtain rfl := Option.some.inj (holds.symm.trans there)
        rfl
  | none =>
    have new : get? ⟨table.symbols ++ [({ name } : Symbol)]⟩ ((table.symbols.length : Int) + 1) =
        some { name } := List.getElem?_concat_length
    simp [new]

/-- A definition leaves other symbols as they are. -/
theorem lasts_define (table : SymbolTable) (name : String) (meaning : Meaning) (line : Int) :
    table.Lasts (table.define name meaning line).1 := by
  cases defined : table.define name meaning line with | mk after result =>
  obtain ⟨id, error⟩ := result
  cases error with
  | none => exact (define_accepted defined).1
  | some error =>
    obtain ⟨rfl, _⟩ := define_refused_iff.mp defined
    exact .refl _

/-! ### Distinct names -/

/-- No two symbols have one name. -/
def Distinct (table : SymbolTable) : Prop := (table.symbols.map Symbol.name).Nodup

namespace Distinct

/-- Names and numbers are each other's inverse. -/
theorem find?_eq_some_iff (distinct : table.Distinct) :
    table.find? name = some id ↔ ∃ symbol, table.get? id = some symbol ∧ symbol.name = name := by
  constructor
  · exact exists_named_of_find?
  · rintro ⟨symbol, found, named⟩
    obtain ⟨index, inRange, rfl⟩ := get?_bounds found
    refine find?_eq_some_iff_first.mpr ⟨index, symbol, rfl, found, named, ?_⟩
    rintro earlier before other there sameName
    have apart := List.pairwise_map.mp distinct
    rw [List.pairwise_iff_getElem] at apart
    obtain ⟨here, rfl⟩ := List.getElem?_eq_some_iff.mp there
    obtain ⟨_, rfl⟩ := List.getElem?_eq_some_iff.mp found
    exact apart earlier index here inRange before (sameName.trans named.symm)

/-- A new name is no second one. -/
theorem intern (distinct : table.Distinct) (name : String) : (table.intern name).1.Distinct := by
  unfold SymbolTable.intern
  split
  · exact distinct
  · next absent =>
    rw [Distinct, List.map_append, List.nodup_append]
    refine ⟨distinct, by simp, ?_⟩
    rintro old isOld new isNew rfl
    obtain ⟨symbol, member, sameName⟩ := List.mem_map.mp isOld
    exact find?_eq_none_iff.mp absent symbol member (sameName.trans (List.mem_singleton.mp isNew))

/-- A symbol may be replaced by one of the same name. -/
theorem set (distinct : table.Distinct) {old new : Symbol} (found : table.get? id = some old)
    (sameName : new.name = old.name) : (table.set id new).Distinct := by
  obtain ⟨index, inRange, rfl⟩ := get?_bounds found
  obtain ⟨_, rfl⟩ := List.getElem?_eq_some_iff.mp found
  have same : (table.symbols.set index new).map Symbol.name = table.symbols.map Symbol.name := by
    rw [List.map_set, sameName, ← List.getElem_map Symbol.name, List.set_getElem_self]
    simpa using inRange
  exact (congrArg List.Nodup same).mpr distinct

/-- A definition brings in no second name. -/
theorem define (distinct : table.Distinct) (name : String) (meaning : Meaning) (line : Int) :
    (table.define name meaning line).1.Distinct := by
  have kept := distinct.intern name
  unfold SymbolTable.define
  obtain ⟨symbol, holds, named⟩ := exists_named_of_find? (table.find?_intern name)
  simp only [holds]
  split
  · exact kept.set holds named.symm
  · exact kept

end Distinct

end Assembler.SymbolTable
