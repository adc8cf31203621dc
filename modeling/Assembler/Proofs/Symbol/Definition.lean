import Assembler.Proofs.Symbol.Expansion

/-!
# What a definition changes

Giving a name its meaning changes one symbol, which had none (`define_ok`). An expression that does
not reach this symbol expands as it did (`expand_congr`).
-/

namespace Assembler

/-- A fold depends on its visits of the terms there are. -/
theorem foldlM_visit_congr {visit other : Term → Except Halt Expr} {terms : List Term}
    (alike : ∀ term ∈ terms, other term = visit term) (start : Expr) :
    terms.foldlM (fun sum term => (other term).map sum.add) start =
      terms.foldlM (fun sum term => (visit term).map sum.add) start := by
  induction terms generalizing start with
  | nil => rfl
  | cons first rest ih =>
    obtain ⟨here, there⟩ := List.forall_mem_cons.mp alike
    rw [List.foldlM_cons, List.foldlM_cons, here]
    congr 1
    funext next
    exact ih there next

namespace SymbolTable

variable {table after : SymbolTable}

/-- Tables that agree on the symbols that an expression reaches expand it alike. -/
theorem expandBelow_congr {depth : Nat} {opened : List SymbolId} {expr : Expr}
    (agree : ∀ id, table.Reaches expr id → after.get? id = table.get? id) :
    after.expandBelow depth opened expr = table.expandBelow depth opened expr := by
  induction depth using Nat.strongRecOn generalizing opened expr with
  | ind depth ih =>
    rw [expandBelow_eq, expandBelow_eq]
    refine foldlM_visit_congr (fun term member => ?_) _
    obtain ⟨coefficient, base⟩ := term
    cases base with
    | place location => rfl
    | symbol id =>
      have mentioned : expr.Mentions id := ⟨_, member, rfl⟩
      have same := agree id ⟨id, mentioned, .refl⟩
      cases found : table.get? id with
      | none => simp only [expandTerm, same, found]
      | some symbol =>
        rw [found] at same
        cases means : symbol.meaning with
        | undefined | imported | label => simp only [expandTerm, same, found, means]
        | equ body =>
          by_cases isOpen : id ∈ opened
          · simp only [expandTerm, same, found, means, if_pos isOpen]
          · cases depth with
            | zero => simp only [expandTerm, same, found, means]
            | succ below =>
              rw [expandTerm_equ found means isOpen, expandTerm_equ same means isOpen,
                ih below (Nat.lt_succ_self below)
                  fun other reaches => agree other (reaches.of_body mentioned found means)]

/-- A table that grows expands alike what reaches nothing new. -/
theorem expand_congr {expr : Expr} (grows : table.symbols.length ≤ after.symbols.length)
    (agree : ∀ id, table.Reaches expr id → after.get? id = table.get? id) :
    after.expand expr = table.expand expr := by
  rw [expand, expandBelow_congr agree]
  exact expandBelow_depth table.opened_nil grows expr

/-- Numbers of symbols count from one. -/
theorem get?_succ (table : SymbolTable) (index : Nat) :
    table.get? ((index : Int) + 1) = table.symbols[index]? := rfl

/-- Other numbers are those of no symbol, whatever the table. -/
theorem exists_index_or_none (id : SymbolId) :
    (∃ index : Nat, id = (index : Int) + 1) ∨ ∀ table : SymbolTable, table.get? id = none := by
  cases id with
  | negSucc _ => exact .inr fun _ => rfl
  | ofNat number =>
    cases number with
    | zero => exact .inr fun _ => rfl
    | succ index => exact .inl ⟨index, rfl⟩

/-- A symbol that is replaced leaves the others as they are. -/
theorem get?_set {id : SymbolId} {old : Symbol} (found : table.get? id = some old) (new : Symbol) :
    (table.set id new).get? id = some new ∧
      ∀ other, other ≠ id → (table.set id new).get? other = table.get? other := by
  obtain ⟨index, inRange, rfl⟩ := get?_bounds found
  constructor
  · exact List.getElem?_set_self inRange
  · intro other different
    rcases exists_index_or_none other with ⟨place, rfl⟩ | absent
    · refine List.getElem?_set_ne fun same => different ?_
      rw [← same]
      rfl
    · rw [absent, absent]

/-- A name that is found has a symbol. -/
theorem exists_of_find? {name : String} {id : SymbolId} (found : table.find? name = some id) :
    ∃ symbol, table.get? id = some symbol := by
  unfold find? at found
  cases place : table.symbols.findIdx? (fun symbol => symbol.name == name) with
  | none => simp [place] at found
  | some index =>
    obtain ⟨inRange, _⟩ := List.findIdx?_eq_some_iff_getElem.mp place
    rw [place] at found
    cases found
    exact ⟨table.symbols[index], List.getElem?_eq_getElem inRange⟩

/-- A name has a symbol once it is interned: the one that it had, or a new one without a meaning. -/
theorem intern_ok {name : String} {id : SymbolId} (interned : table.intern name = (after, id)) :
    (∃ symbol, after.get? id = some symbol) ∧
      table.symbols.length ≤ after.symbols.length ∧
      (∀ symbol, table.get? id = some symbol → after.get? id = some symbol) ∧
      ∀ other, other ≠ id → after.get? other = table.get? other := by
  unfold intern at interned
  cases found : table.find? name with
  | some known =>
    rw [found] at interned
    cases interned
    exact ⟨exists_of_find? found, Nat.le_refl _, fun _ same => same, fun _ _ => rfl⟩
  | none =>
    rw [found] at interned
    cases interned
    refine ⟨⟨{ name }, List.getElem?_concat_length⟩, by simp, ?_, ?_⟩
    · intro symbol there
      obtain ⟨index, inRange, same⟩ := get?_bounds there
      have same : (table.symbols.length : Int) + 1 = index + 1 := same
      omega
    · intro other different
      rcases exists_index_or_none other with ⟨index, rfl⟩ | absent
      · have outside : index ≠ table.symbols.length := by
          rintro rfl
          exact different rfl
        rw [get?_succ, get?_succ, List.getElem?_append]
        split
        · rfl
        · rw [List.getElem?_eq_none (by simp only [List.length_singleton]; omega),
            List.getElem?_eq_none (by omega)]
      · rw [absent, absent]

/-- A definition that is not refused gives the name its meaning. It had none, and no other symbol
changes. -/
theorem define_ok {name : String} {meaning : Meaning} {line : Int} {id : SymbolId}
    (success : table.define name meaning line = (after, id, none)) :
    after.get? id = some { name, meaning, line } ∧
      table.symbols.length ≤ after.symbols.length ∧
      (∀ symbol, table.get? id = some symbol → symbol.meaning = .undefined) ∧
      ∀ other, other ≠ id → after.get? other = table.get? other := by
  unfold define at success
  cases named : table.intern name with
  | mk interned number =>
    obtain ⟨⟨symbol, found⟩, grows, known, others⟩ := intern_ok named
    simp only [named, found] at success
    split at success
    · next undefined =>
      cases success
      obtain ⟨here, elsewhere⟩ := get?_set found { name, meaning, line }
      refine ⟨here, by simpa [set] using grows, ?_, ?_⟩
      · intro before there
        rw [known before there, Option.some.injEq] at found
        rwa [found]
      · intro other different
        rw [elsewhere other different, others other different]
    · cases success

end SymbolTable

end Assembler
