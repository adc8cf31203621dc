import Assembler.Proofs.Relaxation.Coherence
import Assembler.Section.Layout

/-!
# What preparing chunks gives

`prepare_ok` takes a successful preparation apart: the body is settled, the number of copies is
found (`initialCopies_ok`) and the body is measured (`Body.Measured`). `prepare_failed` says which
of these fails otherwise, and `prepareAll_eq` lists the chunks, spans and problems of a whole
section.
-/

namespace Assembler

variable {chunk : Chunk} {body : Body}

variable {table : SymbolTable} {sectionId index : Nat} {copies : Int64} {counted : Bool}
  {measure : Measure}

/-- A context changes nothing about a computation that succeeds. -/
theorem Halt.eq_ok_of_wrap {α : Type} {context : Error → Error} {result : Except Halt α} {value : α}
    (wraps : Halt.wrap context result = .ok value) : result = .ok value := by
  cases result with
  | error halt => cases wraps
  | ok other => exact wraps

/-- A chunk that is prepared is settled, counted and measured. -/
theorem prepare_ok {prepared : Chunk} {spans : List Span}
    (success : chunk.prepare table sectionId index = (prepared, .ok spans)) :
    ∃ body copies countSpan measure,
      chunk.body.settle table sectionId index chunk.line = (body, none) ∧
      chunk.initialCopies table sectionId index = .ok (copies, countSpan) ∧
      body.measure table index chunk.repeats.isSome copies = .ok measure ∧
      prepared =
        { chunk with
          body := measure.body
          slot :=
            { length := measure.length, copies, near := measure.near, setter := measure.setter } } ∧
      spans = countSpan.toList ++ measure.span.toList := by
  unfold Chunk.prepare at success
  cases settled : chunk.body.settle table sectionId index chunk.line with
  | mk body halt =>
    cases halt with
    | some halt => simp [settled] at success
    | none =>
      cases counted : chunk.initialCopies table sectionId index with
      | error halt => simp [settled, counted] at success
      | ok count =>
        obtain ⟨copies, countSpan⟩ := count
        cases measured : body.measure table index chunk.repeats.isSome copies with
        | error halt => simp [settled, counted, measured] at success
        | ok measure =>
          simp only [settled, counted, measured, Prod.mk.injEq, Except.ok.injEq] at success
          exact ⟨body, copies, countSpan, measure, rfl, rfl, measured, success.1.symm,
            success.2.symm⟩

/-- The problem of a chunk that work on it stopped for. -/
def Halt.problem? : Halt → Option Error
  | .problem error => some error
  | .dangling _ => none

/-- Preparing a chunk fails when its body cannot be settled, its copies not be counted or its body
not be measured. The chunk gets the problem, and keeps its form. -/
theorem prepare_failed {prepared : Chunk} {halt : Halt}
    (fails : chunk.prepare table sectionId index = (prepared, .error halt)) :
    ∃ copies, prepared =
        { chunk with
          body := (chunk.body.settle table sectionId index chunk.line).1
          slot := { near := chunk.slot.near, copies, error := halt.problem? } } ∧
      (copies = 1 ∧ ((chunk.body.settle table sectionId index chunk.line).2 = some halt ∨
          chunk.initialCopies table sectionId index = .error halt) ∨
        ∃ span, (chunk.body.settle table sectionId index chunk.line).2 = none ∧
          chunk.initialCopies table sectionId index = .ok (copies, span) ∧
          (chunk.body.settle table sectionId index chunk.line).1.measure table index
            chunk.repeats.isSome copies = .error halt) := by
  unfold Chunk.prepare at fails
  cases settled : chunk.body.settle table sectionId index chunk.line with
  | mk body stopped =>
    rw [settled] at fails
    cases stopped with
    | some stop =>
      cases fails
      cases halt <;> exact ⟨1, rfl, .inl ⟨rfl, .inl rfl⟩⟩
    | none =>
      cases counted : chunk.initialCopies table sectionId index with
      | error stop =>
        rw [counted] at fails
        cases fails
        cases halt <;> exact ⟨1, rfl, .inl ⟨rfl, .inr rfl⟩⟩
      | ok count =>
        rw [counted] at fails
        cases measured : body.measure table index chunk.repeats.isSome count.1 with
        | error stop =>
          simp only [measured] at fails
          cases fails
          cases halt <;> exact ⟨count.1, rfl, .inr ⟨count.2, rfl, rfl, measured⟩⟩
        | ok measure =>
          simp only [measured] at fails
          cases fails

namespace Chunk

/-- The spans that preparing a chunk registers. -/
def preparedSpans (chunk : Chunk) (table : SymbolTable) (sectionId index : Nat) : List Span :=
  (chunk.prepare table sectionId index).2.toOption.getD []

/-- Why a chunk cannot be prepared. -/
def preparationProblem (chunk : Chunk) (table : SymbolTable) (sectionId index : Nat) :
    Option Error :=
  match (chunk.prepare table sectionId index).2 with
  | .error (.problem error) => some error
  | _ => none

/-- A span that is registered comes from a successful preparation. -/
theorem prepare_of_mem_preparedSpans {span : Span}
    (member : span ∈ chunk.preparedSpans table sectionId index) :
    ∃ prepared spans, chunk.prepare table sectionId index = (prepared, .ok spans) ∧
      span ∈ spans := by
  unfold preparedSpans at member
  cases result : chunk.prepare table sectionId index with
  | mk prepared spans =>
    cases spans with
    | error halt => simp [result, Except.toOption] at member
    | ok spans => exact ⟨prepared, spans, rfl, by simpa [result, Except.toOption] using member⟩

end Chunk

/-- The chunks, spans and problems of a section whose chunks were prepared in order. -/
theorem prepareAll_eq {start : Nat} {chunks : List Chunk} {prepared : Prepared}
    (success : prepareAll table sectionId start chunks = .ok prepared) :
    prepared.chunks =
        (chunks.zipIdx start).map (fun (chunk, index) => (chunk.prepare table sectionId index).1) ∧
      prepared.spans =
        (chunks.zipIdx start).flatMap
          (fun (chunk, index) => chunk.preparedSpans table sectionId index) ∧
      prepared.problems =
        (chunks.zipIdx start).filterMap
          (fun (chunk, index) => (chunk.preparationProblem table sectionId index).map
            fun error => { index := some index, error }) := by
  induction chunks generalizing start prepared with
  | nil =>
    simp only [prepareAll, Except.ok.injEq] at success
    subst success
    exact ⟨rfl, rfl, rfl⟩
  | cons chunk rest ih =>
    cases result : chunk.prepare table sectionId start with
    | mk changed outcome =>
      cases others : prepareAll table sectionId (start + 1) rest with
      | error reference =>
        rcases outcome with (_ | _) | _ <;>
          simp [prepareAll, result, others, bind, Except.bind] at success
      | ok following =>
        obtain ⟨sameChunks, sameSpans, sameProblems⟩ := ih others
        rcases outcome with (reference | error) | spans
        · simp [prepareAll, result] at success
        all_goals
          simp only [prepareAll, result, others, bind, Except.bind, pure, Except.pure,
            Except.ok.injEq] at success
          subst success
          simp [List.zipIdx_cons, result, sameChunks, sameSpans, sameProblems,
            Chunk.preparedSpans, Chunk.preparationProblem, Except.toOption]

/-- Settling the fields of a body does not change its kind. -/
@[simp] theorem Body.settle_kind (body : Body) (table : SymbolTable) (sectionId index : Nat)
    (line : Int) : (body.settle table sectionId index line).1.kind = body.kind := by
  cases body <;> rfl

/-- Settling keeps the kind of a body. -/
theorem Body.kind_of_settle {settled : Body} {line : Int} {halt : Option Halt}
    (settles : body.settle table sectionId index line = (settled, halt)) :
    settled.kind = body.kind := by
  rw [← Body.settle_kind body table sectionId index line, settles]

/-- How a number of copies is found: there is no repeat count, it is a constant, or it is a distance
that starts at zero and is watched. -/
theorem initialCopies_ok {span : Option Span}
    (success : chunk.initialCopies table sectionId index = .ok (copies, span)) :
    (chunk.repeats = none ∧ copies = 1 ∧ span = none) ∨
      ∃ count expanded, chunk.repeats = some count ∧ chunk.kind.role ≠ .offsetSetter ∧
        table.expand count = .ok expanded ∧
        ((expanded.isConstant = true ∧ isWord expanded.constant = true ∧ 0 ≤ expanded.constant ∧
            copies = Int64.ofInt expanded.constant ∧ span = none) ∨
          (expanded.isConstant = false ∧ expanded.isDistance sectionId = true ∧
            expanded.encloses index = false ∧ copies = 0 ∧
            span = some
              { index
                purpose := .copies
                field := { expr := expanded, line := chunk.line } })) := by
  unfold Chunk.initialCopies at success
  cases counted : chunk.repeats with
  | none =>
    simp only [counted, Except.ok.injEq, Prod.mk.injEq] at success
    exact .inl ⟨rfl, success.1.symm, success.2.symm⟩
  | some count =>
    right
    by_cases setter : chunk.kind.role = .offsetSetter
    · simp [counted, setter] at success
    · cases expansion : table.expand count with
      | error halt => simp [counted, setter, expansion, Halt.wrap, bind, Except.bind] at success
      | ok expanded =>
        refine ⟨count, expanded, rfl, setter, expansion, ?_⟩
        simp only [counted, setter, if_false, expansion, Halt.wrap, bind, Except.bind] at success
        cases constant : expanded.isConstant with
        | true =>
          simp only [constant, if_true] at success
          split at success
          · cases success
          · next word =>
            split at success
            · cases success
            · next positive =>
              simp only [pure, Except.pure, Except.ok.injEq, Prod.mk.injEq] at success
              exact .inl ⟨rfl, by simpa using word, Int.not_lt.mp positive, success.1.symm,
                success.2.symm⟩
        | false =>
          simp only [constant, Bool.false_eq_true, if_false] at success
          split at success
          · cases success
          · next inside =>
            split at success
            · cases success
            · next outside =>
              simp only [pure, Except.pure, Except.ok.injEq, Prod.mk.injEq] at success
              exact .inr ⟨rfl, by simpa using inside, by simpa using outside, success.1.symm,
                success.2.symm⟩

/-- The measure of a branch: near, or short with or without a span. -/
theorem Branch.measure_ok {branch : Branch}
    (success : branch.measure index counted copies = .ok measure) :
    branch.nearWidth ≠ 0 ∧ branch.nearWidth % 8 = 0 ∧ measure.body = .branch branch ∧
      measure.setter = none ∧
      ((measure.near = true ∧ measure.length = branch.nearLength ∧ measure.span = none) ∨
        (measure.near = false ∧ measure.length = branch.shortLength ∧ branch.short.isSome ∧
          ((branch.form = .short ∧ measure.span = none) ∨
            (branch.form = .auto ∧ (counted = true → copies ≠ 0) ∧
              measure.span = some
                { index
                  purpose := .branch branch.nearLength
                  field := branch.target
                  low := -128 + branch.shortLength.toInt64 * max 1 copies
                  high := 127 + branch.shortLength.toInt64 })))) := by
  unfold Branch.measure at success
  split at success
  case isTrue unusable => cases success
  case isFalse usable =>
    simp only [Bool.or_eq_true, decide_eq_true_eq, not_or, ne_eq, Decidable.not_not] at usable
    refine ⟨usable.1, usable.2, ?_⟩
    cases form : branch.form with
    | near =>
      simp only [form, Except.ok.injEq] at success
      subst success
      exact ⟨rfl, rfl, .inl ⟨rfl, rfl, rfl⟩⟩
    | short =>
      cases short : branch.short with
      | none =>
        simp only [form, short, Option.isNone_none, if_true, Except.ok.injEq] at success
        subst success
        exact ⟨rfl, rfl, .inl ⟨rfl, rfl, rfl⟩⟩
      | some opcode =>
        simp only [form, short, Option.isNone_some, Bool.false_eq_true, if_false,
          Except.ok.injEq] at success
        subst success
        exact ⟨rfl, rfl, .inr ⟨rfl, rfl, rfl, .inl ⟨rfl, rfl⟩⟩⟩
    | auto =>
      simp only [form] at success
      split at success
      · simp only [Except.ok.injEq] at success
        subst success
        exact ⟨rfl, rfl, .inl ⟨rfl, rfl, rfl⟩⟩
      · next open_ =>
        simp only [Bool.or_eq_true, Bool.and_eq_true, decide_eq_true_eq, not_or, not_and,
          Option.isNone_iff_eq_none, ← ne_eq] at open_
        simp only [Except.ok.injEq] at success
        subst success
        exact ⟨rfl, rfl, .inr ⟨rfl, rfl, Option.isSome_iff_ne_none.mpr open_.1,
          .inr ⟨rfl, open_.2, rfl⟩⟩⟩

/-- What a measure can be, by what the body holds. -/
inductive Body.Measured (table : SymbolTable) (index : Nat) (counted : Bool) (copies : Int64) :
    Body → Measure → Prop where
  | data {items : List DataItem} {length : UInt64} (sized : measureItems items = .ok length) :
      Measured table index counted copies (.data items) { length, body := .data items }
  | constant {integer : VariableInteger} (known : integer.value.isConstant = true) :
      Measured table index counted copies (.leb128 integer)
        { length := UInt64.ofNat (Leb128.size integer.value.expr.constant integer.signed)
          body := .leb128 integer }
  | deferred {integer : VariableInteger} (unknown : integer.value.isConstant = false) :
      Measured table index counted copies (.leb128 integer)
        { length := 1
          body := .leb128 integer
          span := some { index, purpose := .leb128 integer.signed, field := integer.value } }
  | reserve {count : Expr} {itemSize items : UInt64}
      (found : table.naturalWord .reserveCount count = .ok items) :
      Measured table index counted copies (.reserve count itemSize)
        { length := items * itemSize, body := .reserve count itemSize }
  | binary {part : Binary} {skip length : Nat} (window : part.window table = .ok (skip, length)) :
      Measured table index counted copies (.binary part)
        { length := UInt64.ofNat length, body := .binary { part with skip } }
  | align {padding : Align} {setter : Setter} (rule : padding.setter table = .ok setter) :
      Measured table index counted copies (.align padding)
        { length := 0, body := .align padding, setter := some setter }
  | org {padding : Org} {start : UInt64}
      (found : table.naturalWord .origin padding.start = .ok start) :
      Measured table index counted copies (.org padding)
        { length := 0, body := .org padding, setter := some (.origin start) }
  | instruction {code : Instruction}
      (inside : checkOperands code.name code.bytes.length 0 code.operands = none) :
      Measured table index counted copies (.instruction code)
        { length := UInt64.ofNat code.bytes.length, body := .instruction code }
  | branch {jump : Branch} {measure : Measure}
      (chosen : jump.measure index counted copies = .ok measure) :
      Measured table index counted copies (.branch jump) measure

/-- A body that is measured has one of the measures listed. -/
theorem Body.measured_of_ok
    (success : body.measure table index counted copies = .ok measure) :
    body.Measured table index counted copies measure := by
  unfold Body.measure at success
  cases body with
  | data items =>
    cases sized : measureItems items <;>
      simp only [sized, bind, Except.bind, pure, Except.pure, reduceCtorEq, Except.ok.injEq]
        at success
    exact success ▸ .data sized
  | leb128 integer =>
    cases known : integer.value.isConstant <;>
      simp only [known, Bool.false_eq_true, if_false, if_true, Except.ok.injEq] at success
    · exact success ▸ .deferred known
    · exact success ▸ .constant known
  | reserve count itemSize =>
    cases found : table.naturalWord .reserveCount count <;>
      simp only [found, bind, Except.bind, pure, Except.pure, reduceCtorEq, Except.ok.injEq]
        at success
    exact success ▸ .reserve found
  | binary part =>
    cases window : part.window table <;>
      simp only [window, bind, Except.bind, pure, Except.pure, reduceCtorEq, Except.ok.injEq]
        at success
    exact success ▸ .binary window
  | align padding =>
    cases rule : padding.setter table <;>
      simp only [rule, bind, Except.bind, pure, Except.pure, reduceCtorEq, Except.ok.injEq]
        at success
    exact success ▸ .align rule
  | org padding =>
    cases found : table.naturalWord .origin padding.start <;>
      simp only [found, bind, Except.bind, pure, Except.pure, reduceCtorEq, Except.ok.injEq]
        at success
    exact success ▸ .org found
  | instruction code =>
    cases inside : checkOperands code.name code.bytes.length 0 code.operands <;>
      simp only [inside, reduceCtorEq, Except.ok.injEq] at success
    exact success ▸ .instruction inside
  | branch jump => exact .branch success

/-- A measure keeps the body; only of a part of given bytes does it record where the part starts. -/
theorem Body.Measured.body_eq
    (measured : body.Measured table index counted copies measure) (other : body.kind ≠ .binary) :
    measure.body = body := by
  cases measured with
  | binary => exact absurd rfl other
  | branch chosen => exact (Branch.measure_ok chosen).2.2.1
  | data | constant | deferred | reserve | align | org | instruction => rfl

/-- Measuring keeps the kind of a body. -/
theorem Body.Measured.kind_eq
    (measured : body.Measured table index counted copies measure) :
    measure.body.kind = body.kind := by
  by_cases part : body.kind = .binary
  · cases measured with
    | binary => rfl
    | branch => cases part
    | _ => cases part
  · rw [measured.body_eq part]

end Assembler
