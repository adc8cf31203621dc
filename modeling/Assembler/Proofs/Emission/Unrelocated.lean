import Assembler.Proofs.Format.Placement

/-!
# Output without relocations

An output that allows no relocations stops at every field that has a symbol left. What it does not
stop at has no such field, and makes no relocations. So the output that allows them emits the same,
field by field (`Emission.Unrelocated`), and in the end section by section
(`Object.emitAll_unrelocated`).
-/

namespace Assembler

/-- An emission that nothing stops is the other one as well, and makes no relocations. -/
structure Emission.Unrelocated (left right : Emission) : Prop where
  bytes : left.bytes = right.bytes
  same : left.Silent → left = right ∧ left.relocs = []

/-- More reports leave emissions equal up to relocations. -/
theorem Emission.Unrelocated.report {left right : Emission} (related : left.Unrelocated right)
    (more : List Diagnostic) :
    Unrelocated { left with diagnostics := left.diagnostics ++ more }
      { right with diagnostics := right.diagnostics ++ more } := by
  refine ⟨related.bytes, fun silent => ?_⟩
  obtain ⟨rfl, none⟩ := related.same fun diagnostic member =>
    silent diagnostic (List.mem_append_left _ member)
  exact ⟨rfl, none⟩

/-- To be equal up to relocations is a congruence. -/
theorem Emission.Congruence.unrelocated :
    Emission.Congruence fun _ => Emission.Unrelocated where
  bytes related := related.bytes
  plain _ _ := ⟨rfl, fun _ => ⟨rfl, rfl⟩⟩
  append := by
    intro _ _ left right first second here later
    refine ⟨congrArg₂ List.append here.bytes later.bytes, fun silent => ?_⟩
    obtain ⟨silentHere, silentLater⟩ := Emission.silent_append.mp silent
    obtain ⟨rfl, none⟩ := here.same silentHere
    obtain ⟨rfl, noneLater⟩ := later.same silentLater
    exact ⟨rfl, List.append_eq_nil_iff.mpr ⟨none, noneLater⟩⟩
  emptied := by
    intro _ left right related
    refine ⟨rfl, fun silent => ?_⟩
    obtain ⟨rfl, none⟩ := related.same silent
    exact ⟨rfl, none⟩
  report := by
    intro _ left right related more
    exact related.report more
  stop := by
    intro _ left right related _ diagnostic _
    exact related.report [diagnostic]

namespace Object

variable {object : Object} {table : SymbolTable} {emission : Emission}

/-- Where relocations are not allowed, asking for one stops the output. -/
theorem relocate_stops (copy : CopySite) (field resolved : Field) (symbol : SymbolId)
    (offset : UInt64) (requests : List Request) (room : List UInt8) :
    Emission.Unrelocated
      (match (Output.standard table false).relocate resolved symbol offset with
      | .ok reloc => { bytes := room, requests, relocs := [reloc] }
      | .error error => { bytes := room, requests, diagnostics := [copy.report field error] })
      (match (Output.standard table true).relocate resolved symbol offset with
      | .ok reloc => { bytes := room, requests, relocs := [reloc] }
      | .error error => { bytes := room, requests, diagnostics := [copy.report field error] }) := by
  obtain ⟨error, refused, other⟩ :
      ∃ error, (Output.standard table false).relocate resolved symbol offset = .error error ∧
        Cause.valueOverflow ∉ error.causes := by
    simp only [Output.standard]
    split
    · exact ⟨_, rfl, by simp [Error.causes]⟩
    · exact ⟨_, rfl, by simp [Error.causes]⟩
  rw [refused]
  refine ⟨?_, fun silent => absurd (report_quiet (silent _ List.mem_cons_self)).1 other⟩
  cases (Output.standard table true).relocate resolved symbol offset <;> rfl

/-- A field that is not stopped is written, whether relocations are allowed or not. -/
theorem emitField_unrelocated (copy : CopySite) (offset : UInt64) (field : Field)
    (room : List UInt8) :
    Parallel Emission.Unrelocated
      (object.emitField (.standard table false) copy offset field room)
      (object.emitField (.standard table true) copy offset field room) := by
  cases known : field.symbol with
  | none =>
    have alike : object.emitField (.standard table true) copy offset field room =
        object.emitField (.standard table false) copy offset field room := by
      simp only [emitField, known]
      rfl
    rw [alike]
    cases written : object.emitField (.standard table false) copy offset field room with
    | error reference => exact .error reference
    | ok emission => exact .ok ⟨rfl, fun _ => ⟨rfl, emitField_relocs_of_none written known⟩⟩
  | some symbol =>
    unfold emitField
    refine (Parallel.of_eq rfl fun _ _ => rfl).bind fun sum _ same => ?_
    subst same
    simp only [known]
    refine (Parallel.of_eq rfl fun _ _ => rfl).bind fun start _ same => ?_
    subst same
    refine (Parallel.of_eq rfl fun _ _ => rfl).bind fun _ _ same => ?_
    cases field.origin with
    | none => exact .ok (relocate_stops ..)
    | some counted =>
      refine (Parallel.of_eq rfl fun _ _ => rfl).bind fun reached _ same => ?_
      subst same
      split
      · refine .ok ⟨rfl, fun silent => ?_⟩
        have quiet := report_quiet (silent _ (List.mem_singleton.mpr rfl))
        simp [Error.causes] at quiet
      · exact .ok (relocate_stops ..)

variable {sect : Section} {id : Nat}

/-- A section with a program has the same one, and leaves the same behind, if relocations are
allowed. Only those that the section has recorded already are in it. -/
theorem emitSection_unrelocated {emitted : Emitted} {program : Program}
    (found : object.sections[id]? = some sect)
    (success : object.emitSection (.standard table false) id = .ok emitted)
    (accepted : emitted.program = .ok program) :
    object.emitSection (.standard table true) id = .ok emitted ∧ program.relocs = sect.relocs := by
  obtain ⟨laidOut, sane, emission, emits, silent, relocs, _⟩ :=
    emitSection_ok found success accepted
  have parallel : Parallel Emission.Unrelocated
      (object.emitChunks (.standard table false) sect id (List.range sect.chunks.length))
      (object.emitChunks (.standard table true) sect id (List.range sect.chunks.length)) :=
    emitChunks_parallel .unrelocated rfl rfl rfl
      (fun index _ => emitChunk_parallel .unrelocated found found rfl rfl rfl
        fun chunk _ number _ => emitCopy_parallel .unrelocated
          (fun entry _ room => emitField_unrelocated _ entry.1 entry.2 room)
          fun _ _ => ⟨rfl, fun _ _ => ⟨rfl, fun _ => ⟨rfl, rfl⟩⟩⟩)
      fun _ _ _ _ => ⟨rfl, fun _ => ⟨rfl, rfl⟩⟩
  rw [emits] at parallel
  generalize made : object.emitChunks (.standard table true) sect id
    (List.range sect.chunks.length) = result at parallel
  obtain @⟨_, right, related⟩ := parallel
  obtain ⟨rfl, none⟩ := related.same silent
  rw [emitSection_eq _ found, emits] at success
  rw [emitSection_eq _ found, made]
  exact ⟨success, by rw [relocs, none]; rfl⟩

/-- Sections that all have a program have the same ones if relocations are allowed. -/
theorem emitEach_unrelocated {order : List Nat} {last : Object} {requests : List Request}
    {programs : List Program}
    (success : emitEach (.standard table false) order object =
      .ok (last, requests, programs, [])) :
    emitEach (.standard table true) order object = .ok (last, requests, programs, []) := by
  induction order generalizing object requests programs with
  | nil => exact success
  | cons id rest ih =>
    obtain ⟨emitted, emits, success⟩ := exists_of_bind_ok success
    obtain ⟨⟨final, more, later, errors⟩, continues, success⟩ := exists_of_bind_ok success
    dsimp only at success
    split at success
    · next program accepted =>
      cases success
      have here : object.emitSection (.standard table true) id = .ok emitted := by
        cases found : object.sections[id]? with
        | none =>
          rw [emitSection_missing _ found] at emits
          cases emits
        | some sect => exact (emitSection_unrelocated found emits accepted).1
      simp only [emitEach, here, ih continues, accepted, bind, Except.bind]
      rfl
    · cases success

/-- An object that is emitted without relocations is emitted alike if they are allowed. -/
theorem emitAll_unrelocated {order : List Nat} {last : Object} {programs : List Program}
    (success : object.emitAll (.standard table false) order = .ok (last, .ok programs)) :
    object.emitAll (.standard table true) order = .ok (last, .ok programs) := by
  obtain ⟨⟨final, requests, each, errors⟩, emits, success⟩ := exists_of_bind_ok success
  dsimp only at success
  split at success
  · cases success
  · next silent =>
    cases success
    rw [Error.all_eq_none_iff.mp silent] at emits silent
    simp only [emitAll, emitEach_unrelocated emits, silent, bind, Except.bind]
    rfl

end Object

end Assembler
