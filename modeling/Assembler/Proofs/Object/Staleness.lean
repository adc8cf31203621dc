import Assembler.Proofs.Layout.Wrapping
import Assembler.Proofs.Relayout.Definition
import Assembler.Proofs.Relayout.Rereading

/-!
# When a layout goes stale

A section that was laid out keeps its flag until a chunk is appended to it. Calls on the object that
come after its layout therefore have to leave the layout as it is. Names, labels and imports do, and
so do calls on other sections (`Current.after_call`). Two kinds of calls get in the way
(`Call.Disturbs`): one that changes a repeat count of the section, and an EQU for a name that the
section's expressions reach, although it has dropped out of their expansions. The section counts as
laid out after both, but is not what a layout makes of it (`laidOut_current_unless_disturbed`).
-/

namespace Assembler

/-- The calls that describe an object and lay it out. -/
inductive Call where
  | openSection (name : String)
  | append (id : Nat) (body : Body) (line : Int) (repeats : Option Expr)
  | setRepeats (id index : Nat) (repeats : Expr)
  | symbol (name : String)
  | defineLabel (id : Nat) (name : String) (line : Int)
  | defineEqu (name : String) (body : Expr) (line : Int)
  | declareExtern (name : String) (line : Int)
  | layoutSection (id : Nat)
deriving DecidableEq

namespace Object

/-- What a call makes of an object. Definitions that are refused and layouts with problems leave an
object too. -/
def call (object : Object) : Call → Except Dangling Object
  | .openSection name => .ok (object.openSection name).1
  | .append id body line repeats => .ok (object.append id body line repeats)
  | .setRepeats id index repeats =>
    .ok (object.modifySection id fun sect => sect.setRepeats index repeats)
  | .symbol name => .ok (object.symbol name).1
  | .defineLabel id name line => .ok (object.defineLabel id name line).1
  | .defineEqu name body line => .ok (object.define name (.equ body) line).1
  | .declareExtern name line => .ok (object.define name .imported line).1
  | .layoutSection id => (object.layoutSection id).map Prod.fst

/-- What calls one after the other make of an object. -/
def run (object : Object) (calls : List Call) : Except Dangling Object := calls.foldlM call object

end Object

/-- A call gets in the way of the layout of a section: it changes a repeat count there, or makes an
EQU of a name that an expression of the section reaches. -/
inductive Call.Disturbs (object : Object) (id : Nat) : Call → Prop where
  | recount (index : Nat) (repeats : Expr) : Disturbs object id (.setRepeats id index repeats)
  | redefine {sect : Section} {chunk : Chunk} {expr body : Expr} {name : String} {line : Int}
    {after : SymbolTable} {symbol : SymbolId} (found : object.sections[id]? = some sect)
    (inside : chunk ∈ sect.chunks) (reads : expr ∈ chunk.reads)
    (accepted : object.table.define name (.equ body) line = (after, symbol, none))
    (reaches : object.table.Reaches expr symbol) : Disturbs object id (.defineEqu name body line)

namespace Object

/-- None of the calls gets in the way of the layout of a section. -/
def Undisturbed (id : Nat) : Object → List Call → Prop
  | _, [] => True
  | object, call :: rest =>
    ¬ call.Disturbs object id ∧ ∀ next, object.call call = .ok next → Undisturbed id next rest

/-- A section that counts as laid out without a problem is what a layout makes of it. -/
def Current (object : Object) (id : Nat) : Prop :=
  ∀ sect, object.sections[id]? = some sect → sect.laidOut = true → sect.failed = false →
    ∃ layout, sect.layout object.table object.maxPasses id = .ok layout ∧ layout.error = none ∧
      layout.sect = sect

/-- What becomes of the section with a number in a call. -/
inductive Becomes (object : Object) (id : Nat) : Call → Section → Prop where
  | opened (name : String) : Becomes object id (.openSection name) { name }
  | appended {sect : Section} (found : object.sections[id]? = some sect) (body : Body) (line : Int)
    (repeats : Option Expr) :
    Becomes object id (.append id body line repeats) (sect.append body line repeats)
  | recounted {sect : Section} (found : object.sections[id]? = some sect) (index : Nat)
    (repeats : Expr) :
    Becomes object id (.setRepeats id index repeats) (sect.setRepeats index repeats)
  | laidOut {laid : Object} {layout : Layout}
    (success : object.layoutSection id = .ok (laid, layout)) :
    Becomes object id (.layoutSection id) layout.sect
  /-- Labels may be added at its end. -/
  | kept {sect : Section} (found : object.sections[id]? = some sect) (pending : List SymbolId)
    {call : Call} (other : call ≠ .layoutSection id) : Becomes object id call { sect with pending }

variable {object next : Object} {id : Nat} {sect : Section} {call : Call}

theorem Becomes.unchanged (found : object.sections[id]? = some sect)
    (other : call ≠ .layoutSection id) : object.Becomes id call sect :=
  .kept found sect.pending other

/-- A layout call is a layout. -/
theorem exists_layout_of_call (made : object.call (.layoutSection id) = .ok next) :
    ∃ layout, object.layoutSection id = .ok (next, layout) := by
  cases lays : object.layoutSection id with
  | error reference => simp [Object.call, lays, Except.map] at made
  | ok result =>
    simp only [Object.call, lays, Except.map, Except.ok.injEq] at made
    exact ⟨result.2, by rw [← made]⟩

/-- A section whose number is not that of the changed one is kept. -/
theorem becomes_of_modify {home : Nat} {change : Section → Section}
    (found : (object.modifySection home change).sections[id]? = some sect)
    (other : call ≠ .layoutSection id)
    (changed : home = id → ∀ before, object.sections[id]? = some before →
      object.Becomes id call (change before)) : object.Becomes id call sect := by
  rw [modifySection, List.getElem?_modify, Option.map_eq_map, Option.map_eq_some_iff] at found
  obtain ⟨before, was, rfl⟩ := found
  by_cases here : home = id
  · rw [if_pos here]
    exact changed here before was
  · rw [if_neg here]
    exact .unchanged was other

/-- Every section after a call has become what it is in one of these ways. -/
theorem becomes_of_call (made : object.call call = .ok next)
    (found : next.sections[id]? = some sect) : object.Becomes id call sect := by
  cases call with
  | openSection name =>
    cases made
    unfold Object.openSection at found
    split at found
    · exact .unchanged found (by simp)
    · rw [List.getElem?_append] at found
      split at found
      · exact .unchanged found (by simp)
      · rw [List.getElem?_singleton] at found
        split at found
        · cases found
          exact .opened name
        · cases found
  | append home body line repeats =>
    cases made
    refine becomes_of_modify found (by simp) ?_
    rintro rfl before was
    exact .appended was body line repeats
  | setRepeats home index repeats =>
    cases made
    refine becomes_of_modify found (by simp) ?_
    rintro rfl before was
    exact .recounted was index repeats
  | symbol | defineEqu | declareExtern =>
    cases made
    exact .unchanged found (by simp)
  | defineLabel home name line =>
    cases made
    unfold Object.defineLabel Object.define at found
    dsimp only at found
    split at found
    · next defined =>
      obtain ⟨rfl, _⟩ := Prod.mk.inj defined
      refine becomes_of_modify found (by simp) ?_
      rintro rfl before was
      exact .kept was _ (by simp)
    · exact .unchanged found (by simp)
  | layoutSection home =>
    obtain ⟨layout, lays⟩ := exists_layout_of_call made
    by_cases here : home = id
    · subst here
      obtain ⟨_, _, _, recorded, _⟩ := layoutSection_ok lays
      obtain rfl := Option.some.inj (recorded.symm.trans found)
      exact .laidOut lays
    · rw [(layoutSection_frame lays).2.2 id (Ne.symm here)] at found
      exact .unchanged found (by simpa using here)

/-- A call keeps the limit on passes, and every expansion into positions that its EQU is not in. -/
theorem keeps_of_call (made : object.call call = .ok next) :
    next.maxPasses = object.maxPasses ∧
      ∀ expr, (∀ name body line after symbol, call = .defineEqu name body line →
          object.table.define name (.equ body) line = (after, symbol, none) →
            ¬ object.table.Reaches expr symbol) →
        object.table.Keeps next.table expr := by
  have unchanged : ∀ expr, object.table.Keeps object.table expr := fun _ _ expands _ => expands
  cases call with
  | openSection name =>
    cases made
    unfold Object.openSection
    split <;> exact ⟨rfl, fun expr _ => unchanged expr⟩
  | append | setRepeats =>
    cases made
    exact ⟨rfl, fun expr _ => unchanged expr⟩
  | symbol name =>
    cases made
    exact ⟨rfl, fun expr _ => (object.table.gains_intern name).keeps expr⟩
  | defineLabel home name line =>
    cases made
    have kept := fun expr place => @SymbolTable.keeps_define object.table name (.label place)
      (by simp) line expr
    unfold Object.defineLabel Object.define
    dsimp only
    split
    · next defined =>
      obtain ⟨rfl, _⟩ := Prod.mk.inj defined
      exact ⟨rfl, fun expr _ => kept expr _⟩
    · exact ⟨rfl, fun expr _ => kept expr _⟩
  | defineEqu name body line =>
    cases made
    exact ⟨rfl, fun expr unreached => SymbolTable.keeps_define_equ fun after symbol accepted =>
      unreached name body line after symbol rfl accepted⟩
  | declareExtern name line =>
    cases made
    exact ⟨rfl, fun expr _ => SymbolTable.keeps_define (by simp) line expr⟩
  | layoutSection home =>
    obtain ⟨layout, lays⟩ := exists_layout_of_call made
    obtain ⟨table, limit, _⟩ := layoutSection_frame lays
    rw [table]
    exact ⟨limit, fun expr _ => unchanged expr⟩

/-- A section is current right after its layout. -/
theorem current_of_layoutSection {laid : Object} {layout : Layout}
    (success : object.layoutSection id = .ok (laid, layout)) : laid.Current id := by
  intro sect found _ sane
  obtain ⟨_, _, lays, recorded, _⟩ := layoutSection_ok success
  obtain ⟨table, limit, _⟩ := layoutSection_frame success
  obtain rfl := Option.some.inj (recorded.symm.trans found)
  rw [table, limit]
  exact ⟨layout, layout_again lays, (error_eq_none_iff lays).mpr sane, rfl⟩

/-- A call that does not get in the way leaves a section current. -/
theorem Current.after_call (current : object.Current id) (quiet : ¬ call.Disturbs object id)
    (made : object.call call = .ok next) : next.Current id := by
  intro sect found laidOut sane
  cases becomes_of_call made found with
  | opened | appended => cases laidOut
  | recounted _ index repeats => exact absurd (.recount index repeats) quiet
  | laidOut success =>
    rw [Object.call, success] at made
    cases made
    exact current_of_layoutSection success _ found laidOut sane
  | @kept before was pending =>
    obtain ⟨layout, lays, silent, same⟩ := current before was laidOut sane
    obtain ⟨limit, keeps⟩ := keeps_of_call made
    have again : before.layout next.table next.maxPasses id = .ok layout := by
      rw [limit]
      refine layout_kept lays silent same fun chunk inside expr reads => keeps expr ?_
      rintro name body line after symbol rfl accepted reaches
      exact quiet (.redefine was inside reads accepted reaches)
    refine ⟨{ layout with sect := { layout.sect with pending } }, ?_, silent, by rw [same]⟩
    rw [Section.layout_pending, again]
    rfl

/-- Calls that do not get in the way leave a section current. -/
theorem Current.after_run {calls : List Call} (current : object.Current id)
    (quiet : object.Undisturbed id calls) (runs : object.run calls = .ok next) :
    next.Current id := by
  induction calls generalizing object with
  | nil =>
    cases runs
    exact current
  | cons first rest ih =>
    obtain ⟨middle, made, runs⟩ := exists_of_bind_ok runs
    exact ih (current.after_call quiet.1 made) (quiet.2 middle made) runs

/-- Calls in two parts run one part after the other. -/
theorem run_append (object : Object) (first second : List Call) :
    object.run (first ++ second) = object.run first >>= fun middle => middle.run second :=
  List.foldlM_append ..

/-- A section that is not laid out is not laid out by other calls. -/
theorem not_laidOut_of_run {calls : List Call} (runs : object.run calls = .ok next)
    (absent : .layoutSection id ∉ calls)
    (before : ∀ sect, object.sections[id]? = some sect → sect.laidOut = false)
    (found : next.sections[id]? = some sect) : sect.laidOut = false := by
  induction calls generalizing object with
  | nil =>
    cases runs
    exact before sect found
  | cons first rest ih =>
    obtain ⟨middle, made, runs⟩ := exists_of_bind_ok runs
    rw [List.mem_cons, not_or] at absent
    refine ih runs absent.2 fun sect found => ?_
    cases becomes_of_call made found with
    | opened | appended => rfl
    | laidOut success => exact absurd rfl absent.1
    | recounted was index repeats =>
      have still := before _ was
      exact still
    | kept was pending other =>
      have still := before _ was
      exact still

/-- Laying out a section that is what a layout makes of it changes nothing. -/
theorem Current.layoutSection (current : object.Current id)
    (found : object.sections[id]? = some sect) (laidOut : sect.laidOut = true)
    (sane : sect.failed = false) :
    ∃ layout, object.layoutSection id = .ok (object, layout) ∧ layout.sect = sect ∧
      layout.error = none := by
  obtain ⟨layout, lays, silent, same⟩ := current sect found laidOut sane
  have unreported : layout.diagnostics = [] := by
    obtain ⟨prepared, _, rfl⟩ := layout_eq_ok_iff.mp lays
    rw [Section.recorded, recorded_error_eq_none_iff.mp silent]
    rfl
  refine ⟨layout, (layoutSection_eq_ok_iff found).mpr ⟨lays, ?_⟩, same, silent⟩
  have unchanged : object.sections.set id sect = object.sections := by
    obtain ⟨inRange, here⟩ := List.getElem?_eq_some_iff.mp found
    rw [← here, List.set_getElem_self]
  rw [same, unchanged, unreported, List.append_nil]

/-- A layout repeats a chunk as often as its count says, or fails. -/
theorem copies_of_layoutSection {laid : Object} {layout : Layout} {index : Nat} {chunk : Chunk}
    {count : Int} (success : object.layoutSection id = .ok (laid, layout))
    (found : object.sections[id]? = some sect) (chunkAt : sect.chunks[index]? = some chunk)
    (counts : chunk.repeats = some (.ofInt count)) :
    layout.sect.failed = true ∨
      ∃ slot, layout.sect.slots[index]? = some slot ∧ slot.copies.toInt = count := by
  obtain ⟨_, was, lays, _⟩ := layoutSection_ok success
  obtain rfl := Option.some.inj (was.symm.trans found)
  cases failed : layout.sect.failed with
  | true => exact .inl rfl
  | false =>
    right
    have silent := (error_eq_none_iff lays).mpr failed
    have inRange : index < layout.sect.chunks.length := by
      obtain ⟨prepared, prepares, rfl⟩ := layout_eq_ok_iff.mp lays
      rw [length_recorded prepares (length_settle prepared id object.maxPasses)]
      exact (List.getElem?_eq_some_iff.mp chunkAt).1
    have afterAt := List.getElem?_eq_getElem inRange
    obtain ⟨origin, sourceAt⟩ := exists_origin lays silent afterAt
    obtain rfl := Option.some.inj (chunkAt.symm.trans sourceAt)
    refine ⟨_, by rw [Section.slots, List.getElem?_map, afterAt, Option.map_some], ?_⟩
    rcases initialCopies_ok origin.counted with
      ⟨once, _⟩ | ⟨expr, expanded, given, _, expands, counted⟩
    · rw [counts] at once
      cases once
    · obtain rfl := Option.some.inj (counts.symm.trans given)
      rw [SymbolTable.expand_ofInt, Except.ok.injEq] at expands
      subst expands
      rcases counted with ⟨_, word, _, copies, unwatched⟩ | ⟨varies, _⟩
      · rw [origin.copies_eq unwatched, copies]
        exact isWord_iff_toInt_ofInt.mp word
      · cases varies

end Object

/-- A new repeat count changes no slot. -/
theorem Section.slots_setRepeats (sect : Section) (index : Nat) (repeats : Expr) :
    (sect.setRepeats index repeats).slots = sect.slots := by
  apply List.ext_getElem?
  intro place
  simp only [Section.slots, Section.setRepeats, List.getElem?_map, List.getElem?_modify]
  by_cases here : index = place <;> cases sect.chunks[place]? <;> simp [here]

/-- Every section that counts as laid out without a problem was laid out by one of the calls that
built the object. If no call since then has disturbed it, laying it out again changes nothing at
all: neither its chunks and its size nor the object. But a repeat count may be changed under its
layout. It counts as laid out all the same, with its slots and its size, although no layout of it
has them: one fails, or repeats the chunk as often as the new count says. -/
theorem laidOut_current_unless_disturbed {limit : Int} {calls : List Call} {object : Object}
    (runs : Object.run { maxPasses := limit } calls = .ok object) {id : Nat} {sect : Section}
    (found : object.sections[id]? = some sect) (laidOut : sect.laidOut = true)
    (sane : sect.failed = false) :
    .layoutSection id ∈ calls ∧
    (∀ (before after : List Call) (laid : Object), calls = before ++ .layoutSection id :: after →
      Object.run { maxPasses := limit } (before ++ [.layoutSection id]) = .ok laid →
      laid.Undisturbed id after →
        ∃ layout, object.layoutSection id = .ok (object, layout) ∧ layout.sect = sect ∧
          layout.error = none) ∧
    ∀ (index : Nat) (chunk : Chunk) (count : Int), sect.chunks[index]? = some chunk →
      chunk.slot.copies.toInt ≠ count →
        ∃ next stale, object.call (.setRepeats id index (.ofInt count)) = .ok next ∧
          next.sections[id]? = some stale ∧ stale.laidOut = true ∧ stale.failed = false ∧
          stale.slots = sect.slots ∧ stale.size = sect.size ∧
          ∀ relaid layout, next.layoutSection id = .ok (relaid, layout) →
            layout.sect.failed = true ∨
              layout.sect.slots ≠ stale.slots ∧
                ∃ slot, layout.sect.slots[index]? = some slot ∧ slot.copies.toInt = count := by
  refine ⟨?_, ?_, ?_⟩
  · by_contra absent
    have never := Object.not_laidOut_of_run runs absent (by simp) found
    rw [laidOut] at never
    cases never
  · rintro before after laid rfl lays quiet
    rw [← List.singleton_append, ← List.append_assoc, Object.run_append, lays] at runs
    have runs : laid.run after = .ok object := runs
    rw [Object.run_append] at lays
    obtain ⟨described, _, made⟩ := exists_of_bind_ok lays
    obtain ⟨_, made, same⟩ := exists_of_bind_ok made
    cases same
    obtain ⟨_, success⟩ := Object.exists_layout_of_call made
    have current := Object.current_of_layoutSection success
    exact (current.after_run quiet runs).layoutSection found laidOut sane
  · intro index chunk count chunkAt different
    have stale : (object.modifySection id fun sect =>
        sect.setRepeats index (.ofInt count)).sections[id]? =
          some (sect.setRepeats index (.ofInt count)) := by
      rw [Object.modifySection, List.getElem?_modify_eq, found]
      rfl
    have recounted : (sect.setRepeats index (.ofInt count)).chunks[index]? =
        some { chunk with repeats := some (.ofInt count) } := by
      rw [Section.setRepeats, List.getElem?_modify_eq, chunkAt]
      rfl
    refine ⟨_, _, rfl, stale, laidOut, sane, sect.slots_setRepeats index _, rfl, ?_⟩
    intro relaid layout success
    rcases Object.copies_of_layoutSection success stale recounted rfl with
      failed | ⟨slot, slotAt, copies⟩
    · exact .inl failed
    · refine .inr ⟨fun same => different ?_, slot, slotAt, copies⟩
      rw [same, sect.slots_setRepeats, Section.slots, List.getElem?_map, chunkAt] at slotAt
      cases slotAt
      exact copies

/-- The first chunk is two bytes long, and the second is repeated once for each of them. -/
def described : List Call :=
  [.openSection ".text", .append 0 (.reserve (.ofInt 2) 1) 1 none,
    .append 0 (.data [.bytes [0x90]]) 2
      (some ⟨0, [⟨-1, .place ⟨0, 0, 0⟩⟩, ⟨1, .place ⟨0, 1, 0⟩⟩]⟩)]

/-- Names of all kinds and another section. -/
def describedLater : List Call :=
  [.defineEqu "five" (.ofInt 5) 3, .defineLabel 0 "end" 4, .declareExtern "x" 5,
    .openSection ".data", .append 1 (.data [.bytes [1]]) 6 none, .layoutSection 1]

/-- A count in which an undefined name has dropped out, until it becomes an EQU. -/
def redefined : List Call :=
  [.openSection ".bss", .symbol "x",
    .defineEqu "huge" ⟨0, [⟨-9223372036854775808, .symbol 1⟩]⟩ 1,
    .append 0 (.reserve ⟨3, [⟨2, .symbol 2⟩]⟩ 1) 2 none, .layoutSection 0,
    .defineEqu "x" (.ofInt 1) 3]

/-- The code of a section that is emitted without relocations, if it can be. -/
def Object.code? (object : Object) (id : Nat) : Option (List UInt8) :=
  (object.emitSection (.standard object.table false) id).toOption.bind fun emitted =>
    emitted.program.toOption.map Program.code

/-- The section stays current under what is described later. With a new count of three it is emitted
with two copies until it is laid out again, and an EQU leaves a section that counts as laid out but
can no longer be laid out. -/
theorem described_current :
    ∃ object sect layout,
      Object.run {} (described ++ .layoutSection 0 :: describedLater) = .ok object ∧
      object.sections[0]? = some sect ∧ sect.laidOut = true ∧ sect.failed = false ∧
      object.layoutSection 0 = .ok (object, layout) ∧ layout.sect = sect ∧
      (∃ next stale, object.call (.setRepeats 0 1 (.ofInt 3)) = .ok next ∧
        next.sections[0]? = some stale ∧ stale.laidOut = true ∧ stale.failed = false ∧
        next.code? 0 = some [0, 0, 0x90, 0x90] ∧
        ∃ relaid again, next.layoutSection 0 = .ok (relaid, again) ∧
          again.sect.failed = false ∧ again.sect.slots ≠ stale.slots ∧
          relaid.code? 0 = some [0, 0, 0x90, 0x90, 0x90]) ∧
      ∃ unnoticed, Object.run {} redefined = .ok unnoticed ∧
        (unnoticed.sections[0]?.map fun sect => (sect.laidOut, sect.failed, sect.size)) =
          some (true, false, 3) ∧
        ((unnoticed.layoutSection 0).toOption.map fun result => result.2.sect.failed) =
          some true := by
  obtain ⟨laid, lays, reads⟩ := exists_ok_of_any (Object.run {} (described ++ [.layoutSection 0]))
    (p := fun laid => (laid.sections[0]?.map fun sect => sect.chunks.flatMap Chunk.reads) =
      some [.ofInt 2, ⟨0, [⟨-1, .place ⟨0, 0, 0⟩⟩, ⟨1, .place ⟨0, 1, 0⟩⟩]⟩])
    (by decide +kernel)
  obtain ⟨object, runs, state, again⟩ := exists_ok_of_any
    (Object.run {} (described ++ .layoutSection 0 :: describedLater))
    (p := fun object =>
      (object.sections[0]?.map fun sect =>
        (sect.laidOut, sect.failed, sect.slots.map Slot.copies)) = some (true, false, [1, 2]) ∧
      ((object.call (.setRepeats 0 1 (.ofInt 3))).toOption.bind fun next =>
        (next.layoutSection 0).toOption.map fun result =>
          (next.code? 0, result.1.code? 0, result.2.sect.failed)) =
        some (some [0, 0, 0x90, 0x90], some [0, 0, 0x90, 0x90, 0x90], false))
    (by decide +kernel)
  obtain ⟨unnoticed, noticesNot, stays, fails⟩ := exists_ok_of_any (Object.run {} redefined)
    (p := fun object =>
      (object.sections[0]?.map fun sect => (sect.laidOut, sect.failed, sect.size)) =
        some (true, false, 3) ∧
      ((object.layoutSection 0).toOption.map fun result => result.2.sect.failed) = some true)
    (by decide +kernel)
  have quiet : laid.Undisturbed 0 describedLater := by
    refine ⟨?_, fun _ _ => ⟨nofun, fun _ _ => ⟨nofun, fun _ _ => ⟨nofun, fun _ _ => ⟨nofun,
      fun _ _ => ⟨nofun, fun _ _ => trivial⟩⟩⟩⟩⟩⟩
    rintro (_ | ⟨here, inside, reading, _, _, ⟨term, isTerm, isSymbol⟩, _⟩)
    obtain ⟨_, there, expressions⟩ := Option.map_eq_some_iff.mp reads
    obtain rfl := Option.some.inj (here.symm.trans there)
    have member := List.mem_flatMap.mpr ⟨_, inside, reading⟩
    -- Both expressions have positions only.
    rw [expressions] at member
    rcases member with _ | ⟨_, _ | ⟨_, ⟨⟩⟩⟩
    · cases isTerm
    · rcases isTerm with _ | ⟨_, _ | ⟨_, ⟨⟩⟩⟩ <;> cases isSymbol
  obtain ⟨sect, found, facts⟩ := Option.map_eq_some_iff.mp state
  simp only [Prod.mk.injEq] at facts
  obtain ⟨laidOut, sane, copies⟩ := facts
  obtain ⟨_, current, recount⟩ := laidOut_current_unless_disturbed runs found laidOut sane
  obtain ⟨layout, success, same, _⟩ := current described describedLater laid rfl lays quiet
  obtain ⟨chunk, chunkAt, twice⟩ :
      ∃ chunk, sect.chunks[1]? = some chunk ∧ chunk.slot.copies = 2 := by
    have second := congrArg (fun counts => counts[1]?) copies
    simpa [Section.slots] using second
  obtain ⟨next, stale, recounts, foundStale, flag, noFlag, _, _, differs⟩ :=
    recount 1 chunk 3 chunkAt (by rw [twice]; decide)
  rw [recounts] at again
  obtain ⟨⟨relaid, result⟩, relays, codes⟩ := Option.map_eq_some_iff.mp again
  have relays := ok_of_toOption relays
  simp only [Prod.mk.injEq] at codes
  obtain ⟨emits, reemits, sound⟩ := codes
  refine ⟨object, sect, layout, runs, found, laidOut, sane, success, same,
    ⟨next, stale, recounts, foundStale, flag, noFlag, emits, relaid, result, relays, sound, ?_,
      reemits⟩, unnoticed, noticesNot, stays, fails⟩
  rcases differs relaid result relays with failed | ⟨other, _⟩
  · rw [sound] at failed
    cases failed
  · exact other

end Assembler
