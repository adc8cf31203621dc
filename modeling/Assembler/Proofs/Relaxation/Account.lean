import Assembler.Proofs.Relaxation.Orderly
import Assembler.Proofs.Relaxation.Termination

/-!
# Failures are accounted for

A chunk that fails is reported once, and what is reported is why it failed. `Accounted` says so of a
relaxation. Every turn of the loops keeps it (`Accounted.turn`), so it holds at the end of every
relaxation (`accounted_settle`). Whatever ends the loops, the slots are contiguous at the end
(`contiguous_settle`): where the loops are broken off, offsets have just been assigned.
-/

namespace Assembler

namespace LayoutProblem

/-- The chunk that a problem is about: the one it names, or the one that shrank. -/
def about (problem : LayoutProblem) : Option Nat :=
  match problem.index, problem.error with
  | some index, _ => some index
  | none, .shrankBy index _ _ => some index
  | none, _ => none

@[simp] theorem about_named (index : Nat) (error : Error) :
    about { index := some index, error } = some index := rfl

/-- A problem says why a slot has failed. That a slot shrank is a broken promise of the layout as a
whole, and every other failure is one of its chunk. -/
inductive Explains : LayoutProblem → Slot → Prop where
  | named {index : Nat} {error : Error} {slot : Slot} (known : slot.error = some error)
      (other : Cause.nonMonotonic ∉ error.causes) : Explains { index := some index, error } slot
  | shrank {index : Nat} {before after : UInt64} {slot : Slot} (known : slot.error = some .shrank)
      (less : after < before) :
      Explains { index := none, error := .shrankBy index before after } slot

/-- A slot whose failure is explained has failed. -/
theorem Explains.error_ne_none {problem : LayoutProblem} {slot : Slot}
    (explains : problem.Explains slot) : slot.error ≠ none := by
  cases explains with
  | named known => simp [known]
  | shrank known => simp [known]

/-- A problem explains every slot with the same error. -/
theorem Explains.congr {problem : LayoutProblem} {slot other : Slot}
    (explains : problem.Explains slot) (same : other.error = slot.error) :
    problem.Explains other := by
  cases explains with
  | named known others => exact .named (same.trans known) others
  | shrank known less => exact .shrank (same.trans known) less

/-- Reports that are made for each element of a list in turn, and name its place, are about
different chunks. -/
theorem nodup_about_filterMap {α : Type} {list : List α} {report : α × Nat → Option LayoutProblem}
    (named : ∀ entry problem, report entry = some problem → problem.about = some entry.2) :
    ((list.zipIdx.filterMap report).filterMap about).Nodup := by
  rw [List.Nodup, List.pairwise_filterMap, List.pairwise_filterMap]
  have places : (list.zipIdx.map Prod.snd).Nodup := by
    rw [List.zipIdx_map_snd]
    exact List.nodup_range'
  refine (List.pairwise_map.mp places).imp ?_
  intro first second apart problem found other otherFound index isAbout another otherAbout
  rw [named first problem found, Option.some.injEq] at isAbout
  rw [named second other otherFound, Option.some.injEq] at otherAbout
  rwa [← isAbout, ← otherAbout]

end LayoutProblem

/-- A slot that has failed keeps its error wherever it is placed. -/
theorem Slot.placeAt_error {slot : Slot} (failed : slot.error ≠ none) (offset : UInt64) :
    (slot.placeAt offset).error = slot.error := by
  obtain ⟨error, known⟩ := Option.ne_none_iff_exists'.mp failed
  simp [Slot.placeAt, known]

namespace Relaxation

/-- Every failure is reported once. -/
structure Accounted (state : Relaxation) : Prop where
  /-- No chunk is reported twice. -/
  distinct : (state.problems.filterMap LayoutProblem.about).Nodup
  /-- What is reported of a chunk is why it failed. -/
  explained : ∀ problem ∈ state.problems, ∀ index, problem.about = some index →
    ∃ slot, state.slots[index]? = some slot ∧ problem.Explains slot
  /-- A chunk that failed is reported. -/
  reported : ∀ index, state.HasFailed index →
    ∃ problem ∈ state.problems, problem.about = some index
  /-- What is about no chunk speaks of convergence. -/
  general : ∀ problem ∈ state.problems, problem.about = none →
    Cause.noConvergence ∈ problem.error.causes

namespace Accounted

variable {state next : Relaxation}

section

variable (accounted : state.Accounted)
include accounted

/-- A chunk that a problem is about has failed. -/
theorem hasFailed {problem : LayoutProblem} (member : problem ∈ state.problems) {index : Nat}
    (isAbout : problem.about = some index) :
    state.HasFailed index := by
  obtain ⟨slot, slotAt, explains⟩ := accounted.explained problem member index isAbout
  exact ⟨slot, slotAt, explains.error_ne_none⟩

/-- Failures stay accounted for when errors are kept and those that come up are each reported
once. -/
theorem extend {added : List LayoutProblem} (problems : next.problems = state.problems ++ added)
    (kept : ∀ {index : Nat} {slot : Slot}, state.slots[index]? = some slot → slot.error ≠ none →
      ∃ later, next.slots[index]? = some later ∧ later.error = slot.error)
    (distinct : (added.filterMap LayoutProblem.about).Nodup)
    (explained : ∀ problem ∈ added, ∀ index, problem.about = some index →
      ¬ state.HasFailed index ∧ ∃ slot, next.slots[index]? = some slot ∧ problem.Explains slot)
    (reported : ∀ index, next.HasFailed index → ¬ state.HasFailed index →
      ∃ problem ∈ added, problem.about = some index)
    (general : ∀ problem ∈ added, problem.about = none →
      Cause.noConvergence ∈ problem.error.causes) : next.Accounted where
  distinct := by
    rw [problems, List.filterMap_append, List.nodup_append]
    refine ⟨accounted.distinct, distinct, ?_⟩
    rintro index old _ new rfl
    obtain ⟨problem, member, isAbout⟩ := List.mem_filterMap.mp old
    obtain ⟨other, otherMember, otherAbout⟩ := List.mem_filterMap.mp new
    exact (explained other otherMember index otherAbout).1 (accounted.hasFailed member isAbout)
  explained := by
    intro problem member index isAbout
    rw [problems, List.mem_append] at member
    rcases member with old | new
    · obtain ⟨slot, slotAt, explains⟩ := accounted.explained problem old index isAbout
      obtain ⟨later, laterAt, same⟩ := kept slotAt explains.error_ne_none
      exact ⟨later, laterAt, explains.congr same⟩
    · exact (explained problem new index isAbout).2
  reported := by
    intro index failed
    rw [problems]
    by_cases before : state.HasFailed index
    · obtain ⟨problem, member, isAbout⟩ := accounted.reported index before
      exact ⟨problem, List.mem_append_left _ member, isAbout⟩
    · obtain ⟨problem, member, isAbout⟩ := reported index failed before
      exact ⟨problem, List.mem_append_right _ member, isAbout⟩
  general := by
    intro problem member unnamed
    rw [problems, List.mem_append] at member
    exact member.elim (accounted.general problem · unnamed) (general problem · unnamed)

/-- A growth keeps the account. -/
theorem advance {place : Nat} {span : Span} {slot : Slot} (firing : state.Firing place span slot) :
    (state.advance place span (slot.grow span (state.distance span.field))).Accounted := by
  refine accounted.extend (List.append_nil _).symm ?_ List.nodup_nil (by simp) ?_ (by simp)
  · intro index failed failedAt error
    have elsewhere : span.index ≠ index := by
      rintro rfl
      rw [firing.slotAt, Option.some.injEq] at failedAt
      exact error (failedAt ▸ firing.sound)
    exact ⟨failed, by rw [Relaxation.advance, List.getElem?_set_ne elsewhere, failedAt], rfl⟩
  · rintro index ⟨grown, grownAt, error⟩ sound
    rw [Relaxation.advance, List.getElem?_set] at grownAt
    split at grownAt
    · split at grownAt
      · cases grownAt
        rw [Slot.grow_error] at error
        exact absurd firing.sound error
      · cases grownAt
    · exact absurd ⟨grown, grownAt, error⟩ sound

/-- Giving up a chunk that has not failed, with a report of it. -/
theorem giveUp {index : Nat} {slot : Slot} (slotAt : state.slots[index]? = some slot)
    (sound : slot.error = none) {error : Error} {problem : LayoutProblem}
    (isAbout : problem.about = some index)
    (explains : problem.Explains { slot with error := some error }) :
    (dropSpans
      { state with
        slots := state.slots.modify index fun slot => { slot with error := some error }
        problems := state.problems ++ [problem] } index).Accounted := by
  have unfailed : ¬ state.HasFailed index := by
    rintro ⟨other, otherAt, failed⟩
    rw [slotAt, Option.some.injEq] at otherAt
    exact failed (otherAt ▸ sound)
  refine accounted.extend rfl ?_ ?_ ?_ ?_ (by simp [isAbout])
  · intro other old oldAt failed
    have elsewhere : index ≠ other := by
      rintro rfl
      exact unfailed ⟨old, oldAt, failed⟩
    refine ⟨old, ?_, rfl⟩
    simp [Relaxation.dropSpans, elsewhere, oldAt]
  · simp [isAbout]
  · intro other member given otherAbout
    rw [List.mem_singleton] at member
    subst member
    rw [isAbout, Option.some.injEq] at otherAbout
    subst otherAbout
    refine ⟨unfailed, { slot with error := some error }, ?_, explains⟩
    simp [Relaxation.dropSpans, slotAt]
  · rintro other ⟨later, laterAt, failed⟩ before
    refine ⟨problem, List.mem_singleton.mpr rfl, isAbout.trans ?_⟩
    by_contra elsewhere
    have apart : index ≠ other := fun same => elsewhere (congrArg some same)
    simp only [Relaxation.dropSpans, List.getElem?_modify, apart, if_false, Option.map_eq_map,
      Option.map_id_fun', id_eq] at laterAt
    exact before ⟨later, laterAt, failed⟩

/-- Assigning offsets reports the padding that cannot reach back. -/
theorem assignOffsets : state.assignOffsets.Accounted := by
  have moved : ∀ {index : Nat} {slot : Slot}, state.slots[index]? = some slot →
      ∃ place, state.assignOffsets.slots[index]? = some (slot.placeAt place) := by
    intro index slot slotAt
    obtain ⟨place, placed⟩ := placeSlots_getElem? 0 state.slots index
    exact ⟨place, by rw [Relaxation.assignOffsets, placed, slotAt, Option.map_some]⟩
  refine accounted.extend rfl ?_ ?_ ?_ ?_ ?_
  · intro index slot slotAt failed
    obtain ⟨place, placed⟩ := moved slotAt
    exact ⟨_, placed, Slot.placeAt_error failed place⟩
  · refine LayoutProblem.nodup_about_filterMap ?_
    rintro ⟨⟨old, new⟩, index⟩ problem found
    dsimp only at found
    split at found
    · obtain ⟨error, _, rfl⟩ := Option.map_eq_some_iff.mp found
      rfl
    · cases found
  · intro problem member index isAbout
    have causes := causes_of_mem_placementProblems member
    obtain ⟨place, old, new, error, oldAt, newAt, sound, failed, rfl⟩ :=
      mem_placementProblems.mp member
    rw [LayoutProblem.about_named, Option.some.injEq] at isAbout
    subst isAbout
    refine ⟨?_, new, newAt, .named failed (by simp [causes])⟩
    rintro ⟨other, otherAt, before⟩
    rw [oldAt, Option.some.injEq] at otherAt
    exact before (otherAt ▸ sound)
  · rintro index ⟨new, newAt, failed⟩ before
    obtain ⟨error, known⟩ := Option.ne_none_iff_exists'.mp failed
    obtain ⟨place, placed⟩ := placeSlots_getElem? 0 state.slots index
    rw [show (placeSlots 0 state.slots).1[index]? = some new from newAt] at placed
    obtain ⟨old, oldAt, _⟩ := Option.map_eq_some_iff.mp placed.symm
    have sound : old.error = none := by
      by_contra error
      exact before ⟨old, oldAt, error⟩
    exact ⟨_, mem_placementProblems.mpr ⟨index, old, new, error, oldAt, newAt, sound, known, rfl⟩,
      rfl⟩
  · intro problem member unnamed
    obtain ⟨_, _, _, _, _, _, _, _, rfl⟩ := mem_placementProblems.mp member
    cases unnamed

/-- A problem that is about no chunk takes nothing from the account. -/
theorem breakOff {error : Error} (unnamed : LayoutProblem.about { index := none, error } = none)
    (general : Cause.noConvergence ∈ error.causes) : (state.breakOff error).Accounted :=
  accounted.extend rfl (fun slotAt _ => ⟨_, slotAt, rfl⟩) (by simp [unnamed]) (by simp [unnamed])
    (fun _ failed before => absurd failed before) (by simpa using fun _ => general)

/-- Working on a span reports the failure that comes of it, if any. -/
theorem work {place : Nat} {grew : Bool} (effect : state.Effect place next grew) :
    next.Accounted := by
  have grownAt : ∀ {span : Span} {slot : Slot} (outcome : Outcome),
      state.Firing place span slot →
      (state.advance place span outcome).slots[span.index]? = some outcome.slot :=
    fun _ firing => List.getElem?_set_self (List.getElem?_eq_some_iff.mp firing.slotAt).1
  cases effect with
  | idle => exact accounted
  | failed firing grown refused =>
    subst grown
    have causes := grow_causes refused
    exact (accounted.advance firing).giveUp (grownAt _ firing)
      ((Slot.grow_error ..).trans firing.sound) rfl
      (.named rfl fun blamed => absurd (causes blamed) (by decide))
  | shrank firing grown granted less =>
    subst grown
    exact (accounted.advance firing).giveUp (grownAt _ firing)
      ((Slot.grow_error ..).trans firing.sound) rfl (.shrank rfl less)
  | kept firing grown granted same =>
    subst grown
    exact accounted.advance firing
  | grew firing grown granted more =>
    subst grown
    have advanced := accounted.advance firing
    exact assignOffsets
      ⟨advanced.distinct, advanced.explained, advanced.reported, advanced.general⟩

end

variable {limit : Nat} {budget : Int}

/-- A turn of the loops keeps failures accounted for. -/
theorem turn {loop : Loop} (accounted : loop.state.Accounted) :
    (loop.turn limit budget).state.Accounted := by
  have begun : loop.state.beginPass.Accounted :=
    ⟨accounted.distinct, accounted.explained, accounted.reported, accounted.general⟩
  have effect : Loop.TurnEffect loop (loop.turn limit budget).state := Loop.turn_effect loop
  generalize (loop.turn limit budget).state = next at effect ⊢
  cases effect with
  | still idle => exact accounted
  | begun passing => exact begun
  | exceeded passing passes pending => exact begun.breakOff rfl (by simp [Error.causes])
  | worked queued effect => exact accounted.work effect
  | spent queued effect growths pending =>
    exact (accounted.work effect).breakOff rfl (by simp [Error.causes])

/-- All turns of the loops keep failures accounted for. -/
theorem comes {first last : Loop} (accounted : first.state.Accounted)
    (later : Loop.Comes limit budget first last) : last.state.Accounted := by
  obtain ⟨turns, rfl⟩ := later
  induction turns with
  | zero => exact accounted
  | succ turns ih =>
    rw [Function.iterate_succ_apply']
    exact ih.turn

end Accounted

/-- At the end of a relaxation that had done nothing yet, failures are accounted for. -/
theorem accounted_settle {state : Relaxation} (accounted : state.Accounted)
    (fresh : state.passes = 0) (unused : state.expansions = 0) (maxPasses : Int) :
    (state.settle maxPasses).Accounted := by
  let limit := passLimit maxPasses state.spans.length
  let budget := growthBudget limit state.spans.length
  have allowed : state.assignOffsets.passes + limit = limit := by
    rw [Relaxation.assignOffsets, fresh, Nat.zero_add]
  have remains : state.assignOffsets.expansions + budget = (budget : Int).toNat := by
    rw [Relaxation.assignOffsets, unused, Nat.zero_add, Int.toNat_natCast]
  have ended := accounted.assignOffsets.comes (Loop.comes_of_runPasses allowed remains)
  rw [settle_eq rfl]
  split
  · exact ended.assignOffsets
  · exact ended

/-- After a growth, slots lie one behind the other. -/
theorem Effect.contiguous {state next : Relaxation} {place : Nat}
    (effect : state.Effect place next true) : Contiguous 0 next.slots next.size := by
  cases effect with
  | grew => exact contiguous_assignOffsets _

/-- After the first growth, slots lie one behind the other. -/
theorem contiguous_of_firstGrowth {state next : Relaxation} {queue rest : List Nat}
    (growth : state.firstGrowth queue = (next, some rest)) :
    Contiguous 0 next.slots next.size := by
  fun_induction firstGrowth state queue with
  | case1 state => cases growth
  | case2 state place others after processed =>
    cases growth
    exact (effect_of_process processed).contiguous
  | case3 state place others after processed ih => exact ih growth

/-- The work on a queue is broken off right behind a growth. -/
theorem contiguous_of_drain {budget : Nat} {state next : Relaxation} {queue : List Nat}
    (spent : drain budget state queue = (next, none)) : Contiguous 0 next.slots next.size := by
  fun_induction drain budget state queue with
  | case1 budget state queue after quiet => cases spent
  | case2 state queue after rest growth =>
    cases spent
    have grown := contiguous_of_firstGrowth growth
    exact grown
  | case3 state queue after rest growth budget ih => exact ih spent

/-- Passes that do not converge are broken off in the first queue. -/
theorem contiguous_of_runPasses {state last : Relaxation} (coherent : state.Coherent)
    {limit remaining budget : Nat} (allowed : 0 < remaining)
    (stopped : runPasses limit remaining budget state = (last, false)) :
    Contiguous 0 last.slots last.size := by
  obtain ⟨remaining, rfl⟩ := Nat.exists_eq_add_one.mpr allowed
  by_cases nothing : state.collect [] = []
  · rw [runPasses_of_quiet nothing] at stopped
    cases stopped
  · cases drained : state.beginPass.drain budget (state.collect []) with
    | mk next left =>
      cases left with
      | none =>
        rw [runPasses_succ nothing, drained] at stopped
        cases stopped
        exact contiguous_of_drain drained
      | some left =>
        rw [runPasses_of_drained coherent nothing drained] at stopped
        cases stopped

/-- Slots are contiguous at the end of every relaxation, whatever has failed. -/
theorem contiguous_settle {state : Relaxation} (coherent : state.Coherent) (maxPasses : Int) :
    Contiguous 0 (state.settle maxPasses).slots (state.settle maxPasses).size := by
  cases passes : state.passesFor maxPasses with
  | mk last converged =>
    rw [settle_eq passes]
    cases converged with
    | true => exact contiguous_assignOffsets last
    | false =>
      exact contiguous_of_runPasses coherent.assignOffsets
        (passLimit_pos maxPasses state.spans.length) passes

end Relaxation

end Assembler
