import Assembler.Proofs.Relaxation.Convergence

/-!
# How often a chunk grows for a span

A branch is settled for good when it grows. An integer starts with one byte, gets longer whenever it
grows, and no word needs more than ten bytes. As long as no number of copies is watched, a chunk
therefore grows nine times at most for one span (`Paced.growthsAmong_le`), and a relaxation has at
most nine growths for each span (`Paced.expansions_le`). `paced_preserved` carries this along
everything that a relaxation does.
-/

namespace Assembler

variable {state : Relaxation}

/-- Whether a growth was made for a span. -/
def Growth.isFor (growth : Growth) (span : Span) : Bool :=
  growth.index = span.index && growth.span = span.purpose.id

/-- How many of some growths were made for a span. -/
def Span.growthsAmong (span : Span) (growths : List Growth) : Nat :=
  growths.countP fun growth => growth.isFor span

/-- The growths of a span are those with its key. -/
theorem isFor_iff {growth : Growth} {span : Span} :
    growth.isFor span = true ↔ growth.index = span.index ∧ growth.span = span.purpose.id := by
  simp [Growth.isFor]

theorem Span.growthsAmong_append (span : Span) (growths added : List Growth) :
    span.growthsAmong (growths ++ added) =
      span.growthsAmong growths + span.growthsAmong added :=
  List.countP_append

/-- How the growths made for a span stand to the slot of its chunk. A branch grows once, and then it
is watched no more; an integer has got longer each time. -/
def Span.Paced (span : Span) (growths : Nat) (slot : Slot) : Prop :=
  match span.purpose with
  | .copies => False
  | .leb128 _ => growths < slot.length.toNat ∧ slot.length.toNat ≤ 10
  | .branch _ => growths ≤ 1 ∧ (span.state = .active → growths = 0)

namespace Span.Paced

variable {span : Span} {growths : Nat} {slot : Slot}

variable (paced : span.Paced growths slot)
include paced

/-- No span grows more than nine times. -/
theorem le_nine : growths ≤ 9 := by
  unfold Span.Paced at paced
  split at paced
  · exact paced.elim
  · omega
  · omega

/-- The pace of a span depends on its slot's length only. -/
theorem congr {other : Slot} (same : other.length = slot.length) : span.Paced growths other := by
  unfold Span.Paced at paced ⊢
  rwa [same]

/-- A span that has failed keeps any pace. -/
theorem drop :
    ({ span with state := .failed } : Span).Paced growths slot := by
  cases purpose : span.purpose <;> simp_all [Span.Paced]

/-- Letting the chunk of an active span grow keeps the pace, also if the chunk takes up more than
before and one more growth is counted: a branch has had none, and an integer has got longer. -/
theorem grown (active : span.state = .active) (distance : Option Int64) (seen : Int64) :
    ({ span with seen, state := (slot.grow span distance).spanState } : Span).Paced growths
        (slot.grow span distance).slot ∧
      (slot.total < (slot.grow span distance).slot.total →
        ({ span with seen, state := (slot.grow span distance).spanState } : Span).Paced
          (growths + 1) (slot.grow span distance).slot) := by
  cases purpose : span.purpose with
  | copies => simp [Span.Paced, purpose] at paced
  | branch nearLength =>
    simp only [Span.Paced, purpose] at paced
    have unused := paced.2 active
    simp [Span.Paced, purpose, Slot.grow, Outcome.spanState, unused]
  | leb128 signed =>
    simp only [Span.Paced, purpose] at paced ⊢
    have bounded := Leb128.size_word_le (distance.getD unknownDistance) signed
    have unwrapped := Leb128.toNat_size_word (distance.getD unknownDistance) signed
    obtain ⟨asked, size, slotIs⟩ : ∃ asked : UInt64,
        asked = UInt64.ofNat (Leb128.size (distance.getD unknownDistance).toInt signed) ∧
          (slot.grow span distance).slot =
            { slot with length := if slot.length < asked then asked else slot.length } := by
      refine ⟨_, rfl, ?_⟩
      unfold Slot.grow
      rw [purpose]
      dsimp only
      split <;> rfl
    rw [← size] at unwrapped
    rw [slotIs]
    by_cases longer : slot.length < asked
    · rw [if_pos longer]
      have more := UInt64.lt_iff_toNat_lt.mp longer
      dsimp only
      omega
    · rw [if_neg longer]
      exact ⟨paced, fun more => absurd more (UInt64.lt_irrefl _)⟩

end Span.Paced

namespace Relaxation

/-- Every growth was counted and made for a span, and every span keeps its pace. -/
structure Paced (state : Relaxation) : Prop where
  counted : state.growths.length = state.expansions
  keyed : ∀ growth ∈ state.growths, (growth.index, growth.span) ∈ state.spanKeys
  spans : ∀ span ∈ state.spans, ∃ slot, state.slots[span.index]? = some slot ∧
    span.Paced (span.growthsAmong state.growths) slot

/-- A span that keeps its pace does not watch a number of copies. -/
theorem Paced.id_eq (paced : state.Paced) {span : Span}
    (member : span ∈ state.spans) : span.purpose.id = 1 := by
  obtain ⟨slot, -, pace⟩ := paced.spans span member
  cases purpose : span.purpose with
  | copies => simp [Span.Paced, purpose] at pace
  | leb128 | branch => rfl

/-- Spans at different places belong to different chunks. -/
theorem Paced.index_ne (paced : state.Paced) (coherent : state.Coherent) {first second : Nat}
    {span other : Span} (spanAt : state.spans[first]? = some span)
    (otherAt : state.spans[second]? = some other) (apart : first ≠ second) :
    span.index ≠ other.index := by
  intro together
  refine coherent.id_ne spanAt otherAt apart together ?_
  rw [paced.id_eq (List.mem_of_getElem? spanAt), paced.id_eq (List.mem_of_getElem? otherAt)]

/-- The change of one slot keeps the pace of all spans, with the growths that are recorded for the
span that asked for it. -/
theorem Paced.record {state : Relaxation} (paced : state.Paced) (coherent : state.Coherent)
    {place : Nat} {span : Span} {slot : Slot} {outcome : Outcome}
    (firing : state.Firing place span slot) (added : List Growth)
    (own : ∀ growth ∈ added, growth.isFor span = true)
    (pace : ({ span with seen := state.seenBy span, state := outcome.spanState } : Span).Paced
      (span.growthsAmong (state.growths ++ added)) outcome.slot) :
    Paced { state.advance place span outcome with
      expansions := state.expansions + added.length
      growths := state.growths ++ added } where
  counted := by rw [List.length_append, paced.counted]
  keyed := by
    have keys : (state.advance place span outcome).spanKeys = state.spanKeys :=
      spanKeys_advance firing.spanAt outcome
    intro growth member
    change _ ∈ (state.advance place span outcome).spanKeys
    rw [keys]
    rcases List.mem_append.mp member with old | new
    · exact paced.keyed growth old
    · obtain ⟨index, kind⟩ := isFor_iff.mp (own growth new)
      rw [index, kind]
      exact List.mem_map_of_mem (List.mem_of_getElem? firing.spanAt)
  spans := by
    intro other member
    obtain ⟨index, otherAt⟩ := List.mem_iff_getElem?.mp member
    by_cases here : place = index
    · subst here
      have inRange : place < state.spans.length := (List.getElem?_eq_some_iff.mp firing.spanAt).1
      simp only [Relaxation.advance, List.getElem?_set_self inRange, Option.some.injEq] at otherAt
      subst otherAt
      exact ⟨outcome.slot,
        List.getElem?_set_self (List.getElem?_eq_some_iff.mp firing.slotAt).1, pace⟩
    · simp only [Relaxation.advance, List.getElem?_set_ne here] at otherAt
      obtain ⟨found, foundAt, kept⟩ := paced.spans other (List.mem_of_getElem? otherAt)
      have apart := paced.index_ne coherent firing.spanAt otherAt here
      refine ⟨found, by simpa [Relaxation.advance, List.getElem?_set_ne apart] using foundAt, ?_⟩
      -- None of the new growths is the other span's.
      have foreign : other.growthsAmong added = 0 := by
        refine List.countP_eq_zero.mpr fun growth new mine => apart ?_
        exact (isFor_iff.mp (own growth new)).1.symm.trans (isFor_iff.mp mine).1
      rwa [Span.growthsAmong_append, foreign, Nat.add_zero]

/-- Dropping the spans of a chunk that failed keeps the pace. -/
theorem Paced.dropSpans (paced : state.Paced) (index : Nat) (error : Error)
    (problems : List LayoutProblem) :
    Paced (dropSpans
      { state with
        slots := state.slots.modify index fun slot => { slot with error := some error }
        problems } index) where
  counted := paced.counted
  keyed := by
    rw [spanKeys_dropSpans]
    exact paced.keyed
  spans := by
    intro span member
    simp only [Relaxation.dropSpans, List.mem_map] at member
    obtain ⟨old, oldMember, rfl⟩ := member
    obtain ⟨slot, slotAt, pace⟩ := paced.spans old oldMember
    have same : ∃ now, (state.slots.modify index fun slot => { slot with error := some error })[
        old.index]? = some now ∧ now.length = slot.length := by
      rw [List.getElem?_modify, slotAt]
      refine ⟨_, rfl, ?_⟩
      split <;> rfl
    obtain ⟨now, nowAt, length⟩ := same
    split
    · exact ⟨now, nowAt, pace.drop.congr length⟩
    · exact ⟨now, nowAt, pace.congr length⟩

/-- Assigning offsets keeps the pace: slots with spans only move. -/
theorem Paced.assignOffsets (paced : state.Paced)
    (coherent : state.Coherent) : state.assignOffsets.Paced where
  counted := paced.counted
  keyed := paced.keyed
  spans := by
    intro span member
    obtain ⟨slot, slotAt, pace⟩ := paced.spans span member
    obtain ⟨watched, watchedAt, ruleless, -⟩ := coherent.watched span member
    rw [slotAt, Option.some.injEq] at watchedAt
    subst watchedAt
    obtain ⟨place, placed⟩ := placeSlots_getElem? 0 state.slots span.index
    rw [slotAt, Option.map_some, Slot.placeAt_of_setter_none ruleless] at placed
    exact ⟨_, placed, pace.congr rfl⟩

/-- A span that fires keeps the pace. -/
theorem Paced.of_firing (paced : state.Paced) {place : Nat} {span : Span} {slot : Slot}
    (firing : state.Firing place span slot) :
    span.Paced (span.growthsAmong state.growths) slot := by
  obtain ⟨found, foundAt, pace⟩ := paced.spans span (List.mem_of_getElem? firing.spanAt)
  rw [firing.slotAt, Option.some.injEq] at foundAt
  exact foundAt ▸ pace

section

variable {place : Nat} {slot : Slot} {span : Span} (paced : state.Paced)
  (coherent : state.Coherent) (firing : state.Firing place span slot)
include paced coherent firing

/-- The change of a slot that is not counted as a growth. -/
theorem Paced.advance :
    (state.advance place span (slot.grow span (state.distance span.field))).Paced := by
  have pace := (paced.of_firing firing).grown (active_of_isPending firing.pending)
    (state.distance span.field) (state.seenBy span)
  have kept := paced.record coherent firing [] (List.forall_mem_nil _)
    (by rw [List.append_nil]; exact pace.1)
  rw [List.append_nil] at kept
  exact kept

/-- The change of a slot that is counted as a growth. -/
theorem Paced.enlarge (granted : (slot.grow span (state.distance span.field)).error = none)
    (more : slot.total < (slot.grow span (state.distance span.field)).slot.total) :
    ((state.advance place span (slot.grow span (state.distance span.field))).enlarge span
      (state.seenBy span) slot.total
      (slot.grow span (state.distance span.field)).slot.total).Paced := by
  have pace := (paced.of_firing firing).grown (active_of_isPending firing.pending)
    (state.distance span.field) (state.seenBy span)
  have recorded := paced.record coherent firing
    [{ index := span.index, span := span.purpose.id, distance := state.seenBy span
       before := slot.total, after := (slot.grow span (state.distance span.field)).slot.total }]
    (by simp [isFor_iff])
    (by simpa [Span.growthsAmong, Growth.isFor] using pace.2 more)
  have advanced := coherent.advance firing granted
  exact recorded.assignOffsets ⟨advanced.watched, advanced.distinct⟩

end

/-- Nothing that a relaxation does makes a span lose its pace. -/
theorem paced_preserved : Preserved fun state => state.Coherent ∧ state.Paced where
  work := by
    rintro state next place grew ⟨coherent, paced⟩ effect
    refine ⟨coherent_preserved.work coherent effect, ?_⟩
    cases effect with
    | idle => exact paced
    | failed firing grown refused =>
      subst grown
      exact (paced.advance coherent firing).dropSpans ..
    | shrank firing grown granted less =>
      subst grown
      exact (paced.advance coherent firing).dropSpans ..
    | kept firing grown granted same =>
      subst grown
      exact paced.advance coherent firing
    | grew firing grown granted more =>
      subst grown
      exact paced.enlarge coherent firing granted more
  pass := by
    rintro state ⟨coherent, paced⟩
    exact ⟨coherent_preserved.pass coherent, paced.counted, paced.keyed, paced.spans⟩
  stop := by
    rintro state error ⟨coherent, paced⟩
    exact ⟨coherent_preserved.stop error coherent, paced.counted, paced.keyed, paced.spans⟩
  assign := by
    rintro state ⟨coherent, paced⟩
    exact ⟨coherent_preserved.assign coherent, paced.assignOffsets coherent⟩

/-- A chunk grows at most nine times for one span. -/
theorem Paced.growthsAmong_le (paced : state.Paced) {span : Span}
    (member : span ∈ state.spans) : span.growthsAmong state.growths ≤ 9 := by
  obtain ⟨slot, -, pace⟩ := paced.spans span member
  exact pace.le_nine

/-- Items that all have an owner, with so many of them at most for each. -/
theorem length_le_of_countP_le {α β : Type} {owns : β → α → Bool} {owners : List β}
    {items : List α} {bound : Nat}
    (owned : ∀ item ∈ items, ∃ owner ∈ owners, owns owner item = true)
    (counts : ∀ owner ∈ owners, items.countP (owns owner) ≤ bound) :
    items.length ≤ owners.length * bound := by
  induction owners generalizing items with
  | nil =>
    cases items with
    | nil => exact Nat.zero_le _
    | cons item rest =>
      obtain ⟨owner, inside, _⟩ := owned item List.mem_cons_self
      cases inside
  | cons owner rest ih =>
    -- What the first owner does not own belongs to the others.
    have others : (items.filter fun item => !owns owner item).length ≤ rest.length * bound := by
      apply ih
      · intro item inside
        obtain ⟨member, foreign⟩ := List.mem_filter.mp inside
        obtain ⟨other, otherIn, owning⟩ := owned item member
        rcases List.mem_cons.mp otherIn with rfl | later
        · simp [owning] at foreign
        · exact ⟨other, later, owning⟩
      · intro other otherIn
        exact (List.filter_sublist.countP_le).trans (counts other (List.mem_cons_of_mem _ otherIn))
    have first := counts owner List.mem_cons_self
    have whole : items.length =
        items.countP (owns owner) + (items.filter fun item => !owns owner item).length := by
      rw [← List.countP_eq_length_filter, List.length_eq_countP_add_countP (owns owner)]
      simp
    rw [List.length_cons, Nat.succ_mul]
    omega

/-- Every growth is that of a span. -/
theorem Paced.exists_isFor (paced : state.Paced) {growth : Growth}
    (member : growth ∈ state.growths) : ∃ span ∈ state.spans, growth.isFor span = true := by
  obtain ⟨span, spanMember, same⟩ := List.mem_map.mp (paced.keyed growth member)
  rw [Prod.mk.injEq] at same
  exact ⟨span, spanMember, isFor_iff.mpr ⟨same.1.symm, same.2.symm⟩⟩

/-- A relaxation has at most nine growths for each span. -/
theorem Paced.expansions_le (paced : state.Paced) :
    state.expansions ≤ state.spans.length * 9 := by
  rw [← paced.counted]
  exact length_le_of_countP_le (fun growth => paced.exists_isFor) fun span => paced.growthsAmong_le

end Relaxation

end Assembler
