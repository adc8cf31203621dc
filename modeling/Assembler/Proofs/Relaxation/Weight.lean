import Assembler.Proofs.Emission.Rebase
import Assembler.Proofs.Relaxation.Minimal
import Mathlib.Algebra.BigOperators.Group.Finset.Basic

/-!
# How chunks count in distances

The bytes of a chunk move every position behind it, so they count in an expression as often as the
coefficients of these positions add up to (`Expr.weightBehind`). When chunks grow, a distance
changes by the weight of each times its growth (`Expr.value_grown`).
-/

namespace Assembler

variable {expr : Expr} {extent : Nat → Nat}

variable {index : Nat} {slots : List Slot} {state : Relaxation}

/-- Where positions are if chunks have these extents, in unbounded numbers; symbols are nowhere. -/
def placesAmong (extent : Nat → Nat) : Base → Int
  | .place location =>
    ∑ chunk ∈ Finset.range location.index, (extent chunk : Int) + location.offset.toNat
  | .symbol _ => 0

/-- Whether a base is a position behind a chunk. -/
def Base.isBehind (base : Base) (index : Nat) : Bool :=
  match base with
  | .place location => index < location.index
  | .symbol _ => false

/-- How often the bytes of a chunk count in an expression: the sum of the coefficients behind it. -/
def Expr.weightBehind (expr : Expr) (index : Nat) : Int :=
  ((expr.terms.filter fun term => term.base.isBehind index).map fun term =>
    term.coefficient.toInt).sum

/-- Each term behind a chunk adds its coefficient. -/
theorem Expr.weightBehind_cons (constant : Int) (term : Term) (rest : List Term) (index : Nat) :
    weightBehind ⟨constant, term :: rest⟩ index =
      (if term.base.isBehind index then term.coefficient.toInt else 0) +
        weightBehind ⟨constant, rest⟩ index := by
  cases behind : term.base.isBehind index <;> simp [weightBehind, behind]

section

variable {before after : Nat → Nat} {count : Nat}

/-- A position moves by the growth of the chunks before it. -/
theorem placesAmong_grown (same : ∀ chunk, count ≤ chunk → after chunk = before chunk)
    (base : Base) :
    placesAmong after base = placesAmong before base +
      ∑ chunk ∈ Finset.range count,
        if base.isBehind chunk then (after chunk - before chunk : Int) else 0 := by
  cases base with
  | symbol id => simp [placesAmong, Base.isBehind]
  | place location =>
    have growth : ∑ chunk ∈ Finset.range count,
          (if chunk < location.index then (after chunk - before chunk : Int) else 0) =
        ∑ chunk ∈ Finset.range location.index, (after chunk - before chunk : Int) := by
      rw [← Finset.sum_filter]
      refine Finset.sum_subset (fun chunk member => ?_) fun chunk within outside => ?_
      · exact Finset.mem_range.mpr (Finset.mem_filter.mp member).2
      · have beyond : count ≤ chunk := by
          by_contra inside
          exact outside (Finset.mem_filter.mpr
            ⟨Finset.mem_range.mpr (Nat.not_le.mp inside), Finset.mem_range.mp within⟩)
        rw [same chunk beyond, Int.sub_self]
    simp only [placesAmong, Base.isBehind, decide_eq_true_eq]
    rw [growth, Finset.sum_sub_distrib]
    ring

/-- An expression changes by the weight of each chunk times its growth. -/
theorem Expr.value_grown (expr : Expr)
    (same : ∀ chunk, count ≤ chunk → after chunk = before chunk) :
    expr.value (placesAmong after) = expr.value (placesAmong before) +
      ∑ chunk ∈ Finset.range count,
        expr.weightBehind chunk * (after chunk - before chunk : Int) := by
  obtain ⟨constant, terms⟩ := expr
  simp only [Expr.value]
  induction terms with
  | nil => simp [Expr.weightBehind]
  | cons term rest ih =>
    have own : term.coefficient.toInt * placesAmong after term.base =
        term.coefficient.toInt * placesAmong before term.base +
          ∑ chunk ∈ Finset.range count, (if term.base.isBehind chunk then
            term.coefficient.toInt else 0) * (after chunk - before chunk : Int) := by
      rw [placesAmong_grown same, mul_add, Finset.mul_sum]
      congr 1
      refine Finset.sum_congr rfl fun chunk _ => ?_
      split <;> ring
    simp only [List.map_cons, List.sum_cons, Expr.weightBehind_cons, add_mul,
      Finset.sum_add_distrib]
    omega

/-- What one chunk counts for when it alone changes. -/
theorem Expr.value_update (expr : Expr) (extent : Nat → Nat) (index total : Nat) :
    expr.value (placesAmong (Function.update extent index total)) =
      expr.value (placesAmong extent) +
        expr.weightBehind index * (total - extent index : Int) := by
  have same : ∀ chunk, index + 1 ≤ chunk →
      Function.update extent index total chunk = extent chunk :=
    fun chunk beyond => Function.update_of_ne (by omega) ..
  rw [expr.value_grown same, Finset.sum_range_succ, Function.update_self]
  have others : ∑ chunk ∈ Finset.range index, expr.weightBehind chunk *
      ((Function.update extent index total chunk : Nat) - extent chunk : Int) = 0 := by
    refine Finset.sum_eq_zero fun chunk member => ?_
    have before := Finset.mem_range.mp member
    rw [Function.update_of_ne (by omega), Int.sub_self, Int.mul_zero]
  rw [others, Int.zero_add]

end

/-- Only the bases of its terms matter to an expression. -/
theorem Expr.value_congr {first second : Base → Int}
    (same : ∀ term ∈ expr.terms, first term.base = second term.base) :
    expr.value first = expr.value second := by
  unfold Expr.value
  congr 2
  exact List.map_congr_left fun term member => by rw [same term member]

/-- A chunk counts if positions with one sign of coefficients only are behind it, and any is. -/
theorem Expr.weightBehind_ne_zero
    (oneSided : (∀ term ∈ expr.terms, term.base.isBehind index = true → 0 < term.coefficient) ∨
      ∀ term ∈ expr.terms, term.base.isBehind index = true → term.coefficient < 0)
    (someBehind : ∃ term ∈ expr.terms, term.base.isBehind index = true) :
    expr.weightBehind index ≠ 0 := by
  have nonempty : (expr.terms.filter fun term => term.base.isBehind index) ≠ [] := by
    obtain ⟨term, member, behind⟩ := someBehind
    exact List.ne_nil_of_mem (List.mem_filter.mpr ⟨member, behind⟩)
  rcases oneSided with positive | negative
  · refine (List.sum_pos _ ?_ (by simpa using nonempty)).ne'
    intro value member
    obtain ⟨term, among, rfl⟩ := List.mem_map.mp member
    obtain ⟨termMember, behind⟩ := List.mem_filter.mp among
    exact Int64.lt_iff_toInt_lt.mp (positive term termMember behind)
  · have opposite : 0 < (((expr.terms.filter fun term => term.base.isBehind index).map fun term =>
        term.coefficient.toInt).map Neg.neg).sum := by
      refine List.sum_pos _ ?_ (by simpa using nonempty)
      intro value member
      rw [List.map_map] at member
      obtain ⟨term, among, rfl⟩ := List.mem_map.mp member
      obtain ⟨termMember, behind⟩ := List.mem_filter.mp among
      exact Int.neg_pos_of_neg (Int64.lt_iff_toInt_lt.mp (negative term termMember behind))
    rw [← List.sum_neg] at opposite
    exact (Int.neg_of_neg_pos opposite).ne

/-- The extents of slots by their numbers; behind the last there is nothing. -/
def extentsOf (slots : List Slot) (index : Nat) : Nat := (slots.map Slot.extent)[index]?.getD 0

theorem extentsOf_of_length_le (beyond : slots.length ≤ index) :
    extentsOf slots index = 0 := by
  rw [extentsOf, List.getElem?_eq_none (by simpa using beyond), Option.getD_none]

theorem extentsOf_of_getElem? {slot : Slot}
    (slotAt : slots[index]? = some slot) : extentsOf slots index = slot.extent := by
  rw [extentsOf, List.getElem?_map, slotAt, Option.map_some, Option.getD_some]

/-- Setting a slot changes its own extent only. -/
theorem extentsOf_set (inRange : index < slots.length) (slot : Slot) :
    extentsOf (slots.set index slot) = Function.update (extentsOf slots) index slot.extent := by
  funext place
  by_cases here : index = place
  · subst here
    rw [extentsOf_of_getElem? (List.getElem?_set_self inRange), Function.update_self]
  · rw [extentsOf, List.map_set, List.getElem?_set_ne here, Function.update_of_ne (Ne.symm here),
      extentsOf]

/-- The first slots take up the sum of their extents. -/
theorem sum_extentsOf (slots : List Slot) (count : Nat) :
    ∑ chunk ∈ Finset.range count, extentsOf slots chunk =
      ((slots.map Slot.extent).take count).sum := by
  induction count with
  | zero => rfl
  | succ count ih =>
    rw [Finset.sum_range_succ, ih, List.take_add_one, List.sum_append, extentsOf]
    cases (slots.map Slot.extent)[count]? <;> simp

/-- Slots with the same extents in the same order have the same extents by number. -/
theorem extentsOf_congr {others : List Slot}
    (same : slots.map Slot.extent = others.map Slot.extent) :
    extentsOf slots = extentsOf others := by
  funext index
  rw [extentsOf, extentsOf, same]

/-- Slots without more bytes than others have a total that is not greater. -/
theorem sum_extent_mono {others : List Slot}
    (le : ∀ index, extentsOf slots index ≤ extentsOf others index) :
    (slots.map Slot.extent).sum ≤ (others.map Slot.extent).sum := by
  have whole : ∀ list : List Slot, list.length ≤ max slots.length others.length →
      (list.map Slot.extent).sum =
        ∑ chunk ∈ Finset.range (max slots.length others.length), extentsOf list chunk := by
    intro list within
    rw [sum_extentsOf, List.take_of_length_le (by simpa using within)]
  rw [whole slots (Nat.le_max_left _ _), whole others (Nat.le_max_right _ _)]
  exact Finset.sum_le_sum fun chunk _ => le chunk

/-- A slot without a rule for its length, and without a negative number of copies. -/
structure Slot.Plain (slot : Slot) : Prop where
  ruleless : slot.setter = none
  counted : 0 ≤ slot.copies.toInt

namespace Slot.Plain

variable {slot : Slot}

theorem proper (plain : slot.Plain) : slot.Proper :=
  ⟨plain.counted, by simp [plain.ruleless], by simp [plain.ruleless]⟩

theorem placeAt (plain : slot.Plain) (offset : UInt64) : (slot.placeAt offset).Plain :=
  ⟨by simpa using plain.ruleless, by simpa using plain.counted⟩

theorem grow (plain : slot.Plain) (span : Span) (distance : Option Int64) :
    (slot.grow span distance).slot.Plain :=
  ⟨by simpa using plain.ruleless, (plain.proper.grow plain.ruleless span distance).copies⟩

end Slot.Plain

/-- Slots that are plain are so wherever they are placed. -/
theorem plain_placeSlots (plain : ∀ slot ∈ slots, slot.Plain)
    (offset : UInt64) : ∀ slot ∈ (placeSlots offset slots).1, slot.Plain := by
  intro slot member
  obtain ⟨index, found⟩ := List.mem_iff_getElem?.mp member
  obtain ⟨old, oldAt, placed⟩ := Grounded.mem_placeSlots found
  exact placed ▸ (plain old (List.mem_of_getElem? oldAt)).placeAt _

/-- Slots without rules keep their extents wherever they are placed. -/
theorem map_extent_placeSlots (plain : ∀ slot ∈ slots, slot.Plain) (offset : UInt64) :
    (placeSlots offset slots).1.map Slot.extent = slots.map Slot.extent := by
  induction slots generalizing offset with
  | nil => rfl
  | cons slot rest ih =>
    obtain ⟨own, others⟩ := List.forall_mem_cons.mp plain
    rw [placeSlots, Slot.placeAt_of_setter_none own.ruleless]
    simp only [List.map_cons, ih others]
    rfl

/-- Where chunks start if they have these extents and no offset wraps. -/
def Relaxation.Standing (state : Relaxation) (extent : Nat → Nat) : Prop :=
  ∀ index, (offsetAmong state.slots state.size ⟨state.home, index, 0⟩).toNat =
    ∑ chunk ∈ Finset.range index, extent chunk

/-- Contiguous slots whose bytes words can count stand by their extents. -/
theorem Contiguous.standing (contiguous : Contiguous 0 state.slots state.size)
    (plain : ∀ slot ∈ state.slots, slot.Plain)
    (bounded : (state.slots.map Slot.extent).sum < 2 ^ 64) :
    state.Standing (extentsOf state.slots) := by
  intro index
  rw [contiguous.toNat_offsetAmong (fun slot member => (plain slot member).counted)
    (by simpa using bounded), sum_extentsOf,
    UInt64.toNat_zero, Nat.zero_add]

/-- Chunks that stand by some extents still do when no offset has changed. -/
theorem Relaxation.Standing.congr {next : Relaxation}
    (standing : state.Standing extent) (same : SameOffsets state next) : next.Standing extent := by
  intro index
  rw [same.2, same.1]
  exact standing index

/-- A position is where the chunks before it end, unless its own offset wraps. -/
theorem Relaxation.Standing.offsets_eq (standing : state.Standing extent)
    {base : Base} (fits : ∀ location, base = .place location →
      ∑ chunk ∈ Finset.range location.index, extent chunk + location.offset.toNat < 2 ^ 64) :
    state.offsets base = placesAmong extent base := by
  cases base with
  | symbol id => rfl
  | place location =>
    have start := standing location.index
    have shifted : offsetAmong state.slots state.size location =
        offsetAmong state.slots state.size ⟨state.home, location.index, 0⟩ + location.offset := by
      unfold offsetAmong
      dsimp only
      split <;> rw [UInt64.add_zero]
    have whole := fits location rfl
    simp only [Relaxation.offsets, placesAmong]
    rw [shifted, UInt64.toNat_add, start, Nat.mod_eq_of_lt whole]
    push_cast
    rfl

/-- The value of a distance over slots that stand by these extents. -/
theorem Relaxation.Standing.exactValue_eq (standing : state.Standing extent)
    {field : Field} (distance : field.expr.isDistance state.home = true)
    (absent : field.symbol = none) (uncounted : field.origin = none)
    (fits : ∀ location ∈ field.expr.places,
      ∑ chunk ∈ Finset.range location.index, extent chunk + location.offset.toNat < 2 ^ 64) :
    state.exactValue field = field.expr.value (placesAmong extent) := by
  rw [(exactValue_of_isDistance distance absent uncounted).2]
  refine Expr.value_congr fun term member => standing.offsets_eq ?_
  intro location isPlace
  exact fits location (Expr.mem_places.mpr ⟨term, member, isPlace⟩)

/-- While chunks grow, a distance changes by the weight of each chunk times its growth. -/
theorem Relaxation.exactValue_grown {early late : Relaxation} {before after : Nat → Nat}
    (home : late.home = early.home) (earlier : early.Standing before) (later : late.Standing after)
    (le : ∀ index, before index ≤ after index) {count : Nat}
    (beyond : ∀ index, count ≤ index → after index = 0) {field : Field}
    (distance : field.expr.isDistance early.home = true) (absent : field.symbol = none)
    (uncounted : field.origin = none)
    (fits : ∀ location ∈ field.expr.places,
      ∑ chunk ∈ Finset.range location.index, after chunk + location.offset.toNat < 2 ^ 64) :
    late.exactValue field = early.exactValue field + ∑ index ∈ Finset.range count,
      field.expr.weightBehind index * (after index - before index : Int) := by
  have fitsBefore : ∀ location ∈ field.expr.places,
      ∑ chunk ∈ Finset.range location.index, before chunk + location.offset.toNat < 2 ^ 64 := by
    intro location placed
    have fewer : ∑ chunk ∈ Finset.range location.index, before chunk ≤
        ∑ chunk ∈ Finset.range location.index, after chunk :=
      Finset.sum_le_sum fun chunk _ => le chunk
    have most := fits location placed
    omega
  rw [later.exactValue_eq (home ▸ distance) absent uncounted fits,
    earlier.exactValue_eq distance absent uncounted fitsBefore]
  refine field.expr.value_grown fun index outside => ?_
  have least := le index
  rw [beyond index outside] at least ⊢
  omega

/-- Growth of chunks without a positive weight adds nothing. -/
theorem sum_weight_nonpos {before after : Nat → Nat}
    (le : ∀ index, before index ≤ after index)
    (harmless : ∀ index, before index < after index → expr.weightBehind index ≤ 0) (count : Nat) :
    ∑ index ∈ Finset.range count,
      expr.weightBehind index * (after index - before index : Int) ≤ 0 := by
  refine Finset.sum_nonpos fun index _ => ?_
  rcases Nat.lt_or_ge (before index) (after index) with grown | same
  · exact Int.mul_nonpos_of_nonpos_of_nonneg (harmless index grown) (by omega)
  · have unchanged : (after index - before index : Int) = 0 := by
      have least := le index
      omega
    rw [unchanged, Int.mul_zero]

end Assembler
