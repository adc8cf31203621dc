import Assembler.Expr
import Mathlib.Data.List.Basic

/-!
# The order of terms

The operations on expressions keep terms in the order of their bases (`Ordered`). That order makes
leaving out some bases commute with every operation (`filter_insertTerm`): an expression without
them is what the operations give when they are left out from the start. The coefficient of a base,
as a word, is linear in the expression whatever the order.
-/

namespace Assembler

variable {term : Term} {terms : List Term}

namespace Location

/-- No location comes before itself. -/
theorem isBefore_irrefl (location : Location) : location.isBefore location = false := by
  simp [isBefore]

theorem isBefore_trans {first second third : Location} (before : first.isBefore second = true)
    (later : second.isBefore third = true) : first.isBefore third = true := by
  unfold isBefore at before later ⊢
  grind [UInt64.lt_trans]

/-- Of two locations, one comes before the other. -/
theorem isBefore_total {left right : Location} (different : left ≠ right)
    (behind : left.isBefore right = false) : right.isBefore left = true := by
  obtain ⟨home, index, offset⟩ := left
  obtain ⟨otherHome, otherIndex, otherOffset⟩ := right
  have ordered : ¬ offset < otherOffset → offset ≠ otherOffset → otherOffset < offset :=
    fun notBelow apart => UInt64.lt_of_le_of_ne (UInt64.not_lt.mp notBelow) apart.symm
  unfold isBefore at behind ⊢
  grind

end Location

namespace Base

/-- No base comes before itself. -/
theorem isBefore_irrefl (base : Base) : base.isBefore base = false := by
  cases base with
  | symbol id => simp [isBefore]
  | place location => simp [isBefore, Location.isBefore_irrefl]

theorem isBefore_trans {first second third : Base} (before : first.isBefore second = true)
    (later : second.isBefore third = true) : first.isBefore third = true := by
  cases first <;> cases second <;> cases third <;> simp only [isBefore, rank] at before later ⊢
  case place.place.place =>
    simp only [ne_eq, not_true_eq_false, if_false] at before later ⊢
    exact Location.isBefore_trans before later
  all_goals grind

/-- No symbol has the number zero. -/
def Proper : Base → Prop
  | .symbol id => id ≠ 0
  | .place _ => True

/-- Of two proper bases, one is before the other. -/
theorem isBefore_total {left right : Base} (proper : left.Proper) (other : right.Proper)
    (different : left ≠ right) (behind : left.isBefore right = false) :
    right.isBefore left = true := by
  cases left with
  | symbol id =>
    have positive : id ≠ 0 := proper
    cases right with
    | symbol | place =>
      unfold isBefore rank at behind ⊢
      grind
  | place location =>
    cases right with
    | symbol id =>
      have positive : id ≠ 0 := other
      unfold isBefore rank at behind ⊢
      grind
    | place position =>
      have apart : location ≠ position := fun same => different (by rw [same])
      simp only [isBefore, rank, ne_eq, not_true_eq_false, if_false] at behind ⊢
      exact Location.isBefore_total apart behind

end Base

/-- Whether a term is a position. -/
def Term.isPlace (term : Term) : Bool :=
  match term.base with
  | .place _ => true
  | .symbol _ => false

namespace Expr

/-- Terms in the order of their bases, no base twice. -/
structure Ordered (terms : List Term) : Prop where
  sorted : terms.Pairwise fun left right => left.base.isBefore right.base = true
  proper : ∀ term ∈ terms, term.base.Proper

namespace Ordered

theorem nil : Ordered [] := ⟨List.Pairwise.nil, by simp⟩

theorem singleton (proper : term.base.Proper) : Ordered [term] :=
  ⟨List.pairwise_singleton .., by simpa using proper⟩

theorem tail {first : Term} {rest : List Term} (ordered : Ordered (first :: rest)) :
    Ordered rest :=
  ⟨(List.pairwise_cons.mp ordered.sorted).2,
    fun term member => ordered.proper term (List.mem_cons_of_mem _ member)⟩

end Ordered

/-- The bases after adding a term are the old ones and its own. -/
theorem base_of_mem_insertTerm {other : Term} (member : other ∈ insertTerm term terms) :
    other.base = term.base ∨ ∃ old ∈ terms, other.base = old.base := by
  induction terms with
  | nil =>
    unfold insertTerm at member
    split at member
    · cases member
    · exact .inl (by rw [List.mem_singleton.mp member])
  | cons first rest ih =>
    have among : other ∈ first :: rest →
        other.base = term.base ∨ ∃ old ∈ first :: rest, other.base = old.base :=
      fun found => .inr ⟨other, found, rfl⟩
    unfold insertTerm at member
    split at member
    · next same =>
      split at member
      · exact among (List.mem_cons_of_mem _ member)
      · rcases List.mem_cons.mp member with rfl | found
        · exact .inl same.symm
        · exact among (List.mem_cons_of_mem _ found)
    · split at member
      · split at member
        · exact among member
        · rcases List.mem_cons.mp member with rfl | found
          · exact .inl rfl
          · exact among found
      · rcases List.mem_cons.mp member with rfl | found
        · exact among List.mem_cons_self
        · rcases ih found with same | ⟨old, inRest, same⟩
          · exact .inl same
          · exact .inr ⟨old, List.mem_cons_of_mem _ inRest, same⟩

/-- Inserting a term keeps terms ordered. -/
theorem Ordered.insertTerm (proper : term.base.Proper)
    (ordered : Ordered terms) : Ordered (insertTerm term terms) := by
  refine ⟨?_, fun other member => ?_⟩
  · induction terms with
    | nil =>
      unfold Expr.insertTerm
      split <;> simp
    | cons first rest ih =>
      obtain ⟨least, later⟩ := List.pairwise_cons.mp ordered.sorted
      unfold Expr.insertTerm
      split
      · next same =>
        split
        · exact later
        · exact List.pairwise_cons.mpr ⟨least, later⟩
      · next different =>
        split
        · next before =>
          split
          · exact ordered.sorted
          · refine List.pairwise_cons.mpr ⟨fun next member => ?_, ordered.sorted⟩
            rcases List.mem_cons.mp member with rfl | member
            · exact before
            · exact Base.isBefore_trans before (least next member)
        · next notBefore =>
          refine List.pairwise_cons.mpr ⟨fun next member => ?_, ih ordered.tail⟩
          rcases base_of_mem_insertTerm member with same | ⟨old, inRest, same⟩
          · rw [same]
            exact Base.isBefore_total proper (ordered.proper first List.mem_cons_self) different
              (by simpa using notBefore)
          · rw [same]
            exact least old inRest
  · rcases base_of_mem_insertTerm member with same | ⟨old, inTerms, same⟩
    · rw [same]
      exact proper
    · rw [same]
      exact ordered.proper old inTerms

/-- A term that comes before all others is put in front, unless it is zero. -/
theorem insertTerm_of_before {term : Term} {terms : List Term}
    (before : ∀ other ∈ terms, term.base.isBefore other.base = true) :
    insertTerm term terms = if term.coefficient = 0 then terms else term :: terms := by
  cases terms with
  | nil => rfl
  | cons first rest =>
    have least := before first List.mem_cons_self
    have different : term.base ≠ first.base := by
      intro same
      rw [same, Base.isBefore_irrefl] at least
      cases least
    rw [insertTerm, if_neg different, if_pos least]

section

variable (keep : Base → Bool)

/-- Leaving out bases commutes with adding a term. -/
theorem filter_insertTerm (ordered : Ordered terms) :
    (insertTerm term terms).filter (fun other => keep other.base) =
      if keep term.base then insertTerm term (terms.filter fun other => keep other.base)
      else terms.filter fun other => keep other.base := by
  induction terms with
  | nil =>
    unfold insertTerm
    by_cases zero : term.coefficient = 0 <;> by_cases kept : keep term.base <;> simp [zero, kept]
  | cons first rest ih =>
    have least := (List.pairwise_cons.mp ordered.sorted).1
    have later := ih ordered.tail
    rw [insertTerm]
    split
    · next same =>
      by_cases kept : keep first.base
      · by_cases cancels : first.coefficient + term.coefficient = 0 <;>
          simp [same, kept, cancels, insertTerm]
      · by_cases cancels : first.coefficient + term.coefficient = 0 <;> simp [same, kept, cancels]
    · next different =>
      split
      · next before =>
        -- A term in front of a base that is left out stays in front of the rest.
        by_cases kept : keep first.base
        · by_cases zero : term.coefficient = 0 <;> by_cases own : keep term.base <;>
            simp [kept, zero, own, insertTerm, different, before]
        · have front := @insertTerm_of_before term (rest.filter fun other => keep other.base)
            fun other member =>
              Base.isBefore_trans before (least other (List.mem_of_mem_filter member))
          by_cases zero : term.coefficient = 0
          · rw [if_pos zero] at front ⊢
            by_cases own : keep term.base <;> simp [kept, own, front]
          · rw [if_neg zero] at front ⊢
            by_cases own : keep term.base <;> simp [kept, own, front]
      · next notBefore =>
        by_cases kept : keep first.base
        · by_cases own : keep term.base <;>
            simp [kept, later, own, insertTerm, different, notBefore]
        · by_cases own : keep term.base <;> simp [kept, later, own]

/-- Adding terms keeps the order, and leaving out bases commutes with it. -/
theorem Ordered.insertTerms {left right : List Term} (ordered : Ordered left)
    (proper : ∀ term ∈ right, term.base.Proper) :
    Ordered (right.foldl (fun terms term => Expr.insertTerm term terms) left) ∧
      (right.foldl (fun terms term => Expr.insertTerm term terms) left).filter
          (fun other => keep other.base) =
        (right.filter fun other => keep other.base).foldl
          (fun terms term => Expr.insertTerm term terms)
          (left.filter fun other => keep other.base) := by
  induction right generalizing left with
  | nil => exact ⟨ordered, rfl⟩
  | cons term rest ih =>
    have next := ordered.insertTerm (proper term List.mem_cons_self)
    obtain ⟨kept, filtered⟩ :=
      ih next fun other member => proper other (List.mem_cons_of_mem _ member)
    refine ⟨kept, ?_⟩
    rw [List.foldl_cons, filtered, filter_insertTerm keep ordered]
    by_cases own : keep term.base <;> simp [own]

/-- Scaling keeps terms ordered. -/
theorem Ordered.scale {expr : Expr} (ordered : Ordered expr.terms) (factor : Int64) :
    Ordered (expr.scale factor).terms := by
  constructor
  · apply List.Pairwise.filter
    rw [List.pairwise_map]
    exact ordered.sorted
  intro term member
  obtain ⟨old, inTerms, rfl⟩ := List.mem_map.mp (List.mem_of_mem_filter member)
  exact ordered.proper old inTerms

/-- Scaling and choosing terms by their bases commute, up to terms that become zero. -/
theorem filter_scale (expr : Expr) (factor : Int64) :
    (expr.scale factor).terms.filter (fun term => keep term.base) =
      ((expr.terms.filter fun term => keep term.base).map fun term =>
        { term with coefficient := term.coefficient * factor }).filter fun term =>
          term.coefficient ≠ 0 := by
  rw [scale, List.filter_filter, List.filter_map, List.filter_map, List.filter_filter]
  congr 1
  apply List.filter_congr
  intro term _
  exact Bool.and_comm _ _

end

/-- The coefficient of a base, as a word. -/
def coefficientOf (terms : List Term) (base : Base) : Int64 :=
  ((terms.filter fun term => term.base = base).map Term.coefficient).sum

/-- Each term adds its coefficient to that of its base. -/
theorem coefficientOf_cons (term : Term) (terms : List Term) (base : Base) :
    coefficientOf (term :: terms) base =
      (if term.base = base then term.coefficient else 0) + coefficientOf terms base := by
  unfold coefficientOf
  by_cases same : term.base = base
  · rw [List.filter_cons_of_pos (by simpa using same), if_pos same, List.map_cons, List.sum_cons]
  · rw [List.filter_cons_of_neg (by simpa using same), if_neg same, Int64.zero_add]

/-- Adding a term adds its coefficient to that of its base. -/
theorem coefficientOf_insertTerm (term : Term) (terms : List Term) (base : Base) :
    coefficientOf (insertTerm term terms) base =
      coefficientOf terms base + if term.base = base then term.coefficient else 0 := by
  induction terms with
  | nil =>
    unfold insertTerm
    split
    · next zero => simp [coefficientOf, zero]
    · rw [coefficientOf_cons, Int64.add_comm]
  | cons first rest ih =>
    unfold insertTerm
    split
    · next same =>
      split
      · next cancels =>
        rw [coefficientOf_cons, same]
        split
        · grind
        · grind
      · rw [coefficientOf_cons, coefficientOf_cons, same]
        grind
    · split
      · split
        · next zero => rw [zero]; grind
        · rw [coefficientOf_cons, Int64.add_comm]
      · rw [coefficientOf_cons, ih, coefficientOf_cons]
        grind

/-- Coefficients add up when terms are inserted into others. -/
theorem coefficientOf_insertTerms (left right : List Term) (base : Base) :
    coefficientOf (right.foldl (fun terms term => insertTerm term terms) left) base =
      coefficientOf left base + coefficientOf right base := by
  induction right generalizing left with
  | nil => simp [coefficientOf]
  | cons term rest ih =>
    rw [List.foldl_cons, ih, coefficientOf_insertTerm, coefficientOf_cons]
    grind

/-- Scaling multiplies every coefficient. -/
theorem coefficientOf_scale (expr : Expr) (factor : Int64) (base : Base) :
    coefficientOf (expr.scale factor).terms base = coefficientOf expr.terms base * factor := by
  unfold scale
  dsimp only
  induction expr.terms with
  | nil => simp [coefficientOf]
  | cons term rest ih =>
    rw [List.map_cons, coefficientOf_cons]
    by_cases zero : term.coefficient * factor = 0
    · rw [List.filter_cons_of_neg (by simpa using zero), ih]
      grind
    · rw [List.filter_cons_of_pos (by simpa using zero), coefficientOf_cons, ih]
      grind

end Expr

end Assembler
