import Assembler.Reloc
import Mathlib.Data.List.Nodup
import Mathlib.Data.List.Sort
import Mathlib.Data.UInt

/-!
# The order of relocations

A section keeps its relocations ordered by offset and no two at one offset (`Ordered`). Recording
one more keeps them so and replaces the one that was at its offset. Relocations at distinct offsets
replace none of each other, so all of them are recorded (`mem_insertAll`), and recording them again
changes nothing (`insertAll_insertAll`).
-/

namespace Assembler.Reloc

variable {reloc other : Reloc} {relocs : List Reloc}

variable {recorded : List Reloc}

/-- Relocations ordered by offset, at most one at each. -/
def Ordered (relocs : List Reloc) : Prop :=
  relocs.Pairwise fun left right => left.offset < right.offset
deriving Decidable

/-- A relocation replaces the one at its offset and leaves the others. -/
theorem mem_insert (ordered : Ordered recorded) :
    other ∈ insert reloc recorded ↔
      other = reloc ∨ (other ∈ recorded ∧ other.offset ≠ reloc.offset) := by
  induction recorded with
  | nil => simp [insert]
  | cons first rest ih =>
    obtain ⟨least, later⟩ := List.pairwise_cons.mp ordered
    -- What is behind the first has no offset up to that of the first.
    have apart : reloc.offset ≤ first.offset → other ∈ rest → other.offset ≠ reloc.offset := by
      intro below member same
      have behind := least other member
      rw [same] at behind
      exact UInt64.not_lt.mpr below behind
    unfold insert
    split
    · next same =>
      have kept := apart (UInt64.le_of_eq same)
      simp only [List.mem_cons]
      grind
    · next different =>
      split
      · next before =>
        have kept := apart (UInt64.le_of_lt before)
        simp only [List.mem_cons]
        grind
      · simp only [List.mem_cons, ih later]
        grind

/-- Inserting a relocation keeps the order. -/
theorem Ordered.insert (ordered : Ordered recorded) :
    Ordered (insert reloc recorded) := by
  induction recorded with
  | nil => simp [Reloc.insert, Ordered]
  | cons first rest ih =>
    obtain ⟨least, later⟩ := List.pairwise_cons.mp ordered
    unfold Reloc.insert
    split
    · next same => exact List.pairwise_cons.mpr ⟨fun next member => same ▸ least next member, later⟩
    · next different =>
      split
      · next before =>
        refine List.pairwise_cons.mpr ⟨fun next member => ?_, ordered⟩
        rcases List.mem_cons.mp member with rfl | member
        · exact before
        · exact UInt64.lt_trans before (least next member)
      · next behind =>
        refine List.pairwise_cons.mpr ⟨fun next member => ?_, ih later⟩
        rcases (mem_insert later).mp member with rfl | ⟨member, _⟩
        · exact UInt64.lt_of_le_of_ne (UInt64.not_lt.mp behind) fun same => different same.symm
        · exact least next member

/-- Inserting relocations keeps the order. -/
theorem ordered_insertAll (relocs : List Reloc)
    (ordered : Ordered recorded) : Ordered (insertAll relocs recorded) := by
  induction relocs generalizing recorded with
  | nil => exact ordered
  | cons reloc rest ih => exact ih ordered.insert

/-- Relocations at distinct offsets are all recorded, and leave those at other offsets. -/
theorem mem_insertAll (ordered : Ordered recorded)
    (distinct : (relocs.map offset).Nodup) :
    other ∈ insertAll relocs recorded ↔
      other ∈ relocs ∨ (other ∈ recorded ∧ ∀ reloc ∈ relocs, other.offset ≠ reloc.offset) := by
  induction relocs generalizing recorded with
  | nil => simp [insertAll]
  | cons reloc rest ih =>
    obtain ⟨own, others⟩ := List.nodup_cons.mp distinct
    have step : other ∈ insertAll (reloc :: rest) recorded ↔
        other ∈ insertAll rest (insert reloc recorded) := Iff.rfl
    have fresh : ∀ next ∈ rest, reloc.offset ≠ next.offset :=
      fun next member same => own (List.mem_map.mpr ⟨next, member, same.symm⟩)
    rw [step, ih ordered.insert others, mem_insert ordered]
    simp only [List.mem_cons, forall_eq_or_imp]
    constructor
    · rintro (later | ⟨rfl | ⟨member, different⟩, apart⟩)
      · exact .inl (.inr later)
      · exact .inl (.inl rfl)
      · exact .inr ⟨member, different, apart⟩
    · rintro ((rfl | later) | ⟨member, different, apart⟩)
      · exact .inr ⟨.inl rfl, fresh⟩
      · exact .inl later
      · exact .inr ⟨.inr ⟨member, different⟩, apart⟩

/-- A recorded relocation is the only one at its offset. -/
theorem Ordered.filter_offset (ordered : Ordered relocs)
    (member : reloc ∈ relocs) :
    relocs.filter (fun other => other.offset = reloc.offset) = [reloc] := by
  induction relocs with
  | nil => cases member
  | cons first rest ih =>
    obtain ⟨least, later⟩ := List.pairwise_cons.mp ordered
    rcases List.mem_cons.mp member with rfl | inRest
    · have none : rest.filter (fun other => other.offset = reloc.offset) = [] := by
        rw [List.filter_eq_nil_iff]
        intro next inRest
        simpa using (UInt64.ne_of_lt (least next inRest)).symm
      rw [List.filter_cons_of_pos (by simp), none]
    · have apart : first.offset ≠ reloc.offset := UInt64.ne_of_lt (least reloc inRest)
      rw [List.filter_cons_of_neg (by simpa using apart), ih later inRest]

/-- Of the relocations at one offset the last is recorded, and those recorded before stay where
there is none. -/
theorem mem_insertAll_iff (ordered : Ordered recorded) :
    other ∈ insertAll relocs recorded ↔
      relocs.reverse.find? (fun reloc => reloc.offset = other.offset) = some other ∨
        (other ∈ recorded ∧ ∀ reloc ∈ relocs, reloc.offset ≠ other.offset) := by
  induction relocs generalizing recorded with
  | nil => simp [insertAll]
  | cons reloc rest ih =>
    have step : other ∈ insertAll (reloc :: rest) recorded ↔
        other ∈ insertAll rest (insert reloc recorded) := Iff.rfl
    rw [step, ih ordered.insert, mem_insert ordered, List.reverse_cons, List.find?_append,
      Option.or_eq_some_iff, List.find?_singleton]
    have none : rest.reverse.find? (fun reloc => reloc.offset = other.offset) = none ↔
        ∀ reloc ∈ rest, reloc.offset ≠ other.offset := by
      simp
    grind

/-- Relocations in order are the same if they have the same members. -/
theorem Ordered.eq_of_mem_iff {first second : List Reloc} (ordered : Ordered first)
    (other : Ordered second) (same : ∀ reloc, reloc ∈ first ↔ reloc ∈ second) : first = second := by
  have : Std.Irrefl fun left right : Reloc => left.offset < right.offset :=
    ⟨fun reloc => UInt64.lt_irrefl reloc.offset⟩
  have : Std.Antisymm fun left right : Reloc => left.offset < right.offset :=
    ⟨fun left right before behind => absurd behind (UInt64.lt_asymm before)⟩
  exact List.Pairwise.eq_of_mem_iff ordered other same

/-- Recording the same relocations again changes nothing. -/
theorem insertAll_insertAll (relocs : List Reloc) (ordered : Ordered recorded) :
    insertAll relocs (insertAll relocs recorded) = insertAll relocs recorded := by
  have once := ordered_insertAll relocs ordered
  refine (ordered_insertAll relocs once).eq_of_mem_iff once fun reloc => ?_
  rw [mem_insertAll_iff once, mem_insertAll_iff ordered]
  tauto

end Assembler.Reloc
