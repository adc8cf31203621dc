import Assembler.Proofs.Layout.Extent

/-!
# The window of a short branch

A branch that layout leaves short watches the distance from its start to its target. The window that
the distance has to lie in is counted in words; read as integers (`window_low`, `window_high`) it
goes back as far as the last copy reaches and forward as far as the first one does (`short_window`).
-/

namespace Assembler

variable {sectionId id : Nat} {sect : Section} {copies : Int64} {length : UInt64}

variable {jump : Branch} {table : SymbolTable} {index : Nat} {chunk : Chunk}

/-- A branch is settled with its target, which then counts from the branch's start and is signed. -/
theorem Branch.settle_target {source : Branch}
    (success : source.settle table sectionId index = (jump, none)) :
    ∃ target, source.target.settle table ⟨sectionId, index, 0⟩ = .ok target ∧
      jump.target =
        { target with origin := some ⟨sectionId, index, 0⟩, signed := true, jump := true } := by
  unfold Branch.settle at success
  split at success
  · cases success
  · next target settled =>
    cases success
    exact ⟨target, settled, rfl⟩

/-- The target of a branch that was settled counts from the branch's start and is signed. -/
theorem Branch.settle_ok {source : Branch}
    (success : source.settle table sectionId index = (jump, none)) :
    jump.target.origin = some ⟨sectionId, index, 0⟩ ∧ jump.target.signed = true ∧
      jump.target.jump = true := by
  obtain ⟨target, _, same⟩ := Branch.settle_target success
  rw [same]
  exact ⟨rfl, rfl, rfl⟩

/-- The target of a branch of a layout without an error. -/
theorem Origin.branch_target
    (origin : Origin table id index sect chunk) (isBranch : chunk.body = .branch jump) :
    jump.target.origin = some ⟨id, index, 0⟩ ∧ jump.target.signed = true ∧
      jump.target.jump = true := by
  have settled := origin.settled
  rw [origin.body_eq (by simp [isBranch, Body.kind]), isBranch] at settled
  obtain ⟨source, _, settles⟩ := Body.settle_branch settled
  exact Branch.settle_ok settles

/-- The displacement of a form that was chosen is a whole number of bytes. -/
theorem Origin.branch_width
    (origin : Origin table id index sect chunk) (isBranch : chunk.body = .branch jump)
    (near : Bool) :
    jump.width near ≠ 0 ∧ jump.width near % 8 = 0 := by
  obtain ⟨positive, whole, _⟩ := Branch.measure_ok (origin.branch isBranch)
  cases near with
  | true => exact ⟨positive, whole⟩
  | false => exact ⟨(by decide : (8 : UInt64) ≠ 0), (by decide : (8 : UInt64) % 8 = 0)⟩

/-- A short branch starts from a constant number of copies, and from one at least. -/
theorem initialCopies_fixed {span : Option Span}
    (success : chunk.initialCopies table sectionId index = .ok (copies, span))
    (repeated : chunk.repeats.isSome = true → copies ≠ 0) : span = none ∧ 1 ≤ copies.toInt := by
  rcases initialCopies_ok success with
    ⟨_, once, unwatched⟩ | ⟨count, expanded, counted, _, _, found⟩
  · exact ⟨unwatched, by rw [once]; decide⟩
  · have nonzero := repeated (by rw [counted]; rfl)
    rcases found with ⟨_, word, positive, constant, unwatched⟩ | ⟨_, _, _, zero, _⟩
    · refine ⟨unwatched, ?_⟩
      have value : copies.toInt = expanded.constant := by
        rw [constant, isWord_iff_toInt_ofInt.mp word]
      have different : copies.toInt ≠ 0 := fun zero => nonzero (Int64.toInt_inj.mp zero)
      omega
    · exact absurd zero nonzero

/-- The lower end of a window goes back as far as the last copy reaches. -/
theorem window_low (once : 1 ≤ copies.toInt)
    (small : length.toNat * copies.toInt.toNat < 2 ^ 63) :
    (-128 + length.toInt64 * max 1 copies).toInt =
      (length.toNat * copies.toInt.toNat : Nat) - 128 := by
  have most : max 1 copies = copies := if_pos (Int64.le_iff_toInt_le.mpr (by simpa using once))
  have single : length.toNat ≤ length.toNat * copies.toInt.toNat :=
    Nat.le_mul_of_pos_right _ (by omega)
  have product : (length.toInt64 * copies).toInt = (length.toNat * copies.toInt.toNat : Nat) := by
    have whole :
        (length.toNat : Int) * copies.toInt = (length.toNat * copies.toInt.toNat : Nat) := by
      rw [Int.natCast_mul, Int.toNat_of_nonneg (by omega)]
    rw [Int64.toInt_mul, toInt_toInt64 (by omega), whole]
    exact Int.bmod_eq_of_le (by omega) (by omega)
  have smallest : (-128 : Int64).toInt = -128 := by decide
  rw [most, Int64.toInt_add, product, smallest, Int.bmod_eq_of_le (by omega) (by omega)]
  omega

/-- The upper end of a window reaches a signed byte beyond the end of the form. -/
theorem window_high (small : length.toNat + 127 < 2 ^ 63) :
    (127 + length.toInt64).toInt = length.toNat + 127 := by
  have largest : (127 : Int64).toInt = 127 := by decide
  rw [Int64.toInt_add, largest, toInt_toInt64 (by omega), Int.bmod_eq_of_le (by omega) (by omega)]
  omega

/-- The bounds of the distances in a window. A window that wraps is empty. -/
theorem window_bounds {distance : Int64} (once : 1 ≤ copies.toInt)
    (small : length.toNat * copies.toInt.toNat < 2 ^ 63)
    (low : ¬ distance < -128 + length.toInt64 * max 1 copies)
    (high : ¬ 127 + length.toInt64 < distance) :
    (length.toNat * copies.toInt.toNat : Nat) - 128 ≤ distance.toInt ∧
      distance.toInt ≤ length.toNat + 127 ∧
      (distance = unknownDistance → length.toNat = 2 ^ 63 - 128) := by
  have single : length.toNat ≤ length.toNat * copies.toInt.toNat :=
    Nat.le_mul_of_pos_right _ (by omega)
  rw [Int64.lt_iff_toInt_lt, window_low once small] at low
  rw [Int64.lt_iff_toInt_lt] at high
  generalize length.toNat * copies.toInt.toNat = total at *
  have unknown : unknownDistance.toInt = 2 ^ 63 - 1 := by decide
  -- An upper end that wraps is below the lower one, and then no distance is inside.
  have unwrapped : length.toNat + 127 < 2 ^ 63 := by
    by_contra wraps
    have largest : (127 : Int64).toInt = 127 := by decide
    rw [Int64.toInt_add, largest, toInt_toInt64 (by omega), Int.bmod_def] at high
    split at high <;> omega
  rw [window_high unwrapped] at high
  refine ⟨by omega, by omega, fun same => ?_⟩
  rw [same, unknown] at high
  omega

/-- The window of a short branch that layout chose: it bounds the distance from the start of the
first copy. -/
theorem short_window {symbols : SymbolTable}
    (clean : sect.Clean symbols id) (bounded : sect.exactSize < 2 ^ 63)
    (chunkAt : sect.chunks[index]? = some chunk) (isBranch : chunk.body = .branch jump)
    (auto : jump.form = .auto) (short : chunk.slot.near = false)
    (apart : jump.shortLength.toNat ≠ 2 ^ 63 - 128) :
    ∃ distance : Int64, (sect.relaxed id).distance jump.target = some distance ∧
      chunk.extent - 128 ≤ distance.toInt ∧ distance.toInt ≤ chunk.slot.length.toNat + 127 := by
  obtain ⟨origin⟩ := clean.origin chunkAt
  obtain ⟨_, _, _, _, chosen⟩ := Branch.measure_ok (origin.branch isBranch)
  rcases chosen with ⟨near, _, unwatched⟩ | ⟨_, _, _, ⟨form, _⟩ | ⟨_, repeated, watched⟩⟩
  · rw [origin.near_eq_measure unwatched, near] at short
    cases short
  · rw [auto] at form
    cases form
  · obtain ⟨fixed, once⟩ := initialCopies_fixed origin.counted repeated
    have member := List.mem_append_right origin.countSpan.toList (Option.mem_toList.mpr watched)
    obtain ⟨final, finalMember, holds, purpose, field, low, high⟩ :=
      clean.watcher chunkAt origin member rfl
    -- A span that was settled would have made the branch near.
    have active : final.state = .active := by
      unfold Span.Holds at holds
      cases state : final.state with
      | active => rfl
      | failed => exact absurd state (clean.orderly.kept rfl final finalMember)
      | retired =>
        simp only [state, purpose] at holds
        rw [holds.1] at short
        cases short
    have length : chunk.slot.length = jump.shortLength := by
      rw [clean.branch_length chunkAt isBranch, short]
      rfl
    have quiet := clean.quiet final finalMember
    simp only [Relaxation.isPending, active, Span.fires, purpose, Purpose.policy, low, high, field,
      decide_true, Bool.true_and, Bool.or_eq_false_iff, decide_eq_false_iff_not] at quiet
    have inside := clean.offset_add_extent_le bounded chunkAt
    have extent : chunk.extent = jump.shortLength.toNat * origin.copies.toInt.toNat := by
      rw [Chunk.extent, Chunk.count, length, origin.copies_eq fixed]
    obtain ⟨lower, upper, known⟩ := window_bounds once (by omega) quiet.1 quiet.2
    cases distance : (sect.relaxed id).distance jump.target with
    | none =>
      rw [distance, Option.getD_none] at known
      exact absurd (known rfl) apart
    | some value =>
      rw [distance, Option.getD_some] at lower upper
      exact ⟨value, rfl, by rwa [extent], by rwa [length]⟩

end Assembler
