import Assembler.Proofs.Format.Placement
import Mathlib.Order.Bounds.Basic

/-!
# Tight placement

Placing an object rounds addresses up in words, where a sum may wrap around. `tightBases` says in
unbounded numbers which bases the sections would have. A rounded address that wraps has fallen
behind the address it was made from, and a section that reaches beyond the last address has a base
too large for its size, so the two comparisons of a placement refuse exactly the sections that do
not fit (`not_refused_iff`). Hence an object can be placed exactly if its tight bases are addresses,
and then it has those (`place_tight`).
-/

namespace Assembler

variable {alignment address : UInt64}

/-- Clearing the lowest bit that is set tells the powers of two. -/
theorem isPowerOfTwo_iff {value : UInt64} :
    isPowerOfTwo value = true ↔ value.toNat.isPowerOfTwo := by
  by_cases zero : value = 0
  · subst zero
    simpa [isPowerOfTwo, Nat.isPowerOfTwo] using fun exponent => (Nat.two_pow_pos exponent).ne
  · have nonzero : value.toNat ≠ 0 := fun none => zero (UInt64.toNat_inj.mp none)
    have one : (1 : UInt64) ≤ value := UInt64.le_iff_toNat_le.mpr (Nat.pos_of_ne_zero nonzero)
    rw [← Nat.and_sub_one_eq_zero_iff_isPowerOfTwo nonzero]
    simp [isPowerOfTwo, zero, ← UInt64.toNat_inj, UInt64.toNat_sub_of_le _ _ one]

/-- The least multiple of an alignment that is not below an address. -/
def roundUp (alignment address : Nat) : Nat := (address + alignment - 1) / alignment * alignment

/-- Rounding up gives the least multiple that is not below. -/
theorem isLeast_roundUp {alignment : Nat} (positive : 0 < alignment) (address : Nat) :
    IsLeast {multiple | address ≤ multiple ∧ alignment ∣ multiple} (roundUp alignment address) := by
  have split := Nat.div_add_mod' (address + alignment - 1) alignment
  have within := Nat.mod_lt (address + alignment - 1) positive
  refine ⟨⟨?_, Nat.dvd_mul_left _ _⟩, ?_⟩
  · unfold roundUp
    omega
  · rintro _ ⟨above, other, rfl⟩
    unfold roundUp
    rw [Nat.mul_comm alignment other] at above ⊢
    refine Nat.mul_le_mul_right alignment ?_
    rw [← Nat.lt_add_one_iff, Nat.div_lt_iff_lt_mul positive, Nat.add_mul]
    omega

/-- The bits outside a mask and those inside do not meet, so that they add up to the word. -/
theorem toNat_mask_split (word mask : UInt64) :
    (word &&& ~~~mask).toNat + (word &&& mask).toNat = word.toNat := by
  have apart : (word &&& ~~~mask).toBitVec &&& (word &&& mask).toBitVec = 0#64 := by
    ext bit
    simp only [UInt64.toBitVec_and, UInt64.toBitVec_not, BitVec.getElem_and, BitVec.getElem_not,
      BitVec.getElem_zero]
    cases word.toBitVec[bit] <;> cases mask.toBitVec[bit] <;> rfl
  have joined : (word &&& ~~~mask).toBitVec ||| (word &&& mask).toBitVec = word.toBitVec := by
    ext bit
    simp only [UInt64.toBitVec_and, UInt64.toBitVec_not, BitVec.getElem_or, BitVec.getElem_and,
      BitVec.getElem_not]
    cases word.toBitVec[bit] <;> cases mask.toBitVec[bit] <;> rfl
  have sum := BitVec.toNat_add_of_and_eq_zero apart
  rw [BitVec.add_eq_or_of_and_eq_zero _ _ apart, joined] at sum
  exact sum.symm

/-- Clearing the bits below a power of two goes down to a multiple of it. -/
theorem toNat_clear_below {word : UInt64} (power : alignment.toNat.isPowerOfTwo) :
    (word &&& ~~~(alignment - 1)).toNat = word.toNat / alignment.toNat * alignment.toNat := by
  obtain ⟨exponent, power⟩ := power
  have one : (1 : UInt64) ≤ alignment := by
    rw [UInt64.le_iff_toNat_le, power]
    exact Nat.two_pow_pos exponent
  have below : (word &&& (alignment - 1)).toNat = word.toNat % alignment.toNat := by
    rw [UInt64.toNat_and, UInt64.toNat_sub_of_le _ _ one, power]
    exact Nat.and_two_pow_sub_one_eq_mod _ _
  have whole := toNat_mask_split word (alignment - 1)
  have split := Nat.div_add_mod' word.toNat alignment.toNat
  omega

/-- The bound of words is a multiple of every power of two that is a word. -/
theorem dvd_bound (power : alignment.toNat.isPowerOfTwo) :
    alignment.toNat ∣ 2 ^ 64 := by
  obtain ⟨exponent, power⟩ := power
  have below := alignment.toNat_lt
  rw [power] at below ⊢
  exact Nat.pow_dvd_pow 2 ((Nat.pow_lt_pow_iff_right (by decide)).mp below).le

/-- Rounding up in words is rounding up in numbers, except where that reaches the bound of words and
wraps around. -/
theorem toNat_alignUp {address alignment : UInt64} (power : alignment.toNat.isPowerOfTwo) :
    (alignUp address alignment).toNat = roundUp alignment.toNat address.toNat % 2 ^ 64 := by
  have positive := Nat.pos_of_isPowerOfTwo power
  have below := alignment.toNat_lt
  have sum : (address + alignment - 1).toNat = (address.toNat + alignment.toNat - 1) % 2 ^ 64 := by
    rw [UInt64.toNat_sub, UInt64.toNat_add, UInt64.toNat_one]
    omega
  obtain ⟨count, size⟩ := dvd_bound power
  rw [alignUp, toNat_clear_below power, sum, roundUp, size, Nat.mod_mul_right_div_self,
    Nat.mul_comm alignment.toNat count, Nat.mul_mod_mul_right]

/-- A base that is not refused is the rounded address, and nothing has wrapped around: the bound of
words would become zero, which lies before every address that is rounded up to it. -/
theorem toNat_alignUp_of_le (power : alignment.toNat.isPowerOfTwo)
    (above : address.toNat ≤ (alignUp address alignment).toNat) :
    (alignUp address alignment).toNat = roundUp alignment.toNat address.toNat := by
  obtain ⟨_, least⟩ := isLeast_roundUp (Nat.pos_of_isPowerOfTwo power) address.toNat
  have word := address.toNat_lt
  have rounded := @toNat_alignUp address alignment power
  have within : roundUp alignment.toNat address.toNat ≤ 2 ^ 64 := least ⟨word.le, dvd_bound power⟩
  rcases within.lt_or_eq with below | bound
  · rw [rounded, Nat.mod_eq_of_lt below]
  · rw [bound, Nat.mod_self] at rounded
    have zero : roundUp alignment.toNat address.toNat ≤ 0 := least ⟨by omega, Nat.dvd_zero _⟩
    omega

/-- A section is not refused exactly if it fits behind the rounded address. -/
theorem not_refused_iff {size : UInt64} (power : alignment.toNat.isPowerOfTwo) :
    ¬ (decide (alignUp address alignment < address) ||
        decide (0xffffffffffffffff - size < alignUp address alignment)) = true ↔
      roundUp alignment.toNat address.toNat + size.toNat ≤ 2 ^ 64 - 1 := by
  constructor
  · intro accepted
    obtain ⟨above, limit, _⟩ := Object.fits_of_not_refused accepted
    rw [← toNat_alignUp_of_le power above]
    omega
  · intro fits
    obtain ⟨⟨above, _⟩, _⟩ := isLeast_roundUp (Nat.pos_of_isPowerOfTwo power) address.toNat
    have base : (alignUp address alignment).toNat = roundUp alignment.toNat address.toNat := by
      rw [toNat_alignUp power, Nat.mod_eq_of_lt (by omega)]
    have room : (0xffffffffffffffff - size : UInt64).toNat = 2 ^ 64 - 1 - size.toNat :=
      UInt64.toNat_sub_of_le _ _ (UInt64.le_iff_toNat_le.mpr (Nat.le_sub_one_of_lt size.toNat_lt))
    simp only [Bool.or_eq_true, decide_eq_true_eq, UInt64.lt_iff_toNat_lt, base, room]
    omega

/-- The bases of sections in unbounded numbers: one behind the other from an address on, each at the
least multiple of the alignment. -/
def tightBases (alignment : Nat) : Nat → List Section → List Nat
  | _, [] => []
  | address, sect :: rest =>
    roundUp alignment address ::
      tightBases alignment (roundUp alignment address + sect.size.toNat) rest

/-- Tight bases are aligned. -/
theorem dvd_of_mem_tightBases {alignment address base : Nat} {sections : List Section}
    (member : base ∈ tightBases alignment address sections) : alignment ∣ base := by
  induction sections generalizing address with
  | nil => cases member
  | cons sect rest ih =>
    rcases List.mem_cons.mp member with rfl | later
    · exact Nat.dvd_mul_left _ _
    · exact ih later

/-- Sections that are stacked are apart and in order. -/
theorem Stacked.pairwise {address : Nat} {sections : List Section}
    (stacked : Stacked address sections) :
    sections.Pairwise fun first second => first.stop ≤ second.base.toNat := by
  induction sections generalizing address with
  | nil => exact .nil
  | cons sect rest ih =>
    obtain ⟨_, _, others⟩ := stacked
    exact .cons (fun _ => others.le_base) (ih others)

namespace Object

variable {object placed : Object}

/-- The sections with some numbers. -/
def sectionsAt (object : Object) (ids : List Nat) : List Section :=
  ids.filterMap fun id => object.sections[id]?

/-- The numbers of the sections that hold bytes of a file, or of those that do not, in the order of
their creation. -/
def numbersOf (object : Object) (noBits : Bool) : List Nat :=
  (List.range object.sections.length).filter fun id =>
    object.sections[id]?.any fun sect => sect.noBits == noBits

/-- Sections are placed in the order of their creation, those with bytes of a file first. -/
theorem placementOrder_eq_numbersOf (object : Object) :
    object.placementOrder = object.numbersOf false ++ object.numbersOf true := by
  have part : ∀ noBits : Bool, object.numbersOf noBits =
      (object.sections.zipIdx.filter fun entry => entry.1.noBits == noBits).map Prod.snd := by
    intro noBits
    rw [numbersOf, List.range_eq_range', ← List.zipIdx_map_snd, List.filter_map]
    refine congrArg _ (List.filter_congr fun entry member => ?_)
    have found : object.sections[entry.2]? = some entry.1 := List.mem_zipIdx_iff_getElem?.mp member
    simp [found]
  rw [part, part]
  simp [placementOrder]

/-- Sections elsewhere do not notice that one has changed. -/
theorem sectionsAt_modifySection {id : Nat} {ids : List Nat} (absent : id ∉ ids)
    (change : Section → Section) :
    (object.modifySection id change).sectionsAt ids = object.sectionsAt ids := by
  refine List.filterMap_congr fun other member => ?_
  exact List.getElem?_modify_ne _ _ fun same => absent (same ▸ member)

/-- Placing sections succeeds exactly if their tight bases leave room for all of them. -/
theorem placeFrom_fits_iff (power : alignment.toNat.isPowerOfTwo) {order : List Nat}
    (distinct : order.Nodup) :
    (∃ placed, placeFrom alignment address order object = (placed, none)) ↔
      ∀ entry ∈ (tightBases alignment.toNat address.toNat (object.sectionsAt order)).zip
        (object.sectionsAt order), entry.1 + entry.2.size.toNat ≤ 2 ^ 64 - 1 := by
  induction order generalizing object address with
  | nil =>
    constructor
    · rintro - entry ⟨⟩
    · exact fun _ => ⟨object, rfl⟩
  | cons id rest ih =>
    obtain ⟨absent, others⟩ := List.nodup_cons.mp distinct
    rw [placeFrom]
    cases found : object.sections[id]? with
    | none =>
      have skipped : object.sectionsAt (id :: rest) = object.sectionsAt rest :=
        List.filterMap_cons_none found
      rw [skipped]
      exact ih others
    | some sect =>
      have split : object.sectionsAt (id :: rest) = sect :: object.sectionsAt rest :=
        List.filterMap_cons_some found
      rw [split, tightBases, List.zip_cons_cons, List.forall_mem_cons, ← not_refused_iff power]
      dsimp only
      split
      case isTrue refused => simp [refused]
      case isFalse accepted =>
        obtain ⟨above, _, ends⟩ := fits_of_not_refused accepted
        rw [ih others, sectionsAt_modifySection absent, ends, toNat_alignUp_of_le power above]
        simp [accepted]

/-- Sections that were placed have their tight bases. -/
theorem bases_of_placeFrom (power : alignment.toNat.isPowerOfTwo) {order : List Nat}
    (distinct : order.Nodup) (success : placeFrom alignment address order object = (placed, none)) :
    (placed.sectionsAt order).map (fun sect => sect.base.toNat) =
      tightBases alignment.toNat address.toNat (object.sectionsAt order) := by
  induction order generalizing object address with
  | nil => rfl
  | cons id rest ih =>
    obtain ⟨absent, others⟩ := List.nodup_cons.mp distinct
    rw [placeFrom] at success
    cases found : object.sections[id]? with
    | none =>
      simp only [found] at success
      have kept := (placeFrom_ok others success).2.2.1 id absent
      have skipped : object.sectionsAt (id :: rest) = object.sectionsAt rest :=
        List.filterMap_cons_none found
      have skippedLater : placed.sectionsAt (id :: rest) = placed.sectionsAt rest :=
        List.filterMap_cons_none (kept.trans found)
      rw [skipped, skippedLater]
      exact ih others success
    | some sect =>
      simp only [found] at success
      split at success
      · cases success
      · next accepted =>
        obtain ⟨above, _, ends⟩ := fits_of_not_refused accepted
        have here : placed.sections[id]? =
            some { sect with base := alignUp address alignment } := by
          rw [(placeFrom_ok others success).2.2.1 id absent, modifySection,
            List.getElem?_modify_eq, found]
          rfl
        have split : object.sectionsAt (id :: rest) = sect :: object.sectionsAt rest :=
          List.filterMap_cons_some found
        have splitLater : placed.sectionsAt (id :: rest) = _ :: placed.sectionsAt rest :=
          List.filterMap_cons_some here
        rw [split, splitLater, List.map_cons, ih others success, sectionsAt_modifySection absent,
          ends, toNat_alignUp_of_le power above, tightBases]

/-- An alignment that is no power of two is refused before anything is placed. -/
theorem place_of_not_power {start : UInt64} (odd : ¬ alignment.toNat.isPowerOfTwo) :
    object.place start alignment = (object, .error (.badSectionAlignment alignment)) := by
  have refused : isPowerOfTwo alignment = false :=
    Bool.eq_false_iff.mpr (mt isPowerOfTwo_iff.mp odd)
  simp [place, refused]

/-- Placing succeeds exactly if placing one section behind the other does. -/
theorem place_ok_iff {start : UInt64} (power : alignment.toNat.isPowerOfTwo)
    (laidOut : ∀ sect ∈ object.sections, sect.laidOut = true) {order : List Nat} :
    object.place start alignment = (placed, .ok order) ↔
      placeFrom alignment start object.placementOrder object = (placed, none) ∧
        order = object.placementOrder := by
  have waiting : object.sections.find? (fun sect => !sect.laidOut) = none := by
    simpa [List.find?_eq_none] using laidOut
  simp only [place, isPowerOfTwo_iff.mpr power, waiting, Bool.not_true, Bool.false_eq_true,
    if_false]
  split
  case h_1 other result => simp [result, eq_comm]
  case h_2 other error result => simp [result]

/-- Every section that was placed is in the row of all. -/
theorem mem_sectionsAt_placementOrder {sect : Section} (member : sect ∈ object.sections) :
    sect ∈ object.sectionsAt object.placementOrder := by
  obtain ⟨id, found⟩ := List.mem_iff_getElem?.mp member
  refine List.mem_filterMap.mpr ⟨id, ?_, found⟩
  rw [object.placementOrder_perm.mem_iff, List.mem_range]
  exact (List.getElem?_eq_some_iff.mp found).1

/-- Placing an object whose sections are all laid out. Under a power of two it succeeds exactly if
the tight bases of the sections, those with bytes of a file first, leave room for all of them below
the bound of words. The sections then have those bases and nothing else has changed; they are apart,
in order, aligned, not below the start, and none wraps around. Any other alignment is refused, and
nothing changes. -/
theorem place_tight (object : Object) (start alignment : UInt64)
    (laidOut : ∀ sect ∈ object.sections, sect.laidOut = true) :
    (¬ alignment.toNat.isPowerOfTwo →
      object.place start alignment = (object, .error (.badSectionAlignment alignment))) ∧
    (alignment.toNat.isPowerOfTwo →
      let numbers := object.numbersOf false ++ object.numbersOf true
      let sections := object.sectionsAt numbers
      let bases := tightBases alignment.toNat start.toNat sections
      ((∃ placed order, object.place start alignment = (placed, .ok order)) ↔
        ∀ entry ∈ bases.zip sections, entry.1 + entry.2.size.toNat ≤ 2 ^ 64 - 1) ∧
      ∀ placed order, object.place start alignment = (placed, .ok order) →
        order = numbers ∧ placed = { object with sections := placed.sections } ∧
        placed.sections.map Section.unbased = object.sections.map Section.unbased ∧
        (placed.sectionsAt order).map (fun sect => sect.base.toNat) = bases ∧
        (placed.sectionsAt order).Pairwise
          (fun first second => first.stop ≤ second.base.toNat) ∧
        ∀ sect ∈ placed.sections, alignment.toNat ∣ sect.base.toNat ∧
          start.toNat ≤ sect.base.toNat ∧ sect.stop ≤ 2 ^ 64 - 1) := by
  refine ⟨place_of_not_power, fun power => ?_⟩
  intro numbers sections bases
  have order_eq : object.placementOrder = numbers := object.placementOrder_eq_numbersOf
  have distinct : object.placementOrder.Nodup :=
    object.placementOrder_perm.nodup_iff.mpr List.nodup_range
  constructor
  · have fits : (∃ placed,
        placeFrom alignment start object.placementOrder object = (placed, none)) ↔ _ :=
      placeFrom_fits_iff power distinct
    rw [order_eq] at fits
    rw [← fits]
    simp [place_ok_iff power laidOut, order_eq]
  · intro placed order success
    obtain ⟨isOrder, same, unbased, stacked⟩ := place_ok success
    obtain ⟨result, _⟩ := (place_ok_iff power laidOut).mp success
    have tight := bases_of_placeFrom power distinct result
    rw [← isOrder] at tight
    refine ⟨isOrder.trans order_eq, same, unbased, ?_, stacked.pairwise, fun sect member => ?_⟩
    · rw [tight, isOrder, order_eq]
    · have inRow : sect ∈ placed.sectionsAt order := by
        rw [isOrder, ← placementOrder_eq unbased]
        exact mem_sectionsAt_placementOrder member
      have limit := stacked.stop_lt inRow
      refine ⟨?_, stacked.le_base inRow, by omega⟩
      exact dvd_of_mem_tightBases (tight ▸ List.mem_map_of_mem inRow)

end Object

/-- Code, space without bytes of a file, and an empty section behind it, all laid out. -/
def codeAndSpace : Object where
  sections :=
    [{ name := ".text", size := 5, laidOut := true },
      { name := ".bss", size := 24, laidOut := true, noBits := true },
      { name := ".data", laidOut := true }]

/-- Near the last address the three sections still fit, the empty one before the space; from the
next boundary on they do not. Twelve is no alignment. -/
theorem codeAndSpace_tight :
    (∃ placed order, codeAndSpace.place 0xffffffffffffffc1 16 = (placed, .ok order) ∧
      order = [0, 2, 1] ∧
      (placed.sectionsAt order).map (fun sect => sect.base.toNat) =
        [2 ^ 64 - 48, 2 ^ 64 - 32, 2 ^ 64 - 32] ∧
      (placed.sectionsAt order).Pairwise (fun first second => first.stop ≤ second.base.toNat)) ∧
    (¬ ∃ placed order, codeAndSpace.place 0xffffffffffffffd1 16 = (placed, .ok order)) ∧
    codeAndSpace.place 0 12 = (codeAndSpace, .error (.badSectionAlignment 12)) := by
  have laidOut : ∀ sect ∈ codeAndSpace.sections, sect.laidOut = true := by decide
  have sixteen : (16 : UInt64).toNat.isPowerOfTwo := ⟨4, rfl⟩
  obtain ⟨possible, placing⟩ :=
    (Object.place_tight codeAndSpace 0xffffffffffffffc1 16 laidOut).2 sixteen
  obtain ⟨placed, order, success⟩ := possible.mpr (by decide +kernel)
  obtain ⟨numbers, _, _, bases, apart, _⟩ := placing placed order success
  refine ⟨⟨placed, order, success, numbers.trans (by decide +kernel), ?_, apart⟩, ?_, ?_⟩
  · exact bases.trans (by decide +kernel)
  · have beyond := ((Object.place_tight codeAndSpace 0xffffffffffffffd1 16 laidOut).2 sixteen).1
    exact fun success => absurd (beyond.mp success) (by decide +kernel)
  · exact (Object.place_tight codeAndSpace 0 12 laidOut).1
      (mt isPowerOfTwo_iff.mpr (by decide))

end Assembler
