import Assembler.Proofs.BitField.Exact
import Assembler.Proofs.Reloc.Overlay

/-!
# Which relocations can be filled in

Where a field ends is found in words. A field of a relocation that is recorded near the last word
may therefore seem to end inside the code although it does not (`Reloc.Escapes`), and then its bytes
cannot be had at all. Otherwise a program is relocated exactly if each of its fields is inside the
code and has a value that fits, and it differs from the code in its fields only, which hold their
values (`Program.relocated_exact`).
-/

namespace Assembler

variable {code : List UInt8} {base : UInt64} {resolve : SymbolId → Option UInt64}

/-- A patch that lies apart from others is read back from painted code. -/
theorem take_drop_paint_of_mem {patches : List Patch} (apart : patches.Pairwise Patch.Apart)
    {patch : Patch} (member : patch ∈ patches) (inside : patch.stop ≤ code.length) :
    ((paint patches 0 code).drop patch.start).take patch.bytes.length = patch.bytes := by
  unfold Patch.stop at inside
  apply List.ext_getElem?
  intro index
  rcases Nat.lt_or_ge index patch.bytes.length with within | beyond
  · have own : patch.byteAt (patch.start + index) = patch.bytes[index]? := by
      rw [Patch.byteAt, if_pos (Nat.le_add_right _ _), Nat.add_sub_cancel_left]
    -- The order of the patches does not matter, so this one may come first.
    have covered : overlay patches (patch.start + index) = patch.bytes[index]? := by
      rw [@overlay_eq_of_mem_iff patches (patch :: patches) apart (by simp [member]), overlay,
        List.findSome?_cons, own, List.getElem?_eq_getElem within]
    rw [List.getElem?_take_of_lt within, List.getElem?_drop, getElem?_paint, Nat.zero_add, covered,
      List.getElem?_eq_getElem (by omega : patch.start + index < code.length),
      List.getElem?_eq_getElem within]
    rfl
  · rw [List.getElem?_eq_none beyond, List.getElem?_eq_none]
    exact Nat.le_trans (List.length_take_le _ _) beyond

namespace Reloc

/-- Relocations whose fields have no byte in common. -/
def Apart (left right : Reloc) : Prop :=
  left.offset.toNat + left.exactSize ≤ right.offset.toNat ∨
    right.offset.toNat + right.exactSize ≤ left.offset.toNat
deriving Decidable

variable {reloc : Reloc} {relocs : List Reloc}

/-- Relocations with fields apart have patches apart. -/
theorem apart_patch {left right : Reloc} (apart : left.Apart right) :
    (left.patch base resolve).Apart (right.patch base resolve) := by
  have first := left.toNat_size_le
  have second := right.toNat_size_le
  unfold Apart at apart
  rw [Patch.Apart, stop_patch, stop_patch]
  dsimp only [patch]
  omega

/-- A field that can be filled in holds the value, as far as the width goes. -/
theorem unsignedValue_patch (plain : ¬ reloc.width + 7 < reloc.width) {target : UInt64}
    (found : resolve reloc.symbol = some target) :
    BitField.unsignedValue (reloc.patch base resolve).bytes =
      (reloc.value base target % 2 ^ reloc.width.toNat).toNat := by
  have room : BitField.bytesSpanned reloc.width 0 ≤
      (List.replicate reloc.size.toNat (0 : UInt8)).length := by
    rw [List.length_replicate, toNat_size plain]
    exact Nat.le_refl _
  simp only [patch, found, Option.getD_some]
  rw [BitField.unsignedValue_write room, BitField.unsignedValue_replicate]
  simp

/-- What wraps is far too large for code shorter than `2 ^ 61` bytes. -/
theorem escapes_of_wraps (short : code.length < 2 ^ 61)
    (upTo : (reloc.offset + reloc.size).toNat ≤ code.length)
    (wraps : reloc.offset + reloc.size < reloc.offset ∨ reloc.width + 7 < reloc.width) :
    reloc.Escapes code.length := by
  refine ⟨upTo, ?_⟩
  have counted := reloc.toNat_size_le
  rcases wraps with reversed | wide
  · rw [UInt64.lt_iff_toNat_lt, UInt64.toNat_add] at reversed
    omega
  · simp only [UInt64.lt_iff_toNat_lt, UInt64.toNat_add, UInt64.reduceToNat] at wide
    unfold exactSize
    omega

/-- A field that can be filled in does not escape. -/
theorem not_escapes_of_fillable (fillable : reloc.Fillable code.length base resolve) :
    ¬ reloc.Escapes code.length :=
  fun escapes => Nat.not_lt.mpr fillable.2 escapes.2

/-- Relocations that can be filled in are. -/
theorem exists_foldlM_apply (short : code.length < 2 ^ 61)
    (fillable : ∀ reloc ∈ relocs, reloc.Fillable code.length base resolve) :
    ∃ filled, relocs.foldlM (fun code reloc => reloc.apply code base resolve) code =
      .ok filled := by
  induction relocs generalizing code with
  | nil => exact ⟨code, rfl⟩
  | cons reloc rest ih =>
    obtain ⟨first, others⟩ := List.forall_mem_cons.mp fillable
    rcases @apply_cases code base resolve reloc with
      ⟨_, applied⟩ | ⟨_, upTo, wraps, _⟩ | ⟨unfillable, _⟩
    · rw [List.foldlM_cons, applied]
      exact ih (by rwa [length_paint]) (by rwa [length_paint])
    · exact absurd (escapes_of_wraps short upTo wraps) (not_escapes_of_fillable first)
    · exact absurd first unfillable

/-- Filling in relocations stops without a report at the first one that cannot be filled in, if its
symbol has an address and its field only seems to be inside the code. -/
theorem foldlM_apply_dangling_iff (short : code.length < 2 ^ 61) :
    (∃ reference, relocs.foldlM (fun code reloc => reloc.apply code base resolve) code =
        .error (.dangling reference)) ↔
      ∃ before reloc after, relocs = before ++ reloc :: after ∧
        (∀ earlier ∈ before, earlier.Fillable code.length base resolve) ∧
        (resolve reloc.symbol).isSome = true ∧ reloc.Escapes code.length := by
  induction relocs generalizing code with
  | nil => simp [pure, Except.pure]
  | cons first rest ih =>
    rw [List.foldlM_cons]
    rcases @apply_cases code base resolve first with ⟨fillable, applied⟩ |
      ⟨known, upTo, wraps, reference, applied⟩ | ⟨unfillable, other, _, applied⟩
    · rw [applied]
      refine (ih (by rwa [length_paint])).trans ?_
      rw [length_paint]
      constructor
      · rintro ⟨before, reloc, after, rfl, earlier, last⟩
        exact ⟨first :: before, reloc, after, rfl, List.forall_mem_cons.mpr ⟨fillable, earlier⟩,
          last⟩
      · rintro ⟨before, reloc, after, same, earlier, last⟩
        cases before with
        | nil =>
          cases same
          exact absurd last.2 (not_escapes_of_fillable fillable)
        | cons head before =>
          cases same
          exact ⟨before, reloc, after, rfl, (List.forall_mem_cons.mp earlier).2, last⟩
    · rw [applied]
      exact ⟨fun _ => ⟨[], first, rest, rfl, by simp, known, escapes_of_wraps short upTo wraps⟩,
        fun _ => ⟨reference, rfl⟩⟩
    · rw [applied]
      constructor
      · rintro ⟨_, impossible⟩
        cases impossible
      · rintro ⟨before, reloc, after, same, earlier, last⟩
        cases before with
        | nil =>
          cases same
          exact absurd last other
        | cons head before =>
          cases same
          exact absurd (earlier first List.mem_cons_self) unfillable

end Reloc

/-- Code shorter than `2 ^ 61` bytes, whose relocations have fields apart from each other, is
relocated exactly if every relocation has an address for its symbol, all of its field inside the
code, and a value in the range of the field. It keeps its length then, and its bytes outside the
fields, and each field holds its value as far as the width goes. If not, there is a problem to
report, unless the field of the first relocation that cannot be filled in only seems to be inside
the code: then its bytes cannot be had, and nothing is reported. -/
theorem Program.relocated_exact {program : Program} (short : program.code.length < 2 ^ 61)
    (apart : program.relocs.Pairwise Reloc.Apart) (base : UInt64)
    (resolve : SymbolId → Option UInt64) :
    ((∃ code, program.relocated base resolve = .ok code) ↔
      ∀ reloc ∈ program.relocs, ∃ target, resolve reloc.symbol = some target ∧
        reloc.offset.toNat + reloc.exactSize ≤ program.code.length ∧
        (reloc.width = 0 ∨ reloc.check.Takes reloc.width.toNat (reloc.value base target))) ∧
    (∀ code, program.relocated base resolve = .ok code →
      code.length = program.code.length ∧
      (∀ position, (∀ reloc ∈ program.relocs, position < reloc.offset.toNat ∨
          reloc.offset.toNat + reloc.exactSize ≤ position) →
        code[position]? = program.code[position]?) ∧
      ∀ reloc ∈ program.relocs, ∀ target, resolve reloc.symbol = some target →
        BitField.unsignedValue ((code.drop reloc.offset.toNat).take reloc.exactSize) =
          (reloc.value base target % 2 ^ reloc.width.toNat).toNat) ∧
    ((∃ reference, program.relocated base resolve = .error (.dangling reference)) ↔
      ∃ before reloc after, program.relocs = before ++ reloc :: after ∧
        (∀ earlier ∈ before, earlier.Fillable program.code.length base resolve) ∧
        (resolve reloc.symbol).isSome = true ∧ reloc.Escapes program.code.length) := by
  refine ⟨⟨?_, ?_⟩, fun code success => ?_, Reloc.foldlM_apply_dangling_iff short⟩
  · rintro ⟨code, success⟩ reloc member
    obtain ⟨⟨target, found, fits⟩, inside⟩ := (Reloc.foldlM_apply_ok success).1 reloc member
    refine ⟨target, found, inside, ?_⟩
    simpa [← UInt64.toNat_inj] using BitField.fits_iff.mp fits
  · intro sane
    refine Reloc.exists_foldlM_apply short fun reloc member => ?_
    obtain ⟨target, found, inside, taken⟩ := sane reloc member
    refine ⟨⟨target, found, BitField.fits_iff.mpr ?_⟩, inside⟩
    simpa [← UInt64.toNat_inj] using taken
  · obtain ⟨fillable, _⟩ := Reloc.foldlM_apply_ok success
    have apartPatches : (program.relocs.map fun reloc =>
        reloc.patch base resolve).Pairwise Patch.Apart :=
      apart.map _ fun _ _ => Reloc.apart_patch
    obtain ⟨_, painted⟩ :=
      Program.relocated_eq_paint apartPatches (fun _ => Iff.rfl) success
    refine ⟨Program.length_relocated success, fun position outside => ?_,
      fun reloc member target found => ?_⟩
    · have nothing : overlay (program.relocs.map fun reloc => reloc.patch base resolve)
          (0 + position) = none := by
        rw [overlay_eq_none_iff, List.forall_mem_map, Nat.zero_add]
        intro reloc member
        have counted := reloc.toNat_size_le
        have elsewhere := outside reloc member
        rw [Reloc.stop_patch]
        dsimp only [Reloc.patch]
        omega
      rw [painted, getElem?_paint, nothing]
      simp
    · have plain : ¬ reloc.width + 7 < reloc.width := by
        intro wide
        have inside := (fillable reloc member).2
        simp only [UInt64.lt_iff_toNat_lt, UInt64.toNat_add, UInt64.reduceToNat] at wide
        unfold Reloc.exactSize at inside
        omega
      have inside := (fillable reloc member).2
      have read := take_drop_paint_of_mem apartPatches (List.mem_map_of_mem member)
        (by rw [Reloc.stop_patch, Reloc.toNat_size plain]; exact inside)
      rw [← painted] at read
      have size : (reloc.patch base resolve).bytes.length = reloc.exactSize := by
        simp [Reloc.patch, Reloc.toNat_size plain]
      rw [size] at read
      rw [← Reloc.unsignedValue_patch plain found, ← read]
      rfl

/-- A field of twelve bits, and a displacement of three bytes at some offset. -/
def displaced (offset : UInt64) : Program where
  name := ".text"
  code := [0xff, 0xff, 0xe8, 0xff, 0xff, 0xff, 0xc3]
  relocs :=
    [{ offset := 0, symbol := 1, addend := 0, width := 12 },
      { offset, symbol := 1, addend := -3, width := 24, pcRelative := true }]

/-- The displacement is filled in where it is inside the code. At the offset before the last it
seems to end at the second byte, and cannot be had. -/
theorem displaced_exact :
    (displaced 3).relocated 0x100 (fun _ => some 0x123) =
        .ok [0x23, 0x01, 0xe8, 0x1d, 0x00, 0x00, 0xc3] ∧
      BitField.unsignedValue [0x1d, 0x00, 0x00] = 0x123 - 3 - 0x103 ∧
      (displaced 0xfffffffffffffffe).relocated 0x100 (fun _ => some 0x123) =
        .error (.dangling (.bytes 0xfffffffffffffffe 1)) ∧
      ∃ reloc ∈ (displaced 0xfffffffffffffffe).relocs, reloc.Escapes 7 := by
  have filled : (displaced 3).relocated 0x100 (fun _ => some 0x123) =
      .ok [0x23, 0x01, 0xe8, 0x1d, 0x00, 0x00, 0xc3] := by decide +kernel
  have stopped : (displaced 0xfffffffffffffffe).relocated 0x100 (fun _ => some 0x123) =
      .error (.dangling (.bytes 0xfffffffffffffffe 1)) := by decide +kernel
  obtain ⟨_, content, _⟩ := @Program.relocated_exact (displaced 3) (by decide) (by decide +kernel)
    0x100 fun _ => some 0x123
  obtain ⟨_, _, dangles⟩ := @Program.relocated_exact (displaced 0xfffffffffffffffe) (by decide)
    (by decide +kernel) 0x100 fun _ => some 0x123
  obtain ⟨_, _, held⟩ := content _ filled
  obtain ⟨before, reloc, after, same, _, _, escapes⟩ := dangles.mp ⟨_, stopped⟩
  have displacement := held _ (List.mem_cons_of_mem _ List.mem_cons_self) 0x123 rfl
  exact ⟨filled, displacement, stopped, reloc, by simp [same], escapes⟩

end Assembler
