import Assembler.Proofs.BitField.Write
import Assembler.Proofs.Layout.Measures
import Mathlib.Data.List.Pairwise

/-!
# Patches over code

Filling in a relocation replaces the bytes of its field. A `Patch` says which bytes are replaced and
by what, and `paint` puts patches over code, byte by byte. What comes of patches that lie apart does
not depend on their order (`overlay_eq_of_mem_iff`). A relocated program is therefore its code with
the patches of its relocations over it, in whatever order they were recorded
(`Program.relocated_eq_paint`).
-/

namespace Assembler

variable {patches : List Patch} {code : List UInt8}

/-- Bytes for a place in code. -/
structure Patch where
  start : Nat
  bytes : List UInt8
deriving DecidableEq

namespace Patch

/-- The position behind a patch. -/
def stop (patch : Patch) : Nat := patch.start + patch.bytes.length

/-- The byte of a patch at a position. -/
def byteAt (position : Nat) (patch : Patch) : Option UInt8 :=
  if patch.start ≤ position then patch.bytes[position - patch.start]? else none

/-- Patches that have no position in common. -/
def Apart (left right : Patch) : Prop := left.stop ≤ right.start ∨ right.stop ≤ left.start

instance : Std.Symm Apart := ⟨fun _ _ => Or.symm⟩

/-- A patch has a byte at the positions from its start up to its end. -/
theorem byteAt_eq_none_iff {patch : Patch} {position : Nat} :
    patch.byteAt position = none ↔ position < patch.start ∨ patch.stop ≤ position := by
  unfold byteAt stop
  split
  · rw [List.getElem?_eq_none_iff]
    omega
  · simp only [true_iff]
    omega

/-- Of patches that lie apart, at most one has a byte at a position. -/
theorem Apart.eq_of_byteAt (apart : patches.Pairwise Apart) {left right : Patch}
    (leftMember : left ∈ patches) (rightMember : right ∈ patches) {position : Nat}
    (leftByte : left.byteAt position ≠ none)
    (rightByte : right.byteAt position ≠ none) : left = right := by
  by_contra different
  have separate : left.Apart right := apart.forall leftMember rightMember different
  rw [ne_eq, byteAt_eq_none_iff] at leftByte rightByte
  unfold Apart at separate
  omega

end Patch

/-- The byte of the first of some patches at a position. -/
def overlay (patches : List Patch) (position : Nat) : Option UInt8 :=
  patches.findSome? (Patch.byteAt position)

/-- Code from a position on, with patches over it. -/
def paint (patches : List Patch) (start : Nat) (code : List UInt8) : List UInt8 :=
  code.mapIdx fun index byte => (overlay patches (start + index)).getD byte

theorem overlay_singleton (patch : Patch) (position : Nat) :
    overlay [patch] position = patch.byteAt position := by
  rw [overlay, List.findSome?_singleton]

/-- The first of several patches counts. -/
theorem overlay_append (first second : List Patch) (position : Nat) :
    overlay (first ++ second) position =
      (overlay first position).or (overlay second position) :=
  List.findSome?_append

/-- A position is left alone if it is outside of every patch. -/
theorem overlay_eq_none_iff {position : Nat} :
    overlay patches position = none ↔
      ∀ patch ∈ patches, position < patch.start ∨ patch.stop ≤ position := by
  simp only [overlay, List.findSome?_eq_none_iff, Patch.byteAt_eq_none_iff]

/-- The order of patches that lie apart does not matter. -/
theorem overlay_eq_of_mem_iff {first second : List Patch} (apart : first.Pairwise Patch.Apart)
    (members : ∀ patch, patch ∈ first ↔ patch ∈ second) (position : Nat) :
    overlay first position = overlay second position := by
  cases found : overlay second position with
  | none =>
    rw [overlay_eq_none_iff] at found ⊢
    exact fun patch member => found patch ((members patch).mp member)
  | some byte =>
    obtain ⟨patch, member, holds⟩ := List.exists_of_findSome?_eq_some found
    cases other : overlay first position with
    | none =>
      have outside := overlay_eq_none_iff.mp other patch ((members patch).mpr member)
      rw [← Patch.byteAt_eq_none_iff, holds] at outside
      cases outside
    | some different =>
      obtain ⟨owner, isOwner, ownerAt⟩ := List.exists_of_findSome?_eq_some other
      have same : owner = patch := by
        apply Patch.Apart.eq_of_byteAt apart isOwner ((members patch).mpr member)
        · exact ownerAt ▸ Option.some_ne_none different
        · exact holds ▸ Option.some_ne_none byte
      rw [← holds, ← ownerAt, same]

@[simp] theorem length_paint (patches : List Patch) (start : Nat) (code : List UInt8) :
    (paint patches start code).length = code.length :=
  List.length_mapIdx

/-- Painting replaces each byte by what lies over it. -/
theorem getElem?_paint (patches : List Patch) (start : Nat) (code : List UInt8) (index : Nat) :
    (paint patches start code)[index]? =
      (code[index]?).map fun byte => (overlay patches (start + index)).getD byte :=
  List.getElem?_mapIdx

/-- Code is painted alike by patches that agree on its positions. -/
theorem paint_congr {first second : List Patch} {start : Nat} (agree : ∀ index < code.length,
      overlay first (start + index) = overlay second (start + index)) :
    paint first start code = paint second start code := by
  apply List.ext_getElem?
  intro index
  rw [getElem?_paint, getElem?_paint]
  rcases Nat.lt_or_ge index code.length with inside | beyond
  · rw [agree index inside]
  · rw [List.getElem?_eq_none beyond]
    rfl

/-- Patches elsewhere change nothing. -/
theorem paint_of_outside {start : Nat}
    (outside : ∀ patch ∈ patches, patch.stop ≤ start ∨ start + code.length ≤ patch.start) :
    paint patches start code = code := by
  apply List.ext_getElem?
  intro index
  rw [getElem?_paint]
  rcases Nat.lt_or_ge index code.length with inside | beyond
  · have nothing : overlay patches (start + index) = none := by
      rw [overlay_eq_none_iff]
      intro patch member
      have apart := outside patch member
      omega
    simp [nothing]
  · rw [List.getElem?_eq_none beyond]
    rfl

@[simp] theorem paint_nil (start : Nat) (code : List UInt8) : paint [] start code = code :=
  paint_of_outside (by simp)

/-- Bytes are painted in parts as they are as a whole. -/
theorem paint_append_code (patches : List Patch) (start : Nat) (first second : List UInt8) :
    paint patches start (first ++ second) =
      paint patches start first ++ paint patches (start + first.length) second := by
  simp only [paint, List.mapIdx_append]
  congr 1
  apply List.mapIdx_eq_mapIdx_iff.mpr
  intro index _
  rw [Nat.add_assoc, Nat.add_comm first.length]

/-- Patches over the first and the second part of code. -/
theorem paint_append {before after : List Patch} {start : Nat} {first second : List UInt8}
    (left : ∀ patch ∈ before, patch.stop ≤ start + first.length)
    (right : ∀ patch ∈ after, start + first.length ≤ patch.start) :
    paint (before ++ after) start (first ++ second) =
      paint before start first ++ paint after (start + first.length) second := by
  rw [paint_append_code]
  congr 1
  · apply paint_congr
    intro index inside
    have nothing : overlay after (start + index) = none := by
      rw [overlay_eq_none_iff]
      intro patch member
      have behind := right patch member
      omega
    rw [overlay_append, nothing, Option.or_none]
  · apply paint_congr
    intro index inside
    have nothing : overlay before (start + first.length + index) = none := by
      rw [overlay_eq_none_iff]
      intro patch member
      have ahead := left patch member
      omega
    rw [overlay_append, nothing, Option.none_or]

/-- Painting twice is painting with the later patches on top. -/
theorem paint_paint (later earlier : List Patch) (start : Nat) (code : List UInt8) :
    paint later start (paint earlier start code) = paint (later ++ earlier) start code := by
  apply List.ext_getElem?
  intro index
  rw [getElem?_paint, getElem?_paint, getElem?_paint, Option.map_map]
  congr 1
  funext byte
  rw [overlay_append]
  cases overlay later (start + index) <;> rfl

/-- Replacing bytes inside code paints them over it. -/
theorem splice_eq_paint {bytes code : List UInt8} {start offset : Nat}
    (inside : offset + bytes.length ≤ code.length) :
    code.take offset ++ bytes ++ code.drop (offset + bytes.length) =
      paint [⟨start + offset, bytes⟩] start code := by
  apply List.ext_getElem?
  intro index
  rw [getElem?_paint, overlay_singleton, Patch.byteAt]
  dsimp only
  rcases Nat.lt_or_ge index offset with before | fromStart
  · rw [List.append_assoc, List.getElem?_append_left (by rw [List.length_take]; omega),
      List.getElem?_take_of_lt before, if_neg (by omega)]
    simp
  · rw [if_pos (by omega), show start + index - (start + offset) = index - offset by omega]
    rcases Nat.lt_or_ge (index - offset) bytes.length with within | behind
    · rw [List.append_assoc, List.getElem?_append_right (by rw [List.length_take]; omega),
        List.length_take, Nat.min_eq_left (by omega), List.getElem?_append_left within,
        List.getElem?_eq_getElem within, List.getElem?_eq_getElem (by omega : index < code.length)]
      rfl
    · rw [List.getElem?_append_right (by rw [List.length_append, List.length_take]; omega),
        List.length_append, List.length_take, Nat.min_eq_left (by omega), List.getElem?_drop,
        List.getElem?_eq_none behind,
        show offset + bytes.length + (index - (offset + bytes.length)) = index by omega]
      simp

/-- A part of painted code is painted from its own position on. -/
theorem take_drop_paint (patches : List Patch) (start skip count : Nat) (code : List UInt8) :
    ((paint patches start code).drop skip).take count =
      paint patches (start + skip) ((code.drop skip).take count) := by
  apply List.ext_getElem?
  intro index
  rw [getElem?_paint]
  rcases Nat.lt_or_ge index count with inside | beyond
  · rw [List.getElem?_take_of_lt inside, List.getElem?_take_of_lt inside, List.getElem?_drop,
      List.getElem?_drop, getElem?_paint, Nat.add_assoc]
  · rw [List.getElem?_eq_none (by rw [List.length_take]; omega),
      List.getElem?_eq_none (by rw [List.length_take]; omega)]
    rfl

/-- Patches that lie apart from others can be painted before them or after them. -/
theorem paint_comm {first second : List Patch}
    (apart : ∀ left ∈ first, ∀ right ∈ second, left.Apart right) (start : Nat)
    (code : List UInt8) :
    paint (first ++ second) start code = paint (second ++ first) start code := by
  apply paint_congr
  intro index _
  rw [overlay_append, overlay_append]
  cases found : overlay first (start + index) with
  | none => rw [Option.none_or, Option.or_none]
  | some byte =>
    have nothing : overlay second (start + index) = none := by
      obtain ⟨left, member, holds⟩ := List.exists_of_findSome?_eq_some found
      have covered : left.byteAt (start + index) ≠ none := holds ▸ Option.some_ne_none byte
      rw [ne_eq, Patch.byteAt_eq_none_iff] at covered
      rw [overlay_eq_none_iff]
      intro right isRight
      have separate := apart left member right isRight
      unfold Patch.Apart at separate
      omega
    rw [nothing, Option.none_or, Option.or_none]

/-- Patches inside the bytes of another can be painted on those bytes beforehand. -/
theorem paint_nested {place : Nat} {bytes : List UInt8}
    (inside : ∀ patch ∈ patches, place ≤ patch.start ∧ patch.stop ≤ place + bytes.length)
    (start : Nat) (code : List UInt8) :
    paint (patches ++ [⟨place, bytes⟩]) start code =
      paint [⟨place, paint patches place bytes⟩] start code := by
  apply paint_congr
  intro index _
  generalize start + index = position
  have painted : Patch.byteAt position ⟨place, paint patches place bytes⟩ =
      (Patch.byteAt position ⟨place, bytes⟩).map
        fun byte => (overlay patches position).getD byte := by
    simp only [Patch.byteAt]
    split
    · next reached => rw [getElem?_paint, Nat.add_sub_cancel' reached]
    · rfl
  rw [overlay_append, overlay_singleton, overlay_singleton, painted]
  cases found : Patch.byteAt position ⟨place, bytes⟩ with
  | some byte => cases overlay patches position <;> rfl
  | none =>
    have outside := Patch.byteAt_eq_none_iff.mp found
    have nothing : overlay patches position = none := by
      rw [overlay_eq_none_iff]
      intro patch member
      have bounds := inside patch member
      dsimp only [Patch.stop] at outside
      omega
    rw [nothing]
    rfl

/-- Replacing bytes before patches are painted, some of them inside those bytes and the others apart
from them, comes to replacing them by painted bytes afterwards. -/
theorem paint_replaced {nested others : List Patch} {place : Nat} {bytes : List UInt8}
    (inside : ∀ patch ∈ nested, place ≤ patch.start ∧ patch.stop ≤ place + bytes.length)
    (apart : ∀ patch ∈ others, patch.Apart ⟨place, bytes⟩) (start : Nat) (code : List UInt8) :
    paint (nested ++ others) start (paint [⟨place, bytes⟩] start code) =
      paint [⟨place, paint nested place bytes⟩] start (paint others start code) := by
  have swapped := @paint_comm others [⟨place, bytes⟩]
    (fun left member right isPatch => by
      rw [List.mem_singleton.mp isPatch]
      exact apart left member) start code
  rw [← paint_nested inside, ← paint_paint nested others, ← paint_paint nested [_],
    paint_paint others, paint_paint [_] others, swapped]

namespace Reloc

/-- The bytes that fill a relocation in. -/
def patch (reloc : Reloc) (base : UInt64) (resolve : SymbolId → Option UInt64) : Patch where
  start := reloc.offset.toNat
  bytes := (BitField.write (List.replicate reloc.size.toNat 0)
    (reloc.value base ((resolve reloc.symbol).getD 0)) reloc.width 0 reloc.check).1

/-- The symbol of a relocation has an address, and the value fits the field. -/
def Accepted (reloc : Reloc) (base : UInt64) (resolve : SymbolId → Option UInt64) : Prop :=
  ∃ target, resolve reloc.symbol = some target ∧
    BitField.fits (reloc.value base target) reloc.width.toNat reloc.check = true

variable {base : UInt64} {resolve : SymbolId → Option UInt64}

/-- The number of bytes of the field, which need not be a word. -/
def exactSize (reloc : Reloc) : Nat := (reloc.width.toNat + 7) / 8

/-- A relocation can be filled in: it is accepted, and its field is inside code of some length. -/
def Fillable (reloc : Reloc) (length : Nat) (base : UInt64) (resolve : SymbolId → Option UInt64) :
    Prop :=
  reloc.Accepted base resolve ∧ reloc.offset.toNat + reloc.exactSize ≤ length

/-- The field is not inside code of some length, but the word that is found for its end is. -/
def Escapes (reloc : Reloc) (length : Nat) : Prop :=
  (reloc.offset + reloc.size).toNat ≤ length ∧ length < reloc.offset.toNat + reloc.exactSize

theorem stop_patch (reloc : Reloc) :
    (reloc.patch base resolve).stop = reloc.offset.toNat + reloc.size.toNat := by
  simp [patch, Patch.stop]

/-- The size of a field is at most its exact size. -/
theorem toNat_size_le (reloc : Reloc) : reloc.size.toNat ≤ reloc.exactSize := by
  simp only [size, exactSize, UInt64.toNat_div, UInt64.toNat_add, UInt64.reduceToNat]
  exact Nat.div_le_div_right (Nat.mod_le _ _)

/-- The bytes of a field are counted exactly unless its width wraps. -/
theorem toNat_size {reloc : Reloc} (plain : ¬ reloc.width + 7 < reloc.width) :
    reloc.size.toNat = reloc.exactSize := by
  have small : reloc.width.toNat + 7 < 2 ^ 64 := by
    have word := reloc.width.toNat_lt
    simp only [UInt64.lt_iff_toNat_lt, UInt64.toNat_add, UInt64.reduceToNat] at plain
    omega
  simp only [size, exactSize, UInt64.toNat_div, UInt64.toNat_add, UInt64.reduceToNat,
    Nat.mod_eq_of_lt small]

/-- The end of a field is counted exactly unless it wraps. -/
theorem toNat_stop {reloc : Reloc} (ordered : ¬ reloc.offset + reloc.size < reloc.offset) :
    (reloc.offset + reloc.size).toNat = reloc.offset.toNat + reloc.size.toNat := by
  have first := reloc.offset.toNat_lt
  have second := reloc.size.toNat_lt
  rw [UInt64.lt_iff_toNat_lt, UInt64.toNat_add] at ordered
  rw [UInt64.toNat_add]
  omega

/-- The bytes of a field take a value that fits. -/
theorem write_room_iff {reloc : Reloc} {value : Int} :
    (BitField.write (List.replicate reloc.size.toNat 0) value reloc.width 0 reloc.check).2 = none ↔
      BitField.fits value reloc.width.toNat reloc.check = true := by
  have room : ¬ (List.replicate reloc.size.toNat (0 : UInt8)).length <
      (BitField.bytesNeeded reloc.width 0).toNat := by
    rw [List.length_replicate, BitField.bytesNeeded, UInt64.add_zero]
    exact Nat.lt_irrefl _
  rw [BitField.write, if_neg room]
  simp

/-- A relocation is filled in and paints its patch, or its bytes cannot be had because something was
counted in words that wrap, or there is a problem with it. -/
theorem apply_cases (reloc : Reloc) :
    (reloc.Fillable code.length base resolve ∧
      reloc.apply code base resolve = .ok (paint [reloc.patch base resolve] 0 code)) ∨
    ((resolve reloc.symbol).isSome = true ∧ (reloc.offset + reloc.size).toNat ≤ code.length ∧
      (reloc.offset + reloc.size < reloc.offset ∨ reloc.width + 7 < reloc.width) ∧
      ∃ reference, reloc.apply code base resolve = .error (.dangling reference)) ∨
    (¬ reloc.Fillable code.length base resolve ∧
      ¬ ((resolve reloc.symbol).isSome = true ∧ reloc.Escapes code.length) ∧
      ∃ problem, reloc.apply code base resolve = .error (.problem problem)) := by
  unfold apply Fillable Accepted
  cases found : resolve reloc.symbol with
  | none => exact .inr (.inr ⟨by simp, by simp, _, rfl⟩)
  | some target =>
    dsimp only
    split
    · next overrun =>
      have counted := reloc.toNat_size_le
      have wrapped : (reloc.offset + reloc.size).toNat ≤ reloc.offset.toNat + reloc.size.toNat := by
        rw [UInt64.toNat_add]
        exact Nat.mod_le _ _
      refine .inr (.inr ⟨fun fillable => ?_, fun seems => ?_, _, rfl⟩)
      · have inside := fillable.2
        omega
      · have upTo := seems.2.1
        omega
    · next room =>
      have upTo := Nat.le_of_not_lt room
      split
      · next reversed => exact .inr (.inl ⟨rfl, upTo, .inl reversed, _, rfl⟩)
      · next ordered =>
        split
        · next wide => exact .inr (.inl ⟨rfl, upTo, .inr wide, _, rfl⟩)
        · next plain =>
          have inside : reloc.offset.toNat + reloc.exactSize ≤ code.length := by
            rwa [← toNat_size plain, ← toNat_stop ordered]
          split
          · next field problem written =>
            refine .inr (.inr ⟨?_, fun seems => ?_, _, rfl⟩)
            · rintro ⟨⟨_, ⟨⟩, fits⟩, _⟩
              rw [← write_room_iff, written] at fits
              cases fits
            · have beyond := seems.2.2
              omega
          · next field written =>
            have bytes : (reloc.patch base resolve).bytes = field := by
              simp only [patch, found, Option.getD_some, written]
            have size : reloc.size.toNat = field.length := by simp [← bytes, patch]
            have spliced := @splice_eq_paint field code 0 reloc.offset.toNat
              (by rwa [← size, toNat_size plain])
            rw [Nat.zero_add] at spliced
            refine .inl ⟨⟨⟨target, rfl, ?_⟩, inside⟩, ?_⟩
            · rw [← write_room_iff, written]
            · rw [size, spliced, ← bytes]
              rfl

/-- A relocation that is applied can be filled in, and paints its field. -/
theorem apply_ok {reloc : Reloc} {filled : List UInt8}
    (success : reloc.apply code base resolve = .ok filled) :
    reloc.Fillable code.length base resolve ∧
      filled = paint [reloc.patch base resolve] 0 code := by
  rcases @apply_cases code base resolve reloc with
    ⟨fillable, applied⟩ | ⟨_, _, _, _, applied⟩ | ⟨_, _, _, applied⟩
  · rw [applied] at success
    cases success
    exact ⟨fillable, rfl⟩
  all_goals
    rw [applied] at success
    cases success

/-- Relocations that are filled in paint their patches, the last one on top. -/
theorem foldlM_apply_ok {relocs : List Reloc} {filled : List UInt8}
    (success : relocs.foldlM (fun code reloc => reloc.apply code base resolve) code = .ok filled) :
    (∀ reloc ∈ relocs, reloc.Fillable code.length base resolve) ∧
      filled = paint (relocs.map fun reloc => reloc.patch base resolve).reverse 0 code := by
  induction relocs generalizing code with
  | nil =>
    cases success
    simp
  | cons reloc rest ih =>
    rw [List.foldlM_cons] at success
    obtain ⟨next, first, success⟩ := exists_of_bind_ok success
    obtain ⟨fillable, rfl⟩ := apply_ok first
    obtain ⟨others, rfl⟩ := ih success
    rw [length_paint] at others
    refine ⟨List.forall_mem_cons.mpr ⟨fillable, others⟩, ?_⟩
    rw [paint_paint, List.map_cons, List.reverse_cons]

end Reloc

/-- Filling in relocations keeps the length of a program. -/
theorem Program.length_relocated {program : Program} {base : UInt64}
    {resolve : SymbolId → Option UInt64} (success : program.relocated base resolve = .ok code) :
    code.length = program.code.length := by
  rw [(Reloc.foldlM_apply_ok success).2, length_paint]

/-- A relocated program is its code with the patches of its relocations over it, in any order. -/
theorem Program.relocated_eq_paint {program : Program} {base : UInt64}
    {resolve : SymbolId → Option UInt64} (apart : patches.Pairwise Patch.Apart)
    (members : ∀ patch, patch ∈ patches ↔
      patch ∈ program.relocs.map fun reloc => reloc.patch base resolve)
    (success : program.relocated base resolve = .ok code) :
    (∀ reloc ∈ program.relocs, reloc.Accepted base resolve) ∧
      code = paint patches 0 program.code := by
  obtain ⟨fillable, rfl⟩ := Reloc.foldlM_apply_ok success
  refine ⟨fun reloc member => (fillable reloc member).1,
    paint_congr fun index _ => (overlay_eq_of_mem_iff apart ?_ _).symm⟩
  intro patch
  rw [List.mem_reverse]
  exact members patch

end Assembler
