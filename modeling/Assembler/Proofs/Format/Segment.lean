import Assembler.Format.Elf
import Assembler.Proofs.Format.Placement

/-!
# The content of a segment

The programs of stacked sections are joined, each padded up to the address of its section. In the
content every section with bytes of a file has its relocated code at its address, the others lie
behind the content, and all that is not in a section is zero (`Elf.join_ok`).
-/

namespace Assembler.Elf

/-- Sections and their programs in the content of a segment, whose first byte has an address and of
which some bytes were there before. -/
structure Holds (resolve : SymbolId → Option UInt64) (address before : Nat)
    (parts : List (Section × Program)) (content : List UInt8) : Prop where
  code : ∀ part ∈ parts, part.1.noBits = false → ∃ code,
    part.2.relocated part.1.base resolve = .ok code ∧ code.length = part.1.size.toNat ∧
      ∀ offset < code.length, content[part.1.base.toNat - address + offset]? = code[offset]?
  zero : ∀ place < content.length, before ≤ place →
    (∀ part ∈ parts, part.1.noBits = false →
      address + place < part.1.base.toNat ∨ part.1.stop ≤ address + place) →
    content[place]? = some 0
  inside : ∀ part ∈ parts, part.1.noBits = false → part.1.stop ≤ address + content.length
  behind : ∀ part ∈ parts, part.1.noBits = true → address + content.length ≤ part.1.base.toNat
  stop : address + content.length ≤ stackEnd (address + before) (parts.map Prod.fst)

section

variable {config : Elf} {table : SymbolTable} {bytes content : List UInt8}
  {parts : List (Section × Program)}

/-- Sections without bytes of a file add nothing. -/
theorem join_reserved (reserved : ∀ part ∈ parts, part.1.noBits = true) :
    config.join table bytes parts = .ok (.ok bytes) := by
  induction parts with
  | nil => rfl
  | cons part rest ih =>
    obtain ⟨sect, program⟩ := part
    obtain ⟨here, later⟩ := List.forall_mem_cons.mp reserved
    rw [join, if_pos here]
    exact ih later

/-- The first of several programs is padded, relocated and appended. -/
theorem join_filed {sect : Section} {program : Program} {rest : List (Section × Program)}
    (filed : sect.noBits = false)
    (success : config.join table bytes ((sect, program) :: rest) = .ok (.ok content)) :
    ∃ code, program.relocated sect.base (config.resolve table) = .ok code ∧
      config.join table (bytes ++ List.replicate
        (sect.base - config.baseAddress - UInt64.ofNat bytes.length).toNat 0 ++ code) rest =
        .ok (.ok content) := by
  rw [join, if_neg (by simp [filed])] at success
  obtain ⟨checked, _, success⟩ := exists_of_bind_ok success
  cases checked with
  | some error => cases success
  | none =>
    dsimp only at success
    split at success
    · cases success
    · cases success
    · next code relocated => exact ⟨code, relocated, success⟩

/-- The padding reaches from the end of the content to the section. -/
theorem toNat_padding {sect : Section} {address : UInt64}
    (start : address.toNat + bytes.length ≤ sect.base.toNat) :
    (sect.base - address - UInt64.ofNat bytes.length).toNat =
      sect.base.toNat - (address.toNat + bytes.length) := by
  have word := sect.base.toNat_lt
  have length : (UInt64.ofNat bytes.length).toNat = bytes.length := by
    rw [UInt64.toNat_ofNat_of_lt' (by simp only [UInt64.size]; omega)]
  have first : (sect.base - address).toNat = sect.base.toNat - address.toNat :=
    UInt64.toNat_sub_of_le _ _ (UInt64.le_iff_toNat_le.mpr (by omega))
  rw [UInt64.toNat_sub_of_le _ _ (UInt64.le_iff_toNat_le.mpr (by omega)), first, length]
  omega

/-- Content behind which all sections are reserved. -/
theorem Holds.of_reserved {resolve : SymbolId → Option UInt64} {address : Nat}
    (stacked : Stacked (address + bytes.length) (parts.map Prod.fst))
    (reserved : ∀ part ∈ parts, part.1.noBits = true) :
    Holds resolve address bytes.length parts bytes where
  code part member filed := by
    rw [reserved part member] at filed
    cases filed
  zero place inside beyond := by omega
  inside part member filed := by
    rw [reserved part member] at filed
    cases filed
  behind part member _ := stacked.le_base (List.mem_map_of_mem member)
  stop := stacked.le_stackEnd

/-- Content to which padding and the code of a section were added. -/
theorem Holds.cons {resolve : SymbolId → Option UInt64} {address gap : Nat} {sect : Section}
    {program : Program} {rest : List (Section × Program)} {code tail : List UInt8}
    (filed : sect.noBits = false) (relocated : program.relocated sect.base resolve = .ok code)
    (size : code.length = sect.size.toNat)
    (start : sect.base.toNat = address + bytes.length + gap)
    (whole : content = bytes ++ List.replicate gap 0 ++ code ++ tail)
    (holds : Holds resolve address (bytes ++ List.replicate gap 0 ++ code).length rest content) :
    Holds resolve address bytes.length ((sect, program) :: rest) content := by
  have stop : sect.stop = address + (bytes ++ List.replicate gap 0 ++ code).length := by
    simp only [Section.stop, List.length_append, List.length_replicate]
    omega
  have upTo : (bytes ++ List.replicate gap 0 ++ code).length ≤ content.length := by
    rw [whole]
    exact (List.prefix_append _ tail).length_le
  constructor
  · refine List.forall_mem_cons.mpr ⟨fun _ => ⟨code, relocated, size, fun offset inside => ?_⟩,
      holds.code⟩
    have place : sect.base.toNat - address + offset =
        (bytes ++ List.replicate gap (0 : UInt8)).length + offset := by
      simp only [List.length_append, List.length_replicate]
      omega
    dsimp only
    rw [place, whole, List.append_assoc (bytes ++ _), List.getElem?_append_right (by omega),
      Nat.add_sub_cancel_left, List.getElem?_append_left inside]
  · intro place inside beyond uncovered
    obtain ⟨here, later⟩ := List.forall_mem_cons.mp uncovered
    rcases Nat.lt_or_ge place (bytes ++ List.replicate gap 0 ++ code).length with old | new
    · -- The place is in the padding, since it is not in the section.
      have before : place < bytes.length + gap := by
        have outside := here filed
        dsimp only at outside
        omega
      rw [whole, List.append_assoc, List.append_assoc, List.getElem?_append_right beyond,
        List.getElem?_append_left (by rw [List.length_replicate]; omega),
        List.getElem?_replicate_of_lt (by omega)]
    · exact holds.zero place inside new later
  · exact List.forall_mem_cons.mpr ⟨fun _ => by dsimp only; omega, holds.inside⟩
  · refine List.forall_mem_cons.mpr ⟨fun reserved => ?_, holds.behind⟩
    rw [filed] at reserved
    cases reserved
  · rw [List.map_cons, stackEnd, stop]
    exact holds.stop

/-- Joining the programs of stacked sections puts each where its section is. -/
theorem join_ok (stacked : Stacked (config.baseAddress.toNat + bytes.length) (parts.map Prod.fst))
    (ordered : FiledFirst (parts.map Prod.fst))
    (sized : ∀ part ∈ parts, part.1.noBits = false → ∀ code,
      part.2.relocated part.1.base (config.resolve table) = .ok code →
        code.length = part.1.size.toNat)
    (success : config.join table bytes parts = .ok (.ok content)) :
    (∃ tail, content = bytes ++ tail) ∧
      Holds (config.resolve table) config.baseAddress.toNat bytes.length parts content := by
  induction parts generalizing bytes with
  | nil =>
    cases success
    refine ⟨⟨[], (List.append_nil _).symm⟩, by simp, ?_, by simp, by simp, Nat.le_refl _⟩
    intro place inside beyond
    omega
  | cons part rest ih =>
    obtain ⟨sect, program⟩ := part
    obtain ⟨start, limit, others⟩ := stacked
    obtain ⟨first, later⟩ := List.pairwise_cons.mp ordered
    cases filed : sect.noBits with
    | true =>
      have reserved : ∀ part ∈ (sect, program) :: rest, part.1.noBits = true :=
        List.forall_mem_cons.mpr
          ⟨filed, fun part member => first part.1 (List.mem_map_of_mem member) filed⟩
      rw [join_reserved reserved] at success
      cases success
      exact ⟨⟨[], (List.append_nil _).symm⟩, .of_reserved ⟨start, limit, others⟩ reserved⟩
    | false =>
      obtain ⟨code, relocated, success⟩ := join_filed filed success
      obtain ⟨size, sizes⟩ := List.forall_mem_cons.mp sized
      have length : code.length = sect.size.toNat := size filed code relocated
      have start : config.baseAddress.toNat + bytes.length ≤ sect.base.toNat := start
      rw [toNat_padding start] at success
      have stop : sect.stop = config.baseAddress.toNat + (bytes ++ List.replicate
          (sect.base.toNat - (config.baseAddress.toNat + bytes.length)) 0 ++ code).length := by
        simp only [Section.stop, List.length_append, List.length_replicate]
        omega
      rw [stop] at others
      obtain ⟨⟨tail, whole⟩, holds⟩ := ih others later sizes success
      refine ⟨⟨_, by rw [whole, List.append_assoc, List.append_assoc]⟩,
        holds.cons filed relocated length ?_ whole⟩
      omega

end

end Assembler.Elf
