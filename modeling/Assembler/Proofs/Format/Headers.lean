import Assembler.Format.Elf
import Assembler.Proofs.BitField.Write

/-!
# What a loader reads

A loader reads the headers of a file as numbers with the low byte first, at the offsets that the
format has for them, and maps the segment: its bytes of the file, then zeros (`memory`). The headers
of a file are read back as the numbers that went into them (`file_ok`), and its memory has the
content of the segment (`memory_file`).
-/

namespace Assembler.Elf

open BitField

/-- The number in some bytes of a file, low byte first. -/
def fieldAt (file : List UInt8) (offset size : Nat) : Nat :=
  unsignedValue ((file.drop offset).take size)

/-- The header of a file. -/
structure FileHeader where
  identification : List UInt8
  type : Nat
  machine : Nat
  version : Nat
  /-- The address where execution starts. -/
  entry : Nat
  /-- Where the program headers are in the file. -/
  programHeaders : Nat
  sectionHeaders : Nat
  flags : Nat
  headerSize : Nat
  programHeaderSize : Nat
  programHeaderCount : Nat
  sectionHeaderSize : Nat
  sectionHeaderCount : Nat
  sectionNames : Nat
deriving DecidableEq

namespace FileHeader

/-- Read the header at the start of a file. -/
def read (file : List UInt8) : FileHeader where
  identification := file.take 16
  type := fieldAt file 16 2
  machine := fieldAt file 18 2
  version := fieldAt file 20 4
  entry := fieldAt file 24 8
  programHeaders := fieldAt file 32 8
  sectionHeaders := fieldAt file 40 8
  flags := fieldAt file 48 4
  headerSize := fieldAt file 52 2
  programHeaderSize := fieldAt file 54 2
  programHeaderCount := fieldAt file 56 2
  sectionHeaderSize := fieldAt file 58 2
  sectionHeaderCount := fieldAt file 60 2
  sectionNames := fieldAt file 62 2

/-- The header of an executable for the x86-64 with one program header behind it. -/
def executable (entry : Nat) : FileHeader where
  identification := [0x7f, 0x45, 0x4c, 0x46, 2, 1, 1] ++ List.replicate 9 0
  type := 2
  machine := 62
  version := 1
  entry
  programHeaders := 64
  sectionHeaders := 0
  flags := 0
  headerSize := 64
  programHeaderSize := 56
  programHeaderCount := 1
  sectionHeaderSize := 0
  sectionHeaderCount := 0
  sectionNames := 0

end FileHeader

/-- The header of a segment. -/
structure ProgramHeader where
  type : Nat
  flags : Nat
  /-- Where the segment is in the file. -/
  offset : Nat
  /-- Where the segment is in memory. -/
  address : Nat
  physicalAddress : Nat
  fileSize : Nat
  memorySize : Nat
  alignment : Nat
deriving DecidableEq

/-- Read a program header at an offset of a file. -/
def ProgramHeader.read (file : List UInt8) (start : Nat) : ProgramHeader where
  type := fieldAt file start 4
  flags := fieldAt file (start + 4) 4
  offset := fieldAt file (start + 8) 8
  address := fieldAt file (start + 16) 8
  physicalAddress := fieldAt file (start + 24) 8
  fileSize := fieldAt file (start + 32) 8
  memorySize := fieldAt file (start + 40) 8
  alignment := fieldAt file (start + 48) 8

/-- The segment of a file that has one. -/
def segment (file : List UInt8) : ProgramHeader :=
  ProgramHeader.read file (FileHeader.read file).programHeaders

/-- The memory that the segment of a file is mapped to: the bytes of the file, and zeros behind them
up to the size in memory. -/
def memory (file : List UInt8) (address : Nat) : Option UInt8 :=
  let header := segment file
  if address < header.address ∨ header.address + header.memorySize ≤ address then none
  else if address < header.address + header.fileSize then
    file[header.offset + (address - header.address)]?
  else some 0

/-- Numbers with the low byte first are read back up to their size. -/
theorem unsignedValue_littleEndian (count value : Nat) :
    unsignedValue (littleEndian count value) = value % 256 ^ count := by
  induction count generalizing value with
  | zero => rw [littleEndian, unsignedValue, Nat.pow_zero, Nat.mod_one]
  | succ count ih =>
    rw [littleEndian, unsignedValue, ih, Nat.pow_succ', Nat.mod_mul]
    simp

@[simp] theorem length_littleEndian (count value : Nat) :
    (littleEndian count value).length = count := by
  induction count generalizing value with
  | zero => rfl
  | succ count ih => rw [littleEndian, List.length_cons, ih]

/-- Bytes that spell a number are read as the number, if they have room for it. -/
theorem fieldAt_eq {file : List UInt8} {offset size value : Nat}
    (bytes : (file.drop offset).take size = littleEndian size value) (small : value < 256 ^ size) :
    fieldAt file offset size = value := by
  rw [fieldAt, bytes, unsignedValue_littleEndian, Nat.mod_eq_of_lt small]

/-- What is behind some bytes is read from its own start. -/
theorem ProgramHeader.read_append (front rest : List UInt8) :
    read (front ++ rest) front.length = read rest 0 := by
  have field : ∀ offset size, fieldAt (front ++ rest) (front.length + offset) size =
      fieldAt rest offset size := by
    intro offset size
    rw [fieldAt, fieldAt, List.drop_length_add_append]
  have first := field 0 4
  rw [Nat.add_zero] at first
  simp only [read, field, first, Nat.zero_add]

variable (config : Elf) (entry : UInt64) (rest : List UInt8)

@[simp] theorem length_fileHeader : (fileHeader entry).length = fileHeaderSize := by
  simp [fileHeader, fileHeaderSize]

@[simp] theorem length_programHeader (fileSize memorySize : UInt64) :
    (config.programHeader fileSize memorySize).length = programHeaderSize := by
  simp [programHeader, programHeaderSize]

/-- The fields of the file header one behind the other. -/
theorem fileHeader_append : fileHeader entry ++ rest =
    [0x7f, 0x45, 0x4c, 0x46, 2, 1, 1, 0, 0, 0, 0, 0, 0, 0, 0, 0] ++ (littleEndian 2 2 ++
      (littleEndian 2 62 ++ (littleEndian 4 1 ++ (littleEndian 8 entry.toNat ++
      (littleEndian 8 fileHeaderSize ++ (littleEndian 8 0 ++ (littleEndian 4 0 ++
      (littleEndian 2 fileHeaderSize ++ (littleEndian 2 programHeaderSize ++
      (littleEndian 2 1 ++ (List.replicate 6 0 ++ rest))))))))))) := by
  simp only [fileHeader, List.append_assoc]
  rfl

/-- The header of a file is read back. -/
theorem read_fileHeader : FileHeader.read (fileHeader entry ++ rest) = .executable entry.toNat := by
  rw [fileHeader_append]
  unfold FileHeader.read FileHeader.executable
  rw [FileHeader.mk.injEq]
  exact ⟨rfl, fieldAt_eq rfl (by decide), fieldAt_eq rfl (by decide), fieldAt_eq rfl (by decide),
    fieldAt_eq rfl entry.toNat_lt, fieldAt_eq rfl (by decide), fieldAt_eq rfl (by decide),
    fieldAt_eq rfl (by decide), fieldAt_eq rfl (by decide), fieldAt_eq rfl (by decide),
    fieldAt_eq rfl (by decide), fieldAt_eq rfl (by decide), fieldAt_eq rfl (by decide),
    fieldAt_eq rfl (by decide)⟩

/-- The header of a segment is read back. -/
theorem read_programHeader (fileSize memorySize : UInt64) :
    ProgramHeader.read (config.programHeader fileSize memorySize ++ rest) 0 =
      { type := 1
        flags := config.segmentFlags.toNat
        offset := config.segmentOffset.toNat
        address := config.baseAddress.toNat
        physicalAddress := config.baseAddress.toNat
        fileSize := fileSize.toNat
        memorySize := memorySize.toNat
        alignment := config.segmentAlignment.toNat } := by
  simp only [programHeader, List.append_assoc]
  unfold ProgramHeader.read
  rw [ProgramHeader.mk.injEq]
  exact ⟨fieldAt_eq rfl (by decide), fieldAt_eq rfl config.segmentFlags.toNat_lt,
    fieldAt_eq rfl config.segmentOffset.toNat_lt, fieldAt_eq rfl config.baseAddress.toNat_lt,
    fieldAt_eq rfl config.baseAddress.toNat_lt, fieldAt_eq rfl fileSize.toNat_lt,
    fieldAt_eq rfl memorySize.toNat_lt, fieldAt_eq rfl config.segmentAlignment.toNat_lt⟩

section

variable {config entry} {memoryEnd : UInt64} {content : List UInt8}
  (room : fileHeaderSize + programHeaderSize ≤ config.segmentOffset.toNat)
  (inside : config.baseAddress.toNat + content.length ≤ memoryEnd.toNat)

include room inside

/-- A file has its headers, which are read back, and the content of the segment behind them at its
offset, if the headers leave room for it. -/
theorem file_ok : FileHeader.read (config.file entry memoryEnd content) = .executable entry.toNat ∧
    segment (config.file entry memoryEnd content) =
      { type := 1
        flags := config.segmentFlags.toNat
        offset := config.segmentOffset.toNat
        address := config.baseAddress.toNat
        physicalAddress := config.baseAddress.toNat
        fileSize := content.length
        memorySize := memoryEnd.toNat - config.baseAddress.toNat
        alignment := config.segmentAlignment.toNat } ∧
    ∃ headers, config.file entry memoryEnd content = headers ++ content ∧
      headers.length = config.segmentOffset.toNat := by
  have header : FileHeader.read (config.file entry memoryEnd content) =
      .executable entry.toNat := by
    rw [file, List.append_assoc, List.append_assoc, read_fileHeader]
  refine ⟨header, ?_, _, rfl, ?_⟩
  · have start : (FileHeader.executable entry.toNat).programHeaders = (fileHeader entry).length :=
      (length_fileHeader entry).symm
    have fileSize : (UInt64.ofNat content.length).toNat = content.length := by
      have word := memoryEnd.toNat_lt
      exact UInt64.toNat_ofNat_of_lt' (by simp only [UInt64.size]; omega)
    have memorySize : (memoryEnd - config.baseAddress).toNat =
        memoryEnd.toNat - config.baseAddress.toNat :=
      UInt64.toNat_sub_of_le _ _ (UInt64.le_iff_toNat_le.mpr (by omega))
    rw [segment, header, start, file, List.append_assoc, List.append_assoc,
      ProgramHeader.read_append, read_programHeader, fileSize, memorySize]
  · simp only [List.length_append, List.length_replicate, length_fileHeader, length_programHeader]
    omega

/-- The memory of a file has the content of the segment, and zeros behind it. -/
theorem memory_file {place : Nat} (above : config.baseAddress.toNat ≤ place)
    (below : place < memoryEnd.toNat) :
    memory (config.file entry memoryEnd content) place =
      if place < config.baseAddress.toNat + content.length then
        content[place - config.baseAddress.toNat]?
      else some 0 := by
  obtain ⟨_, segment, headers, whole, length⟩ := @file_ok config entry _ _ room inside
  rw [memory, segment]
  dsimp only
  rw [if_neg (by omega), whole, ← length, List.getElem?_append_right (Nat.le_add_right _ _),
    Nat.add_sub_cancel_left]

end

end Assembler.Elf
