import Assembler.Chunk.Body
import Assembler.Machine.Condition
import Assembler.Machine.Register

/-!
# Instructions of the x86-64

Each definition gives the chunk body of one instruction. Jumps have a short form with a displacement
of one byte and a near form with one of four; a call has the near form only.
-/

namespace Assembler.Machine

/-- A relative jump with a displacement of four bytes in its near form. -/
def branch (name : String) (short : Option (List UInt8)) (near : List UInt8) (target : Expr)
    (form : Form) : Branch :=
  { name, short, near, nearWidth := 32, target := { expr := target, width := 32 }, form }

/-- An unconditional jump. -/
def jmp (target : Expr) (form : Form := .auto) : Branch :=
  branch "jmp" (some [0xeb]) [0xe9] target form

/-- A jump under a condition. -/
def jcc (condition : Condition) (target : Expr) (form : Form := .auto) : Branch :=
  branch "jcc" (some [0x70 ||| condition.code]) [0x0f, 0x80 ||| condition.code] target form

/-- A call. -/
def call (target : Expr) : Branch := branch "call" none [0xe8] target .near

/-- A return. -/
def ret : Instruction := { name := "ret", bytes := [0xc3] }

/-- An instruction without effect for each length that has one, by length. -/
def nops : List (List UInt8) :=
  [[],
    [0x90],
    [0x66, 0x90],
    [0x0f, 0x1f, 0x00],
    [0x0f, 0x1f, 0x40, 0x00],
    [0x0f, 0x1f, 0x44, 0x00, 0x00],
    [0x66, 0x0f, 0x1f, 0x44, 0x00, 0x00],
    [0x0f, 0x1f, 0x80, 0x00, 0x00, 0x00, 0x00],
    [0x0f, 0x1f, 0x84, 0x00, 0x00, 0x00, 0x00, 0x00],
    [0x66, 0x0f, 0x1f, 0x84, 0x00, 0x00, 0x00, 0x00, 0x00]]

/-- The instruction without effect that has a length. -/
def nop (length : Int) : Except Error Instruction :=
  if length < 1 then .error (.noNop length (nops.length - 1))
  else
    match nops[length.toNat]? with
    | some bytes => .ok { name := "nop", bytes }
    | none => .error (.noNop length (nops.length - 1))

/-- The byte that widens the operands of an instruction or extends its register's number, if either
is asked for. -/
def extension (wide high : Bool) : List UInt8 :=
  if wide || high then [0x40 ||| (if wide then 0x08 else 0) ||| (if high then 0x01 else 0)] else []

/-- Load a register with a value, which takes the register's width. -/
def mov (register : Register) (value : Field) : Except Error Instruction := do
  let (code, high) ← register.encoding
  let opcode := extension (register.width = 8) high ++ [0xb8 + code]
  return {
    name := "mov"
    bytes := opcode ++ List.replicate register.width.toNat 0
    operands :=
      [{ offset := UInt64.ofNat opcode.length
         field := { value with width := UInt64.ofNat register.width.toNat * 8 } }] }

/-- Padding up to a multiple of a boundary, filled with instructions without effect. -/
def alignCode (boundary : UInt64) : Align :=
  { boundary := Expr.ofInt boundary.toInt64.toInt, codeFill := nops }

end Assembler.Machine
