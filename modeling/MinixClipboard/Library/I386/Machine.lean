import Mathlib.Data.UInt

/-!
# The machine

The part of the i386 that compiled C without floating point mostly uses: eight registers of 32 bits,
a flat memory of bytes, and the instructions on them, named as in the assembler, with the source
before the destination. Addresses wrap around.

An instruction that leaves a flag undefined, or one whose flags nobody reads, leaves no flags at
all. A machine that asks for them then gets no further; neither does one that divides by zero.
-/

namespace I386

/-! ## Memory -/

/-- The memory, a byte at every address. -/
abbrev Mem := UInt32 → UInt8

namespace Mem

/-- The double word at an address, its lowest byte first. -/
def word (mem : Mem) (a : UInt32) : UInt32 :=
  (mem a).toUInt32 ||| (mem (a + 1)).toUInt32 <<< 8 ||| (mem (a + 2)).toUInt32 <<< 16 |||
    (mem (a + 3)).toUInt32 <<< 24

def setByte (mem : Mem) (a : UInt32) (b : UInt8) : Mem := fun x ↦ if x = a then b else mem x

def setWord (mem : Mem) (a w : UInt32) : Mem :=
  (((mem.setByte a w.toUInt8).setByte (a + 1) (w >>> 8).toUInt8).setByte (a + 2)
    (w >>> 16).toUInt8).setByte (a + 3) (w >>> 24).toUInt8

end Mem

/-! ## Registers and flags -/

/-- The registers. -/
inductive Reg
  | eax | ebx | ecx | edx | esi | edi | ebp | esp
deriving DecidableEq

/-- The flags: carry, zero and sign. -/
structure Flags where
  cf : Bool
  zf : Bool
  sf : Bool
deriving DecidableEq

/-- The conditions of jumps and moves. -/
inductive Cond
  | a | be | e | ne | s
deriving DecidableEq

/-- Whether a condition holds. -/
def Flags.holds (f : Flags) : Cond → Bool
  | .a => !f.cf && !f.zf
  | .be => f.cf || f.zf
  | .e => f.zf
  | .ne => !f.zf
  | .s => f.sf

/-- The flags of a result without a carry. -/
def Flags.ofResult (w : UInt32) : Flags := ⟨false, w == 0, 2 ^ 31 ≤ w⟩

/-- The flags of `d - s`. -/
def Flags.ofSub (d s : UInt32) : Flags := ⟨d < s, d - s == 0, 2 ^ 31 ≤ d - s⟩

def Flags.ofAdd (d s : UInt32) : Flags := ⟨d + s < d, d + s == 0, 2 ^ 31 ≤ d + s⟩

def Flags.ofByte (b : UInt8) : Flags := ⟨false, b == 0, 2 ^ 7 ≤ b⟩

def Flags.ofByteSub (d s : UInt8) : Flags := ⟨d < s, d - s == 0, 2 ^ 7 ≤ d - s⟩

/-- What an instruction works on. -/
structure Machine where
  eax : UInt32
  ebx : UInt32
  ecx : UInt32
  edx : UInt32
  esi : UInt32
  edi : UInt32
  ebp : UInt32
  esp : UInt32
  flags : Option Flags
  mem : Mem

namespace Machine

variable (m : Machine)

def reg : Reg → UInt32
  | .eax => m.eax
  | .ebx => m.ebx
  | .ecx => m.ecx
  | .edx => m.edx
  | .esi => m.esi
  | .edi => m.edi
  | .ebp => m.ebp
  | .esp => m.esp

def setReg (w : UInt32) : Reg → Machine
  | .eax => {m with eax := w}
  | .ebx => {m with ebx := w}
  | .ecx => {m with ecx := w}
  | .edx => {m with edx := w}
  | .esi => {m with esi := w}
  | .edi => {m with edi := w}
  | .ebp => {m with ebp := w}
  | .esp => {m with esp := w}

end Machine

/-- The higher half of a product. -/
def mulHigh (v w : UInt32) : UInt32 := UInt32.ofNat (v.toNat * w.toNat / 2 ^ 32)

/-! ## Operands -/

/-- `disp(base, index, scale)`. -/
structure Address where
  disp : UInt32
  base : Reg
  index : Option (Reg × UInt32)

/-- Constants, registers and memory. The low part of a register is written as the register. -/
inductive Operand
  | imm (w : UInt32)
  | reg (r : Reg)
  | mem (a : Address)

instance : Coe Reg Operand := ⟨.reg⟩

instance : Coe Address Operand := ⟨.mem⟩

/-- `disp(base)`. -/
def loc (disp : UInt32) (base : Reg) : Address := ⟨disp, base, none⟩

/-- `disp(base, index, scale)`. -/
def locIdx (disp : UInt32) (base index : Reg) (scale : UInt32) : Address :=
  ⟨disp, base, some (index, scale)⟩

namespace Machine

variable (m : Machine)

/-- The effective address. -/
def ea (a : Address) : UInt32 :=
  match a.index with
  | none => m.reg a.base + a.disp
  | some (r, scale) => m.reg a.base + a.disp + m.reg r * scale

def long : Operand → UInt32
  | .imm w => w
  | .reg r => m.reg r
  | .mem a => m.mem.word (m.ea a)

def byte : Operand → UInt8
  | .imm w => w.toUInt8
  | .reg r => (m.reg r).toUInt8
  | .mem a => m.mem (m.ea a)

def setLong (w : UInt32) : Operand → Option Machine
  | .imm _ => none
  | .reg r => some (m.setReg w r)
  | .mem a => some {m with mem := m.mem.setWord (m.ea a) w}

/-- Writing a byte. The rest of a register stays. -/
def setByte (b : UInt8) : Operand → Option Machine
  | .imm _ => none
  | .reg r => some (m.setReg (m.reg r &&& 0xffffff00 ||| b.toUInt32) r)
  | .mem a => some {m with mem := m.mem.setByte (m.ea a) b}

/-- Writing the low half of a register. -/
def setHalf (h : UInt16) (r : Reg) : Machine :=
  m.setReg (m.reg r &&& 0xffff0000 ||| h.toUInt32) r

def withFlags (f : Flags) : Machine := {m with flags := some f}

/-- With no flags that could be asked for. -/
def noFlags : Machine := {m with flags := none}

def divide (d : UInt32) : Option Machine :=
  let n := m.edx.toNat * 2 ^ 32 + m.eax.toNat
  if d = 0 ∨ 2 ^ 32 ≤ n / d.toNat then none
  else some {m with
    eax := UInt32.ofNat (n / d.toNat)
    edx := UInt32.ofNat (n % d.toNat)
    flags := none}

def push (w : UInt32) : Machine := {m with esp := m.esp - 4, mem := m.mem.setWord (m.esp - 4) w}

/-- Whether a condition holds, if that is known. -/
def holds (c : Cond) : Option Bool := m.flags.map fun f ↦ f.holds c

end Machine

/-! ## Instructions -/

/-- The instructions, except those that jump. -/
inductive Instr
  | movl (src dst : Operand)
  | movb (src dst : Operand)
  | movzbl (src : Operand) (dst : Reg)
  | movsbl (src : Operand) (dst : Reg)
  | movsbw (src : Operand) (dst : Reg)
  | leal (src : Address) (dst : Reg)
  | addl (src dst : Operand)
  | subl (src dst : Operand)
  | sbbl (src dst : Operand)
  | andl (src dst : Operand)
  | xorl (src dst : Operand)
  | cmpl (src dst : Operand)
  | cmpb (src dst : Operand)
  | testl (src dst : Operand)
  | testb (src dst : Operand)
  | imull (src : Operand) (dst : Reg)
  | imull₃ (w : UInt32) (src : Operand) (dst : Reg)
  | mull (src : Operand)
  | divl (src : Operand)
  | shrl (n : UInt32) (dst : Operand)
  | sall (n : UInt32) (dst : Operand)
  | sarb (n : Int8) (dst : Operand)
  | sarw (n : Int16) (dst : Reg)
  | cmov (c : Cond) (src : Operand) (dst : Reg)
  | pushl (src : Operand)
  | popl (dst : Reg)

/-- What an instruction does. -/
def Instr.exec (m : Machine) : Instr → Option Machine
  | movl src dst => m.setLong (m.long src) dst
  | movb src dst => m.setByte (m.byte src) dst
  | movzbl src dst => some (m.setReg (m.byte src).toUInt32 dst)
  | movsbl src dst => some (m.setReg (m.byte src).toInt8.toInt32.toUInt32 dst)
  | movsbw src dst => some (m.setHalf (m.byte src).toInt8.toInt16.toUInt16 dst)
  | leal src dst => some (m.setReg (m.ea src) dst)
  | addl src dst =>
    (m.setLong (m.long dst + m.long src) dst).map
      (·.withFlags (Flags.ofAdd (m.long dst) (m.long src)))
  | subl src dst =>
    (m.setLong (m.long dst - m.long src) dst).map
      (·.withFlags (Flags.ofSub (m.long dst) (m.long src)))
  | sbbl src dst => do
    let f ← m.flags
    (m.setLong (m.long dst - (m.long src + if f.cf then 1 else 0)) dst).map (·.noFlags)
  | andl src dst =>
    (m.setLong (m.long dst &&& m.long src) dst).map
      (·.withFlags (Flags.ofResult (m.long dst &&& m.long src)))
  | xorl src dst =>
    (m.setLong (m.long dst ^^^ m.long src) dst).map
      (·.withFlags (Flags.ofResult (m.long dst ^^^ m.long src)))
  | cmpl src dst => some (m.withFlags (Flags.ofSub (m.long dst) (m.long src)))
  | cmpb src dst => some (m.withFlags (Flags.ofByteSub (m.byte dst) (m.byte src)))
  | testl src dst => some (m.withFlags (Flags.ofResult (m.long dst &&& m.long src)))
  | testb src dst => some (m.withFlags (Flags.ofByte (m.byte dst &&& m.byte src)))
  | imull src dst => some (m.setReg (m.reg dst * m.long src) dst).noFlags
  | imull₃ w src dst => some (m.setReg (m.long src * w) dst).noFlags
  | mull src =>
    some {m with
      eax := m.eax * m.long src
      edx := mulHigh m.eax (m.long src)
      flags := none}
  | divl src => m.divide (m.long src)
  | shrl n dst => (m.setLong (m.long dst >>> n) dst).map (·.noFlags)
  | sall n dst => (m.setLong (m.long dst <<< n) dst).map (·.noFlags)
  | sarb n dst => (m.setByte ((m.byte dst).toInt8 >>> n).toUInt8 dst).map (·.noFlags)
  | sarw n dst =>
    some (m.setHalf ((m.reg dst).toUInt16.toInt16 >>> n).toUInt16 dst).noFlags
  | cmov c src dst => do
    let b ← m.holds c
    some (m.setReg (if b then m.long src else m.reg dst) dst)
  | pushl src => some (m.push (m.long src))
  | popl dst => some ({m with esp := m.esp + 4}.setReg (m.mem.word m.esp) dst)

end I386
