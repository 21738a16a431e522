/-
  The DSP 56001 emulation: 56-bit arithmetic and the instructions of the ALU
  (`dsp_cpu.c`).

  An accumulator is kept in three registers (`Limbs`).  An operation gives the
  new limbs and the status bits (`newsr`) that the instruction puts into `SR`.
-/
import Aranym.Dsp.Cpu

namespace Aranym.Dsp

variable (d : Dsp) (inst : U32)

/-- Bits 55..48, 47..24 and 23..0, in a word each. -/
structure Limbs where
  hi : U32
  mid : U32
  lo : U32
  deriving DecidableEq, Inhabited

/-! ## 56-bit arithmetic -/

/-- `overflow<<L | overflow<<V | carry<<C` -/
def statusBits (overflow carry : Bool) : U32 :=
  (if overflow then 0x42 else 0) ||| (if carry then 1 else 0)

/-- Zero. -/
def Limbs.zero : Limbs := ⟨0, 0, 0⟩

/-- The order of the three limbs, as the code compares them. -/
def Limbs.lt (a b : Limbs) : Bool :=
  a.hi < b.hi || a.hi = b.hi && (a.mid < b.mid || a.mid = b.mid && a.lo < b.lo)

/-- The sign. -/
def Limbs.sign (a : Limbs) : Bool := a.hi.getLsbD 7

/-- One bit to the left. -/
def asl56 (dest : Limbs) : Limbs × U32 :=
  let carry := dest.sign
  let r : Limbs :=
    { hi := (dest.hi <<< 1 ||| bitAt dest.mid 23) &&& 0xff
      mid := (dest.mid <<< 1 ||| bitAt dest.lo 23) &&& 0xffffff
      lo := dest.lo <<< 1 &&& 0xffffff }
  (r, statusBits (carry != r.sign) carry)

/-- One bit to the right. -/
def asr56 (dest : Limbs) : Limbs × U32 :=
  let hi := dest.hi >>> 1 &&& 0x7f
  ({ hi := hi ||| (hi &&& 0x40) <<< 1
     mid := (dest.mid >>> 1 &&& 0x7fffff#32) ||| (dest.hi &&& 1) <<< 23
     lo := (dest.lo >>> 1 &&& 0x7fffff#32) ||| (dest.mid &&& 1) <<< 23 },
   statusBits false (dest.lo.getLsbD 0))

/-- `dest + source`. -/
def add56 (source dest : Limbs) : Limbs × U32 :=
  let notDest : Limbs := ⟨~~~ dest.hi &&& 0xff, ~~~ dest.mid &&& 0xffffff, ~~~ dest.lo &&& 0xffffff⟩
  let lo := dest.lo + source.lo
  let mid := dest.mid + (source.mid + bitAt lo 24)
  let hi := dest.hi + (source.hi + bitAt mid 24)
  let r : Limbs := ⟨hi &&& 0xff, mid &&& 0xffffff, lo &&& 0xffffff⟩
  let overflow := (source.sign ^^ r.sign) && (dest.sign ^^ r.sign)
  (r, statusBits overflow (notDest.lt source))

/-- `dest - source`. -/
def sub56 (source dest : Limbs) : Limbs × U32 :=
  let lo := dest.lo - source.lo
  let mid := dest.mid - (source.mid + bitAt lo 24)
  let hi := dest.hi - (source.hi + bitAt mid 24)
  let r : Limbs := ⟨hi &&& 0xff, mid &&& 0xffffff, lo &&& 0xffffff⟩
  let overflow := (source.sign ^^ dest.sign) && (r.sign ^^ dest.sign)
  (r, statusBits overflow (dest.lt source))

/-- The absolute value. -/
def abs56 (dest : Limbs) : Limbs × U32 :=
  if dest.sign then sub56 dest .zero else (dest, 0)

/-- The magnitude of a factor, and whether it was negative. -/
def magnitude (source : U32) : U32 × Bool :=
  if source.getLsbD 23 then (0x1000000 - (source &&& 0xffffff), true) else (source, false)

/-- The product of two magnitudes, from the products of their halves. -/
def mulParts (s1 s2 : U32) : Limbs :=
  let part0 := (s1 &&& 0xfff#32) * (s2 &&& 0xfff#32)
  let part1 := (s1 >>> 12 &&& 0xfff#32) * (s2 &&& 0xfff#32)
  let part2 := (s1 &&& 0xfff#32) * (s2 >>> 12 &&& 0xfff#32)
  let part3 := (s1 >>> 12 &&& 0xfff#32) * (s2 >>> 12 &&& 0xfff#32)
  let lo := part0 + (part1 &&& 0xfff#32) <<< 12 + (part2 &&& 0xfff#32) <<< 12
  let mid := (part1 >>> 12 &&& 0xfff#32) + (part2 >>> 12 &&& 0xfff#32) + part3
  -- the carries; without one the limb is left as it is
  let carry := lo >>> 24 &&& 0xff
  let (mid, lo) := if carry ≠ 0 then (mid + carry, lo &&& 0xffffff) else (mid, lo)
  let carry := mid >>> 24 &&& 0xff
  let (hi, mid) := if carry ≠ 0 then (carry, mid &&& 0xffffff) else (0, mid)
  ⟨hi, mid, lo⟩

/-- Signed, with the fraction's shift. -/
def mul56 (source1 source2 : U32) : Limbs :=
  let (s1, neg1) := magnitude source1
  let (s2, neg2) := magnitude source2
  -- the extra sign bit is shifted out
  let dest := (asl56 (mulParts s1 s2)).1
  if neg1 ^^ neg2 then (sub56 dest .zero).1 else dest

/-- Rounded to the upper word. -/
def rnd56 (dest : Limbs) : Limbs :=
  if (d.reg regSR).getLsbD 10 then
    let r := (add56 ⟨0, 1, 0⟩ dest).1
    let mid := if r.lo = 0 ∧ r.mid &&& 1 = 0 then r.mid &&& (0xffffff - 3) else r.mid
    ⟨r.hi, mid &&& 0xfffffe, 0⟩
  else if (d.reg regSR).getLsbD 11 then
    let r := (add56 ⟨0, 0, 1#32 <<< 22⟩ dest).1
    let lo := if r.lo &&& 0x7fffff = 0 then 0 else r.lo
    ⟨r.hi, r.mid, lo &&& 0x800000⟩
  else
    let r := (add56 ⟨0, 0, 1#32 <<< 23⟩ dest).1
    ⟨r.hi, if r.lo = 0 then r.mid &&& 0xfffffe else r.mid, 0⟩

/-! ## Condition code register -/

/-- The bits that the limbs have beyond the sign, for the scaling mode; none for the reserved
    one. -/
def extensionBits (hi mid : U32) : Option (U32 × ℕ) :=
  let value := hi &&& 0xff
  match d.scaling with
  | 0 => some (value <<< 1 ||| bitAt mid 23, 9)
  | 1 => some (value, 8)
  | 2 => some (value <<< 2 ||| (mid >>> 22 &&& 3), 10)
  | _ => none

/-- The bit `E`. -/
def ccrExtension (hi mid : U32) : Dsp :=
  match d.extensionBits hi mid with
  | none => d
  | some (value, numbits) =>
    d.updateSr 0x20 (if value = 0 ∨ value = bitmask numbits then 0 else 0x20)

/-- The bit `U`. -/
def ccrUnnormalized (hi mid : U32) : Dsp :=
  let bits := match d.scaling with
    | 0 => some (mid >>> 22 &&& 3)
    | 1 => some ((hi <<< 1 &&& 2) ||| bitAt mid 23)
    | 2 => some (mid >>> 21 &&& 3)
    | _ => none
  match bits with
  | none => d
  | some value => d.updateSr 0x10 (if value = 0 ∨ value = 3 then 0x10 else 0)

/-- The bit `N`. -/
def ccrNegative (hi : U32) : Dsp := d.updateSr 8 (bitAt hi 7 <<< 3)

/-- The bit `Z`. -/
def ccrZero (x : Limbs) : Dsp :=
  d.updateSr 4 (if x.lo &&& 0xffffff = 0 ∧ x.mid &&& 0xffffff = 0 ∧ x.hi &&& 0xff = 0 then 4 else 0)

/-- The four calls at the end of an instruction. -/
def ccr (x : Limbs) : Dsp :=
  (((d.ccrExtension x.hi x.mid).ccrUnnormalized x.hi x.mid).ccrNegative x.hi).ccrZero x

/-! ## Operands -/

/-- Accumulator `A` (0) or `B` (1). -/
def accu (n : ℕ) : Limbs := ⟨d.reg (regA2 + n), d.reg (regA1 + n), d.reg (regA0 + n)⟩

/-- Writes the accumulator `n`. -/
def setAccu (n : ℕ) (x : Limbs) : Dsp :=
  ((d.setReg (regA2 + n) x.hi).setReg (regA1 + n) x.mid).setReg (regA0 + n) x.lo

/-- `0x0000ff` for a negative 24-bit value. -/
def signLimb (value : U32) : U32 := if value.getLsbD 23 then 0xff else 0

/-- A 24-bit register as a source. -/
def source24 (r : ℕ) : Limbs := ⟨signLimb (d.reg r), d.reg r, 0⟩

/-- `X` or `Y`, by its low register, as a source. -/
def source48 (r : ℕ) : Limbs := ⟨signLimb (d.reg (r + 1)), d.reg (r + 1), d.reg r⟩

/-- The accumulator of the instruction. -/
def destOf : ℕ := field inst 3 1

/-- `X0`, `Y0`, `X1`, `Y1` of `add`, `cmp` and `tfr`; `srcreg` is 4 to 7. -/
def sourceXY (srcreg : ℕ) : Option Limbs :=
  match srcreg with
  | 4 => some (d.source24 regX0)
  | 5 => some (d.source24 regY0)
  | 6 => some (d.source24 regX1)
  | 7 => some (d.source24 regY1)
  | _ => none

/-- The source of `add` and `sub`. -/
def sourceAdd : Option Limbs :=
  match field inst 4 3 with
  | 1 => some (d.accu (1 - destOf inst))
  | 2 => some (d.source48 regX0)
  | 3 => some (d.source48 regY0)
  | srcreg => d.sourceXY srcreg

/-- The source of `cmp`, `cmpm` and `tfr`. -/
def sourceCmp : Option Limbs :=
  match field inst 4 3 with
  | 0 => some (d.accu (1 - destOf inst))
  | srcreg => d.sourceXY srcreg

/-- The source of `adc` and `sbc`. -/
def sourceLong : Limbs :=
  if field inst 4 1 = 0 then d.source48 regX0 else d.source48 regY0

/-- The factors. -/
def registersMpy : ℕ → ℕ × ℕ
  | 0 => (regX0, regX0)
  | 1 => (regY0, regY0)
  | 2 => (regX1, regX0)
  | 3 => (regY1, regY0)
  | 4 => (regX0, regY1)
  | 5 => (regY0, regX0)
  | 6 => (regX1, regY0)
  | _ => (regY1, regX1)

/-- The product of `mpy` and `mac`, negated if the instruction asks for it. -/
def product : Limbs :=
  let (r1, r2) := registersMpy (field inst 4 3)
  let source := mul56 (d.reg r1) (d.reg r2)
  if inst.getLsbD 2 then (sub56 source .zero).1 else source

/-! ## Instructions with parallel moves -/

/-- An accumulator is written, the condition codes follow it, and `V` and `C` are those of the
    operation. -/
def finish (n : ℕ) (x : Limbs) (newsr : U32) : Dsp :=
  ((d.setAccu n x).ccr x).updateSr 3 newsr

/-- As `finish`, with `V` and `C` set before the condition codes. -/
def finishShift (n : ℕ) (x : Limbs) (newsr : U32) : Dsp :=
  ((d.setAccu n x).updateSr 3 newsr).ccr x

/-- As `finish`, leaving `C` as it is. -/
def finishMul (n : ℕ) (x : Limbs) (newsr : U32) : Dsp :=
  ((d.setAccu n x).ccr x).updateSr 2 newsr

/-- The absolute value. -/
def abs : Dsp :=
  let n := destOf inst
  let dest := d.accu n
  let overflowed : U32 := if dest.lo = 0 ∧ dest.mid = 0 ∧ dest.hi = 0x80 then 0x42 else 0
  let dest := (abs56 dest).1
  ((d.setAccu n dest).updateSr 2 overflowed).ccr dest

/-- `adc` and `sbc`, by the operation. -/
def withCarry (op : Limbs → Limbs → Limbs × U32) (d : Dsp) (inst : U32) : Dsp :=
  let curcarry := (d.reg regSR).getLsbD 0
  let n := destOf inst
  let (dest, newsr) := op (d.sourceLong inst) (d.accu n)
  if curcarry then
    let (dest, newsr') := op ⟨0, 0, 1⟩ dest
    d.finish n dest (newsr ||| newsr')
  else d.finish n dest newsr

/-- With the carry. -/
def adc : Dsp → U32 → Dsp := withCarry add56

/-- With the borrow. -/
def sbc : Dsp → U32 → Dsp := withCarry sub56

/-- `add` and `sub`, by the operation. -/
def addSub (op : Limbs → Limbs → Limbs × U32) (d : Dsp) (inst : U32) : Dsp :=
  match d.sourceAdd inst with
  | none => d
  | some source =>
    let n := destOf inst
    let (dest, newsr) := op source (d.accu n)
    d.finish n dest newsr

/-- Addition. -/
def add : Dsp → U32 → Dsp := addSub add56

/-- Subtraction. -/
def sub : Dsp → U32 → Dsp := addSub sub56

/-- `addl`, `addr`, `subl` and `subr`: the accumulator is shifted, and the other one added or
    subtracted. -/
def shiftOp (shift : Limbs → Limbs × U32) (op : Limbs → Limbs → Limbs × U32)
    (d : Dsp) (inst : U32) : Dsp :=
  let n := destOf inst
  let (dest, newsr) := shift (d.accu n)
  let (dest, newsr') := op (d.accu (1 - n)) dest
  d.finish n dest (newsr ||| newsr')

/-- To twice the destination. -/
def addl : Dsp → U32 → Dsp := shiftOp asl56 add56

/-- To half the destination. -/
def addr : Dsp → U32 → Dsp := shiftOp asr56 add56

/-- From twice the destination. -/
def subl : Dsp → U32 → Dsp := shiftOp asl56 sub56

/-- From half the destination. -/
def subr : Dsp → U32 → Dsp := shiftOp asr56 sub56

/-- `asl` and `asr`, by the shift. -/
def shiftAccu (shift : Limbs → Limbs × U32) (d : Dsp) (inst : U32) : Dsp :=
  let n := destOf inst
  let (dest, newsr) := shift (d.accu n)
  d.finishShift n dest newsr

/-- A shift to the left. -/
def asl : Dsp → U32 → Dsp := shiftAccu asl56

/-- A shift to the right. -/
def asr : Dsp → U32 → Dsp := shiftAccu asr56

/-- Clears the accumulator. -/
def clr : Dsp := (d.setAccu (destOf inst) .zero).updateSr 0x2a 0x14

/-- Only the flags of a difference. -/
def cmp : Dsp :=
  match d.sourceCmp inst with
  | none => d
  | some source =>
    let (dest, newsr) := sub56 source (d.accu (destOf inst))
    (d.ccr dest).updateSr 3 newsr

/-- The same of absolute values. -/
def cmpm : Dsp :=
  let dest := (abs56 (d.accu (destOf inst))).1
  match d.sourceCmp inst with
  | none => d
  | some source =>
    let (dest, newsr) := sub56 (abs56 source).1 dest
    (d.ccr dest).updateSr 3 newsr

/-- `A1` or `B1`, the destination of the logical instructions. -/
def midOf : ℕ := regA1 + destOf inst

/-- `X0`, `Y0`, `X1` or `Y1` -/
def sourceLogical : ℕ :=
  match field inst 4 2 with
  | 1 => regY0
  | 2 => regX1
  | 3 => regY1
  | _ => regX0

/-- `N` and `Z` of a 24-bit result. -/
def flags24 (value : U32) : U32 := bitAt value 23 <<< 3 ||| (if value = 0 then 4 else 0)

/-- `and`, `eor`, `or` and `not`, by the result. -/
def logical (inst value : U32) : Dsp :=
  let value := value &&& 0xffffff
  (d.setReg (midOf inst) value).updateSr 0xe (flags24 value)

/-- On the upper word. -/
def and : Dsp :=
  d.logical inst (d.reg (midOf inst) &&& d.reg (sourceLogical inst))

/-- On the upper word. -/
def eor : Dsp :=
  d.logical inst (d.reg (midOf inst) ^^^ d.reg (sourceLogical inst))

/-- On the upper word. -/
def or : Dsp :=
  d.logical inst (d.reg (midOf inst) ||| d.reg (sourceLogical inst))

/-- On the upper word. -/
def not : Dsp := d.logical inst (~~~ d.reg (midOf inst))

/-- `lsl`, `rol` and `ror`, by the carry and the result. -/
def rotate (inst newcarry value : U32) : Dsp :=
  let value := value &&& 0xffffff
  (d.setReg (midOf inst) value).updateSr 0xf (newcarry ||| flags24 value)

/-- On the upper word, to the left. -/
def lsl : Dsp :=
  let value := d.reg (midOf inst)
  d.rotate inst (bitAt value 23) (value <<< 1)

/-- Through the carry, to the left. -/
def rol : Dsp :=
  let value := d.reg (midOf inst)
  let newcarry := bitAt value 23
  d.rotate inst newcarry (value <<< 1 ||| newcarry)

/-- Through the carry, to the right. -/
def ror : Dsp :=
  let value := d.reg (midOf inst)
  let newcarry := value &&& 1
  d.rotate inst newcarry (value >>> 1 ||| newcarry <<< 23)

/-- Unlike the other shifts, `lsr` does not mask its result and does not set `N`. -/
def lsr : Dsp :=
  let newcarry := d.reg (midOf inst) &&& 1
  let value := d.reg (midOf inst) >>> 1
  (d.setReg (midOf inst) value).updateSr 0xf (newcarry ||| if value = 0 then 4 else 0)

/-- Adds a product. -/
def mac : Dsp :=
  let n := destOf inst
  let (dest, newsr) := add56 (d.product inst) (d.accu n)
  d.finishMul n dest (newsr &&& 0xfe)

/-- Adds a product and rounds. -/
def macr : Dsp :=
  let n := destOf inst
  let (dest, newsr) := add56 (d.product inst) (d.accu n)
  d.finishMul n (d.rnd56 dest) (newsr &&& 0xfe)

/-- A product. -/
def mpy : Dsp := d.finishMul (destOf inst) (d.product inst) 0

/-- A rounded product. -/
def mpyr : Dsp := d.finishMul (destOf inst) (d.rnd56 (d.product inst)) 0

/-- The negative. -/
def neg : Dsp :=
  let n := destOf inst
  let source := d.accu n
  let overflowed : U32 := if source.lo = 0 ∧ source.mid = 0 ∧ source.hi = 0x80 then 0x42 else 0
  let dest := (sub56 source .zero).1
  ((d.setAccu n dest).updateSr 2 overflowed).ccr dest

/-- Rounds the accumulator. -/
def rnd : Dsp :=
  let n := destOf inst
  let dest := d.rnd56 (d.accu n)
  (d.setAccu n dest).ccr dest

/-- Copies a register. -/
def tfr : Dsp :=
  match d.sourceCmp inst with
  | none => d
  | some source => d.setAccu (destOf inst) source

/-- Only the flags. -/
def tst : Dsp := (d.ccr (d.accu (destOf inst))).updateSr 2 0

/-! ## Instructions of the ALU without parallel moves -/

/-- One step of a division. -/
def div : Dsp :=
  let source := d.source24 (sourceLogical inst)
  let n := destOf inst
  let dest := d.accu n
  let (shifted, newsr) := asl56 dest
  let op := if dest.sign ^^ source.mid.getLsbD 23 then add56 else sub56
  let r := (op source shifted).1
  let r := { r with lo := r.lo ||| bitAt (d.reg regSR) 0 }
  (d.setAccu n r).updateSr 3 ((if r.sign then 0 else 1) ||| (newsr &&& 0x40) ||| (newsr &&& 2))

/-- One step of a normalization. -/
def norm : Dsp :=
  let c (i : ℕ) : Bool := (d.reg regSR).getLsbD i
  let n := destOf inst
  let rreg := regR0 + field inst 8 3
  let dest := d.accu n
  if !c 5 && c 4 && !c 2 then
    let (dest, newsr) := asl56 dest
    (d.setReg rreg ((d.reg rreg - 1) &&& 0xffff)).finish n dest newsr
  else if c 5 then
    let (dest, newsr) := asr56 dest
    (d.setReg rreg ((d.reg rreg + 1) &&& 0xffff)).finish n dest newsr
  else d.finish n dest 0

end Aranym.Dsp
