/-
  The memory map of the DSP: which cell an address of a space names.

  `read_memory` and `write_memory_raw` find the cell each with their own branches;
  `cell` is the map they both follow.
-/
import Aranym.Dsp.Core

namespace Aranym

/-- A place for one word. -/
inductive Cell where
  | ramint (space : DspSpace) (i : ℕ)
  | rom (space : DspSpace) (i : ℕ)
  | periph (space : DspSpace) (i : ℕ)
  | ram (i : ℕ)
  deriving DecidableEq

/-- All but ROM. -/
def Cell.writable : Cell → Bool
  | .rom _ _ => false
  | _ => true

namespace DspCore
variable (c : DspCore) (space : DspSpace) (address : U16) (value : U32)

/-- The cells of X and Y; `external` is where the external RAM begins for the space. -/
def dataCell (external : ℕ) : Cell :=
  if address < 0x100 then .ramint space address.toNat
  else if c.registers regOMR &&& 1#32 <<< omrDE ≠ 0 ∧ address < 0x200 then .rom space address.toNat
  else if address ≥ 0xffc0 then .periph space (address - 0xffc0).toNat
  else .ram ((address.toNat + external) % 0x8000)

/-- Where an address leads. -/
def cell : Cell :=
  match space with
  | .X => c.dataCell .X address 0x4000
  | .Y => c.dataCell .Y address 0
  | .P => if address < 0x200 then .ramint .P address.toNat else .ram (address.toNat % 0x8000)

/-- Its word. -/
def get : Cell → U32
  | .ramint space i => c.ramint space i
  | .rom space i => c.rom space i
  | .periph space i => c.periph space i
  | .ram i => c.ram .P i

/-- Writes it. -/
def put : Cell → DspCore
  | .ramint space i => c.setRamint space i value
  | .rom _ _ => c
  | .periph space i => c.setPeriph space i value
  | .ram i => { c with ram := Function.update c.ram .P (Function.update (c.ram .P) i value) }

theorem get_put (x y : Cell) :
    (c.put value x).get y = if y = x ∧ x.writable then value else c.get y := by
  cases x <;> cases y <;>
    simp only [put, get, setRamint, setPeriph, Function.update_apply, Cell.writable] <;> grind

/-! ## Accesses -/

theorem ramIndex_eq : ramIndex address = address.toNat % 0x8000 :=
  Lib.toNat_and_low (n := 15) address rfl

theorem ramIndex_X : ramIndex (address + 0x4000) = (address.toNat + 0x4000) % 0x8000 := by
  rw [ramIndex_eq, BitVec.toNat_add]
  exact Nat.mod_mod_of_dvd _ (by decide)

theorem lt_of_internal {address : U16} (h : address < 0x100) : address < 0x200 := by
  bv_omega

/-- A read advances the host port, or changes nothing. -/
theorem readMemory_snd : (c.readMemory space address).2 =
    if space = .X ∧ address = 0xffeb then c.hostportDspread else c := by
  by_cases h : space = .X ∧ address = 0xffeb
  · obtain ⟨rfl, rfl⟩ := h
    simp [readMemory]
  · rw [if_neg h]
    unfold readMemory
    split_ifs
    all_goals first | rfl | exact absurd ‹_› h

theorem writeMemoryRaw_eq : c.writeMemoryRaw space address value =
    if space = .X ∧ address ≥ 0xffc0 then c.writePeriphX (address - 0xffc0).toNat (value &&& mask24)
    else c.put (value &&& mask24) (c.cell space address) := by
  unfold writeMemoryRaw cell dataCell
  cases space with
  | X =>
    by_cases hp : address ≥ 0xffc0
    · have h2 : ¬ address < 0x200 := fun h => by bv_omega
      simp only [hp, h2, mt lt_of_internal h2, and_false, and_self, if_true, if_false]
    · simp only [hp, and_false, if_false]
      split_ifs <;> simp only [put, setRam, ramIndex_X]
  | Y =>
    simp only [reduceCtorEq, false_and, if_false]
    split_ifs <;> simp only [put, setRam, ramIndex_eq, Nat.add_zero]
  | P =>
    simp only [reduceCtorEq, false_and, if_false]
    split_ifs with h1 h2
    · rfl
    · exact absurd (lt_of_internal h1) h2
    · rfl
    · simp only [put, setRam, ramIndex_eq]

/-! ## The processor -/

/-- What the host port and the memory leave alone. -/
def processor : Bool × (ℕ → U32) := (c.running, c.registers)

-- `simp` goes through the writes of an access with these three, which hold by definition.
@[simp] theorem processor_setPeriph (i : ℕ) : (c.setPeriph space i value).processor =
    c.processor := rfl

@[simp] theorem processor_setHostport (i : ℕ) (v : U8) :
    (c.setHostport i v).processor = c.processor := rfl

@[simp] theorem processor_hostportUpdateTrdy : c.hostportUpdateTrdy.processor = c.processor := rfl

@[simp] theorem processor_dsp2host : c.dsp2host.processor = c.processor := by
  unfold dsp2host
  split_ifs <;> simp

@[simp] theorem processor_host2dsp : c.host2dsp.processor = c.processor := by
  unfold host2dsp
  split_ifs <;> simp

/-- An access leaves the processor alone; the last word of the bootstrap program starts it. -/
theorem processor_step (e : Ev) : ∃ b, (c.step e).1.processor = (c.running || b, c.registers) := by
  have keep : ∀ c' : DspCore, c'.processor = c.processor →
    ∃ b, c'.processor = (c.running || b, c.registers) :=
    fun c' h => ⟨false, by rw [h, Bool.or_false]; rfl⟩
  cases e with
  | readHost addr =>
    refine keep _ ?_
    simp only [step, readHost]
    split_ifs <;> simp [hostportCpuread]
  | writeHost addr value =>
    simp only [step, writeHost]
    split
    case h_2 => split_ifs <;> exact keep _ rfl
    case h_6 =>
      split_ifs
      · exact keep _ (by simp [hostportCpuwrite])
      · unfold bootstrapWord
        dsimp only
        split_ifs
        · exact ⟨true, by rw [Bool.or_true]; rfl⟩
        · exact keep _ rfl
    all_goals exact keep _ rfl
  | readMemory space address =>
    refine keep _ ?_
    rw [step, readMemory_snd]
    split_ifs
    · simp [hostportDspread]
    · rfl
  | writeMemory space address value =>
    refine keep _ ?_
    rw [step, writeMemoryRaw_eq]
    split_ifs
    · unfold writePeriphX
      split <;> simp [hostportDspwrite]
    · cases c.cell space address <;> rfl
  | hiInterrupts =>
    refine keep _ ?_
    simp only [step, hiInterrupts]
    split_ifs <;> rfl

theorem registers_step (e : Ev) : (c.step e).1.registers = c.registers := by
  obtain ⟨b, hb⟩ := c.processor_step e
  exact congrArg Prod.snd hb

theorem running_step {c : DspCore} (hr : c.running) (e : Ev) : (c.step e).1.running = true := by
  obtain ⟨b, hb⟩ := c.processor_step e
  rw [hr] at hb
  exact congrArg Prod.fst hb

/-! ## Reading after writing -/

/-- The DSP's side of the host port: `HCR`, `HSR` and `HRX`/`HTX`. -/
def HostRegister : Prop := space = .X ∧ (address = 0xffe8 ∨ address = 0xffe9 ∨ address = 0xffeb)

theorem readMemory_fst (h : ¬ HostRegister space address) :
    (c.readMemory space address).1 = c.get (c.cell space address) &&& mask24 := by
  unfold readMemory cell dataCell
  cases space with
  | X =>
    have hx : address ≠ 0xffc0 + 0x2b := fun ha => h ⟨rfl, .inr (.inr ha)⟩
    simp only [reduceCtorEq, if_true, if_false, hx, and_false]
    split_ifs <;> simp only [get, ramIndex_X]
  | Y =>
    simp only [reduceCtorEq, false_and, if_false]
    split_ifs <;> simp only [get, ramIndex_eq, Nat.add_zero]
  | P =>
    simp only [if_true, readMemoryP]
    split_ifs with h1 h2
    · rfl
    · exact absurd (lt_of_internal h1) h2
    · rfl
    · simp only [get, ramIndex_eq]

theorem writeMemoryRaw_put (h : ¬ HostRegister space address) :
    c.writeMemoryRaw space address value = c.put (value &&& mask24) (c.cell space address) := by
  rw [writeMemoryRaw_eq]
  split_ifs with hx
  · obtain ⟨rfl, ha⟩ := hx
    have hi : (address - 0xffc0).toNat ≠ 0x28 ∧ (address - 0xffc0).toNat ≠ 0x29 ∧
        (address - 0xffc0).toNat ≠ 0x2b := by
      simp only [HostRegister, true_and, not_or] at h
      bv_omega
    have hc : c.cell .X address = .periph .X (address - 0xffc0).toNat := by
      rw [cell, dataCell, if_neg (by bv_omega), if_neg (by bv_omega), if_pos ha]
    rw [hc]
    unfold writePeriphX
    split <;> simp_all only [ne_eq, not_true_eq_false, and_false, false_and, put]
  · rfl

/-- Reader and writer follow one map: a write is read back through every address that names its
    cell, unless that is in the ROM, and through no other address. -/
theorem readMemory_writeMemoryRaw {s s' : DspSpace} {a a' : U16} (h : ¬ HostRegister s a)
    (h' : ¬ HostRegister s' a') : ((c.writeMemoryRaw s a value).readMemory s' a').1 =
      if c.cell s' a' = c.cell s a ∧ (c.cell s a).writable then value &&& mask24
      else (c.readMemory s' a').1 := by
  have hcell : ∀ x, (c.put (value &&& mask24) x).cell s' a' = c.cell s' a' := fun x => by
    cases x <;> rfl
  rw [writeMemoryRaw_put _ _ _ _ h, readMemory_fst _ _ _ h', readMemory_fst _ _ _ h',
    hcell, get_put]
  split_ifs
  · rw [BitVec.and_assoc, BitVec.and_self]
  · rfl

/-- X:0xc000 and Y:0x8000 are both the first word of the external RAM. -/
theorem external_alias : (((default : DspCore).writeMemoryRaw .X 0xc000 0x12345678).readMemory
    .Y 0x8000).1 = 0x345678 := by
  rw [readMemory_writeMemoryRaw _ _ (by unfold HostRegister; decide)
    (by unfold HostRegister; decide)]
  decide

end DspCore

end Aranym
