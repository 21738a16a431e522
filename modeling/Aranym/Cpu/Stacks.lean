/-
  The three stack pointers of the 68040 in the presence of exceptions.

  `Bank` holds what the code keeps of them (`A7` and the three saved values, with
  the mode bits that say which one `A7` stands for), `Stacks` the three logical
  pointers.
-/
import Aranym.Cpu.Exception
import Aranym.Lib.Run

namespace Aranym

open Lib

/-! ## Banks and logical stack pointers -/

/-- The logical stack pointers. -/
@[ext] structure Stacks where
  usp : U32
  isp : U32
  msp : U32
  deriving DecidableEq

/-- The stack pointers as the code keeps them. -/
structure Bank where
  a7 : U32
  usp : U32
  isp : U32
  msp : U32
  s : Bool
  m : Bool
  deriving DecidableEq

namespace Bank

/-- `A7` stands for the pointer that `S` and `M` select. -/
def logical (b : Bank) : Stacks where
  usp := if b.s then b.usp else b.a7
  isp := if b.s ∧ !b.m then b.a7 else b.isp
  msp := if b.s ∧ b.m then b.a7 else b.msp

/-- Room for `n` bytes. -/
def push (n : ℕ) (b : Bank) : Bank := { b with a7 := b.a7 - BitVec.ofNat 32 n }

/-- To supervisor mode. -/
def enterSuper (b : Bank) : Bank :=
  if b.s then b else { b with usp := b.a7, a7 := if b.m then b.msp else b.isp, s := true }

theorem push_push (n n' : ℕ) (b : Bank) : (b.push n).push n' = b.push (n + n') := by
  simp only [push, BitVec.ofNat_add, BitVec.sub_sub]

end Bank

variable (nr : ℕ) (c : Cpu)

namespace Cpu

/-- The pointers and mode bits. -/
def bank : Bank := ⟨c.a7, c.usp, c.isp, c.msp, c.s, c.m⟩

theorem bank_setA7 (v : U32) : (c.setA7 v).bank = { c.bank with a7 := v } := by
  simp [bank, setA7, a7]

/-- The exchange of the stacks makes up for the change of the mode bits. -/
theorem logical_switchStack (olds oldm : Bool) :
    (c.switchStack olds oldm).bank.logical = { c.bank with s := olds, m := oldm }.logical := by
  unfold switchStack
  cases olds <;> cases oldm <;> cases hs : c.s <;> cases hm : c.m <;>
    simp [setA7, bank, Bank.logical, hs, hm, a7]

/-- **`MakeFromSR` preserves the three pointers**, whatever is written to `sr`. -/
theorem logical_makeFromSR (sr : U16) :
    { c with sr := sr }.makeFromSR.bank.logical = c.bank.logical := by
  have h := logical_switchStack (unpackSR { c with sr := sr }) c.s c.m
  exact h

theorem bank_applyFixup : c.applyFixup.bank = { c.bank with a7 := c.fixedA7 } := by
  unfold applyFixup fixedA7
  cases hf : c.fixupFlag with
  | false => simp [bank]
  | true =>
    by_cases hr : c.fixupReg = 7
    · simp [bank, a7, hr]
    · simp [bank, a7, hr, Function.update_of_ne (.symm hr)]

theorem bank_enterSuper : c.enterSuper.bank = c.bank.enterSuper := by
  unfold enterSuper Bank.enterSuper
  cases hs : c.s <;> simp [bank, hs, setA7, a7]

end Cpu

/-! ## What the code does to the bank -/

/-- Where `x` returns it has changed the bank by `g`. -/
def Acts {M α : Type} (x : CpuM M α) (g : Bank → Bank) : Prop :=
  Moves x fun k k' => k'.cpu.bank = g k.cpu.bank

section
variable {M α β : Type} {bus : Bus M}

variable {g : Bank → Bank} {x : CpuM M α} {f : α → CpuM M β}

theorem Acts.bind {h : Bank → Bank} (hx : Acts x g) (hf : ∀ a, Acts (f a) h) :
    Acts (x >>= f) (h ∘ g) :=
  Moves.bind hx hf fun s t u h1 h2 => by rw [h2, h1]; rfl

theorem Acts.get {f : Machine M → CpuM M β} (hf : ∀ k, Acts (f k) g) :
    Acts (MonadState.get >>= f) g := fun s b s' h => hf s s b s' h

theorem acts_onBus (x : EStateM Unit (FaultRegs × M) α) : Acts (onBus x) id := by
  intro k a k' h
  unfold onBus at h
  split at h <;> cases h
  rfl

theorem acts_onCpu {c : Cpu → Cpu} (h : ∀ k, (c k).bank = g k.bank) :
    Acts (onCpu c : CpuM M Unit) g := by
  intro k a k' hk
  cases hk
  exact h k.cpu

theorem acts_excPushWord (w : U16) : Acts (excPushWord bus w) (Bank.push 2) :=
  (acts_onCpu fun c => c.bank_setA7 _).bind fun _ => .get fun _ => acts_onBus _

theorem acts_excPushLong (l : U32) : Acts (excPushLong bus l) (Bank.push 4) :=
  (acts_onCpu fun c => c.bank_setA7 _).bind fun _ => .get fun _ => acts_onBus _

theorem Acts.push {n n' : ℕ} (hx : Acts x (Bank.push n))
    (hf : ∀ a, Acts (f a) (Bank.push n')) : Acts (x >>= f) (Bank.push (n' + n)) := by
  have h := hx.bind hf
  rw [show .push n' ∘ .push n = Bank.push (n' + n) from
    funext fun b => by rw [Function.comp_apply, Bank.push_push, Nat.add_comm]] at h
  exact h

theorem Acts.quiet (hx : Acts x id) (hf : ∀ a, Acts (f a) g) : Acts (x >>= f) g := hx.bind hf

/-- The size of the frame that the exception pushes. -/
def frameSize (nr : ℕ) : ℕ :=
  if nr = 2 then 60 else if nr = 3 ∨ nr = 5 ∨ nr = 6 ∨ nr = 7 ∨ nr = 9 then 12 else 8

theorem acts_frameTail (w sr : U16) (pc : U32) :
    Acts (do excPushWord bus w; excPushLong bus pc; excPushWord bus sr) (Bank.push 8) :=
  (acts_excPushWord w).push fun _ => (acts_excPushLong pc).push fun _ => acts_excPushWord sr

theorem acts_shortFrame (format : ℕ) (hf : format = 0 ∨ format = 1 ∨ format = 7) (sr : U16)
    (pc : U32) (nr : ℕ) (x0 x1 : U32) :
    Acts (excMakeFrame bus format sr pc nr x0 x1) (Bank.push 8) := by
  rcases hf with rfl | rfl | rfl <;> exact acts_frameTail _ _ _

theorem acts_longFrame (sr : U16) (pc : U32) (nr : ℕ) (x0 x1 : U32) :
    Acts (excMakeFrame bus 2 sr pc nr x0 x1) (Bank.push 12) :=
  (acts_excPushLong x0).push fun _ => acts_frameTail _ _ _

theorem acts_busErrorFrame : Acts (busErrorFrame bus) (Bank.push 60) := by
  have hl := @acts_excPushLong _ bus
  have hw := @acts_excPushWord _ bus
  refine (hl _).push fun _ => (hl _).push fun _ => (hl _).push fun _ => (hl _).push fun _ =>
    (hl _).push fun _ =>
    (hl _).push fun _ => (hl _).push fun _ => .get fun _ => (hl _).push fun _ => .get fun _ =>
    (hl _).push fun _ => .get fun _ => (hl _).push fun _ => (hw _).push fun _ =>
      (hw _).push fun _ =>
    .get fun _ => (hw _).push fun _ => ?_
  refine .quiet (x := modify _) (fun k a k' h => by cases h; rfl) fun _ => .get fun _ =>
    (hw _).push fun _ =>
    .get fun _ => (hl _).push fun _ => .get fun _ => .get fun _ => ?_
  exact acts_shortFrame 7 (by simp) _ _ _ _ _

/-- What the frames of an exception do to the bank. -/
def Bank.frames (nr : ℕ) (b : Bank) : Bank :=
  if b.m ∧ IsInterrupt nr then { b with msp := b.a7 - 8, a7 := b.isp - 8 }
    else b.push (frameSize nr)

theorem acts_throwawayFrames (nr : ℕ) (pc : U32) :
    Acts (throwawayFrames bus nr pc) fun b => { b with msp := b.a7 - 8, a7 := b.isp - 8 } := by
  have hswap : Acts (onCpu fun c => { c with msp := c.a7 }.setA7 c.isp : CpuM M Unit)
      fun b => { b with msp := b.a7, a7 := b.isp } :=
    acts_onCpu fun c => Cpu.bank_setA7 { c with msp := c.a7 } c.isp
  have hthrow (k : Machine M) : Acts (excMakeFrame bus 1 k.cpu.sr pc nr 0 0) (.push 8) :=
    acts_shortFrame 1 (by simp) _ _ _ _ _
  have htail := hswap.bind fun _ => .get hthrow
  have hmark : Acts (onCpu fun c => { c with sr := c.sr ||| 1#16 <<< 13 } : CpuM M Unit) id :=
    acts_onCpu fun _ => rfl
  exact .get fun k => (acts_shortFrame 0 (by simp) k.cpu.sr pc nr 0 0).bind fun _ =>
    hmark.quiet fun _ => htail

theorem acts_otherFrames {nr : ℕ} (h2 : nr ≠ 2) (oldpc pc : U32) :
    Acts (otherFrames bus nr oldpc pc) (Bank.frames nr) := by
  intro k a k' h
  have hb : k.cpu.bank.m = k.cpu.m := rfl
  -- `get` has been done: what is left is the choice of the frame in the state `k`
  change (if nr = 3 then _ else _ : CpuM M Unit) k = _ at h
  unfold Bank.frames frameSize
  rw [hb, if_neg h2]
  by_cases h3 : nr = 3
  · subst h3
    rw [if_neg (by simp [IsInterrupt]), if_pos (by simp)]
    exact acts_longFrame _ _ _ _ _ k a k' h
  rw [if_neg h3] at h
  by_cases h5 : nr = 5 ∨ nr = 6 ∨ nr = 7 ∨ nr = 9
  · rw [if_pos h5] at h
    rw [if_neg (by rintro ⟨-, hi⟩; unfold IsInterrupt at hi; omega), if_pos (by simp [h5])]
    exact acts_longFrame _ _ _ _ _ k a k' h
  rw [if_neg h5] at h
  by_cases hm : k.cpu.m = true ∧ IsInterrupt nr
  · rw [if_pos hm] at h
    rw [if_pos hm]
    exact acts_throwawayFrames _ _ k a k' h
  · rw [if_neg hm] at h
    rw [if_neg hm, if_neg (by simp [h3, h5])]
    exact acts_shortFrame 0 (by simp) _ _ _ _ _ k a k' h

theorem acts_enterHandler (nr : ℕ) : Acts (enterHandler bus nr) fun b => { b with m := false } := by
  refine .get fun _ => .quiet (acts_onBus _) fun _ => .quiet (acts_onCpu fun _ => rfl)
    fun _ => acts_onCpu fun _ => rfl

/-- **What `Exception` does to the bank** where it returns with the exception taken. -/
theorem exception_bank {nr : ℕ} {oldpc : U32} {k k' : Machine M}
    (h : exception bus nr oldpc k = .ok .taken k') : k'.cpu.bank =
      { ({ k.cpu.bank with a7 := k.cpu.fixedA7 }.enterSuper.frames nr) with m := false } := by
  obtain ⟨_, _, ⟨⟩, h⟩ := bind_ok.1 h
  obtain ⟨_, t, h1, h⟩ := bind_ok.1 h
  have ht : t.cpu.bank = { k.cpu.bank with a7 := k.cpu.fixedA7 }.enterSuper := by
    cases h1
    rw [Cpu.bank_enterSuper, Cpu.bank_applyFixup]; rfl
  rw [← ht]
  by_cases h2 : nr = 2
  · rw [if_pos h2] at h
    obtain ⟨r, u, hu, h⟩ := bind_ok.1 h
    cases r with
    | false => cases h
    | true =>
      obtain ⟨_, hu⟩ := attempt_true hu
      obtain ⟨_, w, hw, h⟩ :=
        bind_ok.1 (show (enterHandler bus nr >>= _ : CpuM M ExcResult) u = _ from h)
      cases h
      rw [acts_enterHandler nr u _ _ hw, acts_busErrorFrame t _ u hu]
      simp [Bank.frames, frameSize, h2, IsInterrupt]
  · rw [if_neg h2] at h
    obtain ⟨_, u, hu, h⟩ := bind_ok.1 h
    obtain ⟨_, w, hw, h⟩ := bind_ok.1 h
    cases h
    rw [acts_enterHandler nr u _ _ hw, acts_otherFrames h2 _ _ t _ u hu]

/-! ## Exceptions are taken where memory answers -/

/-- No access to memory throws. -/
structure Bus.Answers (bus : Bus M) : Prop where
  putWord : ∀ a w, Total (bus.putWord a w)
  putLong : ∀ a l, Total (bus.putLong a l)
  getLong : ∀ a, Total (bus.getLong a)

theorem total_get : Total (MonadState.get : CpuM M (Machine M)) := fun k => ⟨k, k, rfl⟩

theorem total_onCpu (g : Cpu → Cpu) : Total (onCpu g : CpuM M Unit) := .modify _

theorem total_onBus {x : EStateM Unit (FaultRegs × M) α} (hx : Total x) : Total (onBus x) := by
  intro k
  obtain ⟨a, ⟨f, m⟩, h⟩ := hx (k.fault, k.mem)
  exact ⟨a, { k with fault := f, mem := m }, by simp only [onBus, h]⟩

section
variable (hb : bus.Answers)
include hb

theorem total_excPushWord (w : U16) : Total (excPushWord bus w) :=
  (total_onCpu _).bind fun _ => total_get.bind fun _ => total_onBus (hb.putWord _ _)

theorem total_excPushLong (l : U32) : Total (excPushLong bus l) :=
  (total_onCpu _).bind fun _ => total_get.bind fun _ => total_onBus (hb.putLong _ _)

theorem total_excMakeFrame (format : ℕ) (sr : U16) (pc : U32) (nr : ℕ)
    (x0 x1 : U32) : Total (excMakeFrame bus format sr pc nr x0 x1) := by
  refine .bind ?_ fun _ => (total_excPushWord hb _).bind fun _ =>
    (total_excPushLong hb _).bind fun _ => total_excPushWord hb _
  unfold excFrameExtra
  split
  · exact (total_excPushLong hb _).bind fun _ => total_excPushLong hb _
  any_goals exact total_excPushLong hb _
  · exact fun k => ⟨(), k, rfl⟩

theorem total_busErrorFrame : Total (busErrorFrame bus) := by
  have hl := total_excPushLong hb
  have hw := total_excPushWord hb
  refine (hl _).bind fun _ => (hl _).bind fun _ => (hl _).bind fun _ => (hl _).bind fun _ =>
    (hl _).bind fun _ => (hl _).bind fun _ => (hl _).bind fun _ => total_get.bind fun _ =>
    (hl _).bind fun _ => total_get.bind fun _ => (hl _).bind fun _ => total_get.bind fun _ =>
    (hl _).bind fun _ => (hw _).bind fun _ => (hw _).bind fun _ => total_get.bind fun _ =>
    (hw _).bind fun _ => (Total.modify _).bind fun _ => total_get.bind fun _ =>
    (hw _).bind fun _ => total_get.bind fun _ => (hl _).bind fun _ => total_get.bind fun _ =>
    total_get.bind fun _ => total_excMakeFrame hb _ _ _ _ _ _

theorem total_otherFrames (nr : ℕ) (oldpc pc : U32) : Total (otherFrames bus nr oldpc pc) := by
  refine total_get.bind fun k => ?_
  dsimp only
  split_ifs
  · exact total_excMakeFrame hb _ _ _ _ _ _
  · exact total_excMakeFrame hb _ _ _ _ _ _
  · exact total_get.bind fun _ => (total_excMakeFrame hb _ _ _ _ _ _).bind fun _ =>
      (total_onCpu _).bind fun _ => (total_onCpu _).bind fun _ => total_get.bind fun _ =>
      total_excMakeFrame hb _ _ _ _ _ _
  · exact total_excMakeFrame hb _ _ _ _ _ _

theorem total_enterHandler (nr : ℕ) : Total (enterHandler bus nr) :=
  total_get.bind fun _ => (total_onBus (hb.getLong _)).bind fun _ =>
    (total_onCpu _).bind fun _ => total_onCpu _

theorem exception_taken (nr : ℕ) (oldpc : U32) (k : Machine M) :
    ∃ k', exception bus nr oldpc k = .ok .taken k' := by
  obtain ⟨_, t, h1⟩ := total_onCpu (M := M) (fun c => c.makeSR.applyFixup.enterSuper) k
  by_cases h2 : nr = 2
  · obtain ⟨u, hu⟩ := attempt_total (total_busErrorFrame hb) t
    obtain ⟨_, w, hw⟩ := total_enterHandler hb nr u
    refine ⟨w, bind_ok.2 ⟨k, k, rfl, bind_ok.2 ⟨_, t, h1, ?_⟩⟩⟩
    rw [if_pos h2]
    exact bind_ok.2 ⟨true, u, hu, bind_ok.2 ⟨_, w, hw, rfl⟩⟩
  · obtain ⟨_, u, hu⟩ := total_otherFrames hb nr oldpc k.cpu.pc t
    obtain ⟨_, w, hw⟩ := total_enterHandler hb nr u
    refine ⟨w, bind_ok.2 ⟨k, k, rfl, bind_ok.2 ⟨_, t, h1, ?_⟩⟩⟩
    rw [if_neg h2]
    exact bind_ok.2 ⟨_, u, hu, bind_ok.2 ⟨_, w, hw, rfl⟩⟩

end

end

/-! ## The logical pointers -/

/-- The logical pointers when the frames of an exception have been pushed on the right stacks: the
    frame on the one that `M` selects, and for an interrupt with `M` set a throwaway frame on the
    interrupt stack. -/
def Stacks.pushed (m : Bool) (p : Stacks) : Stacks :=
  if m then
    if IsInterrupt nr then { p with isp := p.isp - 8, msp := p.msp - 8 }
    else { p with msp := p.msp - BitVec.ofNat 32 (frameSize nr) }
  else { p with isp := p.isp - BitVec.ofNat 32 (frameSize nr) }

/-- The exception is taken with `M` clear or is an interrupt, and no fixup of `A7` is pending; or
    the saved pointers happen to be what the frame would make of the logical ones. -/
def BankingHolds (nr : ℕ) : Prop :=
  c.fixedA7 = c.a7 ∧ (c.m = false ∨ IsInterrupt nr) ∨
  c.s = true ∧ c.m = true ∧ ¬ IsInterrupt nr ∧ c.msp = c.a7 - BitVec.ofNat 32 (frameSize nr) ∧
    c.isp = c.fixedA7 - BitVec.ofNat 32 (frameSize nr)

theorem frameSize_ne_zero : BitVec.ofNat 32 (frameSize nr) ≠ 0 := by
  unfold frameSize
  split_ifs <;> decide

theorem sub_ne_self {x f : U32} (hf : f ≠ 0) : x ≠ x - f := by
  intro h; apply hf; bv_omega

theorem logical_frames_iff (nr : ℕ) :
    ({ ({ c.bank with a7 := c.fixedA7 }.enterSuper.frames nr) with m := false } : Bank).logical =
      c.bank.logical.pushed nr c.m ↔ BankingHolds c nr := by
  have hf := frameSize_ne_zero nr
  unfold BankingHolds Stacks.pushed Bank.frames Bank.enterSuper
  cases hs : c.s <;> cases hm : c.m <;> by_cases hi : IsInterrupt nr <;>
    simp [Cpu.bank, Bank.logical, Bank.push, hs, hm, hi]
  · exact fun _ _ => sub_ne_self hf
  · exact ⟨fun h => ⟨h.2, h.1.symm⟩, fun h => ⟨h.2.symm, h.1⟩⟩

/-- **Stack banking.**  `MakeFromSR` preserves the three logical pointers; a taken exception moves
    them by the frames it pushes, each on its own stack, exactly if `BankingHolds`; and an exception
    is taken wherever memory answers. -/
theorem stack_banking {M : Type} (bus : Bus M) (k : Machine M) (nr : ℕ) (oldpc : U32) :
    (∀ sr, { k.cpu with sr := sr }.makeFromSR.bank.logical = k.cpu.bank.logical) ∧
    (∀ k', exception bus nr oldpc k = .ok .taken k' →
      (k'.cpu.bank.logical = k.cpu.bank.logical.pushed nr k.cpu.m ↔ BankingHolds k.cpu nr)) ∧
    (bus.Answers → ∃ k', exception bus nr oldpc k = .ok .taken k') := by
  refine ⟨k.cpu.logical_makeFromSR, fun k' h => ?_, fun hb => exception_taken hb nr oldpc k⟩
  rw [← logical_frames_iff, ← exception_bank h]

/-- A memory that takes every write and holds nothing. -/
def nullBus : Bus Unit := ⟨fun _ _ => pure (), fun _ _ => pure (), fun _ => pure 0⟩

theorem nullBus_answers : nullBus.Answers :=
  ⟨fun _ _ s => ⟨_, s, rfl⟩, fun _ _ s => ⟨_, s, rfl⟩, fun _ s => ⟨_, s, rfl⟩⟩

/-- Supervisor mode, with the interrupt stack at `0x1000` and the master stack at `0x2000`. -/
def twoStacks : Cpu := { (default : Cpu) with s := true, areg := fun _ => 0x1000, msp := 0x2000 }

/-- A trap with `M` clear pushes its eight bytes on the interrupt stack. -/
theorem stack_banking_trap : ∃ k', exception nullBus 32 0 ⟨twoStacks, default, ()⟩ = .ok .taken k' ∧
    k'.cpu.bank.logical = ⟨0, 0xff8, 0x2000⟩ := by
  obtain ⟨-, hiff, htaken⟩ := stack_banking nullBus ⟨twoStacks, default, ()⟩ 32 0
  obtain ⟨k', hk⟩ := htaken nullBus_answers
  exact ⟨k', hk, (hiff k' hk).2 (.inl ⟨rfl, .inl rfl⟩)⟩

/-- A trap with `M` set: its frame is pushed on the master stack, which then counts as the interrupt
    stack; the interrupt stack pointer `0x1000` is lost and the master one has not moved. -/
theorem stack_banking_trap_master :
    let k : Machine Unit := ⟨{ twoStacks with sr := 0x3000 }.makeFromSR, default, ()⟩
    k.cpu.bank.logical = ⟨0, 0x1000, 0x2000⟩ ∧
    ∃ k', exception nullBus 32 0 k = .ok .taken k' ∧
      k.cpu.bank.logical.pushed 32 k.cpu.m = ⟨0, 0x1000, 0x1ff8⟩ ∧
      k'.cpu.bank.logical = ⟨0, 0x1ff8, 0x2000⟩ := by
  refine ⟨by decide, _, rfl, by decide, by decide⟩

/-! ## Runs -/

/-- What moves the stack pointers. -/
inductive StackOp where
  | moveToSr (sr : U16)
  | movec (v : U32) (r : Cpu.CtlReg)
  | exception (nr : ℕ) (oldpc : U32)
  | interrupt (nr : ℕ)
  | scc (nr : ℕ)
  | mfp (nr : ℕ)

/-- A processor with three stack pointers, `S` and `M`. -/
abbrev Arch : Type := Stacks × Bool × Bool

/-- What an operation means. -/
def Arch.step (a : Arch) : StackOp → Arch × Unit
  | .moveToSr sr => ((a.1, sr.getLsbD 13, sr.getLsbD 12), ())
  | .movec v .usp => (({ a.1 with usp := v }, a.2), ())
  | .movec v .isp => (({ a.1 with isp := v }, a.2), ())
  | .movec v .msp => (({ a.1 with msp := v }, a.2), ())
  | .movec _ .vbr => (a, ())
  | .interrupt nr => ((a.1.pushed (nr + 24) a.2.2, true, false), ())
  | .exception nr _ | .scc nr | .mfp nr => ((a.1.pushed nr a.2.2, true, false), ())

namespace Machine

variable {M : Type} {bus : Bus M} {k k' : Machine M}

/-- The machine after a computation. -/
def after {α : Type} (k : Machine M) (x : CpuM M α) : Machine M :=
  match x k with
  | .ok _ k | .error _ k => k

/-- What the code does. -/
def step (bus : Bus M) (k : Machine M) : StackOp → Machine M × Unit
  | .moveToSr sr => ({ k with cpu := { k.cpu with sr := sr }.makeFromSR }, ())
  | .movec v r => ({ k with cpu := k.cpu.move2c v r }, ())
  | .exception nr oldpc => (k.after (exception bus nr oldpc), ())
  | .interrupt nr => (k.after (interrupt bus nr), ())
  | .scc nr => (k.after (sccInterrupt bus nr), ())
  | .mfp nr => (k.after (mfpInterrupt bus nr), ())

/-- The processor that the machine stands for. -/
def arch (k : Machine M) : Arch := (k.cpu.bank.logical, k.cpu.s, k.cpu.m)

/-- `movec` is privileged, and exceptions find the banks as they need them. -/
def Banked (k : Machine M) : StackOp → Prop
  | .moveToSr _ => True
  | .movec _ _ => k.cpu.s
  | .interrupt nr => BankingHolds k.cpu (nr + 24)
  | .exception nr _ | .scc nr | .mfp nr => BankingHolds k.cpu nr

theorem arch_exception {nr : ℕ} {oldpc : U32} (h : exception bus nr oldpc k = .ok .taken k')
    (hk : BankingHolds k.cpu nr) :
    k'.arch = (k.cpu.bank.logical.pushed nr k.cpu.m, true, false) := by
  have hbank := exception_bank h
  have hs : k'.cpu.bank.s = true := by
    rw [hbank, Bank.frames, Bank.enterSuper, Bank.push]
    split_ifs <;> simp_all
  have hm : k'.cpu.m = false := congrArg Bank.m hbank
  rw [arch, show k'.cpu.s = true from hs, hm, ← (logical_frames_iff k.cpu nr).2 hk, hbank]

/-- The callers of `Exception` for interrupts only set the interrupt mask after it. -/
theorem arch_intmask {nr i : ℕ} (h : exception bus nr 0 k = .ok .taken k') :
    (k.after do let r ← exception bus nr 0; onCpu fun c => { c with intmask := i }; return r).arch =
      k'.arch := by
  simp only [after, bind, EStateM.bind, h]
  rfl

/-- One operation of the emulator is one of the architecture. -/
theorem arch_step (hb : bus.Answers) (k : Machine M) (op : StackOp) (h : k.Banked op) :
    (k.step bus op).1.arch = (k.arch.step op).1 := by
  cases op with
  | moveToSr sr =>
    have hbits : ∀ (c : Cpu) olds oldm, (c.switchStack olds oldm).s = c.s ∧
        (c.switchStack olds oldm).m = c.m := by
      intro c olds oldm
      unfold Cpu.switchStack
      split_ifs <;> exact ⟨rfl, rfl⟩
    exact Prod.ext (k.cpu.logical_makeFromSR sr) (Prod.ext (hbits _ _ _).1 (hbits _ _ _).2)
  | movec v r =>
    have hs : k.cpu.s = true := h
    cases r <;> cases hm : k.cpu.m <;>
      simp [step, Arch.step, arch, Cpu.move2c, Cpu.setA7, Cpu.bank, Bank.logical, Cpu.a7, hs, hm]
  | exception nr oldpc =>
    obtain ⟨k', hk⟩ := exception_taken hb nr oldpc k
    simp only [step, after, hk]
    exact arch_exception hk h
  | interrupt nr | scc nr | mfp nr =>
    obtain ⟨k', hk⟩ := exception_taken hb _ 0 k
    exact (arch_intmask hk).trans (arch_exception hk h)

/-- **The machine is a processor with three stack pointers**, in every run. -/
theorem stacks_refined {M : Type} (bus : Bus M) (hb : bus.Answers) (k : Machine M)
    (ops : List StackOp)
    (h : Along (step bus) Banked k ops) : (run (step bus) k ops).arch = run Arch.step k.arch ops :=
  run_sim (R := fun k a => k.arch = a)
    (fun k _ op hk hop => by rw [arch_step hb k op hop, hk]) ops k _ rfl h

/-- `M` is set, and an interrupt pushes a frame on each of the two stacks. -/
theorem interrupt_refined :
    (run (step nullBus) ⟨twoStacks, default, ()⟩ [.moveToSr 0x3000, .interrupt 2]).arch =
    (⟨0, 0xff8, 0x1ff8⟩, true, false) := by
  rw [stacks_refined nullBus nullBus_answers]
  · decide
  · exact ⟨trivial, .inl ⟨rfl, .inr (by decide)⟩, trivial⟩

end Machine

end Aranym
