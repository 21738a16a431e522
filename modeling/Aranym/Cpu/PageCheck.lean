/-
  Physical memory with a remembered page (`memory.h`, built with `ARAM_PAGE_CHECK`
  and without `FULLMMU`).

  `phys_get_*` and `phys_put_*` remember the page of the last access to memory that
  was checked, one for reads and one for writes, and the distance to its host
  address.  Another access to the page is made without a check.  `Access` is one
  call, and its `Outcome` the host address that it touches; the words that are
  read and written are not part of the model.
-/
import Aranym.Lib.Run
import Aranym.Mmu.Flush

namespace Aranym.PageCheck

open Lib Mmu

variable {w : ℕ}

/-! ## The model -/

/-- The options of the build and the addresses of the memories, for host words of `w` bits. -/
structure Build (w : ℕ) where
  /-- the sizes, and `PROTECT2K` -/
  memory : Config
  /-- built with `NOCHECKBOUNDARY` -/
  noCheckBoundary : Bool
  /-- built with `FIXED_VIDEORAM` -/
  fixedVideoRAM : Bool
  memBaseDiff : BitVec w
  vmemBaseDiff : BitVec w

/-- The video memory. -/
def aranymVRAMStart : U32 := 0xf0000000

variable (c : Build w)

/-- The offset in a page. -/
def pageMask : U32 := if c.memory.protect2k then 0x7ff else 0xfffff

/-- `test_ram_boundary` of the build. -/
def testBoundary (addr : U32) (size : ℕ) (super write : Bool) : Bool :=
  c.noCheckBoundary ||
    testRamBoundary
      (if c.fixedVideoRAM then { c.memory with videoRAMBase := aranymVRAMStart } else c.memory)
      addr size super write

/-- The host's address. -/
def realAddress (addr : U32) : BitVec w :=
  if c.fixedVideoRAM then
    if addr < aranymVRAMStart then addr.setWidth w + c.memBaseDiff
      else addr.setWidth w + c.vmemBaseDiff
  else addr.setWidth w + c.memBaseDiff

/-- A page and its distance: `read_page` and `read_offset`, `write_page` and `write_offset`. -/
structure Window (w : ℕ) where
  page : U32
  offset : BitVec w
  deriving DecidableEq

/-- The two cached windows. -/
structure State (w : ℕ) where
  read : Window w
  write : Window w
  deriving DecidableEq

/-- The values in `memory.cpp`. -/
def State.init : State w := ⟨⟨0xeeeeeeee, 0⟩, ⟨0xeeeeeeee, 0⟩⟩

/-- One of them. -/
def State.window (s : State w) (write : Bool) : Window w := if write then s.write else s.read

/-- Replaces it. -/
def State.setWindow (s : State w) (write : Bool) (v : Window w) : State w :=
  if write then { s with write := v } else { s with read := v }

/-- The number of bytes. -/
def bytes : Size → ℕ
  | .byte => 1
  | .word => 2
  | .long => 4

/-- A call, with `super` for `regs.s`. -/
structure Access where
  addr : U32
  size : Size
  super : Bool
  write : Bool
  deriving DecidableEq

/-- A host address, a hardware register, or a bus error with `mmu_fault_addr` and `mmu_ssw`. -/
inductive Outcome (w : ℕ) where
  | host (p : BitVec w)
  | hw (addr : U32)
  | busError (mmuFaultAddr : U32) (mmuSsw : U16)
  deriving DecidableEq

/-- What `check_ram_boundary` throws. -/
def boundaryError (addr : U32) (size : Size) (write : Bool) : Outcome w :=
  .busError addr ((BitVec.ofNat 16 (bytes size) &&& 3) <<< 5 ||| if write then 0 else 0x100)

/-- The common part of `phys_get_*` and `phys_put_*`. -/
def phys (s : State w) (addr : U32) (size : Size) (super write : Bool) : State w × Outcome w :=
  let v := s.window write
  if addr ^^^ v.page ≤ pageMask c then (s, .host (addr.setWidth w + v.offset))
  else
    let addr := physAddr addr
    if InHwRange addr then (s, .hw addr)
    else if testBoundary c addr (bytes size) super write then
      let m := realAddress c addr
      (s.setWindow write ⟨addr, m - addr.setWidth w⟩, .host m)
    else (s, boundaryError addr size write)

section
variable (s : State w) (super : Bool) (addr : U32)

/-- A read. -/
def physGetLong := phys c s addr .long super false

/-- A read. -/
def physGetWord := phys c s addr .word super false

/-- A read. -/
def physGetByte := phys c s addr .byte super false

/-- A write. -/
def physPutLong := phys c s addr .long super true

/-- A write. -/
def physPutWord := phys c s addr .word super true

/-- A write. -/
def physPutByte := phys c s addr .byte super true

end

/-- Any of them. -/
def access (s : State w) (a : Access) : State w × Outcome w :=
  match a.write, a.size with
  | false, .long => physGetLong c s a.super a.addr
  | false, .word => physGetWord c s a.super a.addr
  | false, .byte => physGetByte c s a.super a.addr
  | true, .long => physPutLong c s a.super a.addr
  | true, .word => physPutWord c s a.super a.addr
  | true, .byte => physPutByte c s a.super a.addr

theorem access_eq (s : State w) (a : Access) :
    access c s a = phys c s a.addr a.size a.super a.write := by
  obtain ⟨addr, size, super, write⟩ := a
  cases write <;> cases size <;> rfl

/-- `flush_internals`: the distances stay. -/
def flushInternals (s : State w) : State w :=
  ⟨⟨0xeeeeeeee, s.read.offset⟩, ⟨0xeeeeeeee, s.write.offset⟩⟩

/-- An access or a flush. -/
inductive Call where
  | access (a : Access)
  | flushInternals

/-- One call. -/
def step (s : State w) : Call → State w × Option (Outcome w)
  | .access a => ((access c s a).1, some (access c s a).2)
  | .flushInternals => (flushInternals s, none)

/-! ## Without the pages -/

/-- The functions without the first test. -/
def uncached (a : Access) : Outcome w :=
  let addr := physAddr a.addr
  if InHwRange addr then .hw addr
  else if testBoundary c addr (bytes a.size) a.super a.write then .host (realAddress c addr)
  else boundaryError addr a.size a.write

/-- The same without windows. -/
def uncachedStep : Call → Option (Outcome w)
  | .access a => some (uncached c a)
  | .flushInternals => none

/-- The access is made without a check. -/
def Hit (s : State w) (a : Access) : Prop := a.addr ^^^ (s.window a.write).page ≤ pageMask c
deriving Decidable

/-- The distance of the page of an address. -/
def distance (addr : U32) : BitVec w :=
  if c.fixedVideoRAM = true ∧ ¬ addr < aranymVRAMStart then c.vmemBaseDiff else c.memBaseDiff

theorem realAddress_eq (addr : U32) : realAddress c addr = addr.setWidth w + distance c addr := by
  unfold realAddress distance
  by_cases hf : c.fixedVideoRAM = true <;> by_cases ha : addr < aranymVRAMStart <;> simp [hf, ha]

/-! ## The remembered pages -/

/-- A page is below the addresses that are folded, it is not one of hardware registers, and if it is
    not the one of `flush_internals`, its distance is known. -/
structure Window.Ok (c : Build w) (v : Window w) : Prop where
  folded : v.page.toNat < 0xff000000
  ram : ¬ InHwRange v.page
  offset : v.page ≠ 0xeeeeeeee → v.offset = distance c v.page

theorem Window.ok_flushed (offset : BitVec w) : Window.Ok c ⟨0xeeeeeeee, offset⟩ :=
  ⟨show (0xeeeeeeee : U32).toNat < 0xff000000 by decide, show ¬ InHwRange 0xeeeeeeee by decide,
    fun h => absurd rfl h⟩

theorem physAddr_lt (addr : U32) : (physAddr addr).toNat < 0xff000000 := by
  unfold physAddr
  split
  · assumption
  · have : addr.toNat &&& 0x00ffffff ≤ 0x00ffffff := Nat.and_le_right
    exact Nat.lt_of_le_of_lt this (by decide)

theorem Window.ok_checked {addr : U32} (h : ¬ InHwRange (physAddr addr)) :
    Window.Ok c ⟨physAddr addr, realAddress c (physAddr addr) - (physAddr addr).setWidth w⟩ := by
  refine ⟨physAddr_lt addr, h, fun _ => ?_⟩
  rw [realAddress_eq, BitVec.add_comm, BitVec.add_sub_cancel]

/-- Both windows are right. -/
structure State.Ok (c : Build w) (s : State w) : Prop where
  window : ∀ write, (s.window write).Ok c

theorem State.ok_init : (State.init : State w).Ok c :=
  ⟨fun write => by cases write <;> exact Window.ok_flushed c 0⟩

theorem State.Ok.setWindow {c : Build w} {s : State w} (h : s.Ok c) {v : Window w} (hv : v.Ok c)
    (write : Bool) : (s.setWindow write v).Ok c := by
  refine ⟨fun write' => ?_⟩
  cases write <;> cases write'
  · exact hv
  · exact h.window true
  · exact h.window false
  · exact hv

variable {c : Build w} {s : State w}

/-- **A step keeps the pages right.** -/
theorem State.Ok.step (h : s.Ok c) (e : Call) : (PageCheck.step c s e).1.Ok c := by
  cases e with
  | access a =>
    show (access c s a).1.Ok c
    rw [access_eq]
    unfold phys
    dsimp only
    split
    · exact h
    split
    · exact h
    next hhw =>
    split
    · exact h.setWindow (Window.ok_checked c hhw) a.write
    · exact h
  | flushInternals =>
    exact ⟨fun write => by cases write <;> exact Window.ok_flushed c _⟩

/-! ## Accesses to a remembered page -/

/-- An access without a check is one to the page, which is 2 KB or 1 MB large. -/
theorem Hit.page {a : Access} (h : Hit c s a) : SamePage 20 a.addr (s.window a.write).page := by
  have hlt : SamePage 20 a.addr (s.window a.write).page ↔ _ := samePage_iff_xor_lt
  rw [hlt]
  have hle : (a.addr ^^^ (s.window a.write).page).toNat ≤ (pageMask c).toNat := h
  have hmask : (pageMask c).toNat < 2 ^ 20 := by
    unfold pageMask
    split <;> decide
  exact Nat.lt_of_le_of_lt hle hmask

theorem uncached_of_hit {a : Access} (hs : s.Ok c) (h : Hit c s a) : uncached c a =
      if testBoundary c a.addr (bytes a.size) a.super a.write then
        .host (a.addr.setWidth w + distance c (s.window a.write).page)
      else boundaryError a.addr a.size a.write := by
  have hv := hs.window a.write
  have hfold : physAddr a.addr = a.addr := if_pos ((h.page.lt_iff (by decide)).2 hv.folded)
  have hram : ¬ InHwRange a.addr := by
    intro hhw
    refine hv.ram ?_
    unfold InHwRange at hhw ⊢
    rw [← h.page.and (by decide)]
    exact hhw
  have hdist : distance c a.addr = distance c (s.window a.write).page := by
    have hlt : a.addr < aranymVRAMStart ↔ (s.window a.write).page < aranymVRAMStart :=
      h.page.lt_iff (by decide)
    unfold distance
    simp only [hlt]
  unfold uncached
  rw [hfold]
  rw [if_neg hram, realAddress_eq, hdist]

/-- A call that the pages do not change: an access without a check would pass the check, and the
    distance is right if the page is still the one of `flush_internals`. -/
def Harmless (c : Build w) (s : State w) : Call → Prop
  | .access a => Hit c s a → testBoundary c a.addr (bytes a.size) a.super a.write = true ∧
      ((s.window a.write).page = 0xeeeeeeee → (s.window a.write).offset = c.memBaseDiff)
  | .flushInternals => True

/-- **A step with and without the pages.** -/
theorem step_output_iff (h : s.Ok c) (e : Call) :
    (step c s e).2 = uncachedStep c e ↔ Harmless c s e := by
  cases e with
  | flushInternals => exact iff_of_true rfl trivial
  | access a =>
    show some (access c s a).2 = some (uncached c a) ↔ _
    rw [access_eq, Option.some.injEq]
    by_cases hh : Hit c s a
    · have hout : (phys c s a.addr a.size a.super a.write).2 =
          .host (a.addr.setWidth w + (s.window a.write).offset) := by
        exact congrArg Prod.snd (if_pos hh)
      have hoff : (s.window a.write).offset = distance c (s.window a.write).page ↔
          ((s.window a.write).page = 0xeeeeeeee → (s.window a.write).offset = c.memBaseDiff) := by
        by_cases hp : (s.window a.write).page = 0xeeeeeeee
        · have hd : distance c (s.window a.write).page = c.memBaseDiff := by
            rw [hp]
            exact if_neg fun hd => hd.2 (by decide)
          rw [hd]
          exact ⟨fun he _ => he, fun he => he hp⟩
        · exact iff_of_true ((h.window a.write).offset hp) fun he => absurd he hp
      rw [hout, uncached_of_hit h hh, Harmless, ← hoff]
      split
      next ht =>
        rw [Outcome.host.injEq, BitVec.add_right_inj]
        exact ⟨fun he _ => ⟨ht, he⟩, fun he => (he hh).2⟩
      next ht =>
        refine iff_of_false (fun he => ?_) fun he => ht (he hh).1
        cases he
    · refine iff_of_true ?_ fun hc => absurd hc hh
      have hmiss : ¬ a.addr ^^^ (s.window a.write).page ≤ pageMask c := hh
      unfold phys uncached
      dsimp only
      rw [if_neg hmiss]
      split
      · rfl
      split <;> rfl

/-- **Runs for which the pages make no difference.**  Every call of a run gives what it gives
    without the remembered pages, exactly if every access that is made without a check would pass
    it. -/
theorem page_check_iff (c : Build w) (es : List Call) :
    outputs (step c) State.init es = es.map (uncachedStep c) ↔
    Along (step c) (Harmless c) State.init es := by
  rw [← along_output_iff]
  exact along_congr (fun _ e hs => hs.step e) (fun _ e hs => step_output_iff hs e) es State.init
    (State.ok_init c)

/-- Memory without any options, with 16 MB of FastRAM. -/
def plainBuild : Build 64 :=
  ⟨{ Config.plain with fastRAMSize := 0x1000000 }, false, false, 0x10000000, 0⟩

/-- After a write to address 8 the protected address 0 is written; with `PROTECT2K` and after a read
    by the supervisor, the user reads address 0; after a read of the last long of FastRAM a long is
    read that ends behind it; and the page of 0xeeeeeeee is read from the start. -/
theorem page_check_skipped :
    let put (addr : U32) : Call := .access ⟨addr, .byte, true, true⟩
    let get (super : Bool) (addr : U32) : Call := .access ⟨addr, .long, super, false⟩
    let protect2k : Build 64 :=
      { plainBuild with memory := { plainBuild.memory with protect2k := true } }
    outputs (step plainBuild) State.init [put 8, put 0] =
      [some (.host 0x10000008), some (.host 0x10000000)] ∧
      [put 8, put 0].map (uncachedStep plainBuild) =
        [some (.host 0x10000008), some (.busError 0 0x20)] ∧
      outputs (step protect2k) State.init [get true 0, get false 0] =
        [some (.host 0x10000000), some (.host 0x10000000)] ∧
      [get true 0, get false 0].map (uncachedStep protect2k) =
        [some (.host 0x10000000), some (.busError 0 0x100)] ∧
      outputs (step plainBuild) State.init [get true 0x1fffffc, get true 0x1fffffe] =
        [some (.host 0x11fffffc), some (.host 0x11fffffe)] ∧
      [get true 0x1fffffc, get true 0x1fffffe].map (uncachedStep plainBuild) =
        [some (.host 0x11fffffc), some (.busError 0x1fffffe 0x100)] ∧
      outputs (step plainBuild) State.init [get true 0xeeeeeee0] = [some (.host 0xeeeeeee0)] ∧
      [get true 0xeeeeeee0].map (uncachedStep plainBuild) =
        [some (.busError 0xeeeeeee0 0x100)] := by
  decide

end Aranym.PageCheck
