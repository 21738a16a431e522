/-
  The address translation cache (`cpummu.h`, `cpummu.cpp`) of the `FULLMMU` build.

  The two levels `atc_l1` and `atc_l2` are flat arrays of lines, as in memory; the
  lines of `l1` from 2048 on are what lies behind the array.  An `Access` is a call
  of `mmu_get_*` or `mmu_put_*` that does not cross a page, and its `Outcome` where
  it goes: what is then read or written there is not part of the model, so that the
  tables change by the walk only.
-/
import Aranym.Mmu.Walk

namespace Aranym

namespace Mmu

/-- A line of a cache. -/
structure Line where
  tag : U16
  tt : Bool
  validData : Bool
  validInst : Bool
  global : Bool
  modified : Bool
  writeProtect : Bool
  hw : Bool
  busFault : Bool
  phys : U32
  deriving DecidableEq, Inhabited

/-- The tag. -/
def atcTag (addr : U32) : U16 := (addr >>> 18).setWidth 16

/-- The slot. -/
def l1Index (addr : U32) : ℕ := (addr >>> 12).toNat % 256

/-- The slot of the second level. -/
def l2Index (addr : U32) : ℕ := ((addr >>> 12) ^^^ (addr >>> 20)).toNat % 4096

/-- The line `atc_l1[super][data][write][ATC_L1_INDEX(addr)]`. -/
def l1Slot (super data write : Bool) (addr : U32) : ℕ :=
  ((super.toNat * 2 + data.toNat) * 2 + write.toNat) * 256 + l1Index addr

/-- The line `atc_l2[super][ATC_L2_INDEX(addr)]`. -/
def l2Slot (super : Bool) (addr : U32) : ℕ := super.toNat * 4096 + l2Index addr

end Mmu

/-- The ATC and the tables. -/
structure Mmu where
  l1 : ℕ → Mmu.Line
  l2 : ℕ → Mmu.Line
  tables : Mmu.Tables

namespace Mmu

/-- `sz_byte`, `sz_word`, `sz_long` -/
inductive Size where
  | byte | word | long
  deriving DecidableEq

/-- An access. -/
structure Access where
  addr : U32
  super : Bool
  data : Bool
  write : Bool
  size : Size
  deriving DecidableEq

/-- What `mmu_bus_error` leaves in the registers. -/
structure Fault where
  mmuFaultAddr : U32
  mmuSsw : U16
  wb3Status : U16
  deriving DecidableEq

/-- Where an access goes: to an address of RAM or ROM, to a hardware register, or nowhere. -/
inductive Outcome where
  | ram (phys : U32)
  | hw (phys : U32)
  | busError (fault : Fault)
  /-- the fill of a level 1 line starts again without an end -/
  | diverge
  deriving DecidableEq

/-! ## Fills -/

/-- The line after a walk that found no page. -/
def Line.fault (l : Line) : Line :=
  { l with validData := false, validInst := false, global := false }

/-- The line after a walk that found the page `desc`. -/
def Line.page (c : Config) (addr desc : U32) (l : Line) : Line :=
  { l with
    validData := true, validInst := true
    phys := if c.mmuPagesize8k then (desc &&& ~~~0x1fff) - (addr &&& ~~~0x1fff)
      else (desc &&& ~~~0xfff) - (addr &&& ~~~0xfff)
    global := desc &&& 0x400 != 0
    modified := desc &&& 0x10 != 0
    writeProtect := desc &&& 4 != 0 }

/-- The access is denied by the descriptor: no page, or a page of the supervisor. -/
def Denied (super : Bool) (desc : U32) : Prop :=
  desc &&& 1 = 0 ∨ (!super) = true ∧ desc &&& 0x80 ≠ 0
deriving Decidable

variable (c : Config) (s : Mmu) (a : Access) (global : Bool)

/-- The end of `mmu_fill_atc_l2`: the walk. -/
def fillWalk (addr : U32) (super write : Bool) (l : Line) (m : Tables) : U32 × Line × Tables :=
  match lookupPagetable c addr super write m with
  | .error _ m => (0, l.fault, m)
  | .ok desc m => if Denied super desc then (desc, l.fault, m) else (desc, l.page c addr desc, m)

/-- `mmu_fill_atc_l2`: the descriptor returned, the line and the tables. -/
def fillAtcL2 (c : Config) (addr : U32) (super data write : Bool) (l : Line) (m : Tables) :
    U32 × Line × Tables :=
  let l := { l with tag := atcTag addr, hw := false, busFault := false }
  let res := matchTtr c addr super data
  if res ≠ .noMatch then
    (0, { l with
          tt := true
          validData := data || matchTtr c addr super true == res
          validInst := !data || matchTtr c addr super false == res
          global := true, modified := true, writeProtect := res == .noWrite, phys := 0 }, m)
  else if !c.mmuEnabled then
    (0, { l with tt := false, validData := true, validInst := true, global := true, modified := true
                 writeProtect := false, phys := 0 }, m)
  else fillWalk c addr super write { l with tt := false } m

/-- What `mmu_fill_atc_l1` does with a level 2 line. -/
inductive Check where
  | fail | pass | restart
  deriving DecidableEq

/-- Whether a line serves it. -/
def check (l : Line) : Check :=
  if !(if a.data then l.validData else l.validInst) then .fail
  else if a.write then
    if l.writeProtect then .fail
    else if !l.modified then .restart
    else .pass
  else .pass

/-- The loop around the label `restart`, at most `n` times: whether the line passes, the line and
    the tables; `none` if `n` is not enough. -/
def settle (c : Config) (a : Access) : ℕ → Line → Tables → Option (Bool × Line × Tables)
  | 0, _, _ => none
  | n + 1, l, m =>
    match check a l with
    | .fail => some (false, l, m)
    | .pass => some (true, l, m)
    | .restart =>
      let r := fillAtcL2 c a.addr a.super a.data a.write l m
      settle c a n r.2.1 r.2.2

/-- The level 2 line of an access, filled if it is of another page. -/
def lookupL2 : Line × Tables :=
  let l := s.l2 (l2Slot a.super a.addr)
  if l.tag ≠ atcTag a.addr then
    (fillAtcL2 c a.addr a.super a.data a.write l s.tables).2
  else (l, s.tables)

/-- The end of `mmu_fill_atc_l1`: the level 1 line made of a level 2 line that passes, and whether
    it is one of memory. -/
def install (l : Line) : Bool × Line :=
  let physAddr := a.addr + l.phys
  if InHwRange physAddr then (false, { l with hw := true, tag := ~~~l.tag })
  else if physAddr &&& 0xfff00000 = 0xfff00000 then
    (false, { l with hw := true, phys := l.phys - 0xff000000, tag := ~~~l.tag })
  else if !testRamBoundary c physAddr 1 a.super a.write then
    (false, { l with busFault := true, tag := ~~~l.tag })
  else (true, l)

/-- `mmu_fill_atc_l1`: whether the level 1 line is one of memory, the line and the state; `none` if
    the loop does not end. -/
def fillAtcL1 (l1 : Line) : Option (Bool × Line × Mmu) :=
  let r := lookupL2 c s a
  match settle c a 2 r.1 r.2 with
  | none => none
  | some (passed, l, m) =>
    let s := { s with l2 := Function.update s.l2 (l2Slot a.super a.addr) l, tables := m }
    -- a line that fails is not copied: the old line is complemented
    let r := if passed then install c a l else (false, { l1 with tag := ~~~l1.tag })
    some (r.1, r.2, s)

/-! ## Accesses -/

/-- `mmu_bus_error`, with the function code of `mmu_get_fc`. -/
def mmuBusError : Fault :=
  let fc : U16 := (if a.super then 4 else 0) ||| (if a.data then 1 else 2)
  let ssw : U16 := (fc &&& 7) ||| match a.size with
    | .byte => 0x20
    | .word => 0x40
    | .long => 0
  { mmuFaultAddr := a.addr
    mmuSsw := (if a.write then ssw else ssw ||| 0x100) ||| 0x400
    wb3Status := if a.write then 0x80 ||| ssw else 0 }

/-- The code at the label `redo`: a negative line. -/
def redo (cl : Line) : Outcome :=
  if cl.hw then .hw (cl.phys + a.addr) else .busError (mmuBusError a)

/-- The slow path: `mmu_get_*_slow`, `mmu_put_*_slow` after a miss. -/
def slow : Mmu × Outcome :=
  let slot := l1Slot a.super a.data a.write a.addr
  match fillAtcL1 c s a (s.l1 slot) with
  | none => (s, .diverge)
  | some (memory, cl, s) =>
    ({ s with l1 := Function.update s.l1 slot cl },
      if memory then .ram (cl.phys + a.addr) else redo a cl)

/-- `mmu_get_*`, `mmu_put_*`. -/
def access : Mmu × Outcome :=
  let cl := s.l1 (l1Slot a.super a.data a.write a.addr)
  if cl.tag = atcTag a.addr then (s, .ram (cl.phys + a.addr))
  else if cl.tag = ~~~(atcTag a.addr) then (s, redo a cl)
  else slow c s a

/-! ## Flushes -/

/-- A line is emptied, a global one only if asked for. -/
def Line.flush (l : Line) : Line :=
  if global || !l.global then { l with tag := 0x8000 } else l

/-- One line of an array is flushed. -/
def flushLine (t : ℕ → Line) (n : ℕ) : ℕ → Line :=
  Function.update t n ((t n).flush global)

/-- The lines at `i` in the four banks from `base` on. -/
def flushBanks (t : ℕ → Line) (base i : ℕ) : ℕ → Line :=
  (List.range 4).foldl (fun t j => flushLine global t (base + j * 256 + i)) t

/-- The level 1 part of `mmu_flush_atc`. -/
def flushL1 (t : ℕ → Line) (addr : U32) (super global : Bool) : ℕ → Line :=
  let base := super.toNat * 1024
  let t := flushBanks global t base (l1Index addr)
  -- the pointer is behind the four banks now, and is not set back
  if c.mmuPagesize8k then flushBanks global t (base + 1024) (l1Index addr ^^^ 1) else t

/-- The level 2 part of `mmu_flush_atc`. -/
def flushL2 (t : ℕ → Line) (addr : U32) (super global : Bool) : ℕ → Line :=
  let base := super.toNat * 4096
  let t := flushLine global t (base + l2Index addr)
  if c.mmuPagesize8k then flushLine global t (base + (l2Index addr ^^^ 1)) else t

/-- Flushes a page. -/
def flushAtc (addr : U32) (super global : Bool) : Mmu :=
  { s with l1 := flushL1 c s.l1 addr super global, l2 := flushL2 c s.l2 addr super global }

/-- Flushes everything. -/
def flushAtcAll : Mmu :=
  { s with
    l1 := fun n => if n < 2048 then (s.l1 n).flush global else s.l1 n
    l2 := fun n => if n < 8192 then (s.l2 n).flush global else s.l2 n }

/-! ## Runs -/

/-- Accesses and flushes. -/
inductive Op where
  | access (a : Access)
  | flush (addr : U32) (super global : Bool)
  | flushAll (global : Bool)

/-- One of them. -/
def step (c : Config) (s : Mmu) : Op → Mmu × Option Outcome
  | .access a => ((s.access c a).1, some (s.access c a).2)
  | .flush addr super global => (s.flushAtc c addr super global, none)
  | .flushAll global => (s.flushAtcAll global, none)

end Mmu

end Aranym
