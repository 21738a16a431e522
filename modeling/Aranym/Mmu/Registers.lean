/-
  Moves to the registers of the MMU.

  `mmu_set_tc` empties the ATC when it changes something; `mmu_set_ttr` does not,
  so that lines which were filled under the old value of a transparent
  translation register go on answering.
-/
import Aranym.Mmu.Transparency

namespace Aranym.Mmu

open Lib

variable {c c' : Config} {m₀ : Tables} {s s' : Mmu} {a : Access} {l : Line} {addr : U32}
    {super : Bool}

/-! ## `movec` -/

/-- The control registers of `movec` that the ATC depends on. -/
inductive CtlReg where
  | tc | itt0 | itt1 | dtt0 | dtt1 | urp | srp
  deriving DecidableEq

/-- `TTR_I0`, `TTR_I1`, `TTR_D0`, `TTR_D1` -/
def CtlReg.IsTtr (r : CtlReg) : Prop := r = .itt0 ∨ r = .itt1 ∨ r = .dtt0 ∨ r = .dtt1
deriving Decidable

/-- Writes a register. -/
def setTtr (c : Config) (val : U32) : CtlReg → Config
  | .itt0 => { c with itt0 := val }
  | .itt1 => { c with itt1 := val }
  | .dtt0 => { c with dtt0 := val }
  | .dtt1 => { c with dtt1 := val }
  | _ => c -- `abort`, for the numbers of other registers

/-- `mmu_set_tc`; the two flags are all of `TC`. -/
def setTc (c : Config) (s : Mmu) (tc : U16) : Config × Mmu :=
  let enabled := tc &&& 0x8000 != 0
  let pagesize8k := tc &&& 0x4000 != 0
  if c.mmuEnabled = enabled ∧ c.mmuPagesize8k = pagesize8k then (c, s)
  else ({ c with mmuEnabled := enabled, mmuPagesize8k := pagesize8k }, s.flushAtcAll true)

/-- `m68k_move2c`, to the registers of the MMU. -/
def move2c (c : Config) (s : Mmu) (val : U32) : CtlReg → Config × Mmu
  | .tc => setTc c s ((val &&& 0xc000).setWidth 16)
  | .urp => ({ c with urp := val &&& 0xffffff00 }, s)
  | .srp => ({ c with srp := val &&& 0xffffff00 }, s)
  | r => (setTtr c (val &&& 0xffffe364) r, s)

theorem inv_move2c_tc (hi : Inv c m₀ s) (val : U32) :
    ∃ m, Inv (move2c c s val .tc).1 m (move2c c s val .tc).2 := by
  show ∃ m, Inv (setTc c s _).1 m (setTc c s _).2
  unfold setTc
  dsimp only
  split_ifs
  · exact ⟨m₀, hi⟩
  · exact ⟨s.tables, inv_flushAtcAll _ s⟩

/-! ## Other values of the transparent translation registers -/

/-- The same machine with the same registers, up to the transparent translation registers. -/
def SameButTtr (c c' : Config) : Prop :=
  c' = { c with itt0 := c'.itt0, itt1 := c'.itt1, dtt0 := c'.dtt0, dtt1 := c'.dtt1 }

/-- The values match an address of a space in the same way. -/
def SameMatch (c c' : Config) (addr : U32) (super data : Bool) : Prop :=
  matchTtr c' addr super data = matchTtr c addr super data
deriving Decidable

/-- Every page with a line is matched in the same way. -/
structure Unaffected (c c' : Config) (s : Mmu) : Prop where
  l1 : ∀ a : Access, Hits (s.l1 a.slot) a.addr → SameMatch c c' a.addr a.super a.data
  l2 : ∀ super addr, (s.l2 (l2Slot super addr)).tag = atcTag addr →
    ∀ data, SameMatch c c' addr super data

theorem sameButTtr_move2c {r : CtlReg} (hr : r.IsTtr) (c : Config) (s : Mmu) (val : U32) :
    SameButTtr c (move2c c s val r).1 ∧ (move2c c s val r).2 = s := by
  rcases hr with rfl | rfl | rfl | rfl <;> exact ⟨rfl, rfl⟩

section

variable (h : SameButTtr c c')
include h

theorem SameButTtr.grant (m : Tables) (addr : U32) (super write : Bool) :
    grant c' m addr super write = grant c m addr super write := by
  rw [h]
  rfl

theorem SameButTtr.enabled : c'.mmuEnabled = c.mmuEnabled := by
  rw [h]

theorem SameButTtr.frame (desc addr : U32) : frame c' desc addr = frame c desc addr := by
  rw [h]
  rfl

theorem SameButTtr.translate (hm : SameMatch c c' a.addr a.super a.data) (m : Tables) :
    translate c' m a = translate c m a := by
  unfold Mmu.translate
  rw [hm, h.enabled, h.grant]
  simp only [h.frame]

theorem SameButTtr.served (p : U32) (o : Outcome) : Served c' a p o ↔ Served c a p o := by
  rw [h]
  rfl

theorem SameButTtr.transparent (hm : SameMatch c c' a.addr a.super a.data) {o : Outcome}
    (ht : Transparent c m₀ a o) : Transparent c' m₀ a o := by
  unfold Transparent at ht ⊢
  rw [h.translate hm]
  cases htr : Mmu.translate c m₀ a with
  | none => rw [htr] at ht; exact ht
  | some p => rw [htr] at ht; exact (h.served p o).2 ht

theorem SameButTtr.marked {m : Tables} (hm : Marked c m₀ m) : Marked c' m₀ m := by
  rw [h]
  exact ⟨fun w => Alike.near hm w, hm.marks⟩

theorem SameButTtr.holds (hm : ∀ data, SameMatch c c' addr super data)
    (hl : Holds c m₀ super addr l) : Holds c' m₀ super addr l := by
  refine ⟨hl.hw, ?_, ?_, ?_⟩
  · rw [hm true, hm false]
    exact hl.ttr
  · rw [h.enabled]
    exact hl.off
  · simp only [h.enabled, h.grant, h.frame]
    exact hl.walk

end

theorem unaffected_flushAtcAll (c c' : Config) (s : Mmu) : Unaffected c c' (s.flushAtcAll true) :=
  ⟨fun a ha => absurd ha (not_hits_flushAtcAll s a),
    fun super addr hl => absurd hl (tag_flushAtcAll_ne s super addr)⟩

/-- Lines that are truthful about the old values are so about the new ones. -/
theorem Unaffected.inv (hu : Unaffected c c' s) (h : SameButTtr c c') (hi : Inv c m₀ s) :
    Inv c' m₀ s :=
  ⟨h.marked hi.marked, fun a ha => h.transparent (hu.l1 a ha) (hi.l1 a ha),
    fun k hk => h.holds (hu.l2 k.1 k.2 hk) (hi.l2 k hk)⟩

/-- **New values of a transparent translation register take effect** on all accesses of every clean
    run after the `movec`, from every state of the ATC that is truthful about the old values, if
    every page with a line is matched in the same way. -/
theorem ttr_write_takes_effect (c : Config) (m₀ : Tables) (s : Mmu) (hi : Inv c m₀ s) (r : CtlReg)
    (hr : r.IsTtr) (val : U32) (hu : Unaffected c (move2c c s val r).1 s) (ops : List Op)
    (h : Along (step (move2c c s val r).1) (Clean (move2c c s val r).1) (move2c c s val r).2 ops) :
    Along (step (move2c c s val r).1)
      (fun s' op => ∀ a, op = .access a →
        Transparent (move2c c s val r).1 m₀ a (s'.access (move2c c s val r).1 a).2)
      (move2c c s val r).2 ops := by
  obtain ⟨hsame, hs⟩ := sameButTtr_move2c hr c s val
  rw [hs] at h ⊢
  refine along_of_inv (P := Inv (move2c c s val r).1 m₀)
    (fun s' op hi hc => inv_step hi hc) ?_ ops s
    (hu.inv hsame hi) h
  rintro s' op hi hc a rfl
  exact (inv_access hi hc).2

/-- The ATC is empty and the MMU is off; `DTT0` is set to protect the first 16 MB from writes.  A
    write to them and a read are clean. -/
theorem ttr_write_after_flush :
    let s := (⟨default, default, fun _ => 0⟩ : Mmu).flushAtcAll true
    let c := (move2c Config.plain s 0x0000c004 .dtt0).1
    Along (step c) (fun s' op => ∀ a, op = .access a →
      Transparent c (fun _ => 0) a (s'.access c a).2) s
      [.access ⟨0x1000, false, true, true, .byte⟩,
        .access ⟨0x1000, false, true, false, .byte⟩] := by
  intro s c
  refine ttr_write_takes_effect Config.plain (fun _ => 0) s
    (inv_flushAtcAll Config.plain ⟨default, default, fun _ => 0⟩) .dtt0 (by decide) 0x0000c004
    (unaffected_flushAtcAll Config.plain c ⟨default, default, fun _ => 0⟩) _ ⟨?_, ?_, trivial⟩
  · exact .inr ⟨by decide +kernel, fun _ => by decide +kernel,
      fun _ h => absurd h (by decide +kernel)⟩
  · exact .inr ⟨fun _ => by decide +kernel, fun h => absurd h (by decide +kernel),
      fun _ h => absurd h (by decide +kernel)⟩

/-- Without a flush: a page is written, `DTT0` is set to protect it, and it can be written as
    before. -/
theorem ttr_write_ignored :
    let write : Access := ⟨0x1000, false, true, true, .byte⟩
    let s := (((⟨default, default, fun _ => 0⟩ : Mmu).flushAtcAll true).access Config.plain write).1
    let r := move2c Config.plain s 0x0000c004 .dtt0
    (r.2.access r.1 write).2 = .ram 0x1000 ∧ translate r.1 (fun _ => 0) write = none ∧
      ¬ Transparent r.1 (fun _ => 0) write (r.2.access r.1 write).2 := by
  intro write s r
  have ho : (r.2.access r.1 write).2 = .ram 0x1000 := by decide +kernel
  have ht : translate r.1 (fun _ => 0) write = none := by decide +kernel
  refine ⟨ho, ht, ?_⟩
  unfold Transparent
  rw [ht, ho]
  intro h
  cases h

/-! ## Changes of the registers and of the tables -/

/-- The MMU and its registers.  `stale` is set by a change that leaves the ATC as it is, until all
    of it is emptied. -/
structure Guest where
  config : Config
  mmu : Mmu
  stale : Bool

namespace Guest

/-- What the guest does. -/
inductive Op where
  | atc (op : Mmu.Op)
  | movec (val : U32) (r : CtlReg)
  /-- New tables are written. -/
  | store (tables : Tables)

/-- One operation. -/
def step (g : Guest) : Op → Guest × Unit
  | .atc (.flushAll true) => ({ g with mmu := g.mmu.flushAtcAll true, stale := false }, ())
  | .atc op => ({ g with mmu := (Mmu.step g.config g.mmu op).1 }, ())
  | .movec val r =>
    let (config, mmu) := move2c g.config g.mmu val r
    (⟨config, mmu, g.stale || r != .tc⟩, ())
  | .store tables => ({ g with mmu := { g.mmu with tables := tables }, stale := true }, ())

/-- Nothing is asked of the accesses between a change and the flush. -/
def Clean (g : Guest) : Op → Prop
  | .atc op => g.stale = false → Mmu.Clean g.config g.mmu op
  | .movec _ _ | .store _ => True

/-- The caches agree. -/
def Inv (g : Guest) : Prop := g.stale = false → ∃ m, Mmu.Inv g.config m g.mmu

theorem inv_step (g : Guest) (op : Op) (hi : g.Inv) (hc : g.Clean op) : (g.step op).1.Inv := by
  cases op with
  | atc op =>
    have hkeep : Inv { g with mmu := (Mmu.step g.config g.mmu op).1 } := by
      intro hs
      obtain ⟨m, hm⟩ := hi hs
      exact ⟨m, Mmu.inv_step hm (hc hs)⟩
    match op with
    | .flushAll true => exact fun _ => ⟨_, inv_flushAtcAll _ _⟩
    | .access _ | .flush _ _ _ | .flushAll false => exact hkeep
  | movec val r =>
    intro hs
    obtain ⟨hstale, hr⟩ := Bool.or_eq_false_iff.1 hs
    obtain rfl : r = .tc := bne_eq_false_iff_eq.1 hr
    obtain ⟨m, hm⟩ := hi hstale
    exact inv_move2c_tc hm val
  | store tables => exact nofun

/-- **A guest that empties the ATC after its changes does not see it**, whatever was in the ATC at
    first: each access after the flush is translated by the registers and the tables of the
    moment. -/
theorem flush_after_changes (g : Guest) (hg : g.stale = true) (ops : List Op)
    (h : Along step Clean g ops) :
    Along step (fun g op => g.stale = false → ∀ a, op = .atc (.access a) →
      Transparent g.config g.mmu.tables a (g.mmu.access g.config a).2) g ops := by
  refine along_of_inv inv_step ?_ ops g (fun hs => absurd hg (by simp [hs])) h
  rintro g op hi hc hs a rfl
  obtain ⟨m, hm⟩ := hi hs
  have ht := (inv_access hm (hc hs)).2
  unfold Transparent at ht ⊢
  rwa [hm.marked.translate]

/-- The MMU is switched on, and a page is read. -/
theorem paging_switched_on :
    let g := run step ⟨Config.plain, demoMmu, true⟩ [.movec 0x1000 .urp, .movec 0x8000 .tc,
      .atc (.flushAll true)]
    Transparent g.config g.mmu.tables ⟨0x5004, false, true, false, .long⟩
      (g.mmu.access g.config ⟨0x5004, false, true, false, .long⟩).2 := by
  have h := flush_after_changes ⟨Config.plain, demoMmu, true⟩ rfl [.movec 0x1000 .urp,
    .movec 0x8000 .tc,
    .atc (.flushAll true), .atc (.access ⟨0x5004, false, true, false, .long⟩)] ⟨trivial, trivial,
    nofun, fun _ => ?_, trivial⟩
  · exact h.2.2.2.1 rfl _ rfl
  · refine .inr ⟨by decide +kernel, by decide +kernel, fun _ _ => ⟨nofun, ?_⟩⟩
    intro w hw
    exact absurd rfl hw

end Guest

end Aranym.Mmu
