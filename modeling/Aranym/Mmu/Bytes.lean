/-
  Memory behind the ATC, byte by byte (`memory.h`, `cpummu.cpp`).

  `Machine` is the ATC with the bytes of memory and the registers that describe the
  last fault.  Memory is indexed by the physical address, and the walk sees its longs.
  An access that goes to a hardware register leaves the model, as does one that never
  ends.
-/
import Aranym.Cpu.Memory
import Aranym.Mmu.Transparency

namespace Aranym.Mmu

open Lib Memory
open Function (update)

/-! ## Bytes of longs -/

/-- The bytes of the aligned longs. -/
def bytesOf (m : Tables) (x : U32) : U8 :=
  (m (x &&& ~~~3) >>> (24 - 8 * (x &&& 3).toNat)).setWidth 8

theorem bytesOf_getMemLong (mem : Bytes) : bytesOf (getMemLong mem) = mem := by
  funext x
  have hx := page_add_offset x 3
  have hlt : (x &&& 3).toNat < 4 := by
    exact Nat.lt_of_le_of_lt Nat.and_le_right (by decide)
  generalize hp : x &&& ~~~3 = p at hx
  generalize hk : x &&& 3 = k at hx hlt
  rw [bytesOf, hp, hk, ← hx, getMemLong]
  obtain ⟨n, hn⟩ : ∃ n, k.toNat = n := ⟨_, rfl⟩
  have hkn : k = BitVec.ofNat 32 n := by rw [← hn, BitVec.ofNat_toNat, BitVec.setWidth_eq]
  subst hkn
  have hz : p + 0#32 = p := BitVec.add_zero p
  -- the byte at offset `n` of the long
  obtain rfl | rfl | rfl | rfl : n = 0 ∨ n = 1 ∨ n = 2 ∨ n = 3 := by omega
  all_goals
    apply BitVec.eq_of_getLsbD_eq
    intro i hi
    simp only [BitVec.getLsbD_setWidth, BitVec.getLsbD_ushiftRight, BitVec.getLsbD_append,
      hi, decide_true, Bool.true_and]
  · rw [hz]
    simp [show ¬ 24 + i < 8 by omega, show ¬ 24 + i - 8 < 8 by omega,
      show ¬ 24 + i - 8 - 8 < 8 by omega, show 24 + i - 8 - 8 - 8 = i by omega]
  · simp [show ¬ 16 + i < 8 by omega, show ¬ 16 + i - 8 < 8 by omega, hi,
      show 16 + i - 8 - 8 = i by omega]
  · simp [show ¬ 8 + i < 8 by omega, hi, show 8 + i - 8 = i by omega]
  · simp [hi]

/-! ## The machine -/

/-- The ATC, the bytes of memory, and the registers of the last fault. -/
structure Machine where
  l1 : ℕ → Line
  l2 : ℕ → Line
  mem : Bytes
  fault : Fault
  wb3Data : U32

/-- Its translation. -/
def Machine.mmu (s : Machine) : Mmu := ⟨s.l1, s.l2, getMemLong s.mem⟩

/-- Replaces it. -/
def Machine.setMmu (s : Machine) (m : Mmu) : Machine :=
  { s with l1 := m.l1, l2 := m.l2, mem := bytesOf m.tables }

theorem Machine.setMmu_mmu (s : Machine) : s.setMmu s.mmu = s := by
  show { s with mem := bytesOf (getMemLong s.mem) } = s
  rw [bytesOf_getMemLong]

/-- Why an access ends early: `THROW(2)`, or it is none of memory. -/
inductive Stop where
  | busError
  | hw (phys : U32)
  | diverge
  deriving DecidableEq

/-- Code that can stop. -/
abbrev MachineM := EStateM Stop Machine

/-- `mmu_lookup` and the part of the slow paths that finds the address. -/
def look (c : Config) (a : Access) : MachineM U32 := fun s =>
  let r := s.mmu.access c a
  let s := s.setMmu r.1
  match r.2 with
  | .ram p => .ok p s
  | .hw p => .error (.hw p) s
  | .busError f => .error .busError { s with fault := f }
  | .diverge => .error .diverge s

/-- What a `catch` for bus errors does. -/
def onBusError (f : Machine → Machine) : Stop → Machine → Machine
  | .busError, s => f s
  | _, s => s

variable (c : Config) (super : Bool)

section
variable (addr : U32) (data : Bool) (size : Size)

/-- A translated read. -/
def mmuGetByte : MachineM U8 := do
  let p ← look c ⟨addr, super, data, false, size⟩
  return (← get).mem p

/-- A translated read. -/
def mmuGetWord : MachineM U16 := do
  let p ← look c ⟨addr, super, data, false, size⟩
  return getMemWord (← get).mem p

/-- A translated read. -/
def mmuGetLong : MachineM U32 := do
  let p ← look c ⟨addr, super, data, false, size⟩
  return getMemLong (← get).mem p

end

/-- The address for a write; before a bus error `mmu_put_*_slow` saves the value. -/
def lookPut (addr val : U32) (data : Bool) (size : Size) : MachineM U32 :=
  onThrow (onBusError fun s => { s with wb3Data := val }) (look c ⟨addr, super, data, true, size⟩)

/-- A translated write. -/
def mmuPutByte (addr : U32) (val : U8) (data : Bool) (size : Size) : MachineM Unit := do
  let p ← lookPut c super addr (val.setWidth 32) data size
  modify fun s => { s with mem := Function.update s.mem p val }

/-- A translated write. -/
def mmuPutWord (addr : U32) (val : U16) (data : Bool) (size : Size) : MachineM Unit := do
  let p ← lookPut c super addr (val.setWidth 32) data size
  modify fun s => { s with mem := putMemWord s.mem p val }

/-- A translated write. -/
def mmuPutLong (addr val : U32) (data : Bool) (size : Size) : MachineM Unit := do
  let p ← lookPut c super addr val data size
  modify fun s => { s with mem := putMemLong s.mem p val }

/-! ## Lines that answer -/

variable {c super} {s t : Machine} {a b : Access} {p x : U32} {data : Bool} {size size' : Size}

/-- The level 1 line of the access has the address `p` for it. -/
structure Loaded (s : Machine) (a : Access) (p : U32) : Prop where
  tag : (s.l1 a.slot).tag = atcTag a.addr
  phys : (s.l1 a.slot).phys + a.addr = p

theorem Loaded.sameKind (h : Loaded s a p) (hk : SameKind a b) :
    Loaded s b (p + (b.addr - a.addr)) := by
  refine ⟨?_, ?_⟩
  · rw [hk.slot, h.tag, hk.tag]
  · rw [hk.slot, ← h.phys, add_assoc, add_sub_cancel]

theorem look_loaded (h : Loaded s a p) : look c a s = .ok p s := by
  have hacc : s.mmu.access c a = (s.mmu, .ram p) := by
    rw [access_hit (.inl h.tag), answer]
    refine congrArg (Prod.mk s.mmu) ((if_pos h.tag).trans ?_)
    exact congrArg Outcome.ram h.phys
  unfold look
  rw [hacc]
  exact congrArg (EStateM.Result.ok p) s.setMmu_mmu

theorem tag_fillAtcL2 (c : Config) (addr : U32) (super data write : Bool) (l : Line) (m : Tables) :
    (fillAtcL2 c addr super data write l m).2.1.tag = atcTag addr := by
  unfold fillAtcL2
  dsimp only
  split_ifs
  · rfl
  · rfl
  · unfold fillWalk
    split
    · rfl
    · split_ifs <;> rfl

theorem tag_lookupL2 (c : Config) (s : Mmu) (a : Access) :
    (lookupL2 c s a).1.tag = atcTag a.addr := by
  unfold lookupL2
  dsimp only
  split_ifs with h
  · exact tag_fillAtcL2 ..
  · exact not_not.1 h

theorem tag_settle {passed : Bool} {l l' : Line} {m m' : Tables} :
    ∀ {n : ℕ}, l.tag = atcTag a.addr →
    settle c a n l m = some (passed, l', m') → l'.tag = atcTag a.addr := by
  intro n
  induction n generalizing l m with
  | zero =>
    intro _ h
    cases h
  | succ n ih =>
    intro hl h
    rw [settle] at h
    cases hc : check a l with
    | fail =>
      rw [hc] at h
      cases h
      exact hl
    | pass =>
      rw [hc] at h
      cases h
      exact hl
    | restart =>
      rw [hc] at h
      exact ih (tag_fillAtcL2 ..) h

theorem redo_ne_ram (l : Line) : redo a l ≠ .ram p := by
  unfold redo
  split_ifs <;> exact Outcome.noConfusion

theorem answer_ram {l : Line} (h : answer a l = .ram p) :
    l.tag = atcTag a.addr ∧ l.phys + a.addr = p := by
  unfold answer at h
  split_ifs at h with ht
  · exact ⟨ht, Outcome.ram.inj h⟩
  · exact absurd h (redo_ne_ram l)

theorem access_ram {s s' : Mmu} (h : s.access c a = (s', .ram p)) :
    (s'.l1 a.slot).tag = atcTag a.addr ∧ (s'.l1 a.slot).phys + a.addr = p := by
  by_cases hh : Hits (s.l1 a.slot) a.addr
  · rw [access_hit hh, Prod.mk.injEq] at h
    rw [← h.1]
    exact answer_ram h.2
  · rw [access_miss hh] at h
    cases hset : settle c a 2 (lookupL2 c s a).1 (lookupL2 c s a).2 with
    | none =>
      unfold slow fillAtcL1 at h
      dsimp only at h
      rw [hset] at h
      cases h
    | some r =>
      obtain ⟨passed, l, m⟩ := r
      rw [slow_of_settle hset] at h
      have htag := tag_settle (tag_lookupL2 c s a) hset
      cases passed with
      | false => exact absurd (congrArg Prod.snd h) (redo_ne_ram _)
      | true =>
        rw [if_pos rfl] at h
        dsimp only at h
        rw [← (install_answer htag).2, Prod.mk.injEq] at h
        have hl : s'.l1 a.slot = (install c a l).2 := by
          rw [← h.1]
          exact Function.update_self a.slot (install c a l).2 s.l1
        rw [hl]
        exact answer_ram h.2

theorem access_size (c : Config) (s : Mmu) (a : Access) (z : Size) :
    (s.access c { a with size := z }).1 = (s.access c a).1 ∧
      ((s.access c { a with size := z }).2 = (s.access c a).2 ∨
        (s.access c { a with size := z }).2 = .busError (mmuBusError { a with size := z }) ∧
          (s.access c a).2 = .busError (mmuBusError a)) := by
  have hredo : ∀ l, redo { a with size := z } l = redo a l ∨
      redo { a with size := z } l = .busError (mmuBusError { a with size := z }) ∧
        redo a l = .busError (mmuBusError a) := by
    intro l
    unfold redo
    split_ifs
    · exact .inl rfl
    · exact .inr ⟨rfl, rfl⟩
  have hfill : fillAtcL1 c s { a with size := z } = fillAtcL1 c s a := rfl
  unfold access
  dsimp only
  split_ifs
  · exact ⟨rfl, .inl rfl⟩
  · exact ⟨rfl, hredo _⟩
  · unfold slow
    dsimp only
    rw [hfill]
    cases fillAtcL1 c s a (s.l1 (l1Slot a.super a.data a.write a.addr)) with
    | none => exact ⟨rfl, .inl rfl⟩
    | some r =>
      obtain ⟨memory, cl, s'⟩ := r
      cases memory with
      | false => exact ⟨rfl, hredo cl⟩
      | true => exact ⟨rfl, .inl rfl⟩

theorem access_busError {s : Mmu} {f : Fault} (h : (s.access c a).2 = .busError f) :
    f = mmuBusError a := by
  have hredo : ∀ l, redo a l = .busError f → f = mmuBusError a := by
    intro l hl
    unfold redo at hl
    split_ifs at hl
    exact (Outcome.busError.inj hl).symm
  unfold access at h
  dsimp only at h
  split_ifs at h
  · exact hredo _ h
  · unfold slow at h
    dsimp only at h
    split at h
    · cases h
    · dsimp only at h
      split_ifs at h
      exact hredo _ h

/-- **What an access does**, for all sizes: it finds an address and leaves a line that has it, or it
    ends in a bus error that reports it, or it leaves the model. -/
theorem look_spec (c : Config) (addr : U32) (super data write : Bool) (s : Machine) :
    (∃ p t, (∀ z, Loaded t ⟨addr, super, data, write, z⟩ p) ∧
      ∀ z, look c ⟨addr, super, data, write, z⟩ s = .ok p t) ∨
    (∃ t : Machine, ∀ z, look c ⟨addr, super, data, write, z⟩ s =
      .error .busError { t with fault := mmuBusError ⟨addr, super, data, write, z⟩ }) ∨
    ∃ e t, e ≠ .busError ∧ ∀ z, look c ⟨addr, super, data, write, z⟩ s = .error e t := by
  obtain ⟨r, hr⟩ : ∃ r, s.mmu.access c ⟨addr, super, data, write, .byte⟩ = r := ⟨_, rfl⟩
  have hsize := access_size c s.mmu ⟨addr, super, data, write, .byte⟩
  rw [hr] at hsize
  obtain ⟨m, o⟩ := r
  have hall : (∀ f, o ≠ .busError f) → ∀ z, s.mmu.access c ⟨addr, super, data, write, z⟩ =
    (m, o) := fun ho z =>
    Prod.ext (hsize z).1 ((hsize z).2.resolve_right fun h => ho _ h.2)
  cases o with
  | ram p =>
    obtain ⟨htag, hphys⟩ := access_ram hr
    refine .inl ⟨p, s.setMmu m, fun z => ⟨htag, hphys⟩, fun z => ?_⟩
    rw [look, hall nofun]
  | busError f =>
    refine .inr (.inl ⟨s.setMmu m, fun z => ?_⟩)
    have hz : (s.mmu.access c ⟨addr, super, data, write, z⟩).2 =
        .busError (mmuBusError ⟨addr, super, data, write, z⟩) := by
      rcases (hsize z).2 with h | h
      · rw [h, access_busError h]
      · exact h.1
    have hbus : s.mmu.access c ⟨addr, super, data, write, z⟩ =
      (m, .busError (mmuBusError ⟨addr, super, data, write, z⟩)) :=
      Prod.ext (hsize z).1 hz
    rw [look, hbus]
  | hw q =>
    refine .inr (.inr ⟨.hw q, s.setMmu m, Stop.noConfusion, fun z => ?_⟩)
    rw [look, hall nofun]
  | diverge =>
    refine .inr (.inr ⟨.diverge, s.setMmu m, Stop.noConfusion, fun z => ?_⟩)
    rw [look, hall nofun]

/-! ## An access to a page, byte by byte -/

/-- Equal but for the registers of a fault. -/
structure Machine.SameRam (s t : Machine) : Prop where
  l1 : s.l1 = t.l1
  l2 : s.l2 = t.l2
  mem : s.mem = t.mem

/-- Bit `MA` of `mmu_ssw`. -/
def Machine.ma (s : Machine) : Bool := s.fault.mmuSsw.getLsbD 11

/-- Two accesses that end early in the same way; a bus error of both is one of a byte with `P`. -/
structure Like (P : U32 → Prop) (e : Stop) (t : Machine) (e' : Stop) (t' : Machine) : Prop where
  stop : e = e'
  ram : t.SameRam t'
  fault : e = .busError → t.fault.mmuFaultAddr = t'.fault.mmuFaultAddr ∧
    P t'.fault.mmuFaultAddr ∧ t.ma = false

variable {e : Stop}

theorem Like.mono {P Q : U32 → Prop} (hPQ : ∀ x, P x → Q x) {e' : Stop} {t' : Machine}
    (h : Like P e t e' t') : Like Q e t e' t' :=
  ⟨h.stop, h.ram, fun he => ⟨(h.fault he).1, hPQ _ (h.fault he).2.1, (h.fault he).2.2⟩⟩

theorem ma_mmuBusError (a : Access) : (mmuBusError a).mmuSsw.getLsbD 11 = false := by
  obtain ⟨addr, super, data, write, size⟩ := a
  show (mmuBusError ⟨0, super, data, write, size⟩).mmuSsw.getLsbD 11 = false
  cases super <;> cases data <;> cases write <;> cases size <;> decide

theorem like_busError {t' : Machine} {a' : Access} (h : t.SameRam t') (hf : t.fault = mmuBusError a)
    (hf' : t'.fault = mmuBusError a') (ha : a.addr = x) (ha' : a'.addr = x) :
    Like (· = x) .busError t .busError t' := by
  refine ⟨rfl, h, fun _ => ?_⟩
  rw [Machine.ma, hf, hf']
  exact ⟨ha.trans ha'.symm, ha', ma_mmuBusError a⟩

theorem like_left {P : U32 → Prop} (he : e ≠ .busError) : Like P e t e t :=
  ⟨rfl, ⟨rfl, rfl, rfl⟩, fun h => absurd h he⟩

theorem getByte_of_look (h : look c ⟨x, super, data, false, size⟩ s = .ok p t) :
    mmuGetByte c super x data size s = .ok (t.mem p) t := bind_of_ok _ h

theorem getByte_next {k : U32} (h : Loaded t ⟨x, super, data, false, size⟩ p)
    (hp : SamePage 12 x (x + k)) :
    mmuGetByte c super (x + k) data size t = .ok (t.mem (p + k)) t := by
  have hk : Loaded t ⟨x + k, super, data, false, size⟩ _ := h.sameKind ⟨hp, rfl, rfl, rfl⟩
  rw [getByte_of_look (look_loaded hk)]
  rw [add_sub_cancel_left]

theorem get_agrees {α : Type} {f g : U32 → MachineM α}
    (hfg : ∀ p t, (∀ z, Loaded t ⟨x, super, data, false, z⟩ p) → ∃ a, f p t = .ok a t ∧
      g p t = .ok a t) :
    Agrees (Like (· = x)) (look c ⟨x, super, data, false, size⟩ >>= f)
      (look c ⟨x, super, data, false, size'⟩ >>= g) s := by
  rcases look_spec c x super data false s with ⟨p, t, hl, h⟩ | ⟨t, h⟩ | ⟨e, t, he, h⟩
  · obtain ⟨a, hf, hg⟩ := hfg p t hl
    exact .inl ⟨a, t, (bind_of_ok _ (h size)).trans hf, (bind_of_ok _ (h size')).trans hg⟩
  · exact .inr ⟨_, _, _, _, bind_of_error _ (h size), bind_of_error _ (h size'),
      like_busError ⟨rfl, rfl, rfl⟩ rfl rfl rfl rfl⟩
  · exact .inr ⟨e, t, e, t, bind_of_error _ (h size), bind_of_error _ (h size'), like_left he⟩

theorem getByte_agrees (x : U32) (data : Bool) (size size' : Size) (s : Machine) :
    Agrees (Like (· = x)) (mmuGetByte c super x data size) (mmuGetByte c super x data size') s :=
  get_agrees fun p t _ => ⟨t.mem p, rfl, rfl⟩

/-- `get_byte` for two bytes. -/
def getTwo (c : Config) (super : Bool) (x : U32) (data : Bool) (size : Size) : MachineM U16 := do
  let b₀ ← mmuGetByte c super x data size
  let b₁ ← mmuGetByte c super (x + 1) data size
  return b₀ ++ b₁

theorem getWord_agrees (hp : SamePage 12 x (x + 1)) (data : Bool) (size size' : Size)
    (s : Machine) :
    Agrees (Like (· = x)) (mmuGetWord c super x data size) (getTwo c super x data size') s := by
  unfold mmuGetWord getTwo
  conv => arg 3; unfold mmuGetByte
  rw [bind_assoc]
  refine get_agrees fun p t hl => ⟨getMemWord t.mem p, rfl, ?_⟩
  exact bind_of_ok _ (getByte_next (hl size') hp)

/-- Four reads of bytes. -/
def getFour (c : Config) (super : Bool) (x : U32) (data : Bool) (size : Size) : MachineM U32 := do
  let b₀ ← mmuGetByte c super x data size
  let b₁ ← mmuGetByte c super (x + 1) data size
  let b₂ ← mmuGetByte c super (x + 2) data size
  let b₃ ← mmuGetByte c super (x + 3) data size
  return b₀ ++ b₁ ++ b₂ ++ b₃

theorem getLong_agrees (h1 : SamePage 12 x (x + 1)) (h2 : SamePage 12 x (x + 2))
    (h3 : SamePage 12 x (x + 3)) (data : Bool) (size size' : Size) (s : Machine) :
    Agrees (Like (· = x)) (mmuGetLong c super x data size) (getFour c super x data size') s := by
  unfold mmuGetLong getFour
  conv => arg 3; unfold mmuGetByte
  rw [bind_assoc]
  refine get_agrees fun p t hl => ⟨getMemLong t.mem p, rfl, ?_⟩
  have hnext := fun {k} (hk : SamePage 12 x (x + k)) => getByte_next (c := c) (hl size') hk
  exact (bind_of_ok _ (hnext h1)).trans ((bind_of_ok _ (hnext h2)).trans (bind_of_ok _ (hnext h3)))

/-! ## Writes -/

/-- Memory is written. -/
def Machine.setMem (s : Machine) (mem : Bytes) : Machine := { s with mem := mem }

theorem Loaded.setMem (h : Loaded t a p) (mem : Bytes) : Loaded (t.setMem mem) a p :=
  ⟨h.tag, h.phys⟩

variable {val : U32}

theorem lookPut_ok (h : look c ⟨x, super, data, true, size⟩ s = .ok p t) :
    lookPut c super x val data size s = .ok p t := by
  rw [lookPut, onThrow, h]

theorem lookPut_error (h : look c ⟨x, super, data, true, size⟩ s = .error e t) :
    lookPut c super x val data size s =
      .error e (onBusError (fun s => { s with wb3Data := val }) e t) := by
  rw [lookPut, onThrow, h]

theorem onBusError_of_ne {f : Machine → Machine} (h : e ≠ .busError) : onBusError f e t = t := by
  cases e with
  | busError => exact absurd rfl h
  | hw q => rfl
  | diverge => rfl

theorem putByte_of_look {v : U8} (h : look c ⟨x, super, data, true, size⟩ s = .ok p t) :
    mmuPutByte c super x v data size s = .ok () (t.setMem (update t.mem p v)) :=
  bind_of_ok _ (lookPut_ok h)

theorem putByte_next {k : U32} {v : U8} (h : Loaded t ⟨x, super, data, true, size⟩ p)
    (hp : SamePage 12 x (x + k)) :
    mmuPutByte c super (x + k) v data size t = .ok () (t.setMem (update t.mem (p + k) v)) := by
  have hk : Loaded t ⟨x + k, super, data, true, size⟩ _ := h.sameKind ⟨hp, rfl, rfl, rfl⟩
  rw [putByte_of_look (look_loaded hk)]
  rw [add_sub_cancel_left]

/-- What a write of the operand `val` reports. -/
def LikePut (val : U32) (P : U32 → Prop) (e : Stop) (t : Machine) (e' : Stop)
    (t' : Machine) : Prop :=
  Like P e t e' t' ∧ (e = .busError → t.wb3Data = val)

theorem put_agrees {α : Type} {val' : U32} {f g : U32 → MachineM α}
    (hfg : ∀ p t, (∀ z, Loaded t ⟨x, super, data, true, z⟩ p) → ∃ a u, f p t = .ok a u ∧
      g p t = .ok a u) :
    Agrees (LikePut val (· = x)) (lookPut c super x val data size >>= f)
      (lookPut c super x val' data size' >>= g) s := by
  rcases look_spec c x super data true s with ⟨p, t, hl, h⟩ | ⟨t, h⟩ | ⟨e, t, he, h⟩
  · obtain ⟨a, u, hf, hg⟩ := hfg p t hl
    exact .inl ⟨a, u, (bind_of_ok _ (lookPut_ok (h size))).trans hf,
      (bind_of_ok _ (lookPut_ok (h size'))).trans hg⟩
  · exact .inr ⟨_, _, _, _, bind_of_error _ (lookPut_error (h size)),
      bind_of_error _ (lookPut_error (h size')),
      like_busError ⟨rfl, rfl, rfl⟩ rfl rfl rfl rfl, fun _ => rfl⟩
  · refine .inr ⟨_, _, _, _, bind_of_error _ (lookPut_error (h size)),
      bind_of_error _ (lookPut_error (h size')), ?_⟩
    rw [onBusError_of_ne he, onBusError_of_ne he]
    exact ⟨like_left he, fun hb => absurd hb he⟩

theorem putByte_agrees (x : U32) (v : U8) (data : Bool) (size size' : Size) (s : Machine) :
    Agrees (LikePut (v.setWidth 32) (· = x)) (mmuPutByte c super x v data size)
      (mmuPutByte c super x v data size') s :=
  put_agrees fun p t _ => ⟨(), t.setMem (update t.mem p v), rfl, rfl⟩

/-- Two writes of bytes. -/
def putTwo (c : Config) (super : Bool) (x : U32) (w : U16) (data : Bool)
    (size : Size) : MachineM Unit := do
  mmuPutByte c super x ((w >>> 8).setWidth 8) data size
  mmuPutByte c super (x + 1) (w.setWidth 8) data size

theorem putWord_agrees (hp : SamePage 12 x (x + 1)) (w : U16) (data : Bool) (size size' : Size)
    (s : Machine) :
    Agrees (LikePut (w.setWidth 32) (· = x)) (mmuPutWord c super x w data size)
      (putTwo c super x w data size') s := by
  unfold mmuPutWord putTwo mmuPutByte
  rw [bind_assoc]
  refine put_agrees fun p t hl => ⟨(), t.setMem (putMemWord t.mem p w), rfl, ?_⟩
  exact putByte_next ((hl size').setMem _) hp

/-- Four writes of bytes. -/
def putFour (c : Config) (super : Bool) (x l : U32) (data : Bool)
    (size : Size) : MachineM Unit := do
  mmuPutByte c super x ((l >>> 24).setWidth 8) data size
  mmuPutByte c super (x + 1) ((l >>> 16).setWidth 8) data size
  mmuPutByte c super (x + 2) ((l >>> 8).setWidth 8) data size
  mmuPutByte c super (x + 3) (l.setWidth 8) data size

theorem putLong_agrees (h1 : SamePage 12 x (x + 1)) (h2 : SamePage 12 x (x + 2))
    (h3 : SamePage 12 x (x + 3)) (l : U32) (data : Bool) (size size' : Size) (s : Machine) :
    Agrees (LikePut l (· = x)) (mmuPutLong c super x l data size)
      (putFour c super x l data size') s := by
  have hfour : putFour c super x l data size' =
    (lookPut c super x (((l >>> 24).setWidth 8).setWidth 32) data size' >>=
      fun p => do
        modify fun s => { s with mem := update s.mem p ((l >>> 24).setWidth 8) }
        mmuPutByte c super (x + 1) ((l >>> 16).setWidth 8) data size'
        mmuPutByte c super (x + 2) ((l >>> 8).setWidth 8) data size'
        mmuPutByte c super (x + 3) (l.setWidth 8) data size') := bind_assoc ..
  rw [hfour]
  refine put_agrees fun p t hl => ⟨(), t.setMem (putMemLong t.mem p l), rfl, ?_⟩
  have hmod : (modify
    fun s => { s with mem := update s.mem p ((l >>> 24).setWidth 8) } : MachineM PUnit) t =
      .ok () (t.setMem (update t.mem p ((l >>> 24).setWidth 8))) := rfl
  rw [bind_of_ok _ hmod, bind_of_ok _ (putByte_next ((hl size').setMem _) h1),
    bind_of_ok _ (putByte_next (((hl size').setMem _).setMem _) h2),
    putByte_next ((((hl size').setMem _).setMem _).setMem _) h3]
  rfl

end Aranym.Mmu
