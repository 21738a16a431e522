/-
  Accesses that cross a page (`memory.h`, `cpummu.cpp`).

  `get_word`, `get_long`, `put_word` and `put_long` split an access that reaches into
  the next page of 4 KB, and report a fault of its later part as one of the whole
  access, with bit `MA`.
-/
import Aranym.Mmu.Bytes

namespace Aranym.Mmu

open Lib BitVec

/-! ## The model -/

/-- It crosses a page. -/
def isUnaligned (addr size : U32) : Bool :=
  addr &&& (size - 1) != 0 && (addr ^^^ (addr + size - 1)) &&& 0x1000 != 0

/-- The fault is reported for `addr`, with `MMU_SSW_MA`. -/
def misaligned (addr : U32) (s : Machine) : Machine :=
  { s with fault := { s.fault with mmuFaultAddr := addr, mmuSsw := s.fault.mmuSsw ||| 0x800 } }

/-- The `catch` of the writes. -/
def misalignedPut (addr val : U32) (s : Machine) : Machine :=
  let s := { s with wb3Data := val }
  if s.fault.mmuFaultAddr ≠ addr then misaligned addr s else s

section
variable (c : Config) (super : Bool)

variable (addr : U32) (val : U16) (data : Bool)

/-- A read across pages. -/
def mmuGetWordUnaligned : MachineM U16 := do
  let res := (← mmuGetByte c super addr data .word).setWidth 16 <<< 8
  onThrow (onBusError (misaligned addr)) do
    return res ||| (← mmuGetByte c super (addr + 1) data .word).setWidth 16

/-- A read across pages. -/
def mmuGetLongUnaligned : MachineM U32 := do
  if addr &&& 1 = 0 then
    let res := (← mmuGetWord c super addr data .long).setWidth 32 <<< 16
    onThrow (onBusError (misaligned addr)) do
      return res ||| (← mmuGetWord c super (addr + 2) data .long).setWidth 32
  else
    let res := (← mmuGetByte c super addr data .long).setWidth 32 <<< 8
    onThrow (onBusError (misaligned addr)) do
      let res := (res ||| (← mmuGetByte c super (addr + 1) data .long).setWidth 32) <<< 8
      let res := (res ||| (← mmuGetByte c super (addr + 2) data .long).setWidth 32) <<< 8
      return res ||| (← mmuGetByte c super (addr + 3) data .long).setWidth 32

/-- A write across pages. -/
def mmuPutWordUnaligned : MachineM Unit :=
  onThrow (onBusError (misalignedPut addr (val.setWidth 32))) do
    mmuPutByte c super addr ((val >>> 8).setWidth 8) data .word
    mmuPutByte c super (addr + 1) (val.setWidth 8) data .word

/-- A write across pages. -/
def mmuPutLongUnaligned (addr val : U32) (data : Bool) : MachineM Unit :=
  onThrow (onBusError (misalignedPut addr val)) do
    if addr &&& 1 = 0 then
      mmuPutWord c super addr ((val >>> 16).setWidth 16) data .long
      mmuPutWord c super (addr + 2) (val.setWidth 16) data .long
    else
      mmuPutByte c super addr ((val >>> 24).setWidth 8) data .long
      mmuPutByte c super (addr + 1) ((val >>> 16).setWidth 8) data .long
      mmuPutByte c super (addr + 2) ((val >>> 8).setWidth 8) data .long
      mmuPutByte c super (addr + 3) (val.setWidth 8) data .long

/-- A read. -/
def getByte : MachineM U8 := mmuGetByte c super addr true .byte

/-- A read. -/
def getWord : MachineM U16 :=
  if isUnaligned addr 2 then mmuGetWordUnaligned c super addr true
    else mmuGetWord c super addr true .word

/-- A read. -/
def getLong : MachineM U32 :=
  if isUnaligned addr 4 then mmuGetLongUnaligned c super addr true
    else mmuGetLong c super addr true .long

/-- A write. -/
def putByte (val : U8) : MachineM Unit := mmuPutByte c super addr val true .byte

/-- A write. -/
def putWord : MachineM Unit :=
  if isUnaligned addr 2 then mmuPutWordUnaligned c super addr val true
    else mmuPutWord c super addr val true .word

/-- A write. -/
def putLong (addr val : U32) : MachineM Unit :=
  if isUnaligned addr 4 then mmuPutLongUnaligned c super addr val true
    else mmuPutLong c super addr val true .long

/-! ## Byte by byte -/

/-- `get_byte` at the two addresses of a word. -/
def getBytes₂ : MachineM U16 := getTwo c super addr true .byte

/-- `get_byte` at the four addresses of a long. -/
def getBytes₄ : MachineM U32 := getFour c super addr true .byte

/-- `put_byte` with the two bytes of a word. -/
def putBytes₂ : MachineM Unit := putTwo c super addr val true .byte

/-- `put_byte` with the four bytes of a long. -/
def putBytes₄ (addr val : U32) : MachineM Unit := putFour c super addr val true .byte

end

variable {c : Config} {super : Bool} {s t t' : Machine} {addr : U32} {e e' : Stop}

/-! ## Pages -/

theorem getLsbD_twelve (x : U32) : x.getLsbD 12 = decide (x.toNat / 4096 % 2 = 1) := by
  rw [← testBit_toNat, Nat.testBit_eq_decide_div_mod_eq]

variable {k : ℕ}

theorem and_eq_zero_iff_mod {m : U32} (hm : m.toNat = 2 ^ k - 1) :
    addr &&& m = 0 ↔ addr.toNat % 2 ^ k = 0 := by
  rw [← toNat_inj, toNat_and_low addr hm]
  rfl

/-- Where `is_unaligned` fails, the access stays in the page of its first byte. -/
theorem samePage_of_aligned {size i : U32} (hk : k ≤ 2) (hsize : (size - 1).toNat = 2 ^ k - 1)
    (h : isUnaligned addr size = false) (hi : i.toNat < 2 ^ k) : SamePage 12 addr (addr + i) := by
  have hlast : addr + size - 1 = addr + (size - 1) := by
    rw [BitVec.sub_eq_add_neg, BitVec.sub_eq_add_neg, BitVec.add_assoc]
  have hcases : addr.toNat % 2 ^ k = 0 ∨
      (addr.toNat / 4096 % 2 = 1 ↔ (addr + (size - 1)).toNat / 4096 % 2 = 1) := by
    rw [isUnaligned, Bool.and_eq_false_iff, bne_eq_false_iff_eq, bne_eq_false_iff_eq] at h
    refine h.imp (and_eq_zero_iff_mod hsize).1 fun hbit => ?_
    have hx : (addr ^^^ (addr + size - 1)).getLsbD 12 = false := (and_bit_eq_zero (j := 12)).1 hbit
    rw [getLsbD_xor, getLsbD_twelve, getLsbD_twelve, hlast] at hx
    simpa using hx
  rw [samePage_iff_div, toNat_add]
  rw [toNat_add, hsize] at hcases
  obtain rfl | rfl | rfl : k = 0 ∨ k = 1 ∨ k = 2 := by omega
  all_goals
    omega

theorem samePage_of_even {x : U32} (h : x &&& 1 = 0) : SamePage 12 x (x + 1) := by
  have heven : x.toNat % 2 = 0 := (and_eq_zero_iff_mod (k := 1) rfl).1 h
  rw [samePage_iff_div, toNat_add]
  show x.toNat / 4096 = (x.toNat + 1) % 4294967296 / 4096
  omega

theorem even_add_two {x : U32} (h : x &&& 1 = 0) : x + 2 &&& 1 = 0 := by
  rw [and_eq_zero_iff_mod (k := 1) rfl] at h ⊢
  show (x.toNat + 2) % 4294967296 % 2 = 0
  omega

/-! ## Reports -/

/-- An access that ends early as its bytes do, and reports a bus error for `addr`, with `MA` if it
    is one of a later byte, and with the operand of a write. -/
structure Report (addr : U32) (val : Option U32) (e : Stop) (t : Machine) (e' : Stop)
    (t' : Machine) :
    Prop where
  stop : e = e'
  ram : t.SameRam t'
  faultAddr : e = .busError → t.fault.mmuFaultAddr = addr
  ma : e = .busError → (t.ma = true ↔ t'.fault.mmuFaultAddr ≠ addr)
  wb3Data : e = .busError → ∀ v ∈ val, t.wb3Data = v

variable {val : Option U32}

theorem report_of_ne (he : e ≠ .busError) (h : t.SameRam t') : Report addr val e t e t' :=
  ⟨rfl, h, fun hb => absurd hb he, fun hb => absurd hb he, fun hb => absurd hb he⟩

theorem Like.report (h : Like (· = addr) e t e' t')
    (hval : e = .busError → ∀ v ∈ val, t.wb3Data = v) : Report addr val e t e' t' := by
  refine ⟨h.stop, h.ram, fun he => ?_, fun he => ?_, hval⟩
  · rw [(h.fault he).1, (h.fault he).2.1]
  · rw [(h.fault he).2.2]
    exact iff_of_false Bool.false_ne_true (not_not.2 (h.fault he).2.1)

theorem ma_misaligned (addr : U32) (t : Machine) : (misaligned addr t).ma = true := by
  show (t.fault.mmuSsw ||| 0x800).getLsbD 11 = true
  rw [getLsbD_or]
  exact Bool.or_true _

theorem Like.report_misaligned (h : Like (· ≠ addr) e t e' t') :
    Report addr none e (onBusError (misaligned addr) e t) e' t' := by
  obtain ⟨rfl, hram, hf⟩ := h
  by_cases he : e = .busError
  · subst he
    refine ⟨rfl, ⟨hram.l1, hram.l2, hram.mem⟩, fun _ => rfl, fun _ => ?_, fun _ v hv => by cases hv⟩
    exact iff_of_true (ma_misaligned addr t) (hf rfl).2.1
  · rw [onBusError_of_ne he]
    exact report_of_ne he hram

theorem Like.report_misalignedPut {P : U32 → Prop} (val : U32) (h : Like P e t e' t') :
    Report addr (some val) e (onBusError (misalignedPut addr val) e t) e' t' := by
  obtain ⟨rfl, hram, hf⟩ := h
  by_cases he : e = .busError
  · subst he
    obtain ⟨haddr, -, hma⟩ := hf rfl
    show Report addr (some val) .busError (misalignedPut addr val t) .busError t'
    unfold misalignedPut
    dsimp only
    split_ifs with hne
    · refine ⟨rfl, ⟨hram.l1, hram.l2, hram.mem⟩, fun _ => rfl, fun _ => ?_,
        fun _ v hv => Option.some.inj hv⟩
      exact iff_of_true (ma_misaligned addr _) (haddr ▸ hne)
    · refine ⟨rfl, ⟨hram.l1, hram.l2, hram.mem⟩, fun _ => not_not.1 hne, fun _ => ?_,
        fun _ v hv => Option.some.inj hv⟩
      exact iff_of_false (ne_of_eq_of_ne hma Bool.false_ne_true) (haddr ▸ hne)
  · rw [onBusError_of_ne he]
    exact report_of_ne he hram

theorem Like.report_none (h : Like (· = addr) e t e' t') : Report addr none e t e' t' :=
  h.report fun _ v hv => by cases hv

theorem LikePut.report {val : U32} (h : LikePut val (· = addr) e t e' t') :
    Report addr (some val) e t e' t' :=
  h.1.report fun he _ hv => (h.2 he).trans (Option.some.inj hv)

/-! ## Reads -/

theorem ne_add (addr : U32) {k : U32} (hk : k ≠ 0) : addr + k ≠ addr := by
  intro h
  exact hk (add_eq_left.1 h)

theorem getWord_whole (c : Config) (super : Bool) (addr : U32) (s : Machine) :
    Agrees (Report addr none) (getWord c super addr) (getBytes₂ c super addr) s := by
  unfold getWord getBytes₂
  split_ifs with h
  · unfold mmuGetWordUnaligned getTwo
    refine .bind ((getByte_agrees ..).mono fun _ _ _ _ => Like.report_none) fun b₀ t => ?_
    refine .onThrow (E := Like (· ≠ addr)) ?_ fun _ _ _ _ => Like.report_misaligned
    refine .bind ((getByte_agrees ..).mono fun _ _ _ _ => .mono fun x hx => ?_) fun b₁ t => ?_
    · rw [hx]
      exact ne_add addr (by decide)
    · rw [← setWidth_append_eq_shiftLeft_setWidth_or, setWidth_eq]
      exact .pure ..
  · have hpage : SamePage 12 addr (addr + 1) :=
      samePage_of_aligned (k := 1) (by decide) rfl (Bool.not_eq_true _ ▸ h) (by decide)
    exact (getWord_agrees hpage ..).mono fun _ _ _ _ => Like.report_none

theorem getFour_eq (x : U32) (data : Bool) (size : Size) : getFour c super x data size = (do
      let w ← getTwo c super x data size
      let w' ← getTwo c super (x + 2) data size return w ++ w') := by
  have happ : ∀ b₀ b₁ b₂ b₃ : U8, b₀ ++ b₁ ++ (b₂ ++ b₃) = (b₀ ++ b₁ ++ b₂ ++ b₃ : U32) :=
    fun b₀ b₁ b₂ b₃ => (@append_assoc 16 8 8 (b₀ ++ b₁) b₂ b₃).symm
  have hx : x + 2 + 1 = x + 3 := by rw [BitVec.add_assoc]; rfl
  unfold getFour getTwo
  simp only [bind_assoc, pure_bind, hx, happ]

/-- A long is read as its four bytes are, whatever pages they are on. -/
theorem getLong_whole (c : Config) (super : Bool) (addr : U32) (s : Machine) :
    Agrees (Report addr none) (getLong c super addr) (getBytes₄ c super addr) s := by
  have hlater : ∀ {k : U32}, k ≠ 0 → ∀ e t e' t', Like (· = addr + k) e t e' t' →
    Like (· ≠ addr) e t e' t' :=
    fun hk _ _ _ _ => .mono fun x hx => by rw [hx]; exact ne_add addr hk
  unfold getLong getBytes₄
  split_ifs with h
  · unfold mmuGetLongUnaligned
    split_ifs with heven
    · rw [getFour_eq]
      refine .bind
        ((getWord_agrees (samePage_of_even heven) ..).mono
        fun _ _ _ _ => Like.report_none) fun w t => ?_
      refine .onThrow (E := Like (· ≠ addr)) ?_ fun _ _ _ _ => Like.report_misaligned
      refine .bind
        ((getWord_agrees (samePage_of_even (even_add_two heven)) ..).mono (hlater (by decide)))
        fun w' t => ?_
      rw [← setWidth_append_eq_shiftLeft_setWidth_or, setWidth_eq]
      exact .pure ..
    · unfold getFour
      refine .bind ((getByte_agrees ..).mono fun _ _ _ _ => Like.report_none) fun b₀ t => ?_
      refine .onThrow (E := Like (· ≠ addr)) ?_ fun _ _ _ _ => Like.report_misaligned
      refine .bind ((getByte_agrees ..).mono (hlater (by decide))) fun b₁ t => ?_
      refine .bind ((getByte_agrees ..).mono (hlater (by decide))) fun b₂ t => ?_
      refine .bind ((getByte_agrees ..).mono (hlater (by decide))) fun b₃ t => ?_
      simp only [← setWidth_append_eq_shiftLeft_setWidth_or, setWidth_eq]
      exact .pure ..
  · have hpage : ∀ i : U32, i.toNat < 4 → SamePage 12 addr (addr + i) := fun i hi =>
      samePage_of_aligned (k := 2) (by decide) rfl (Bool.not_eq_true _ ▸ h) hi
    exact (getLong_agrees (hpage 1 (by decide)) (hpage 2 (by decide)) (hpage 3 (by decide)) ..).mono
      fun _ _ _ _ => Like.report_none

/-! ## Writes -/

/-- The address of the byte does not matter to the `catch` of the writes. -/
theorem LikePut.like {val : U32} {P : U32 → Prop} (h : LikePut val P e t e' t') :
    Like (fun _ => True) e t e' t' := h.1.mono fun _ _ => trivial

theorem putByte_like (x : U32) (v : U8) (data : Bool) (size size' : Size) (s : Machine) :
    Agrees (Like fun _ => True) (mmuPutByte c super x v data size)
      (mmuPutByte c super x v data size') s :=
  (putByte_agrees ..).mono fun _ _ _ _ => LikePut.like

theorem putWord_whole (c : Config) (super : Bool) (addr : U32) (val : U16) (s : Machine) :
    Agrees (Report addr (some (val.setWidth 32))) (putWord c super addr val)
      (putBytes₂ c super addr val) s := by
  unfold putWord putBytes₂
  split_ifs with h
  · unfold mmuPutWordUnaligned putTwo
    refine .onThrow (E := Like fun _ => True) ?_ fun _ _ _ _ => Like.report_misalignedPut _
    refine .bind (putByte_like ..) fun _ t => ?_
    exact putByte_like ..
  · have hpage : SamePage 12 addr (addr + 1) :=
      samePage_of_aligned (k := 1) (by decide) rfl (Bool.not_eq_true _ ▸ h) (by decide)
    exact (putWord_agrees hpage ..).mono fun _ _ _ _ => LikePut.report

theorem setWidth_ushiftRight_setWidth {w n m : ℕ} (h : k + m ≤ n) (x : BitVec w) :
    (x.setWidth n >>> k).setWidth m = (x >>> k).setWidth m := by
  apply eq_of_getLsbD_eq
  intro i hi
  simp [hi, show k + i < n by omega]

theorem putFour_eq (x l : U32) (data : Bool) (size : Size) : putFour c super x l data size = (do
      putTwo c super x ((l >>> 16).setWidth 16) data size
      putTwo c super (x + 2) (l.setWidth 16) data size) := by
  have hx : x + 2 + 1 = x + 3 := by rw [BitVec.add_assoc]; rfl
  have h0 : ((l >>> 16).setWidth 16 >>> 8).setWidth 8 = (l >>> 24).setWidth 8 :=
    (setWidth_ushiftRight_setWidth (by decide) _).trans (congrArg _ (shiftRight_add l 16 8).symm)
  have h1 : ((l >>> 16).setWidth 16).setWidth 8 = (l >>> 16).setWidth 8 :=
    setWidth_setWidth_of_le _ (by decide)
  have h2 : (l.setWidth 16 >>> 8).setWidth 8 = (l >>> 8).setWidth 8 :=
    setWidth_ushiftRight_setWidth (by decide) l
  have h3 : (l.setWidth 16).setWidth 8 = l.setWidth 8 := setWidth_setWidth_of_le _ (by decide)
  unfold putFour putTwo
  simp only [bind_assoc, hx, h0, h1, h2, h3]

theorem putLong_whole (c : Config) (super : Bool) (addr val : U32) (s : Machine) :
    Agrees (Report addr (some val)) (putLong c super addr val) (putBytes₄ c super addr val) s := by
  unfold putLong putBytes₄
  split_ifs with h
  · unfold mmuPutLongUnaligned
    refine .onThrow (E := Like fun _ => True) ?_ fun _ _ _ _ => Like.report_misalignedPut _
    split_ifs with heven
    · rw [putFour_eq]
      refine .bind
        ((putWord_agrees (samePage_of_even heven) ..).mono fun _ _ _ _ => LikePut.like) fun _ t =>
        ?_
      exact (putWord_agrees (samePage_of_even (even_add_two heven)) ..).mono
        fun _ _ _ _ => LikePut.like
    · unfold putFour
      refine .bind (putByte_like ..) fun _ t => ?_
      refine .bind (putByte_like ..) fun _ t => ?_
      refine .bind (putByte_like ..) fun _ t => ?_
      exact putByte_like ..
  · have hpage : ∀ i : U32, i.toNat < 4 → SamePage 12 addr (addr + i) := fun i hi =>
      samePage_of_aligned (k := 2) (by decide) rfl (Bool.not_eq_true _ ▸ h) hi
    exact (putLong_agrees (hpage 1 (by decide)) (hpage 2 (by decide)) (hpage 3 (by decide)) ..).mono
      fun _ _ _ _ => LikePut.report

/-! ## The first byte -/

/-- The access is made. -/
def Passes {α : Type} (x : MachineM α) (s : Machine) : Prop := ∃ a t, x s = .ok a t

/-- A bus error of an access byte by byte is one of a later byte exactly if the first one passes. -/
theorem later_iff_passes {α β : Type} {first : MachineM α} {rest : α → MachineM β}
    (hfirst : Agrees (Like (· = addr)) first first s)
    (hrest : ∀ a t, Agrees (Like (· ≠ addr)) (rest a) (rest a) t)
    (h : (first >>= rest) s = .error .busError t') :
    t'.fault.mmuFaultAddr ≠ addr ↔ Passes first s := by
  rcases hfirst with ⟨a, t, hx, -⟩ | ⟨e, t, e', u, hx, hy, hl⟩
  · refine iff_of_true ?_ ⟨a, t, hx⟩
    rw [bind_of_ok _ hx] at h
    rcases hrest a t with ⟨b, u, hr, -⟩ | ⟨e, u, e', u', hr, hr', hl⟩
    · rw [h] at hr
      cases hr
    · obtain ⟨rfl, rfl⟩ : Stop.busError = e' ∧ t' = u' := by
        rw [h] at hr'
        injection hr' with he ht
        exact ⟨he, ht⟩
      exact (hl.fault hl.stop).2.1
  · refine iff_of_false ?_ ?_
    · rw [bind_of_error _ hy] at h
      obtain ⟨rfl, rfl⟩ : e' = Stop.busError ∧ u = t' := by
        injection h with he ht
        exact ⟨he, ht⟩
      exact not_not.2 (hl.fault hl.stop).2.1
    · rintro ⟨a, v, hv⟩
      rw [hv] at hx
      cases hx

/-- An access that ends early as its bytes do, and reports a bus error for its first byte, with `MA`
    exactly if that byte passes, and with the operand of a write. -/
structure Whole (addr : U32) (val : Option U32) (passes : Prop) (e : Stop) (t : Machine) (e' : Stop)
    (t' : Machine) : Prop where
  stop : e = e'
  ram : t.SameRam t'
  faultAddr : e = .busError → t.fault.mmuFaultAddr = addr
  ma : e = .busError → (t.ma = true ↔ passes)
  wb3Data : e = .busError → ∀ v ∈ val, t.wb3Data = v

theorem whole_of_report {α β : Type} {x : MachineM β} {first : MachineM α}
    {rest : α → MachineM β} (h : Agrees (Report addr val) x (first >>= rest) s)
    (hfirst : Agrees (Like (· = addr)) first first s)
    (hrest : ∀ a t, Agrees (Like (· ≠ addr)) (rest a) (rest a) t) :
    Agrees (Whole addr val (Passes first s)) x (first >>= rest) s := by
  rcases h with h | ⟨e, t, e', t', hx, hy, hr⟩
  · exact .inl h
  · refine .inr ⟨e, t, e', t', hx, hy, hr.stop, hr.ram, hr.faultAddr, fun he => ?_, hr.wb3Data⟩
    obtain rfl : e' = .busError := hr.stop.symm.trans he
    rw [hr.ma he, later_iff_passes hfirst hrest hy]

theorem getByte_later {k : U32} (hk : k ≠ 0) (s : Machine) :
    Agrees (Like (· ≠ addr)) (getByte c super (addr + k)) (getByte c super (addr + k)) s :=
  (getByte_agrees ..).mono fun _ _ _ _ => .mono fun _ hx => hx ▸ ne_add addr hk

theorem putByte_later {k : U32} {v : U8} (hk : k ≠ 0) (s : Machine) :
    Agrees (Like (· ≠ addr)) (putByte c super (addr + k) v) (putByte c super (addr + k) v) s :=
  (putByte_agrees ..).mono fun _ _ _ _ h => h.1.mono fun _ hx => hx ▸ ne_add addr hk

/-- **Accesses that cross a page** are those of their bytes.  `get_word` and `get_long` return the
    bytes that `get_byte` returns at the successive addresses, `put_word` and `put_long` store what
    `put_byte` stores there, and they end in a bus error exactly if one of the bytes does.  It is
    reported for the first byte, with `MA` exactly if that byte passes, and for a write with the
    whole operand. -/
theorem crossing_accesses (c : Config) (super : Bool) (addr : U32) (s : Machine) :
    Agrees (Whole addr none (Passes (getByte c super addr) s)) (getWord c super addr)
      (getBytes₂ c super addr) s ∧
    Agrees (Whole addr none (Passes (getByte c super addr) s)) (getLong c super addr)
      (getBytes₄ c super addr) s ∧
    (∀ val : U16,
      Agrees (Whole addr (some (val.setWidth 32))
        (Passes (putByte c super addr ((val >>> 8).setWidth 8)) s))
        (putWord c super addr val) (putBytes₂ c super addr val) s) ∧
    ∀ val : U32,
      Agrees (Whole addr (some val) (Passes (putByte c super addr ((val >>> 24).setWidth 8)) s))
        (putLong c super addr val) (putBytes₄ c super addr val) s := by
  have hput : ∀ v, Agrees (Like (· = addr)) (putByte c super addr v) (putByte c super addr v) s :=
    fun v => (putByte_agrees ..).mono fun _ _ _ _ h => h.1
  refine ⟨?_, ?_, fun val => ?_, fun val => ?_⟩
  · refine whole_of_report (getWord_whole c super addr s) (getByte_agrees ..) fun b₀ t => ?_
    exact .bind (getByte_later (by decide) t) fun _ _ => .pure ..
  · refine whole_of_report (getLong_whole c super addr s) (getByte_agrees ..) fun b₀ t => ?_
    refine .bind (getByte_later (by decide) t) fun b₁ t => ?_
    refine .bind (getByte_later (by decide) t) fun b₂ t => ?_
    exact .bind (getByte_later (by decide) t) fun _ _ => .pure ..
  · exact whole_of_report (putWord_whole c super addr val s) (hput _) fun _ t =>
      putByte_later (by decide) t
  · refine whole_of_report (putLong_whole c super addr val s) (hput _) fun _ t => ?_
    refine .bind (putByte_later (by decide) t) fun _ t => ?_
    exact .bind (putByte_later (by decide) t) fun _ t => putByte_later (by decide) t

end Aranym.Mmu
