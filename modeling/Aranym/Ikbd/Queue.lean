/-
  The input ring of the keyboard controller as a queue of bytes.

  `unread` is the list of bytes between the read and the write index.
-/
import Aranym.Ikbd.Model
import Aranym.Lib.Buffers

namespace Aranym.Ikbd

open Lib Nat

variable {k : Ikbd}

/-- The bytes from `inread` to `inwrite`. -/
def unread (k : Ikbd) : List U8 :=
  cells inbufferlen k.inbuffer k.inread (used inbufferlen k.inread k.inwrite)

/-- The indices are inside the ring. -/
structure InRing (k : Ikbd) : Prop where
  inread : k.inread < inbufferlen
  inwrite : k.inwrite < inbufferlen

theorem mod_inbufferlen_lt (n : ℕ) : n % inbufferlen < inbufferlen := mod_lt n (by decide)

/-- The ring, its indices and the packet type are the same. -/
structure SameRing (k k' : Ikbd) : Prop where
  inbuffer : k'.inbuffer = k.inbuffer
  inread : k'.inread = k.inread
  inwrite : k'.inwrite = k.inwrite
  intype : k'.intype = k.intype

theorem SameRing.unread {k' : Ikbd} (h : SameRing k k') : k'.unread = k.unread := by
  unfold Ikbd.unread; rw [h.inbuffer, h.inread, h.inwrite]

theorem SameRing.inRing {k' : Ikbd} (h : SameRing k k') (hr : InRing k) : InRing k' :=
  ⟨h.inread ▸ hr.inread, h.inwrite ▸ hr.inwrite⟩

theorem sameRing_signalByte : SameRing k k.signalByte := by
  unfold signalByte throwInterrupt
  split_ifs <;> exact ⟨rfl, rfl, rfl, rfl⟩

theorem sameRing_afterRead : SameRing k k.afterRead ∧ k.afterRead.rxdr = k.rxdr := by
  unfold afterRead signalByte throwInterrupt
  split_ifs <;> exact ⟨⟨rfl, rfl, rfl, rfl⟩, rfl⟩

theorem length_unread : k.unread.length = used inbufferlen k.inread k.inwrite := length_cells _ _

theorem length_unread_lt : k.unread.length < inbufferlen := by
  rw [length_unread]; exact used_lt (by decide)

variable (hr : InRing k)
include hr

theorem unread_eq_nil_iff : k.unread = [] ↔ k.inread = k.inwrite := by
  rw [← List.length_eq_zero_iff, length_unread]
  constructor
  · intro h
    have := add_used hr.inread hr.inwrite
    rwa [h, Nat.add_zero, mod_eq_of_lt hr.inread] at this
  · intro h
    have := used_eq (n := 0) hr.inread (by decide)
    rw [Nat.add_zero, mod_eq_of_lt hr.inread] at this
    rw [← h]; exact this

theorem inbuffer_inread {b : U8} {rest : List U8}
    (hu : k.unread = b :: rest) : k.inbuffer k.inread = b := by
  unfold Ikbd.unread at hu
  cases hn : used inbufferlen k.inread k.inwrite with
  | zero => rw [hn] at hu; cases hu
  | succ n =>
    rw [hn] at hu
    simp only [cells, List.cons.injEq, mod_eq_of_lt hr.inread] at hu
    exact hu.1

/-! ## Reading -/

omit hr in
theorem packetLength_pos (b : U8) : 1 ≤ packetLength b := by
  unfold packetLength; split <;> omega

omit hr in
theorem packetLength_le (b : U8) : packetLength b ≤ 8 := by
  unfold packetLength; split <;> omega

theorem unread_advance {n : ℕ} (hn : n ≤ k.unread.length) :
    { k with inread := (k.inread + n) % inbufferlen }.unread = k.unread.drop n := by
  rw [length_unread] at hn
  have hlt := used_lt (N := inbufferlen) (r := k.inread) (w := k.inwrite) (by decide)
  have hu : used inbufferlen ((k.inread + n) % inbufferlen) k.inwrite =
      used inbufferlen k.inread k.inwrite - n := by
    have hw := add_used hr.inread hr.inwrite
    have h := used_eq (N := inbufferlen) (r := (k.inread + n) % inbufferlen)
      (n := used inbufferlen k.inread k.inwrite - n) (mod_inbufferlen_lt _) (by omega)
    rwa [mod_add_mod, show k.inread + n + (used inbufferlen k.inread k.inwrite - n) =
      k.inread + used inbufferlen k.inread k.inwrite by omega, hw] at h
  unfold Ikbd.unread
  rw [← cells_drop hn]
  rw [hu]

/-- What `ReadData` does: nothing, or the first unread byte is taken. -/
theorem readData_cases : (k.unread = [] ∧ k.readData = (k.rxdr, k)) ∨
    ∃ b rest k', k.unread = b :: rest ∧ k.readData = (b, k') ∧ k'.unread = rest ∧ InRing k' ∧
      k'.intype = k.intype := by
  by_cases h : k.inread = k.inwrite
  · exact .inl ⟨(unread_eq_nil_iff hr).2 h, by simp [readData, h]⟩
  · obtain ⟨b, rest, hu⟩ := List.exists_cons_of_ne_nil (mt (unread_eq_nil_iff hr).1 h)
    have hb := inbuffer_inread hr hu
    have hadv := unread_advance hr (n := 1) (by rw [hu]; simp)
    rw [hu] at hadv
    obtain ⟨hsame, hrx⟩ := sameRing_afterRead
      (k := { k with rxdr := k.inbuffer k.inread, inread := (k.inread + 1) % inbufferlen })
    refine .inr ⟨b, rest, _, hu, ?_, hsame.unread.trans hadv,
      hsame.inRing ⟨mod_inbufferlen_lt _, hr.inwrite⟩, hsame.intype⟩
    rw [readData, if_pos h]
    exact Prod.ext (hrx.trans hb) rfl

/-! ## Sending -/

variable (v : U8)

theorem inRing_putByte : InRing (k.putByte v) :=
  ⟨hr.inread, mod_inbufferlen_lt _⟩

theorem cells_putByte :
    cells inbufferlen (k.putByte v).inbuffer k.inread (k.unread.length + 1) = k.unread ++ [v] := by
  have h : cells inbufferlen (Function.update k.inbuffer
      ((k.inread + used inbufferlen k.inread k.inwrite) % inbufferlen) v) k.inread
      (used inbufferlen k.inread k.inwrite + 1) = k.unread ++ [v] :=
    cells_push (used_lt (by decide)) v
  rw [add_used hr.inread hr.inwrite] at h
  rw [length_unread]; exact h

theorem inwrite_putByte :
    (k.putByte v).inwrite = (k.inread + (k.unread.length + 1)) % inbufferlen := by
  show (k.inwrite + 1) % inbufferlen = _
  rw [length_unread, ← Nat.add_assoc, ← mod_add_mod (k.inread + _), add_used hr.inread hr.inwrite]

theorem unread_putByte (hl : k.unread.length + 1 < inbufferlen) :
    (k.putByte v).unread = k.unread ++ [v] := by
  rw [← cells_putByte hr v]
  unfold Ikbd.unread
  rw [inwrite_putByte hr v]
  show cells _ _ _ (used inbufferlen k.inread _) = _
  rw [used_eq hr.inread hl]; rfl

theorem inwrite_putByte_full (hl : k.unread.length + 1 = inbufferlen) :
    (k.putByte v).inwrite = k.inread := by
  rw [inwrite_putByte hr v, hl, add_mod_right, mod_eq_of_lt hr.inread]

theorem inwrite_putByte_ne (hl : k.unread.length + 1 < inbufferlen) :
    (k.putByte v).inread ≠ (k.putByte v).inwrite := by
  intro h
  have := (unread_eq_nil_iff (inRing_putByte hr v)).2 h
  rw [unread_putByte hr v hl] at this; simp at this

theorem unread_dropPacket (hl : k.unread.length + 1 = inbufferlen)
    {b : U8} {rest : List U8} (hu : k.unread ++ [v] = b :: rest) :
    (k.putByte v).dropPacket.unread = (k.unread ++ [v]).drop (packetLength b) := by
  have hb : (k.putByte v).inbuffer k.inread = b := by
    have h := cells_putByte hr v
    rw [hu] at h
    simp only [cells, List.cons.injEq, mod_eq_of_lt hr.inread] at h
    exact h.1
  have hle := packetLength_le b
  have hpos := packetLength_pos b
  have hN : inbufferlen = 8192 := rfl
  have hused : used inbufferlen ((k.inread + packetLength b) % inbufferlen) k.inread =
      inbufferlen - packetLength b := by
    have h := used_eq (N := inbufferlen) (r := (k.inread + packetLength b) % inbufferlen)
      (n := inbufferlen - packetLength b) (mod_inbufferlen_lt _) (by omega)
    rwa [mod_add_mod, show k.inread + packetLength b + (inbufferlen - packetLength b) =
      k.inread + inbufferlen by omega, add_mod_right, mod_eq_of_lt hr.inread] at h
  rw [← cells_putByte hr v, hl, ← cells_drop (by omega)]
  show cells _ _ ((k.inread + packetLength ((k.putByte v).inbuffer k.inread)) % inbufferlen)
    (used inbufferlen ((k.inread + packetLength ((k.putByte v).inbuffer k.inread)) % inbufferlen)
      (k.putByte v).inwrite) = _
  rw [hb, inwrite_putByte_full hr v hl, hused]; rfl

theorem send_cases : InRing (k.send v) ∧ (k.send v).intype = k.intype ∧
    (k.unread.length + 1 < inbufferlen ∧ (k.send v).unread = k.unread ++ [v] ∨
      k.unread.length + 1 = inbufferlen ∧ ∃ b rest, k.unread ++ [v] = b :: rest ∧
        (k.send v).unread = (k.unread ++ [v]).drop (packetLength b)) := by
  have hlt := length_unread_lt (k := k)
  by_cases hl : k.unread.length + 1 < inbufferlen
  · have hs := sameRing_signalByte (k := k.putByte v)
    rw [send, if_neg (inwrite_putByte_ne hr v hl)]
    exact ⟨hs.inRing (inRing_putByte hr v), hs.intype,
      .inl ⟨hl, hs.unread.trans (unread_putByte hr v hl)⟩⟩
  · have hfull : k.unread.length + 1 = inbufferlen := by omega
    have hs := sameRing_signalByte (k := (k.putByte v).dropPacket)
    have hmeet : (k.putByte v).inread = (k.putByte v).inwrite :=
      (inwrite_putByte_full hr v hfull).symm
    obtain ⟨b, rest, hu⟩ := List.exists_cons_of_ne_nil (l := k.unread ++ [v]) (by simp)
    rw [send, if_pos hmeet]
    exact ⟨hs.inRing ⟨mod_inbufferlen_lt _, (inRing_putByte hr v).inwrite⟩, hs.intype,
      .inr ⟨hfull, b, rest, hu, hs.unread.trans (unread_dropPacket hr v hfull hu)⟩⟩

/-! ## Taking a mouse packet back -/

theorem mouseInwrite_eq : ((k.inwrite + inbufferlen - 3) % inbufferlen) =
      (k.inread + (k.unread.length + (inbufferlen - 3))) % inbufferlen := by
  have hN : inbufferlen = 8192 := rfl
  rw [length_unread, ← Nat.add_assoc, ← mod_add_mod (k.inread + _), add_used hr.inread hr.inwrite,
    Nat.add_sub_assoc (by omega)]

theorem unread_last_three (hl : 3 ≤ k.unread.length) :
    k.unread = { k with inwrite := (k.inwrite + inbufferlen - 3) % inbufferlen }.unread ++
      [k.inbuffer ((k.inwrite + inbufferlen - 3) % inbufferlen),
        k.inbuffer ((((k.inwrite + inbufferlen - 3) % inbufferlen) + 1) % inbufferlen),
        k.inbuffer ((((k.inwrite + inbufferlen - 3) % inbufferlen) + 2) % inbufferlen)] := by
  have hlt := length_unread_lt (k := k)
  have hmi : ((k.inwrite + inbufferlen - 3) % inbufferlen) =
      (k.inread + (k.unread.length - 3)) % inbufferlen := by
    rw [mouseInwrite_eq hr, show k.inread + (k.unread.length + (inbufferlen - 3)) =
      k.inread + (k.unread.length - 3) + inbufferlen by omega, add_mod_right]
  rw [hmi]
  have hu : { k with inwrite := (k.inread + (k.unread.length - 3)) % inbufferlen }.unread =
      cells inbufferlen k.inbuffer k.inread (k.unread.length - 3) := by
    show cells _ _ _ (used inbufferlen k.inread _) = _
    rw [used_eq hr.inread (by omega)]
  have happ : cells inbufferlen k.inbuffer k.inread (k.unread.length - 3 + 3) = _ :=
    cells_append k.inread (k.unread.length - 3) 3
  rw [show k.unread.length - 3 + 3 = k.unread.length by omega] at happ
  rw [hu]
  conv_lhs => rw [Ikbd.unread, ← length_unread, happ]
  simp only [cells, mod_add_mod]

theorem inread_of_short {j : ℕ} (hj : k.unread.length + j = 3) :
    k.inread = (((k.inwrite + inbufferlen - 3) % inbufferlen) + j) % inbufferlen := by
  have hN : inbufferlen = 8192 := rfl
  rw [mouseInwrite_eq hr, mod_add_mod, show k.inread + (k.unread.length + (inbufferlen - 3)) + j =
    k.inread + inbufferlen by omega, add_mod_right, mod_eq_of_lt hr.inread]

/-- A packet that is neither read nor being read has a byte before it. -/
theorem four_le_unread (hempty : ¬ k.inread = k.inwrite)
    (hcur : ¬ (k.inread = ((k.inwrite + inbufferlen - 3) % inbufferlen) ∨
      k.inread = (((k.inwrite + inbufferlen - 3) % inbufferlen) + 1) % inbufferlen ∨
      k.inread = (((k.inwrite + inbufferlen - 3) % inbufferlen) + 2) % inbufferlen)) :
    4 ≤ k.unread.length := by
  by_contra hlt
  have h0 : k.unread.length ≠ 0 := fun h =>
    hempty ((unread_eq_nil_iff hr).1 (List.length_eq_zero_iff.1 h))
  apply hcur
  rcases (by omega : k.unread.length = 3 ∨ k.unread.length = 2 ∨ k.unread.length = 1) with h | h | h
  · exact .inl (by simpa using inread_of_short hr (j := 0) (by omega))
  · exact .inr (.inl (inread_of_short hr (by omega)))
  · exact .inr (.inr (inread_of_short hr (by omega)))

/-- **What `MergeMousePacket` does**: nothing, or the mouse packet at the end of the unread bytes,
    which is not the first of them, is taken back. -/
theorem mergeMousePacket_cases (relx rely : ℤ) (buttons : U32) :
    k.mergeMousePacket relx rely buttons = (k, relx, rely) ∨
    ∃ u x y k', k.intype = .mouse ∧ u ≠ [] ∧ k.unread = u ++ [mouseHeader buttons, x, y] ∧
      k'.unread = u ∧ InRing k' ∧ k'.inwrite ≠ k.inwrite ∧
      k.mergeMousePacket relx rely buttons = (k', relx + x.toNat, rely + y.toNat) := by
  rw [mergeMousePacket]
  -- the seven tests that leave the packet as it is
  by_cases hty : k.intype ≠ .mouse
  · rw [if_pos hty]; exact .inl rfl
  rw [if_neg hty]
  by_cases hempty : k.inread = k.inwrite
  · rw [if_pos hempty]; exact .inl rfl
  rw [if_neg hempty]
  dsimp only
  split
  · exact .inl rfl
  rename_i hcur
  split
  · exact .inl rfl
  split
  · exact .inl rfl
  rename_i hbut
  split
  · exact .inl rfl
  split
  · exact .inl rfl
  have hlen := four_le_unread hr hempty hcur
  have h3 := unread_last_three hr (by omega)
  rw [not_not.1 hbut] at h3
  refine .inr ⟨_, _, _, _, not_not.1 hty, ?_, h3, rfl, ⟨hr.inread, mod_inbufferlen_lt _⟩, ?_, rfl⟩
  · intro hnil
    rw [hnil] at h3
    rw [h3] at hlen; simp at hlen
  · intro (hw : ((k.inwrite + inbufferlen - 3) % inbufferlen) = k.inwrite)
    rw [hw] at h3
    exact absurd (congrArg List.length h3) (by simp)

end Aranym.Ikbd
