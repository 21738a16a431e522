/-
  What the reader adds up of the mouse's motion.

  The packets of a motion are split, and the last one may be taken back to be merged
  with the next.  `MergeMousePacket` adds the stored bytes to the motion before the
  sign of the y axis is applied a second time.
-/
import Aranym.Ikbd.Framing
import Mathlib.Algebra.BigOperators.Group.List.Basic
import Mathlib.Algebra.Group.Prod

namespace Aranym.Ikbd

open Lib List

/-! ## Merging -/

/-- `mouse_inwrite`: where the last packet starts. -/
def mouseInwrite (k : Ikbd) : ℕ := (k.inwrite + inbufferlen - 3) % inbufferlen

/-- The x byte of the last packet. -/
def lastX (k : Ikbd) : U8 := k.inbuffer ((k.mouseInwrite + 1) % inbufferlen)

/-- The y byte of the last packet. -/
def lastY (k : Ikbd) : U8 := k.inbuffer ((k.mouseInwrite + 2) % inbufferlen)

/-- The tests of `MergeMousePacket` all pass. -/
def Merges (k : Ikbd) (relx rely : ℤ) (buttons : U32) : Prop :=
  k.intype = .mouse ∧ k.inread ≠ k.inwrite ∧
  ¬ (k.inread = k.mouseInwrite ∨ k.inread = (k.mouseInwrite + 1) % inbufferlen ∨
    k.inread = (k.mouseInwrite + 2) % inbufferlen) ∧
  k.inbuffer k.mouseInwrite = mouseHeader buttons ∧
  |relx + k.lastX.toNat| ≤ mouseDeltaMax ∧ |rely + k.lastY.toNat| ≤ mouseDeltaMax
deriving Decidable

variable {k : Ikbd} {relx rely : ℤ} {buttons : U32}

theorem mergeMousePacket_of_merges (h : k.Merges relx rely buttons) :
    k.mergeMousePacket relx rely buttons =
      ({ k with inwrite := k.mouseInwrite }, relx + k.lastX.toNat, rely + k.lastY.toNat) := by
  obtain ⟨hty, hne, hcur, hhead, hx, hy⟩ := h
  have hrange : ¬ (k.inbuffer k.mouseInwrite ≤ 0xf8 ∧ k.inbuffer k.mouseInwrite ≥ 0xfb) := by
    rintro ⟨h1, h2⟩
    exact absurd (BitVec.le_trans h2 h1) (by decide)
  rw [mergeMousePacket, if_neg (not_not.2 hty), if_neg hne]
  refine (if_neg hcur).trans ((if_neg hrange).trans ((if_neg (not_not.2 hhead)).trans ?_))
  exact (if_neg (not_lt.2 hx)).trans (if_neg (not_lt.2 hy))

theorem mergeMousePacket_of_not_merges (h : ¬ k.Merges relx rely buttons) :
    k.mergeMousePacket relx rely buttons = (k, relx, rely) := by
  rw [mergeMousePacket]
  by_cases hty : k.intype = .mouse
  · rw [if_neg (not_not.2 hty)]
    dsimp only
    split
    · rfl
    rename_i hne
    split
    · rfl
    rename_i hcur
    split
    · rfl
    split
    · rfl
    rename_i hhead
    split
    · rfl
    rename_i hx
    split
    · rfl
    rename_i hy
    exact absurd ⟨hty, hne, hcur, not_not.1 hhead, not_lt.1 hx, not_lt.1 hy⟩ h
  · rw [if_pos hty]

theorem mouseInwrite_ne (hr : InRing k) : k.mouseInwrite ≠ k.inwrite := by
  have hN : inbufferlen = 8192 := rfl
  have hw := hr.inwrite
  rw [mouseInwrite, hN]; omega

theorem Merges.unread (hr : InRing k) (h : k.Merges relx rely buttons) :
    k.unread = { k with inwrite := k.mouseInwrite }.unread ++ [mouseHeader buttons, k.lastX,
      k.lastY] := by
  obtain ⟨-, hne, hcur, hhead, -, -⟩ := h
  have hlen := four_le_unread hr hne hcur
  have h3 := unread_last_three hr (by omega)
  rw [← hhead]; exact h3

/-! ## Settings -/

/-- The settings of the mouse are the same. -/
structure SameMouse (k k' : Ikbd) : Prop where
  enabled : k'.mouseEnabled = k.mouseEnabled
  yaxis : k'.yaxisReversed = k.yaxisReversed

theorem sameMouse_signalByte : SameMouse k k.signalByte := by
  unfold signalByte throwInterrupt
  split_ifs <;> exact ⟨rfl, rfl⟩

theorem sameMouse_send (v : U8) : SameMouse k (k.send v) := by
  obtain ⟨he, hy⟩ := sameMouse_signalByte
    (k := if (k.putByte v).inread =
      (k.putByte v).inwrite then (k.putByte v).dropPacket else k.putByte v)
  refine ⟨he.trans ?_, hy.trans ?_⟩ <;> split_ifs <;> rfl

theorem sameMouse_readData : SameMouse k k.readData.2 := by
  unfold readData
  split_ifs
  · show SameMouse k (afterRead _)
    unfold afterRead
    split_ifs
    · exact ⟨rfl, rfl⟩
    · obtain ⟨he, hy⟩ := sameMouse_signalByte
        (k := { k with rxdr := k.inbuffer k.inread, inread := (k.inread + 1) % inbufferlen })
      exact ⟨he, hy⟩
  · exact ⟨rfl, rfl⟩

/-! ## Signed bytes -/

theorem abs_moveBy_le (slow : Bool) (rel : ℤ) : |moveBy slow rel| ≤ mouseDeltaMax := by
  unfold moveBy mouseDeltaMax
  rw [abs_le]
  rcases abs_cases rel with ⟨h, hs⟩ | ⟨h, hs⟩ <;> rw [h] <;> split_ifs <;> omega

theorem toInt_ofInt {v : ℤ} (h : |v| ≤ mouseDeltaMax) : (BitVec.ofInt 8 v).toInt = v := by
  rw [mouseDeltaMax, abs_le] at h
  rw [BitVec.toInt_ofInt]
  exact Int.bmod_eq_of_le (by omega) (by omega)

theorem toInt_of_merged {v : ℤ} {b : U8} (hv : |v| ≤ mouseDeltaMax)
    (hb : |b.toInt| ≤ mouseDeltaMax) (h : |v + b.toNat| ≤ mouseDeltaMax) : b.toInt = b.toNat := by
  rw [mouseDeltaMax, abs_le] at hv hb h
  have := BitVec.toInt_eq_toNat_cond b
  split_ifs at this with hc <;> omega

/-! ## Sums -/

/-- The motion in a stream of mouse packets. -/
def deltas : List U8 → ℤ × ℤ
  | _ :: x :: y :: rest => (x.toInt, y.toInt) + deltas rest
  | _ => 0

theorem deltas_packet (h x y : U8) : deltas [h, x, y] = (x.toInt, y.toInt) := add_zero _

/-- A mouse packet of a motion within the bounds of a byte. -/
def IsMotion (p : List U8) : Prop :=
  ∃ h x y, p = [h, x, y] ∧ |x.toInt| ≤ mouseDeltaMax ∧ |y.toInt| ≤ mouseDeltaMax

theorem deltas_flatten : ∀ {ps : List (List U8)}, (∀ p ∈ ps, IsMotion p) →
    deltas ps.flatten = (ps.map deltas).sum
  | [], _ => rfl
  | p :: ps, hp => by
    obtain ⟨h, x, y, rfl, -⟩ := hp p mem_cons_self
    have ih := deltas_flatten fun q hq => hp q (mem_cons_of_mem _ hq)
    rw [map_cons, sum_cons, ← ih, deltas_packet]; rfl

/-- A motion as the packets show it, with the y origin at the bottom or not. -/
def oriented (reversed : Bool) (v : ℤ × ℤ) : ℤ × ℤ := (v.1, if reversed then -v.2 else v.2)

theorem oriented_add (r : Bool) (v w : ℤ × ℤ) :
    oriented r (v + w) = oriented r v + oriented r w := by
  cases r
  · rfl
  · exact Prod.ext rfl (neg_add v.2 w.2)

theorem oriented_zero (r : Bool) : oriented r 0 = 0 := by
  cases r
  · rfl
  · exact Prod.ext rfl neg_zero

namespace Line

/-- The motions that a run asks for. -/
def asked : List Op → ℤ × ℤ
  | [] => 0
  | .mouse mo :: ops => (mo.relx, mo.rely) + asked ops
  | _ :: ops => asked ops

/-- What a call in progress has not sent yet. -/
def pending (L : Line) : ℤ × ℤ :=
  match L.motion with
  | some mo => (mo.relx, mo.rely)
  | none => 0

/-- The packets account for the motions asked for, except for `lost` twice. -/
structure Moved (reversed : Bool) (all : ℤ × ℤ) (lost : ℤ) (L : Line) : Prop where
  ring : InRing L.ikbd
  enabled : L.ikbd.mouseEnabled = true
  yaxis : L.ikbd.yaxisReversed = reversed
  packets : ∀ p ∈ L.sent, IsMotion p
  stream : L.delivered ++ L.ikbd.unread ++ L.left = L.sent.flatten
  sum : (L.sent.map deltas).sum + oriented reversed L.pending + (0, 2 * lost) =
    oriented reversed all

variable {reversed : Bool} {all : ℤ × ℤ} {lost : ℤ} {L : Line}

theorem moved_read (h : Moved reversed all lost L) : Moved reversed all lost L.read := by
  rcases read_cases h.ring with he | ⟨b, hu, hr', -, he⟩
  · rw [he]; exact h
  · have hm := sameMouse_readData (k := L.ikbd)
    rw [he]
    refine ⟨hr', hm.enabled.trans h.enabled, hm.yaxis.trans h.yaxis, h.packets, ?_, h.sum⟩
    rw [← h.stream, hu]; simp

theorem moved_send (h : Moved reversed all lost L) {b : U8} {rest : List U8}
    (hl : L.left = b :: rest) (hroom : L.ikbd.unread.length + 1 < inbufferlen) :
    Moved reversed all lost { L with ikbd := L.ikbd.send b, left := rest } := by
  obtain ⟨hring, -, ⟨-, hu⟩ | ⟨hfull, -⟩⟩ := send_cases h.ring b
  · have hm := sameMouse_send (k := L.ikbd) b
    refine ⟨hring, hm.enabled.trans h.enabled, hm.yaxis.trans h.yaxis, h.packets, ?_, h.sum⟩
    rw [hu, ← h.stream, hl]; simp
  · omega

theorem pending_nextPacket (mo : Motion) : (L.nextPacket mo).pending =
    (mo.relx - moveBy mo.slow mo.relx, mo.rely - moveBy mo.slow mo.rely) := by
  have hmotion : (L.nextPacket mo).motion =
      if mo.relx - moveBy mo.slow mo.relx ≠ 0 ∨ mo.rely - moveBy mo.slow mo.rely ≠ 0 then
        some { mo with relx := mo.relx - moveBy mo.slow mo.relx
                       rely := mo.rely - moveBy mo.slow mo.rely }
      else none := rfl
  rw [pending, hmotion]
  by_cases hz : mo.relx - moveBy mo.slow mo.relx ≠ 0 ∨ mo.rely - moveBy mo.slow mo.rely ≠ 0
  · rw [if_pos hz]
  · rw [if_neg hz]
    rw [not_or, not_not, not_not] at hz
    rw [hz.1, hz.2]; rfl

theorem moved_append {L' : Line} (ss : List (List U8)) (head : U8) (v : ℤ × ℤ)
    (hring : InRing L'.ikbd) (hon : L'.ikbd.mouseEnabled) (hy : L'.ikbd.yaxisReversed = reversed)
    (hss : ∀ p ∈ ss, IsMotion p) (hvx : |v.1| ≤ mouseDeltaMax) (hvy : |v.2| ≤ mouseDeltaMax)
    (hstream : L'.delivered ++ L'.ikbd.unread = ss.flatten)
    (hleft : L'.left = [head, BitVec.ofInt 8 v.1, BitVec.ofInt 8 (if reversed then -v.2 else v.2)])
    (hsent : L'.sent = ss ++ [L'.left])
    (hsum : (ss.map deltas).sum + oriented reversed (v + L'.pending) + (0, 2 * lost) =
      oriented reversed all) : Moved reversed all lost L' := by
  have hvy' : |if reversed then -v.2 else v.2| ≤ mouseDeltaMax := by
    cases reversed
    · exact hvy
    · exact (abs_neg v.2).trans_le hvy
  have hx := toInt_ofInt hvx
  have hy' := toInt_ofInt hvy'
  refine ⟨hring, hon, hy, ?_, ?_, ?_⟩
  · rw [hsent]
    intro p hp
    rcases List.mem_append.1 hp with hp | hp
    · exact hss p hp
    · rw [List.mem_singleton.1 hp]
      exact ⟨_, _, _, hleft, by rw [hx]; exact hvx, by rw [hy']; exact hvy'⟩
  · rw [hsent, hstream]; simp
  · have hd : deltas L'.left = oriented reversed v := by
      rw [hleft, deltas_packet, hx, hy']; rfl
    rw [hsent, map_append, sum_append, map_singleton, sum_singleton, hd, ← hsum,
      oriented_add, add_assoc (ss.map deltas).sum]

variable {mo : Motion}

theorem moved_split (h : Moved reversed all lost L) (hl : L.left = []) (hmo : L.motion = some mo)
    (hn : mo.slow = true ∨
      ¬ L.ikbd.Merges (moveBy mo.slow mo.relx) (moveBy mo.slow mo.rely) mo.buttons) :
    Moved reversed all lost (L.nextPacket mo) := by
  have hk : (if mo.slow then (L.ikbd, moveBy mo.slow mo.relx, moveBy mo.slow mo.rely)
      else L.ikbd.mergeMousePacket (moveBy mo.slow mo.relx) (moveBy mo.slow mo.rely) mo.buttons) =
      (L.ikbd, moveBy mo.slow mo.relx, moveBy mo.slow mo.rely) := by
    rcases hn with hs | hn
    · rw [if_pos hs]
    · split_ifs
      · rfl
      · exact mergeMousePacket_of_not_merges hn
  have hp : L.ikbd.mousePacket mo = ({ L.ikbd with intype := .mouse },
      [mouseHeader mo.buttons, BitVec.ofInt 8 (moveBy mo.slow mo.relx),
        BitVec.ofInt 8 (if reversed then -moveBy mo.slow mo.rely else moveBy mo.slow mo.rely)],
      { mo with relx := mo.relx - moveBy mo.slow mo.relx
                rely := mo.rely - moveBy mo.slow mo.rely }) := by
    rw [mousePacket]; dsimp only
    rw [hk, h.yaxis]
  have hpend := pending_nextPacket (L := L) mo
  have hstream := h.stream
  rw [hl, append_nil] at hstream
  refine moved_append L.sent (mouseHeader mo.buttons)
    (moveBy mo.slow mo.relx, moveBy mo.slow mo.rely) ?_ ?_ ?_ h.packets
    (abs_moveBy_le _ _) (abs_moveBy_le _ _) ?_ ?_ ?_ ?_
  · rw [nextPacket, hp]; exact ⟨h.ring.inread, h.ring.inwrite⟩
  · rw [nextPacket, hp]; exact h.enabled
  · rw [nextPacket, hp]; exact h.yaxis
  · rw [nextPacket, hp]; exact hstream
  · rw [nextPacket, hp]
  · rw [nextPacket, hp]; exact congrArg (· ++ _) (if_pos rfl)
  · rw [hpend, ← h.sum, pending, hmo]
    simp

theorem moved_merge (h : Moved reversed all lost L) (hl : L.left = [])
    (hmo : L.motion = some mo) (hs : mo.slow = false)
    (hm : L.ikbd.Merges (moveBy mo.slow mo.relx) (moveBy mo.slow mo.rely) mo.buttons) :
    Moved reversed all (lost + if reversed then (L.ikbd.lastY.toNat : ℤ) else 0)
      (L.nextPacket mo) := by
  have hp : L.ikbd.mousePacket mo =
      ({ L.ikbd with inwrite := L.ikbd.mouseInwrite, intype := .mouse },
      [mouseHeader mo.buttons, BitVec.ofInt 8 (moveBy mo.slow mo.relx + L.ikbd.lastX.toNat),
        BitVec.ofInt 8 (if reversed then -(moveBy mo.slow mo.rely + L.ikbd.lastY.toNat)
          else moveBy mo.slow mo.rely + L.ikbd.lastY.toNat)],
      { mo with relx := mo.relx - moveBy mo.slow mo.relx
                rely := mo.rely - moveBy mo.slow mo.rely }) := by
    rw [mousePacket]; dsimp only
    rw [if_neg (by rw [hs]; exact Bool.false_ne_true), mergeMousePacket_of_merges hm, h.yaxis]
  have hpend := pending_nextPacket (L := L) mo
  have hstream := h.stream
  rw [hl, append_nil, hm.unread h.ring, ← append_assoc] at hstream
  -- the last packet of the ring is the last one sent
  rcases eq_nil_or_concat L.sent with hnil | ⟨ss, p, hss⟩
  · rw [hnil] at hstream; simp at hstream
  rw [concat_eq_append] at hss
  have hlast : IsMotion p := h.packets p (by rw [hss]; simp)
  obtain ⟨hfirst, rfl⟩ : ss.flatten =
    L.delivered ++ { L.ikbd with inwrite := L.ikbd.mouseInwrite }.unread ∧
      p = [mouseHeader mo.buttons, L.ikbd.lastX, L.ikbd.lastY] := by
    obtain ⟨a, b, c, rfl, -⟩ := hlast
    rw [hss, flatten_append, flatten_singleton] at hstream
    exact append_inj' hstream.symm rfl
  obtain ⟨a, b, c, he, hbx, hby⟩ := hlast
  obtain ⟨-, rfl, rfl⟩ : _ ∧ L.ikbd.lastX = b ∧ L.ikbd.lastY = c := by simpa using he
  obtain ⟨-, -, -, -, hx, hy⟩ := hm
  have hX := toInt_of_merged (abs_moveBy_le _ _) hbx hx
  have hY := toInt_of_merged (abs_moveBy_le _ _) hby hy
  have hsent : (L.nextPacket mo).sent = ss ++ [(L.nextPacket mo).left] := by
    rw [nextPacket, hp]
    dsimp only
    rw [if_neg (mouseInwrite_ne h.ring), hss, dropLast_concat]
  refine moved_append ss (mouseHeader mo.buttons)
    (moveBy mo.slow mo.relx + L.ikbd.lastX.toNat, moveBy mo.slow mo.rely + L.ikbd.lastY.toNat)
    ?_ ?_ ?_ ?_ hx hy ?_ ?_ hsent ?_
  · rw [nextPacket, hp]; exact ⟨h.ring.inread, mod_inbufferlen_lt _⟩
  · rw [nextPacket, hp]; exact h.enabled
  · rw [nextPacket, hp]; exact h.yaxis
  · intro q hq
    exact h.packets q (by rw [hss]; exact mem_append_left _ hq)
  · rw [nextPacket, hp]; exact hfirst.symm
  · rw [nextPacket, hp]
  · have hsum := h.sum
    rw [hss, map_append, sum_append, map_singleton, sum_singleton, deltas_packet, hX, hY,
      pending, hmo] at hsum
    rw [hpend, ← hsum]
    cases reversed <;> ext <;> simp [oriented] <;> omega

/-! ## Runs -/

/-- The steps of the mouse: motions that are not insane, made one after the other, and reads at any
    time; no call of `send` fills the ring. -/
def MouseOnly (L : Line) : Op → Prop
  | .mouse mo => L.Idle ∧ |mo.relx| ≤ 2048 ∧ |mo.rely| ≤ 2048
  | .tick => L.left ≠ [] → L.ikbd.unread.length + 1 < inbufferlen
  | .read => True
  | _ => False

instance (L : Line) : ∀ op, Decidable (L.MouseOnly op)
  | .mouse mo => inferInstanceAs (Decidable (L.Idle ∧ |mo.relx| ≤ 2048 ∧ |mo.rely| ≤ 2048))
  | .tick => inferInstanceAs (Decidable (L.left ≠ [] → L.ikbd.unread.length + 1 < inbufferlen))
  | .read => .isTrue trivial
  | .key _ | .joystickAxis _ _ _ | .joystickHat _ _ | .joystickButton _ _ | .writeData _ _ =>
    .isFalse not_false

/-- No merge takes back a y motion that was stored with its sign changed. -/
def KeepsSign (L : Line) (op : Op) : Prop :=
  op = .tick → L.left = [] → ∀ mo, L.motion = some mo → mo.slow = false →
    L.ikbd.yaxisReversed = true →
    L.ikbd.Merges (moveBy mo.slow mo.relx) (moveBy mo.slow mo.rely) mo.buttons → L.ikbd.lastY = 0

theorem moved_nextPacket (h : Moved reversed all lost L) (hl : L.left = [])
    (hmo : L.motion = some mo) :
    ∃ lost', lost ≤ lost' ∧ Moved reversed all lost' (L.nextPacket mo) ∧
      (lost' = lost ↔ L.KeepsSign .tick) := by
  by_cases hm : mo.slow = false ∧
      L.ikbd.Merges (moveBy mo.slow mo.relx) (moveBy mo.slow mo.rely) mo.buttons
  · refine ⟨_, ?_, moved_merge h hl hmo hm.1 hm.2, ?_⟩
    · split_ifs <;> omega
    · have hzero : (L.ikbd.lastY.toNat : ℤ) = 0 ↔ L.ikbd.lastY = 0 := by
        rw [← BitVec.toNat_inj]; exact Int.natCast_eq_zero
      cases hr : reversed with
      | false =>
        refine iff_of_true (add_zero lost) fun _ _ _ _ _ hy => ?_
        rw [h.yaxis, hr] at hy; cases hy
      | true =>
        rw [if_pos rfl, add_eq_left, hzero]
        refine ⟨fun hz _ _ _ _ _ _ _ => hz, fun hk => ?_⟩
        exact hk rfl hl mo hmo hm.1 (h.yaxis.trans hr) hm.2
  · refine ⟨lost, le_rfl, moved_split h hl hmo ?_, iff_of_true rfl ?_⟩
    · cases hs : mo.slow with
      | true => exact .inl rfl
      | false => exact .inr fun hM => hm ⟨hs, by rw [hs]; exact hM⟩
    · intro _ _ mo' hmo' hs _ hM
      obtain rfl : mo = mo' := Option.some.inj (hmo.symm.trans hmo')
      exact absurd ⟨hs, hM⟩ hm

theorem moved_step (h : Moved reversed all lost L) {op : Op} (ho : L.MouseOnly op) :
    ∃ lost', lost ≤ lost' ∧ Moved reversed (all + asked [op]) lost' (step L op).1 ∧
      (lost' = lost ↔ L.KeepsSign op) := by
  cases op with
  | mouse mo =>
    refine ⟨lost, le_rfl, ?_, iff_of_true rfl fun h => Op.noConfusion h⟩
    have hacc : L.ikbd.acceptsMotion mo = true := by
      simp [acceptsMotion, h.enabled, not_lt.2 ho.2.1, not_lt.2 ho.2.2]
    refine ⟨h.ring, h.enabled, h.yaxis, h.packets, h.stream, ?_⟩
    have hsum := h.sum
    rw [pending, ho.1.2] at hsum
    simp only [step, hacc, if_true, pending]
    rw [oriented_add, ← hsum, oriented_zero]
    simp only [asked, add_zero]
    rw [add_right_comm]
  | read =>
    have hall : all + asked [.read] = all := add_zero all
    rw [hall]
    refine ⟨lost, le_rfl, moved_read h, iff_of_true rfl fun h => ?_⟩
    cases h
  | tick =>
    have hall : all + asked [.tick] = all := add_zero all
    rw [hall]
    show ∃ lost', lost ≤ lost' ∧ Moved reversed all lost' L.tick ∧ _
    cases hl : L.left with
    | cons b rest =>
      refine ⟨lost, le_rfl, ?_, iff_of_true rfl fun _ hnil => ?_⟩
      · rw [tick, hl]; exact moved_send h hl (ho (by rw [hl]; simp))
      · rw [hl] at hnil; cases hnil
    | nil =>
      cases hmo : L.motion with
      | none =>
        refine ⟨lost, le_rfl, ?_, iff_of_true rfl fun _ _ mo hmo' => ?_⟩
        · rw [tick, hl, hmo]; exact h
        · rw [hmo] at hmo'; cases hmo'
      | some mo =>
        have htick : L.tick = L.nextPacket mo := by rw [tick, hl, hmo]
        rw [htick]; exact moved_nextPacket h hl hmo
  | key | joystickAxis | joystickHat | joystickButton | writeData => exact ho.elim

theorem asked_cons (op : Op) (ops : List Op) : asked (op :: ops) = asked [op] + asked ops := by
  cases op <;> simp [asked]

theorem moved_run :
    ∀ (ops : List Op) {all : ℤ × ℤ} {lost : ℤ} {L : Line}, Moved reversed all lost L →
    Along step MouseOnly L ops → ∃ lost', lost ≤ lost' ∧
      Moved reversed (all + asked ops) lost' (run step L ops) ∧
      (lost' = lost ↔ Along step KeepsSign L ops)
  | [], all, lost, L, h, _ =>
      ⟨lost, le_rfl, by rw [asked, add_zero]; exact h, iff_of_true rfl trivial⟩
  | op :: ops, all, lost, L, h, ho => by
    obtain ⟨lost₁, hle1, h1, hiff1⟩ := moved_step h ho.1
    obtain ⟨lost₂, hle2, h2, hiff2⟩ := moved_run ops h1 ho.2
    refine ⟨lost₂, hle1.trans hle2, by rw [asked_cons, ← add_assoc]; exact h2, ?_⟩
    rw [Along, ← hiff1, ← hiff2]
    omega

theorem along_keepsSign_top {ops : List Op} (h : Moved false all lost L)
    (ho : Along step MouseOnly L ops) : Along step KeepsSign L ops := by
  refine along_of_inv (P := fun L => ∃ all lost, Moved false all lost L) ?_ ?_ ops L
    ⟨all, lost, h⟩ ho
  · rintro L op ⟨all, lost, h⟩ ho
    obtain ⟨lost', -, h', -⟩ := moved_step h ho
    exact ⟨_, lost', h'⟩
  · rintro L op ⟨all, lost, h⟩ - _ _ _ _ _ hy
    rw [h.yaxis] at hy; cases hy

/-- A line before the first event. -/
def fresh (k : Ikbd) : Line := ⟨k, [], none, [], []⟩

theorem moved_fresh (hr : InRing k) (he : k.inread = k.inwrite) (hm : k.mouseEnabled) :
    Moved k.yaxisReversed 0 0 (fresh k) := by
  refine ⟨hr, hm, rfl, nofun, ?_, ?_⟩
  · show [] ++ k.unread ++ [] = []
    rw [(unread_eq_nil_iff hr).2 he]; rfl
  · show (0 : ℤ × ℤ) + oriented _ 0 + (0, 2 * 0) = oriented _ 0
    rw [oriented_zero]; rfl

/-- **Conservation of motion.**  After a run of the mouse the deltas of the packets read and of
    those still in the ring add up to the motions asked for, exactly if no merge took back a y
    motion while the origin of the y axis was at the bottom. -/
theorem motion_conserved_iff (k : Ikbd) (hr : InRing k) (he : k.inread = k.inwrite)
    (hm : k.mouseEnabled = true) (ops : List Op) (ho : Along step MouseOnly (fresh k) ops)
    (hi : (run step (fresh k) ops).Idle) :
    deltas ((run step (fresh k) ops).delivered ++ (run step (fresh k) ops).ikbd.unread) =
        oriented k.yaxisReversed (asked ops) ↔ Along step KeepsSign (fresh k) ops := by
  obtain ⟨lost, hle, h, hiff⟩ := moved_run ops (moved_fresh hr he hm) ho
  have hstream := h.stream
  rw [hi.1, append_nil] at hstream
  have hsum := h.sum
  rw [pending, hi.2, oriented_zero, add_zero, ← deltas_flatten h.packets, ← hstream,
    zero_add] at hsum
  rw [← hiff, ← hsum, left_eq_add, Prod.mk_eq_zero]
  omega

/-- Three motions, of which the third is merged with the second, and a read. -/
def threeMotions : List Op :=
  [.mouse ⟨1, 0, 0, false⟩, .tick, .tick, .tick, .tick, .mouse ⟨0, -5, 0, false⟩, .tick,
    .tick, .tick, .tick, .read, .mouse ⟨0, 4, 0, false⟩, .tick, .tick, .tick, .tick]

theorem motion_conserved_top :
    deltas ((run step (fresh (default : Ikbd).reset) threeMotions).delivered ++
      (run step (fresh (default : Ikbd).reset) threeMotions).ikbd.unread) = (1, -1) := by
  have ho : Along step MouseOnly (fresh (default : Ikbd).reset) threeMotions := by decide +kernel
  have hr : InRing (default : Ikbd).reset := ⟨by decide, by decide⟩
  exact (motion_conserved_iff (default : Ikbd).reset hr rfl rfl threeMotions ho
    (by decide +kernel)).2
    (along_keepsSign_top (moved_fresh hr rfl rfl) ho)

/-- The command that puts the y origin at the bottom. -/
def bottom : Ikbd := (default : Ikbd).reset.writeData ⟨0, 0, 0, 0, 0, 0⟩ 0x0f

/-- The second motion is taken back with the wrong sign. -/
theorem merge_loses_motion :
    InRing bottom ∧ bottom.inread = bottom.inwrite ∧ bottom.mouseEnabled = true ∧
    Along step MouseOnly (fresh bottom) threeMotions ∧ (run step (fresh bottom) threeMotions).Idle ∧
    deltas ((run step (fresh bottom) threeMotions).delivered ++
      (run step (fresh bottom) threeMotions).ikbd.unread) ≠
        oriented bottom.yaxisReversed (asked threeMotions) :=
  ⟨⟨by decide, by decide⟩, rfl, rfl, by decide +kernel, by decide +kernel, by decide +kernel⟩

end Line

end Aranym.Ikbd
