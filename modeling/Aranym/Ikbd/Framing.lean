/-
  The packets in the input stream of the keyboard controller.

  The stream stays in packets if a call of `send` that fills the ring finds the
  reader between two packets.
-/
import Aranym.Ikbd.Line

namespace Aranym.Ikbd

open Lib List

namespace Line

/-! ## Packets -/

/-- The stream is in frame: the bytes read, the unread ones and those that are still to be sent make
    up packets that were sent, in their order.  Some may be missing, but each of them as a whole;
    what is still to be sent belongs to the last one. -/
def InFrame (L : Line) : Prop :=
  (∀ p ∈ L.sent, IsPacket packetLength p) ∧
  (∃ ps : List (List U8), ps.Sublist L.sent ∧
    L.delivered ++ L.ikbd.unread ++ L.left = ps.flatten) ∧
  L.left <:+ L.sent.getLast?.getD []

/-- The third byte from the end is no header of a longer packet. -/
def EndsLow (p : List U8) : Prop := ∃ q x y z, p = q ++ [x, y, z] ∧ x < 0xf6

/-- The stream is in frame, the last packet has not been dropped, and it is a mouse packet, or at
    least cannot be taken for one, if the packet type says so. -/
structure Framed (L : Line) : Prop where
  ring : InRing L.ikbd
  packets : ∀ p ∈ L.sent, IsPacket packetLength p
  stream : ∃ ps : List (List U8), ps.Sublist L.sent ∧ ps.getLast? = L.sent.getLast? ∧
    L.delivered ++ L.ikbd.unread ++ L.left = ps.flatten
  sending : L.left <:+ L.sent.getLast?.getD []
  mouse : L.ikbd.intype = .mouse → ∀ p, L.sent.getLast? = some p → p.length = 3 ∨ EndsLow p

theorem Framed.inFrame {L : Line} (h : Framed L) : L.InFrame := by
  obtain ⟨ps, hs, -, he⟩ := h.stream
  exact ⟨h.packets, ⟨ps, hs, he⟩, h.sending⟩

theorem framed_start (k : Ikbd) : Framed (start k) := by
  have hr : InRing k.reset := ⟨by show 0 < inbufferlen; decide, by show 0 < inbufferlen; decide⟩
  have hu : k.reset.unread = [] := (unread_eq_nil_iff hr).2 rfl
  refine ⟨hr, ?_, ⟨[], .slnil, rfl, ?_⟩, nil_suffix, ?_⟩
  · intro p hp; cases hp
  · show [] ++ k.reset.unread ++ [] = []
    rw [hu]; rfl
  · intro h; cases h

/-! ## Events and commands -/

/-- What events and commands do apart from their calls of `send`: the ring stays as it is, and what
    they send is one packet.  Only the clock's packet leaves the packet type as it was. -/
structure Answers (k : Ikbd) (r : Ikbd × List U8) : Prop where
  inbuffer : r.1.inbuffer = k.inbuffer
  inread : r.1.inread = k.inread
  inwrite : r.1.inwrite = k.inwrite
  packet : r.2 ≠ [] → IsPacket packetLength r.2
  mouse : r.1.intype = .mouse → k.intype = .mouse ∧ r.2 = [] ∨ EndsLow r.2

variable {k k' : Ikbd} {r : Ikbd × List U8}

theorem Answers.quiet (h : SameRing k k') : Answers k (k', []) :=
  ⟨h.inbuffer, h.inread, h.inwrite, fun h => absurd rfl h, fun hm => .inl ⟨h.intype ▸ hm, rfl⟩⟩

theorem Answers.of_same (h : SameRing k k') (hr : Answers k' r) : Answers k r :=
  ⟨hr.inbuffer.trans h.inbuffer, hr.inread.trans h.inread, hr.inwrite.trans h.inwrite, hr.packet,
    fun hm => (hr.mouse hm).imp_left fun hk => ⟨h.intype ▸ hk.1, hk.2⟩⟩

theorem Answers.unread (hr : Answers k r) : r.1.unread = k.unread := by
  unfold Ikbd.unread; rw [hr.inbuffer, hr.inread, hr.inwrite]

theorem Answers.inRing (hr : Answers k r) (hk : InRing k) : InRing r.1 :=
  ⟨hr.inread ▸ hk.inread, hr.inwrite ▸ hk.inwrite⟩

theorem packetLength_key {scancode : U8} (h : scancode < 0xf6) : packetLength scancode = 1 := by
  have hn : scancode.toNat < 0xf6 := h
  unfold packetLength
  split <;> first | rfl | omega

theorem answers_key {scancode : U8} (h : scancode < 0xf6) :
    Answers k ({ k with intype := .keyboard }, [scancode]) :=
  ⟨rfl, rfl, rfl, fun _ => ⟨scancode, [], rfl, (packetLength_key h).symm⟩, fun hm => by cases hm⟩

theorem isPacket_joystick (numjoy : Fin 2) (state : U8) :
    IsPacket packetLength [0xfe ||| BitVec.ofNat 8 numjoy, state] := by
  refine ⟨_, _, rfl, ?_⟩
  match numjoy with
  | 0 | 1 => rfl

theorem answers_joystick (numjoy : Fin 2) (f : U8 → U8) : Answers k (k.joystickEvent numjoy f) := by
  unfold joystickEvent joystickPacket
  split_ifs
  · exact .quiet ⟨rfl, rfl, rfl, rfl⟩
  · exact ⟨rfl, rfl, rfl, fun _ => isPacket_joystick numjoy _, fun hm => by cases hm⟩
  · exact .quiet ⟨rfl, rfl, rfl, rfl⟩

theorem endsLow_clockPacket (t : Tm) : EndsLow (clockPacket t) := by
  refine ⟨[_, _, _, _], _, _, _, rfl, ?_⟩
  -- the hour in BCD
  have hhour : ∀ h : Fin 24, int2bcd h < 0xf6 := by decide
  exact hhour t.hour

theorem answers_command1 (t : Tm) : Answers k (k.command1 t) := by
  unfold command1
  split
  iterate 10 · exact .quiet ⟨rfl, rfl, rfl, rfl⟩
  · exact ⟨rfl, rfl, rfl, fun _ => isPacket_joystick 1 _, fun hm => by cases hm⟩
  · exact .quiet ⟨rfl, rfl, rfl, rfl⟩
  · exact ⟨rfl, rfl, rfl, fun _ => ⟨_, _, rfl, rfl⟩, fun _ => .inr (endsLow_clockPacket t)⟩
  · exact .quiet ⟨rfl, rfl, rfl, rfl⟩

/-- The reset command empties the ring in the middle of whatever is in it. -/
def IsReset (k : Ikbd) (value : U8) : Prop :=
  k.outwrite = 1 ∧ k.outbuffer 0 = 0x80 ∧ value = 1
deriving Decidable

theorem answers_command2 (h : ¬ (k.outbuffer 0 = 0x80 ∧ k.outbuffer 1 = 1)) :
    Answers k k.command2 := by
  unfold command2
  split
  iterate 2 · exact .quiet ⟨rfl, rfl, rfl, rfl⟩
  · rename_i h0
    rw [if_neg fun h1 => h ⟨BitVec.eq_of_toNat_eq h0, h1⟩]
    exact .quiet ⟨rfl, rfl, rfl, rfl⟩
  · exact .quiet ⟨rfl, rfl, rfl, rfl⟩

theorem answers_command (t : Tm) {value : U8} (h : ¬ IsReset k value) :
    Answers k (k.command t value) := by
  have hs : SameRing k { k with outbuffer := Function.update k.outbuffer k.outwrite value
                                txdr := value, outwrite := k.outwrite + 1 } := ⟨rfl, rfl, rfl, rfl⟩
  unfold command
  dsimp only
  split
  · exact .of_same hs (answers_command1 t)
  · rename_i hw
    refine .of_same hs (answers_command2 fun h2 => h ?_)
    obtain hw : k.outwrite = 1 := by omega
    simp only [hw, Function.update_self, ne_eq, zero_ne_one, not_false_eq_true,
      Function.update_of_ne] at h2
    exact ⟨hw, h2⟩
  all_goals refine .of_same hs ?_
  · unfold command3; split <;> exact .quiet ⟨rfl, rfl, rfl, rfl⟩
  · unfold command4; split <;> exact .quiet ⟨rfl, rfl, rfl, rfl⟩
  · unfold command5; split <;> exact .quiet ⟨rfl, rfl, rfl, rfl⟩
  · unfold command6; split <;> exact .quiet ⟨rfl, rfl, rfl, rfl⟩
  · exact .quiet ⟨rfl, rfl, rfl, rfl⟩

theorem packetLength_mouseHeader (buttons : U32) : packetLength (mouseHeader buttons) = 3 := by
  have hlow : (buttons &&& 3).setWidth 8 = (buttons.setWidth 2).setWidth 8 := by
    apply BitVec.eq_of_toNat_eq
    rw [BitVec.toNat_setWidth, BitVec.toNat_and, BitVec.toNat_setWidth, BitVec.toNat_setWidth]
    exact congrArg (· % 256) (Nat.and_two_pow_sub_one_eq_mod buttons.toNat 2)
  have hall : ∀ b : BitVec 2, packetLength (0xf8 ||| b.setWidth 8) = 3 := by decide
  rw [mouseHeader, hlow]; exact hall _

/-! ## Steps -/

/-- The reader stands between two packets. -/
def AtBoundary (L : Line) : Prop := need packetLength 0 L.delivered = 0

theorem drop_first {d u rest : List U8} {ps : List (List U8)} {b h : U8} {t : List U8}
    (hp : ∀ p ∈ ps, IsPacket packetLength p) (he : d ++ u ++ (b :: rest) = ps.flatten)
    (hn : need packetLength 0 d = 0) (hu : u ++ [b] = h :: t) (hl : u.length + 1 = inbufferlen) :
    ∃ qs : List (List U8), qs.Sublist ps ∧ qs.getLast? = ps.getLast? ∧
      d ++ (u ++ [b]).drop (packetLength h) ++ rest = qs.flatten := by
  obtain ⟨a, c, rfl, rfl, hc⟩ := split_at_boundary hp (by rw [← he, append_assoc]) hn
  have hle := packetLength_le h
  have hN : inbufferlen = 8192 := rfl
  rw [show u ++ (b :: rest) = (u ++ [b]) ++ rest by simp] at hc
  cases c with
  | nil => rw [hu] at hc; simp at hc
  | cons p c =>
    -- the first packet starts with the byte that `send` looks at
    obtain ⟨h', r, hpr, hpl⟩ := hp p (by simp)
    obtain rfl : h' = h := by
      rw [hu, hpr, flatten_cons] at hc; exact (List.cons.inj hc).1.symm
    have hlen : p.length ≤ (u ++ [b]).length := by rw [length_append]; simp; omega
    have hdrop : (u ++ [b]).drop p.length ++ rest = c.flatten := by
      have := congrArg (List.drop p.length) hc
      rwa [drop_append_of_le_length hlen, flatten_cons, drop_left] at this
    refine ⟨a ++ c, ?_, ?_, ?_⟩
    · exact (sublist_cons_self p c).append_left a
    · have hne : c ≠ [] := by
        rintro rfl
        have := congrArg List.length hdrop
        simp at this; omega
      have hlast := List.getLast?_eq_some_getLast hne
      simp [List.getLast?_append, List.getLast?_cons, hlast]
    · rw [← hpl, append_assoc, hdrop, flatten_append]

variable {L : Line}

theorem framed_append {L' : Line} {ps ss : List (List U8)} {p : List U8} (hring : InRing L'.ikbd)
    (hss : ∀ q ∈ ss, IsPacket packetLength q) (hp : IsPacket packetLength p) (hsub : ps.Sublist ss)
    (hstream : L'.delivered ++ L'.ikbd.unread = ps.flatten) (hsent : L'.sent = ss ++ [p])
    (hleft : L'.left = p) (hmouse : L'.ikbd.intype = .mouse → p.length = 3 ∨ EndsLow p) :
    Framed L' := by
  refine ⟨hring, ?_, ⟨ps ++ [p], ?_, ?_, ?_⟩, ?_, ?_⟩
  · rw [hsent]
    intro q hq
    rcases List.mem_append.1 hq with hq | hq
    · exact hss q hq
    · rw [List.mem_singleton.1 hq]; exact hp
  · rw [hsent]; exact hsub.append (.refl _)
  · rw [hsent]; simp
  · rw [hstream, hleft]; simp
  · rw [hsent, hleft]; simp
  · rw [hsent]
    intro hm q hq
    obtain rfl : p = q := by simpa using hq
    exact hmouse hm

theorem framed_begin (h : Framed L) (hl : L.left = []) (hr : Answers L.ikbd r) :
    Framed (L.begin r) := by
  obtain ⟨ps, hsub, hlast, hstream⟩ := h.stream
  rw [hl, append_nil] at hstream
  by_cases hnil : r.2 = []
  · have hsent : (L.begin r).sent = L.sent := if_pos hnil
    refine ⟨hr.inRing h.ring, ?_, ⟨ps, ?_, ?_, ?_⟩, ?_, ?_⟩
    · rw [hsent]; exact h.packets
    · rw [hsent]; exact hsub
    · rw [hsent]; exact hlast
    · show L.delivered ++ r.1.unread ++ r.2 = _
      rw [hr.unread, hnil, append_nil]; exact hstream
    · show r.2 <:+ _
      rw [hnil]; exact nil_suffix
    · rw [hsent]
      intro hm
      rcases hr.mouse hm with ⟨hk, -⟩ | ⟨q, x, y, z, hq, -⟩
      · exact h.mouse hk
      · rw [hnil] at hq; simp at hq
  · refine framed_append (hr.inRing h.ring) h.packets (hr.packet hnil) hsub ?_ (if_neg hnil) rfl ?_
    · show L.delivered ++ r.1.unread = _
      rw [hr.unread, hstream]
    · intro hm
      exact .inr ((hr.mouse hm).resolve_left fun hk => hnil hk.2)

theorem framed_read (h : Framed L) : Framed L.read := by
  rcases read_cases h.ring with he | ⟨b, hu, hr', hty, he⟩
  · rw [he]; exact h
  · rw [he]
    obtain ⟨ps, hsub, hlast, hstream⟩ := h.stream
    refine ⟨hr', h.packets, ⟨ps, hsub, hlast, ?_⟩, h.sending, fun hm => h.mouse (hty ▸ hm)⟩
    rw [← hstream, hu]; simp

theorem framed_send (h : Framed L) {b : U8} {rest : List U8} (hl : L.left = b :: rest)
    (hb : L.ikbd.unread.length + 1 = inbufferlen → L.AtBoundary) :
    Framed { L with ikbd := L.ikbd.send b, left := rest } := by
  obtain ⟨ps, hsub, hlast, hstream⟩ := h.stream
  obtain ⟨hring, hty, hsend⟩ := send_cases h.ring b
  have hsending : rest <:+ L.sent.getLast?.getD [] :=
    (suffix_cons b rest).trans (hl ▸ h.sending)
  have hmouse := fun hm => h.mouse (hty ▸ hm)
  rw [hl] at hstream
  rcases hsend with ⟨-, hu⟩ | ⟨hfull, x, t, hx, hu⟩
  · refine ⟨hring, h.packets, ⟨ps, hsub, hlast, ?_⟩, hsending, hmouse⟩
    rw [hu, ← hstream]; simp
  · obtain ⟨qs, hqs, hqlast, hq⟩ :=
      drop_first (fun p hp => h.packets p (hsub.subset hp)) hstream (hb hfull) hx hfull
    refine ⟨hring, h.packets, ⟨qs, hqs.trans hsub, hqlast.trans hlast, ?_⟩, hsending, hmouse⟩
    rw [hu]; exact hq

theorem last_packet (h : Framed L) (hl : L.left = []) (hm : L.ikbd.intype = .mouse) {u : List U8}
    {buttons : U32} {x y : U8} (hu : L.ikbd.unread = u ++ [mouseHeader buttons, x, y]) :
    ∃ ps ss : List (List U8), L.sent = ss ++ [[mouseHeader buttons, x, y]] ∧ ps.Sublist ss ∧
      L.delivered ++ u = ps.flatten := by
  obtain ⟨ps, hsub, hlast, hstream⟩ := h.stream
  rw [hl, append_nil, hu, ← append_assoc] at hstream
  rcases eq_nil_or_concat ps with rfl | ⟨ps, p, rfl⟩
  · simp at hstream
  have hp : L.sent.getLast? = some p := by rw [← hlast]; simp
  obtain ⟨ss, hss⟩ := List.getLast?_eq_some_iff.1 hp
  have hlen : ∀ q : List U8, ps.flatten ++ q = L.delivered ++ u ++ [mouseHeader buttons, x, y] →
      q.length = 3 → ps.flatten = L.delivered ++ u ∧ q = [mouseHeader buttons, x, y] :=
    fun q he hq => append_inj' he (by rw [hq]; rfl)
  rw [concat_eq_append, flatten_append, flatten_singleton] at hstream
  rw [concat_eq_append, hss] at hsub
  rcases h.mouse hm p hp with h3 | ⟨q, a, b, c, rfl, hlow⟩
  · obtain ⟨hd, rfl⟩ := hlen p hstream.symm h3
    exact ⟨ps, ss, hss, append_sublist_append_right _ |>.1 hsub, hd.symm⟩
  · -- a packet that only looks like one of the mouse
    rw [← append_assoc] at hstream
    have hinj := (append_inj' hstream rfl).2
    have ha : mouseHeader buttons = a := (List.cons.inj hinj).1
    have hpl := packetLength_mouseHeader buttons
    rw [ha, packetLength_key hlow] at hpl
    cases hpl

theorem framed_nextPacket (h : Framed L) (hl : L.left = []) (mo : Motion) :
    Framed (L.nextPacket mo) := by
  obtain ⟨x, y, k', hk', hr'⟩ : ∃ x y k', L.nextPacket mo =
      { L with ikbd := { k' with intype := .mouse }, left := [mouseHeader mo.buttons, x, y]
               motion := (L.nextPacket mo).motion
               sent := (if k'.inwrite = L.ikbd.inwrite then L.sent else L.sent.dropLast) ++
                 [[mouseHeader mo.buttons, x, y]] } ∧
      (k' = L.ikbd ∨ ∃ u a b, L.ikbd.intype = .mouse ∧ k'.inwrite ≠ L.ikbd.inwrite ∧ InRing k' ∧
        L.ikbd.unread = u ++ [mouseHeader mo.buttons, a, b] ∧ k'.unread = u) := by
    refine ⟨_, _, _, rfl, ?_⟩
    by_cases hs : mo.slow = true
    · rw [if_pos hs]; exact .inl rfl
    · rw [if_neg hs]
      rcases mergeMousePacket_cases h.ring (moveBy mo.slow mo.relx)
        (moveBy mo.slow mo.rely) mo.buttons
        with he | ⟨u, a, b, k', hty, -, hu, hu', hr', hw, he⟩
      · rw [he]; exact .inl rfl
      · rw [he]; exact .inr ⟨u, a, b, hty, hw, hr', hu, hu'⟩
  have hpacket : IsPacket packetLength [mouseHeader mo.buttons, x, y] :=
    ⟨_, _, rfl, (packetLength_mouseHeader _).symm⟩
  rw [hk']
  rcases hr' with rfl | ⟨u, a, b, hty, hw, hr', hu, hu'⟩
  · obtain ⟨ps, hsub, -, hstream⟩ := h.stream
    rw [hl, append_nil] at hstream
    exact framed_append ⟨h.ring.inread, h.ring.inwrite⟩ h.packets hpacket hsub hstream
      (by rw [if_pos rfl]) rfl fun _ => .inl rfl
  · obtain ⟨ps, ss, hss, hsub, hstream⟩ := last_packet h hl hty hu
    refine framed_append ⟨hr'.inread, hr'.inwrite⟩ (fun q hq => h.packets q ?_) hpacket hsub ?_
      (by rw [if_neg hw, hss, dropLast_concat]) rfl fun _ => .inl rfl
    · rw [hss]; exact mem_append_left _ hq
    · show L.delivered ++ k'.unread = _
      rw [hu']; exact hstream

/-! ## Runs -/

/-- The steps a run may take: a call is made when no other is in progress, keys are below the
    headers, and the controller is not reset. -/
def Allowed (L : Line) : Op → Prop
  | .key scancode => L.Idle ∧ scancode < 0xf6
  | .writeData _ value => L.Idle ∧ ¬ IsReset L.ikbd value
  | .tick => True
  | .read => True
  | _ => L.Idle

/-- A call of `send` that fills the ring finds the reader between two packets. -/
def FillsAtBoundary (L : Line) (op : Op) : Prop :=
  op = .tick → L.left ≠ [] → L.ikbd.unread.length + 1 = inbufferlen → L.AtBoundary

/-- One operation keeps the line framed, if the ring fills only between packets. -/
theorem framed_step (h : Framed L) {op : Op} (ha : L.Allowed op) (hb : L.FillsAtBoundary op) :
    Framed (step L op).1 := by
  cases op with
  | key scancode => exact framed_begin h ha.1.1 (answers_key ha.2)
  | mouse mo => exact ⟨h.ring, h.packets, h.stream, h.sending, h.mouse⟩
  | joystickAxis numjoy numaxis value => exact framed_begin h ha.1 (answers_joystick numjoy _)
  | joystickHat numjoy value => exact framed_begin h ha.1 (answers_joystick numjoy _)
  | joystickButton numjoy pressed => exact framed_begin h ha.1 (answers_joystick numjoy _)
  | writeData t value => exact framed_begin h ha.1.1 (answers_command t ha.2)
  | read => exact framed_read h
  | tick =>
    show Framed L.tick
    unfold tick
    split
    · rename_i b rest hl
      exact framed_send h hl (hb rfl (by rw [hl]; simp))
    · rename_i hl
      split
      · exact framed_nextPacket h hl _
      · exact h

/-- **The input stream stays in frame** along every run in which no call of `send` fills the ring
    while the reader is inside a packet. -/
theorem input_in_frame (k : Ikbd) (ops : List Op) (ha : Along step Allowed (start k) ops)
    (hb : Along step FillsAtBoundary (start k) ops) : (run step (start k) ops).InFrame := by
  have hstep : ∀ L op, Framed L → L.Allowed op ∧ L.FillsAtBoundary op → Framed (step L op).1 :=
    fun L op h hg => framed_step h hg.1 hg.2
  exact (run_inv hstep ops _ (framed_start k) (along_and _ _ ha hb)).inFrame

/-! ## A full ring -/

/-- Typing a key `n` times. -/
def typing : ℕ → List Op
  | 0 => []
  | n + 1 => .key 0x1e :: .tick :: typing n

/-- The line after a key. -/
def typed (L : Line) : Line :=
  { L with
    ikbd := { L.ikbd with intype := .keyboard }.send 0x1e, left := [], sent := L.sent ++ [[0x1e]] }

theorem typing_succ : ∀ n : ℕ, typing (n + 1) = typing n ++ typing 1
  | 0 => rfl
  | n + 1 => congrArg (fun l => Op.key 0x1e :: Op.tick :: l) (typing_succ n)

theorem run_typing (n : ℕ)
    (L : Line) : run step L (typing (n + 1)) = run step L.typed (typing n) := rfl

theorem along_typing : ∀ (n : ℕ) (L : Line), L.Idle → Along step Allowed L (typing n)
  | 0, _, _ => trivial
  | n + 1, L, hi => ⟨⟨hi, by decide⟩, trivial, along_typing n L.typed ⟨rfl, hi.2⟩⟩

theorem along_typing_boundary :
    ∀ (n : ℕ) (L : Line), L.AtBoundary → Along step FillsAtBoundary L (typing n)
  | 0, _, _ => trivial
  | n + 1, L, hb => ⟨nofun, fun _ _ _ => hb, along_typing_boundary n L.typed hb⟩

theorem typing_fits : ∀ (n : ℕ) (L : Line), InRing L.ikbd → L.left = [] →
    L.ikbd.unread.length + n < inbufferlen →
    InRing (run step L (typing n)).ikbd ∧ (run step L (typing n)).left = [] ∧
      (run step L (typing n)).delivered = L.delivered ∧
      (run step L (typing n)).sent = L.sent ++ List.replicate n [0x1e] ∧
      (run step L (typing n)).ikbd.unread = L.ikbd.unread ++ List.replicate n 0x1e
  | 0, L, hr, hl, _ => ⟨hr, hl, rfl, by simp [typing, run], by simp [typing, run]⟩
  | n + 1, L, hr, hl, hlen => by
    have hk : InRing { L.ikbd with intype := .keyboard } := ⟨hr.inread, hr.inwrite⟩
    have hku : { L.ikbd with intype := .keyboard }.unread = L.ikbd.unread := rfl
    obtain ⟨hr', -, ⟨-, hu⟩ | ⟨hfull, -⟩⟩ := send_cases hk 0x1e
    · rw [hku] at hu
      obtain ⟨h1, h2, h3, h4, h5⟩ := typing_fits n L.typed hr' rfl (by
        show ({ L.ikbd with intype := .keyboard }.send 0x1e).unread.length + n < _
        rw [hu]; simp; omega)
      rw [run_typing]
      refine ⟨h1, h2, h3, ?_, ?_⟩
      · rw [h4, replicate_succ]; simp [typed]
      · rw [h5, replicate_succ]
        show ({ L.ikbd with intype := .keyboard }.send 0x1e).unread ++ _ = _
        rw [hu]; simp
    · rw [hku] at hfull; omega

theorem typing_fills : ∀ (n : ℕ) (L : Line) {b : U8} {rest : List U8}, InRing L.ikbd →
    L.left = [] → L.ikbd.unread = b :: rest → L.ikbd.unread.length + n + 1 = inbufferlen →
    (run step L (typing (n + 1))).left = [] ∧
    (run step L (typing (n + 1))).delivered = L.delivered ∧
      (run step L (typing (n + 1))).sent = L.sent ++ List.replicate (n + 1) [0x1e] ∧
      (run step L (typing (n + 1))).ikbd.unread =
        (L.ikbd.unread ++ List.replicate (n + 1) 0x1e).drop (packetLength b) := by
  intro n L b rest hr hl hu hlen
  obtain ⟨hr', hl', hd', hs', hu'⟩ := typing_fits n L hr hl (by omega)
  have hsplit : run step L (typing (n + 1)) = (run step L (typing n)).typed := by
    rw [typing_succ, run_append]; rfl
  generalize run step L (typing n) = L₁ at hr' hl' hd' hs' hu' hsplit
  have hk : InRing { L₁.ikbd with intype := .keyboard } := ⟨hr'.inread, hr'.inwrite⟩
  have hku : { L₁.ikbd with intype := .keyboard }.unread = L₁.ikbd.unread := rfl
  have hlen' : L₁.ikbd.unread.length + 1 = inbufferlen := by rw [hu']; simp; omega
  obtain ⟨-, -, ⟨hlt, -⟩ | ⟨-, x, t, hx, hsend⟩⟩ := send_cases hk 0x1e
  · rw [hku] at hlt; omega
  · rw [hku, hu', hu] at hx
    rw [hku, hu'] at hsend
    obtain rfl : b = x := (List.cons.inj hx).1
    rw [hsplit]
    refine ⟨rfl, hd', ?_, ?_⟩
    · show L₁.sent ++ _ = _
      rw [hs', replicate_succ', append_assoc]
    · show ({ L₁.ikbd with intype := .keyboard }.send 0x1e).unread = _
      rw [hsend, replicate_succ', append_assoc]

/-- A mouse packet is sent. -/
def mouseMoved : List Op := [.mouse ⟨1, 2, 0, false⟩, .tick, .tick, .tick, .tick]

/-- With nothing read, the mouse packet goes as a whole when the ring is full. -/
theorem input_in_frame_full : (run step (start default) (mouseMoved ++ typing 8190)).InFrame := by
  apply input_in_frame default (mouseMoved ++ typing 8190)
  · exact (along_append _ _ _).2 ⟨⟨⟨rfl, rfl⟩, trivial, trivial, trivial, trivial, trivial⟩,
      along_typing _ _ (by decide +kernel)⟩
  · have h0 : need packetLength 0 [] = 0 := rfl
    exact (along_append _ _ _).2 ⟨⟨nofun, fun _ _ _ => h0, fun _ _ _ => h0, fun _ _ _ => h0,
      fun _ _ _ => h0, trivial⟩, along_typing_boundary _ _ h0⟩

theorem run_mouseMoved_read : ∃ L, run step (start default) (mouseMoved ++ [.read]) = L ∧ L.Idle ∧
    InRing L.ikbd ∧ L.delivered = [0xf8] ∧ L.sent = [[0xf8, 1, 2]] ∧ L.ikbd.unread = [1, 2] :=
  ⟨_, rfl, by decide +kernel, ⟨by decide +kernel, by decide +kernel⟩, by decide +kernel⟩

/-- With the header read, the next byte of the packet is taken for a header. -/
theorem discard_splits_packet :
    Along step Allowed (start default) (mouseMoved ++ [.read] ++ typing 8190) ∧
      ¬ (run step (start default) (mouseMoved ++ [.read] ++ typing 8190)).InFrame := by
  obtain ⟨L, hrun, hi, hr, hd, hs, hu⟩ := run_mouseMoved_read
  constructor
  · refine (along_append _ _ _).2
      ⟨⟨⟨rfl, rfl⟩, trivial, trivial, trivial, trivial, trivial, trivial⟩, ?_⟩
    rw [hrun]; exact along_typing _ _ hi
  · rw [run_append, hrun]
    obtain ⟨hl', hd', hs', hu'⟩ := typing_fills 8189 L hr hi.1 hu (by rw [hu]; rfl)
    rw [hd] at hd'
    rw [hs] at hs'
    rw [hu] at hu'
    rintro ⟨-, ⟨ps, hsub, hstream⟩, -⟩
    rw [hs'] at hsub
    rw [hl', hd', hu'] at hstream
    generalize 8189 + 1 = n at hsub hstream
    -- the second byte after the mouse header is not that of the packet
    cases hsub with
    | cons _ hsub =>
      obtain ⟨m, -, rfl⟩ := List.sublist_replicate_iff.1 hsub
      cases m <;> simp [replicate_succ] at hstream
    | cons_cons _ hsub => simp [packetLength] at hstream

end Line

end Aranym.Ikbd
