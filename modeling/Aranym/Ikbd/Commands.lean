/-
  The commands of the keyboard controller.

  The interpreter counts the bytes of a command in `outwrite` and looks at the first
  one to tell whether the command is complete.
-/
import Aranym.Ikbd.Queue

namespace Aranym.Ikbd

open Lib List Function

/-! ## The count -/

/-- `DEFAULT_OUTBUFFERLEN`. -/
def outbufferlen : ℕ := 16

/-- The commands that the interpreter takes for complete with their byte number `n`. -/
def ends : ℕ → List ℕ
  | 1 => [0x08, 0x0d, 0x0f, 0x10, 0x11, 0x12, 0x13, 0x14, 0x15, 0x16, 0x18, 0x1a, 0x1c]
  | 2 => [0x07, 0x17]
  | 3 => [0x0a, 0x0b, 0x0c, 0x20, 0x21]
  | 4 => [0x09]
  | 5 => [0x0e]
  | 6 => [0x19, 0x1b]
  | _ => []

/-- A command that starts with `op` is complete with its byte number `n`, which is `value`. -/
def Complete (n : ℕ) (op value : U8) : Prop :=
  op.toNat ∈ ends n ∨ (n = 2 ∧ op = 0x80 ∧ value = 1) ∨ 7 ≤ n
deriving Decidable

variable {k : Ikbd}

/-- The bytes of the current command. -/
structure SameCommand (k k' : Ikbd) : Prop where
  outwrite : k'.outwrite = k.outwrite
  outbuffer : k'.outbuffer = k.outbuffer

theorem sameCommand_send (v : U8) : SameCommand k (k.send v) := by
  unfold send signalByte throwInterrupt
  dsimp only
  split_ifs <;> exact ⟨rfl, rfl⟩

theorem sameCommand_sendAll : ∀ (bs : List U8) (k : Ikbd), SameCommand k (k.sendAll bs)
  | [], _ => ⟨rfl, rfl⟩
  | b :: bs, k => by
    have h := sameCommand_send (k := k) b
    have hs := sameCommand_sendAll bs (k.send b)
    exact ⟨hs.outwrite.trans h.outwrite, hs.outbuffer.trans h.outbuffer⟩

theorem outbuffer_command (t : Tm) (v : U8) :
    (k.command t v).1.outbuffer = update k.outbuffer k.outwrite v := by
  unfold command
  dsimp only
  split
  · unfold command1 done; split <;> rfl
  · unfold command2 done; split <;> first | rfl | (split_ifs <;> rfl)
  · unfold command3 done; split <;> rfl
  · unfold command4 done; split <;> rfl
  · unfold command5 done; split <;> rfl
  · unfold command6 done; split <;> rfl
  · rfl

theorem outwrite_command1 (t : Tm) :
    (k.command1 t).1.outwrite = if (k.outbuffer 0).toNat ∈ ends 1 then 0 else k.outwrite := by
  unfold command1 done
  split <;> simp_all [ends]

theorem outwrite_command2 : k.command2.1.outwrite =
    if (k.outbuffer 0).toNat ∈ ends 2 ∨ k.outbuffer 0 = 0x80 ∧
    k.outbuffer 1 = 1 then 0 else k.outwrite := by
  have h80 : k.outbuffer 0 = 0x80 ↔ (k.outbuffer 0).toNat = 0x80 := BitVec.toNat_inj.symm
  unfold command2 done
  split
  · simp_all [ends]
  · simp_all [ends]
  · split_ifs <;> simp_all [ends, reset]
  · simp_all [ends]

theorem outwrite_command3 :
    k.command3.1.outwrite = if (k.outbuffer 0).toNat ∈ ends 3 then 0 else k.outwrite := by
  unfold command3 done
  split <;> simp_all [ends]

theorem outwrite_command4 :
    k.command4.1.outwrite = if (k.outbuffer 0).toNat ∈ ends 4 then 0 else k.outwrite := by
  unfold command4 done
  split <;> simp_all [ends]

theorem outwrite_command5 :
    k.command5.1.outwrite = if (k.outbuffer 0).toNat ∈ ends 5 then 0 else k.outwrite := by
  unfold command5 done
  split <;> simp_all [ends]

theorem outwrite_command6 :
    k.command6.1.outwrite = if (k.outbuffer 0).toNat ∈ ends 6 then 0 else k.outwrite := by
  unfold command6 done
  split <;> simp_all [ends]

/-- **The count after a byte.** -/
theorem outwrite_writeData (t : Tm) (v : U8) : (k.writeData t v).outwrite =
    if Complete (k.outwrite + 1) (if k.outwrite = 0 then v else k.outbuffer 0) v then 0
    else k.outwrite + 1 := by
  have h0 : update k.outbuffer k.outwrite v 0 = if k.outwrite = 0 then v else k.outbuffer 0 := by
    rw [update_apply]; simp only [eq_comm]
  rw [writeData, (sameCommand_sendAll _ _).outwrite, command, ← h0]
  dsimp only
  split
  · rename_i h; rw [outwrite_command1, h]; simp [Complete]
  · rename_i h
    have h1 : update k.outbuffer k.outwrite v 1 = v := by
      rw [show k.outwrite = 1 by omega, update_self]
    rw [outwrite_command2, h]; simp [Complete, h1]
  · rename_i h; rw [outwrite_command3, h]; simp [Complete]
  · rename_i h; rw [outwrite_command4, h]; simp [Complete]
  · rename_i h; rw [outwrite_command5, h]; simp [Complete]
  · rename_i h; rw [outwrite_command6, h]; simp [Complete]
  · have h7 : 7 ≤ k.outwrite + 1 := by grind
    have hc : ∀ op, Complete (k.outwrite + 1) op v := fun _ => .inr (.inr h7)
    rw [if_pos (hc _)]; rfl

theorem outbuffer_writeData (t : Tm) (v : U8) :
    (k.writeData t v).outbuffer = update k.outbuffer k.outwrite v := by
  rw [writeData, (sameCommand_sendAll _ _).outbuffer, outbuffer_command]

/-! ## Commands -/

/-- A byte written at some time. -/
def write (k : Ikbd) (w : Tm × U8) : Ikbd × Unit := (k.writeData w.1 w.2, ())

theorem outwrite_run_lt (ws : List (Tm × U8)) (h : k.outwrite = 0) :
    (run write k ws).outwrite < outbufferlen := by
  have hstep : ∀ (k : Ikbd) (w : Tm × U8), k.outwrite < 7 → (write k w).1.outwrite < 7 := by
    intro k w hk
    have hcount := outwrite_writeData (k := k) w.1 w.2
    generalize (if k.outwrite = 0 then w.2 else k.outbuffer 0) = op at hcount
    rw [write, hcount]
    split_ifs with hc
    · omega
    · have h7 : ¬ 7 ≤ k.outwrite + 1 := fun h7 => hc (.inr (.inr h7))
      omega
  have h7 := run_inv_all hstep ws k (by omega)
  exact h7.trans (by decide)

/-- The length of a command, its first byte included; zero if there is no such command. -/
def commandLength (op : U8) : ℕ :=
  match op.toNat with
  | 0x08 | 0x0d | 0x0f | 0x10 | 0x11 | 0x12 | 0x13 | 0x14 | 0x15 | 0x16 | 0x18 | 0x1a | 0x1c => 1
  | 0x07 | 0x17 | 0x80 => 2
  | 0x0a | 0x0b | 0x0c | 0x21 => 3
  | 0x09 => 5
  | 0x0e => 6
  | 0x19 | 0x1b => 7
  | _ => 0

/-- A complete command; the one with 0x80 has the parameter 1. -/
def IsCommand (c : List (Tm × U8)) : Prop :=
  ∃ w ps, c = w :: ps ∧ c.length = commandLength w.2 ∧ (w.2 = 0x80 → ps.map Prod.snd = [1])

/-- Set mouse absolute mode, set mouse position, joystick keyboard emulation, set date and time. -/
def miscounted : List U8 := [0x09, 0x0e, 0x19, 0x1b]

/-- The count is zero between the commands, and not inside one. -/
def InStep (k : Ikbd) (cs : List (List (Tm × U8))) : Prop :=
  ∀ a c b, cs = a ++ c :: b → ∀ n ≤ c.length,
    (run write k (a.flatten ++ c.take n)).outwrite = 0 ↔ n = 0 ∨ n = c.length

/-- Inside a command that starts with `op`, after `n` of its bytes. -/
structure Reading (k : Ikbd) (op : U8) (n : ℕ) : Prop where
  outwrite : k.outwrite = n
  op : n ≠ 0 → k.outbuffer 0 = op

variable {w : Tm × U8} {n : ℕ}

theorem reading_write {op : U8} (h : Reading k op n) (hw : n = 0 → w.2 = op) :
    if Complete (n + 1) op w.2 then (write k w).1.outwrite = 0
      else Reading (write k w).1 op (n + 1) := by
  have hcount := outwrite_writeData (k := k) w.1 w.2
  have hop : (if k.outwrite = 0 then w.2 else k.outbuffer 0) = op := by
    rw [h.outwrite]
    split_ifs with h0
    · exact hw h0
    · exact h.op h0
  rw [hop, h.outwrite] at hcount
  split_ifs with hc
  · rw [if_pos hc] at hcount; exact hcount
  · rw [if_neg hc] at hcount
    refine ⟨hcount, fun _ => ?_⟩
    rw [write, outbuffer_writeData, update_apply, h.outwrite]
    by_cases h0 : n = 0
    · rw [if_pos h0.symm]; exact hw h0
    · rw [if_neg (Ne.symm h0)]; exact h.op h0

variable {ps : List (Tm × U8)}

/-- A command is complete with its last byte, or one byte before it. -/
theorem complete_iff {v : Tm × U8} (hc : IsCommand (w :: ps))
    (hn : n < (w :: ps).length) (h7 : n + 1 < 7) (hv : (w :: ps)[n]? = some v) :
    Complete (n + 1) w.2 v.2 ↔ n + 1 + (if w.2 ∈ miscounted then 1 else 0) = (w :: ps).length := by
  obtain ⟨w', ps', hcons, hlen, h80⟩ := hc
  obtain ⟨rfl, rfl⟩ := List.cons.inj hcons
  have htable : ∀ op : U8, commandLength op ≠ 0 → ∀ n : Fin 6, n < commandLength op →
      ((op.toNat ∈ ends (n + 1) ∨ (n.1 = 1 ∧ op = 0x80)) ↔
        n + 1 + (if op ∈ miscounted then 1 else 0) = commandLength op) := by decide +kernel
  rw [hlen] at hn ⊢
  rw [← htable w.2 (by omega) ⟨n, by omega⟩ hn, Complete]
  refine or_congr_right ⟨?_, ?_⟩
  · rintro (⟨h2, hop, -⟩ | h7')
    · exact ⟨Nat.succ.inj h2, hop⟩
    · omega
  · rintro ⟨rfl, hop⟩
    -- the parameter of the reset command
    have hp := h80 hop
    refine .inl ⟨rfl, hop, ?_⟩
    have hv' : (ps.map Prod.snd)[0]? = some v.2 := by simpa using congrArg (Option.map Prod.snd) hv
    rw [hp] at hv'
    exact (Option.some.inj hv').symm

theorem reading_take (h0 : k.outwrite = 0) : ∀ n ≤ (w :: ps).length,
      (∀ m v, m < n → (w :: ps)[m]? = some v → ¬ Complete (m + 1) w.2 v.2) →
      Reading (run write k ((w :: ps).take n)) w.2 n
  | 0, _, _ => ⟨h0, fun h => absurd rfl h⟩
  | n + 1, hn, hnot => by
    have ih := reading_take h0 n (by omega) fun m v hm => hnot m v (by omega)
    have hv : (w :: ps)[n]? = some (w :: ps)[n] := List.getElem?_eq_getElem hn
    have hw : n = 0 → (w :: ps)[n].2 = w.2 := by rintro rfl; rfl
    have h := reading_write ih hw
    rw [if_neg (hnot n _ (by omega) hv)] at h
    rw [take_succ_eq_append_getElem hn, run_append]; exact h

theorem outwrite_take_complete (h0 : k.outwrite = 0) (hn : n < (w :: ps).length)
    (hnot : ∀ m v, m < n → (w :: ps)[m]? = some v → ¬ Complete (m + 1) w.2 v.2)
    (hc : Complete (n + 1) w.2 (w :: ps)[n].2) :
    (run write k ((w :: ps).take (n + 1))).outwrite = 0 := by
  have ih := reading_take h0 n (by omega) hnot
  have hw : n = 0 → (w :: ps)[n].2 = w.2 := by rintro rfl; rfl
  have h := reading_write ih hw
  rw [if_pos hc] at h
  rw [take_succ_eq_append_getElem hn, run_append]; exact h

theorem length_command (hc : IsCommand (w :: ps)) :
    1 + (if w.2 ∈ miscounted then 1 else 0) ≤ (w :: ps).length ∧
      (w :: ps).length < 7 + (if w.2 ∈ miscounted then 1 else 0) := by
  obtain ⟨w', ps', hcons, hlen, -⟩ := hc
  obtain ⟨rfl, rfl⟩ := List.cons.inj hcons
  have htable : ∀ op : U8, commandLength op ≠ 0 →
      1 + (if op ∈ miscounted then 1 else 0) ≤ commandLength op ∧
        commandLength op < 7 + (if op ∈ miscounted then 1 else 0) := by decide +kernel
  rw [hlen]
  exact htable w.2 (by rw [← hlen]; simp)

/-- The output buffer is empty exactly between commands, if their length is counted right. -/
theorem outwrite_take_iff {c : List (Tm × U8)} (hc : IsCommand c)
    (hgood : ∀ w ∈ c.head?, w.2 ∉ miscounted) (h0 : k.outwrite = 0) (hn : n ≤ c.length) :
    (run write k (c.take n)).outwrite = 0 ↔ n = 0 ∨ n = c.length := by
  have ⟨w, ps, hcons, _⟩ := hc
  subst hcons
  have hw := hgood w rfl
  have hlen := length_command hc
  rw [if_neg hw] at hlen
  have hcomplete : ∀ m v, m < (w :: ps).length → (w :: ps)[m]? = some v →
      (Complete (m + 1) w.2 v.2 ↔ m + 1 = (w :: ps).length) := by
    intro m v hm hv
    have h := complete_iff hc hm (by omega) hv
    rwa [if_neg hw, Nat.add_zero] at h
  rcases Nat.lt_or_eq_of_le hn with hlt | rfl
  · have h := reading_take h0 n hn fun m v hm hv hcm => by
      have := (hcomplete m v (by omega) hv).1 hcm
      omega
    rw [h.outwrite]; omega
  · refine iff_of_true ?_ (.inr rfl)
    have hlast : (w :: ps).length - 1 < (w :: ps).length := by omega
    have hsucc : (w :: ps).length - 1 + 1 = (w :: ps).length := by omega
    have h := outwrite_take_complete h0 hlast (fun m v hm hv hcm => by
      have := (hcomplete m v (by omega) hv).1 hcm
      omega) ((hcomplete _ _ hlast (List.getElem?_eq_getElem hlast)).2 hsucc)
    rwa [hsucc] at h

/-- A command whose length the interpreter has wrong: its last byte is taken for a command. -/
theorem outwrite_take_miscounted {c : List (Tm × U8)} (hc : IsCommand c)
    (hw : w ∈ c.head?) (hbad : w.2 ∈ miscounted) (h0 : k.outwrite = 0) :
    0 < c.length - 1 ∧ (run write k (c.take (c.length - 1))).outwrite = 0 := by
  have ⟨w', ps, hcons, _⟩ := hc
  subst hcons
  obtain rfl : w' = w := Option.some.inj hw
  have hlen := length_command hc
  rw [if_pos hbad] at hlen
  have hcomplete : ∀ m v, m < (w' :: ps).length → m + 1 < 7 → (w' :: ps)[m]? = some v →
      (Complete (m + 1) w'.2 v.2 ↔ m + 2 = (w' :: ps).length) := by
    intro m v hm h7 hv
    have h := complete_iff hc hm h7 hv
    rwa [if_pos hbad] at h
  have hlast : (w' :: ps).length - 2 < (w' :: ps).length := by omega
  have hsucc : (w' :: ps).length - 2 + 1 = (w' :: ps).length - 1 := by omega
  have h := outwrite_take_complete h0 hlast (fun m v hm hv hcm => by
    have := (hcomplete m v (by omega) (by omega) hv).1 hcm
    omega) ((hcomplete _ _ hlast (by omega) (List.getElem?_eq_getElem hlast)).2 (by omega))
  rw [hsucc] at h
  exact ⟨by omega, h⟩

theorem outwrite_flatten : ∀ (cs : List (List (Tm × U8))) {k : Ikbd}, k.outwrite = 0 →
    (∀ c ∈ cs, IsCommand c) → (∀ c ∈ cs, ∀ w ∈ c.head?, w.2 ∉ miscounted) →
    (run write k cs.flatten).outwrite = 0
  | [], _, h0, _, _ => h0
  | c :: cs, k, h0, hc, hgood => by
    have h := (outwrite_take_iff (hc c mem_cons_self) (hgood c mem_cons_self) h0 le_rfl).2
      (.inr rfl)
    rw [take_length] at h
    rw [flatten_cons, run_append]
    exact outwrite_flatten cs h (fun c hm => hc c (mem_cons_of_mem _ hm))
      fun c hm => hgood c (mem_cons_of_mem _ hm)

/-- A stream that stays in step holds no command whose length is miscounted. -/
theorem good_of_inStep : ∀ (cs : List (List (Tm × U8))) {k : Ikbd}, k.outwrite = 0 →
    (∀ c ∈ cs, IsCommand c) → InStep k cs → ∀ c ∈ cs, ∀ w ∈ c.head?, w.2 ∉ miscounted
  | [], _, _, _, _ => nofun
  | c :: cs, k, h0, hcs, hin => by
    have hc := hcs c mem_cons_self
    have hgood : ∀ w ∈ c.head?, w.2 ∉ miscounted := by
      intro w hw hbad
      obtain ⟨hpos, h⟩ := outwrite_take_miscounted hc hw hbad h0
      have := (hin [] c cs rfl (c.length - 1) (Nat.sub_le _ _)).1 h
      omega
    have hrest : InStep (run write k c) cs := by
      rintro a d b rfl n hn
      have h := hin (c :: a) d b rfl n hn
      rwa [flatten_cons, append_assoc, run_append] at h
    have h := (outwrite_take_iff hc hgood h0 le_rfl).2 (.inr rfl)
    rw [take_length] at h
    intro d hd
    rcases List.mem_cons.1 hd with rfl | hd
    · exact hgood
    · exact good_of_inStep cs h (fun e he => hcs e (mem_cons_of_mem _ he)) hrest d hd

/-- **Framing of the commands.**  The count stays inside the buffer whatever is written; in a
    sequence of complete commands it is back at zero after exactly the last byte of each, if and
    only if none of them is one whose length the interpreter has wrong. -/
theorem commands_in_step_iff (k : Ikbd) (h0 : k.outwrite = 0) :
    (∀ ws, (run write k ws).outwrite < outbufferlen) ∧ ∀ cs, (∀ c ∈ cs, IsCommand c) →
      (InStep k cs ↔ ∀ c ∈ cs, ∀ w ∈ c.head?, w.2 ∉ miscounted) := by
  refine ⟨fun ws => outwrite_run_lt ws h0, fun cs hcs => ⟨good_of_inStep cs h0 hcs, ?_⟩⟩
  rintro hgood a c b rfl n hn
  have ha := outwrite_flatten a h0 (fun c hc => hcs c (by simp [hc])) fun c hc =>
    hgood c (by simp [hc])
  rw [run_append]
  exact outwrite_take_iff (hcs c (by simp)) (hgood c (by simp)) ha hn

/-- Set the mouse threshold, then read the clock. -/
theorem commands_in_step_clock :
    InStep (default : Ikbd).reset [[(⟨0, 0, 0, 0, 0, 0⟩, 0x0b), (⟨0, 0, 0, 0, 0, 0⟩, 1),
      (⟨0, 0, 0, 0, 0, 0⟩, 1)], [(⟨0, 0, 0, 0, 0, 0⟩, 0x1c)]] := by
  refine ((commands_in_step_iff (default : Ikbd).reset rfl).2 _ ?_).2 ?_
  · intro c hc
    rcases List.mem_cons.1 hc with rfl | hc
    · exact ⟨_, _, rfl, rfl, by decide⟩
    · rw [List.mem_singleton.1 hc]; exact ⟨_, _, rfl, rfl, by decide⟩
  · intro c hc w hw
    rcases List.mem_cons.1 hc with rfl | hc
    · rw [← Option.some.inj hw]; decide
    · rw [List.mem_singleton.1 hc] at hw
      rw [← Option.some.inj hw]; decide

/-- The last byte of the mouse's maximal position, 0x12, disables the mouse. -/
theorem parameter_executed :
    let t : Tm := ⟨0, 0, 0, 0, 0, 0⟩
    let c : List (Tm × U8) := [(t, 0x09), (t, 0x02), (t, 0x7f), (t, 0x01), (t, 0x12)]
    IsCommand c ∧ ¬ InStep (default : Ikbd).reset [c] ∧
      (run write (default : Ikbd).reset c).mouseEnabled = false := by
  intro t c
  refine ⟨⟨_, _, rfl, rfl, by decide⟩, fun h => ?_, by decide +kernel⟩
  have h4 := h [] c [] rfl 4 (by decide)
  exact absurd (h4.1 (by decide +kernel)) (by decide)

end Aranym.Ikbd
