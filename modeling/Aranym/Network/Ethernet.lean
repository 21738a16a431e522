/-
  The receivers of the Ethernet driver (`natfeat/ethernet.cpp`).

  A receiver puts a packet into the buffer of its interface, sets the pending bit, triggers an
  interrupt and waits for the acknowledge.  The bit stays until the receiver has woken up, and
  `stopThread` forgets the receiver without ending it.
-/
import Aranym.Lib.Run
import Mathlib.Data.Fintype.Basic

namespace Aranym.Network

open Lib

/-- What `receiveFunc` does next. -/
inductive Phase
  | recv
  | mark
  | trigger
  | wait
  | blocked (sem : ℕ)
  | clear
deriving DecidableEq

/-- A semaphore is named by the call of `SDL_CreateSemaphore` that gave it; `ack` says whether
the last call gave one. -/
structure Handler (β : Type) where
  handlingThread : Bool := false
  calls : ℕ := 0
  ack : Bool := false
  count : ℕ → ℕ := fun _ => 0
  loops : List Phase := []
  packet : List β := []
  packetLength : ℕ := 0
  -- its bit of `pending_interrupts`
  pending : Bool := false
  received : List (List β) := []
  reads : List (List β) := []

namespace Handler

variable {β : Type} (h : Handler β)

/-- `MAX_PACKET_SIZE`. -/
def maxPacketSize : ℕ := 9000

/-- The current semaphore. -/
def intAck : Option ℕ := if h.ack then some h.calls else none

/-- `sem` and `thread` say whether the host creates them. -/
def startThread (sem thread : Bool) : Handler β :=
  if h.handlingThread then h
  else if sem then
    let h := { h with
      calls := h.calls + 1, ack := true, count := Function.update h.count (h.calls + 1) 0 }
    if thread then { h with handlingThread := true, loops := h.loops ++ [.recv] } else h
  else { h with calls := h.calls + 1, ack := false }

/-- What would end the thread is under `#ifdef FIXME`. -/
def stopThread : Handler β := { h with handlingThread := false }

/-- The next action of a receiver and what follows it. -/
def act (data : List β) : Phase → Handler β × Phase
  | .recv =>
    let p := data.take maxPacketSize
    ({ h with
        packet := p ++ h.packet.drop p.length
        packetLength := p.length
        received := h.received ++ [p] }, .mark)
  | .mark => ({ h with pending := true }, .trigger)
  | .trigger => (h, .wait)
  -- `SDL_SemWait` of a null pointer returns at once
  | .wait => (h, h.intAck.elim .clear .blocked)
  | .blocked sem =>
    if h.count sem = 0 then (h, .blocked sem)
    else ({ h with count := Function.update h.count sem (h.count sem - 1) }, .clear)
  | .clear => ({ h with pending := false }, .recv)

/-- A turn of the `k`-th receiver. -/
def receiveFunc (k : ℕ) (data : List β) : Handler β :=
  match h.loops[k]? with
  | none => h
  | some phase => { (h.act data phase).1 with loops := h.loops.set k (h.act data phase).2 }

/-- What the guest copies. -/
def readPacket (len : ℕ) : Handler β :=
  { h with reads := h.reads ++ [h.packet.take (min len maxPacketSize)] }

/-- `XIF_IRQ` with the bit of the interface. -/
def post : Handler β :=
  match h.intAck with
  | none => h
  | some sem => { h with count := Function.update h.count sem (h.count sem + 1) }

end Handler

/-- Where the guest is. -/
inductive Stage
  | length
  | packet (len : ℕ)
  | ack
deriving DecidableEq

/-- The interrupt handler of the guest, with the bits that are still to be served. -/
inductive Guest (n : ℕ)
  | entered
  | choosing (rest : Finset (Fin n))
  | serving (i : Fin n) (stage : Stage) (rest : Finset (Fin n))
deriving DecidableEq

/-- The driver and the guest. -/
structure Driver (n : ℕ) (β : Type) where
  handlers : Fin n → Handler β
  irq : Bool := false
  guest : Guest n := .choosing ∅

/-- What can happen. -/
inductive Event (n : ℕ) (β : Type)
  | start (i : Fin n) (sem thread : Bool)
  | stop (i : Fin n)
  | reset
  | loop (i : Fin n) (k : ℕ) (data : List β)
  | guest (i : Fin n)

variable {n : ℕ} {β : Type}

namespace Driver

variable (d : Driver n β)

/-- Replaces a handler. -/
def set (i : Fin n) (h : Handler β) : Driver n β :=
  { d with handlers := Function.update d.handlers i h }

/-- `XIF_IRQ(0)`. -/
def pendingInterrupts : Finset (Fin n) := {i | (d.handlers i).pending = true}

/-- A step of the guest: it takes an interrupt, asks for the pending bits and serves them in any
order, `i` being its choice. -/
def serve (i : Fin n) : Driver n β :=
  match d.guest with
  | .entered => { d with guest := .choosing d.pendingInterrupts }
  | .choosing rest =>
    if i ∈ rest then { d with guest := .serving i .length rest }
    else if rest = ∅ ∧ d.irq = true then { d with irq := false, guest := .entered }
    else d
  | .serving i .length rest =>
    { d with guest := .serving i (.packet (d.handlers i).packetLength) rest }
  | .serving i (.packet len) rest =>
    { d.set i ((d.handlers i).readPacket len) with guest := .serving i .ack rest }
  | .serving i .ack rest => { d.set i (d.handlers i).post with guest := .choosing (rest.erase i) }

/-- One event. -/
def step : Event n β → Driver n β × Unit
  | .start i sem thread => (d.set i ((d.handlers i).startThread sem thread), ())
  | .stop i => (d.set i (d.handlers i).stopThread, ())
  | .reset => ({ d with handlers := fun i => (d.handlers i).stopThread }, ())
  | .loop i k data =>
    ({ d.set i ((d.handlers i).receiveFunc k data) with
        irq := d.irq || (d.handlers i).loops[k]? == some .trigger }, ())
  | .guest i => (d.serve i, ())

end Driver

/-! ## One receiver -/

namespace Handler

/-- At most one loop runs, and it waits for the semaphore that `XIF_IRQ` posts. -/
def OneReceiver (h : Handler β) : Prop :=
  h.loops.length ≤ 1 ∧ ∀ sem, .blocked sem ∈ h.loops → h.intAck = some sem

/-- `startThread` finds a thread or no loop, or the host fails and no loop waits. -/
def Startable (h : Handler β) (sem thread : Bool) : Prop :=
  h.handlingThread = true ∨ h.loops = [] ∨
    (sem && thread) = false ∧ ∀ sem, .blocked sem ∉ h.loops

variable {h : Handler β}

theorem act_sem (data : List β) (phase : Phase) :
    (h.act data phase).1.calls = h.calls ∧ (h.act data phase).1.ack = h.ack := by
  cases phase with
  | blocked sem => simp only [act]; split_ifs <;> exact ⟨rfl, rfl⟩
  | _ => exact ⟨rfl, rfl⟩

theorem OneReceiver.startThread_iff (hone : h.OneReceiver) (sem thread : Bool) :
    (h.startThread sem thread).OneReceiver ↔ h.Startable sem thread := by
  obtain ⟨hlen, hwait⟩ := hone
  unfold startThread Startable
  cases hthread : h.handlingThread with
  | true => simpa using ⟨hlen, hwait⟩
  | false =>
    -- the new semaphore is not the one that a loop waits for
    have hother : ∀ sem, .blocked sem ∈ h.loops → sem ≠ h.calls + 1 := by
      intro sem hsem heq
      have hack := hwait sem hsem
      simp only [intAck] at hack
      split_ifs at hack
      grind
    cases sem <;> cases thread <;> simp only [OneReceiver, intAck] <;>
      grind [List.length_eq_zero_iff]

theorem OneReceiver.receiveFunc (hone : h.OneReceiver) (k : ℕ) (data : List β) :
    (h.receiveFunc k data).OneReceiver := by
  unfold Handler.receiveFunc
  cases hk : h.loops[k]? with
  | none => exact hone
  | some phase =>
    have hmem := List.mem_of_getElem? hk
    refine ⟨by simpa using hone.1, fun sem hsem => ?_⟩
    obtain ⟨hcalls, hack⟩ := h.act_sem data phase
    have hsame : (h.act data phase).1.intAck = h.intAck := by rw [intAck, intAck, hcalls, hack]
    refine hsame.trans ?_
    obtain hsem | hsem := List.mem_or_eq_of_mem_set hsem
    · exact hone.2 sem hsem
    · cases phase with
      | wait => cases hi : h.intAck <;> simp_all [act]
      | blocked s =>
        simp only [act] at hsem
        split_ifs at hsem
        cases hsem
        exact hone.2 _ hmem
      | _ => cases hsem

theorem OneReceiver.post (hone : h.OneReceiver) : h.post.OneReceiver := by
  unfold Handler.post
  split <;> exact hone

end Handler

namespace Driver

variable {d : Driver n β}

/-- Every interface has one receiver at most. -/
def OneReceiver (d : Driver n β) : Prop := ∀ i, (d.handlers i).OneReceiver

theorem OneReceiver.set_iff (hd : d.OneReceiver) (i : Fin n) (h : Handler β) :
    (d.set i h).OneReceiver ↔ h.OneReceiver :=
  (Function.forall_update_iff _ fun _ h => Handler.OneReceiver h).trans
    (and_iff_left fun j _ => hd j)

/-- No `XIF_START` finds an interface whose receiver was forgotten. -/
def Unforgotten (d : Driver n β) : Event n β → Prop
  | .start i sem thread => (d.handlers i).Startable sem thread
  | _ => True

theorem OneReceiver.step_iff (hd : d.OneReceiver) (e : Event n β) :
    (d.step e).1.OneReceiver ↔ d.Unforgotten e := by
  cases e with
  | start i sem thread => exact (hd.set_iff i _).trans ((hd i).startThread_iff sem thread)
  | stop i => exact iff_of_true ((hd.set_iff i _).2 (hd i)) trivial
  | reset => exact iff_of_true hd trivial
  | loop i k data =>
    have hloop := (hd.set_iff i _).2 ((hd i).receiveFunc k data)
    exact iff_of_true hloop trivial
  | guest i =>
    refine iff_of_true ?_ trivial
    have hpost := fun i => (hd.set_iff i _).2 (hd i).post
    have hread := fun i len => (hd.set_iff i ((d.handlers i).readPacket len)).2 (hd i)
    simp only [step, serve]
    split
    · exact hd
    · split_ifs <;> exact hd
    · exact hd
    · exact hread _ _
    · exact hpost _

/-- Nothing is started. -/
def init : Driver n β := ⟨fun _ => {}, false, .choosing ∅⟩

/-- In every state of a run every interface has one receiver at most, exactly if no `XIF_START` of
    the run finds a receiver that `XIF_STOP` has left behind. -/
theorem one_receiver_iff (es : List (Event n β)) :
    (∀ t, (run step init (es.take t)).OneReceiver) ↔ Along step Unforgotten init es :=
  forall_take_iff_along (fun _ e hd => hd.step_iff e) es init fun _ => ⟨Nat.zero_le 1, nofun⟩

/-- After `XIF_STOP` the thread runs on, and the next `XIF_START` makes a second one. -/
theorem restart_two_receivers :
    ((run step (init : Driver 1 ℕ) [.start 0 true true, .stop 0,
      .start 0 true true]).handlers 0).loops =
      [.recv, .recv] := by
  decide

end Driver

/-! ## Delivery -/

/-- What the guest is about to do for an interface. -/
def Guest.stage (i : Fin n) : Guest n → Option Stage
  | .entered => none
  | .choosing rest => if i ∈ rest then some .length else none
  | .serving j stage rest => if i = j then some stage else if i ∈ rest then some .length else none

namespace Handler

/-- The packet in the buffer. -/
def buffer (h : Handler β) : List β := h.packet.take (min h.packetLength maxPacketSize)

/-- The acknowledges that the receiver has not seen. -/
def acks (h : Handler β) : Option ℕ := h.intAck.map h.count

/-- The receiver has set the bit and does not know of an acknowledge. -/
def Asking (h : Handler β) : Prop :=
  h.pending = true ∧ (h.loops = [.trigger] ∨ h.loops = [.wait] ∨ ∃ sem, h.loops = [.blocked sem])

/-- How an interface stands between its receiver and the guest, who was called or is at a stage. -/
inductive Served (h : Handler β) (called : Prop) : Option Stage → Prop
  | empty (hl : h.loops = [.recv]) (hp : h.pending = false) (ha : h.acks = some 0)
      (hr : h.reads = h.received) : Served h called none
  | unmarked (hl : h.loops = [.mark]) (hp : h.pending = false) (ha : h.acks = some 0)
      (hr : h.received = h.reads ++ [h.buffer]) : Served h called none
  | unread {stage} (hl : h.Asking) (ha : h.acks = some 0) (hr : h.received = h.reads ++ [h.buffer])
      (hs : stage = none ∧ (called ∨ h.loops = [.trigger]) ∨ stage = some .length ∨
        stage = some (.packet h.packetLength)) : Served h called stage
  | read {stage} (hl : h.Asking) (hr : h.reads = h.received)
      (hs : stage = some .ack ∧ h.acks = some 0 ∨ stage = none ∧
        h.acks = some 1) : Served h called stage
  | woken (hl : h.loops = [.clear]) (hp : h.pending) (ha : h.acks = some 0)
      (hr : h.reads = h.received) : Served h called none

theorem Asking.receiveFunc {h : Handler β} (hone : h.OneReceiver) (hl : h.Asking) {n : ℕ}
    (ha : h.acks = some n) (data : List β) :
    (∃ loops, h.receiveFunc 0 data = { h with loops } ∧ { h with loops }.Asking) ∨
      n ≠ 0 ∧ ∃ count, h.receiveFunc 0 data = { h with count, loops := [.clear] } ∧
        { h with count }.acks = some (n - 1) := by
  obtain ⟨hp, hl | hl | ⟨sem, hl⟩⟩ := hl
  · exact .inl ⟨[.wait], by simp [Handler.receiveFunc, hl, act], hp, .inr (.inl rfl)⟩
  · obtain ⟨sem, hsem, -⟩ := Option.map_eq_some_iff.1 ha
    exact .inl ⟨[.blocked sem], by simp [Handler.receiveFunc, hl, act, hsem], hp,
      .inr (.inr ⟨sem, rfl⟩)⟩
  · have hsem := hone.2 sem (by simp [hl])
    obtain rfl : h.count sem = n := by simpa [acks, hsem] using ha
    by_cases hc : h.count sem = 0
    · exact .inl ⟨h.loops, by simp [Handler.receiveFunc, hl, act, hc], hp, .inr (.inr ⟨sem, hl⟩)⟩
    · refine .inr ⟨hc, Function.update h.count sem (h.count sem - 1), ?_, ?_⟩
      · simp [Handler.receiveFunc, hl, act, hc]
      · exact (congrArg (Option.map _) hsem).trans (by simp)

namespace Served

variable {h : Handler β} {called called' : Prop} {stage : Option Stage}

theorem mono (hh : h.Served called stage) (hcall : called → called') : h.Served called' stage := by
  cases hh with
  | empty hl hp ha hr => exact .empty hl hp ha hr
  | unmarked hl hp ha hr => exact .unmarked hl hp ha hr
  | unread hl ha hr hs => exact .unread hl ha hr (hs.imp_left (.imp_right (.imp_left hcall)))
  | read hl hr hs => exact .read hl hr hs
  | woken hl hp ha hr => exact .woken hl hp ha hr

theorem receiveFunc (hone : h.OneReceiver) (hh : h.Served called stage) (k : ℕ) (data : List β) :
    (h.receiveFunc k data).Served (called ∨ h.loops[k]? = some .trigger) stage := by
  cases k with
  | succ k =>
    have hlen := hone.1
    rw [Handler.receiveFunc, List.getElem?_eq_none (by omega)]
    exact hh.mono .inl
  | zero =>
    cases hh with
    | empty hl hp ha hr =>
      simp only [Handler.receiveFunc, hl]
      exact .unmarked rfl hp ha (by simp [act, buffer, hr])
    | unmarked hl hp ha hr =>
      simp only [Handler.receiveFunc, hl]
      exact .unread ⟨rfl, .inl rfl⟩ ha hr (.inl ⟨rfl, .inr rfl⟩)
    | unread hl ha hr hs =>
      obtain ⟨loops, heq, hl'⟩ | ⟨hn, -⟩ := hl.receiveFunc hone ha data
      · rw [heq]
        exact .unread hl' ha hr
          (hs.imp_left (.imp_right fun h => .inl (h.imp_right (by simp +contextual))))
      · exact absurd rfl hn
    | read hl hr hs =>
      obtain ⟨rfl, ha⟩ | ⟨rfl, ha⟩ := hs
      · obtain ⟨loops, heq, hl'⟩ | ⟨hn, -⟩ := hl.receiveFunc hone ha data
        · rw [heq]
          exact .read hl' hr (.inl ⟨rfl, ha⟩)
        · exact absurd rfl hn
      · obtain ⟨loops, heq, hl'⟩ | ⟨-, count, heq, ha'⟩ := hl.receiveFunc hone ha data
        · rw [heq]
          exact .read hl' hr (.inr ⟨rfl, ha⟩)
        · rw [heq]
          exact .woken rfl hl.1 ha' hr
    | woken hl hp ha hr =>
      simp only [Handler.receiveFunc, hl]
      exact .empty rfl rfl ha hr

/-- The guest asks for the pending bits while none belongs to a packet that it has read. -/
theorem query (hh : h.Served called none)
    (hprompt : h.pending = true → h.acks = some 0 ∧ h.loops ≠ [.clear]) (irq : Prop) :
    h.Served irq (if h.pending = true then some .length else none) := by
  cases hh with
  | empty hl hp ha hr => simpa [hp] using .empty hl hp ha hr
  | unmarked hl hp ha hr => simpa [hp] using .unmarked hl hp ha hr
  | unread hl ha hr hs => simpa [hl.1] using .unread hl ha hr (.inr (.inl rfl))
  | read hl hr hs => simp [(hprompt hl.1).1] at hs
  | woken hl hp ha hr => exact absurd hl (hprompt hp).2

theorem readPacketLength (hh : h.Served called (some .length)) :
    h.Served called (some (.packet h.packetLength)) := by
  cases hh with
  | unread hl ha hr hs => exact .unread hl ha hr (.inr (.inr rfl))
  | read hl hr hs => simp at hs

theorem readPacket {len : ℕ} (hh : h.Served called (some (.packet len))) :
    (h.readPacket len).Served called (some .ack) := by
  cases hh with
  | unread hl ha hr hs =>
    obtain rfl : len = h.packetLength := by simpa using hs
    exact .read hl hr.symm (.inl ⟨rfl, ha⟩)
  | read hl hr hs => simp at hs

theorem post (hh : h.Served called (some .ack)) : h.post.Served called none := by
  cases hh with
  | unread hl ha hr hs => simp at hs
  | read hl hr hs =>
    have ha : h.acks = some 0 := by simpa using hs
    obtain ⟨sem, hsem, hc⟩ := Option.map_eq_some_iff.1 ha
    rw [Handler.post, hsem]
    exact .read hl hr (.inr ⟨rfl, (congrArg (Option.map _) hsem).trans (by simp [hc])⟩)

end Served

end Handler

namespace Driver

/-- Every interface has its receiver and is served. -/
def Delivering (d : Driver n β) : Prop :=
  d.OneReceiver ∧ ∀ i, (d.handlers i).Served (d.irq = true ∨ d.guest = .entered) (d.guest.stage i)

/-- The threads run and, when the guest asks for the pending bits, none of them belongs to a packet
that it has acknowledged. -/
def Prompt (d : Driver n β) : Event n β → Prop
  | .loop _ _ _ => True
  | .guest _ => d.guest = .entered → ∀ i, (d.handlers i).pending = true →
      (d.handlers i).acks = some 0 ∧ (d.handlers i).loops ≠ [.clear]
  | _ => False

instance (d : Driver n β) : DecidablePred d.Prompt
  | .loop _ _ _ => .isTrue trivial
  | .guest _ => inferInstanceAs (Decidable (_ → _))
  | .start _ _ _ | .stop _ | .reset => .isFalse id

variable {d : Driver n β}

/-- The guest works on one interface. -/
theorem Delivering.serving (hd : d.Delivering) {i : Fin n} {stage : Stage} {rest : Finset (Fin n)}
    (hg : d.guest = .serving i stage rest) {h : Handler β} {g : Guest n}
    (hi : (d.handlers i).Served (d.irq = true) (some stage) → h.Served (d.irq = true) (g.stage i))
    (hother : ∀ j ≠ i, g.stage j = d.guest.stage j) (j : Fin n) :
    ((d.set i h).handlers j).Served (d.irq = true ∨ g = .entered) (g.stage j) := by
  have hj : (d.handlers j).Served (d.irq = true) (d.guest.stage j) := (hd.2 j).mono (by simp [hg])
  refine .mono ?_ .inl
  by_cases hji : j = i
  · subst hji
    rw [hg, Guest.stage, if_pos rfl] at hj
    simpa [set] using hi hj
  · simpa [set, hji, hother j hji] using hj

/-- One event keeps every interface served. -/
theorem Delivering.step {e : Event n β} (hd : d.Delivering) (he : d.Prompt e) :
    (d.step e).1.Delivering := by
  have hone : d.Unforgotten e := by cases e <;> trivial
  refine ⟨(hd.1.step_iff e).2 hone, fun j => ?_⟩
  cases e with
  | loop i k data =>
    by_cases hj : j = i
    · subst hj
      simpa [Driver.step, set, or_right_comm] using (hd.2 j).receiveFunc (hd.1 j) k data
    · simpa [Driver.step, set, hj] using (hd.2 j).mono (.imp_left .inl)
  | guest i =>
    have hj := hd.2 j
    simp only [Driver.step, serve]
    split <;> rename_i hg
    · rw [hg] at hj
      simpa [Guest.stage, pendingInterrupts] using hj.query (he hg j) _
    · rename_i rest
      rw [hg] at hj
      split_ifs with hi hirq
      · have hstage : (Guest.serving i .length rest).stage j = (Guest.choosing rest).stage j := by
          by_cases hji : j = i <;> simp [Guest.stage, hji, hi]
        simpa [hstage] using hj
      · rw [hirq.1] at hj
        exact hj.mono fun _ => .inr rfl
      · rwa [hg]
    · rename_i i rest
      have hlen := hd.serving hg (h := d.handlers i) (g := .serving i (.packet _) rest)
        (by simpa [Guest.stage] using .readPacketLength)
          (fun j hj => by simp [hg, Guest.stage, hj]) j
      simpa [set] using hlen
    · exact hd.serving hg (by simpa [Guest.stage] using .readPacket)
        (fun j hj => by simp [hg, Guest.stage, hj]) j
    · exact hd.serving hg (by simpa [Guest.stage] using .post)
        (fun j hj => by simp [hg, Guest.stage, hj]) j
  | _ => cases he

/-- One receiver runs for each interface. -/
def started : Driver n β := ⟨fun _ => ({} : Handler β).startThread true true, false, .choosing ∅⟩

/-- All packets but the one in the buffer have been read once, and this one, too, when no interrupt
is under way. -/
theorem delivered_once (es : List (Event n β)) (hes : Along step Prompt started es) (i : Fin n) :
    let d := run step started es
    let h := d.handlers i
    (h.reads = h.received ∨ h.received = h.reads ++ [h.buffer]) ∧
      (d.irq = false → d.guest = .choosing ∅ → .mark ∉ h.loops → .trigger ∉ h.loops →
        h.reads = h.received) := by
  intro d h
  have hinit : (started : Driver n β).Delivering :=
    ⟨fun _ => ⟨le_rfl, by simp [started, Handler.startThread]⟩, fun _ => .empty rfl rfl rfl rfl⟩
  have hd : d.Delivering := run_inv (fun _ _ hd he => hd.step he) es _ hinit hes
  have hi := hd.2 i
  generalize hstage : d.guest.stage i = stage at hi
  cases hi with
  | empty hl hp ha hr => exact ⟨.inl hr, fun _ _ _ _ => hr⟩
  | unmarked hl hp ha hr => exact ⟨.inr hr, fun _ _ hmark => absurd (hl ▸ .head _) hmark⟩
  | unread hl ha hr hs =>
    refine ⟨.inr hr, fun hirq hguest _ htrigger => ?_⟩
    have hnone : stage = none := by rw [← hstage, hguest]; rfl
    have hcall : (d.handlers i).loops = [.trigger] := by simpa [hnone, hirq, hguest] using hs
    exact absurd (hcall ▸ .head _) htrigger
  | read hl hr hs => exact ⟨.inl hr, fun _ _ _ _ => hr⟩
  | woken hl hp ha hr => exact ⟨.inl hr, fun _ _ _ _ => hr⟩

theorem packet_delivered :
    let d := run step (started : Driver 1 ℕ) (.loop 0 0 [1] :: .loop 0 0 [] :: .loop 0 0 [] ::
      .loop 0 0 [] :: List.replicate 6 (.guest 0))
    (d.handlers 0).received = [[1]] ∧ (d.handlers 0).reads = (d.handlers 0).received :=
  ⟨by decide +kernel, (delivered_once _ (by decide +kernel) 0).2 (by decide +kernel)
    (by decide +kernel) (by decide +kernel) (by decide +kernel)⟩

/-- A packet is read again while its receiver wakes up, and the next one is overwritten. -/
theorem packet_overwritten :
    let d := run step (started : Driver 2 ℕ)
      (.flatten [[.loop 0 0 [1]], .replicate 3 (.loop 0 0 []),
      .replicate 6 (.guest 0), .replicate 3 (.loop 1 0 []), .replicate 6 (.guest 0),
      .replicate 2 (.loop 0 0 []), [.loop 0 0 [2]], .replicate 5 (.loop 0 0 []), [.loop 0 0 [3]]])
    (d.handlers 0).received = [[1], [2], [3]] ∧ (d.handlers 0).reads = [[1], [1]] := by
  decide +kernel

end Driver

end Aranym.Network
