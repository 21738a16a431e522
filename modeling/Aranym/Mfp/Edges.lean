/-
  The edge detection of the MFP.

  `setGPIPbit` finds the edges from the old and the new `GPIP_data`, a write to the active-edge
  register from `input` and the old and the new register.  Both are the edges of the same signal,
  `input xor active_edge` on the lines that are inputs, because `GPIP_data` shows `input` there.
-/
import Aranym.Mfp.Model

namespace Aranym.Mfp

open Lib

/-! ## The ports -/

/-- The registers of the general purpose port. -/
structure Ports where
  input : U8
  gpipData : U8
  activeEdge : U8
  dataDirection : U8

variable (m : Mfp) (lines : List ℕ) (p : Ports)

/-- The port registers of the chip. -/
def ports : Ports := ⟨m.input, m.gpipData, m.activeEdge, m.dataDirection⟩

/-- The chip with other port registers. -/
def withPorts : Mfp :=
  { m with
    input := p.input, gpipData := p.gpipData, activeEdge := p.activeEdge
    dataDirection := p.dataDirection }

/-- `GPIP_data` shows the input lines. -/
def Ports.Agree : Prop :=
  ∀ j, p.dataDirection.getLsbD j = false → p.gpipData.getLsbD j = p.input.getLsbD j

/-- The signal of line `j` goes from 1 to 0, and the line is an input. -/
def Ports.edge (p p' : Ports) (j : ℕ) : Bool :=
  !p.dataDirection.getLsbD j && (p.input.getLsbD j ^^ p.activeEdge.getLsbD j) &&
    !(p'.input.getLsbD j ^^ p'.activeEdge.getLsbD j)

/-- `IRQ` for each of the lines. -/
def request : Mfp := lines.foldl (fun m j => m.irq (mapGpipToIer j) 1) m

/-- The lines with an edge, in the order of the loops. -/
def Ports.edges (p p' : Ports) : List ℕ := (List.range 8).filter (p.edge p')

/-! ## Requests and ports -/

theorem irq_withPorts (level : ℕ) (count : ℤ) :
    (m.withPorts p).irq level count = (m.irq level count).withPorts p := by
  unfold irq
  by_cases h5 : level = 5 <;> simp only [h5, if_true, if_false, withPorts] <;> split_ifs <;> rfl

theorem irq_ports (level : ℕ) (count : ℤ) : (m.irq level count).ports = m.ports := by
  unfold irq
  by_cases h5 : level = 5 <;> simp only [h5, if_true, if_false] <;> split_ifs <;> rfl

theorem request_withPorts (m : Mfp) (p : Ports) :
    (m.withPorts p).request lines = (m.request lines).withPorts p := by
  induction lines generalizing m with
  | nil => rfl
  | cons j lines ih =>
    simp only [request, List.foldl_cons, irq_withPorts] at ih ⊢
    exact ih _

theorem request_ports (m : Mfp) : (m.request lines).ports = m.ports := by
  induction lines generalizing m with
  | nil => rfl
  | cons j lines ih =>
    simp only [request, List.foldl_cons] at ih ⊢
    rw [ih, irq_ports]

theorem irqLines_eq_request (p : ℕ → Bool) (m : Mfp) :
    m.irqLines p = m.request ((List.range 8).filter p) := by
  unfold irqLines request
  rw [List.foldl_filter]

theorem irqLines_congr {p q : ℕ → Bool} (h : ∀ j < 8, p j = q j) (m : Mfp) :
    m.irqLines p = m.request ((List.range 8).filter q) := by
  rw [irqLines_eq_request]
  congr 1
  exact List.filter_congr fun j hj => h j (List.mem_range.1 hj)

theorem irqLines_ports (p : ℕ → Bool) (m : Mfp) : (m.irqLines p).ports = m.ports := by
  rw [irqLines_eq_request, request_ports]

/-! ## The accesses to the ports -/

/-- The ports after `setGPIPbit`. -/
def Ports.setGPIPbit (mask value : U8) : Ports :=
  { p with
    input := (p.input &&& ~~~mask) ||| (value &&& mask)
    gpipData := (p.gpipData &&& ~~~(mask &&& ~~~p.dataDirection)) |||
      (value &&& (mask &&& ~~~p.dataDirection)) }

theorem setGPIPbit_ports (mask value : U8) :
    (m.setGPIPbit mask value).ports = m.ports.setGPIPbit mask value := irqLines_ports _ _

theorem Ports.Agree.setGPIPbit {p : Ports} (h : p.Agree) (mask value : U8) :
    (p.setGPIPbit mask value).Agree := by
  intro j hj
  have := h j hj
  by_cases hj8 : j < 8 <;> simp_all [Ports.setGPIPbit]

/-- `setGPIPbit` compares `GPIP_data`, but on the inputs this is the signal. -/
theorem setGPIPbit_eq {m : Mfp} (h : m.ports.Agree) (mask value : U8) : m.setGPIPbit mask value =
      (m.withPorts (m.ports.setGPIPbit mask value)).request
        (m.ports.edges (m.ports.setGPIPbit mask value)) := by
  refine irqLines_congr (fun j hj => ?_) _
  have h' := h.setGPIPbit mask value j
  have hj' := h j
  simp only [Ports.edge, Ports.setGPIPbit, ports] at h' hj' ⊢
  cases hd : m.dataDirection.getLsbD j with
  | true =>
    -- an output keeps its data
    have hsame : ((m.gpipData &&& ~~~(mask &&& ~~~m.dataDirection)) |||
      (value &&& (mask &&& ~~~m.dataDirection))).getLsbD j =
        m.gpipData.getLsbD j := by
      simp only [BitVec.getLsbD_or, BitVec.getLsbD_and, BitVec.getLsbD_not, hd, hj, decide_true,
        Bool.not_true, Bool.and_false, Bool.not_false, Bool.and_true, Bool.or_false]
    rw [hsame]
    simp
  | false =>
    rw [← h' hd, ← hj' hd]
    generalize BitVec.getLsbD (_ ||| _) j = new
    cases m.gpipData.getLsbD j <;> cases new <;> cases m.activeEdge.getLsbD j <;> rfl

theorem setActiveEdge_eq (value : U8) : m.setActiveEdge value =
      (m.withPorts { m.ports with activeEdge := value }).request
        (m.ports.edges { m.ports with activeEdge := value }) := by
  have hlines : m.irqLines (fun j => m.activeEdge.getLsbD j ≠ value.getLsbD j &&
    !m.dataDirection.getLsbD j &&
      m.activeEdge.getLsbD j ≠ m.input.getLsbD j) =
      m.request (m.ports.edges { m.ports with activeEdge := value }) := by
    refine irqLines_congr (fun j _ => ?_) m
    simp only [Ports.edge, ports]
    cases m.dataDirection.getLsbD j <;> cases m.input.getLsbD j <;> cases m.activeEdge.getLsbD j <;>
      cases value.getLsbD j <;> rfl
  have hports := request_ports (m.ports.edges { m.ports with activeEdge := value }) m
  rw [request_withPorts]
  unfold setActiveEdge
  dsimp only
  rw [hlines]
  generalize m.request _ = r at hports ⊢
  rw [← hports]
  rfl

theorem handleWrite_agree {m : Mfp} (h : m.ports.Agree) (addr : U32) (value : U8) :
    (m.handleWrite addr value).ports.Agree := by
  unfold handleWrite
  by_cases ha : addr - hwOffset > hwSize
  · rw [if_pos ha]; exact h
  rw [if_neg ha]
  split
  case h_1 =>
    intro j hj
    have := h j hj
    by_cases hj8 : j < 8 <;> simp_all [ports]
  case h_2 =>
    rw [setActiveEdge_eq, request_ports]
    exact h
  case h_3 =>
    intro j hj
    by_cases hj8 : j < 8 <;> simp_all [ports]
  case h_6 | h_7 =>
    unfold writePending
    dsimp only
    split_ifs <;> exact h
  case h_8 | h_9 =>
    unfold writeInservice
    dsimp only
    split_ifs <;> exact h
  case h_12 =>
    unfold writeVr
    dsimp only
    split_ifs <;> exact h
  all_goals exact h

theorem handleRead_ports (busy : U8) (addr : U32) : (m.handleRead busy addr).2.ports = m.ports := by
  unfold handleRead
  by_cases ha : addr - hwOffset > hwSize
  · rw [if_pos ha]
  rw [if_neg ha]
  split <;> rfl

theorem doInterrupt_ports : m.doInterrupt.2.ports = m.ports := by
  have hdrop : ∀ j, (m.dropRequest j).ports = m.ports := by
    intro j
    unfold dropRequest
    by_cases h5 : j = 5 <;> simp only [h5, if_true, if_false] <;> split_ifs <;> rfl
  have hserve : ∀ (m' : Mfp) j, (m'.enterService j).ports = m'.ports := by
    intro m' j
    unfold enterService
    split_ifs <;> rfl
  unfold doInterrupt
  split
  · rfl
  · split_ifs
    · rfl
    · exact (hserve _ _).trans (hdrop _)

theorem serveMfp_ports : m.serveMfp.2.ports = m.ports := by
  have hd := doInterrupt_ports m
  unfold serveMfp
  dsimp only
  split_ifs
  · exact hd
  · exact hd
  · rfl

theorem agree_step {m : Mfp} (h : m.ports.Agree) : ∀ op, (m.step op).1.ports.Agree
  | .write addr value => handleWrite_agree h addr value
  | .read busy addr => (handleRead_ports m busy addr).symm ▸ h
  | .irq level count => (irq_ports m level count).symm ▸ h
  | .setGPIPbit mask value => (setGPIPbit_ports m mask value).symm ▸ h.setGPIPbit mask value
  | .doInterrupt => (doInterrupt_ports m).symm ▸ h
  | .serve => (serveMfp_ports m).symm ▸ h

theorem agree_after (ops : List Op) : (m.after ops).ports.Agree :=
  @run_inv_all _ _ _ step (fun m => m.ports.Agree) (fun _ op h => agree_step h op) ops _
    fun _ _ => rfl

/-- An access to the ports changes these and requests, in order, the input lines whose signal
    `input xor active_edge` goes from 1 to 0. -/
structure DetectsEdges (m : Mfp) : Prop where
  agree : m.ports.Agree
  setGPIPbit (mask value : U8) : m.setGPIPbit mask value =
    (m.withPorts (m.ports.setGPIPbit mask value)).request
      (m.ports.edges (m.ports.setGPIPbit mask value))
  activeEdge (value : U8) : m.handleWrite (hwOffset + 3) value =
    (m.withPorts { m.ports with activeEdge := value }).request
      (m.ports.edges { m.ports with activeEdge := value })
  /-- writes to `GPIP` and to the direction register request nothing -/
  quiet (value : U8) : ∀ addr ∈ [hwOffset + 1, hwOffset + 5],
    m.handleWrite addr value = m.withPorts (m.handleWrite addr value).ports

/-- **Edge detection.**  In every state reached from a reset `GPIP_data` shows the input lines, and
    the edges are detected. -/
theorem edges_requested (ops : List Op) : DetectsEdges (m.after ops) where
  agree := agree_after m ops
  setGPIPbit := setGPIPbit_eq (agree_after m ops)
  activeEdge value := setActiveEdge_eq _ value
  quiet value addr haddr := by
    simp only [List.mem_cons, List.not_mem_nil, or_false] at haddr
    rcases haddr with rfl | rfl <;> rfl

end Aranym.Mfp
