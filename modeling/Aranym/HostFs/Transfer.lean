/-
  Reading and writing open files (`xfs_dev_read`, `xfs_dev_write`).

  A transfer is cut into pieces of 8 KB.  `answers i` is what the host says to
  the `i`-th call: an error, or a bound on the bytes it moves.  The result is
  the number of bytes moved, unless the last call failed; what was moved before
  is then not reported.

  Guest memory is a function of its addresses, and every address can be read
  and written.
-/
import Aranym.HostFs.Names
import Aranym.Lib.Storage

namespace Aranym.HostFs

open Lib List

/-- A byte. -/
abbrev Byte := U8

/-- The guest's memory. -/
abbrev Ram := U32 → Byte

/-- A file that is open on the host. -/
structure HostFile where
  bytes : List Byte
  pos : ℕ
  /-- `O_APPEND`, bit 12 of the flags of the guest. -/
  append : Bool

/-- The file and the memory. -/
structure Transfer where
  file : HostFile
  ram : Ram

/-- `FRDWR_BUFFER_LENGTH`. -/
def frdwrBufferLength : ℕ := 8192

section
variable (answers : ℕ → Except Errno ℕ)

/-- `read` of at most `n` bytes. -/
def HostFile.read (file : HostFile) (answer n : ℕ) : List Byte :=
  (file.bytes.drop file.pos).take (min answer n)

/-- `write`, of which the host takes all the bytes given. -/
def HostFile.write (file : HostFile) (data : List Byte) : HostFile :=
  let start := if file.append then file.bytes.length else file.pos
  if data = [] then file
  else { file with bytes := overwrite 0 file.bytes start data, pos := start + data.length }

/-- With the failure of the last call and `toRead`; there are at most `fuel` calls. -/
def devReadLoop : ℕ → ℕ → ℕ → U32 → Transfer → Option Errno × ℕ × Transfer
  | 0, _, toRead, _, x => (none, toRead, x)
  | fuel + 1, i, toRead, destBuff, x =>
    if toRead = 0 then (none, toRead, x)
    else
      match answers i with
      | .error e => (some e, toRead, x)
      | .ok answer =>
        let fBuff := x.file.read answer (min toRead frdwrBufferLength)
        if fBuff.length = 0 then (none, toRead, x)
        else
          devReadLoop fuel (i + 1) (toRead - fBuff.length) (destBuff + .ofNat 32 fBuff.length)
            ⟨{ x.file with pos := x.file.pos + fBuff.length }, store x.ram destBuff fBuff⟩

/-- The result of a transfer: `int32`, from a count of 64 bits. -/
def transferResult (count : U32) : Option Errno → ℕ → Int
  | some e, _ => (errnoHost2Mint e .eintrn).code
  | none, todo => (BitVec.ofNat 32 (count.toNat - todo)).toInt

/-- Reads a file. -/
def xfsDevRead (x : Transfer) (buffer count : U32) : Int × Transfer :=
  let (failure, toRead, x) := devReadLoop answers count.toNat 0 count.toNat buffer x
  (transferResult count failure toRead, x)

/-- Buffer by buffer. -/
def devWriteLoop : ℕ → ℕ → ℕ → U32 → Transfer → Option Errno × ℕ × Transfer
  | 0, _, toWrite, _, x => (none, toWrite, x)
  | fuel + 1, i, toWrite, sourceBuff, x =>
    if toWrite = 0 then (none, toWrite, x)
    else
      let fBuff := load x.ram sourceBuff (min toWrite frdwrBufferLength)
      match answers i with
      | .error e => (some e, toWrite, x)
      | .ok answer =>
        let written := fBuff.take answer
        if written.length = 0 then (none, toWrite, x)
        else
          devWriteLoop fuel (i + 1) (toWrite - written.length)
            (sourceBuff + .ofNat 32 written.length) { x with file := x.file.write written }

/-- Writes a file. -/
def xfsDevWrite (x : Transfer) (buffer count : U32) : Int × Transfer :=
  let (failure, toWrite, x) := devWriteLoop answers count.toNat 0 count.toNat buffer x
  (transferResult count failure toWrite, x)

end

/-! ## Loops -/

variable {answers : ℕ → Except Errno ℕ} {x : Transfer} {buffer : U32} {count fuel i t : ℕ}

/-- What the `i`-th call reads when `t` bytes were read before. -/
def readMove (answers : ℕ → Except Errno ℕ) (file : HostFile) (count i t : ℕ) : Except Errno ℕ :=
  (answers i).map fun answer =>
    ({ file with pos := file.pos + t }.read answer (min (count - t) frdwrBufferLength)).length

/-- What the `i`-th call writes when `t` bytes were written before. -/
def writeMove (answers : ℕ → Except Errno ℕ) (count i t : ℕ) : Except Errno ℕ :=
  (answers i).map fun answer => min answer (min (count - t) frdwrBufferLength)

/-- `t` bytes are read. -/
def Transfer.readBy (x : Transfer) (buffer : U32) (t : ℕ) : Transfer :=
  ⟨{ x.file with pos := x.file.pos + t },
    store x.ram buffer ((x.file.bytes.drop x.file.pos).take t)⟩

/-- `t` bytes are written. -/
def Transfer.writeBy (x : Transfer) (buffer : U32) (t : ℕ) : Transfer :=
  { x with file := x.file.write (load x.ram buffer t) }

theorem readBy_zero : x.readBy buffer 0 = x := by
  unfold Transfer.readBy
  rfl

theorem writeBy_zero : x.writeBy buffer 0 = x := rfl

theorem readBy_add {k : ℕ} (ht : t ≤ (x.file.bytes.drop x.file.pos).length) (hk : t + k ≤ 2 ^ 32) :
    (⟨{ (x.readBy buffer t).file with pos := (x.readBy buffer t).file.pos + k },
      store (x.readBy buffer t).ram (buffer + .ofNat 32 t)
        ((x.file.bytes.drop (x.file.pos + t)).take k)⟩ : Transfer) = x.readBy buffer (t + k) := by
  have hlen : ((x.file.bytes.drop x.file.pos).take t).length = t := by
    rw [length_take]
    omega
  have hpiece : (x.file.bytes.drop x.file.pos).take (t + k) =
      (x.file.bytes.drop x.file.pos).take t ++ (x.file.bytes.drop (x.file.pos + t)).take k := by
    rw [take_add, drop_drop]
  have hroom : ((x.file.bytes.drop x.file.pos).take t).length +
      ((x.file.bytes.drop (x.file.pos + t)).take k).length ≤ 2 ^ 32 := by
    rw [hlen, length_take]
    omega
  have hstore := store_append x.ram buffer hroom
  rw [hlen, ← hpiece] at hstore
  simp only [Transfer.readBy, hstore, Nat.add_assoc]

theorem write_append (file : HostFile) (d₁ d₂ : List Byte) :
    (file.write d₁).write d₂ = file.write (d₁ ++ d₂) := by
  by_cases h1 : d₁ = []
  · simp [HostFile.write, h1]
  by_cases h2 : d₂ = []
  · simp [HostFile.write, h2]
  simp only [HostFile.write, h1, h2, if_false, append_eq_nil_iff, false_and, length_append]
  cases happ : file.append with
  | true =>
    -- the file ends behind the first piece
    have hend : (overwrite 0 file.bytes file.bytes.length d₁).length =
        file.bytes.length + d₁.length := by
      rw [length_overwrite _ _ _ h1]
      omega
    simp only [if_true, hend, overwrite_append, Nat.add_assoc]
  | false => simp [overwrite_append, Nat.add_assoc]

theorem writeBy_add (x : Transfer) (buffer : U32) (t k : ℕ) :
    (x.writeBy buffer t).file.write (load x.ram (buffer + .ofNat 32 t) k) =
      (x.writeBy buffer (t + k)).file := by
  rw [Transfer.writeBy, write_append, ← load_append]
  rfl

section

variable (answers : ℕ → Except Errno ℕ)

variable (x : Transfer)

theorem devReadLoop_spec (buffer : U32) (hcount : count < 2 ^ 32) :
    ∃ T f, Ends (readMove answers x.file count) count T f ∧
    (T ≤ count ∧ T ≤ (x.file.bytes.drop x.file.pos).length) ∧
      devReadLoop answers count 0 (count - 0) (buffer + .ofNat 32 0) (x.readBy buffer 0) =
        (f, count - T, x.readBy buffer T) := by
  refine Stage.runs (fun t => t ≤ count ∧
    t ≤ (x.file.bytes.drop x.file.pos).length) (x.readBy buffer)
    (fun fuel i t => devReadLoop answers fuel i (count - t) (buffer + .ofNat 32 t)
      (x.readBy buffer t))
    (fun fuel i t h => ?_) (fun fuel i t hP ht => ?_) count .start ⟨Nat.zero_le _, Nat.zero_le _⟩
      (Nat.sub_le _ _)
  · cases fuel with
    | zero => rfl
    | succ fuel => exact if_pos (by omega)
  rw [devReadLoop, if_neg (by omega), readMove]
  cases answers i with
  | error e => rfl
  | ok answer =>
    have hread := take_eq_take_min (l := x.file.bytes.drop (x.file.pos + t))
      (i := min answer (min (count - t) frdwrBufferLength))
    have hk : ((x.file.bytes.drop (x.file.pos + t)).take
      (min answer (min (count - t) frdwrBufferLength))).length ≤
        min (count - t) ((x.file.bytes.drop x.file.pos).length - t) := by
      rw [length_take, length_drop, length_drop]
      omega
    rw [← length_take] at hread
    dsimp only [Except.map, Transfer.readBy, HostFile.read]
    generalize ((x.file.bytes.drop (x.file.pos + t)).take
      (min answer (min (count - t) frdwrBufferLength))).length = k
      at hread hk ⊢
    cases k with
    | zero => rfl
    | succ k =>
      refine ⟨by omega, ?_⟩
      rw [if_neg (Nat.succ_ne_zero k), hread, BitVec.add_assoc, ← BitVec.ofNat_add,
        ← Nat.sub_add_eq]
      exact congrArg (devReadLoop answers fuel (i + 1) _ _)
        (readBy_add hP.2 (k := k + 1) (by omega))

theorem devWriteLoop_spec (buffer : U32) (count : ℕ) :
    ∃ T f, Ends (writeMove answers count) count T f ∧ T ≤ count ∧
      devWriteLoop answers count 0 (count - 0) (buffer + .ofNat 32 0) (x.writeBy buffer 0) =
        (f, count - T, x.writeBy buffer T) := by
  refine Stage.runs (· ≤ count) (x.writeBy buffer)
    (fun fuel i t => devWriteLoop answers fuel i (count - t) (buffer + .ofNat 32 t)
      (x.writeBy buffer t))
    (fun fuel i t h => ?_) (fun fuel i t _ ht => ?_) count .start (Nat.zero_le _) (Nat.sub_le _ _)
  · cases fuel with
    | zero => rfl
    | succ fuel => exact if_pos (by omega)
  rw [devWriteLoop, if_neg (by omega), writeMove]
  cases answers i with
  | error e => rfl
  | ok answer =>
    dsimp only [Except.map]
    rw [take_load, length_load]
    have hk : min answer (min (count - t) frdwrBufferLength) ≤ count - t := by omega
    generalize min answer (min (count - t) frdwrBufferLength) = k at hk ⊢
    cases k with
    | zero => rfl
    | succ k =>
      refine ⟨by omega, ?_⟩
      rw [if_neg (Nat.succ_ne_zero k), BitVec.add_assoc, ← BitVec.ofNat_add, ← Nat.sub_add_eq]
      exact congrArg
        (fun file => devWriteLoop answers fuel (i + 1) (count - (t + (k + 1))) _
        { x with file := file })
        (writeBy_add x buffer t (k + 1))

/-! ## Accounts -/

/-- `r` accounts for what a read moved: exactly `r` bytes if it is not negative, none otherwise. -/
structure ReadAccounted (x x' : Transfer) (buffer : U32) (r : Int) : Prop where
  moved : 0 ≤ r → r.toNat ≤ (x.file.bytes.drop x.file.pos).length ∧
    x'.file = { x.file with pos := x.file.pos + r.toNat } ∧
    x'.ram = store x.ram buffer ((x.file.bytes.drop x.file.pos).take r.toNat)
  kept : r < 0 → x' = x

/-- The same for a write. -/
structure WriteAccounted (x x' : Transfer) (buffer : U32) (r : Int) : Prop where
  moved : 0 ≤ r → x'.ram = x.ram ∧ x'.file.pos = x.file.pos + r.toNat ∧
    x'.file.bytes = overwrite 0 x.file.bytes x.file.pos (load x.ram buffer r.toNat)
  kept : r < 0 → x' = x

/-- The host moves fewer than `2 ^ 31` bytes, and a call that fails is the first one. -/
def Clean (move : ℕ → ℕ → Except Errno ℕ) (count : ℕ) : Prop :=
  ∀ i t, Stage move count i t → t < 2 ^ 31 ∧ ∀ e, t < count → move i t = .error e → t = 0

variable {T : ℕ} {f : Option Errno}

theorem clean_iff {move : ℕ → ℕ → Except Errno ℕ}
    (h : Ends move count T f) : Clean move count ↔ T < 2 ^ 31 ∧ (f ≠ none → T = 0) := by
  constructor
  · intro hclean
    obtain ⟨j, hj, -⟩ := h.last
    refine ⟨(hclean j T hj.1).1, fun hf => ?_⟩
    cases h with
    | all => exact absurd rfl hf
    | dry => exact absurd rfl hf
    | failure hs ht hm => exact (hclean _ T hs).2 _ ht hm
  · rintro ⟨hT, hf⟩ i t hs
    refine ⟨Nat.lt_of_le_of_lt (h.le_of_stage hs) hT, fun e ht hm => ?_⟩
    obtain ⟨rfl, rfl⟩ := h.of_error hs ht hm
    exact hf (by simp)

theorem code_neg (e : Tos) : e.code < 0 := by
  cases e <;> decide

/-- The result is not negative exactly if no call failed and the count fits into 31 bits. -/
theorem transferResult_eq {count : U32} (hT : T ≤ count.toNat) (f : Option Errno) :
    (f = none ∧ T < 2 ^ 31 ∧ transferResult count f (count.toNat - T) = T) ∨
      ((f ≠ none ∨ 2 ^ 31 ≤ T) ∧ transferResult count f (count.toNat - T) < 0) := by
  cases f with
  | some e => exact .inr ⟨.inl (by simp), code_neg _⟩
  | none =>
    have hres : transferResult count none (count.toNat - T) =
        if 2 * T < 2 ^ 32 then (T : Int) else T - 2 ^ 32 := by
      rw [transferResult, Nat.sub_sub_self hT, BitVec.toInt_eq_toNat_cond, BitVec.toNat_ofNat,
        Nat.mod_eq_of_lt (by omega)]
      norm_cast
    rw [hres]
    by_cases hsmall : T < 2 ^ 31
    · rw [if_pos (by omega)]
      exact .inl ⟨rfl, hsmall, rfl⟩
    · rw [if_neg (by omega)]
      exact .inr ⟨.inr (by omega), by omega⟩

theorem xfsDevRead_eq (buffer count : U32) :
    ∃ T f, Ends (readMove answers x.file count.toNat) count.toNat T f ∧ T ≤ count.toNat ∧
      T ≤ (x.file.bytes.drop x.file.pos).length ∧ xfsDevRead answers x buffer count =
        (transferResult count f (count.toNat - T), x.readBy buffer T) := by
  obtain ⟨T, f, hend, ⟨hT, hlen⟩, heq⟩ := devReadLoop_spec answers x buffer count.isLt
  refine ⟨T, f, hend, hT, hlen, ?_⟩
  rw [readBy_zero, Nat.sub_zero, BitVec.add_zero] at heq
  rw [xfsDevRead, heq]

theorem xfsDevWrite_eq (buffer count : U32) :
    ∃ T f, Ends (writeMove answers count.toNat) count.toNat T f ∧ T ≤ count.toNat ∧
      xfsDevWrite answers x buffer count =
        (transferResult count f (count.toNat - T), x.writeBy buffer T) := by
  obtain ⟨T, f, hend, hT, heq⟩ := devWriteLoop_spec answers x buffer count.toNat
  refine ⟨T, f, hend, hT, ?_⟩
  rw [writeBy_zero, Nat.sub_zero, BitVec.add_zero] at heq
  rw [xfsDevWrite, heq]

end

theorem readAccounted_iff {count : U32} (hT : T ≤ count.toNat)
    (hlen : T ≤ (x.file.bytes.drop x.file.pos).length) :
    ReadAccounted x (x.readBy buffer T) buffer (transferResult count f (count.toNat - T)) ↔
      T < 2 ^ 31 ∧ (f ≠ none → T = 0) := by
  rcases transferResult_eq hT f with ⟨hf, hsmall, hr⟩ | ⟨hbad, hneg⟩
  · refine iff_of_true ⟨fun _ => ?_, fun hlt => ?_⟩ ⟨hsmall, fun h => absurd hf h⟩
    · rw [hr, Int.toNat_natCast]
      exact ⟨hlen, rfl, rfl⟩
    · rw [hr] at hlt
      omega
  · constructor
    · intro h
      have hpos := congrArg (fun x : Transfer => x.file.pos) (h.kept hneg)
      have hT0 : T = 0 := by
        simp only [Transfer.readBy] at hpos
        omega
      exact ⟨by omega, fun _ => hT0⟩
    · rintro ⟨hsmall, hf⟩
      have hT0 : T = 0 := hbad.elim hf fun h => by omega
      subst hT0
      exact ⟨fun h => absurd h (Int.not_le.2 hneg), fun _ => rfl⟩

theorem eq_zero_of_writeBy_eq (h : x.writeBy buffer T = x) : T = 0 := by
  by_contra hT
  have hd : load x.ram buffer T ≠ [] := by
    rw [← length_pos_iff, length_load]
    omega
  have hpos := congrArg (fun x : Transfer => x.file.pos) h
  have hlen := congrArg (fun x : Transfer => x.file.bytes.length) h
  simp only [Transfer.writeBy, HostFile.write, hd, if_false, length_load,
    length_overwrite _ _ _ hd] at hpos hlen
  cases happ : x.file.append with
  | true =>
    simp only [happ, if_true] at hlen
    omega
  | false =>
    simp only [happ, Bool.false_eq_true, if_false] at hpos
    omega

/-- A write is accounted for unless it failed late, is too long, or was appended elsewhere. -/
theorem writeAccounted_iff {count : U32} (hT : T ≤ count.toNat) :
    WriteAccounted x (x.writeBy buffer T) buffer (transferResult count f (count.toNat - T)) ↔
      (T < 2 ^ 31 ∧ (f ≠ none → T = 0)) ∧
      (x.file.append → x.file.pos = x.file.bytes.length ∨ T = 0) := by
  rcases transferResult_eq hT f with ⟨hf, hsmall, hr⟩ | ⟨hbad, hneg⟩
  · have hd : load x.ram buffer T = [] ↔ T = 0 := by
      rw [← length_eq_zero_iff, length_load]
    rw [hr]
    constructor
    · intro h
      refine ⟨⟨hsmall, fun h => absurd hf h⟩, fun happ => ?_⟩
      obtain ⟨-, hpos, -⟩ := h.moved (Int.natCast_nonneg T)
      by_cases hT0 : T = 0
      · exact .inr hT0
      · simp only [Transfer.writeBy, HostFile.write, mt hd.1 hT0, happ, if_true, if_false,
          length_load, Int.toNat_natCast] at hpos
        exact .inl (by omega)
    · rintro ⟨-, happ⟩
      refine ⟨fun _ => ?_, fun hlt => absurd hlt (Int.not_lt.2 (Int.natCast_nonneg T))⟩
      rw [Int.toNat_natCast]
      refine ⟨rfl, ?_⟩
      by_cases hT0 : T = 0
      · subst hT0
        exact ⟨rfl, rfl⟩
      · have hstart : (if x.file.append then x.file.bytes.length else x.file.pos) = x.file.pos := by
          split_ifs with h
          · exact ((happ h).resolve_right hT0).symm
          · rfl
        simp only [Transfer.writeBy, HostFile.write, mt hd.1 hT0, if_false, hstart,
          length_load, and_self]
  · constructor
    · intro h
      have hT0 := eq_zero_of_writeBy_eq (h.kept hneg)
      exact ⟨⟨by omega, fun _ => hT0⟩, fun _ => .inr hT0⟩
    · rintro ⟨⟨hsmall, hf⟩, -⟩
      have hT0 : T = 0 := hbad.elim hf fun h => by omega
      subst hT0
      exact ⟨fun h => absurd h (Int.not_le.2 hneg), fun _ => rfl⟩

/-- The result accounts for every byte exactly if the host fails, if at all, in its first call,
    moves fewer than `2 ^ 31` bytes and, in a write, puts them at the position of the file. -/
theorem transfers_account_iff (answers : ℕ → Except Errno ℕ) (x : Transfer) (buffer count : U32) :
    (ReadAccounted x (xfsDevRead answers x buffer count).2 buffer
        (xfsDevRead answers x buffer count).1 ↔
      Clean (readMove answers x.file count.toNat) count.toNat) ∧
    (WriteAccounted x (xfsDevWrite answers x buffer count).2 buffer
        (xfsDevWrite answers x buffer count).1 ↔
      Clean (writeMove answers count.toNat) count.toNat ∧
        (x.file.append → x.file.pos = x.file.bytes.length ∨
          ∀ i t, Stage (writeMove answers count.toNat) count.toNat i t → t = 0)) := by
  constructor
  · obtain ⟨T, f, hend, hT, hlen, heq⟩ := xfsDevRead_eq answers x buffer count
    rw [heq, clean_iff hend]
    exact readAccounted_iff hT hlen
  · obtain ⟨T, f, hend, hT, heq⟩ := xfsDevWrite_eq answers x buffer count
    have hzero : (∀ i t, Stage (writeMove answers count.toNat) count.toNat i t →
        t = 0) ↔ T = 0 := by
      constructor
      · intro h
        obtain ⟨j, hj, -⟩ := hend.last
        exact h j T hj.1
      · rintro rfl i t hs
        exact Nat.le_zero.1 (hend.le_of_stage hs)
    rw [heq, clean_iff hend, hzero]
    exact writeAccounted_iff hT

/-- One byte is moved, then the host fails. -/
def oneThenFail (i : ℕ) : Except Errno ℕ := if i = 0 then .ok 1 else .error .eio

/-- Both calls return the error alone, and the byte that was moved before is not accounted for. -/
theorem late_failure_hides_bytes :
    ¬ ReadAccounted ⟨⟨[1, 2], 0, false⟩, fun _ => 0⟩
        (xfsDevRead oneThenFail ⟨⟨[1, 2], 0, false⟩, fun _ => 0⟩ 0 2).2 0
        (xfsDevRead oneThenFail ⟨⟨[1, 2], 0, false⟩, fun _ => 0⟩ 0 2).1 ∧
      ¬ WriteAccounted ⟨⟨[], 0, false⟩, fun _ => 0⟩
        (xfsDevWrite oneThenFail ⟨⟨[], 0, false⟩, fun _ => 0⟩ 0 2).2 0
        (xfsDevWrite oneThenFail ⟨⟨[], 0, false⟩, fun _ => 0⟩ 0 2).1 := by
  constructor
  all_goals
    intro h
    have hpos := congrArg (fun x : Transfer => x.file.pos) (h.kept (by decide))
    exact absurd hpos (by decide)

end Aranym.HostFs
