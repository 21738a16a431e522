/-
  What a request does.

  Whatever its start and count, a request is one write over the image or one
  copy from it, of the sectors that are in the image; requests that do not get
  that far change nothing.
-/
import Aranym.Xhdi.Model

namespace Aranym.Xhdi

open Lib List Nat

/-! ## Buffers -/

@[simp] theorem length_byteSwapBuf : ∀ buf : List Byte, (byteSwapBuf buf).length = buf.length
  | [] => rfl
  | [_] => rfl
  | _ :: _ :: buf => by rw [byteSwapBuf, length_cons, length_cons, length_byteSwapBuf buf]; rfl

theorem byteSwapBuf_byteSwapBuf : ∀ buf : List Byte, byteSwapBuf (byteSwapBuf buf) = buf
  | [] => rfl
  | [_] => rfl
  | a :: b :: buf => by rw [byteSwapBuf, byteSwapBuf, byteSwapBuf_byteSwapBuf buf]

theorem byteSwapBuf_append {n : ℕ} : ∀ {buf : List Byte}, buf.length = 2 * n → ∀ buf' : List Byte,
    byteSwapBuf (buf ++ buf') = byteSwapBuf buf ++ byteSwapBuf buf' := by
  induction n with
  | zero =>
    intro buf hlen buf'
    rw [List.length_eq_zero_iff.1 hlen]
    rfl
  | succ n ih =>
    intro buf hlen buf'
    match buf, hlen with
    | a :: b :: buf, hlen =>
      have hlen' : buf.length = 2 * n := by
        simp only [length_cons] at hlen
        omega
      rw [cons_append, cons_append, byteSwapBuf, byteSwapBuf, ih hlen', cons_append, cons_append]

section
variable (disk : Disk)

@[simp] theorem length_convert (buf : List Byte) : (disk.convert buf).length = buf.length := by
  unfold Disk.convert
  split_ifs
  · rfl
  · exact length_byteSwapBuf buf

@[simp] theorem convert_nil : disk.convert [] = [] := List.length_eq_zero_iff.1 (by simp)

theorem convert_convert (buf : List Byte) : disk.convert (disk.convert buf) = buf := by
  unfold Disk.convert
  split_ifs
  · rfl
  · exact byteSwapBuf_byteSwapBuf buf

theorem convert_append {n : ℕ} {buf : List Byte} (hlen : buf.length = n * blockSize)
    (buf' : List Byte) : disk.convert (buf ++ buf') = disk.convert buf ++ disk.convert buf' := by
  unfold Disk.convert
  split_ifs
  · rfl
  · refine byteSwapBuf_append (n := n * 256) ?_ buf'
    rw [hlen, blockSize]
    omega

theorem convert_slice (a n : ℕ) {buf : List Byte} (h : (a + n) * blockSize ≤ buf.length) :
    disk.convert (slice buf (a * blockSize) (n * blockSize)) =
      slice (disk.convert buf) (a * blockSize) (n * blockSize) := by
  rw [Nat.add_mul] at h
  have hl : (buf.take (a * blockSize)).length = a * blockSize := by
    rw [length_take]
    omega
  have hm : (slice buf (a * blockSize) (n * blockSize)).length = n * blockSize := by
    rw [length_slice]
    omega
  have hbuf : buf = buf.take (a * blockSize) ++
      (slice buf (a * blockSize) (n * blockSize) ++ (buf.drop (a * blockSize)).drop
        (n * blockSize)) := by
    rw [slice, take_append_drop, take_append_drop]
  have hconv : disk.convert buf = _ := congrArg disk.convert hbuf
  have hmid := slice_middle (disk.convert (buf.take (a * blockSize)))
    (disk.convert (slice buf (a * blockSize) (n * blockSize)))
    (disk.convert ((buf.drop (a * blockSize)).drop (n * blockSize)))
  rw [length_convert, length_convert, hl, hm] at hmid
  rw [hconv, convert_append disk hl, convert_append disk hm, hmid]

end

/-! ## Loops -/

variable (q : Request) (disk : Disk) (host : Host)

theorem forall_moves_succ (n i : ℕ) : (∀ j < n + 1, blockSize ≤ host.moves (i + j)) ↔
      blockSize ≤ host.moves i ∧ ∀ j < n, blockSize ≤ host.moves (i + 1 + j) := by
  rw [forall_lt_succ_left]
  simp only [Nat.add_zero, Nat.add_assoc, Nat.add_comm 1]

theorem rwLoop_write (disk : Disk) (recno n : ℕ) :
    ∀ (i : ℕ) (buf : U32) (image : List Byte) (mem : Ram),
    ∃ k len, k ≤ n ∧ len ≤ n * blockSize ∧ (k = n → len = n * blockSize) ∧
      (k = n ↔ ∀ j < n, blockSize ≤ host.moves (i + j)) ∧
      rwLoop host disk true recno n i buf image mem =
        (i + k, overwrite 0 image ((recno + i) * blockSize)
          ((disk.convert (load mem buf (n * blockSize))).take len), mem) := by
  induction n with
  | zero =>
    intro i buf image mem
    refine ⟨0, 0, le_rfl, Nat.zero_le _, fun _ => (Nat.zero_mul _).symm, by simp, ?_⟩
    rfl
  | succ n ih =>
    intro i buf image mem
    have hload : load mem buf ((n + 1) * blockSize) =
        load mem buf blockSize ++ load mem (buf + 512) (n * blockSize) := by
      rw [succ_mul, Nat.add_comm, load_append]
      rfl
    have hconv : disk.convert (load mem buf ((n + 1) * blockSize)) =
        disk.convert (load mem buf blockSize) ++ disk.convert
          (load mem (buf + 512) (n * blockSize)) := by
      rw [hload, convert_append disk (n := 1) (by simp)]
    have hblock : (disk.convert (load mem buf blockSize)).length = blockSize := by simp
    rw [rwLoop, if_pos rfl, hconv]
    by_cases hfull : blockSize ≤ host.moves i
    · have hall : (disk.convert (load mem buf blockSize)).take (host.moves i) =
          disk.convert (load mem buf blockSize) := take_of_length_le (by omega)
      obtain ⟨k, len, hk, hlen, hdone, hiff, heq⟩ := ih (i + 1) (buf + 512)
        (overwrite 0 image ((recno + i) * blockSize) (disk.convert (load mem buf blockSize))) mem
      refine ⟨k + 1, blockSize + len, by omega, by rw [succ_mul]; omega, fun h => ?_, ?_, ?_⟩
      · rw [hdone (by omega), succ_mul, Nat.add_comm]
      · rw [succ_inj, hiff, forall_moves_succ, and_iff_right hfull]
      · dsimp only
        rw [hall, if_neg (by rw [hblock]; simp), heq]
        have hoff : (recno + (i + 1)) * blockSize =
            (recno + i) * blockSize + (disk.convert (load mem buf blockSize)).length := by
          rw [hblock, ← Nat.add_assoc, succ_mul]
        have htake : (disk.convert (load mem buf blockSize) ++
            disk.convert (load mem (buf + 512) (n * blockSize))).take
              ((disk.convert (load mem buf blockSize)).length + len) =
            disk.convert (load mem buf blockSize) ++
              (disk.convert (load mem (buf + 512) (n * blockSize))).take len :=
          take_length_add_append len
        rw [hblock] at htake
        rw [hoff, overwrite_append, htake, Nat.add_assoc, Nat.add_comm 1 k]
    · refine ⟨0, host.moves i, Nat.zero_le _, by rw [succ_mul]; omega, fun h => by omega, ?_, ?_⟩
      · refine iff_of_false (by omega) fun h => hfull ?_
        exact h 0 (succ_pos n)
      · dsimp only
        rw [if_pos (by rw [length_take, hblock]; omega), take_append_of_le_length (by omega)]
        rfl

theorem store_store_blocks (mem : Ram) (buf : U32) {image : List Byte} {pos k : ℕ}
    (hin : pos + blockSize ≤ image.length) (hroom : (k + 1) * blockSize ≤ 2 ^ 32) :
    store (store mem buf (disk.convert ((image.drop pos).take blockSize))) (buf + 512)
        (disk.convert ((image.drop (pos + blockSize)).take (k * blockSize))) =
      store mem buf (disk.convert ((image.drop pos).take ((k + 1) * blockSize))) := by
  have hblock : ((image.drop pos).take blockSize).length = blockSize := by
    rw [length_take, length_drop]
    omega
  have hpieces : (image.drop pos).take ((k + 1) * blockSize) =
      (image.drop pos).take blockSize ++ (image.drop (pos + blockSize)).take (k * blockSize) := by
    rw [succ_mul, Nat.add_comm, take_add, drop_drop]
  have hconv := convert_append disk (hblock.trans (Nat.one_mul _).symm)
    ((image.drop (pos + blockSize)).take (k * blockSize))
  have hfit : (disk.convert ((image.drop pos).take blockSize)).length +
      (disk.convert ((image.drop (pos + blockSize)).take (k * blockSize))).length ≤ 2 ^ 32 := by
    rw [succ_mul] at hroom
    rw [length_convert, length_convert, hblock, length_take]
    omega
  have hstore := store_append mem buf hfit
  rw [length_convert, hblock, ← hconv, ← hpieces] at hstore
  have h512 : (512 : U32) = .ofNat 32 blockSize := rfl
  rw [h512, hstore]

/-- `n` more sectors can be read, and are in the image. -/
def Readable (image : List Byte) (recno n i : ℕ) : Prop :=
  (∀ j < n, blockSize ≤ host.moves (i + j)) ∧ (n = 0 ∨ (recno + i + n) * blockSize ≤ image.length)

theorem readable_succ {host : Host} {image : List Byte} {recno n i : ℕ} :
    Readable host image recno (n + 1) i ↔
      (blockSize ≤ host.moves i ∧ (recno + i) * blockSize + blockSize ≤ image.length) ∧
        Readable host image recno n (i + 1) := by
  have hend : (recno + i + (n + 1)) * blockSize =
      (recno + i) * blockSize + blockSize + n * blockSize := by
    rw [Nat.add_mul, succ_mul]
    omega
  have hnext : (recno + (i + 1) + n) * blockSize =
      (recno + i) * blockSize + blockSize + n * blockSize := by
    rw [← hend]
    congr 1
    omega
  rw [Readable, Readable, forall_moves_succ, hend, hnext]
  constructor
  · rintro ⟨⟨hmove, hmoves⟩, hin⟩
    have hin := hin.resolve_left (succ_ne_zero n)
    exact ⟨⟨hmove, by omega⟩, hmoves, .inr hin⟩
  · rintro ⟨⟨hmove, hfirst⟩, hmoves, hin⟩
    refine ⟨⟨hmove, hmoves⟩, .inr ?_⟩
    rcases hin with rfl | hin
    · omega
    · exact hin

/-- A read of `n` sectors is one copy of those that could be read. -/
theorem rwLoop_read (disk : Disk) (recno n : ℕ) :
    ∀ (i : ℕ) (buf : U32) (image : List Byte) (mem : Ram),
    n * blockSize ≤ 2 ^ 32 → ∃ k, k ≤ n ∧ (k = n ↔ Readable host image recno n i) ∧
      rwLoop host disk false recno n i buf image mem = (i + k, image, store mem buf
          (disk.convert ((image.drop ((recno + i) * blockSize)).take (k * blockSize)))) := by
  induction n with
  | zero =>
    intro i buf image mem _
    refine ⟨0, le_rfl, by simp [Readable], ?_⟩
    rw [Nat.zero_mul, take_zero]
    rw [convert_nil, store_nil]
    rfl
  | succ n ih =>
    intro i buf image mem hroom
    have hlen : ((image.drop ((recno + i) * blockSize)).take blockSize).length =
        min blockSize (image.length - (recno + i) * blockSize) := by
      rw [length_take, length_drop]
    rw [rwLoop, if_neg Bool.false_ne_true]
    by_cases hfull : blockSize ≤ host.moves i ∧ (recno + i) * blockSize + blockSize ≤ image.length
    · have hall : ((image.drop ((recno + i) * blockSize)).take blockSize).take (host.moves i) =
          (image.drop ((recno + i) * blockSize)).take blockSize :=
        take_of_length_le (by omega)
      rw [hall, if_neg (by omega)]
      obtain ⟨k, hk, hiff, heq⟩ := ih (i + 1) (buf + 512) image
        (store mem buf (disk.convert ((image.drop ((recno + i) * blockSize)).take blockSize)))
        (by rw [succ_mul] at hroom; omega)
      have hoff : (recno + (i + 1)) * blockSize = (recno + i) * blockSize + blockSize := by
        rw [← Nat.add_assoc, succ_mul]
      have hroomk : (k + 1) * blockSize ≤ 2 ^ 32 :=
        le_trans (Nat.mul_le_mul_right _ (by omega)) hroom
      refine ⟨k + 1, by omega, ?_, ?_⟩
      · rw [succ_inj, hiff, readable_succ, and_iff_right hfull]
      · rw [heq, hoff, store_store_blocks disk mem buf hfull.2 hroomk, Nat.add_assoc,
          Nat.add_comm 1 k]
    · refine ⟨0, Nat.zero_le _, ?_, ?_⟩
      · rw [readable_succ]
        exact iff_of_false (by omega) fun h => hfull h.1
      · rw [if_pos, Nat.zero_mul, take_zero]
        · rw [convert_nil, store_nil]
          rfl
        · have hpos : 0 < blockSize := by decide
          rw [length_take, hlen]
          omega

/-! ## Requests -/

/-- The sectors in front of the image. -/
def Disk.root : ℕ := if disk.simRoot then 1 else 0

/-- The sectors of the request that are in front of the image. -/
def Request.skip : ℕ :=
  if disk.simRoot ∧ q.recno = 0 ∧ 0 < q.count.toNat then 1 else 0

/-- The address of the first sector that is in the image. -/
def Request.start : U32 :=
  q.buf + .ofNat 32 (q.skip disk * blockSize)

/-- The memory after the simulated sector was read. -/
def Request.rooted : Ram :=
  if q.skip disk = 1 ∧ ¬ q.writing then store q.mem q.buf (rootSector disk) else q.mem

/-- A write of the simulated sector alone is refused. -/
def Request.result : Result :=
  if q.writing ∧ q.skip disk = 1 ∧ q.count.toNat = 1 then .eaccdn else .ok

variable {host : Host} {disk : Disk} {d : Driver} {q : Request}

theorem skip_le (q : Request) (disk : Disk) : q.skip disk ≤ 1 ∧ q.skip disk ≤ q.count.toNat := by
  unfold Request.skip
  split_ifs with h <;> omega

/-- A request either starts with the root sector or lies behind it. -/
theorem Request.place (q : Request) (disk : Disk) (hcount : q.count.toNat ≠ 0) :
    (q.skip disk = 1 ∧ disk.root = 1 ∧ q.recno.toNat = 0) ∨
      (q.skip disk = 0 ∧ disk.root ≤ q.recno.toNat) := by
  unfold Request.skip Disk.root
  by_cases hs : disk.simRoot
  · by_cases hz : q.recno = 0
    · refine .inl ⟨if_pos ⟨hs, hz, Nat.pos_of_ne_zero hcount⟩, if_pos hs, ?_⟩
      rw [hz]
      rfl
    · refine .inr ⟨if_neg fun h => hz h.2.1, ?_⟩
      rw [if_pos hs, one_le_iff_ne_zero]
      exact fun h0 => hz (BitVec.eq_of_toNat_eq h0)
  · refine .inr ⟨if_neg fun h => hs h.1, ?_⟩
    rw [if_neg hs]
    exact Nat.zero_le _

theorem room_of_inside (hcount : q.count.toNat ≠ 0)
    (hin : q.recno.toNat + q.count.toNat ≤ disk.blocks) :
    (q.recno.toNat - disk.root + (q.count.toNat - q.skip disk)) * blockSize ≤
      disk.image.length := by
  have hblocks : disk.blocks = disk.image.length / blockSize + disk.root := rfl
  have hle : q.recno.toNat - disk.root + (q.count.toNat - q.skip disk) ≤
      disk.image.length / blockSize := by
    rcases q.place disk hcount with ⟨hskip, hroot, hrec⟩ | ⟨hskip, hrec⟩ <;> omega
  calc _ ≤ disk.image.length / blockSize * blockSize := Nat.mul_le_mul_right _ hle
    _ ≤ disk.image.length := div_mul_le_self _ _

theorem readWriteOpen_eq (host : Host) (d : Driver) (q : Request) (disk : Disk) :
    readWriteOpen host d q disk =
      let r := rwLoop host disk q.writing (q.recno.toNat - disk.root)
        (q.count.toNat - q.skip disk) 0 (q.start disk) disk.image (q.rooted disk)
      ⟨q.result disk, Function.update d q.major.toNat { disk with image := r.2.1 }, r.2.2,
        (if q.writing then 0 else q.skip disk) + r.1⟩ := by
  unfold readWriteOpen Request.start Request.rooted Request.result
  by_cases hs : disk.simRoot
  · have hroot : disk.root = 1 := if_pos hs
    by_cases hz : q.recno = 0 ∧ 0 < q.count.toNat
    · have hskip : q.skip disk = 1 := if_pos ⟨hs, hz⟩
      have hrec : q.recno.toNat = 0 := by
        rw [hz.1]
        rfl
      rw [if_pos hs, if_pos hz, hroot, hskip, hrec]
      by_cases hone : q.count.toNat - 1 = 0
      · have hcount : q.count.toNat = 1 := by omega
        cases hw : q.writing <;> simp [rwLoop, hcount]
      · have hcount : q.count.toNat ≠ 1 := by omega
        rw [if_neg hone]
        cases hw : q.writing <;> simp [hcount, blockSize]
    · have hskip : q.skip disk = 0 := if_neg fun h => hz h.2
      rw [if_pos hs, if_neg hz, hroot, hskip]
      simp
  · have hroot : disk.root = 0 := if_neg hs
    have hskip : q.skip disk = 0 := if_neg fun h => hs h.1
    rw [if_neg hs, hroot, hskip]
    simp

/-- The request reaches the image of `disk`. -/
def Served (host : Host) (d : Driver) (q : Request) (disk : Disk) : Prop :=
  dev2disk d q.major q.minor = some disk ∧ ¬ (q.writing ∧ disk.readonly) ∧ (disk.file ∨ host.fopen)

theorem eq_of_dev2disk {major minor : U16} (h : dev2disk d major minor = some disk) :
    disk = d major.toNat := by
  unfold dev2disk at h
  split_ifs at h
  exact (Option.some.inj h).symm

theorem xhReadWrite_unserved (h : ∀ disk, ¬ Served host d q disk) :
    (xhReadWrite host d q).result ≠ .ok ∧ (xhReadWrite host d q).driver = d := by
  unfold xhReadWrite
  cases hd : dev2disk d q.major q.minor with
  | none => exact ⟨by simp, rfl⟩
  | some disk =>
    dsimp only
    split_ifs with hro hopen
    · exact ⟨by simp, rfl⟩
    · exact absurd ⟨hd, hro, hopen⟩ (h disk)
    · exact ⟨by simp, rfl⟩

theorem xhReadWrite_served (h : Served host d q disk) :
    xhReadWrite host d q = readWriteOpen host d q { disk with file := true } := by
  unfold xhReadWrite
  rw [h.1]
  dsimp only
  rw [if_neg h.2.1, if_pos h.2.2]

theorem served_write (h : Served host d q disk) (hw : q.writing) :
    ∃ k len, k ≤ q.count.toNat - q.skip disk ∧ len ≤ (q.count.toNat - q.skip disk) * blockSize ∧
      (k = q.count.toNat - q.skip disk → len = (q.count.toNat - q.skip disk) * blockSize) ∧
      (k = q.count.toNat - q.skip disk ↔ ∀ j < q.count.toNat - q.skip disk,
        blockSize ≤ host.moves j) ∧
      xhReadWrite host d q = ⟨q.result disk, Function.update d q.major.toNat { disk with
            file := true
            image := overwrite 0 disk.image ((q.recno.toNat - disk.root) * blockSize)
              ((disk.convert (load q.mem (q.start disk)
                ((q.count.toNat - q.skip disk) * blockSize))).take len) },
          q.mem, k⟩ := by
  obtain ⟨k, len, hk, hlen, hfull, hiff, heq⟩ := rwLoop_write host { disk with file := true }
    (q.recno.toNat - disk.root) (q.count.toNat - q.skip disk) 0 (q.start disk) disk.image q.mem
  simp only [Nat.zero_add] at hiff
  refine ⟨k, len, hk, hlen, hfull, hiff, ?_⟩
  have hrooted : q.rooted { disk with file := true } = q.mem := if_neg fun h => h.2 hw
  rw [xhReadWrite_served h, readWriteOpen_eq, hrooted, hw]
  have heq' : rwLoop host { disk with file := true } true
      (q.recno.toNat - Disk.root { disk with file := true })
      (q.count.toNat - q.skip { disk with file := true }) 0 (q.start { disk with file := true })
      disk.image q.mem = _ := heq
  simp only [heq', if_true, Nat.zero_add, Nat.add_zero]
  rfl

theorem served_read (h : Served host d q disk) (hw : q.writing = false) :
    ∃ k ≤ q.count.toNat - q.skip disk,
      (k = q.count.toNat - q.skip disk ↔
        (∀ j < q.count.toNat - q.skip disk, blockSize ≤ host.moves j) ∧
        (q.count.toNat - q.skip disk = 0 ∨
          (q.recno.toNat - disk.root + (q.count.toNat - q.skip disk)) * blockSize ≤
            disk.image.length)) ∧
      xhReadWrite host d q = ⟨.ok, Function.update d q.major.toNat { disk with file := true },
          store (q.rooted disk) (q.start disk)
            (disk.convert (slice disk.image ((q.recno.toNat - disk.root) * blockSize)
              (k * blockSize))),
          q.skip disk + k⟩ := by
  have hroom : (q.count.toNat - q.skip disk) * blockSize ≤ 2 ^ 32 := by
    rw [blockSize]
    omega
  obtain ⟨k, hk, hiff, heq⟩ := rwLoop_read host { disk with file := true }
    (q.recno.toNat - disk.root) (q.count.toNat - q.skip disk) 0 (q.start disk) disk.image
    (q.rooted disk) hroom
  simp only [Readable, Nat.zero_add, Nat.add_zero] at hiff
  refine ⟨k, hk, hiff, ?_⟩
  rw [xhReadWrite_served h, readWriteOpen_eq, hw]
  have heq' : rwLoop host { disk with file := true } false
      (q.recno.toNat - Disk.root { disk with file := true })
      (q.count.toNat - q.skip { disk with file := true }) 0 (q.start { disk with file := true })
      disk.image (q.rooted { disk with file := true }) = _ := heq
  have hres : q.result { disk with file := true } = .ok := if_neg fun h => by
    rw [hw] at h
    exact Bool.false_ne_true h.1
  simp only [heq', hres, Bool.false_eq_true, if_false, Nat.zero_add, Nat.add_zero]
  rfl

end Aranym.Xhdi
