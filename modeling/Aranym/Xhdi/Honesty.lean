/-
  Results of the disk driver.

  `XHReadWrite` never compares a request with the size of the disk, and it
  answers `E_OK` also when the host stopped in the middle.
-/
import Aranym.Xhdi.Requests

namespace Aranym.Xhdi

open Lib

variable {host : Host} {disk : Disk} {d : Driver} {q : Request}

/-! ## Sizes -/

/-- The recorded sizes do not exceed the images. -/
def Sized (d : Driver) : Prop := ∀ major, (d major).sizeBlocks.toInt ≤ (d major).blocks

theorem toInt_ofNat_le (n : ℕ) : (BitVec.ofNat 32 n).toInt ≤ n := by
  rw [BitVec.toInt_eq_toNat_cond, BitVec.toNat_ofNat]
  split_ifs <;> omega

theorem sized_setDiskSizeInBlocks (host : Host) (disk : Disk) :
    (setDiskSizeInBlocks host disk).2.sizeBlocks.toInt ≤
      (setDiskSizeInBlocks host disk).2.blocks := by
  unfold setDiskSizeInBlocks
  split_ifs
  · exact toInt_ofNat_le _
  · exact Int.natCast_nonneg _

theorem sized_initDisks (host : Host) (settings : ℕ → Settings) :
    Sized (initDisks host settings) := by
  intro major
  unfold initDisks
  split_ifs
  · exact Int.natCast_nonneg _
  all_goals exact sized_setDiskSizeInBlocks _ _

theorem Sized.update (hd : Sized d) (hdisk : disk.sizeBlocks.toInt ≤ disk.blocks) (major : ℕ) :
    Sized (Function.update d major disk) := by
  intro m
  rcases eq_or_ne m major with rfl | hm
  · rwa [Function.update_self]
  · rw [Function.update_of_ne hm]
    exact hd m

theorem Sized.grow (hd : Sized d) {image : List Byte} {file : Bool} {major : ℕ}
    (hlen : (d major).image.length ≤ image.length) :
    Sized (Function.update d major { d major with file := file, image := image }) := by
  refine hd.update ?_ major
  have hblocks : (d major).blocks ≤ Disk.blocks { d major with file := file, image := image } :=
    Nat.add_le_add_right (Nat.div_le_div_right hlen) _
  have := hd major
  show (d major).sizeBlocks.toInt ≤ _
  omega

theorem Sized.xhReadWrite (hd : Sized d) : Sized (xhReadWrite host d q).driver := by
  by_cases hserved : ∃ disk, Served host d q disk
  · obtain ⟨disk, h⟩ := hserved
    obtain rfl := eq_of_dev2disk h.1
    cases hw : q.writing with
    | true =>
      obtain ⟨k, len, -, -, -, -, heq⟩ := served_write h hw
      rw [heq]
      refine hd.grow ?_
      by_cases hdata : ((d q.major.toNat).convert (load q.mem (q.start (d q.major.toNat))
          ((q.count.toNat - q.skip (d q.major.toNat)) * blockSize))).take len = []
      · rw [hdata, overwrite_nil]
      · rw [length_overwrite _ _ _ hdata]
        exact Nat.le_max_left _ _
    | false =>
      obtain ⟨k, -, -, heq⟩ := served_read h hw
      rw [heq]
      exact hd.grow (Nat.le_refl _)
  · rw [(xhReadWrite_unserved (not_exists.1 hserved)).2]
    exact hd

theorem Sized.step (hd : Sized d) (i : Host × Call) : Sized (step d i).1 := by
  obtain ⟨host, call⟩ := i
  cases call with
  | readWrite q => exact hd.xhReadWrite
  | getCapacity major minor blocks blocksize mem =>
    simp only [Xhdi.step, xhGetCapacity]
    cases hdev : dev2disk d major minor with
    | none => exact hd
    | some disk =>
      dsimp only
      split_ifs
      all_goals exact hd.update (sized_setDiskSizeInBlocks host disk) _

theorem Sized.run (host : Host) (settings : ℕ → Settings) (calls : List (Host × Call)) :
    Sized (Lib.run Xhdi.step (initDisks host settings) calls) :=
  run_inv_all (fun _ i hd => hd.step i) calls _ (sized_initDisks host settings)

/-! ## Honest answers -/

/-- Byte `i` of the image of disk `major` belongs to a sector that is asked for. -/
def Request.Covers (q : Request) (d : Driver) (major i : ℕ) : Prop :=
  major = q.major.toNat ∧ q.recno.toNat ≤ i / blockSize + (d major).root ∧
    i / blockSize + (d major).root < q.recno.toNat + q.count.toNat

/-- `E_OK` means that all sectors were moved and that the disk has them; no other byte of any image
    is changed, and no image gets longer. -/
structure Honest (d : Driver) (q : Request) (o : Outcome) : Prop where
  moved : o.result = .ok → o.moved = q.count.toNat
  inside : o.result = .ok → q.count.toNat ≠ 0 →
    (q.recno.toNat + q.count.toNat : Int) ≤ (d q.major.toNat).sizeBlocks.toInt
  bytes : ∀ major i, ¬ q.Covers d major i → (o.driver major).image[i]? = (d major).image[i]?
  length : ∀ major, (o.driver major).image.length ≤ (d major).image.length

/-- A request that reaches a disk lies within its size and is not cut short by the host; if it
    writes over a simulated root sector, it writes nothing else. -/
def Sound (host : Host) (d : Driver) (q : Request) : Prop :=
  ∀ disk, Served host d q disk → q.count.toNat ≠ 0 →
    if q.writing ∧ q.skip disk = 1 then q.count.toNat = 1
    else (q.recno.toNat + q.count.toNat : Int) ≤ disk.sizeBlocks.toInt ∧
      ∀ j < q.count.toNat - q.skip disk, blockSize ≤ host.moves j

theorem image_update (d : Driver) (major : ℕ) (disk : Disk) (m : ℕ) :
    (Function.update d major disk m).image = if m = major then disk.image else (d m).image := by
  rw [Function.update_apply]
  split_ifs <;> rfl

theorem image_same (d : Driver) {major : ℕ} (disk : Disk) (h : disk.image = (d major).image)
    (m : ℕ) : (Function.update d major disk m).image = (d m).image := by
  rw [image_update]
  split_ifs with hm
  · rw [h, hm]
  · rfl

theorem honest_unserved (h : ∀ disk, ¬ Served host d q disk) :
    Honest d q (xhReadWrite host d q) := by
  obtain ⟨hres, hd⟩ := xhReadWrite_unserved h
  refine ⟨fun hok => absurd hok hres, fun hok => absurd hok hres, fun major i _ => ?_,
    fun major => ?_⟩
  all_goals rw [hd]

theorem honest_empty (h : Served host d q disk) (hcount : q.count.toNat = 0) :
    Honest d q (xhReadWrite host d q) := by
  obtain rfl := eq_of_dev2disk h.1
  have hsectors : q.count.toNat - q.skip (d q.major.toNat) = 0 := by omega
  have hout : (∀ major, ((xhReadWrite host d q).driver major).image = (d major).image) ∧
      (xhReadWrite host d q).moved = q.count.toNat := by
    cases hw : q.writing with
    | true =>
      obtain ⟨k, len, hk, hlen, -, -, heq⟩ := served_write h hw
      have hempty : len = 0 := by
        rw [hsectors, Nat.zero_mul] at hlen
        omega
      rw [heq, hempty, List.take_zero, overwrite_nil]
      refine ⟨fun major => image_same d _ (by rfl) major, ?_⟩
      dsimp only
      omega
    | false =>
      obtain ⟨k, hk, -, heq⟩ := served_read h hw
      have hskip := (skip_le q (d q.major.toNat)).2
      rw [heq]
      refine ⟨fun major => image_same d _ (by rfl) major, ?_⟩
      dsimp only
      omega
  refine ⟨fun _ => hout.2, fun _ hne => absurd hcount hne, fun major i _ => ?_, fun major => ?_⟩
  all_goals rw [hout.1]

/-- A read is honest exactly if it ends on the disk and every block of it is read whole. -/
theorem honest_read_iff (hsize : disk.sizeBlocks.toInt ≤ disk.blocks) (h : Served host d q disk)
    (hw : q.writing = false) (hcount : q.count.toNat ≠ 0) : Honest d q (xhReadWrite host d q) ↔
      (q.recno.toNat + q.count.toNat : Int) ≤ disk.sizeBlocks.toInt ∧
        ∀ j < q.count.toNat - q.skip disk, blockSize ≤ host.moves j := by
  obtain rfl := eq_of_dev2disk h.1
  have hskip := (skip_le q (d q.major.toNat)).2
  obtain ⟨k, hk, hiff, heq⟩ := served_read h hw
  have himage : ∀ major, ((xhReadWrite host d q).driver major).image = (d major).image := by
    intro major
    rw [heq]
    exact image_same d _ (by rfl) major
  constructor
  · intro hon
    have hin := hon.inside (by rw [heq]) hcount
    have hmoved := hon.moved (by rw [heq])
    rw [heq] at hmoved
    have hall : k = q.count.toNat - q.skip (d q.major.toNat) := by
      dsimp only at hmoved
      omega
    exact ⟨hin, (hiff.1 hall).1⟩
  · rintro ⟨hin, hmoves⟩
    have hall := hiff.2 ⟨hmoves, .inr (room_of_inside hcount (by omega))⟩
    refine ⟨fun _ => ?_, fun _ _ => hin, fun major i _ => ?_, fun major => ?_⟩
    · rw [heq]
      dsimp only
      omega
    · rw [himage]
    · rw [himage]

/-- The part of a request that would be written over the root sector is dropped silently. -/
theorem honest_write_root_iff (h : Served host d q disk) (hw : q.writing)
    (hskip : q.skip disk = 1) : Honest d q (xhReadWrite host d q) ↔ q.count.toNat = 1 := by
  obtain rfl := eq_of_dev2disk h.1
  obtain ⟨k, len, hk, hlen, -, -, heq⟩ := served_write h hw
  have hpos := (skip_le q (d q.major.toNat)).2
  constructor
  · intro hon
    by_contra hone
    have hres : q.result (d q.major.toNat) = .ok := if_neg fun h => hone h.2.2
    have hmoved := hon.moved (by rw [heq, hres])
    rw [heq] at hmoved
    dsimp only at hmoved
    omega
  · intro hone
    have hres : q.result (d q.major.toNat) = .eaccdn := if_pos ⟨hw, hskip, hone⟩
    have hnok : (xhReadWrite host d q).result ≠ .ok := by
      rw [heq, hres]
      exact Result.noConfusion
    have hempty : len = 0 := by
      rw [hone, hskip, Nat.sub_self, Nat.zero_mul] at hlen
      omega
    have himage : ∀ major, ((xhReadWrite host d q).driver major).image = (d major).image := by
      intro major
      rw [heq, hempty, List.take_zero, overwrite_nil]
      exact image_same d _ (by rfl) major
    refine ⟨fun hok => absurd hok hnok, fun hok => absurd hok hnok, fun major i _ => ?_,
      fun major => ?_⟩
    · rw [himage]
    · rw [himage]

/-- A write behind the root sector is honest exactly if it ends on the disk and every block of it is
    written whole. -/
theorem honest_write_iff (hsize : disk.sizeBlocks.toInt ≤ disk.blocks) (h : Served host d q disk)
    (hw : q.writing) (hskip : q.skip disk = 0) (hcount : q.count.toNat ≠ 0) :
    Honest d q (xhReadWrite host d q) ↔
    (q.recno.toNat + q.count.toNat : Int) ≤ disk.sizeBlocks.toInt ∧
        ∀ j < q.count.toNat - q.skip disk, blockSize ≤ host.moves j := by
  obtain rfl := eq_of_dev2disk h.1
  obtain ⟨k, len, hk, hlen, hfull, hiff, heq⟩ := served_write h hw
  have hres : q.result (d q.major.toNat) = .ok := if_neg fun h => by omega
  constructor
  · intro hon
    have hin := hon.inside (by rw [heq, hres]) hcount
    have hmoved := hon.moved (by rw [heq, hres])
    rw [heq] at hmoved
    dsimp only at hmoved
    exact ⟨hin, hiff.1 (by omega)⟩
  · rintro ⟨hin, hmoves⟩
    have hblocks : q.recno.toNat + q.count.toNat ≤ (d q.major.toNat).blocks := by omega
    have hroom := room_of_inside hcount hblocks
    have hrec : (d q.major.toNat).root ≤ q.recno.toNat := by
      rcases q.place (d q.major.toNat) hcount with ⟨h1, -, -⟩ | ⟨-, hrec⟩
      · omega
      · exact hrec
    obtain rfl := hiff.2 hmoves
    obtain rfl := hfull rfl
    rw [hskip, Nat.sub_zero] at heq hroom
    have hlength : ((d q.major.toNat).convert (load q.mem (q.start (d q.major.toNat))
        (q.count.toNat * blockSize))).length = q.count.toNat * blockSize := by simp
    rw [List.take_of_length_le (Nat.le_of_eq hlength)] at heq
    rw [Nat.add_mul] at hroom
    refine ⟨fun _ => ?_, fun _ _ => hin, fun major i hnot => ?_, fun major => ?_⟩
    · rw [heq]
    · rw [heq, image_update]
      split_ifs with hm
      · subst hm
        refine getElem?_overwrite_outside 0 ?_ ?_
        · rw [hlength]
          exact hroom
        · rw [hlength]
          have hcover : ¬ (q.recno.toNat ≤ i / blockSize + (d q.major.toNat).root ∧
              i / blockSize + (d q.major.toNat).root < q.recno.toNat + q.count.toNat) :=
            fun h => hnot ⟨rfl, h⟩
          rw [← Nat.add_mul, ← Nat.div_lt_iff_lt_mul (by decide),
            ← Nat.le_div_iff_mul_le (by decide)]
          omega
      · rfl
    · rw [heq, image_update]
      split_ifs with hm
      · subst hm
        rw [length_overwrite_of_le]
        rw [hlength]
        exact hroom
      · exact Nat.le_refl _

/-- The answer to a request is honest exactly if the request is sound, whatever was asked
    before. -/
theorem honest_iff (host₀ : Host) (settings : ℕ → Settings) (calls : List (Host × Call))
    (host : Host) (q : Request) :
    let d := Lib.run step (initDisks host₀ settings) calls
    Honest d q (xhReadWrite host d q) ↔ Sound host d q := by
  intro d
  have hsized : Sized d := Sized.run host₀ settings calls
  by_cases hserved : ∃ disk, Served host d q disk
  · obtain ⟨disk, h⟩ := hserved
    have hdisk := eq_of_dev2disk h.1
    have hsize : disk.sizeBlocks.toInt ≤ disk.blocks := hdisk ▸ hsized _
    have hsound : Sound host d q ↔ (q.count.toNat ≠ 0 →
        if q.writing ∧ q.skip disk = 1 then q.count.toNat = 1
        else (q.recno.toNat + q.count.toNat : Int) ≤ disk.sizeBlocks.toInt ∧
          ∀ j < q.count.toNat - q.skip disk, blockSize ≤ host.moves j) := by
      refine ⟨fun hs => hs disk h, fun hs disk' h' => ?_⟩
      rw [eq_of_dev2disk h'.1, ← hdisk]
      exact hs
    rw [hsound]
    by_cases hcount : q.count.toNat = 0
    · exact iff_of_true (honest_empty h hcount) fun hne => absurd hcount hne
    rw [imp_iff_right hcount]
    by_cases hroot : q.writing ∧ q.skip disk = 1
    · rw [if_pos hroot]
      exact honest_write_root_iff h hroot.1 hroot.2
    rw [if_neg hroot]
    cases hw : q.writing with
    | true =>
      have hskip := (skip_le q disk).1
      have hne : q.skip disk ≠ 1 := fun hs => hroot ⟨hw, hs⟩
      exact honest_write_iff hsize h hw (by omega) hcount
    | false => exact honest_read_iff hsize h hw hcount
  · refine iff_of_true (honest_unserved (not_exists.1 hserved)) fun disk h => ?_
    exact absurd ⟨disk, h⟩ hserved

/-- A disk of one sector. -/
def smallDriver : Driver :=
  initDisks ⟨true, true, fun _ => blockSize⟩
    fun _ => ⟨true, false, false, true, (0, 0, 0), List.replicate blockSize 0⟩

/-- Sector 5 is behind the end of the disk: it is written, the image grows, and the answer is
    `E_OK`. -/
theorem write_behind_end :
    ¬ Honest smallDriver ⟨16, 0, 1, 5, 1, 0, fun _ => 7⟩
      (xhReadWrite ⟨true, true, fun _ => blockSize⟩ smallDriver
        ⟨16, 0, 1, 5, 1, 0, fun _ => 7⟩) := by
  intro h
  exact absurd (h.length 16) (by decide +kernel)

end Aranym.Xhdi
