/-
  The disk as an array of sectors.

  `sector d major s` is where sector `s` of a disk stands in its image: block
  `s`, or block `s - 1` behind a simulated root sector.  Requests that stay on
  the disk and that the host carries out in full write sectors of this array
  and read them back, wherever they start.
-/
import Aranym.Xhdi.Requests

namespace Aranym.Xhdi

open Lib Function

variable {host : Host} {disk : Disk} {d d₀ : Driver} {q : Request} {i : Host × Call} {major s : ℕ}

/-- Sector `s` of a disk, as the guest sees it. -/
def sector (d : Driver) (major s : ℕ) : List Byte :=
  (d major).convert (slice (d major).image ((s - (d major).root) * blockSize) blockSize)

/-- The bytes that a call writes to sector `s`. -/
def written (d : Driver) (major s : ℕ) : Call → Option (List Byte)
  | .readWrite q =>
    if q.writing ∧ major = q.major.toNat ∧ (∃ disk ∈ dev2disk d q.major q.minor, ¬ disk.readonly) ∧
        q.recno.toNat ≤ s ∧ s < q.recno.toNat + q.count.toNat then
      some (load q.mem (q.buf + .ofNat 32 ((s - q.recno.toNat) * blockSize)) blockSize)
    else none
  | .getCapacity .. => none

/-- The bytes of sector `s` that were written last, or the first ones. -/
def lastWritten (d : Driver) (calls : List (Host × Call)) (major s : ℕ) : List Byte :=
  (calls.reverse.findSome? fun i => written d major s i.2).getD (sector d major s)

/-- Requests stay on their disk, and the host carries them out. -/
def Inside (d : Driver) (i : Host × Call) : Prop :=
  match i.2 with
  | .readWrite q => ∀ disk ∈ dev2disk d q.major q.minor,
      q.recno.toNat + q.count.toNat ≤ disk.blocks ∧ (disk.file ∨ i.1.fopen) ∧
        ∀ j < q.count.toNat - q.skip disk, blockSize ≤ i.1.moves j
  | .getCapacity .. => True

/-! ## One call -/

/-- What no call changes. -/
def Alike (d d' : Driver) : Prop :=
  ∀ major, (d' major).present = (d major).present ∧ (d' major).readonly = (d major).readonly ∧
    (d' major).byteswap = (d major).byteswap ∧ (d' major).simRoot = (d major).simRoot

theorem Alike.refl (d : Driver) : Alike d d := fun _ => ⟨rfl, rfl, rfl, rfl⟩

theorem Alike.update (h : Alike d₀ d) (hdisk : disk.present = (d major).present ∧
    disk.readonly = (d major).readonly ∧ disk.byteswap = (d major).byteswap ∧
    disk.simRoot = (d major).simRoot) : Alike d₀ (Function.update d major disk) := by
  intro m
  obtain ⟨hp, hr, hb, hs⟩ := h m
  rcases eq_or_ne m major with rfl | hm
  · rw [update_self]
    obtain ⟨hp', hr', hb', hs'⟩ := hdisk
    exact ⟨hp'.trans hp, hr'.trans hr, hb'.trans hb, hs'.trans hs⟩
  · rw [update_of_ne hm]
    exact ⟨hp, hr, hb, hs⟩

theorem Alike.xhReadWrite (h : Alike d₀ d) : Alike d₀ (xhReadWrite host d q).driver := by
  by_cases hserved : ∃ disk, Served host d q disk
  · obtain ⟨disk, hs⟩ := hserved
    obtain rfl := eq_of_dev2disk hs.1
    cases hw : q.writing with
    | true =>
      obtain ⟨k, len, -, -, -, -, heq⟩ := served_write hs hw
      rw [heq]
      exact h.update ⟨rfl, rfl, rfl, rfl⟩
    | false =>
      obtain ⟨k, -, -, heq⟩ := served_read hs hw
      rw [heq]
      exact h.update ⟨rfl, rfl, rfl, rfl⟩
  · rw [(xhReadWrite_unserved (not_exists.1 hserved)).2]
    exact h

theorem Alike.root (h : Alike d₀ d) (major : ℕ) : (d major).root = (d₀ major).root := by
  unfold Disk.root
  rw [(h major).2.2.2]

theorem Alike.dev2disk (h : Alike d₀ d) (major minor : U16) :
    dev2disk d major minor = (dev2disk d₀ major minor).map fun _ => d major.toNat := by
  unfold Xhdi.dev2disk
  rw [(h major.toNat).1]
  split_ifs <;> rfl

theorem Alike.written (h : Alike d₀ d) (call : Call) :
    written d major s call = written d₀ major s call := by
  cases call with
  | getCapacity => rfl
  | readWrite q =>
    have hdev : (∃ disk ∈ Xhdi.dev2disk d q.major q.minor, ¬ disk.readonly) ↔
        ∃ disk ∈ Xhdi.dev2disk d₀ q.major q.minor, ¬ disk.readonly := by
      rw [h.dev2disk]
      cases hd : Xhdi.dev2disk d₀ q.major q.minor with
      | none => simp
      | some disk =>
        obtain rfl := eq_of_dev2disk hd
        simp [(h q.major.toNat).2.1]
    unfold Xhdi.written
    simp only [hdev]

theorem Request.offset (q : Request) (hroot : disk.root ≤ s) (hl : q.recno.toNat ≤ s)
    (hr : s < q.recno.toNat + q.count.toNat) :
    ∃ a < q.count.toNat - q.skip disk, s - disk.root = q.recno.toNat - disk.root + a ∧
      q.start disk + .ofNat 32 (a * blockSize) =
        q.buf + .ofNat 32 ((s - q.recno.toNat) * blockSize) := by
  have hcount : q.count.toNat ≠ 0 := by omega
  refine ⟨s - q.recno.toNat - q.skip disk, ?_, ?_, ?_⟩
  · rcases q.place disk hcount with ⟨hskip, hroot', hrec⟩ | ⟨hskip, hrec⟩ <;> omega
  · rcases q.place disk hcount with ⟨hskip, hroot', hrec⟩ | ⟨hskip, hrec⟩ <;> omega
  · have hsum : q.skip disk + (s - q.recno.toNat - q.skip disk) = s - q.recno.toNat := by
      rcases q.place disk hcount with ⟨hskip, hroot', hrec⟩ | ⟨hskip, hrec⟩ <;> omega
    rw [Request.start, BitVec.add_assoc, ← BitVec.ofNat_add, ← Nat.add_mul, hsum]

theorem served_of_inside (hin : Inside d (host, .readWrite q))
    (hdev : dev2disk d q.major q.minor = some disk) (hro : ¬ (q.writing ∧ disk.readonly)) :
    Served host d q disk :=
  ⟨hdev, hro, (hin disk hdev).2.1⟩

theorem sector_update (d : Driver) (major : ℕ) (file : Bool) (image : List Byte) (s : ℕ) :
    sector (Function.update d major { d major with file := file, image := image }) major s =
      (d major).convert (slice image ((s - (d major).root) * blockSize) blockSize) := by
  unfold sector
  rw [update_self]
  rfl

theorem sector_update_of_ne {m : ℕ} (h : m ≠ major) (d : Driver) (disk : Disk) (s : ℕ) :
    sector (Function.update d major disk) m s = sector d m s := by
  unfold sector
  rw [update_of_ne h]

theorem sectors_le {a n : ℕ} (h : a < n) : a * blockSize + blockSize ≤ n * blockSize := by
  rw [← Nat.succ_mul]
  exact Nat.mul_le_mul_right _ h

theorem convert_slice_overwrite (disk : Disk) (image : List Byte) (r : ℕ) {a n : ℕ}
    {data : List Byte} (hdata : data.length = n * blockSize) (ha : a < n) :
    disk.convert
      (slice (overwrite 0 image (r * blockSize) (disk.convert data)) ((r + a) * blockSize)
      blockSize) = slice data (a * blockSize) blockSize := by
  have hend := sectors_le ha
  have hslice : disk.convert (slice data (a * blockSize) (1 * blockSize)) =
      slice (disk.convert data) (a * blockSize) (1 * blockSize) :=
    convert_slice disk a 1 (by rw [hdata, Nat.add_mul]; omega)
  rw [Nat.one_mul] at hslice
  rw [Nat.add_mul, slice_overwrite_inside 0 (Nat.le_add_right _ _),
    Nat.add_sub_cancel_left, ← hslice, convert_convert]
  rw [length_convert, hdata]
  omega

/-- The sectors of a write go where they belong, and the others stay. -/
theorem sector_write (hin : Inside d (host, .readWrite q)) (h : Served host d q disk)
    (hw : q.writing) (hroot : disk.root ≤ s) :
    sector (xhReadWrite host d q).driver q.major.toNat s =
      if q.recno.toNat ≤ s ∧ s < q.recno.toNat + q.count.toNat then
        load q.mem (q.buf + .ofNat 32 ((s - q.recno.toNat) * blockSize)) blockSize
      else sector d q.major.toNat s := by
  obtain ⟨hblocks, -, hmoves⟩ := hin _ h.1
  obtain ⟨k, len, -, -, hfull, hiff, heq⟩ := served_write h hw
  obtain rfl := hfull (hiff.2 hmoves)
  obtain rfl := eq_of_dev2disk h.1
  have hlength : ((d q.major.toNat).convert (load q.mem (q.start (d q.major.toNat))
      ((q.count.toNat - q.skip (d q.major.toNat)) * blockSize))).length =
        (q.count.toNat - q.skip (d q.major.toNat)) * blockSize := by simp
  rw [heq, List.take_of_length_le (Nat.le_of_eq hlength)]
  rw [sector_update]
  split_ifs with hs
  · obtain ⟨a, ha, hblock, haddr⟩ := q.offset hroot hs.1 hs.2
    rw [hblock, convert_slice_overwrite _ _ _ (length_load _ _ _) ha, ← haddr]
    exact slice_load _ _ (sectors_le ha)
  · by_cases hcount : q.count.toNat = 0
    · have hnil : load q.mem (q.start (d q.major.toNat)) 0 = [] := rfl
      rw [hcount, Nat.zero_sub, Nat.zero_mul, hnil, convert_nil, overwrite_nil]
      rfl
    · rw [slice_overwrite_outside]
      · rfl
      · rw [hlength, ← Nat.add_mul]
        exact room_of_inside hcount hblocks
      · rw [hlength, ← Nat.add_mul, ← Nat.succ_mul, Nat.mul_le_mul_right_iff (by decide),
          Nat.mul_le_mul_right_iff (by decide)]
        rcases q.place (d q.major.toNat) hcount with ⟨hskip, hroot', hrec⟩ | ⟨hskip, hrec⟩ <;> omega

/-- A read inside the disk puts every sector of it where its block belongs. -/
theorem sector_read (hin : Inside d (host, .readWrite q)) (h : Served host d q disk)
    (hw : q.writing = false) (hroot : disk.root ≤ s) (hl : q.recno.toNat ≤ s)
    (hr : s < q.recno.toNat + q.count.toNat) : (xhReadWrite host d q).result = .ok ∧
      load (xhReadWrite host d q).mem
        (q.buf + .ofNat 32 ((s - q.recno.toNat) * blockSize)) blockSize =
        sector d q.major.toNat s := by
  obtain ⟨hblocks, -, hmoves⟩ := hin _ h.1
  obtain ⟨k, -, hiff, heq⟩ := served_read h hw
  obtain rfl := eq_of_dev2disk h.1
  have hroom := room_of_inside (q := q) (by omega) hblocks
  obtain rfl := hiff.2 ⟨hmoves, .inr hroom⟩
  obtain ⟨a, ha, hblock, haddr⟩ := q.offset hroot hl hr
  have hfit : (q.count.toNat - q.skip (d q.major.toNat)) * blockSize ≤ 2 ^ 32 := by
    rw [blockSize]
    omega
  rw [Nat.add_mul] at hroom
  have hlength : (slice (d q.major.toNat).image
    ((q.recno.toNat - (d q.major.toNat).root) * blockSize)
      ((q.count.toNat - q.skip (d q.major.toNat)) * blockSize)).length =
        (q.count.toNat - q.skip (d q.major.toNat)) * blockSize := by
    rw [length_slice]
    omega
  rw [heq]
  refine ⟨rfl, ?_⟩
  dsimp only
  have hend := sectors_le ha
  have hslice := convert_slice (d q.major.toNat) a 1
    (by rw [Nat.add_mul, Nat.one_mul]; exact hend.trans (Nat.le_of_eq hlength.symm))
  rw [Nat.one_mul] at hslice
  rw [← haddr, load_store_slice, ← hslice, slice_slice _ hend, ← Nat.add_mul, sector, hblock]
  · rw [length_convert, hlength]
    exact hfit
  · rw [length_convert, hlength]
    exact hend

theorem sector_xhReadWrite (hin : Inside d (host, .readWrite q)) (hroot : (d major).root ≤ s) :
    sector (xhReadWrite host d q).driver major s =
      (written d major s (.readWrite q)).getD (sector d major s) := by
  by_cases hserved : ∃ disk, Served host d q disk
  · obtain ⟨disk, h⟩ := hserved
    obtain rfl := eq_of_dev2disk h.1
    rcases eq_or_ne major q.major.toNat with rfl | hm
    · cases hw : q.writing with
      | true =>
        have hdev : ∃ disk ∈ dev2disk d q.major q.minor, ¬ disk.readonly :=
          ⟨_, h.1, fun hro => h.2.1 ⟨hw, hro⟩⟩
        rw [sector_write hin h hw hroot, written]
        by_cases hs : q.recno.toNat ≤ s ∧ s < q.recno.toNat + q.count.toNat
        · rw [if_pos hs, if_pos ⟨hw, rfl, hdev, hs⟩, Option.getD_some]
        · rw [if_neg hs, if_neg fun h => hs h.2.2.2, Option.getD_none]
      | false =>
        obtain ⟨k, -, -, heq⟩ := served_read h hw
        rw [heq, written, if_neg fun h => Bool.false_ne_true (hw.symm.trans h.1)]
        exact sector_update d _ _ _ s
    · rw [written, if_neg fun h => hm h.2.1]
      cases hw : q.writing with
      | true =>
        obtain ⟨k, len, -, -, -, -, heq⟩ := served_write h hw
        rw [heq]
        exact sector_update_of_ne hm d _ s
      | false =>
        obtain ⟨k, -, -, heq⟩ := served_read h hw
        rw [heq]
        exact sector_update_of_ne hm d _ s
  · rw [(xhReadWrite_unserved (not_exists.1 hserved)).2, written, if_neg]
    · rfl
    · rintro ⟨-, -, ⟨disk, hdev, hro⟩, -⟩
      exact hserved ⟨disk, served_of_inside hin hdev fun h => hro h.2⟩

theorem xhGetCapacity_driver (host : Host) (d : Driver) (major minor : U16)
    (blocks blocksize : U32) (mem : Ram) :
    ∃ size, (xhGetCapacity host d major minor blocks blocksize mem).2.1 =
      Function.update d major.toNat { d major.toNat with sizeBlocks := size } := by
  unfold xhGetCapacity
  cases hdev : dev2disk d major minor with
  | none => exact ⟨(d major.toNat).sizeBlocks, (update_eq_self _ _).symm⟩
  | some disk =>
    obtain rfl := eq_of_dev2disk hdev
    refine ⟨(setDiskSizeInBlocks host (d major.toNat)).2.sizeBlocks, ?_⟩
    unfold setDiskSizeInBlocks
    dsimp only
    split_ifs <;> rfl

theorem sector_step (hin : Inside d i) (h : Alike d₀ d) (hroot : (d₀ major).root ≤ s) :
    Alike d₀ (step d i).1 ∧
      sector (step d i).1 major s = (written d₀ major s i.2).getD (sector d major s) := by
  obtain ⟨host, call⟩ := i
  rw [← h.root] at hroot
  cases call with
  | readWrite q =>
    rw [← h.written]
    exact ⟨h.xhReadWrite, sector_xhReadWrite hin hroot⟩
  | getCapacity m minor blocks blocksize mem =>
    obtain ⟨size, heq⟩ := xhGetCapacity_driver host d m minor blocks blocksize mem
    have hstep : (step d (host, .getCapacity m minor blocks blocksize mem)).1 = _ := heq
    rw [hstep]
    refine ⟨h.update ⟨rfl, rfl, rfl, rfl⟩, ?_⟩
    rcases eq_or_ne major m.toNat with rfl | hm
    · unfold sector
      rw [update_self]
      rfl
    · exact sector_update_of_ne hm d _ s

/-! ## Runs -/

/-- Reads return what was written last, by a request that starts with the root sector or behind it,
    and every sector stands at its place in the image. -/
theorem disk_is_sector_array (d : Driver) (calls : List (Host × Call))
    (hcalls : Along step Inside d calls) (major s : ℕ) (hroot : (d major).root ≤ s) :
    sector (run step d calls) major s = lastWritten d calls major s ∧
      ∀ host q, Inside (run step d calls) (host, .readWrite q) → q.writing = false →
        (dev2disk d q.major q.minor).isSome → major = q.major.toNat →
        q.recno.toNat ≤ s → s < q.recno.toNat + q.count.toNat →
        (step (run step d calls) (host, .readWrite q)).2.1 = .ok ∧
          load (step (run step d calls) (host, .readWrite q)).2.2
            (q.buf + .ofNat 32 ((s - q.recno.toNat) * blockSize)) blockSize =
              lastWritten d calls major s := by
  have hstep : ∀ e i, Alike d e → Inside e i → Alike d (step e i).1 ∧
      sector (step e i).1 major s = (written d major s i.2).getD (sector e major s) :=
    fun _ _ h hin => sector_step hin h hroot
  obtain ⟨halike, hlast⟩ := run_last (fun e => sector e major s) hstep calls d (.refl d) hcalls
  refine ⟨hlast, ?_⟩
  rintro host q hin hw hdev rfl hl hr
  obtain ⟨disk, hdev⟩ := Option.isSome_iff_exists.1 hdev
  have hdev' : dev2disk (run step d calls) q.major q.minor =
      some (run step d calls q.major.toNat) := by
    rw [halike.dev2disk, hdev]
    rfl
  have hserved := served_of_inside hin hdev' fun h => Bool.false_ne_true (hw.symm.trans h.1)
  obtain ⟨hok, hload⟩ := sector_read hin hserved hw (halike.root _ ▸ hroot) hl hr
  exact ⟨hok, hload.trans hlast⟩

/-- A host that moves all. -/
def willing : Host := ⟨true, true, fun _ => blockSize⟩

/-- A partition of one sector. -/
def smallPartition : Driver :=
  initDisks willing fun _ => ⟨true, false, false, false, (71, 69, 77), List.replicate blockSize 0⟩

/-- A request for the root sector and the one behind it. -/
def bothSectors (rwflag : U16) : Request := ⟨8, 0, rwflag, 0, 2, 0, fun x => x.truncate 8⟩

theorem smallPartition_sector_one :
    let calls := [(willing, Call.readWrite (bothSectors 1))]
    load (step (run step smallPartition calls) (willing, .readWrite (bothSectors 0))).2.2
      ((bothSectors 0).buf + .ofNat 32 ((1 - (bothSectors 0).recno.toNat) * blockSize)) blockSize =
        lastWritten smallPartition calls 8 1 := by
  intro calls
  have hwrite : Inside smallPartition (willing, .readWrite (bothSectors 1)) := by
    intro disk hdev
    rw [eq_of_dev2disk hdev]
    decide +kernel
  have hread : Inside (run step smallPartition calls) (willing, .readWrite (bothSectors 0)) := by
    intro disk hdev
    rw [eq_of_dev2disk hdev]
    decide +kernel
  have hreads := (disk_is_sector_array smallPartition calls ⟨hwrite, trivial⟩ 8 1
    (by decide +kernel)).2 willing (bothSectors 0) hread
  exact (hreads (by decide +kernel) (by decide +kernel) rfl (by decide +kernel)
    (by decide +kernel)).2

end Aranym.Xhdi
