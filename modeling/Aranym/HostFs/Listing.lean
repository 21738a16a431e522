/-
  Listing a directory.

  `xfs_readdir` takes the next entry from the host before it looks at the size
  of the buffer: an entry that does not fit is gone, and one that leaves no
  room for its NUL is cut off by a character.  A negative length passes as a
  large one.
-/
import Aranym.HostFs.Chains

namespace Aranym.HostFs

open Lib

/-- The directory that is read, and the file system. -/
structure Listing where
  fs : State
  dirh : XfsDir

/-- One call, with what is written for the entry. -/
def readdirStep (l : Listing) (i : Host × U16) :
    Listing × Except Fault (Except Tos (Option U32 × Str)) :=
  match xfsReaddir i.1 l.dirh i.2 l.fs with
  | .ok r fs => (⟨fs, r.dirh⟩, .ok (r.result.map (·.2)))
  | .error e fs => (⟨fs, l.dirh⟩, .error e)

/-! ## What should be listed -/

/-- An entry in full: its number and name, or its short name alone. -/
def entryText (flags : U16) (e : Dirent) : Option U32 × Str :=
  if flags = 0 then (some e.ino, e.name.chars) else (none, transformFileName e.name.chars)

/-- The root of a drive has no `.` and `..`. -/
def visible (atRoot : Bool) (hostDir : List Dirent) : List Dirent :=
  if atRoot then hostDir.filter (!dots ·) else hostDir

/-- Of a root. -/
def Listing.atRoot (l : Listing) : Bool := (l.fs.heap.get l.dirh.fc.index).any (·.parent.isNone)

/-- The entries that are still to be listed. -/
def Listing.left (l : Listing) : List (Option U32 × Str) :=
  (visible l.atRoot l.dirh.hostDir).map (entryText l.dirh.flags)

/-- What the guest gets. -/
def readdirAnswer : Except Fault (Except Tos (Option U32 × Str)) →
    Option (Answer (Option U32 × Str))
  | .ok (.ok text) => some (.item text)
  | .ok (.error .erange) => some .noRoom
  | .ok (.error .enmfil) => some .done
  | _ => none

/-- Bytes in front of the name. -/
def inodeBytes (flags : U16) : ℕ := if flags = 0 then 4 else 0

/-- The length is not negative, and the next entry fits with its NUL. -/
def Roomy (l : Listing) (i : Host × U16) : Prop :=
  ∀ e ∈ (visible l.atRoot l.dirh.hostDir).head?, 0 ≤ i.2.toInt ∧
    inodeBytes l.dirh.flags + (entryText l.dirh.flags e).2.length ≤ i.2.toNat - 1
deriving Decidable

/-! ## One call -/

/-- The node of the directory is live, and its drive mounted. -/
structure Readable (l : Listing) : Prop where
  rooted : Rooted XfsFsFile.parent l.fs.heap
  live : ∃ node, l.fs.heap.get l.dirh.fc.index = some node
  mounted : ∃ drv, l.fs.mounts.lookup l.dirh.fc.dev = some drv

theorem visible_eq_unread (atRoot : Bool) (hostDir : List Dirent) : visible atRoot hostDir =
      match unread atRoot hostDir with
      | [] => []
      | e :: rest => e :: visible atRoot rest := by
  unfold visible unread
  cases atRoot with
  | false => cases hostDir <;> rfl
  | true =>
    induction hostDir with
    | nil => rfl
    | cons e rest ih =>
      cases he : dots e with
      | true => simpa [he] using ih
      | false => simp [he]

/-- The room that is left behind the number is negative with the length. -/
theorem host2AtariSafeStrncpy_eq {src : Str} {len : U16} {k : ℕ}
    (hlen : k + src.length ≤ len.toNat) :
    host2AtariSafeStrncpy src (len.toInt - k) =
      if len.toInt < 0 then throw .undefined else pure (safeStrncpy src (len.toNat - k)) := by
  have hint := BitVec.toInt_eq_toNat_cond len
  unfold host2AtariSafeStrncpy
  by_cases hneg : len.toInt < 0
  · rw [if_pos hneg, if_pos (by omega)]
  · have hcount : (len.toInt - k).toNat = len.toNat - k := by
      split_ifs at hint <;> omega
    rw [if_neg hneg, if_neg (by split_ifs at hint <;> omega), hcount]

/-- An entry is written for which there is room, and as much of it as the length allows. -/
theorem writeEntry_eq {s : State} {dirh : XfsDir} {node : XfsFsFile}
    (hr : Rooted XfsFsFile.parent s.heap) (hn : s.heap.get dirh.fc.index = some node) (host : Host)
    (len : U16) (e : Dirent) : ∃ log, writeEntry host dirh len e s =
      if len.toNat < inodeBytes dirh.flags + (entryText dirh.flags e).2.length then
        .ok none { s with log := log }
      else if len.toInt < 0 then .error .undefined { s with log := log }
      else .ok (some ((entryText dirh.flags e).1, safeStrncpy (entryText dirh.flags e).2
        (len.toNat - inodeBytes dirh.flags))) { s with log := log } := by
  unfold writeEntry inodeBytes entryText
  by_cases hf : dirh.flags = 0
  · simp only [if_pos hf]
    rw [Nat.add_comm]
    by_cases hlen : len.toNat < 4 + e.name.chars.length
    · refine ⟨s.log, ?_⟩
      rw [if_pos hlen, if_pos hlen]
      rfl
    · obtain ⟨root, ns, hc, hshort⟩ := Chain.exists hr hn
      have hcopy := host2AtariSafeStrncpy_eq (not_lt.1 hlen)
      rw [Nat.cast_ofNat] at hcopy
      have hpath := pathname_eq hc hshort host (some e.name.chars)
      generalize s.log ++ _ = log at hpath
      refine ⟨log, ?_⟩
      rw [if_neg hlen, bind_of_ok _ hpath, hcopy, if_neg hlen]
      split_ifs <;> rfl
  · simp only [if_neg hf, Nat.zero_add]
    refine ⟨s.log, ?_⟩
    by_cases hlen : len.toNat < (transformFileName e.name.chars).length
    · rw [if_pos hlen, if_pos hlen]
      rfl
    · have hcopy := host2AtariSafeStrncpy_eq (k := 0) (by rw [Nat.zero_add]; exact not_lt.1 hlen)
      rw [Nat.cast_zero, sub_zero] at hcopy
      rw [if_neg hlen, if_neg hlen, hcopy]
      split_ifs <;> rfl

variable {l : Listing} {i : Host × U16}

section

variable (h : Readable l)
include h

theorem readdirStep_bind :
    ∃ (drv : ExtDrive) (node : XfsFsFile), l.fs.heap.get l.dirh.fc.index = some node ∧
      xfsReaddir i.1 l.dirh i.2 l.fs = (match unread l.atRoot l.dirh.hostDir with
          | [] => pure ⟨{ l.dirh with hostDir := [] }, .error .enmfil⟩
          | e :: rest => do
            let written ← writeEntry i.1 l.dirh i.2 e
            match written with
            | none => pure ⟨{ l.dirh with hostDir := rest }, .error .erange⟩
            | some written => do
              let index ← newChild i.1 l.dirh.fc.index e.name.chars
              pure ⟨{ l.dirh with index := l.dirh.index + 1, hostDir := rest },
                .ok (⟨drv.fsDrv, l.dirh.fc.dev, 0, index⟩, written)⟩ : Xfs Readdir) l.fs := by
  obtain ⟨drv, hdrv⟩ := h.mounted
  obtain ⟨node, hn⟩ := h.live
  have hroot : l.atRoot = node.parent.isNone := by
    rw [Listing.atRoot, hn]
    rfl
  refine ⟨drv, node, hn, ?_⟩
  rw [hroot]
  unfold xfsReaddir
  rw [bind_of_ok _ (rfl : (get : Xfs State) l.fs = .ok l.fs l.fs), hdrv]
  exact bind_of_ok _ (deref_ok hn)

theorem readdirStep_done (hu : unread l.atRoot l.dirh.hostDir = []) :
    readdirStep l i = (⟨l.fs, { l.dirh with hostDir := [] }⟩, .ok (.error .enmfil)) := by
  obtain ⟨drv, node, -, heq⟩ := readdirStep_bind h (i := i)
  unfold readdirStep
  rw [heq, hu]
  rfl

variable {e : Dirent} {rest : List Dirent}

/-- One `readdir` at an entry that is not skipped. -/
theorem readdirStep_unread (hu : unread l.atRoot l.dirh.hostDir = e :: rest) :
    ∃ log, readdirStep l i =
      if i.2.toNat < inodeBytes l.dirh.flags + (entryText l.dirh.flags e).2.length then
        (⟨{ l.fs with log := log }, { l.dirh with hostDir := rest }⟩, .ok (.error .erange))
      else if i.2.toInt < 0 then (⟨{ l.fs with log := log }, l.dirh⟩, .error .undefined)
      else
        (⟨{ l.fs with log := log, heap := withChild i.1 l.fs.heap l.dirh.fc.index e.name.chars },
            { l.dirh with index := l.dirh.index + 1, hostDir := rest }⟩,
          .ok (.ok ((entryText l.dirh.flags e).1, safeStrncpy (entryText l.dirh.flags e).2
            (i.2.toNat - inodeBytes l.dirh.flags)))) := by
  obtain ⟨drv, node, hn, heq⟩ := readdirStep_bind h (i := i)
  obtain ⟨log, hw⟩ := writeEntry_eq h.rooted hn i.1 i.2 e
  refine ⟨log, ?_⟩
  unfold readdirStep
  rw [heq, hu]
  dsimp only
  split_ifs at hw ⊢ with hlen hneg
  · rw [bind_of_ok _ hw]
    rfl
  · rw [bind_of_error _ hw]
  · have hchild := newChild_ok (s := { l.fs with log := log }) hn i.1 e.name.chars
    rw [bind_of_ok _ hw]
    dsimp only
    rw [bind_of_ok _ hchild]
    rfl

/-- One `readdir` leaves a listing that can be read on. -/
theorem Readable.step (i : Host × U16) :
    Readable (readdirStep l i).1 ∧ (readdirStep l i).1.atRoot = l.atRoot ∧
      (readdirStep l i).1.dirh.flags = l.dirh.flags := by
  cases hu : unread l.atRoot l.dirh.hostDir with
  | nil =>
    rw [readdirStep_done h hu]
    exact ⟨⟨h.rooted, h.live, h.mounted⟩, rfl, rfl⟩
  | cons e rest =>
    obtain ⟨log, heq⟩ := readdirStep_unread h hu (i := i)
    rw [heq]
    split_ifs with hlen hneg
    · exact ⟨⟨h.rooted, h.live, h.mounted⟩, rfl, rfl⟩
    · exact ⟨⟨h.rooted, h.live, h.mounted⟩, rfl, rfl⟩
    · obtain ⟨node, hn⟩ := h.live
      have hkeeps : Keeps l.fs.heap (withChild i.1 l.fs.heap l.dirh.fc.index e.name.chars) :=
        keeps_withChild _ _ _
      obtain ⟨node', hn', hparent, -⟩ := hkeeps _ _ hn
      refine ⟨⟨?_, ⟨node', hn'⟩, h.mounted⟩, ?_, rfl⟩
      · exact rooted_withChild h.rooted hn _
      · simp only [Listing.atRoot, hn, hn', Option.any_some, hparent]

omit h in
theorem safeStrncpy_eq_iff {s : Str} {len : U16} {k : ℕ} (hk : k = 0 ∨ s ≠ [])
    (hlen : ¬ len.toNat < k + s.length) :
    safeStrncpy s (len.toNat - k) = s ↔ k + s.length ≤ len.toNat - 1 := by
  have hpos : k = 0 ∨ 0 < s.length := hk.imp_right List.length_pos_iff.2
  rw [safeStrncpy, List.take_eq_self_iff]
  omega

theorem serves_done (hu : unread l.atRoot l.dirh.hostDir = []) :
    Serves readdirStep Listing.left readdirAnswer l i := by
  have hvis := visible_eq_unread l.atRoot l.dirh.hostDir
  rw [hu] at hvis
  refine ⟨.done, ?_, ?_⟩
  · rw [readdirStep_done h hu]
    rfl
  · have hleft : l.left = [] := by rw [Listing.left, hvis]; rfl
    have hleft' : (readdirStep l i).1.left = [] := by
      rw [Listing.left, (h.step i).2.1, readdirStep_done h hu, visible_eq_unread]
      cases l.atRoot <;> rfl
    rw [hleft, hleft']
    exact .done

theorem serves_entry_iff (hu : unread l.atRoot l.dirh.hostDir = e :: rest) :
    Serves readdirStep Listing.left readdirAnswer l i ↔ 0 ≤ i.2.toInt ∧
      inodeBytes l.dirh.flags + (entryText l.dirh.flags e).2.length ≤ i.2.toNat - 1 := by
  obtain ⟨-, hroot, hflags⟩ := h.step i
  have hleft : l.left = entryText l.dirh.flags e ::
      (visible l.atRoot rest).map (entryText l.dirh.flags) := by
    rw [Listing.left, visible_eq_unread, hu]
    rfl
  have hleft' : ∀ {dirh : XfsDir}, (readdirStep l i).1.dirh = dirh → dirh.hostDir = rest →
      (readdirStep l i).1.left = (visible l.atRoot rest).map (entryText l.dirh.flags) := by
    rintro dirh rfl hrest
    rw [Listing.left, hroot, hflags, hrest]
  obtain ⟨log, heq⟩ := readdirStep_unread h hu (i := i)
  split_ifs at heq with hlen hneg
  · -- the entry is gone
    refine iff_of_false ?_ (by omega)
    rintro ⟨a, ha, hy⟩
    rw [heq] at ha
    obtain rfl := Option.some.inj ha
    rw [hleft' (by rw [heq]) rfl, hleft, yields_noRoom_iff] at hy
    exact absurd (congrArg List.length hy) (by simp)
  · refine iff_of_false ?_ (fun hroom => absurd hroom.1 (not_le.2 hneg))
    rintro ⟨a, ha, -⟩
    rw [heq] at ha
    cases ha
  · have hne : inodeBytes l.dirh.flags = 0 ∨ (entryText l.dirh.flags e).2 ≠ [] := by
      unfold inodeBytes entryText
      split_ifs
      · exact .inr e.name.ne_nil
      · exact .inl rfl
    rw [and_iff_right (not_lt.1 hneg), ← safeStrncpy_eq_iff hne hlen]
    constructor
    · rintro ⟨a, ha, hy⟩
      rw [heq] at ha
      obtain rfl := Option.some.inj ha
      rw [hleft, yields_item_iff] at hy
      exact congrArg Prod.snd hy.1
    · intro hfull
      refine ⟨.item (entryText l.dirh.flags e), ?_, ?_⟩
      · rw [heq, hfull]
        rfl
      · rw [hleft' (by rw [heq]) rfl, hleft]
        exact .item _ _

theorem serves_iff : Serves readdirStep Listing.left readdirAnswer l i ↔ Roomy l i := by
  have hvis := visible_eq_unread l.atRoot l.dirh.hostDir
  unfold Roomy
  cases hu : unread l.atRoot l.dirh.hostDir with
  | nil =>
    rw [hu] at hvis
    rw [hvis]
    exact iff_of_true (serves_done h hu) fun e he => by cases he
  | cons e rest =>
    rw [hu] at hvis
    rw [serves_entry_iff h hu, hvis]
    simp

end

/-- The root of a drive, with one file in it. -/
def oneFile : Listing :=
  ⟨⟨[(2, ⟨2, 0, 0, 0, ['/', 'r', '/'], ['C', ':', '/'], false⟩)],
      [(0, ⟨none, 1, 0, false, ['/', 'r', '/']⟩)], []⟩,
    ⟨cookieAt 0, 0, 0, [⟨7, ['a', 'b'], by decide, by decide⟩]⟩⟩

end Aranym.HostFs
