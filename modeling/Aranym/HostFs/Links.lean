/-
  The texts of symbolic links.

  `xfs_symlink` rewrites the target that the guest asks for: `u:/x/p` and
  `/x/p` become `x:/p`, and in the mode `conv` a mount point at its beginning
  becomes the host root of the mount.  `xfs_readlink` goes the other way, from
  the canonical name of the target.
-/
import Aranym.HostFs.Effects
import Aranym.HostFs.Lexical

namespace Aranym.HostFs

open List

open Lib

/-! ## Targets -/

/-- The mounts as `std::map` has them. -/
def drives (mounts : Mounts) : List ExtDrive :=
  (mounts.insertionSort fun a b => a.1.toInt ≤ b.1.toInt).map (·.2)

/-- The mount that a guest path begins with. -/
def mountOf (mounts : Mounts) (path : Str) : Option ExtDrive :=
  applies Char.toLower ExtDrive.mountPoint (drives mounts) path

/-- The mount whose root a host path begins with. -/
def rootOf (mounts : Mounts) (path : Str) : Option ExtDrive :=
  applies id ExtDrive.hostRoot (drives mounts) path

/-- `c` is a drive letter, and what follows is a path or nothing. -/
def isDrive (c : Char) (rest : Str) : Bool :=
  (driveFromLetter c).isSome && (rest = [] || rest.head? = some '/')

variable (ftoname : Str) (host : Host) (conv : Bool)

/-- `U:/c/...` and `/c/...` as `c:/...`. -/
def driveForm : Str :=
  let ftoname :=
    match ftoname with
    | u :: ':' :: '/' :: c :: rest =>
      if u.toLower = 'u' ∧ isDrive c rest then c :: ':' :: rest else ftoname
    | '/' :: c :: rest => if isDrive c rest then c :: ':' :: rest else ftoname
    | _ => ftoname
  if ftoname.length = 2 then ftoname ++ ['/'] else ftoname

/-- `toupper(path[0]) == 'U' && path[1] == ':'`. -/
def onU : Str → Bool
  | u :: ':' :: _ => u.toUpper = 'U'
  | _ => false

/-- The last change of `xfs_symlink`: a drive letter in front becomes a small one. -/
def lowerDrive : Str → Str
  | '/' :: c :: rest =>
    if ((ftoname[1]?).bind driveFromLetter).isSome ∧ (rest = [] ∨ rest.head? = some '/') then
      '/' :: c.toLower :: rest
    else '/' :: c :: rest
  | ftoName => ftoName

/-- The text of the link that `xfs_symlink` makes for `ftoName`. -/
def linkText (conv : Bool) (mounts : Mounts) (ftoName : Str) : Str :=
  if ftoName.head? ≠ some '/' ∧ ftoName[1]? ≠ some ':' then ftoName
  else
    let ftoname := driveForm ftoName
    if conv then
      match mountOf mounts ftoname with
      | some drv =>
        lowerDrive ftoname
          (safeStrncpy (drv.hostRoot ++ ftoname.drop drv.mountPoint.length) maxPathNameLen)
      | none => lowerDrive ftoname (if onU ftoName then ftoname.drop 2 else ftoName)
    else if onU ftoName then lowerDrive ftoname (ftoName.drop 2)
    else
      match ftoname with
      | c :: ':' :: rest =>
        if (driveFromLetter c).isSome then lowerDrive ('/' :: c :: rest) ('/' :: c :: rest)
        else lowerDrive ftoname ftoname
      | _ => lowerDrive ftoname ftoname

/-- `host_readlink` of a link with this text, into a buffer of `len` bytes. -/
def hostReadlink (mounts : Mounts) (text : Str) (len : ℕ) : Str :=
  let target := text.take len
  if target.head? ≠ some '/' ∧ target.head? ≠ some '\\' ∧ target[1]? ≠ some ':' then target
  else if conv then
    let tmp := myCanonicalizeFileName host target false
    match rootOf mounts tmp with
    | some drv => safeStrncpy (drv.mountPoint ++ tmp.drop drv.hostRoot.length) len
    | none => target
  else target

/-- `xfs_symlink`, with the two arguments of `symlink`. -/
def symlinkArgs (dir : XfsCookie) (fromname toname : Str) :
    Xfs (Str × Str) := do
  let ffromName ← pathname host dir (some (fetchName fromname))
  let mounts := (← get).mounts
  let ftoName := strd2upath (fetchName toname)
  if ftoName = [] ∨ ffromName = [] then fail .efilnf
  else do
    sysCall host dir .symlink ffromName .efilnf
    pure (linkText conv mounts ftoName, ffromName)

/-- `xfs_readlink`, where `text` is what the links of the host say, into a buffer of the guest. -/
def readlinkText (text : Str → Str) (dir : XfsCookie) (len : ℕ) :
    Xfs Str := do
  let fpathName ← pathname host dir none
  touch dir.dev [(.readlink, fpathName)]
  check (host.readlink fpathName) .efilnf
  let mounts := (← get).mounts
  pure (safeStrncpy (hostReadlink host conv mounts (text fpathName) maxPathNameLen) len)

theorem xfsSymlink_eq (dir : XfsCookie) (fromname toname : Str) :
    xfsSymlink host dir fromname toname =
      (symlinkArgs host conv dir fromname toname >>= fun _ => pure ()) := by
  have hnil : strd2upath (fetchName toname) = [] ↔ fetchName toname = [] := map_eq_nil_iff
  simp only [xfsSymlink, symlinkArgs, hnil, bind_assoc]
  refine congrArg _ (funext fun ffromName => ?_)
  by_cases h : fetchName toname = [] ∨ ffromName = []
  · simp only [h, if_true]
    rfl
  · simp only [h, if_false, bind_assoc, pure_bind, bind_pure_unit]
    rfl

theorem xfsReadlink_eq (text : Str → Str) (dir : XfsCookie) (len : ℕ) :
    xfsReadlink host dir = (readlinkText host conv text dir len >>= fun _ => pure ()) := by
  simp only [xfsReadlink, readlinkText, bind_assoc, pure_bind]
  refine congrArg _ (funext fun fpathName => congrArg _ (funext fun _ => ?_))
  exact bind_pure_unit.symm

/-- What the two calls do on a table of mounts: `xfs_symlink` makes a link with the text `linkText`,
    and `xfs_readlink` returns the beginning of `hostReadlink`. -/
def Carried (mounts : Mounts) (toname : Str) : Prop :=
  (∀ dir fromname, xfsSymlink host dir fromname toname =
      (symlinkArgs host true dir fromname toname >>= fun _ => pure ()) ∧
    Triple (·.mounts = mounts) (symlinkArgs host true dir fromname toname)
      (fun r _ => r.1 = linkText true mounts (strd2upath (fetchName toname))) (·.mounts = mounts)) ∧
  ∀ text dir len,
    xfsReadlink host dir = (readlinkText host true text dir len >>= fun _ => pure ()) ∧
    Triple (·.mounts = mounts) (readlinkText host true text dir len)
      (fun r _ => ∃ path,
        r = safeStrncpy (hostReadlink host true mounts (text path) maxPathNameLen) len)
      (·.mounts = mounts)

theorem pathname_mounts {mounts : Mounts} (dir : XfsCookie) (name : Option Str) :
    Triple (·.mounts = mounts) (pathname host dir name) (fun _ t => t.mounts = mounts)
      (·.mounts = mounts) := by
  refine .get_bind fun s hs => ?_
  split
  · exact .throw fun _ h => h
  · exact .bind (touch_spec fun _ _ _ _ h => h) fun _ => .pure fun _ h => h

theorem carried (mounts : Mounts) (toname : Str) : Carried host mounts toname := by
  refine ⟨fun dir fromname => ⟨xfsSymlink_eq host true dir fromname toname, ?_⟩,
    fun text dir len => ⟨xfsReadlink_eq host true text dir len, ?_⟩⟩
  · refine .bind (pathname_mounts host dir _) fun path => .get_bind fun s hs => ?_
    dsimp only
    split_ifs
    · exact .throw fun _ h => h
    · refine .bind (sysCall_spec fun _ _ h => h) fun _ => .pure fun _ _ => ?_
      rw [hs]
  · refine .bind (pathname_mounts host dir none) fun path => ?_
    refine .bind (touch_one fun _ _ h => h) fun _ => .bind check_spec fun _ => ?_
    refine .get_bind fun s hs => .pure fun _ _ => ⟨path, ?_⟩
    rw [hs]

/-! ## What a guest path stands for -/

/-- `guest` stands for the host path `path`. -/
def Denotes (mounts : Mounts) (guest path : Str) : Prop :=
  Rewrites Char.toLower ExtDrive.mountPoint ExtDrive.hostRoot (drives mounts) (driveForm guest) path

/-- The file at a host path, by its canonical name; where there is no file, the path itself. -/
def fileAt (path : Str) : Str := (host.canonicalizeFileName path).getD path

/-- The mount points are on drives, and no guest path stands for two host paths. -/
structure Tabled (mounts : Mounts) : Prop where
  onDrive : ∀ drv ∈ drives mounts, ∃ d c rest, drv.mountPoint = d :: ':' :: c :: rest ∧
    d.toLower ≠ 'u'
  fits : ∀ drv ∈ drives mounts, drv.mountPoint.length < maxPathNameLen
  absolute : ∀ drv ∈ drives mounts, drv.hostRoot.head? = some '/'
  functional : Functional Char.toLower ExtDrive.mountPoint ExtDrive.hostRoot (drives mounts)

/-- The ways to write the path `p` on the drive `x`. -/
inductive Written (x : Char) (p : Str) : Str → Prop
  | drive : Written x p (x :: ':' :: '/' :: p)
  | unified {u : Char} : u.toLower = 'u' → Written x p (u :: ':' :: '/' :: x :: '/' :: p)
  | rooted : Written x p ('/' :: x :: '/' :: p)

/-- The link for the target `t` leads to the file, and back from it; without the drive `x`, the
    target is kept. -/
def Follows (mounts : Mounts) (x : Char) (p t : Str) : Prop :=
  (∀ root, Denotes mounts [x, ':', '/'] root → linkText true mounts t = root ++ p ∧
    ∃ path, Denotes mounts
      (hostReadlink host true mounts (linkText true mounts t) maxPathNameLen) path ∧
      fileAt host path = fileAt host (root ++ p)) ∧
  ((∀ root, ¬ Denotes mounts [x, ':', '/'] root) → t ≠ x :: ':' :: '/' :: p →
    linkText true mounts t = '/' :: x :: '/' :: p)

/-- The canonical name of `path` begins with a root, and what the buffer leaves of it is still a
    name of the file.  Without such a root `path` itself is taken for a guest path. -/
def Returns (mounts : Mounts) (path : Str) : Prop :=
  let tmp := myCanonicalizeFileName host path false
  match rootOf mounts tmp with
  | some drv =>
    fileAt host (tmp.take (drv.hostRoot.length + (maxPathNameLen - 1 - drv.mountPoint.length))) =
      fileAt host path
  | none => ∃ path', Denotes mounts path path' ∧ fileAt host path' = fileAt host path

/-- Where the text of a link leads back. -/
def Faithful (mounts : Mounts) (x : Char) (p t : Str) : Prop :=
  (∀ root, Denotes mounts [x, ':', '/'] root →
    (root ++ p).length < maxPathNameLen ∧ Returns host mounts (root ++ p)) ∧
  ((∀ root, ¬ Denotes mounts [x, ':', '/'] root) → t ≠ x :: ':' :: '/' :: p →
    t = '/' :: x :: '/' :: p ∧ mountOf mounts (x :: ':' :: '/' :: p) = none ∨
      ∃ path, Denotes mounts t path ∧ safeStrncpy path maxPathNameLen = '/' :: x :: '/' :: p)

/-! ## Forms of targets -/

section
variable {mounts : Mounts} {x : Char} {p t : Str}

theorem ne_of_driveFromLetter (hx : (driveFromLetter x).isSome) {c : Char}
    (hc : driveFromLetter c = none) : x ≠ c := by
  rintro rfl
  rw [hc] at hx
  cases hx

theorem driveForm_unified {u : Char} (hu : u.toLower = 'u') (hx : (driveFromLetter x).isSome) :
    driveForm (u :: ':' :: '/' :: x :: '/' :: p) = x :: ':' :: '/' :: p := by
  simp [driveForm, hu, isDrive, hx]

theorem driveForm_rooted (hx : (driveFromLetter x).isSome) :
    driveForm ('/' :: x :: '/' :: p) = x :: ':' :: '/' :: p := by
  have hcolon : x ≠ ':' := ne_of_driveFromLetter hx (by decide)
  simp [driveForm, isDrive, hx, hcolon]

theorem driveForm_of_ne {d c : Char} {rest : Str} (hd : d.toLower ≠ 'u') :
    driveForm (d :: ':' :: c :: rest) = d :: ':' :: c :: rest := by
  have hcolon : isDrive ':' (c :: rest) = false := by
    simp [isDrive, show driveFromLetter ':' = none by decide]
  unfold driveForm
  split <;> rename_i h
  · simp only [List.cons.injEq, true_and] at h
    obtain ⟨rfl, rfl, rfl⟩ := h
    simp [hd]
  · obtain ⟨rfl, rfl, rfl⟩ := h
    simp [hcolon]
  · simp

theorem driveForm_root (hx : (driveFromLetter x).isSome) :
    driveForm [x, ':', '/'] = [x, ':', '/'] := by
  have hslash : x ≠ '/' := ne_of_driveFromLetter hx (by decide)
  simp [driveForm, hslash]

theorem Written.driveForm_eq (ht : Written x p t) (hx : (driveFromLetter x).isSome)
    (hu : x.toLower ≠ 'u' ∨ t ≠ x :: ':' :: '/' :: p) : driveForm t = x :: ':' :: '/' :: p := by
  cases ht with
  | drive => exact driveForm_of_ne (hu.resolve_right fun h => h rfl)
  | unified hlower => exact driveForm_unified hlower hx
  | rooted => exact driveForm_rooted hx

theorem lowerDrive_colon (rest s : Str) : lowerDrive (x :: ':' :: rest) s = s := by
  have hcolon : driveFromLetter ':' = none := by decide
  unfold lowerDrive
  split
  · simp [hcolon]
  · rfl

theorem onU_unified {u : Char} {rest : Str} (hu : u.toLower = 'u') :
    onU (u :: ':' :: rest) = true := by
  have hupper : u.toUpper = 'U' := by
    rw [← Char.toUpper_toLower_eq_toUpper, hu]
    rfl
  simp [onU, hupper]

theorem onU_rooted (hx : (driveFromLetter x).isSome) : onU ('/' :: x :: p) = false := by
  have hcolon : x ≠ ':' := ne_of_driveFromLetter hx (by decide)
  simp [onU, hcolon]

theorem Written.absolute (ht : Written x p t) : t.head? = some '/' ∨ t[1]? = some ':' := by
  cases ht with
  | drive => exact .inr rfl
  | unified _ => exact .inr rfl
  | rooted => exact .inl rfl

theorem linkText_eq (ht : Written x p t) (hform : driveForm t = x :: ':' :: '/' :: p) :
    linkText true mounts t =
      match mountOf mounts (x :: ':' :: '/' :: p) with
      | some drv =>
        safeStrncpy (drv.hostRoot ++ (x :: ':' :: '/' :: p).drop drv.mountPoint.length)
          maxPathNameLen
      | none => if onU t then '/' :: p else t := by
  have habs : ¬ (t.head? ≠ some '/' ∧ t[1]? ≠ some ':') := by
    rintro ⟨hslash, hcolon⟩
    exact ht.absolute.elim hslash hcolon
  unfold linkText
  rw [if_neg habs, hform, if_pos rfl]
  simp only [lowerDrive_colon]
  rfl

variable {root : Str}

theorem Tabled.ne_u (hm : Tabled mounts) (hx : (driveFromLetter x).isSome)
    (hroot : Denotes mounts [x, ':', '/'] root) : x.toLower ≠ 'u' := by
  obtain ⟨drv, hdrv, ⟨-, hbegins⟩, -⟩ := hroot
  obtain ⟨d, c, rest, hpoint, hd⟩ := hm.onDrive drv hdrv
  rw [driveForm_root hx, hpoint] at hbegins
  have hdx := (List.cons_prefix_cons.1 hbegins).1
  rwa [← hdx]

theorem Tabled.denotes (hx : (driveFromLetter x).isSome) (hroot : Denotes mounts [x, ':', '/'] root)
    (hform : driveForm t = x :: ':' :: '/' :: p) : Denotes mounts t (root ++ p) := by
  unfold Denotes at hroot ⊢
  rw [driveForm_root hx] at hroot
  rw [hform]
  exact rewrites_append hroot p

/-- On a mounted drive, only a long text is not what it should be. -/
theorem linkText_mounted (hm : Tabled mounts) (hx : (driveFromLetter x).isSome) (ht : Written x p t)
    (hroot : Denotes mounts [x, ':', '/'] root) :
    linkText true mounts t = safeStrncpy (root ++ p) maxPathNameLen := by
  have hform := ht.driveForm_eq hx (.inl (hm.ne_u hx hroot))
  have hpath := Tabled.denotes hx hroot hform
  unfold Denotes at hpath
  rw [hform] at hpath
  obtain ⟨drv, hdrv⟩ := hpath.exists_applies
  have hfirst : mountOf mounts (x :: ':' :: '/' :: p) = some drv := hdrv
  rw [linkText_eq ht hform, hfirst, hm.functional.eq_of_applies hdrv hpath]

theorem safeStrncpy_eq_self_iff {s : Str} {count : ℕ} (hcount : 0 < count) :
    safeStrncpy s count = s ↔ s.length < count := by
  rw [safeStrncpy, take_eq_self_iff]
  omega

/-! ## Back from a host path -/

variable {host : Host} {path : Str}

theorem hostReadlink_eq (habs : path.head? = some '/') (hlen : path.length < maxPathNameLen) :
    hostReadlink host true mounts path maxPathNameLen =
      match rootOf mounts (myCanonicalizeFileName host path false) with
      | some drv => safeStrncpy
          (drv.mountPoint ++ (myCanonicalizeFileName host path false).drop drv.hostRoot.length)
            maxPathNameLen
      | none => path := by
  unfold hostReadlink
  rw [take_of_length_le hlen.le]
  simp only [habs, ne_eq, not_true_eq_false, false_and, if_false, if_true]

theorem Tabled.denotes_mountPoint_iff (hm : Tabled mounts) {drv : ExtDrive}
    (hdrv : drv ∈ drives mounts) (rest path : Str) :
    Denotes mounts (drv.mountPoint ++ rest) path ↔ path = drv.hostRoot ++ rest := by
  obtain ⟨d, c, rest', hpoint, hd⟩ := hm.onDrive drv hdrv
  have hform : driveForm (drv.mountPoint ++ rest) = drv.mountPoint ++ rest := by
    rw [hpoint]
    exact driveForm_of_ne hd
  have hne : drv.mountPoint ≠ [] := by
    rw [hpoint]
    exact cons_ne_nil _ _
  have hback : Rewrites .toLower ExtDrive.mountPoint ExtDrive.hostRoot (drives mounts)
      (drv.mountPoint ++ rest) (drv.hostRoot ++ rest) := rewrites_back hdrv hne rest
  unfold Denotes
  rw [hform]
  constructor
  · intro h
    exact hm.functional h hback
  · rintro rfl
    exact hback

theorem returns_iff (hm : Tabled mounts) (habs : path.head? = some '/')
    (hlen : path.length < maxPathNameLen) :
    (∃ path', Denotes mounts (hostReadlink host true mounts path maxPathNameLen) path' ∧
      fileAt host path' = fileAt host path) ↔ Returns host mounts path := by
  rw [hostReadlink_eq habs hlen]
  unfold Returns
  dsimp only
  generalize myCanonicalizeFileName host path false = tmp
  cases hroot : rootOf mounts tmp with
  | none => exact Iff.rfl
  | some drv =>
    have hdrv : drv ∈ drives mounts := mem_of_applies hroot
    have hbegins := begins_of_applies hroot
    have hprefix : drv.hostRoot <+: tmp := (begins_id_iff hbegins.1).1 hbegins
    have hfits := hm.fits drv hdrv
    have hcut : safeStrncpy (drv.mountPoint ++ tmp.drop drv.hostRoot.length) maxPathNameLen =
        drv.mountPoint ++ (tmp.drop drv.hostRoot.length).take
          (maxPathNameLen - 1 - drv.mountPoint.length) := by
      rw [safeStrncpy, take_append, take_of_length_le (by omega)]
    have htake : drv.hostRoot ++ (tmp.drop drv.hostRoot.length).take
          (maxPathNameLen - 1 - drv.mountPoint.length) =
        tmp.take (drv.hostRoot.length + (maxPathNameLen - 1 - drv.mountPoint.length)) := by
      rw [take_add, ← List.prefix_iff_eq_take.1 hprefix]
    simp only [hcut, hm.denotes_mountPoint_iff hdrv, exists_eq_left, htake]

theorem returns_of_root
    (hcanon : ∀ path c, host.canonicalizeFileName path = some c →
      host.canonicalizeFileName c = some c)
    (hslash : '\\' ∉ fileAt host path) {drv : ExtDrive}
    (hroot : rootOf mounts (fileAt host path) = some drv)
    (hfits : drv.mountPoint.length + (fileAt host path).length <
      maxPathNameLen + drv.hostRoot.length) :
    Returns host mounts path := by
  have htmp : myCanonicalizeFileName host path false = fileAt host path := by
    have hid : strd2upath (fileAt host path) = fileAt host path := by
      refine (map_congr_left fun c hc => ?_).trans (map_id _)
      have hback : c ≠ '\\' := by
        rintro rfl
        exact hslash hc
      simp only [hback, false_or, id_eq, ite_eq_right_iff]
      exact fun h => h.symm
    exact hid
  have hfile : fileAt host (fileAt host path) = fileAt host path := by
    cases hc : host.canonicalizeFileName path with
    | none => simp only [fileAt, hc, Option.getD_none]
    | some c => simp only [fileAt, hc, Option.getD_some, hcanon path c hc]
  unfold Returns
  dsimp only
  rw [htmp, hroot]
  dsimp only
  rw [take_of_length_le (by omega), hfile]

/-! ## Links there and back -/

theorem Tabled.root_absolute (hm : Tabled mounts) {guest : Str}
    (hroot : Denotes mounts guest root) : root.head? = some '/' := by
  obtain ⟨drv, hdrv, -, rfl⟩ := hroot
  have habs := hm.absolute drv hdrv
  rw [List.head?_append, habs]
  rfl

/-- A link to a mounted drive leads to its file exactly if its text fits and is turned back. -/
theorem follows_mounted_iff (hm : Tabled mounts) (hx : (driveFromLetter x).isSome)
    (ht : Written x p t)
    (hroot : Denotes mounts [x, ':', '/'] root) : (linkText true mounts t = root ++ p ∧
      ∃ path, Denotes mounts
        (hostReadlink host true mounts (linkText true mounts t) maxPathNameLen) path ∧
        fileAt host path = fileAt host (root ++ p)) ↔
    (root ++ p).length < maxPathNameLen ∧ Returns host mounts (root ++ p) := by
  have hlink := linkText_mounted hm hx ht hroot
  have hiff := safeStrncpy_eq_self_iff (s := root ++ p) (show 0 < maxPathNameLen by decide)
  have habs : (root ++ p).head? = some '/' := by
    rw [List.head?_append, hm.root_absolute hroot]
    rfl
  rw [← hlink] at hiff
  constructor
  · rintro ⟨heq, hback⟩
    have hlen := hiff.1 heq
    rw [heq, returns_iff hm habs hlen] at hback
    exact ⟨hlen, hback⟩
  · rintro ⟨hlen, hback⟩
    have heq := hiff.2 hlen
    rw [heq, returns_iff hm habs hlen]
    exact ⟨rfl, hback⟩

/-- Without a mount on the drive, a target that was not written as `x:/p`. -/
theorem follows_unmounted_iff (hm : Tabled mounts) (hx : (driveFromLetter x).isSome)
    (ht : Written x p t)
    (hne : t ≠ x :: ':' :: '/' :: p) : linkText true mounts t = '/' :: x :: '/' :: p ↔
      t = '/' :: x :: '/' :: p ∧ mountOf mounts (x :: ':' :: '/' :: p) = none ∨
        ∃ path, Denotes mounts t path ∧ safeStrncpy path maxPathNameLen = '/' :: x :: '/' :: p := by
  have hform := ht.driveForm_eq hx (.inr hne)
  rw [linkText_eq ht hform]
  unfold Denotes
  rw [hform]
  cases hfirst : mountOf mounts (x :: ':' :: '/' :: p) with
  | none =>
    have hnot : ¬ ∃ path,
      Rewrites Char.toLower ExtDrive.mountPoint ExtDrive.hostRoot (drives mounts)
        (x :: ':' :: '/' :: p) path ∧ safeStrncpy path maxPathNameLen = '/' :: x :: '/' :: p := by
      rintro ⟨path, hpath, -⟩
      exact not_rewrites_of_applies hfirst hpath
    rw [or_iff_left hnot, and_iff_left rfl]
    cases ht with
    | drive => exact absurd rfl hne
    | unified hlower =>
      -- the drive is gone: `/p` is left
      rw [onU_unified hlower, if_pos rfl]
      refine iff_of_false (fun h => ?_) fun h => ?_
      all_goals
        have hlen := congrArg List.length h
        simp only [length_cons] at hlen
        omega
    | rooted => simp [onU_rooted hx]
  | some drv =>
    rw [or_iff_right fun h => absurd h.2 (by simp)]
    constructor
    · intro h
      exact ⟨_, rewrites_of_applies hfirst, h⟩
    · rintro ⟨path, hpath, hcut⟩
      rwa [hm.functional.eq_of_applies hfirst hpath] at hcut

/-- The link that the guest makes for a path on the drive `x`, and what it reads back, are as they
    should be exactly under these conditions; and these are the texts that the calls carry. -/
theorem symlink_iff (host : Host) (mounts : Mounts) (x : Char) (p toname : Str) (hm : Tabled mounts)
    (hx : (driveFromLetter x).isSome) (ht : Written x p (strd2upath (fetchName toname))) :
    (Follows host mounts x p (strd2upath (fetchName toname)) ↔
      Faithful host mounts x p (strd2upath (fetchName toname))) ∧ Carried host mounts toname := by
  refine ⟨?_, carried host mounts toname⟩
  refine and_congr (forall₂_congr fun root hroot => follows_mounted_iff hm hx ht hroot) ?_
  exact forall₂_congr fun _ hne => follows_unmounted_iff hm hx ht hne

end

/-- A host without links, where every file exists. -/
def plainHost : Host :=
  { obliging with
    canonicalizeFileName := fun path =>
      some (if path.rdropWhile (· = '/') = [] then ['/'] else path.rdropWhile (· = '/')) }

/-- The drive `C:` at `/r/`. -/
def driveC : Mounts := [(2, ⟨2, 0, 0, 0, ['/', 'r', '/'], ['C', ':', '/'], false⟩)]

theorem mem_driveC {drv : ExtDrive} (hdrv : drv ∈ drives driveC) :
    drv = ⟨2, 0, 0, 0, ['/', 'r', '/'], ['C', ':', '/'], false⟩ :=
  List.mem_singleton.1 hdrv

theorem tabled_driveC : Tabled driveC := by
  refine ⟨?_, ?_, ?_, ?_⟩
  · intro drv hdrv
    rw [mem_driveC hdrv]
    exact ⟨_, _, _, rfl, by decide⟩
  · intro drv hdrv
    rw [mem_driveC hdrv]
    decide
  · intro drv hdrv
    rw [mem_driveC hdrv]
    rfl
  · rintro text out out' ⟨drv, hdrv, -, rfl⟩ ⟨drv', hdrv', -, rfl⟩
    rw [mem_driveC hdrv, mem_driveC hdrv']

theorem denotes_driveC {guest path : Str} (h : Denotes driveC guest path) :
    Begins Char.toLower ['C', ':', '/'] (driveForm guest) ∧
      path = ['/', 'r', '/'] ++ (driveForm guest).drop 3 := by
  obtain ⟨drv, hdrv, hbegins, rfl⟩ := h
  rw [mem_driveC hdrv] at hbegins ⊢
  exact ⟨hbegins, rfl⟩

theorem link_to_a : Follows plainHost driveC 'c' ['a'] ['c', ':', '/', 'a'] := by
  refine (symlink_iff plainHost driveC 'c' ['a'] ['c', ':', '/', 'a'] tabled_driveC
    (by decide) .drive).1.2 ?_
  refine ⟨fun root hroot => ?_, fun _ hne => absurd rfl hne⟩
  rw [(denotes_driveC hroot).2]
  refine ⟨by decide, returns_of_root ?_ (by decide) rfl (by decide)⟩
  rintro path c ⟨⟩
  by_cases hslash : path.rdropWhile (· = '/') = []
  · rw [if_pos hslash]
    rfl
  · simp only [plainHost, hslash, if_false, rdropWhile_idempotent]

/-- `u:/d/p` without a drive `D:` becomes `/p`, and the link to the root of `C:` is not read back as
    a path on `C:`. -/
theorem links_lost : linkText true driveC ['u', ':', '/', 'd', '/', 'p'] = ['/', 'p'] ∧
      hostReadlink plainHost true driveC (linkText true driveC ['c', ':', '/']) maxPathNameLen =
        ['/', 'r', '/'] ∧ ¬ Follows plainHost driveC 'd' ['p'] ['u', ':', '/', 'd', '/', 'p'] ∧
      ¬ Follows plainHost driveC 'c' [] ['c', ':', '/'] := by
  refine ⟨rfl, rfl, fun h => ?_, fun h => ?_⟩
  · have hnot : ∀ root, ¬ Denotes driveC ['d', ':', '/'] root := by
      intro root hroot
      exact absurd (denotes_driveC hroot).1 (by decide)
    exact absurd (h.2 hnot (by decide)) (by decide)
  · obtain ⟨-, path, hpath, -⟩ := h.1 ['/', 'r', '/'] ⟨_, mem_singleton_self _, by decide, rfl⟩
    exact absurd (denotes_driveC hpath).1 (by decide)

end Aranym.HostFs
