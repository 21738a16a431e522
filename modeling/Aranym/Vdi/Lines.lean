/-
  Lines of the NF VDI driver (`hsDrawLine`).

  `lineDots` are the dots of a line as the loops of the driver make them: the
  special cases of points, vertical and horizontal lines, and the loop with the
  accumulator for all others.
-/
import Aranym.Lib.Scan
import Aranym.Vdi.Surface

namespace Aranym.Vdi

open Lib Int

open Surface

variable (S : Surface) (pattern : U16)

/-! ## The driver -/

/-- The loop of a straight line: every `step` bytes a pixel, until `pixellast`. -/
def straightDots (step pixellast : ℤ) : ℕ → ℤ → ℕ → List (ℤ × Bool)
  | 0, _, _ => []
  | fuel + 1, pixel, ppos =>
    if pixel < pixellast then (pixel, patternBit pattern ppos) :: straightDots step pixellast fuel
      (pixel + step) (ppos + 1)
    else []

/-- `gfxHLineColor`; its coordinates are `int16`. -/
def gfxHLineColor (x1 x2 y : ℤ) : List (ℤ × Bool) :=
  let x1 := int16 x1
  let x2 := int16 x2
  let y := int16 y
  let (x1, x2) := if x1 > x2 then (x2, x1) else (x1, x2)
  let w := int16 (x2 - x1)
  if w < 0 then []
  else
    let dx := w + 1
    let pixel := S.bytes * x1 + S.pitch * y
    let pixellast := pixel + S.bytes * dx
    straightDots pattern S.bytes pixellast (pixellast - pixel).toNat pixel 0

/-- `gfxVLineColor`; its coordinates are `int16`. -/
def gfxVLineColor (x y1 y2 : ℤ) : List (ℤ × Bool) :=
  let x := int16 x
  let y1 := int16 y1
  let y2 := int16 y2
  let (y1, y2) := if y1 > y2 then (y2, y1) else (y1, y2)
  let h := int16 (y2 - y1)
  if h < 0 then []
  else
    let dy := h + 1
    let pixel := S.bytes * x + S.pitch * y1
    let pixellast := pixel + S.pitch * dy
    straightDots pattern S.pitch pixellast (pixellast - pixel).toNat pixel 0

/-- The loop of a sloped line, for `count` pixels. -/
def slopedDots (pixx pixy dx dy : ℤ) : ℕ → ℤ → ℤ → ℕ → List (ℤ × Bool)
  | 0, _, _, _ => []
  | count + 1, pixel, y, ppos =>
    let y := int16 (y + dy)
    (pixel, patternBit pattern ppos) ::
      if dx ≤ y then slopedDots pixx pixy dx dy count (pixel + pixy + pixx)
        (int16 (y - dx)) (ppos + 1)
      else slopedDots pixx pixy dx dy count (pixel + pixx) y (ppos + 1)

/-- `!last_pixel` as a number. -/
def omitted (lastPixel : Bool) : ℤ := if lastPixel then 0 else 1

/-- The general case: the long axis is `dx`, the short one `dy`, and everything is `int16`. -/
def generalLine (x1 y1 x2 y2 : ℤ) (lastPixel : Bool) : List (ℤ × Bool) :=
  let dx := int16 (x2 - x1)
  let dy := int16 (y2 - y1)
  let sx : ℤ := if dx ≥ 0 then 1 else -1
  let sy : ℤ := if dy ≥ 0 then 1 else -1
  let dx := int16 (sx * dx + 1)
  let dy := int16 (sy * dy + 1)
  let pixx : ℤ := S.bytes
  let pixy := int16 S.pitch
  -- the products are computed as `uint32`
  let pixel := pixx * x1 % 2 ^ 32 + pixy * y1 % 2 ^ 32
  let pixx := int16 (pixx * sx)
  let pixy := int16 (pixy * sy)
  let x := omitted lastPixel
  if dx < dy then slopedDots pattern pixy pixx dy dx (dy - x).toNat pixel 0 0
  else slopedDots pattern pixx pixy dx dy (dx - x).toNat pixel 0 0

/-- The single point of a line with equal ends; it depends on the pattern as a whole. -/
def pointDots (x y : ℤ) : List (ℤ × Bool) :=
  if S.Inside x y then [(S.offset x y, pattern ≠ 0)] else []

/-- The dots of `hsDrawLine`. -/
def lineDots (x1 y1 x2 y2 : ℤ) (lastPixel : Bool) : List (ℤ × Bool) :=
  if x1 = x2 ∧ y1 < y2 then gfxVLineColor S pattern x1 y1 (y2 - omitted lastPixel)
  else if x1 = x2 ∧ y1 > y2 then gfxVLineColor S pattern x1 (y2 + omitted lastPixel) y1
  else
    -- after the point the function goes on
    let point := if x1 = x2 ∧ lastPixel then pointDots S pattern x1 y1 else []
    point ++
      if y1 = y2 ∧ x1 < x2 then gfxHLineColor S pattern x1 (x2 - omitted lastPixel) y1
      else if y1 = y2 ∧ x1 > x2 then gfxHLineColor S pattern (x2 + omitted lastPixel) x1 y1
      else generalLine S pattern x1 y1 x2 y2 lastPixel

variable {S}

/-- Draws a line. -/
def hsDrawLine (px : S.Pixels) (x1 y1 x2 y2 : ℤ) (fgColor bgColor : U32) (logOp : U16)
    (lastPixel : Bool) : S.Pixels :=
  paint (plot logOp fgColor bgColor) (lineDots S pattern x1 y1 x2 y2 lastPixel) px

/-! ## The line -/

/-- The ends of a line. -/
structure Segment where
  x1 : ℤ
  y1 : ℤ
  x2 : ℤ
  y2 : ℤ
  deriving DecidableEq, Repr

/-- The direction from one coordinate to another. -/
def toward (a b : ℤ) : ℤ := if a ≤ b then 1 else -1

theorem toward_cases (a b : ℤ) : toward a b = 1 ∧ a ≤ b ∨ toward a b = -1 ∧ b < a := by
  unfold toward
  split_ifs with h
  · exact .inl ⟨rfl, h⟩
  · exact .inr ⟨rfl, by omega⟩

namespace Segment

variable (l : Segment)

/-- Its columns. -/
def width : ℕ := (l.x2 - l.x1).natAbs

/-- Its rows. -/
def height : ℕ := (l.y2 - l.y1).natAbs

/-- The extent along the major axis. -/
def longer : ℕ := max l.width l.height

/-- The extent along the minor axis. -/
def shorter : ℕ := min l.width l.height

/-- The columns passed after `k` steps along the major axis and `s` along the minor one. -/
def colAt (k s : ℕ) : ℕ := if l.width < l.height then s else k

/-- The rows passed. -/
def rowAt (k s : ℕ) : ℕ := if l.width < l.height then k else s

/-- The pixel after these steps. -/
def pixelAt (k s : ℕ) : ℤ × ℤ :=
  (l.x1 + toward l.x1 l.x2 * l.colAt k s, l.y1 + toward l.y1 l.y2 * l.rowAt k s)

/-- Pixel `k` of the line. -/
def pixel (k : ℕ) : ℤ × ℤ := l.pixelAt k (k * (l.shorter + 1) / (l.longer + 1))

/-- Its pixels. -/
def count (lastPixel : Bool) : ℕ := if lastPixel then l.longer + 1 else l.longer

/-- The offset of pixel `k`. -/
def address (S : Surface) (k : ℕ) : ℤ := S.offset (l.pixel k).1 (l.pixel k).2

/-- Both ends are in the surface.  The callers of `hsDrawLine` convert every coordinate to
    `int16`. -/
structure Within (S : Surface) : Prop where
  first : S.Inside l.x1 l.y1
  second : S.Inside l.x2 l.y2
  x1_lt : l.x1 < 0x8000
  y1_lt : l.y1 < 0x8000
  x2_lt : l.x2 < 0x8000
  y2_lt : l.y2 < 0x8000

variable {l}

theorem shorter_le : l.shorter ≤ l.longer := (min_le_left _ _).trans (le_max_left _ _)

variable {k : ℕ}

/-- The steps along the minor axis at pixel `k`. -/
abbrev minor (l : Segment) (k : ℕ) : ℕ := k * (l.shorter + 1) / (l.longer + 1)

theorem pixel_eq (k : ℕ) : l.pixel k = l.pixelAt k (l.minor k) := rfl

theorem minor_le (hk : k ≤ l.longer) : l.minor k ≤ l.shorter := by
  refine Nat.lt_succ_iff.1 ((Nat.div_lt_iff_lt_mul (by omega)).2 ?_)
  rw [mul_comm l.shorter.succ]
  exact Nat.mul_lt_mul_of_pos_right (by omega) (by omega)

theorem minor_last : l.minor l.longer = l.shorter := by
  refine le_antisymm (minor_le le_rfl) ((Nat.le_div_iff_mul_le (by omega)).2 ?_)
  have := @shorter_le l
  nlinarith

theorem minor_eq_zero (h : l.shorter = 0) (hk : k ≤ l.longer) : l.minor k = 0 :=
  Nat.le_zero.1 ((minor_le hk).trans_eq h)

theorem pixel_zero : l.pixel 0 = (l.x1, l.y1) := by simp [pixel, pixelAt, colAt, rowAt]

theorem pixel_last : l.pixel l.longer = (l.x2, l.y2) := by
  have hx : l.x1 + toward l.x1 l.x2 * l.width = l.x2 := by
    rcases toward_cases l.x1 l.x2 with ⟨h, _⟩ | ⟨h, _⟩ <;> rw [h, width] <;> omega
  have hy : l.y1 + toward l.y1 l.y2 * l.height = l.y2 := by
    rcases toward_cases l.y1 l.y2 with ⟨h, _⟩ | ⟨h, _⟩ <;> rw [h, height] <;> omega
  have hcol : l.colAt l.longer l.shorter = l.width := by
    unfold colAt longer shorter
    split_ifs <;> omega
  have hrow : l.rowAt l.longer l.shorter = l.height := by
    unfold rowAt longer shorter
    split_ifs <;> omega
  rw [pixel_eq, minor_last, pixelAt, hcol, hrow, hx, hy]

theorem between {a b : ℤ} (hk : k ≤ (b - a).natAbs) :
    min a b ≤ a + toward a b * k ∧ a + toward a b * k ≤ max a b := by
  rcases toward_cases a b with ⟨h, _⟩ | ⟨h, _⟩ <;> rw [h] <;> omega

variable {s : ℕ}

theorem colAt_le (hk : k ≤ l.longer) (hs : s ≤ l.shorter) : l.colAt k s ≤ l.width := by
  unfold colAt
  unfold longer at hk
  unfold shorter at hs
  split_ifs <;> omega

theorem rowAt_le (hk : k ≤ l.longer) (hs : s ≤ l.shorter) : l.rowAt k s ≤ l.height := by
  unfold rowAt
  unfold longer at hk
  unfold shorter at hs
  split_ifs <;> omega

theorem pixelAt_inside {S : Surface} (h : l.Within S) (hk : k ≤ l.longer) (hs : s ≤ l.shorter) :
    S.Inside (l.pixelAt k s).1 (l.pixelAt k s).2 := by
  obtain ⟨⟨h1, h2, h3, h4⟩, ⟨h5, h6, h7, h8⟩, -, -, -, -⟩ := h
  have hx := between (colAt_le hk hs)
  have hy := between (rowAt_le hk hs)
  unfold pixelAt
  refine ⟨?_, ?_, ?_, ?_⟩ <;> dsimp only <;> omega

theorem pixel_inside {S : Surface} (h : l.Within S) (hk : k ≤ l.longer) :
    S.Inside (l.pixel k).1 (l.pixel k).2 := pixelAt_inside h hk (minor_le hk)

theorem pixel_inj {j : ℕ} (h : l.pixel j = l.pixel k) : j = k := by
  have hx := (Prod.mk.inj h).1
  have hy := (Prod.mk.inj h).2
  unfold colAt at hx
  unfold rowAt at hy
  split_ifs at hx hy
  · rcases toward_cases l.y1 l.y2 with ⟨ht, _⟩ | ⟨ht, _⟩ <;> rw [ht] at hy <;> omega
  · rcases toward_cases l.x1 l.x2 with ⟨ht, _⟩ | ⟨ht, _⟩ <;> rw [ht] at hx <;> omega

theorem omitted_bounds (lastPixel : Bool) : 0 ≤ omitted lastPixel ∧ omitted lastPixel ≤ 1 := by
  cases lastPixel <;> simp [omitted]

theorem count_eq (lastPixel : Bool) :
    (l.count lastPixel : ℤ) = l.longer + 1 - omitted lastPixel := by
  cases lastPixel <;> simp [count, omitted]

theorem le_longer_of_lt_count {lastPixel : Bool} (hk : k < l.count lastPixel) : k ≤ l.longer := by
  unfold count at hk
  split_ifs at hk <;> omega

theorem address_inj {S : Surface} (h : l.Within S) (lastPixel : Bool) :
    ∀ j < l.count lastPixel, ∀ k < l.count lastPixel, l.address S j = l.address S k → j = k := by
  intro j hj k hk heq
  have hp := S.offset_inj (pixel_inside h (le_longer_of_lt_count hj))
    (pixel_inside h (le_longer_of_lt_count hk)) heq
  exact pixel_inj (Prod.ext hp.1 hp.2)

end Segment

open Segment

/-! ## The loops -/

section
variable {pattern : U16}

theorem straightDots_eq {step pixellast : ℤ} (hstep : 0 < step) :
    ∀ (n fuel : ℕ) (pixel : ℤ) (ppos : ℕ), n ≤ fuel → pixellast = pixel + step * n →
      straightDots pattern step pixellast fuel pixel ppos =
        path n (fun k => pixel + step * k) fun k => patternBit pattern ((ppos + k : ℕ) : ℤ)
  | 0, 0, _, _, _, _ => rfl
  | 0, fuel + 1, pixel, ppos, _, hl => by
    rw [straightDots, if_neg (by simp [hl])]
    rfl
  | n + 1, 0, _, _, hf, _ => absurd hf (by omega)
  | n + 1, fuel + 1, pixel, ppos, hf, hl => by
    have hrest : pixellast = pixel + step + step * n := by rw [hl]; push_cast; ring
    have hlt : pixel < pixellast := by
      have : 0 ≤ step * (n : ℤ) := by positivity
      omega
    rw [straightDots, if_pos hlt, straightDots_eq hstep n fuel _ _ (by omega) hrest, path_succ]
    congr 1
    · simp
    · refine path_congr (fun k _ => ?_) fun k _ => ?_
      · push_cast
        ring
      · rw [show ppos + 1 + k = ppos + (k + 1) by omega]

theorem length_slopedDots (pixx pixy dx dy : ℤ) :
    ∀ (count : ℕ) (pixel y : ℤ) (ppos : ℕ),
      (slopedDots pattern pixx pixy dx dy count pixel y ppos).length = count
  | 0, _, _, _ => rfl
  | count + 1, pixel, y, ppos => by
    rw [slopedDots]
    split_ifs <;> simp [length_slopedDots pixx pixy dx dy count]

theorem int16_eq_wrapAt (v : ℤ) : int16 v = wrapAt 0x8000 v := rfl

/-- The state of the loop after `j` pixels is that of the accumulator. -/
theorem slopedDots_eq (pattern : U16) (pixx pixy dx dy start : ℤ) (hdx : 0 < dx) (count j : ℕ) :
    slopedDots pattern pixx pixy dx dy count (start + j * pixx + (slopes 0x8000 dx dy j).2 * pixy)
        (slopes 0x8000 dx dy j).1 j =
      path count (fun k => start + ((j + k : ℕ) : ℤ) * pixx +
        (slopes 0x8000 dx dy (j + k)).2 * pixy)
        fun k => patternBit pattern ((j + k : ℕ) : ℤ) := by
  induction count generalizing j with
  | zero => rfl
  | succ count ih =>
    have ih := ih (j + 1)
    have hcomm : ∀ k, j + 1 + k = j + (k + 1) := fun k => by omega
    simp only [hcomm] at ih
    have hb := int16_bounds ((slopes 0x8000 dx dy j).1 + dy)
    rw [path_succ, ← ih, slopedDots, slopes_succ, Lib.slope, ← int16_eq_wrapAt]
    split_ifs with hge
    · rw [int16_of_mem (by omega) (by omega)]
      congr 2
      push_cast
      ring
    · congr 2
      push_cast
      ring

/-! ## Straight lines -/

section
variable {S : Surface}

theorem gfxHLineColor_eq {a b y : ℤ} (h0 : 0 ≤ a) (hab : a ≤ b) (hb : b < 0x8000) (hy0 : 0 ≤ y)
    (hy : y < 0x8000) :
    gfxHLineColor S pattern a b y = path (b - a + 1).toNat (fun k => S.offset (a + k) y) fun k =>
      patternBit pattern k := by
  have hpos := S.bytes_pos
  have hw : int16 (b - a) = b - a := int16_of_mem (by omega) (by omega)
  have hlen : (((b - a + 1).toNat : ℕ) : ℤ) = b - a + 1 := toNat_of_nonneg (by omega)
  have hfuel : b - a + 1 ≤ S.bytes * (b - a + 1) := le_mul_of_one_le_left (by omega) (by omega)
  unfold gfxHLineColor
  dsimp only
  rw [int16_of_mem (by omega) (by omega : a < 0x8000), int16_of_mem (by omega) hb,
    int16_of_mem (by omega) hy, if_neg (by omega : ¬ a > b)]
  rw [hw, if_neg (by omega), straightDots_eq hpos (b - a + 1).toNat _ _ _ (by omega) (by rw [hlen])]
  refine path_congr (fun k _ => ?_) fun k _ => by rw [Nat.zero_add]
  show _ = y * (S.pitch : ℤ) + (a + k) * S.bytes
  ring

theorem gfxVLineColor_eq (hp : (0 : ℤ) < S.pitch) {x a b : ℤ} (hx0 : 0 ≤ x) (hx : x < 0x8000)
    (h0 : 0 ≤ a) (hab : a ≤ b) (hb : b < 0x8000) :
    gfxVLineColor S pattern x a b = path (b - a + 1).toNat (fun k => S.offset x (a + k)) fun k =>
      patternBit pattern k := by
  have hh : int16 (b - a) = b - a := int16_of_mem (by omega) (by omega)
  have hlen : (((b - a + 1).toNat : ℕ) : ℤ) = b - a + 1 := toNat_of_nonneg (by omega)
  have hfuel : b - a + 1 ≤ S.pitch * (b - a + 1) := le_mul_of_one_le_left (by omega) (by omega)
  unfold gfxVLineColor
  dsimp only
  rw [int16_of_mem (by omega) (by omega : a < 0x8000), int16_of_mem (by omega) hb,
    int16_of_mem (by omega) hx, if_neg (by omega : ¬ a > b)]
  rw [hh, if_neg (by omega), straightDots_eq hp (b - a + 1).toNat _ _ _ (by omega) (by rw [hlen])]
  refine path_congr (fun k _ => ?_) fun k _ => by rw [Nat.zero_add]
  show _ = (a + k) * (S.pitch : ℤ) + x * S.bytes
  ring

variable {l : Segment}

theorem Segment.Within.pitch_pos (h : l.Within S) : (0 : ℤ) < S.pitch := by
  have hc := S.column_bounds h.first.1 h.first.2.1
  omega

theorem Segment.pixel_vertical (hx : l.x1 = l.x2) {k : ℕ} (hk : k ≤ l.longer) :
    l.pixel k = (l.x1, l.y1 + toward l.y1 l.y2 * k) := by
  have hwidth : l.width = 0 := by simp [Segment.width, hx]
  have hs := minor_eq_zero (by simp [shorter, hwidth]) hk
  have hk' : l.rowAt k 0 = k := by
    simp only [longer, hwidth] at hk
    unfold rowAt
    split_ifs <;> omega
  have hcol : l.colAt k 0 = 0 := by
    unfold colAt
    simp only [longer, hwidth] at hk
    split_ifs <;> omega
  rw [pixel_eq, hs, pixelAt, hcol, hk']
  simp

theorem Segment.pixel_horizontal (hy : l.y1 = l.y2) {k : ℕ} (hk : k ≤ l.longer) :
    l.pixel k = (l.x1 + toward l.x1 l.x2 * k, l.y1) := by
  have hheight : l.height = 0 := by simp [Segment.height, hy]
  have hs := minor_eq_zero (by simp [shorter, hheight]) hk
  rw [pixel_eq, hs, pixelAt, colAt, rowAt, if_neg (by omega), if_neg (by omega)]
  simp

/-- Down and to the right a straight line is drawn from its first point on. -/
theorem lineDots_forward (h : l.Within S) (lastPixel : Bool)
    (hf : l.x1 = l.x2 ∧ l.y1 < l.y2 ∨ l.y1 = l.y2 ∧ l.x1 < l.x2) :
    lineDots S pattern l.x1 l.y1 l.x2 l.y2 lastPixel =
      path (l.count lastPixel) (l.address S) fun k => patternBit pattern k := by
  obtain ⟨⟨h1, h2, h3, h4⟩, ⟨h5, h6, h7, h8⟩, hx1, hy1, hx2, hy2⟩ := id h
  have ho := omitted_bounds lastPixel
  have hcount := l.count_eq lastPixel
  simp only [longer, Segment.width, Segment.height] at hcount
  rcases hf with ⟨hx, hlt⟩ | ⟨hy, hlt⟩
  · have hn : (l.y2 - omitted lastPixel - l.y1 + 1).toNat = l.count lastPixel := by omega
    have ht : toward l.y1 l.y2 = 1 := if_pos hlt.le
    rw [lineDots, if_pos ⟨hx, hlt⟩,
      gfxVLineColor_eq h.pitch_pos h1 hx1 h3 (by omega) (by omega), hn]
    refine path_congr (fun k hk => ?_) fun _ _ => rfl
    rw [address, pixel_vertical hx (le_longer_of_lt_count hk), ht, one_mul]
  · have hn : (l.x2 - omitted lastPixel - l.x1 + 1).toNat = l.count lastPixel := by omega
    have ht : toward l.x1 l.x2 = 1 := if_pos hlt.le
    rw [lineDots, if_neg (by omega), if_neg (by omega), if_neg (by omega), if_pos ⟨hy, hlt⟩,
      gfxHLineColor_eq h1 (by omega) (by omega) h3 hy1, hn, List.nil_append]
    refine path_congr (fun k hk => ?_) fun _ _ => rfl
    rw [address, pixel_horizontal hy (le_longer_of_lt_count hk), ht, one_mul]

theorem lineDots_backward (h : l.Within S) (lastPixel : Bool)
    (hf : l.x1 = l.x2 ∧ l.y2 < l.y1 ∨ l.y1 = l.y2 ∧ l.x2 < l.x1) :
    lineDots S pattern l.x1 l.y1 l.x2 l.y2 lastPixel =
      path (l.count lastPixel) (fun k => l.address S (l.count lastPixel - 1 - k)) fun k =>
        patternBit pattern k := by
  obtain ⟨⟨h1, h2, h3, h4⟩, ⟨h5, h6, h7, h8⟩, hx1, hy1, hx2, hy2⟩ := id h
  have ho := omitted_bounds lastPixel
  have hcount := l.count_eq lastPixel
  have hle : ∀ k < l.count lastPixel, l.count lastPixel - 1 - k ≤ l.longer :=
    fun k hk => le_longer_of_lt_count (by omega : l.count lastPixel - 1 - k < l.count lastPixel)
  simp only [longer, Segment.width, Segment.height] at hcount
  rcases hf with ⟨hx, hlt⟩ | ⟨hy, hlt⟩
  · have hn : (l.y1 - (l.y2 + omitted lastPixel) + 1).toNat = l.count lastPixel := by omega
    have ht : toward l.y1 l.y2 = -1 := if_neg (by omega)
    rw [lineDots, if_neg (by omega), if_pos ⟨hx, hlt⟩,
      gfxVLineColor_eq h.pitch_pos h1 hx1 (by omega) (by omega) hy1, hn]
    refine path_congr (fun k hk => ?_) fun _ _ => rfl
    have hrow : l.y1 + -1 * ((l.count lastPixel - 1 - k : ℕ) : ℤ) =
      l.y2 + omitted lastPixel + k := by omega
    rw [address, pixel_vertical hx (hle k hk), ht, hrow]
  · have hn : (l.x1 - (l.x2 + omitted lastPixel) + 1).toNat = l.count lastPixel := by omega
    have ht : toward l.x1 l.x2 = -1 := if_neg (by omega)
    rw [lineDots, if_neg (by omega), if_neg (by omega), if_neg (by omega), if_neg (by omega),
      if_pos ⟨hy, hlt⟩, gfxHLineColor_eq (by omega) (by omega) hx1 h3 hy1, hn, List.nil_append]
    refine path_congr (fun k hk => ?_) fun _ _ => rfl
    have hcol : l.x1 + -1 * ((l.count lastPixel - 1 - k : ℕ) : ℤ) =
      l.x2 + omitted lastPixel + k := by omega
    rw [address, pixel_horizontal hy (hle k hk), ht, hcol]

/-! ## Sloped lines -/

/-- Where the general loop is after `k` steps along the major axis and `s` along the minor one. -/
def loopAddress (S : Surface) (l : Segment) (k s : ℕ) : ℤ :=
  let start := S.bytes * l.x1 + int16 S.pitch * l.y1 % 2 ^ 32
  let pixx := S.bytes * toward l.x1 l.x2
  let pixy := int16 (int16 S.pitch * toward l.y1 l.y2)
  start + l.colAt k s * pixx + l.rowAt k s * pixy

/-- The short steps of the loop. -/
def loopSteps (l : Segment) (k : ℕ) : ℕ := (slopes 0x8000 (l.longer + 1) (l.shorter + 1) k).2

theorem generalLine_eq (h : l.Within S) (lastPixel : Bool) :
    generalLine S pattern l.x1 l.y1 l.x2 l.y2 lastPixel =
      let dx := int16 (l.width + 1)
      let dy := int16 (l.height + 1)
      let start := S.bytes * l.x1 + int16 S.pitch * l.y1 % 2 ^ 32
      let pixx := S.bytes * toward l.x1 l.x2
      let pixy := int16 (int16 S.pitch * toward l.y1 l.y2)
      if dx < dy then slopedDots pattern pixy pixx dy dx (dy - omitted lastPixel).toNat start 0 0
      else slopedDots pattern pixx pixy dx dy (dx - omitted lastPixel).toNat start 0 0 := by
  obtain ⟨⟨h1, h2, h3, h4⟩, ⟨h5, h6, h7, h8⟩, hx1, hy1, hx2, hy2⟩ := h
  have hle := S.bytes_le
  have hdir : ∀ a b : ℤ, (if b - a ≥ 0 then (1 : ℤ) else -1) = toward a b := by
    intro a b
    unfold toward
    split_ifs <;> omega
  have habs : ∀ a b : ℤ, toward a b * (b - a) + 1 = ((b - a).natAbs : ℤ) + 1 := by
    intro a b
    rcases toward_cases a b with ⟨ht, _⟩ | ⟨ht, _⟩ <;> rw [ht] <;> omega
  have hpixx : int16 (S.bytes * toward l.x1 l.x2) = S.bytes * toward l.x1 l.x2 := by
    rcases toward_cases l.x1 l.x2 with ⟨ht, _⟩ | ⟨ht, _⟩ <;> rw [ht] <;> exact int16_of_mem
      (by omega) (by omega)
  have hcolumn : S.bytes * l.x1 ≤ 4 * l.x1 := mul_le_mul_of_nonneg_right S.bytes_le h1
  have hstart : S.bytes * l.x1 % 2 ^ 32 = S.bytes * l.x1 := emod_eq_of_lt (by positivity) (by omega)
  unfold generalLine
  dsimp only
  rw [int16_of_mem (by omega) (by omega : l.x2 - l.x1 < 0x8000),
    int16_of_mem (by omega) (by omega : l.y2 - l.y1 < 0x8000),
    hdir, hdir, habs, habs, hpixx, hstart]
  rfl

theorem generalLine_path (h : l.Within S) (hM : l.longer < 0x7fff) (lastPixel : Bool) :
    generalLine S pattern l.x1 l.y1 l.x2 l.y2 lastPixel =
      path (l.count lastPixel) (fun k => loopAddress S l k (loopSteps l k)) fun k =>
        patternBit pattern k := by
  have hw : l.width < 0x7fff := (le_max_left _ _).trans_lt hM
  have hh : l.height < 0x7fff := (le_max_right _ _).trans_lt hM
  have hcount := l.count_eq lastPixel
  rw [generalLine_eq h, int16_of_mem (by omega) (by omega : (l.width + 1 : ℤ) < 0x8000),
    int16_of_mem (by omega) (by omega : (l.height + 1 : ℤ) < 0x8000)]
  dsimp only
  unfold loopAddress loopSteps colAt rowAt
  split_ifs with h1 h2 h2
  · have hl : l.longer = l.height := max_eq_right h2.le
    have hs : l.shorter = l.width := min_eq_left h2.le
    have hn : ((l.height + 1 : ℤ) - omitted lastPixel).toNat = l.count lastPixel := by omega
    have hloop :=
      slopedDots_eq pattern (int16 (int16 S.pitch * toward l.y1 l.y2)) (S.bytes * toward l.x1 l.x2)
      (l.height + 1) (l.width + 1) (S.bytes * l.x1 + int16 S.pitch * l.y1 % 2 ^ 32) (by omega)
        (l.count lastPixel) 0
    simpa [slopes, hn, hl, hs, add_right_comm] using hloop
  · omega
  · omega
  · have hl : l.longer = l.width := max_eq_left (by omega)
    have hs : l.shorter = l.height := min_eq_right (by omega)
    have hn : ((l.width + 1 : ℤ) - omitted lastPixel).toNat = l.count lastPixel := by omega
    have hloop :=
      slopedDots_eq pattern (S.bytes * toward l.x1 l.x2) (int16 (int16 S.pitch * toward l.y1 l.y2))
      (l.width + 1) (l.height + 1) (S.bytes * l.x1 + int16 S.pitch * l.y1 % 2 ^ 32) (by omega)
        (l.count lastPixel) 0
    simpa [slopes, hn, hl, hs] using hloop

theorem length_generalLine (h : l.Within S) (hM : 0x7fff ≤ l.longer) (lastPixel : Bool) :
    (generalLine S pattern l.x1 l.y1 l.x2 l.y2 lastPixel).length ≠ l.count lastPixel := by
  obtain ⟨⟨h1, h2, h3, h4⟩, ⟨h5, h6, h7, h8⟩, hx1, hy1, hx2, hy2⟩ := id h
  have hcount := l.count_eq lastPixel
  have ho := omitted_bounds lastPixel
  have hw : l.width ≤ 0x7fff := by unfold Segment.width; omega
  have hh : l.height ≤ 0x7fff := by unfold Segment.height; omega
  have hext : ∀ e : ℕ, e ≤ 0x7fff → int16 (e + 1) = if e = 0x7fff then -0x8000
      else (e + 1 : ℤ) := by
    intro e he
    unfold int16
    split_ifs <;> omega
  rw [generalLine_eq h, hext _ hw, hext _ hh]
  dsimp only
  split_ifs <;> rw [length_slopedDots] <;> omega

theorem loopSteps_le (hM : l.longer < 0x7fff) (k : ℕ) : loopSteps l k ≤ l.minor k := by
  have hle := @shorter_le l
  have h := slopes_le (by omega : (0 : ℤ) < l.shorter + 1)
    (by omega : (l.shorter + 1 : ℤ) ≤ l.longer + 1)
    (by omega : (l.longer + 1 : ℤ) < 0x8000) k
  exact_mod_cast h

theorem loopSteps_eq_iff (hM : l.longer < 0x7fff) (n : ℕ) : (∀ k < n, loopSteps l k = l.minor k) ↔
      ∀ k, k + 1 < n → k * (l.shorter + 1) % (l.longer + 1) + (l.shorter + 1) < 0x8000 := by
  have hle := @shorter_le l
  have h := slopes_eq_iff (by omega : (0 : ℤ) < l.shorter + 1)
    (by omega : (l.shorter + 1 : ℤ) ≤ l.longer + 1)
    (by omega : (l.longer + 1 : ℤ) < 0x8000) n
  exact_mod_cast h

/-- With a pitch that is an `int16` the loop is at the pixel that it stands for. -/
theorem loopAddress_narrow (h : l.Within S) (hp : S.pitch < 0x8000) (k s : ℕ) :
    loopAddress S l k s = S.offset (l.pixelAt k s).1 (l.pixelAt k s).2 := by
  obtain ⟨⟨h1, h2, h3, h4⟩, -, hx1, hy1, -, -⟩ := id h
  have hpitch : int16 S.pitch = S.pitch := int16_of_mem (by omega) (by omega)
  have hpixy : int16 (S.pitch * toward l.y1 l.y2) = S.pitch * toward l.y1 l.y2 := by
    rcases toward_cases l.y1 l.y2 with ⟨ht, _⟩ | ⟨ht, _⟩ <;> rw [ht] <;> exact int16_of_mem
      (by omega) (by omega)
  have hle : (S.pitch : ℤ) * l.y1 ≤ 0x8000 * l.y1 := mul_le_mul_of_nonneg_right (by omega) h3
  have hstart : S.pitch * l.y1 % 2 ^ 32 = S.pitch * l.y1 :=
    emod_eq_of_lt (mul_nonneg h.pitch_pos.le h3) (by omega)
  unfold loopAddress pixelAt Surface.offset
  rw [hpitch, hpixy, hstart]
  ring

theorem narrow_perm_iff (h : l.Within S) (hp : S.pitch < 0x8000) (hM : l.longer < 0x7fff) (n : ℕ) :
    (path n (fun k => loopAddress S l k (loopSteps l k)) fun k => patternBit pattern k).Perm
        (path n (l.address S) fun k => patternBit pattern k) ↔
      ∀ k, k + 1 < n → k * (l.shorter + 1) % (l.longer + 1) + (l.shorter + 1) < 0x8000 := by
  rw [← loopSteps_eq_iff hM]
  have hb := S.bytes_pos
  have hpos := h.pitch_pos
  -- one step along the minor axis
  obtain ⟨e, hne, he⟩ : ∃ e : ℤ, e ≠ 0 ∧ ∀ k s t : ℕ, S.offset (l.pixelAt k s).1 (l.pixelAt k s).2 -
      S.offset (l.pixelAt k t).1 (l.pixelAt k t).2 = e * (s - t) := by
    have hsign : ∀ a b : ℤ, toward a b ≠ 0 := by
      intro a b
      rcases toward_cases a b with ⟨ht, _⟩ | ⟨ht, _⟩ <;> rw [ht] <;> decide
    by_cases hlt : l.width < l.height
    · refine ⟨toward l.x1 l.x2 * S.bytes, mul_ne_zero (hsign _ _) hb.ne', fun k s t => ?_⟩
      simp only [pixelAt, colAt, rowAt, if_pos hlt, Surface.offset]
      ring
    · refine ⟨toward l.y1 l.y2 * S.pitch, mul_ne_zero (hsign _ _) hpos.ne', fun k s t => ?_⟩
      simp only [pixelAt, colAt, rowAt, if_neg hlt, Surface.offset]
      ring
  have hdiff : ∀ k : ℕ, loopAddress S l k (loopSteps l k) - l.address S k =
      e * (loopSteps l k - l.minor k) := by
    intro k
    rw [loopAddress_narrow h hp]
    exact he _ _ _
  have hsteps : ∀ k : ℕ, (loopSteps l k : ℤ) - l.minor k ≤ 0 := by
    intro k
    have := loopSteps_le hM k
    omega
  have heq : ∀ k, loopAddress S l k (loopSteps l k) = l.address S k ↔
      loopSteps l k = l.minor k := by
    intro k
    rw [← sub_eq_zero, hdiff, mul_eq_zero, or_iff_right hne, sub_eq_zero, Nat.cast_inj]
  rcases lt_or_gt_of_ne hne with hneg | hgt
  · rw [List.perm_comm, perm_le_iff]
    · exact forall₂_congr fun k _ => eq_comm.trans (heq k)
    · intro k _
      have := mul_nonneg_of_nonpos_of_nonpos hneg.le (hsteps k)
      have := hdiff k
      omega
  · rw [perm_le_iff]
    · exact forall₂_congr fun k _ => heq k
    · intro k _
      have := mul_nonpos_of_nonneg_of_nonpos hgt.le (hsteps k)
      have := hdiff k
      omega

section Wide
variable (h : l.Within S) (hp : 0x8000 ≤ S.pitch) (hM : l.longer < 0x7fff)
include h hp hM

/-- Below the first row the loop of a wide surface starts beyond all its pixels. -/
theorem loopAddress_wide_gt (hy : 0 < l.y1) {k : ℕ} (hk : k ≤ l.longer) :
    l.address S k < loopAddress S l k (loopSteps l k) := by
  have hlt := S.pitch_lt
  have hgap : 0 < (0x10000 - S.pitch : ℤ) ∧ (0x10000 - S.pitch : ℤ) ≤ 0x8000 := by omega
  have hy1 := h.y1_lt
  have hy2 := h.y2_lt
  have hs := (loopSteps_le hM k).trans (minor_le hk)
  have hin := pixel_inside h hk
  have hcol := S.column_bounds hin.1 hin.2.1
  have hcol' := S.column_bounds (pixelAt_inside h hk hs).1 (pixelAt_inside h hk hs).2.1
  have hrows := rowAt_le hk hs
  have hlast := (between (rowAt_le hk (minor_le hk))).2
  have hpitch : int16 S.pitch = S.pitch - 0x10000 := by unfold int16; omega
  have hneg : -0x8000 * 0x7fff ≤ (S.pitch - 0x10000 : ℤ) * l.y1 ∧
      (S.pitch - 0x10000 : ℤ) * l.y1 < 0 := by
    have hpos : 0 < (0x10000 - S.pitch : ℤ) * l.y1 := mul_pos hgap.1 hy
    have hle : (0x10000 - S.pitch : ℤ) * l.y1 ≤ 0x8000 * l.y1 :=
      mul_le_mul_of_nonneg_right hgap.2 hy.le
    constructor <;> linarith
  have hstart : (S.pitch - 0x10000 : ℤ) * l.y1 % 2 ^ 32 = (S.pitch - 0x10000) * l.y1 + 2 ^ 32 := by
    rw [← add_emod_right, emod_eq_of_lt (by omega) (by omega)]
  have hdown : -0x8000 * 0x7fff ≤
      l.rowAt k (loopSteps l k) * int16 (int16 S.pitch * toward l.y1 l.y2) := by
    have hb := int16_bounds (int16 S.pitch * toward l.y1 l.y2)
    have hheight : l.height ≤ l.longer := le_max_right _ _
    have hle := mul_le_mul_of_nonneg_left hb.1 (natCast_nonneg (l.rowAt k (loopSteps l k)))
    linarith
  have haddr : l.address S k < 0x8000 * 0x10000 := by
    have hrow : (l.pixel k).2 ≤ 0x7fff := by
      refine hlast.trans ?_
      omega
    have hle : (l.pixel k).2 * S.pitch ≤ 0x7fff * S.pitch :=
      mul_le_mul_of_nonneg_right hrow (natCast_nonneg _)
    unfold address Surface.offset
    linarith
  unfold loopAddress
  unfold pixelAt at hcol'
  rw [hpitch] at hdown ⊢
  linarith

theorem loopAddress_wide_le (hy : l.y1 = 0) (k : ℕ) :
    loopAddress S l k (loopSteps l k) ≤ l.address S k ∧
      (loopAddress S l k (loopSteps l k) = l.address S k ↔ (l.pixel k).2 = 0) := by
  have hlt := S.pitch_lt
  have hs := loopSteps_le hM k
  have hb := S.bytes_pos
  have hble := S.bytes_le
  have hpitch : int16 S.pitch = S.pitch - 0x10000 := by unfold int16; omega
  have ht : toward l.y1 l.y2 = 1 := if_pos (by have := h.second.2.2.1; omega)
  have hpixy : int16 ((S.pitch - 0x10000 : ℤ) * 1) = S.pitch - 0x10000 := by unfold int16; omega
  have hle : l.minor k ≤ k := by
    refine Nat.div_le_of_le_mul ?_
    rw [Nat.mul_comm]
    exact Nat.mul_le_mul_right k (Nat.succ_le_succ shorter_le)
  -- the columns that it lacks are no more than the rows
  obtain ⟨hc1, hc2, hr⟩ : l.colAt k (loopSteps l k) ≤ l.colAt k (l.minor k) ∧
      l.colAt k (l.minor k) ≤
        l.colAt k (loopSteps l k) + l.rowAt k (l.minor k) ∧
      l.rowAt k (loopSteps l k) ≤ l.rowAt k (l.minor k) := by
    unfold colAt rowAt
    split_ifs <;> omega
  unfold loopAddress address pixel pixelAt Surface.offset
  rw [hpitch, ht, hpixy, hy]
  generalize l.colAt k (loopSteps l k) = c at hc1 hc2 ⊢
  generalize l.rowAt k (loopSteps l k) = r at hr ⊢
  generalize l.colAt k (l.minor k) = c' at hc1 hc2 ⊢
  generalize l.rowAt k (l.minor k) = r' at hc2 hr ⊢
  rw [mul_zero, zero_emod]
  have hcols : -(4 * (r' : ℤ)) ≤ toward l.x1 l.x2 * (S.bytes * (c' - c)) := by
    have hlack : S.bytes * ((c' : ℤ) - c) ≤ 4 * r' :=
      mul_le_mul hble (by omega) (by omega) (by omega)
    have hlack0 : 0 ≤ S.bytes * ((c' : ℤ) - c) := mul_nonneg hb.le (by omega)
    rcases toward_cases l.x1 l.x2 with ⟨ht, _⟩ | ⟨ht, _⟩ <;> rw [ht] <;> omega
  have hrows : 0 ≤ (r : ℤ) * (0x10000 - S.pitch) := mul_nonneg (by omega) (by omega)
  have hfall : (r' : ℤ) * 0x7ffc ≤ r' * (S.pitch - 4) :=
    mul_le_mul_of_nonneg_left (by omega) (natCast_nonneg r')
  refine ⟨by linarith, fun heq => ?_, fun heq => ?_⟩
  · have : 0x7ffc * (r' : ℤ) ≤ 0 := by linarith
    omega
  · have hr0 : r' = 0 := by omega
    have hc0 : c = c' := by omega
    have hr1 : r = 0 := by omega
    rw [hr0, hc0, hr1]
    ring

theorem wide_perm_iff {n : ℕ} (hn0 : 0 < n) (hn : n ≤ l.longer + 1) :
    (path n (fun k => loopAddress S l k (loopSteps l k)) fun k => patternBit pattern k).Perm
        (path n (l.address S) fun k => patternBit pattern k) ↔ ∀ k < n, (l.pixel k).2 = 0 := by
  rcases h.first.2.2.1.eq_or_lt with hy | hy
  · rw [perm_le_iff fun k _ => (loopAddress_wide_le h hp hM hy.symm k).1]
    exact forall₂_congr fun k _ => (loopAddress_wide_le h hp hM hy.symm k).2
  · have hgt : ∀ k < n, l.address S k < loopAddress S l k (loopSteps l k) :=
      fun k hk => loopAddress_wide_gt h hp hM hy (by omega)
    rw [List.perm_comm, perm_le_iff fun k hk => (hgt k hk).le]
    constructor
    · intro heq
      exact absurd (heq 0 hn0) (hgt 0 hn0).ne
    · intro hrow
      have hrow0 := hrow 0 hn0
      rw [pixel_zero] at hrow0
      exact absurd hrow0 hy.ne'

end Wide

/-! ## What is drawn -/

/-- The line is drawn: each of its pixels once, with its bit of the pattern, and nothing else. -/
structure LineDrawn (S : Surface) (pattern : U16) (l : Segment) (lastPixel : Bool) : Prop where
  once : (lineDots S pattern l.x1 l.y1 l.x2 l.y2 lastPixel).Perm
    (path (l.count lastPixel) (l.address S) fun k => patternBit pattern k)
  inside : ∀ k < l.count lastPixel, S.Inside (l.pixel k).1 (l.pixel k).2
  distinct : ∀ j < l.count lastPixel, ∀ k < l.count lastPixel, l.address S j = l.address S k → j = k
  last : lastPixel = true → l.pixel (l.count lastPixel - 1) = (l.x2, l.y2)
  pixels : ∀ (px : S.Pixels) (fgColor bgColor : U32) (logOp : U16), ∀ k < l.count lastPixel,
    hsDrawLine pattern px l.x1 l.y1 l.x2 l.y2 fgColor bgColor logOp lastPixel (l.address S k) =
      plot logOp fgColor bgColor (patternBit pattern k) (px (l.address S k))
  rest : ∀ (px : S.Pixels) (fgColor bgColor : U32) (logOp : U16) (a : ℤ),
    (∀ k < l.count lastPixel, l.address S k ≠ a) →
      hsDrawLine pattern px l.x1 l.y1 l.x2 l.y2 fgColor bgColor logOp lastPixel a = px a

/-- Each pixel is drawn once, with its bit of the pattern. -/
abbrev DrawnOnce (S : Surface) (pattern : U16) (l : Segment) (lastPixel : Bool) : Prop :=
  (lineDots S pattern l.x1 l.y1 l.x2 l.y2 lastPixel).Perm
    (path (l.count lastPixel) (l.address S) fun k => patternBit pattern k)

theorem lineDrawn_iff_perm (h : l.Within S) (lastPixel : Bool) :
    LineDrawn S pattern l lastPixel ↔ DrawnOnce S pattern l lastPixel := by
  refine ⟨LineDrawn.once, fun hperm => ?_⟩
  have hinj := address_inj h lastPixel
  have hfst := hperm.map Prod.fst
  rw [map_fst_path] at hfst
  have hnodup : ((lineDots S pattern l.x1 l.y1 l.x2 l.y2 lastPixel).map Prod.fst).Nodup := by
    refine hfst.nodup_iff.2 (List.Nodup.map_on ?_ List.nodup_range)
    intro j hj k hk
    exact hinj j (List.mem_range.1 hj) k (List.mem_range.1 hk)
  refine ⟨hperm, fun k hk => pixel_inside h (le_longer_of_lt_count hk), hinj, ?_, ?_, ?_⟩
  · rintro rfl
    exact pixel_last
  · intro px fgColor bgColor logOp k hk
    have hmem := hperm.symm.subset (mem_path.2 ⟨k, hk, rfl⟩)
    exact paint_apply_of_mem hnodup hmem
  · intro px fgColor bgColor logOp a ha
    refine paint_apply_of_not_mem fun hmem => ?_
    obtain ⟨k, hk, rfl⟩ := List.mem_map.1 (hfst.subset hmem)
    exact ha k (List.mem_range.1 hk) rfl

/-- When `hsDrawLine` draws the line. -/
def LineOk (S : Surface) (pattern : U16) (l : Segment) (lastPixel : Bool) : Prop :=
  let n := l.count lastPixel
  if l.x1 = l.x2 ∧ l.y1 = l.y2 then lastPixel = false
  else if l.x1 = l.x2 ∨ l.y1 = l.y2 then
    -- the pattern starts at the upper or left end
    l.x1 ≤ l.x2 ∧ l.y1 ≤ l.y2 ∨
      ∀ k < n, patternBit pattern k = patternBit pattern ((n - 1 - k : ℕ) : ℤ)
  else
    -- extents, accumulator and pitch are `int16`
    l.longer < 0x7fff ∧
      if S.pitch < 0x8000 then ∀ k, k + 1 < n →
        k * (l.shorter + 1) % (l.longer + 1) + (l.shorter + 1) < 0x8000
      else ∀ k < n, (l.pixel k).2 = 0

theorem point_perm_iff (h : l.Within S) (lastPixel : Bool) (hx : l.x1 = l.x2) (hy : l.y1 = l.y2) :
    DrawnOnce S pattern l lastPixel ↔ lastPixel = false := by
  have hlonger : l.longer = 0 := by
    simp [longer, Segment.width, Segment.height, hx, hy]
  have hright : ¬ (l.y1 = l.y2 ∧ l.x1 < l.x2) := by omega
  have hleft : ¬ (l.y1 = l.y2 ∧ l.x1 > l.x2) := by omega
  rw [DrawnOnce, lineDots, if_neg (by omega), if_neg (by omega), if_neg hright, if_neg hleft,
    generalLine_path h (by omega)]
  cases lastPixel with
  | false => simp [count, hlonger, path]
  | true =>
    -- the point is drawn, and then once more
    refine ⟨fun hperm => ?_, fun hf => absurd hf (by decide)⟩
    have hin : S.Inside l.x2 l.y1 := hx ▸ h.first
    have hlen := hperm.length_eq
    simp [pointDots, hin, hx] at hlen

theorem straight_perm_iff (h : l.Within S) (lastPixel : Bool)
    (hpoint : ¬ (l.x1 = l.x2 ∧ l.y1 = l.y2)) (hstraight : l.x1 = l.x2 ∨ l.y1 = l.y2) :
    DrawnOnce S pattern l lastPixel ↔ l.x1 ≤ l.x2 ∧ l.y1 ≤ l.y2 ∨
        ∀ k < l.count lastPixel,
          patternBit pattern k = patternBit pattern ((l.count lastPixel - 1 - k : ℕ) : ℤ) := by
  by_cases hf : l.x1 ≤ l.x2 ∧ l.y1 ≤ l.y2
  · rw [DrawnOnce, lineDots_forward h lastPixel (by omega)]
    exact ⟨fun _ => .inl hf, fun _ => .refl _⟩
  · rw [DrawnOnce, lineDots_backward h lastPixel (by omega), or_iff_right hf,
      ← List.reverse_perm', reverse_path]
    have hback : ∀ k < l.count lastPixel,
        l.address S (l.count lastPixel - 1 - (l.count lastPixel - 1 - k)) = l.address S k := by
      intro k hk
      rw [Nat.sub_sub_self (by omega)]
    rw [path_congr hback fun _ _ => rfl, perm_bits_iff (address_inj h lastPixel)]
    exact forall₂_congr fun k _ => eq_comm

/-- A sloped line is right while nothing that the driver keeps as `int16` overflows. -/
theorem sloped_perm_iff (h : l.Within S) (lastPixel : Bool)
    (hstraight : ¬ (l.x1 = l.x2 ∨ l.y1 = l.y2)) :
    DrawnOnce S pattern l lastPixel ↔ l.longer < 0x7fff ∧ if S.pitch < 0x8000 then
          ∀ k, k + 1 < l.count lastPixel →
          k * (l.shorter + 1) % (l.longer + 1) + (l.shorter + 1) < 0x8000
        else ∀ k < l.count lastPixel, (l.pixel k).2 = 0 := by
  rw [DrawnOnce, lineDots, if_neg (by omega), if_neg (by omega), if_neg (by omega),
    if_neg (by omega), if_neg (by omega), List.nil_append]
  rcases lt_or_ge l.longer 0x7fff with hM | hM
  · rw [generalLine_path h hM, and_iff_right hM]
    have hlong : 0 < l.longer := by
      unfold longer Segment.width
      omega
    have hcount := l.count_eq lastPixel
    have ho := omitted_bounds lastPixel
    split_ifs with hp
    · exact narrow_perm_iff h hp hM _
    · exact wide_perm_iff h (by omega) hM (by omega) (by omega)
  · refine ⟨fun hperm => ?_, fun hok => absurd hok.1 (by omega)⟩
    have hlen := hperm.length_eq
    rw [length_path] at hlen
    exact absurd hlen (length_generalLine h hM lastPixel)

/-- `hsDrawLine` draws a line whose ends are in the surface exactly under `LineOk`. -/
theorem line_drawn_iff (S : Surface) (pattern : U16) (l : Segment) (h : l.Within S)
    (lastPixel : Bool) : LineDrawn S pattern l lastPixel ↔ LineOk S pattern l lastPixel := by
  rw [lineDrawn_iff_perm h]
  unfold LineOk
  split_ifs with hpoint hstraight
  · exact point_perm_iff h lastPixel hpoint.1 hpoint.2
  · exact straight_perm_iff h lastPixel hpoint hstraight
  · rw [sloped_perm_iff h lastPixel hstraight, if_pos ‹_›]
  · rw [sloped_perm_iff h lastPixel hstraight, if_neg ‹_›]

end

end

theorem sloped_line_drawn :
    LineDrawn (plainSurface 64 64 (by decide)) 0xf0f0 ⟨1, 2, 9, 5⟩ true := by
  have hwithin : Segment.Within ⟨1, 2, 9, 5⟩ (plainSurface 64 64 (by decide)) := by
    constructor <;> decide
  have hlonger : longer ⟨1, 2, 9, 5⟩ = 8 := rfl
  have hshorter : shorter ⟨1, 2, 9, 5⟩ = 3 := rfl
  refine (line_drawn_iff (plainSurface 64 64 (by decide)) 0xf0f0 ⟨1, 2, 9, 5⟩ hwithin true).2 ?_
  rw [LineOk, if_neg (by decide), if_neg (by decide), if_pos (by decide), hlonger, hshorter]
  refine ⟨by decide, fun k _ => ?_⟩
  omega

/-- A single point in mode 3 is inverted twice. -/
theorem point_not_drawn :
    ¬ LineDrawn (plainSurface 64 64 (by decide)) 0xffff ⟨3, 3, 3, 3⟩ true := by
  intro h
  have hpixel := h.pixels (fun _ => 0) 1 0 3 0 (by decide)
  revert hpixel
  decide +kernel

end Aranym.Vdi
