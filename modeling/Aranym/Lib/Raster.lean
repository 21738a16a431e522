/-
  Pictures that are changed dot by dot.

  A picture is a function of addresses.  A `dot` is an address with what is to
  be done there, and `paint` does a list of them in order, each on the value
  that the one before left.
-/
import Mathlib.Algebra.Order.BigOperators.Group.Finset
import Mathlib.Tactic.Linarith

namespace Lib

open List Function

variable {α β γ : Type*} [DecidableEq α]

/-! ## Painting -/

/-- The value at the address of the dot is replaced. -/
def dot (f : β → γ → γ) (m : α → γ) (d : α × β) : α → γ := Function.update m d.1 (f d.2 (m d.1))

/-- Dots one after the other. -/
def paint (f : β → γ → γ) (ds : List (α × β)) (m : α → γ) : α → γ := ds.foldl (dot f) m

variable {f : β → γ → γ} {m : α → γ}

theorem paint_cons (d : α × β)
    (ds : List (α × β)) : paint f (d :: ds) m = paint f ds (dot f m d) := rfl

theorem paint_append (ds es : List (α × β)) : paint f (ds ++ es) m = paint f es (paint f ds m) :=
  foldl_append

theorem paint_apply (ds : List (α × β)) (a : α) :
    paint f ds m a = (ds.filter fun d => d.1 = a).foldl (fun v d => f d.2 v) (m a) := by
  induction ds generalizing m with
  | nil => rfl
  | cons d ds ih =>
    rw [paint_cons, ih]
    by_cases h : d.1 = a
    · subst h
      simp [dot]
    · simp [dot, h, update_of_ne (.symm h)]

theorem paint_apply_of_not_mem {ds : List (α × β)} {a : α} (h : a ∉ ds.map Prod.fst) :
    paint f ds m a = m a := by
  have hnone : (ds.filter fun d => d.1 = a) = [] := by
    rw [filter_eq_nil_iff]
    intro d hd
    simp only [decide_eq_true_eq]
    rintro rfl
    exact h (mem_map_of_mem hd)
  rw [paint_apply, hnone]
  rfl

theorem paint_apply_of_mem {ds : List (α × β)} (hn : (ds.map Prod.fst).Nodup) {d : α × β}
    (hd : d ∈ ds) : paint f ds m d.1 = f d.2 (m d.1) := by
  induction ds generalizing m with
  | nil => simp at hd
  | cons e ds ih =>
    rw [map_cons, nodup_cons] at hn
    rw [paint_cons]
    rcases List.mem_cons.1 hd with rfl | hd
    · rw [paint_apply_of_not_mem hn.1]
      simp [dot]
    · have hne : d.1 ≠ e.1 := by
        intro heq
        exact hn.1 (heq ▸ mem_map_of_mem hd)
      rw [ih hn.2 hd]
      simp [dot, update_of_ne hne]

/-- Dots that replace what is there, if all dots at an address agree. -/
theorem paint_over_apply {ds : List (α × γ)} {a : α} {v : γ} (ha : a ∈ ds.map Prod.fst)
    (hv : ∀ d ∈ ds, d.1 = a → d.2 = v) : paint (fun v _ => v) ds m a = v := by
  induction ds generalizing m with
  | nil => simp at ha
  | cons e ds ih =>
    rw [paint_cons]
    by_cases hmem : a ∈ ds.map Prod.fst
    · exact ih hmem fun d hd => hv d (mem_cons_of_mem e hd)
    · have he : a = e.1 := (List.mem_cons.1 ha).resolve_right hmem
      rw [paint_apply_of_not_mem hmem, dot, he, update_self]
      exact hv e mem_cons_self he.symm

theorem paint_over_congr {ds : List (α × γ)} {a : α} (ha : a ∈ ds.map Prod.fst) (m m' : α → γ) :
    paint (fun v _ => v) ds m a = paint (fun v _ => v) ds m' a := by
  induction ds generalizing m m' with
  | nil => simp at ha
  | cons e ds ih =>
    rw [paint_cons, paint_cons]
    by_cases hmem : a ∈ ds.map Prod.fst
    · exact ih hmem _ _
    · have he : a = e.1 := (List.mem_cons.1 ha).resolve_right hmem
      rw [paint_apply_of_not_mem hmem, paint_apply_of_not_mem hmem, dot, dot, he,
        update_self, update_self]

theorem foldl_paint {ι σ : Type*} {step : σ → ι → σ} {picture : σ → α → γ} {ds : ι → List (α × β)}
    (hstep : ∀ s i, picture (step s i) = paint f (ds i) (picture s)) (l : List ι) (s : σ) :
    picture (l.foldl step s) = paint f (l.flatMap ds) (picture s) := by
  induction l generalizing s with
  | nil => rfl
  | cons i l ih => rw [foldl_cons, ih, hstep, flatMap_cons, paint_append]

/-- Dots that take themselves back, in any order: the same ones again restore the picture. -/
theorem paint_again (hinv : ∀ b v, f b (f b v) = v) (hcomm : ∀ b c v, f b (f c v) = f c (f b v))
    {ds es : List (α × β)} (h : ds.Perm es) : paint f es (paint f ds m) = m := by
  have hswap : RightCommutative (dot f : (α → γ) → α × β → α → γ) := by
    refine ⟨fun m d e => funext fun a => ?_⟩
    by_cases hd : d.1 = e.1
    · simp [dot, hd, hcomm d.2]
    · simp [dot, hd, Ne.symm hd, update_comm hd]
  -- so the last dot can be the first one that is taken back
  have hback : paint f es (paint f ds m) = ds.reverse.foldl (dot f) (paint f ds m) :=
    (h.symm.trans (reverse_perm ds).symm).foldl_eq _
  rw [hback]
  clear h hback
  induction ds generalizing m with
  | nil => rfl
  | cons d ds ih =>
    rw [reverse_cons, foldl_append, paint_cons, ih]
    simp [dot, hinv]

/-! ## Paths -/

/-- The dots of a path: address `a k` with `f k`, for the first `n` numbers. -/
def path (n : ℕ) (a : ℕ → α) (b : ℕ → β) : List (α × β) := (List.range n).map fun k => (a k, b k)

section
omit [DecidableEq α]

variable {n : ℕ} {a a' : ℕ → α} {b b' : ℕ → β}

@[simp] theorem length_path : (path n a b).length = n := by simp [path]

theorem mem_path {d : α × β} : d ∈ path n a b ↔ ∃ k < n, (a k, b k) = d := by simp [path]

theorem path_succ :
    path (n + 1) a b = (a 0, b 0) :: path n (fun k => a (k + 1)) fun k => b (k + 1) := by
  simp [path, range_succ_eq_map, comp_def]

theorem map_fst_path : (path n a b).map Prod.fst = (List.range n).map a := by
  simp [path, comp_def]

theorem path_congr (ha : ∀ k < n, a k = a' k) (hb : ∀ k < n, b k = b' k) :
    path n a b = path n a' b' := by
  refine map_congr_left fun k hk => ?_
  rw [ha k (List.mem_range.1 hk), hb k (List.mem_range.1 hk)]

theorem reverse_path :
    (path n a b).reverse = path n (fun k => a (n - 1 - k)) fun k => b (n - 1 - k) := by
  refine ext_getElem (by simp) fun k h1 h2 => ?_
  simp [path]

theorem perm_bits_iff (hinj : ∀ j < n, ∀ k < n, a j = a k → j = k) :
    (path n a b).Perm (path n a b') ↔ ∀ k < n, b k = b' k := by
  constructor
  · intro h k hk
    obtain ⟨j, hj, heq⟩ := mem_path.1 (h.subset (mem_path.2 ⟨k, hk, rfl⟩))
    rw [Prod.mk.injEq] at heq
    rw [← heq.2, hinj j hj k hk heq.1]
  · intro h
    rw [path_congr (fun _ _ => rfl) h]

end

/-- A path that is nowhere behind another has its dots only if it is the same. -/
theorem perm_le_iff {n : ℕ} {a a' : ℕ → ℤ} {b : ℕ → β} (hle : ∀ k < n, a k ≤ a' k) :
    (path n a b).Perm (path n a' b) ↔ ∀ k < n, a k = a' k := by
  constructor
  · intro h k hk
    have hsum := (h.map Prod.fst).sum_eq
    rw [map_fst_path, map_fst_path] at hsum
    have hall := (Finset.sum_eq_sum_iff_of_le fun i hi => hle i (Finset.mem_range.1 hi)).1 hsum
    exact hall k (Finset.mem_range.2 hk)
  · intro h
    rw [path_congr h fun _ _ => rfl]

/-! ## Rectangles -/

/-- Rows and columns. -/
def grid (h w : ℕ) : List (ℕ × ℕ) :=
  (List.range h).flatMap fun i => (List.range w).map fun j => (i, j)

@[simp] theorem mem_grid {h w : ℕ} {c : ℕ × ℕ} : c ∈ grid h w ↔ c.1 < h ∧ c.2 < w := by
  obtain ⟨i, j⟩ := c
  simp [grid]

theorem nodup_grid (h w : ℕ) : (grid h w).Nodup := by
  refine List.nodup_flatMap.2 ⟨fun i _ => ?_, ?_⟩
  · exact List.nodup_range.map fun j j' hj => (Prod.mk.inj hj).2
  · refine List.nodup_range.imp fun {i i'} hne => ?_
    simp only [Function.onFun, disjoint_left, mem_map]
    rintro _ ⟨j, -, rfl⟩ ⟨j', -, hj⟩
    exact hne (Prod.mk.inj hj).1.symm

/-- Raster order. -/
def Before (p q : ℕ × ℕ) : Prop := p.1 < q.1 ∨ p.1 = q.1 ∧ p.2 < q.2

theorem grid_before (h w : ℕ) : (grid h w).Pairwise Before := by
  refine List.pairwise_flatMap.2 ⟨fun i _ => ?_, ?_⟩
  · exact List.pairwise_map.2 (List.pairwise_lt_range.imp fun hlt => .inr ⟨rfl, hlt⟩)
  · refine List.pairwise_lt_range.imp fun {i i'} hlt => ?_
    simp only [mem_map]
    rintro _ ⟨j, -, rfl⟩ _ ⟨j', -, rfl⟩
    exact .inl hlt

/-- What holds of all positions in the order of the list holds in raster order. -/
theorem pairwise_grid_iff {R : ℕ × ℕ → ℕ × ℕ → Prop} {h w : ℕ} :
    (grid h w).Pairwise R ↔ ∀ p ∈ grid h w, ∀ q ∈ grid h w, Before p q → R p q := by
  have hasymm : ∀ p q, Before p q → ¬ Before q p := by
    intro p q hpq hqp
    unfold Before at hpq hqp
    omega
  constructor
  · intro hR p hp q hq hpq
    let Both : ℕ × ℕ → ℕ × ℕ → Prop := fun p q => (Before p q → R p q) ∧ (Before q p → R q p)
    have hsymm : Std.Symm Both := ⟨fun _ _ hand => ⟨hand.2, hand.1⟩⟩
    have hboth : (grid h w).Pairwise Both :=
      (hR.and (grid_before h w)).imp fun hand =>
        ⟨fun _ => hand.1, fun hqp => absurd hqp (hasymm _ _ hand.2)⟩
    have hne : p ≠ q := by
      rintro rfl
      exact hasymm p p hpq hpq
    exact (hboth.forall hp hq hne).1 hpq
  · intro hall
    refine (grid_before h w).imp_of_mem fun {p q} hp hq hpq => hall p hp q hq hpq

theorem row_bounds {width : ℕ} {step pitch x : ℤ} (hstep : 0 < step) (hrow : step * width ≤ pitch)
    (h0 : 0 ≤ x) (h1 : x < width) : 0 ≤ x * step ∧ x * step < pitch := by
  refine ⟨mul_nonneg h0 hstep.le, ?_⟩
  calc x * step < width * step := mul_lt_mul_of_pos_right h1 hstep
    _ = step * width := mul_comm _ _
    _ ≤ pitch := hrow

/-- In rows of `width` columns, `step` apart, an address tells column and row. -/
theorem row_inj {width : ℕ} {step pitch x y x' y' : ℤ} (hstep : 0 < step)
    (hrow : step * width ≤ pitch) (hx0 : 0 ≤ x) (hx : x < width) (hx₀' : 0 ≤ x') (hx' : x' < width)
    (heq : y * pitch + x * step = y' * pitch + x' * step) : x = x' ∧ y = y' := by
  have hdiv : ∀ c z, 0 ≤ c → c < pitch → (z * pitch + c) / pitch = z := by
    intro c z h0 h1
    rw [Int.add_comm, Int.add_mul_ediv_right _ _ (by omega),
      Int.ediv_eq_zero_of_lt h0 h1, Int.zero_add]
  obtain ⟨hc0, hc⟩ := row_bounds hstep hrow hx0 hx
  obtain ⟨hc₀', hc'⟩ := row_bounds hstep hrow hx₀' hx'
  have hy : y = y' := by rw [← hdiv _ y hc0 hc, heq, hdiv _ y' hc₀' hc']
  subst hy
  exact ⟨Int.eq_of_mul_eq_mul_right hstep.ne' (Int.add_left_cancel heq), rfl⟩

/-! ## Copies within one memory -/

section
variable {α γ : Type*} [DecidableEq α]

/-- A step: destination and source. -/
def copyStep (f : γ → γ → γ) (m : α → γ) (t : α × α) : α → γ :=
  Function.update m t.1 (f (m t.1) (m t.2))

/-- The steps one after the other: one may read what an earlier one has written. -/
def copySeq (f : γ → γ → γ) (steps : List (α × α)) (m : α → γ) : α → γ := steps.foldl (copyStep f) m

/-- All sources are read first. -/
def copyAll (f : γ → γ → γ) (steps : List (α × α)) (m : α → γ) : α → γ :=
  paint (fun s d => f d s) (steps.map fun t => (t.1, m t.2)) m

variable {f : γ → γ → γ} {m : α → γ}

theorem copySeq_cons (t : α × α)
    (steps : List (α × α)) : copySeq f (t :: steps) m = copySeq f steps (copyStep f m t) := rfl

variable {steps : List (α × α)}

theorem copySeq_apply_of_not_mem {a : α} (h : a ∉ steps.map Prod.fst) :
    copySeq f steps m a = m a := by
  induction steps generalizing m with
  | nil => rfl
  | cons t steps ih =>
    rw [map_cons, mem_cons, not_or] at h
    rw [copySeq_cons, ih h.2, copyStep, Function.update_of_ne h.1]

theorem copySeq_eq (h : steps.Pairwise fun t u => t.1 ≠ u.2) (m : α → γ) :
    copySeq f steps m = copyAll f steps m := by
  induction steps generalizing m with
  | nil => rfl
  | cons t steps ih =>
    rw [pairwise_cons] at h
    have hsrc : (steps.map fun u => (u.1, copyStep f m t u.2)) = steps.map fun u =>
        (u.1, m u.2) := by
      refine map_congr_left fun u hu => ?_
      rw [copyStep, Function.update_of_ne (h.1 u hu).symm]
    rw [copySeq_cons, ih h.2, copyAll, hsrc]
    rfl

theorem copySeq_eq_of_const (hf : ∀ d s s', f d s = f d s') (steps : List (α × α)) (m : α → γ) :
    copySeq f steps m = copyAll f steps m := by
  have hpaint : ∀ (steps : List (α × α)) (g g' : α × α → γ) (m : α → γ),
      paint (fun s d => f d s) (steps.map fun t => (t.1, g t)) m =
        paint (fun s d => f d s) (steps.map fun t => (t.1, g' t)) m := by
    intro steps g g'
    induction steps with
    | nil => intro m; rfl
    | cons t steps ih =>
      intro m
      rw [map_cons, map_cons, paint_cons, paint_cons, ih]
      congr 1
      rw [dot, dot, hf]
  induction steps generalizing m with
  | nil => rfl
  | cons t steps ih =>
    rw [copySeq_cons, ih, copyAll, hpaint steps _ fun u => m u.2]
    rfl

omit [DecidableEq α] in
theorem exists_first {R : α × α → α × α → Prop} {l : List (α × α)} (h : ¬ l.Pairwise R) :
    ∃ l₁ u l₂, l = l₁ ++ u :: l₂ ∧ l₁.Pairwise R ∧ ∃ t ∈ l₁, ¬ R t u := by
  induction l using List.reverseRecOn with
  | nil => exact absurd .nil h
  | append_singleton l u ih =>
    by_cases hl : l.Pairwise R
    · refine ⟨l, u, [], rfl, hl, ?_⟩
      by_contra hno
      push Not at hno
      exact h (List.pairwise_append.2 ⟨hl, pairwise_singleton _ _, fun t ht u' hu' => by
        rw [List.mem_singleton.1 hu']
        exact hno t ht⟩)
    · obtain ⟨l₁, v, l₂, rfl, hpair, hex⟩ := ih hl
      exact ⟨l₁, v, l₂ ++ [u], by simp, hpair, hex⟩

theorem copyAll_apply (hn : (steps.map Prod.fst).Nodup) {t : α × α} (ht : t ∈ steps) :
    copyAll f steps m t.1 = f (m t.1) (m t.2) := by
  have hn' : ((steps.map fun t => (t.1, m t.2)).map Prod.fst).Nodup := by rwa [map_map]
  exact paint_apply_of_mem hn' (mem_map_of_mem (f := fun t => (t.1, m t.2)) ht)

/-- Steps that depend on their sources agree with a copy at once on all memories only if none reads
    what was written. -/
theorem copySeq_eq_iff (hn : (steps.map Prod.fst).Nodup)
    (hsep : ∀ t ∈ steps, ∀ u ∈ steps, t.1 = u.2 → u.1 ≠ u.2 ∧ t.2 ≠ u.1 ∧ t.2 ≠ u.2)
    (hf : ∃ d₂ d s, f d₂ (f d s) ≠ f d₂ d) :
    (∀ m, copySeq f steps m = copyAll f steps m) ↔ steps.Pairwise fun t u => t.1 ≠ u.2 := by
  refine ⟨fun hall => ?_, fun h m => copySeq_eq h m⟩
  by_contra hconf
  obtain ⟨l₁, u, l₂, rfl, hpair, t, ht, htu⟩ := exists_first hconf
  rw [not_not] at htu
  obtain ⟨d₂, d, s, hne⟩ := hf
  have hu : u ∈ l₁ ++ u :: l₂ := by simp
  obtain ⟨h1, h2, h3⟩ := hsep t (mem_append_left _ ht) u hu htu
  -- the destination of `u`, its source, which is the destination of `t`, and the source of `t`
  let m : α → γ := fun a => if a = u.1 then d₂ else if a = u.2 then d else s
  have hm1 : m u.1 = d₂ := if_pos rfl
  have hm2 : m u.2 = d := by simp [m, h1.symm]
  have hm3 : m t.2 = s := by simp [m, h2, h3]
  rw [map_append, map_cons] at hn
  have hn1 := (List.nodup_append.1 hn).1
  have hn2 := (List.nodup_cons.1 (List.nodup_append.1 hn).2.1).1
  have hu1 : u.1 ∉ l₁.map Prod.fst :=
    fun hmem => (List.nodup_append.1 hn).2.2 _ hmem _ mem_cons_self rfl
  have hseq : copySeq f (l₁ ++ u :: l₂) m u.1 = f d₂ (f d s) := by
    have hread : copySeq f l₁ m u.2 = f d s := by
      rw [copySeq_eq hpair, ← htu, copyAll_apply hn1 ht, htu, hm2, hm3]
    have hsplit : copySeq f (l₁ ++ u :: l₂) m =
      copySeq f l₂ (copyStep f (copySeq f l₁ m) u) := foldl_append
    rw [hsplit, copySeq_apply_of_not_mem hn2, copyStep, Function.update_self,
      copySeq_apply_of_not_mem hu1, hread, hm1]
  have hsame := congrFun (hall m) u.1
  rw [hseq, copyAll_apply (by rwa [map_append, map_cons]) hu, hm1, hm2] at hsame
  exact hne hsame

end

end Lib
