import Mathlib.Data.List.Basic

/-!
Feeding data to a function that takes blocks of fixed size.

`feed` gives the whole blocks of its data to the function and returns what is left.
Data may come in pieces, if what is left of one piece is put in front of the next.
`hold` does the same but gives a block away only when more data is behind it, so that the
last block, whole or not, is left.
-/

namespace WgNx.BlockFeed

variable {σ τ α : Type*} {n : Nat}

def feed (hn : 0 < n) (f : σ → List α → σ) (s : σ) (data : List α) : σ × List α :=
  if n ≤ data.length then feed hn f (f s (data.take n)) (data.drop n) else (s, data)
termination_by data.length
decreasing_by
  rw [List.length_drop]
  omega

variable (hn : 0 < n) (f : σ → List α → σ)

theorem feed_short (s : σ) {data : List α} (h : data.length < n) :
    feed hn f s data = (s, data) := by
  rw [feed, if_neg (Nat.not_le.mpr h)]

/-- One whole block in front. -/
theorem feed_block (s : σ) {block : List α} (h : block.length = n) (data : List α) :
    feed hn f s (block ++ data) = feed hn f (f s block) data := by
  have hle : n ≤ (block ++ data).length := by
    rw [List.length_append, h]
    exact Nat.le_add_right ..
  rw [feed, if_pos hle, List.take_left' h, List.drop_left' h]

theorem length_feed_rest (s : σ) (data : List α) : (feed hn f s data).2.length < n := by
  fun_induction feed hn f s data with
  | case1 s data hle ih => exact ih
  | case2 s data hshort => exact Nat.lt_of_not_le hshort

theorem feed_pieces (s : σ) (xs ys : List α) :
    feed hn f s (xs ++ ys) = feed hn f (feed hn f s xs).1 ((feed hn f s xs).2 ++ ys) := by
  fun_induction feed hn f s xs with
  | case1 s xs hle ih =>
      have hblock : (xs.take n).length = n := List.length_take_of_le hle
      have hsplit : xs ++ ys = xs.take n ++ (xs.drop n ++ ys) := by
        rw [← List.append_assoc, List.take_append_drop]
      rw [hsplit, feed_block hn f s hblock]
      exact ih
  | case2 s xs hshort => rfl

/-- Two functions that keep a relation between their states on every block. -/
theorem feed_related {g : τ → List α → τ} {R : σ → τ → Prop}
    (hstep : ∀ s t block, block.length = n → R s t → R (f s block) (g t block))
    {s : σ} {t : τ} (h : R s t) (data : List α) :
    R (feed hn f s data).1 (feed hn g t data).1 ∧
      (feed hn f s data).2 = (feed hn g t data).2 := by
  fun_induction feed hn f s data generalizing t with
  | case1 s data hle ih =>
      rw [feed.eq_def hn g t, if_pos hle]
      exact ih (hstep s t _ (List.length_take_of_le hle) h)
  | case2 s data hshort =>
      rw [feed.eq_def hn g t, if_neg hshort]
      exact ⟨h, rfl⟩

section Hold

def hold (hn : 0 < n) (f : σ → List α → σ) (s : σ) (data : List α) : σ × List α :=
  if n < data.length then hold hn f (f s (data.take n)) (data.drop n) else (s, data)
termination_by data.length
decreasing_by
  rw [List.length_drop]
  omega

theorem hold_short (s : σ) {data : List α} (h : data.length ≤ n) :
    hold hn f s data = (s, data) := by
  rw [hold, if_neg (Nat.not_lt.mpr h)]

/-- One whole block with something behind it. -/
theorem hold_block (s : σ) {block data : List α} (h : block.length = n) (hdata : data ≠ []) :
    hold hn f s (block ++ data) = hold hn f (f s block) data := by
  have hlt : n < (block ++ data).length := by
    rw [List.length_append, h]
    exact Nat.lt_add_of_pos_right (List.length_pos_iff.mpr hdata)
  rw [hold, if_pos hlt, List.take_left' h, List.drop_left' h]

theorem length_hold_rest (s : σ) (data : List α) : (hold hn f s data).2.length ≤ n := by
  fun_induction hold hn f s data with
  | case1 s data hlt ih => exact ih
  | case2 s data hshort => exact Nat.le_of_not_lt hshort

theorem hold_pieces (s : σ) (xs ys : List α) :
    hold hn f s (xs ++ ys) = hold hn f (hold hn f s xs).1 ((hold hn f s xs).2 ++ ys) := by
  fun_induction hold hn f s xs with
  | case1 s xs hlt ih =>
      have hblock : (xs.take n).length = n := List.length_take_of_le (Nat.le_of_lt hlt)
      have hrest : xs.drop n ++ ys ≠ [] := by
        intro hnil
        exact Nat.not_le.mpr hlt (List.drop_eq_nil_iff.mp (List.append_eq_nil_iff.mp hnil).1)
      have hsplit : xs ++ ys = xs.take n ++ (xs.drop n ++ ys) := by
        rw [← List.append_assoc, List.take_append_drop]
      rw [hsplit, hold_block hn f s hblock hrest]
      exact ih
  | case2 s xs hshort => rfl

/-- The blocks by their numbers. -/
theorem hold_eq_foldl (s : σ) (data : List α) :
    hold hn f s data =
      ((List.range ((data.length - 1) / n)).foldl
        (fun s i => f s ((data.drop (n * i)).take n)) s,
        data.drop (n * ((data.length - 1) / n))) := by
  fun_induction hold hn f s data with
  | case1 s data hlt ih =>
      have hcount : (data.length - 1) / n = (data.length - n - 1) / n + 1 := by
        rw [← Nat.add_div_right _ hn]
        congr 1
        omega
      rw [ih, hcount, List.range_succ_eq_map, List.foldl_cons, List.foldl_map]
      simp only [List.length_drop, List.drop_drop, Nat.mul_succ, Nat.mul_zero, List.drop_zero,
        Nat.add_comm n]
  | case2 s data hshort =>
      have hcount : (data.length - 1) / n = 0 := by
        apply Nat.div_eq_of_lt
        omega
      rw [hcount]
      rfl

end Hold

end WgNx.BlockFeed
