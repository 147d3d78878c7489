import Mathlib.Data.Nat.ModEq
import Mathlib.Logic.Function.Basic

/-!
# Terminals

A terminal has a cursor and rows of `cols` cells, of which there is no last one. A window of
`rows` rows of it can be seen; it moves down by a row when the cursor leaves it at the end.

A program holds the window only, as a text of `rows * cols` cells, with the cursor as an index
into it, and moves the text up when the index runs over its end. `Shown` says that a text is
what can be seen of a terminal. The operations on the index and on the text keep that
(`Drawn` while the window still has to follow the cursor): `Shown.put`, `Shown.newline`,
`Shown.carriageReturn`, `Shown.back` and `Drawn.follow`.
-/

namespace Jos

variable {α : Type*}

/-- The cells by row and column, the cursor, and the first row of the window. -/
structure Terminal (α : Type*) where
  cell : ℕ → ℕ → α
  row : ℕ
  col : ℕ
  top : ℕ

namespace Terminal

/-- Write to the cell of the cursor. -/
def write (a : α) (t : Terminal α) : Terminal α :=
  { t with cell := fun r c => if r = t.row ∧ c = t.col then a else t.cell r c }

/-- Write, and go to the next cell. -/
def put (cols : ℕ) (a : α) (t : Terminal α) : Terminal α :=
  let t := t.write a
  if t.col + 1 < cols then { t with col := t.col + 1 }
  else { t with row := t.row + 1, col := 0 }

/-- To the beginning of the next row. -/
def newline (t : Terminal α) : Terminal α := { t with row := t.row + 1, col := 0 }

/-- To the beginning of the row. -/
def carriageReturn (t : Terminal α) : Terminal α := { t with col := 0 }

/-- Go back by a cell and write there, unless the cursor is on the first cell of the window. -/
def back (cols : ℕ) (a : α) (t : Terminal α) : Terminal α :=
  if t.row = t.top ∧ t.col = 0 then t
  else if t.col = 0 then write a { t with row := t.row - 1, col := cols - 1 }
  else write a { t with col := t.col - 1 }

/-- The window moves down by a row when the cursor has left it. -/
def follow (rows : ℕ) (t : Terminal α) : Terminal α :=
  if t.row < t.top + rows then t else { t with top := t.top + 1 }

/-- The text and the index `pos` are what can be seen of a terminal, of which the rows below
the window are blank. The cursor may be in the row behind the window. -/
structure Drawn (cols rows : ℕ) (blank : α) (text : ℕ → α) (pos : ℕ) (t : Terminal α) :
    Prop where
  cell : ∀ i < rows, ∀ j < cols, text (cols * i + j) = t.cell (t.top + i) j
  pos : pos = cols * (t.row - t.top) + t.col
  top_le : t.top ≤ t.row
  row_le : t.row ≤ t.top + rows
  col_lt : t.col < cols
  blank : ∀ r, t.top + rows ≤ r → ∀ j, t.cell r j = blank

/-- The same with the cursor in the window. -/
structure Shown (cols rows : ℕ) (blank : α) (text : ℕ → α) (pos : ℕ) (t : Terminal α) : Prop
    extends Drawn cols rows blank text pos t where
  row_lt : t.row < t.top + rows

variable {cols rows pos i j : ℕ} {blank : α} {text text' : ℕ → α} {t : Terminal α}

theorem index_lt (hi : i < rows) (hj : j < cols) : cols * i + j < rows * cols :=
  calc cols * i + j < cols * i + cols := Nat.add_lt_add_left hj _
    _ = cols * (i + 1) := (Nat.mul_succ cols i).symm
    _ ≤ cols * rows := Nat.mul_le_mul_left cols hi
    _ = rows * cols := Nat.mul_comm cols rows

/-- A cell and the index of the cursor. -/
theorem index_eq_iff {r c : ℕ} (hj : j < cols) (hc : c < cols) :
    cols * i + j = cols * r + c ↔ i = r ∧ j = c := by
  constructor
  · intro h
    have hdiv := congrArg (· / cols) h
    have hmod := congrArg (· % cols) h
    have hcols : 0 < cols := Nat.zero_lt_of_lt hj
    simp only [Nat.mul_add_mod, Nat.mod_eq_of_lt hj, Nat.mod_eq_of_lt hc] at hmod
    simp only [Nat.mul_add_div hcols, Nat.div_eq_of_lt hj, Nat.div_eq_of_lt hc,
      Nat.add_zero] at hdiv
    exact ⟨hdiv, hmod⟩
  · rintro ⟨rfl, rfl⟩
    rfl

theorem Shown.pos_lt (h : Shown cols rows blank text pos t) : pos < rows * cols := by
  rw [h.pos]
  exact index_lt (by have := h.row_lt; have := h.top_le; omega) h.col_lt

/-- A write to the cell of the cursor, in the text and in the terminal. -/
theorem Shown.write (h : Shown cols rows blank text pos t) (a : α)
    (htext : ∀ i < rows * cols, text' i = if i = pos then a else text i) :
    Shown cols rows blank text' pos (t.write a) := by
  have hrow := h.row_lt
  have htop := h.top_le
  refine ⟨⟨fun i hi j hj => ?_, h.pos, h.top_le, h.row_le, h.col_lt, fun r hr j => ?_⟩, h.row_lt⟩
  · have hiff : (cols * i + j = pos) = (t.top + i = t.row ∧ j = t.col) := by
      rw [h.pos, index_eq_iff hj h.col_lt]
      exact propext ⟨fun hc => ⟨by omega, hc.2⟩, fun hc => ⟨by omega, hc.2⟩⟩
    rw [htext _ (index_lt hi hj), h.cell i hi j hj]
    simp only [hiff, Terminal.write]
  · have hr' : t.top + rows ≤ r := hr
    change (if r = t.row ∧ j = t.col then a else t.cell r j) = blank
    rw [if_neg fun hc => absurd hc.1 (by omega), h.blank r hr]

/-- A character. -/
theorem Shown.put (h : Shown cols rows blank text pos t) (a : α)
    (htext : ∀ i < rows * cols, text' i = if i = pos then a else text i) :
    Drawn cols rows blank text' (pos + 1) (t.put cols a) := by
  have hw := h.write a htext
  have hrow : t.row < t.top + rows := h.row_lt
  have htop := h.top_le
  have hcol := h.col_lt
  have hpos := h.pos
  rw [Terminal.put]
  split_ifs with hnext
  · exact ⟨hw.cell, congrArg (· + 1) hpos, htop, hrow.le, hnext, hw.blank⟩
  · -- the last column: the next cell is the first one of the next row
    have hlast : t.col + 1 = cols := Nat.le_antisymm hcol (Nat.le_of_not_lt hnext)
    refine ⟨hw.cell, ?_, Nat.le_succ_of_le htop, hrow, Nat.zero_lt_of_lt hcol, hw.blank⟩
    calc pos + 1
        = cols * (t.row - t.top) + (t.col + 1) := by rw [hpos, Nat.add_assoc]
      _ = cols * (t.row + 1 - t.top) := by rw [hlast, Nat.succ_sub htop, Nat.mul_succ]

/-- The beginning of the line, from an index in it. -/
theorem sub_mod_of_col_lt {r c : ℕ} (hc : c < cols) :
    cols * r + c - (cols * r + c) % cols = cols * r := by
  rw [Nat.mul_add_mod, Nat.mod_eq_of_lt hc, Nat.add_sub_cancel]

/-- A carriage return. -/
theorem Shown.carriageReturn (h : Shown cols rows blank text pos t) :
    Shown cols rows blank text (pos - pos % cols) t.carriageReturn := by
  refine ⟨⟨h.cell, ?_, h.top_le, h.row_le, Nat.zero_lt_of_lt h.col_lt, h.blank⟩, h.row_lt⟩
  rw [h.pos, sub_mod_of_col_lt h.col_lt]
  rfl

/-- A newline. -/
theorem Shown.newline (h : Shown cols rows blank text pos t) :
    Drawn cols rows blank text (pos + cols - (pos + cols) % cols) t.newline := by
  have hpos : pos + cols = cols * (t.row + 1 - t.top) + t.col := by
    rw [h.pos, Nat.succ_sub h.top_le, Nat.mul_succ, Nat.add_right_comm]
  refine ⟨h.cell, ?_, Nat.le_succ_of_le h.top_le, h.row_lt, Nat.zero_lt_of_lt h.col_lt, h.blank⟩
  rw [hpos, sub_mod_of_col_lt h.col_lt]
  rfl

/-- The cursor is on the first cell of the window exactly when the index is 0. -/
theorem Shown.pos_eq_zero_iff (h : Shown cols rows blank text pos t) :
    pos = 0 ↔ t.row = t.top ∧ t.col = 0 := by
  have hcols : 0 < cols := Nat.zero_lt_of_lt h.col_lt
  have htop := h.top_le
  have hzero := index_eq_iff (i := t.row - t.top) (r := 0) h.col_lt hcols
  rw [Nat.mul_zero, Nat.add_zero, ← h.pos] at hzero
  rw [hzero]
  exact ⟨fun hc => ⟨by omega, hc.2⟩, fun hc => ⟨by omega, hc.2⟩⟩

/-- A backspace. -/
theorem Shown.back (h : Shown cols rows blank text pos t) (a : α)
    (htext : ∀ i < rows * cols, text' i = if i = pos - 1 then a else text i) (hpos : pos ≠ 0) :
    Shown cols rows blank text' (pos - 1) (t.back cols a) := by
  have hrow := h.row_lt
  have htop := h.top_le
  have hcol := h.col_lt
  rw [Terminal.back, if_neg fun hc => hpos (h.pos_eq_zero_iff.mpr hc)]
  split_ifs with hzero
  · -- from the first column to the end of the row above
    have habove : t.top < t.row := by
      refine Nat.lt_of_le_of_ne htop fun hc => hpos (h.pos_eq_zero_iff.mpr ⟨hc.symm, hzero⟩)
    have hindex : pos - 1 = cols * (t.row - 1 - t.top) + (cols - 1) := by
      obtain ⟨r, hr⟩ := Nat.exists_eq_add_of_lt habove
      have hsub : t.row - t.top = r + 1 := by omega
      have hsub' : t.row - 1 - t.top = r := by omega
      calc pos - 1
          = cols * (r + 1) - 1 := by rw [h.pos, hzero, hsub, Nat.add_zero]
        _ = cols * r + (cols - 1) := by rw [Nat.mul_succ, Nat.add_sub_assoc (by omega)]
        _ = cols * (t.row - 1 - t.top) + (cols - 1) := by rw [hsub']
    have hprev : Shown cols rows blank text (pos - 1)
        { t with row := t.row - 1, col := cols - 1 } :=
      ⟨⟨h.cell, hindex, Nat.le_sub_one_of_lt habove, (Nat.sub_le _ _).trans h.row_le,
        Nat.sub_lt (Nat.zero_lt_of_lt hcol) Nat.one_pos, h.blank⟩, (Nat.sub_le _ _).trans_lt hrow⟩
    exact hprev.write a htext
  · have hindex : pos - 1 = cols * (t.row - t.top) + (t.col - 1) := by
      rw [h.pos, Nat.add_sub_assoc (Nat.pos_of_ne_zero hzero)]
    have hprev : Shown cols rows blank text (pos - 1) { t with col := t.col - 1 } :=
      ⟨⟨h.cell, hindex, htop, h.row_le, (Nat.sub_le _ _).trans_lt hcol, h.blank⟩, hrow⟩
    exact hprev.write a htext

/-- The cursor is behind the window exactly when the index is behind the text. -/
theorem Drawn.pos_lt_iff (h : Drawn cols rows blank text pos t) :
    pos < rows * cols ↔ t.row < t.top + rows := by
  have htop := h.top_le
  constructor
  · intro hpos
    by_contra hrow
    have hrow' : t.row - t.top = rows := by have := h.row_le; omega
    rw [h.pos, hrow', Nat.mul_comm rows] at hpos
    omega
  · intro hrow
    rw [h.pos]
    exact index_lt (by omega) h.col_lt

/-- The window follows the cursor: the text moves up by a row. -/
theorem Drawn.scroll (h : Drawn cols rows blank text pos t) (hrows : 0 < rows)
    (hpos : rows * cols ≤ pos)
    (htext : ∀ i < rows * cols,
      text' i = if i < (rows - 1) * cols then text (i + cols) else blank) :
    Shown cols rows blank text' (pos - cols) (t.follow rows) := by
  have hrow : t.row = t.top + rows := by
    refine Nat.le_antisymm h.row_le (Nat.le_of_not_lt fun hc => ?_)
    exact absurd (h.pos_lt_iff.mpr hc) (Nat.not_lt_of_le hpos)
  obtain ⟨r, rfl⟩ : ∃ r, rows = r + 1 := ⟨rows - 1, (Nat.succ_pred_eq_of_pos hrows).symm⟩
  rw [follow, if_neg (Nat.not_lt_of_le hrow.ge)]
  refine ⟨⟨fun i hi j hj => ?_, ?_, ?_, ?_, h.col_lt, fun r' hr' => h.blank r' ?_⟩, ?_⟩
  · change text' (cols * i + j) = t.cell (t.top + 1 + i) j
    rw [htext _ (index_lt hi hj), Nat.add_assoc t.top, Nat.add_comm 1 i, Nat.add_sub_cancel]
    obtain hlt | rfl := Nat.lt_or_eq_of_le (Nat.le_of_lt_succ hi)
    · have hnext : cols * i + j + cols = cols * (i + 1) + j := by
        rw [Nat.mul_succ, Nat.add_right_comm]
      rw [if_pos (index_lt hlt hj), hnext, h.cell (i + 1) (Nat.succ_lt_succ hlt) j hj]
    · -- the last row of the window is the one that was below it
      rw [if_neg (by rw [Nat.mul_comm]; omega), h.blank _ (Nat.le_refl _)]
  · change pos - cols = cols * (t.row - (t.top + 1)) + t.col
    have hsub : t.row - t.top = t.row - (t.top + 1) + 1 := by omega
    rw [h.pos, hsub, Nat.mul_succ, Nat.add_right_comm, Nat.add_sub_cancel]
  · change t.top + 1 ≤ t.row
    omega
  · change t.row ≤ t.top + 1 + (r + 1)
    omega
  · have hr : t.top + 1 + (r + 1) ≤ r' := hr'
    omega
  · change t.row < t.top + 1 + (r + 1)
    omega

/-- The window stays where it is. -/
theorem Drawn.stay (h : Drawn cols rows blank text pos t) (hpos : pos < rows * cols) :
    Shown cols rows blank text pos (t.follow rows) := by
  have hrow := h.pos_lt_iff.mp hpos
  rw [follow, if_pos hrow]
  exact ⟨h, hrow⟩

end Terminal

end Jos
