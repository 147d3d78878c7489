import Jos.Kern.Console
import Jos.Library.Terminal
import Jos.Memory.Routines

/-!
# The screen is a window on a terminal

`cga_putc` keeps a cursor and 25 rows of 80 cells, and moves the rows up when the cursor runs
over their end. A reference terminal has rows without end, and never forgets one; what is on
the screen is the window of it around the cursor: `cga_refines_terminal`. It is a simulation:
`Terminal.Shown` relates the cells in memory and `crt_pos` to the terminal, and each character
keeps it (`cgaPutc_shows`).
-/

namespace Jos

/-! ### The reference -/

/-- A space, with attribute 0x07. -/
def blankCell : BitVec 16 := 0x0720#16

/-- One character on the reference terminal. A tab is five spaces. -/
def Terminal.putc (c : Word) (t : Terminal (BitVec 16)) : Terminal (BitVec 16) :=
  Terminal.follow crtRows <|
    if isChar c '\x08' then
      t.back crtCols ((attributed c &&& ~~~0xff#32 ||| (chr ' ').setWidth 32).setWidth 16)
    else if isChar c '\n' then t.newline
    else if isChar c '\r' then t.carriageReturn
    else if isChar c '\t' then (fun t => (t.put crtCols blankCell).follow crtRows)^[5] t
    else t.put crtCols ((attributed c).setWidth 16)

/-! ### Cells in memory -/

/-- `crt_buf[i]`. -/
def crtText (mono : Bool) (m : ByteMem) (i : ℕ) : BitVec 16 := load16 m (crtCell mono i)

section Cells

variable {mono : Bool} {m : ByteMem} {x : Word} {v : BitVec 16} {i j p : ℕ}

theorem crtText_eq (mono : Bool) (m : ByteMem) (i : ℕ) :
    crtText mono m i = m (crtBuf mono + BitVec.ofNat 32 (2 * i + 1)) ++
      m (crtBuf mono + BitVec.ofNat 32 (2 * i)) := by
  rw [crtText, load16, crtCell, BitVec.add_assoc, ← BitVec.ofNat_add]

theorem offset_crtBuf (mono : Bool) (hp : p < 2 ^ 32) :
    (crtBuf mono + BitVec.ofNat 32 p - crtBuf mono).toNat = p :=
  toNat_add_ofNat_sub (crtBuf mono) hp

/-- A write of a cell, byte by byte. -/
theorem store16_byte (m : ByteMem) (v : BitVec 16) (hi : i < crtSize) :
    store16 m (crtCell mono i) v x =
      if (x - crtBuf mono).toNat / 2 = i then
        (v >>> (8 * ((x - crtBuf mono).toNat - 2 * i))).setWidth 8
      else m x := by
  have hsize : crtSize = 2000 := rfl
  rw [store16, crtCell]
  obtain hlt | hge := Nat.lt_or_ge (x - crtBuf mono).toNat (2 * i)
  · rw [toNat_sub_add_of_lt (by omega) hlt, if_neg (by omega), if_neg (by omega)]
  · rw [toNat_sub_add_of_le hge]
    congr 1
    exact propext ⟨fun h => by omega, fun h => by omega⟩

theorem bytes_append (v : BitVec 16) :
    (v >>> (8 * 1)).setWidth 8 ++ (v >>> (8 * 0)).setWidth 8 = v := by
  ext i hi
  rw [BitVec.getElem_append, ← BitVec.getLsbD_eq_getElem hi]
  split_ifs
  all_goals
    rw [BitVec.getElem_setWidth, BitVec.getLsbD_ushiftRight]
    congr 1
    omega

/-- A write of a cell. -/
theorem crtText_store16 (m : ByteMem) (v : BitVec 16) (hi : i < crtSize) (hj : j < crtSize) :
    crtText mono (store16 m (crtCell mono i) v) j = if j = i then v else crtText mono m j := by
  have hsize : crtSize = 2000 := rfl
  simp only [crtText_eq, store16_byte m v hi]
  rw [offset_crtBuf mono (by omega), offset_crtBuf mono (by omega),
    show (2 * j + 1) / 2 = j by omega, Nat.mul_div_cancel_left j Nat.two_pos]
  split_ifs with h
  · rw [h, Nat.add_sub_cancel_left, Nat.sub_self, bytes_append]
  · rfl

end Cells

/-! ### Writes -/

/-- From `s` to `s'` nothing is written but cells of the screen. -/
structure WritesScreen (mono : Bool) (s s' : Crt) : Prop where
  log : ∃ events, s'.log = s.log ++ events ∧
    ∀ a len, ConsEvent.write a len ∈ events →
      ∃ i n, a = crtCell mono i ∧ len = 2 * n ∧ i + n ≤ crtSize
  frame : ∀ x, 2 * crtSize ≤ (x - crtBuf mono).toNat → s'.mem x = s.mem x

section Writes

variable {mono : Bool} {s s' s'' : Crt}

theorem WritesScreen.trans (h : WritesScreen mono s s') (h' : WritesScreen mono s' s'') :
    WritesScreen mono s s'' := by
  obtain ⟨events, hlog, hin⟩ := h.log
  obtain ⟨events', hlog', hin'⟩ := h'.log
  refine ⟨⟨events ++ events', by rw [hlog', hlog, List.append_assoc], fun a len hmem => ?_⟩,
    fun x hx => (h'.frame x hx).trans (h.frame x hx)⟩
  obtain hmem | hmem := List.mem_append.mp hmem
  · exact hin a len hmem
  · exact hin' a len hmem

/-- Events that are no writes. -/
theorem writesScreen_of_mem_eq {events : List ConsEvent} (hmem : s'.mem = s.mem)
    (hlog : s'.log = s.log ++ events) (hnone : ∀ a len, ConsEvent.write a len ∉ events) :
    WritesScreen mono s s' :=
  ⟨⟨events, hlog, fun a len h => absurd h (hnone a len)⟩, fun x _ => by rw [hmem]⟩

theorem writesScreen_of_eq (hmem : s'.mem = s.mem) (hlog : s'.log = s.log) :
    WritesScreen mono s s' := by
  refine writesScreen_of_mem_eq hmem ?_ fun a len => List.not_mem_nil
  rw [hlog, List.append_nil]

theorem crtWrite_writes (s : Crt) {i : ℕ} (hi : i < crtSize) (v : BitVec 16) :
    WritesScreen mono s (crtWrite mono i v s) := by
  have hsize : crtSize = 2000 := rfl
  refine ⟨⟨_, rfl, fun a len h => ?_⟩, fun x hx => ?_⟩
  · obtain ⟨rfl, rfl⟩ := ConsEvent.write.inj (List.mem_singleton.mp h)
    exact ⟨i, 1, rfl, rfl, hi⟩
  · change store16 s.mem (crtCell mono i) v x = s.mem x
    rw [store16_byte s.mem v hi, if_neg (by omega)]

/-- The loop that clears the last row. -/
theorem crtWrites_text (mono : Bool) (l : List ℕ) (hl : ∀ i ∈ l, i < crtSize)
    (v : BitVec 16) (s : Crt) :
    let s' := l.foldl (fun s i => crtWrite mono i v s) s
    WritesScreen mono s s' ∧ s'.crtPos = s.crtPos ∧
      ∀ j < crtSize, crtText mono s'.mem j = if j ∈ l then v else crtText mono s.mem j := by
  induction l generalizing s with
  | nil => exact ⟨writesScreen_of_eq rfl rfl, rfl, fun j _ => (if_neg (List.not_mem_nil)).symm⟩
  | cons i l ih =>
    obtain ⟨hi, hl⟩ := List.forall_mem_cons.mp hl
    obtain ⟨hwrites, hpos, htext⟩ := ih hl (crtWrite mono i v s)
    refine ⟨(crtWrite_writes s hi v).trans hwrites, hpos, fun j hj => (htext j hj).trans ?_⟩
    change (if j ∈ l then v else crtText mono (store16 s.mem (crtCell mono i) v) j) = _
    rw [crtText_store16 s.mem v hi hj]
    by_cases hjl : j ∈ l
    · rw [if_pos hjl, if_pos (List.mem_cons_of_mem i hjl)]
    · rw [if_neg hjl]
      simp only [List.mem_cons, hjl, or_false]

/-- The rows below the first one are moved up. -/
theorem crtMove_text (mono : Bool) (st : StringState) :
    let st' := (StringAsm.memmove (crtBuf mono) (crtCell mono crtCols)
      (BitVec.ofNat 32 ((crtSize - crtCols) * 2)) st).2
    (∀ x, 2 * crtSize ≤ (x - crtBuf mono).toNat → st'.mem x = st.mem x) ∧
      ∀ j < crtSize - crtCols,
        crtText mono st'.mem j = crtText mono st.mem (j + crtCols) := by
  have hsize : crtSize = 2000 := rfl
  have hcols : crtCols = 80 := rfl
  intro st'
  -- the screen lies in the address space, wherever it is
  have hmem : st'.mem = copied st.mem (crtBuf mono) (crtCell mono crtCols) 3840 := by
    cases mono with
    | false => exact (memmoveAsm_eq st (by decide) (by decide)).2
    | true => exact (memmoveAsm_eq st (by decide) (by decide)).2
  have hbyte : ∀ p < 3840, st'.mem (crtBuf mono + BitVec.ofNat 32 p) =
      st.mem (crtBuf mono + BitVec.ofNat 32 (p + 160)) := by
    intro p hp
    have hsub : crtBuf mono + BitVec.ofNat 32 p - crtBuf mono = BitVec.ofNat 32 p := by
      rw [BitVec.add_comm, BitVec.add_sub_cancel]
    calc st'.mem (crtBuf mono + BitVec.ofNat 32 p)
        = st.mem (crtCell mono crtCols + BitVec.ofNat 32 p) := by
          rw [hmem, copied_apply, offset_crtBuf mono (by omega), if_pos hp, hsub]
      _ = st.mem (crtBuf mono + BitVec.ofNat 32 (p + 160)) := by
          rw [crtCell, BitVec.add_assoc, ← BitVec.ofNat_add, hcols, Nat.add_comm]
  refine ⟨fun x hx => ?_, fun j hj => ?_⟩
  · rw [hmem, copied_apply, if_neg (by omega)]
  · rw [crtText_eq, crtText_eq, hbyte _ (by omega), hbyte _ (by omega), hcols,
      Nat.mul_add 2 j, Nat.add_right_comm]

/-- Scrolling: the text moves up by a row, and the last row is blank. -/
theorem crtScroll_text (mono : Bool) (s : Crt) :
    WritesScreen mono s (crtScroll mono s) ∧
      (crtScroll mono s).crtPos = s.crtPos - BitVec.ofNat 16 crtCols ∧
      ∀ j < crtSize, crtText mono (crtScroll mono s).mem j =
        if j < crtSize - crtCols then crtText mono s.mem (j + crtCols) else blankCell := by
  obtain ⟨hframe, hmove⟩ := crtMove_text mono s.toStringState
  have hsize : crtSize = 2000 := rfl
  have hcols : crtCols = 80 := rfl
  have hblank : 0x0700#16 ||| (chr ' ').setWidth 16 = blankCell := by decide
  unfold crtScroll
  rw [hblank]
  extract_lets len moved s₁ s₂
  have hmoved : WritesScreen mono s s₁ := by
    refine ⟨⟨_, rfl, fun a len h => ?_⟩, hframe⟩
    obtain ⟨rfl, rfl⟩ := ConsEvent.write.inj (List.mem_singleton.mp h)
    exact ⟨0, crtSize - crtCols, (BitVec.add_zero _).symm, Nat.mul_comm _ 2, by omega⟩
  -- the loop clears the last row, of which the move has left a copy above
  have hrow : ∀ i, i ∈ List.range' (crtSize - crtCols) crtCols ↔
      crtSize - crtCols ≤ i ∧ i < crtSize := by
    intro i
    rw [List.mem_range'_1]
    omega
  obtain ⟨hclear, hpos, htext⟩ :=
    crtWrites_text mono _ (fun i hi => ((hrow i).mp hi).2) blankCell s₁
  refine ⟨(hmoved.trans hclear).trans (writesScreen_of_eq rfl rfl), ?_,
    fun j hj => (htext j hj).trans ?_⟩
  · change s₂.crtPos - _ = _
    rw [hpos]
  · by_cases hj' : j < crtSize - crtCols
    · rw [if_pos hj', if_neg fun hc => absurd ((hrow j).mp hc).1 (by omega)]
      exact hmove j hj'
    · rw [if_neg hj', if_pos ((hrow j).mpr ⟨by omega, hj⟩)]

end Writes

/-! ### Characters -/

/-- The screen is the window of the terminal. -/
def CrtShows (mono : Bool) (s : Crt) (t : Terminal (BitVec 16)) : Prop :=
  t.Shown crtCols crtRows blankCell (crtText mono s.mem) s.crtPos.toNat

/-- The screen is the window of the terminal, before it follows the cursor. -/
def CrtDraws (mono : Bool) (s : Crt) (t : Terminal (BitVec 16)) : Prop :=
  t.Drawn crtCols crtRows blankCell (crtText mono s.mem) s.crtPos.toNat

section Characters

variable {mono : Bool} {s : Crt} {t : Terminal (BitVec 16)} {c : Word}

/-- The end of `cga_putc`: the text is scrolled when the cursor has left it. -/
theorem crtUpdate_shows {s₁ : Crt} (h : CrtDraws mono s₁ t) (hw : WritesScreen mono s s₁) :
    CrtShows mono (crtUpdate mono s₁) (t.follow crtRows) ∧
      WritesScreen mono s (crtUpdate mono s₁) := by
  have hcursor : ∀ s, WritesScreen mono s (crtBlinky mono s) := fun s =>
    writesScreen_of_mem_eq rfl rfl (by simp)
  rw [crtUpdate]
  split_ifs with hpos
  · obtain ⟨hwrites, hback, htext⟩ := crtScroll_text mono s₁
    refine ⟨?_, (hw.trans hwrites).trans (hcursor _)⟩
    have hsub : (crtScroll mono s₁).crtPos.toNat = s₁.crtPos.toNat - crtCols := by
      rw [hback]
      refine BitVec.toNat_sub_of_le (BitVec.le_def.mpr (Nat.le_trans ?_ hpos))
      decide
    change (t.follow crtRows).Shown crtCols crtRows blankCell _ (crtScroll mono s₁).crtPos.toNat
    rw [hsub]
    exact h.scroll (by decide) hpos htext
  · exact ⟨h.stay (Nat.lt_of_not_le hpos), hw.trans (hcursor s₁)⟩

/-- `case '\b'`, behind the first cell. -/
theorem crtBack_draws (h : CrtShows mono s t) (hpos : s.crtPos > 0#16) (v : BitVec 16) :
    let s₁ := crtWrite mono (s.crtPos - 1#16).toNat v { s with crtPos := s.crtPos - 1#16 }
    CrtDraws mono s₁ (t.back crtCols v) ∧ WritesScreen mono s s₁ := by
  have hlt : s.crtPos.toNat < crtSize := h.pos_lt
  have hne : s.crtPos.toNat ≠ 0 := Nat.ne_of_gt (BitVec.lt_def.mp hpos)
  have hsub : (s.crtPos - 1#16).toNat = s.crtPos.toNat - 1 :=
    BitVec.toNat_sub_of_le (BitVec.le_def.mpr (Nat.pos_of_ne_zero hne))
  have hlt' : s.crtPos.toNat - 1 < crtSize := (Nat.sub_le _ _).trans_lt hlt
  have hback : (t.back crtCols v).Shown crtCols crtRows blankCell
      (crtText mono (store16 s.mem (crtCell mono (s.crtPos.toNat - 1)) v)) (s.crtPos.toNat - 1) :=
    h.back v (fun i hi => crtText_store16 s.mem v hlt' hi) hne
  rw [← hsub] at hback hlt'
  have hmoved : WritesScreen mono s { s with crtPos := s.crtPos - 1#16 } :=
    writesScreen_of_eq rfl rfl
  exact ⟨hback.toDrawn, hmoved.trans (crtWrite_writes _ hlt' v)⟩

theorem crtReturn_pos (s : Crt) :
    (crtReturn s).crtPos.toNat = s.crtPos.toNat - s.crtPos.toNat % crtCols := by
  have hmod : (s.crtPos % BitVec.ofNat 16 crtCols).toNat = s.crtPos.toNat % crtCols :=
    BitVec.toNat_umod
  rw [crtReturn, BitVec.toNat_sub_of_le (BitVec.le_def.mpr (hmod ▸ Nat.mod_le _ _)), hmod]

/-- `case '\n'`. -/
theorem crtNewline_draws (h : CrtShows mono s t) :
    let s₁ := crtReturn { s with crtPos := s.crtPos + BitVec.ofNat 16 crtCols }
    CrtDraws mono s₁ t.newline ∧ WritesScreen mono s s₁ := by
  have hlt : s.crtPos.toNat < 2000 := h.pos_lt
  have hadd : (s.crtPos + BitVec.ofNat 16 crtCols).toNat = s.crtPos.toNat + crtCols :=
    BitVec.toNat_add_of_lt (Nat.lt_trans (Nat.add_lt_add_right hlt _) (by decide))
  refine ⟨?_, writesScreen_of_eq rfl rfl⟩
  have hnewline := h.newline
  rw [← hadd, ← crtReturn_pos { s with crtPos := s.crtPos + BitVec.ofNat 16 crtCols }] at hnewline
  exact hnewline

/-- `case '\r'`. -/
theorem crtReturn_draws (h : CrtShows mono s t) :
    CrtDraws mono (crtReturn s) t.carriageReturn ∧ WritesScreen mono s (crtReturn s) := by
  refine ⟨?_, writesScreen_of_eq rfl rfl⟩
  have hreturn := h.carriageReturn.toDrawn
  rw [← crtReturn_pos] at hreturn
  exact hreturn

/-- `default`. -/
theorem crtPut_draws (h : CrtShows mono s t) (v : BitVec 16) :
    let s₀ := crtWrite mono s.crtPos.toNat v s
    let s₁ := { s₀ with crtPos := s₀.crtPos + 1#16 }
    CrtDraws mono s₁ (t.put crtCols v) ∧ WritesScreen mono s s₁ := by
  have hlt : s.crtPos.toNat < crtSize := h.pos_lt
  have hadd : (s.crtPos + 1#16).toNat = s.crtPos.toNat + 1 :=
    BitVec.toNat_add_of_lt (Nat.lt_trans (Nat.add_lt_add_right hlt _) (by decide))
  have hput := h.put v fun i hi => crtText_store16 s.mem v hlt hi
  rw [← hadd] at hput
  exact ⟨hput, (crtWrite_writes s hlt v).trans (writesScreen_of_eq rfl rfl)⟩

/-- A character that is no tab. -/
theorem cgaPutc_plain (h : CrtShows mono s t) (hc : ¬ isChar c '\t') :
    CrtShows mono (cgaPutc mono c s) (t.putc c) ∧ WritesScreen mono s (cgaPutc mono c s) := by
  rw [cgaPutc, Terminal.putc]
  simp only [if_neg hc]
  by_cases hb : isChar c '\x08'
  · simp only [if_pos hb]
    by_cases hpos : s.crtPos > 0#16
    · simp only [if_pos hpos]
      obtain ⟨hdraws, hwrites⟩ := crtBack_draws h hpos
        ((attributed c &&& ~~~0xff#32 ||| (chr ' ').setWidth 32).setWidth 16)
      exact crtUpdate_shows hdraws hwrites
    · -- on the first cell nothing is erased
      simp only [if_neg hpos]
      have hzero : s.crtPos.toNat = 0 := by
        simpa [BitVec.lt_def] using hpos
      rw [Terminal.back, if_pos (h.pos_eq_zero_iff.mp hzero)]
      exact crtUpdate_shows h.toDrawn (writesScreen_of_eq rfl rfl)
  · simp only [if_neg hb]
    by_cases hn : isChar c '\n'
    · simp only [if_pos hn]
      exact crtUpdate_shows (crtNewline_draws h).1 (crtNewline_draws h).2
    · simp only [if_neg hn]
      by_cases hr : isChar c '\r'
      · simp only [if_pos hr]
        exact crtUpdate_shows (crtReturn_draws h).1 (crtReturn_draws h).2
      · simp only [if_neg hr]
        obtain ⟨hdraws, hwrites⟩ := crtPut_draws h ((attributed c).setWidth 16)
        exact crtUpdate_shows hdraws hwrites

/-- `cons_putc` of a character that is no tab. -/
theorem consPutc_plain (h : CrtShows mono s t) (hc : ¬ isChar c '\t') :
    CrtShows mono (consPutc mono c s) (t.putc c) ∧ WritesScreen mono s (consPutc mono c s) := by
  have h₁ : CrtShows mono { s with log := s.log ++ [.serial c, .lpt c] } t := h
  have hevents : WritesScreen mono s { s with log := s.log ++ [.serial c, .lpt c] } :=
    writesScreen_of_mem_eq rfl rfl (by simp)
  obtain ⟨hshows, hwrites⟩ := cgaPutc_plain h₁ hc
  rw [consPutc]
  exact ⟨hshows, hevents.trans hwrites⟩

/-- The character that a tab is made of. -/
theorem consPutc_blank (h : CrtShows mono s t) :
    CrtShows mono (consPutc mono ((chr ' ').setWidth 32) s)
        ((t.put crtCols blankCell).follow crtRows) ∧
      WritesScreen mono s (consPutc mono ((chr ' ').setWidth 32) s) := by
  have hputc : t.putc ((chr ' ').setWidth 32) = (t.put crtCols blankCell).follow crtRows := by
    rw [Terminal.putc, if_neg (by decide), if_neg (by decide), if_neg (by decide),
      if_neg (by decide)]
    rfl
  rw [← hputc]
  exact consPutc_plain h (by decide)

/-- Every character keeps the window. -/
theorem cgaPutc_shows (h : CrtShows mono s t) (c : Word) :
    CrtShows mono (cgaPutc mono c s) (t.putc c) ∧ WritesScreen mono s (cgaPutc mono c s) := by
  by_cases hc : isChar c '\t'
  · have hb : ¬ isChar c '\x08' := fun hb => absurd (hc.symm.trans hb) (by decide)
    have hn : ¬ isChar c '\n' := fun hn => absurd (hc.symm.trans hn) (by decide)
    have hr : ¬ isChar c '\r' := fun hr => absurd (hc.symm.trans hr) (by decide)
    rw [cgaPutc, Terminal.putc]
    simp only [if_neg hb, if_neg hn, if_neg hr, if_pos hc, Function.iterate_succ_apply,
      Function.iterate_zero, id]
    -- the five spaces have scrolled when they had to, so the tab itself does not
    obtain ⟨h₁, hw₁⟩ := consPutc_blank h
    obtain ⟨h₂, hw₂⟩ := consPutc_blank h₁
    obtain ⟨h₃, hw₃⟩ := consPutc_blank h₂
    obtain ⟨h₄, hw₄⟩ := consPutc_blank h₃
    obtain ⟨h₅, hw₅⟩ := consPutc_blank h₄
    have hdraws := h₅.toDrawn
    exact crtUpdate_shows hdraws (hw₁.trans (hw₂.trans (hw₃.trans (hw₄.trans hw₅))))
  · exact cgaPutc_plain h hc

end Characters

/-- The terminal of a screen: the rows below it are blank. -/
def terminalOf (mono : Bool) (s : Crt) : Terminal (BitVec 16) where
  cell r c := if r < crtRows then crtText mono s.mem (crtCols * r + c) else blankCell
  row := s.crtPos.toNat / crtCols
  col := s.crtPos.toNat % crtCols
  top := 0

theorem terminalOf_shows (mono : Bool) {s : Crt} (hpos : s.crtPos.toNat < crtSize) :
    CrtShows mono s (terminalOf mono s) := by
  have hrow : s.crtPos.toNat / crtCols < crtRows :=
    Nat.div_lt_of_lt_mul (Nat.mul_comm crtCols crtRows ▸ hpos)
  refine ⟨⟨fun i hi j _ => ?_, (Nat.div_add_mod _ _).symm, Nat.zero_le _, ?_, ?_, fun r hr j => ?_⟩,
    ?_⟩
  · change _ = if 0 + i < crtRows then crtText mono s.mem (crtCols * (0 + i) + j) else blankCell
    rw [Nat.zero_add, if_pos hi]
  · exact (Nat.zero_add crtRows).symm ▸ hrow.le
  · exact Nat.mod_lt _ (by decide)
  · exact if_neg (Nat.not_lt_of_le ((Nat.zero_add crtRows) ▸ hr))
  · exact (Nat.zero_add crtRows).symm ▸ hrow

/-- The characters one after the other. -/
def cgaRun (mono : Bool) (cs : List Word) (s : Crt) : Crt :=
  cs.foldl (fun s c => cgaPutc mono c s) s

/-- The characters one after the other, on the terminal. -/
def terminalRun (cs : List Word) (t : Terminal (BitVec 16)) : Terminal (BitVec 16) :=
  cs.foldl (fun t c => t.putc c) t

theorem cgaRun_shows {mono : Bool} {s : Crt} {t : Terminal (BitVec 16)} (h : CrtShows mono s t)
    (cs : List Word) :
    CrtShows mono (cgaRun mono cs s) (terminalRun cs t) ∧
      WritesScreen mono s (cgaRun mono cs s) := by
  induction cs generalizing s t with
  | nil => exact ⟨h, writesScreen_of_eq rfl rfl⟩
  | cons c cs ih =>
    obtain ⟨hshows, hwrites⟩ := cgaPutc_shows h c
    obtain ⟨hrun, hwrites'⟩ := ih hshows
    exact ⟨hrun, hwrites.trans hwrites'⟩

/-- The text screen is a window on an unbounded terminal. After any characters the cursor is
in `crt_buf`, nothing but cells of `crt_buf` has been written, and the screen and the cursor
are those of the window of the terminal that was given the same characters. The rows that the
window has yet to expose are blank. -/
theorem cga_refines_terminal (mono : Bool) (s : Crt) (hpos : s.crtPos.toNat < crtSize)
    (cs : List Word) :
    let s' := cgaRun mono cs s
    let t' := terminalRun cs (terminalOf mono s)
    s'.crtPos.toNat < crtSize ∧ WritesScreen mono s s' ∧
      (∀ i < crtRows, ∀ j < crtCols,
        crtText mono s'.mem (crtCols * i + j) = t'.cell (t'.top + i) j) ∧
      t'.top ≤ t'.row ∧ t'.row < t'.top + crtRows ∧ t'.col < crtCols ∧
      s'.crtPos.toNat = crtCols * (t'.row - t'.top) + t'.col ∧
      ∀ r, t'.top + crtRows ≤ r → ∀ j, t'.cell r j = blankCell := by
  obtain ⟨hshows, hwrites⟩ := cgaRun_shows (terminalOf_shows mono hpos) cs
  exact ⟨hshows.pos_lt, hwrites, hshows.cell, hshows.top_le, hshows.row_lt, hshows.col_lt,
    hshows.pos, hshows.blank⟩

/-- A letter in the last cell of the screen: it goes up with its row. -/
theorem cga_refines_terminal_last :
    let s : Crt := ⟨⟨fun _ => 0#8, false⟩, 1999#16, []⟩
    crtText false (cgaRun false [0x41#32] s).mem 1919 = 0x0741#16 ∧
      (cgaRun false [0x41#32] s).crtPos.toNat = 1920 := by
  intro s
  obtain ⟨-, -, hcell, -, -, -, hpos, -⟩ := cga_refines_terminal false s (by decide) [0x41#32]
  exact ⟨(hcell 23 (by decide) 79 (by decide)).trans (by decide), hpos.trans (by decide)⟩

end Jos
