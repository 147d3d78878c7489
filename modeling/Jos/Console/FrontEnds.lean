import Jos.Console.Scan
import Jos.Lib.Printf

/-!
# The front ends of `vprintfmt`

The kernel's `vcprintf`, the `vcprintf` of user programs and `vsnprintf` hand the same
format and the same arguments to `vprintfmt`, so they see the same characters. The last
two count them. The kernel's `putch` increments its pointer to the count, so the kernel's
count stays zero, and the three agree exactly when nothing is printed:
`frontEnds_agree_iff`.

To say on the format and the arguments when that is, the format is read once as a list
of pieces (`fmtPieces`): a piece is a `%s`, or something that always prints. The pieces are
those of the reading of `Console/Scan`, so what is printed is empty exactly if they are all
silent (`formatted_silent_iff`).
-/

namespace Jos

variable {m : Memory} {fmt : List Byte} {args : ℕ → Word}

/-! ### The counts -/

theorem foldl_kernPutch (l : List Word) (cnt : Word) : l.foldl kernPutch cnt = cnt := by
  induction l generalizing cnt with
  | nil => rfl
  | cons ch l ih => exact ih _

@[simp] theorem userPutch_cnt (b : Printbuf) (ch : Word) :
    (userPutch b ch).cnt = b.cnt + 1#32 := by
  simp only [userPutch]
  split <;> rfl

/-- A counter that goes up by one for each character. -/
theorem foldl_counts {β : Type} {putch : β → Word → β} {cnt : β → Word}
    (h : ∀ b ch, cnt (putch b ch) = cnt b + 1#32) (l : List Word) (b : β) :
    cnt (l.foldl putch b) = cnt b + BitVec.ofNat 32 l.length := by
  induction l generalizing b with
  | nil => simp
  | cons ch l ih =>
    calc cnt ((ch :: l).foldl putch b)
        = cnt (putch b ch) + BitVec.ofNat 32 l.length := ih (putch b ch)
      _ = cnt b + (1#32 + BitVec.ofNat 32 l.length) := by rw [h, BitVec.add_assoc]
      _ = cnt b + BitVec.ofNat 32 (ch :: l).length := by
          rw [List.length_cons, Nat.add_comm l.length 1, BitVec.ofNat_add]

theorem foldl_userPutch_cnt (l : List Word) (b : Printbuf) :
    (l.foldl userPutch b).cnt = b.cnt + BitVec.ofNat 32 l.length :=
  foldl_counts userPutch_cnt l b

@[simp] theorem sprintputch_cnt (b : Sprintbuf) (ch : Word) :
    (sprintputch b ch).cnt = b.cnt + 1#32 := by
  simp only [sprintputch]
  split <;> rfl

theorem foldl_sprintputch_cnt (l : List Word) (b : Sprintbuf) :
    (l.foldl sprintputch b).cnt = b.cnt + BitVec.ofNat 32 l.length :=
  foldl_counts sprintputch_cnt l b

/-- What has been given to `sys_cputs`, and what is still in the buffer. -/
def Printbuf.written (b : Printbuf) : List Byte := b.cputs.flatten ++ (List.range b.idx).map b.buf

theorem userPutch_written (b : Printbuf) (ch : Word) :
    (userPutch b ch).written = b.written ++ [ch.setWidth 8] := by
  have hpush : (b.push ch).written = b.written ++ [ch.setWidth 8] := by
    have hold : (List.range b.idx).map (b.push ch).buf = (List.range b.idx).map b.buf := by
      apply List.map_congr_left
      intro i hi
      exact Function.update_of_ne (List.mem_range.mp hi).ne _ _
    rw [Printbuf.written, show (b.push ch).idx = b.idx + 1 from rfl, List.range_succ,
      List.map_append, hold, ← List.append_assoc]
    change b.written ++ [Function.update b.buf b.idx (ch.setWidth 8) b.idx] = _
    rw [Function.update_self]
  rw [← hpush]
  simp only [userPutch]
  split
  · -- a full buffer moves to the console
    simp [Printbuf.written, Printbuf.sysCputs]
  · rfl

/-- The `vcprintf` of user programs hands every character to `sys_cputs`, in order. -/
theorem userVcprintf_written {cnt : Word} {cputs : List (List Byte)}
    (h : (userVcprintf m fmt args).result = .ok (cnt, cputs)) :
    cputs.flatten = (putchars (userVcprintf m fmt args).log).map (BitVec.setWidth 8) := by
  -- a character is the next one written, whether it is flushed now or later
  have hfold : ∀ (l : List Word) (b : Printbuf),
      (l.foldl userPutch b).written = b.written ++ l.map (BitVec.setWidth 8) := by
    intro l
    induction l with
    | nil => simp
    | cons ch l ih =>
      intro b
      rw [List.foldl_cons, ih, userPutch_written, List.append_assoc]
      rfl
  simp only [userVcprintf] at h ⊢
  cases hx : (vprintfmt m fmt args).result with
  | error a =>
    rw [hx] at h
    cases h
  | ok u =>
    rw [hx] at h
    obtain ⟨-, rfl⟩ := Prod.mk.inj (Except.ok.inj h)
    have hw := hfold (putchars (vprintfmt m fmt args).log) {}
    simpa [Printbuf.written, Printbuf.sysCputs] using hw

/-! ### The pieces of a format -/

/-- What a part of the format prints. -/
inductive FmtPiece where
  /-- A `%s`, and the index of its argument. -/
  | string (f : FmtSpec) (ap : ℕ)
  /-- Anything else: at least one character. -/
  | shown
deriving DecidableEq

namespace FmtPiece

/-- The argument of a `%s` is the null pointer or a string that can be read. -/
def Matches (m : Memory) (args : ℕ → Word) : FmtPiece → Prop
  | string f ap => args ap = 0#32 ∨ (printString m f (.arg (args ap))).result = .ok ()
  | shown => True

/-- A `%s` without a width that prints no character of its argument. -/
def Silent (m : Memory) (args : ℕ → Word) : FmtPiece → Prop
  | string f ap => ¬(0#32).slt f.width ∧
      (f.precision = 0#32 ∨ args ap ≠ 0#32 ∧ m (args ap) = some 0#8)
  | shown => False

/-- The piece is what `x` prints. -/
def Prints (m : Memory) (args : ℕ → Word) (p : FmtPiece) (x : Fmt Unit) : Prop :=
  p.Matches m args → x.result = .ok () ∧ (putchars x.log = [] ↔ p.Silent m args)

end FmtPiece

/-- The piece of a conversion. -/
def FmtItem.piece : FmtItem → FmtPiece
  | .string f ap => .string f ap
  | _ => .shown

/-- At the end of the format an escape that is not complete is printed as it stands. -/
def FmtMode.pieces : FmtMode → List FmtPiece
  | .text => []
  | _ => [.shown]

/-- The pieces of a format. -/
def fmtPieces (args : ℕ → Word) : List Byte → FmtMode → ℕ → List FmtPiece
  | [], mode, _ => mode.pieces
  | ch :: l, mode, ap =>
    match readChar args ch ap mode with
    | .flag mode ap => fmtPieces args l mode ap
    | .item d ap => d.piece :: fmtPieces args l .text ap
    | .literal => .shown :: fmtPieces args l .text ap
    | .stop => mode.pieces

/-- Every `%s` of the format has a string for its argument. -/
def Matching (m : Memory) (fmt : List Byte) (args : ℕ → Word) : Prop :=
  ∀ p ∈ fmtPieces args fmt .text 0, p.Matches m args

/-- The format consists of `%s` for empty strings. -/
def Silent (m : Memory) (fmt : List Byte) (args : ℕ → Word) : Prop :=
  ∀ p ∈ fmtPieces args fmt .text 0, p.Silent m args

/-! ### What the conversions print -/

theorem putchars_pad (padc : Byte) (w : Word) :
    putchars (Fmt.pad padc w).log = [] ↔ ¬(0#32).slt w := by
  have hchars : putchars (Fmt.pad padc w).log =
      List.replicate w.toInt.toNat (padc.signExtend 32) :=
    List.filterMap_replicate_of_some rfl
  rw [BitVec.slt_eq_decide, decide_eq_true_eq, show (0#32).toInt = 0 from rfl, hchars,
    List.replicate_eq_nil_iff]
  omega

/-- A part of the formatter that returns and prints something. -/
structure Shows (x : Fmt Unit) : Prop where
  returns : x.result = .ok ()
  chars : putchars x.log ≠ []

theorem Shows.putch (ch : Word) : Shows (Fmt.putch ch) := ⟨rfl, List.cons_ne_nil _ _⟩

/-- What prints something keeps doing so after anything that returns. -/
theorem Shows.after {x : Fmt Unit} (hx : x.result = .ok ()) {g : Unit → Fmt Unit}
    (h : Shows (g ())) : Shows (x >>= g) := by
  rw [Logged.bind_of_ok hx]
  refine ⟨h.returns, ?_⟩
  change putchars (x.log ++ (g ()).log) ≠ []
  rw [putchars_append]
  exact List.append_ne_nil_of_right_ne_nil _ h.chars

/-- A number has a digit. -/
theorem shows_printnum (num base : ℕ) (width : Word) (padc : Byte) :
    Shows (printnum num base width padc) := by
  induction num using Nat.strong_induction_on generalizing width with
  | _ num ih =>
    rw [printnum]
    split
    · next h =>
      have hlt : num / base < num := Nat.div_lt_self (by omega) (by omega)
      exact .after (ih _ hlt _).returns (.putch _)
    · exact .after rfl (.putch _)

theorem shows_printSigned (f : FmtSpec) (num : BitVec 64) : Shows (printSigned f num) := by
  unfold printSigned
  split
  · exact .after rfl (shows_printnum ..)
  · exact shows_printnum ..

section PrintString

variable {f : FmtSpec} {p : CString}

theorem putchars_read (i : ℕ) : putchars (p.read m i).log = [] := by
  cases p <;> rfl

/-- At any other precision than 0 a character that is not a NUL is printed. -/
theorem printStringLoop_print (fuel : ℕ) {i : ℕ} {precision : Word} {b : Byte}
    {l : List FmtEvent} (hread : p.read m i = ⟨l, .ok b⟩) (hb : b ≠ 0#8) (hp : precision ≠ 0#32) :
    ∃ precision', printStringLoop m f p (fuel + 1) precision i =
      ⟨l ++ .putch (f.shown b) :: (printStringLoop m f p fuel precision' (i + 1)).log,
        (printStringLoop m f p fuel precision' (i + 1)).result⟩ := by
  rw [printStringLoop, hread, Logged.bind_of_ok rfl, if_neg hb]
  -- a negative precision is no limit; a positive one is still not negative one lower
  by_cases hneg : precision.slt 0#32
  · refine ⟨precision, ?_⟩
    rw [if_pos hneg]
    rfl
  · have hpos : ¬(precision - 1#32).slt 0#32 := by
      have hz : (0#32).toInt = 0 := rfl
      simp only [BitVec.slt_eq_decide, decide_eq_true_eq, hz, not_lt] at hneg ⊢
      have hne : precision.toInt ≠ 0 := fun hc => hp (BitVec.toInt_inj.mp hc)
      have hlt := BitVec.toInt_lt (x := precision)
      rw [BitVec.toInt_sub, show (1#32).toInt = 1 from rfl, Int.bmod_eq_of_le (by omega) (by omega)]
      omega
    refine ⟨precision - 1#32, ?_⟩
    rw [if_neg hneg, if_neg hpos]
    rfl

/-- The loop of `%s` prints nothing exactly when its first character ends it, and then
it has not moved. -/
theorem printStringLoop_silent_iff {fuel i n : ℕ} {precision : Word}
    (h : (printStringLoop m f p fuel precision i).result = .ok n) :
    (putchars (printStringLoop m f p fuel precision i).log = [] ↔
      precision = 0#32 ∨ (p.read m i).result = .ok 0#8) ∧
    (putchars (printStringLoop m f p fuel precision i).log = [] → n = i) := by
  cases fuel with
  | zero => cases h
  | succ fuel =>
    obtain ⟨l, r, hread⟩ : ∃ l r, p.read m i = ⟨l, r⟩ := ⟨_, _, rfl⟩
    have hl : putchars l = [] := by
      have := putchars_read (m := m) (p := p) i
      rwa [hread] at this
    cases r with
    | error a =>
      rw [printStringLoop_fault hread] at h
      cases h
    | ok b =>
      -- it stops at once, or it prints a character
      by_cases hp : precision = 0#32
      · rw [hp, printStringLoop_zero hread] at h
        rw [hp, printStringLoop_zero hread]
        exact ⟨iff_of_true hl (.inl rfl), fun _ => (Except.ok.inj h).symm⟩
      by_cases hb : b = 0#8
      · rw [hb] at hread
        rw [printStringLoop_nul hread] at h
        rw [printStringLoop_nul hread, hread]
        exact ⟨iff_of_true hl (.inr rfl), fun _ => (Except.ok.inj h).symm⟩
      obtain ⟨precision', hprint⟩ := printStringLoop_print (f := f) fuel hread hb hp
      have hne : putchars (printStringLoop m f p (fuel + 1) precision i).log ≠ [] := by
        rw [hprint, putchars_append]
        exact List.append_ne_nil_of_right_ne_nil _ (List.cons_ne_nil _ _)
      refine ⟨iff_of_false hne ?_, fun hc => absurd hc hne⟩
      rw [hread]
      rintro (hc | hc)
      · exact hp hc
      · exact hb (Except.ok.inj hc)

/-- What ends the loop of `%s` at once is the empty string for `strnlen`. -/
theorem strnlen_empty {n : ℕ} {size : Word} (hn : (strnlen m p size).result = .ok n)
    (hempty : size = 0#32 ∨ (p.read m 0).result = .ok 0#8) : n = 0 := by
  unfold strnlen at hn
  cases hsize : size.toNat with
  | zero =>
    rw [hsize] at hn
    exact (Except.ok.inj hn).symm
  | succ k =>
    have hnul : (p.read m 0).result = .ok 0#8 := by
      refine hempty.resolve_left ?_
      rintro rfl
      cases hsize
    rw [hsize, strnlenLoop, Logged.bind_of_ok hnul] at hn
    exact (Except.ok.inj hn).symm

/-- The loop of `%s` and the padding after it print nothing exactly when there is no
width left and the string is empty. -/
theorem printStringLoop_pad_silent_iff {width : Word}
    (h : (printStringLoop m f p (2 ^ 32) f.precision 0 >>= fun n =>
      Fmt.pad (chr ' ') (width - BitVec.ofNat 32 n)).result = .ok ()) :
    putchars (printStringLoop m f p (2 ^ 32) f.precision 0 >>= fun n =>
        Fmt.pad (chr ' ') (width - BitVec.ofNat 32 n)).log = [] ↔
      ¬(0#32).slt width ∧ (f.precision = 0#32 ∨ (p.read m 0).result = .ok 0#8) := by
  obtain ⟨n, hn, -⟩ := Logged.result_bind_eq_ok.mp h
  obtain ⟨hloop, hstay⟩ := printStringLoop_silent_iff hn
  rw [Logged.bind_of_ok hn, putchars_append, List.append_eq_nil_iff, hloop, putchars_pad, and_comm]
  apply and_congr_left
  intro hempty
  rw [hstay (hloop.mpr hempty), show width - BitVec.ofNat 32 0 = width by simp]

/-- `%s` prints nothing exactly when it has no width and the string is empty. -/
theorem printString_silent_iff (h : (printString m f p).result = .ok ()) :
    putchars (printString m f p).log = [] ↔
      ¬(0#32).slt f.width ∧ (f.precision = 0#32 ∨ (p.read m 0).result = .ok 0#8) := by
  unfold printString at h ⊢
  by_cases hpad : (0#32).slt f.width ∧ f.padc ≠ chr '-'
  · -- an empty string is padded by the whole width
    rw [if_pos hpad] at h ⊢
    obtain ⟨k, hk, h⟩ := Logged.result_bind_eq_ok.mp h
    refine iff_of_false ?_ fun hc => hc.1 hpad.1
    rw [Logged.bind_of_ok hk, putchars_append, List.append_eq_nil_iff]
    rintro ⟨-, hlog⟩
    rw [Logged.bind_of_ok rfl, putchars_append, List.append_eq_nil_iff, putchars_pad] at hlog
    rw [Logged.bind_of_ok rfl, Logged.pure_bind] at h
    obtain ⟨hw, hlog⟩ := hlog
    have hempty := ((printStringLoop_pad_silent_iff h).mp hlog).2
    rw [strnlen_empty hk hempty, show f.width - BitVec.ofNat 32 0 = f.width by simp] at hw
    exact hw hpad.1
  · rw [if_neg hpad] at h ⊢
    exact printStringLoop_pad_silent_iff h

theorem strnlenLoop_const (s : List Byte) (size i : ℕ) :
    ∃ n, (strnlenLoop m (.const s) size i).result = .ok n := by
  induction size generalizing i with
  | zero => exact ⟨i, rfl⟩
  | succ size ih =>
    rw [strnlenLoop, CString.read, Logged.pure_bind]
    split
    · exact ⟨i, rfl⟩
    · exact ih (i + 1)

theorem printStringLoop_const_returns (s : List Byte) (fuel : ℕ) {i : ℕ}
    (hfuel : s.length < fuel + i) (hi : i ≤ s.length) (precision : Word) :
    ∃ n, (printStringLoop m f (.const s) fuel precision i).result = .ok n := by
  induction fuel generalizing i precision with
  | zero => omega
  | succ fuel ih =>
    have hread : (CString.const s).read m i = ⟨[], .ok (s.getD i 0#8)⟩ := rfl
    by_cases hp : precision = 0#32
    · rw [hp, printStringLoop_zero hread]
      exact ⟨i, rfl⟩
    by_cases hb : s.getD i 0#8 = 0#8
    · rw [hb] at hread
      rw [printStringLoop_nul hread]
      exact ⟨i, rfl⟩
    -- the terminator has not been reached, so there is a character left
    have hlt : i < s.length := by
      by_contra hge
      exact hb (List.getD_eq_default _ _ (not_lt.mp hge))
    obtain ⟨precision', hprint⟩ := printStringLoop_print (f := f) fuel hread hb hp
    rw [hprint]
    exact ih (by omega) hlt precision'

/-- A string constant can always be printed. -/
theorem printString_const_returns {s : List Byte} (hs : s.length < 2 ^ 32) :
    (printString m f (.const s)).result = .ok () := by
  have htail : ∀ width : Word, (printStringLoop m f (.const s) (2 ^ 32) f.precision 0 >>= fun n =>
      Fmt.pad (chr ' ') (width - BitVec.ofNat 32 n)).result = .ok () := by
    intro width
    obtain ⟨n, hn⟩ := printStringLoop_const_returns (m := m) (f := f) s (2 ^ 32)
      (by omega) (Nat.zero_le _) f.precision
    rw [Logged.bind_of_ok hn]
    rfl
  unfold printString
  by_cases hpad : (0#32).slt f.width ∧ f.padc ≠ chr '-'
  · obtain ⟨k, hk⟩ := strnlenLoop_const (m := m) s f.precision.toNat 0
    have hlen : (strnlen m (.const s) f.precision).result = .ok k := hk
    rw [if_pos hpad, Logged.bind_of_ok hlen]
    exact htail _
  · rw [if_neg hpad]
    exact htail _

end PrintString

theorem errorString_shown {err : Word} {s : List Byte} (h : errorString err = some s) :
    s.length < 2 ^ 32 ∧ s.getD 0 0#8 ≠ 0#8 := by
  unfold errorString at h
  split at h <;> cases h <;> decide

theorem shows_printError (err : Word) : Shows (printError m err) := by
  unfold printError
  generalize (if err.slt 0#32 then -err else err) = code
  dsimp only
  split
  · next s hs =>
    obtain ⟨hlen, hfirst⟩ := errorString_shown hs
    have hret := printString_const_returns (m := m) (f := {}) hlen
    refine ⟨hret, ?_⟩
    rw [Ne, printString_silent_iff hret]
    rintro ⟨-, hc | hc⟩
    · exact absurd hc (by decide)
    · exact hfirst (Except.ok.inj hc)
  · exact .after rfl (shows_printSigned ..)

/-- A part that always prints is a piece that is shown. -/
theorem Shows.prints {x : Fmt Unit} (h : Shows x) : FmtPiece.shown.Prints m args x :=
  fun _ => ⟨h.returns, iff_of_false h.chars not_false⟩

/-- A `%s` is a piece of its own. -/
theorem printString_prints (f : FmtSpec) (ap : ℕ) :
    (FmtPiece.string f ap).Prints m args
      (printString m f (if args ap = 0#32 then .const (text "(null)") else .arg (args ap))) := by
  intro hmatch
  by_cases hnull : args ap = 0#32
  · have hret := printString_const_returns (m := m) (f := f) (s := text "(null)") (by decide)
    rw [if_pos hnull]
    refine ⟨hret, ?_⟩
    rw [printString_silent_iff hret]
    have hread : ((CString.const (text "(null)")).read m 0).result ≠ .ok 0#8 := by
      intro hc
      exact absurd (Except.ok.inj hc) (by decide)
    simp [FmtPiece.Silent, hnull, hread]
  · -- an argument that is not NULL is a string, as the arguments match the format
    have hret := hmatch.resolve_left hnull
    rw [if_neg hnull]
    refine ⟨hret, ?_⟩
    rw [printString_silent_iff hret]
    have hread : ((CString.arg (args ap)).read m 0).result = .ok 0#8 ↔ m (args ap) = some 0#8 := by
      simp only [CString.read, BitVec.add_zero]
      cases m (args ap) <;> simp
    simp [FmtPiece.Silent, hnull, hread]

/-- The piece of a conversion is what it prints. -/
theorem FmtItem.piece_prints (d : FmtItem) : d.piece.Prints m args (d.print m args) := by
  cases d with
  | string f ap => exact printString_prints f ap
  -- the other conversions print a character, an error or a number
  | char ap => exact (Shows.putch _).prints
  | error ap => exact (shows_printError _).prints
  | signed f num => exact (shows_printSigned f num).prints
  | unsigned f num base => exact (shows_printnum ..).prints
  | pointer f ap =>
    have hshows : Shows ((FmtItem.pointer f ap).print m args) :=
      .after rfl (.after rfl (shows_printnum ..))
    exact hshows.prints
  | percent => exact (Shows.putch _).prints

/-- A part of an escape leaves the code in the escape. -/
theorem readChar_flag {ch : Byte} {ap ap' : ℕ} {mode mode' : FmtMode}
    (h : readChar args ch ap mode = .flag mode' ap') : mode' ≠ .text := by
  have hescape (f : FmtSpec) (h : escapeReading args f ch ap = .flag mode' ap') :
      mode' ≠ .text := by
    unfold escapeReading at h
    split at h
    case h_25 => split_ifs at h
    all_goals cases h <;> exact FmtMode.noConfusion
  cases mode with
  | text =>
    rw [readChar] at h
    split_ifs at h
    cases h
    exact FmtMode.noConfusion
  | escape f => exact hescape f h
  | number f =>
    rw [readChar] at h
    split_ifs at h
    · cases h
      exact FmtMode.noConfusion
    · exact hescape _ h

theorem FmtMode.silent_pieces {mode : FmtMode} :
    (∀ p ∈ mode.pieces, p.Silent m args) ↔ mode = .text := by
  cases mode with
  | text => exact iff_of_true (List.forall_mem_nil _) rfl
  | escape f => exact iff_of_false (fun h => h _ List.mem_cons_self) FmtMode.noConfusion
  | number f => exact iff_of_false (fun h => h _ List.mem_cons_self) FmtMode.noConfusion

/-! ### The pieces and what is printed -/

/-- A format whose strings can be read has conversions that return, and prints nothing
exactly when all of its pieces are silent. An escape that has been read in part is printed
one way or the other. -/
theorem formatted_silent_iff (l : List Byte) {mode : FmtMode} {esc : List Byte} {ap : ℕ}
    (hesc : esc = [] ↔ mode = .text)
    (hmatch : ∀ p ∈ fmtPieces args l mode ap, p.Matches m args) :
    (∀ d ∈ fmtItems args l mode ap, (d.print m args).result = .ok ()) ∧
      (formatted m args l mode esc ap = [] ↔ ∀ p ∈ fmtPieces args l mode ap, p.Silent m args) := by
  induction l generalizing mode esc ap with
  | nil =>
    refine ⟨List.forall_mem_nil _, ?_⟩
    rw [formatted, fmtPieces, List.map_eq_nil_iff, hesc, FmtMode.silent_pieces]
  | cons ch l ih =>
    rw [fmtPieces] at hmatch ⊢
    rw [formatted, fmtItems]
    cases hread : readChar args ch ap mode with
    | flag mode' ap' =>
      -- the escape goes on, and has one more character
      rw [hread] at hmatch
      refine ih (iff_of_false ?_ (readChar_flag hread)) hmatch
      exact List.append_ne_nil_of_right_ne_nil _ (List.cons_ne_nil _ _)
    | item d ap' =>
      simp only [hread, List.forall_mem_cons] at hmatch
      obtain ⟨hret, hshown⟩ := d.piece_prints hmatch.1
      obtain ⟨hitems, hrest⟩ := ih (iff_of_true rfl rfl) hmatch.2
      simp only [List.forall_mem_cons, List.append_eq_nil_iff]
      exact ⟨⟨hret, hitems⟩, and_congr hshown hrest⟩
    | literal =>
      -- something is printed, whatever comes after it
      simp only [hread, List.forall_mem_cons] at hmatch
      obtain ⟨hitems, -⟩ := ih (iff_of_true rfl rfl) hmatch.2
      refine ⟨hitems, iff_of_false ?_ fun h => h _ List.mem_cons_self⟩
      simp
    | stop =>
      refine ⟨List.forall_mem_nil _, ?_⟩
      rw [List.map_eq_nil_iff, hesc, FmtMode.silent_pieces]

/-- A run that prints the pieces: it returns, and has printed nothing exactly when all
of them are silent. -/
structure RunPrints (m : Memory) (args : ℕ → Word) (ps : List FmtPiece) (x : Fmt Unit) : Prop where
  returns : x.result = .ok ()
  silent : putchars x.log = [] ↔ ∀ p ∈ ps, p.Silent m args

/-! ### Agreement -/

/-- `vprintfmt` prints the pieces of its format. -/
theorem vprintfmt_prints (hmatch : Matching m fmt args) :
    RunPrints m args (fmtPieces args fmt .text 0) (vprintfmt m fmt args) := by
  obtain ⟨hitems, hsilent⟩ := formatted_silent_iff fmt (iff_of_true rfl rfl) hmatch
  have hout := vprintfmt_outputs hitems
  exact ⟨hout.returns, by rw [hout.chars, hsilent]⟩

/-- What the three front ends are for: the same characters reach the three `putch`
functions, and each returns how many. -/
structure FrontEndsAgree (m : Memory) (fmt : List Byte) (args : ℕ → Word) (buf n : Word) :
    Prop where
  user_chars : putchars (userVcprintf m fmt args).log = putchars (vcprintf m fmt args).log
  buf_chars : putchars (vsnprintf m buf n fmt args).log = putchars (vcprintf m fmt args).log
  kern_returns : ∃ cnt, (vcprintf m fmt args).result = .ok cnt ∧
    cnt.toInt = (putchars (vcprintf m fmt args).log).length
  user_returns : ∃ cnt cputs, (userVcprintf m fmt args).result = .ok (cnt, cputs) ∧
    cnt.toInt = (putchars (userVcprintf m fmt args).log).length
  buf_returns : ∃ cnt mem, (vsnprintf m buf n fmt args).result = .ok (cnt, mem) ∧
    cnt.toInt = (putchars (vsnprintf m buf n fmt args).log).length

theorem toInt_ofNat_of_lt {k : ℕ} (hk : k < 2 ^ 31) : (BitVec.ofNat 32 k).toInt = k := by
  have hnat : (BitVec.ofNat 32 k).toNat = k := by
    rw [BitVec.toNat_ofNat]
    omega
  rw [BitVec.toInt_eq_toNat_of_lt (by omega), hnat]

/-- The two front ends of user programs always do their part. -/
theorem userFrontEnds_return {buf n : Word} (hmatch : Matching m fmt args)
    (hlen : (putchars (vprintfmt m fmt args).log).length < 2 ^ 31) (hbuf : buf ≠ 0#32)
    (hn : ¬n.slt 1#32) :
    (∃ cnt cputs, (userVcprintf m fmt args).result = .ok (cnt, cputs) ∧
      cnt.toInt = (putchars (userVcprintf m fmt args).log).length) ∧
    vsnprintf m buf n fmt args = ⟨(vprintfmt m fmt args).log, (vsnprintf m buf n fmt args).result⟩ ∧
    ∃ cnt mem, (vsnprintf m buf n fmt args).result = .ok (cnt, mem) ∧
      cnt.toInt = (putchars (vsnprintf m buf n fmt args).log).length := by
  have hret := (vprintfmt_prints hmatch).returns
  have hcheck : ¬(buf = 0#32 ∨ n.slt 1#32) := by
    rintro (h | h)
    · exact hbuf h
    · exact hn h
  simp only [userVcprintf, vsnprintf, if_neg hcheck, hret]
  -- both counters count the characters, and the number fits into an `int`
  refine ⟨⟨_, _, rfl, ?_⟩, trivial, _, _, rfl, ?_⟩
  · change ((putchars (vprintfmt m fmt args).log).foldl userPutch {}).cnt.toInt = _
    rw [foldl_userPutch_cnt]
    change (0#32 + BitVec.ofNat 32 _).toInt = _
    rw [BitVec.zero_add, toInt_ofNat_of_lt hlen]
  · rw [foldl_sprintputch_cnt, BitVec.zero_add, toInt_ofNat_of_lt hlen]

/-- The kernel returns zero. -/
theorem vcprintf_returns (hmatch : Matching m fmt args) :
    (vcprintf m fmt args).result = .ok 0#32 := by
  simp only [vcprintf, (vprintfmt_prints hmatch).returns, foldl_kernPutch]
  rfl

/-- The three front ends agree exactly on the formats that print nothing. -/
theorem frontEnds_agree_iff {buf n : Word} (hmatch : Matching m fmt args)
    (hlen : (putchars (vprintfmt m fmt args).log).length < 2 ^ 31) (hbuf : buf ≠ 0#32)
    (hn : ¬n.slt 1#32) : FrontEndsAgree m fmt args buf n ↔ Silent m fmt args := by
  have hsilent := (vprintfmt_prints hmatch).silent
  obtain ⟨huser, hlog, hvsn⟩ := userFrontEnds_return hmatch hlen hbuf hn
  have hkern := vcprintf_returns hmatch
  constructor
  · intro h
    -- the kernel's `vcprintf` returns 0, which is the count only where nothing is printed
    obtain ⟨cnt, hcnt, hcount⟩ := h.kern_returns
    obtain rfl : 0#32 = cnt := ok_unique hkern hcnt
    apply hsilent.mp
    apply List.length_eq_zero_iff.mp
    exact Int.natCast_eq_zero.mp hcount.symm
  · intro h
    refine ⟨rfl, ?_, ⟨0#32, hkern, ?_⟩, huser, hvsn⟩
    · rw [hlog]
      rfl
    · change _ = ((putchars (vprintfmt m fmt args).log).length : ℤ)
      rw [hsilent.mpr h]
      rfl

/-- `cprintf("%s", "")` prints nothing. -/
theorem frontEnds_agree_empty :
    FrontEndsAgree (fun _ => some 0#8) (text "%s") (fun _ => 0x800000#32) 0x1000#32 1#32 := by
  have hpieces : fmtPieces (fun _ => 0x800000#32) (text "%s") .text 0 = [.string {} 0] := rfl
  have hmatch : Matching (fun _ => some 0#8) (text "%s") fun _ => 0x800000#32 := by
    intro p hp
    rw [hpieces, List.mem_singleton] at hp
    rw [hp]
    right
    unfold printString
    -- the only read of the string is that of its terminator
    have hread : (CString.arg 0x800000#32).read (fun _ => some 0#8) 0 =
        ⟨[.load 0x800000#32], .ok 0#8⟩ := rfl
    rw [if_neg (by decide), Logged.pure_bind, show 2 ^ 32 = 4294967295 + 1 from rfl,
      printStringLoop_nul hread]
    rfl
  have hsilent : Silent (fun _ => some 0#8) (text "%s") fun _ => 0x800000#32 := by
    intro p hp
    rw [hpieces, List.mem_singleton] at hp
    rw [hp]
    exact ⟨by decide, .inr ⟨by decide, rfl⟩⟩
  refine (frontEnds_agree_iff hmatch ?_ (by decide) (by decide)).mpr hsilent
  rw [(vprintfmt_prints hmatch).silent.mpr hsilent]
  decide

/-- `cprintf("a")` returns 1 in a user program and 0 in the kernel. -/
theorem frontEnds_differ : Matching (fun _ => none) (text "a") (fun _ => 0#32) ∧
    putchars (vprintfmt (fun _ => none) (text "a") fun _ => 0#32).log = [0x61#32] ∧
    (vcprintf (fun _ => none) (text "a") fun _ => 0#32).result = .ok 0#32 ∧
    ¬FrontEndsAgree (fun _ => none) (text "a") (fun _ => 0#32) 0x1000#32 16#32 := by
  have hchars : putchars (vprintfmt (fun _ => none) (text "a") fun _ => 0#32).log = [0x61#32] := rfl
  have hkern : (vcprintf (fun _ => none) (text "a") fun _ => 0#32).result = .ok 0#32 := rfl
  refine ⟨?_, hchars, hkern, ?_⟩
  · intro p hp
    rw [show fmtPieces (fun _ => 0#32) (text "a") .text 0 = [.shown] from rfl,
      List.mem_singleton] at hp
    rw [hp]
    trivial
  · intro h
    obtain ⟨cnt, hcnt, hcount⟩ := h.kern_returns
    obtain rfl : 0#32 = cnt := ok_unique hkern hcnt
    change _ = ((putchars (vprintfmt (fun _ => none) (text "a") fun _ => 0#32).log).length : ℤ)
      at hcount
    rw [hchars] at hcount
    exact absurd hcount (by decide)

end Jos
