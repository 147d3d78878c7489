import Jos.Console.Cputs

/-!
# How `vprintfmt` reads its format

At an escape that it does not know `vprintfmt` prints the `%`, goes back in the format to
the character after it, and copies from there. So the position in the format does not only
grow, and a format that ends in the middle of an escape takes the code one past the NUL
before it goes back.

Here a format is read once, from left to right: `readChar` says what a character is in the
mode the code is in, and `formatted` collects what is printed, with the characters of the
escape that is being read kept aside. The flags between the `%` and an unknown character
are neither `%` nor NUL, so the code that goes back finds the `%` of this escape, copies
its flags as text and is back where it was; it never goes back over the same character
again. That is `outputsFrom`: from every place the code prints what the single reading
prints, returns, and does not read the format behind its NUL.
-/

namespace Jos

variable {m : Memory} {fmt : List Byte} {args : ℕ → Word}

/-! ### Reading once -/

/-- A conversion, with what its escape says and its argument. -/
inductive FmtItem where
  | char (ap : ℕ)
  | error (ap : ℕ)
  | string (f : FmtSpec) (ap : ℕ)
  | signed (f : FmtSpec) (num : BitVec 64)
  | unsigned (f : FmtSpec) (num : BitVec 64) (base : ℕ)
  | pointer (f : FmtSpec) (ap : ℕ)
  | percent

/-- What the code does for a conversion. -/
def FmtItem.print (m : Memory) (args : ℕ → Word) : FmtItem → Fmt Unit
  | .char ap => Fmt.putch (args ap)
  | .error ap => printError m (args ap)
  | .string f ap =>
    printString m f (if args ap = 0#32 then .const (text "(null)") else .arg (args ap))
  | .signed f num => printSigned f num
  | .unsigned f num base => printNumber f num base
  | .pointer f ap => do
    Fmt.putch 0x30#32
    Fmt.putch 0x78#32
    printNumber f ((args ap).setWidth 64) 16
  | .percent => Fmt.putch 0x25#32

/-- What a character of the format is. -/
inductive FmtReading where
  /-- A part of an escape that is not complete. -/
  | flag (mode : FmtMode) (ap : ℕ)
  /-- The end of a conversion. -/
  | item (d : FmtItem) (ap : ℕ)
  /-- Text: it is printed, with what has been read of the escape it is in. -/
  | literal
  /-- The NUL. -/
  | stop

/-- The `switch` at `reswitch`. -/
def escapeReading (args : ℕ → Word) (f : FmtSpec) (ch : Byte) (ap : ℕ) : FmtReading :=
  match Char.ofNat ch.toNat with
  | '-' => .flag (.escape { f with padc := chr '-' }) ap
  | '0' => .flag (.escape { f with padc := chr '0' }) ap
  | '1' | '2' | '3' | '4' | '5' | '6' | '7' | '8' | '9' =>
    .flag (.number { f with precision := digitValue ch }) ap
  | '*' => .flag (.escape { f with precision := args ap }.processPrecision) (ap + 1)
  | '.' => .flag (.escape (if f.width.slt 0#32 then { f with width := 0#32 } else f)) ap
  | '#' => .flag (.escape { f with altflag := true }) ap
  | 'l' => .flag (.escape { f with lflag := f.lflag + 1#32 }) ap
  | 'c' => .item (.char ap) (ap + 1)
  | 'e' => .item (.error ap) (ap + 1)
  | 's' => .item (.string f ap) (ap + 1)
  | 'd' => .item (.signed f (getint args ap f.lflag).1) (getint args ap f.lflag).2
  | 'u' => .item (.unsigned f (getuint args ap f.lflag).1 10) (getuint args ap f.lflag).2
  | 'o' => .item (.unsigned f (getuint args ap f.lflag).1 8) (getuint args ap f.lflag).2
  | 'p' => .item (.pointer f ap) (ap + 1)
  | 'x' => .item (.unsigned f (getuint args ap f.lflag).1 16) (getuint args ap f.lflag).2
  | '%' => .item .percent ap
  | _ => if ch = 0#8 then .stop else .literal

/-- What a character is in the mode the code is in. -/
def readChar (args : ℕ → Word) (ch : Byte) (ap : ℕ) : FmtMode → FmtReading
  | .text =>
    if ch = chr '%' then .flag (.escape {}) ap else if ch = 0#8 then .stop else .literal
  | .escape f => escapeReading args f ch ap
  | .number f =>
    if chr '0' ≤ ch ∧ ch ≤ chr '9' then
      .flag (.number { f with precision := f.precision * 10#32 + digitValue ch }) ap
    else escapeReading args f.processPrecision ch ap

/-- What a format prints. In an escape `esc` is what has been read of it, from its `%` on:
the conversion at its end replaces it, and an unknown character or the NUL leaves it as it
stands in the format. -/
def formatted (m : Memory) (args : ℕ → Word) : List Byte → FmtMode → List Byte → ℕ → List Word
  | [], _, esc, _ => esc.map (BitVec.setWidth 32)
  | ch :: l, mode, esc, ap =>
    match readChar args ch ap mode with
    | .flag mode ap => formatted m args l mode (esc ++ [ch]) ap
    | .item d ap => putchars (d.print m args).log ++ formatted m args l .text [] ap
    | .literal => (esc ++ [ch]).map (BitVec.setWidth 32) ++ formatted m args l .text [] ap
    | .stop => esc.map (BitVec.setWidth 32)

/-- The conversions of a format. -/
def fmtItems (args : ℕ → Word) : List Byte → FmtMode → ℕ → List FmtItem
  | [], _, _ => []
  | ch :: l, mode, ap =>
    match readChar args ch ap mode with
    | .flag mode ap => fmtItems args l mode ap
    | .item d ap => d :: fmtItems args l .text ap
    | .literal => fmtItems args l .text ap
    | .stop => []

/-- The NUL ends the format in every mode. -/
theorem readChar_nul (args : ℕ → Word) (ap : ℕ) (mode : FmtMode) :
    readChar args 0#8 ap mode = .stop := by
  cases mode <;> rfl

/-- What the rest of a format prints comes from its first character and then from what is
after it; behind the end there are NULs. -/
theorem formatted_drop (m : Memory) (args : ℕ → Word) (fmt : List Byte) (i : ℕ) (mode : FmtMode)
    (esc : List Byte) (ap : ℕ) :
    formatted m args (fmt.drop i) mode esc ap =
      match readChar args (fmt.getD i 0#8) ap mode with
      | .flag mode ap =>
        formatted m args (fmt.drop (i + 1)) mode (esc ++ [fmt.getD i 0#8]) ap
      | .item d ap =>
        putchars (d.print m args).log ++ formatted m args (fmt.drop (i + 1)) .text [] ap
      | .literal => (esc ++ [fmt.getD i 0#8]).map (BitVec.setWidth 32) ++
        formatted m args (fmt.drop (i + 1)) .text [] ap
      | .stop => esc.map (BitVec.setWidth 32) := by
  by_cases hi : i < fmt.length
  · rw [List.drop_eq_getElem_cons hi, List.getD_eq_getElem _ _ hi]
    rfl
  · rw [List.drop_eq_nil_of_le (not_lt.mp hi), List.getD_eq_default _ _ (not_lt.mp hi),
      readChar_nul]
    rfl

theorem fmtItems_drop (args : ℕ → Word) (fmt : List Byte) (i : ℕ) (mode : FmtMode) (ap : ℕ) :
    fmtItems args (fmt.drop i) mode ap =
      match readChar args (fmt.getD i 0#8) ap mode with
      | .flag mode ap => fmtItems args (fmt.drop (i + 1)) mode ap
      | .item d ap => d :: fmtItems args (fmt.drop (i + 1)) .text ap
      | .literal => fmtItems args (fmt.drop (i + 1)) .text ap
      | .stop => [] := by
  by_cases hi : i < fmt.length
  · rw [List.drop_eq_getElem_cons hi, List.getD_eq_getElem _ _ hi]
    rfl
  · rw [List.drop_eq_nil_of_le (not_lt.mp hi), List.getD_eq_default _ _ (not_lt.mp hi),
      readChar_nul]
    rfl

/-- What the `switch` at `reswitch` takes a character for. -/
theorem escapeReading_cases (args : ℕ → Word) (f : FmtSpec) (ch : Byte) (ap : ℕ) :
    (∃ mode ap', escapeReading args f ch ap = .flag mode ap' ∧ mode ≠ .text ∧
      ch ≠ chr '%' ∧ ch ≠ 0#8) ∨
    (∃ d ap', escapeReading args f ch ap = .item d ap' ∧ ch ≠ 0#8) ∨
    ch ≠ chr '%' ∧
      escapeReading args f ch ap = if ch = 0#8 then .stop else .literal := by
  have hch : ch = chr (Char.ofNat ch.toNat) := by
    revert ch
    decide +kernel
  unfold escapeReading
  generalize hc : Char.ofNat ch.toNat = c at hch
  split
  case h_25 hpercent =>
    refine .inr (.inr ⟨?_, rfl⟩)
    rintro rfl
    exact hpercent hc.symm
  -- the conversions
  case h_16 | h_17 | h_18 | h_19 | h_20 | h_21 | h_22 | h_23 | h_24 =>
    refine .inr (.inl ⟨_, _, rfl, ?_⟩)
    rw [hch]
    decide
  -- and the rest are flags
  all_goals
    refine .inl ⟨_, _, rfl, FmtMode.noConfusion, ?_, ?_⟩
    all_goals
      rw [hch]
      decide

/-- What it does then. An unknown character and the NUL make it go back. -/
theorem escapeStep_eq (m : Memory) (fmt : List Byte) (args : ℕ → Word) (f : FmtSpec) (ch : Byte)
    (i ap : ℕ) :
    escapeStep m fmt args f ch i ap =
      match escapeReading args f ch ap with
      | .flag mode ap' => pure ⟨mode, i + 1, ap'⟩
      | .item d ap' => d.print m args >>= fun _ => pure ⟨.text, i + 1, ap'⟩
      | _ => Fmt.putch 0x25#32 >>= fun _ => rewind fmt i >>= fun j => pure ⟨.text, j, ap⟩ := by
  unfold escapeStep
  generalize hc : Char.ofNat ch.toNat = c
  split
  case h_25 =>
    have hread : escapeReading args f ch ap = if ch = 0#8 then .stop else .literal := by
      rw [escapeReading, hc]
      split <;> first | contradiction | rfl
    rw [hread]
    split_ifs <;> rfl
  all_goals
    rw [escapeReading, hc]
    rfl

/-! ### Conversions do not read the format -/

/-- A piece of the formatter's work that does not read the format. -/
def Fmt.Quiet {α : Type} (x : Fmt α) : Prop := ∀ i, .fetch i ∉ x.log

namespace Fmt.Quiet

theorem of_nil {α : Type} {x : Fmt α} (h : x.log = []) : x.Quiet := by
  intro i hi
  rw [h] at hi
  exact List.not_mem_nil hi

theorem bind {α β : Type} {x : Fmt α} {g : α → Fmt β} (hx : x.Quiet) (hg : ∀ a, (g a).Quiet) :
    (x >>= g).Quiet := by
  intro i hi
  cases h : x.result with
  | ok a =>
    rw [Logged.bind_of_ok h] at hi
    obtain hi | hi := List.mem_append.mp hi
    · exact hx i hi
    · exact hg a i hi
  | error e =>
    rw [Logged.bind_of_error h] at hi
    exact hx i hi

theorem putch (ch : Word) : (Fmt.putch ch).Quiet := by
  intro i hi
  cases List.mem_singleton.mp hi

theorem pad (padc : Byte) (width : Word) : (Fmt.pad padc width).Quiet := by
  intro i hi
  cases (List.mem_replicate.mp hi).2

theorem read (m : Memory) (p : CString) (i : ℕ) : (p.read m i).Quiet := by
  cases p with
  | arg a =>
    intro j hj
    cases List.mem_singleton.mp hj
  | const s => exact of_nil rfl

theorem strnlenLoop (m : Memory) (p : CString) (size i : ℕ) :
    (Jos.strnlenLoop m p size i).Quiet := by
  induction size generalizing i with
  | zero => exact of_nil rfl
  | succ size ih =>
    refine bind (read m p i) fun b => ?_
    split
    · exact of_nil rfl
    · exact ih (i + 1)

theorem printStringLoop (m : Memory) (f : FmtSpec) (p : CString) (fuel : ℕ) (precision : Word)
    (i : ℕ) : (Jos.printStringLoop m f p fuel precision i).Quiet := by
  induction fuel generalizing precision i with
  | zero => exact of_nil rfl
  | succ fuel ih =>
    refine bind (read m p i) fun b => ?_
    split_ifs
    · exact of_nil rfl
    · exact bind (putch _) fun _ => ih _ _
    · exact of_nil rfl
    · exact bind (putch _) fun _ => ih _ _

theorem printString (m : Memory) (f : FmtSpec) (p : CString) : (Jos.printString m f p).Quiet := by
  have htail : ∀ width : Word, (Jos.printStringLoop m f p (2 ^ 32) f.precision 0 >>= fun n =>
      Fmt.pad (chr ' ') (width - BitVec.ofNat 32 n)).Quiet := fun width =>
    bind (printStringLoop m f p _ _ _) fun _ => pad _ _
  unfold Jos.printString
  split_ifs
  · exact bind (strnlenLoop m p _ _) fun _ => bind (pad _ _) fun _ => htail _
  · exact htail f.width

theorem printnum (num base : ℕ) (width : Word) (padc : Byte) :
    (Jos.printnum num base width padc).Quiet := by
  induction num using Nat.strong_induction_on generalizing width with
  | _ num ih =>
    rw [Jos.printnum]
    split
    · next h => exact bind (ih _ (Nat.div_lt_self (by omega) (by omega)) _) fun _ => putch _
    · exact bind (pad _ _) fun _ => putch _

theorem printSigned (f : FmtSpec) (num : BitVec 64) : (Jos.printSigned f num).Quiet := by
  unfold Jos.printSigned
  split_ifs
  · exact bind (putch _) fun _ => printnum _ _ _ _
  · exact printnum _ _ _ _

theorem printError (m : Memory) (err : Word) : (Jos.printError m err).Quiet := by
  unfold Jos.printError
  dsimp only
  split
  · exact printString _ _ _
  · refine bind ?_ fun _ => printSigned _ _
    intro i hi
    obtain ⟨c, -, hc⟩ := List.mem_map.mp hi
    cases hc

theorem item (m : Memory) (args : ℕ → Word) (d : FmtItem) : (d.print m args).Quiet := by
  cases d with
  | char ap => exact putch _
  | error ap => exact printError _ _
  | string f ap => exact printString _ _ _
  | signed f num => exact printSigned _ _
  | unsigned f num base => exact printnum _ _ _ _
  | pointer f ap => exact bind (putch _) fun _ => bind (putch _) fun _ => printnum _ _ _ _
  | percent => exact putch _

end Fmt.Quiet

/-! ### Steps -/

theorem putchars_append (l l' : List FmtEvent) :
    putchars (l ++ l') = putchars l ++ putchars l' := List.filterMap_append

theorem lt_length_of_getD_ne {i : ℕ} (h : fmt.getD i 0#8 ≠ 0#8) : i < fmt.length := by
  by_contra hge
  exact h (List.getD_eq_default _ _ (not_lt.mp hge))

/-- The code is at index `i` in an escape whose `%` is at `s`. -/
structure InEscape (fmt : List Byte) (s i : ℕ) : Prop where
  percent : fmt.getD s 0#8 = chr '%'
  lt : s < i
  flags : ∀ j, s < j → j < i → fmt.getD j 0#8 ≠ chr '%' ∧ fmt.getD j 0#8 ≠ 0#8

theorem InEscape.succ {s i : ℕ} (h : InEscape fmt s i) (hp : fmt.getD i 0#8 ≠ chr '%')
    (hz : fmt.getD i 0#8 ≠ 0#8) : InEscape fmt s (i + 1) := by
  refine ⟨h.percent, Nat.lt_succ_of_lt h.lt, ?_⟩
  intro j hs hj
  obtain hlt | rfl := Nat.lt_succ_iff_lt_or_eq.mp hj
  · exact h.flags j hs hlt
  · exact ⟨hp, hz⟩

/-- The search for the `%` finds the escape's own. -/
theorem rewind_escape {s i : ℕ} (h : InEscape fmt s i) :
    (rewind fmt i).result = .ok (s + 1) := by
  obtain ⟨hpercent, hlt, hflags⟩ := h
  induction i with
  | zero => omega
  | succ i ih =>
    rw [rewind, fetch, Logged.bind_of_ok rfl]
    obtain hlt | rfl := Nat.lt_succ_iff_lt_or_eq.mp hlt
    · rw [if_neg (hflags i hlt (Nat.lt_succ_self i)).1]
      exact ih hlt fun j hs hj => hflags j hs (Nat.lt_succ_of_lt hj)
    · rw [if_pos hpercent]
      rfl

/-- The search reads characters before `i`, and does nothing else. -/
theorem rewind_log (fmt : List Byte) (i : ℕ) :
    ∀ e ∈ (rewind fmt i).log, ∃ j < i, e = .fetch j := by
  induction i with
  | zero => exact fun e he => absurd he List.not_mem_nil
  | succ i ih =>
    rw [rewind, fetch, Logged.bind_of_ok rfl]
    intro e he
    obtain rfl | he := List.mem_cons.mp he
    · exact ⟨i, Nat.lt_succ_self i, rfl⟩
    · split_ifs at he
      · exact absurd he List.not_mem_nil
      · obtain ⟨j, hj, rfl⟩ := ih e he
        exact ⟨j, Nat.lt_succ_of_lt hj, rfl⟩

section Steps

variable {i ap n : ℕ}

theorem fmtStep_percent (h : fmt.getD i 0#8 = chr '%') :
    fmtStep m fmt args ⟨.text, i, ap⟩ = ⟨[.fetch i], .ok (some ⟨.escape {}, i + 1, ap⟩)⟩ := by
  rw [fmtStep, fetch, Logged.bind_of_ok rfl, h]
  rfl

theorem fmtStep_nul (h : fmt.getD i 0#8 = 0#8) :
    fmtStep m fmt args ⟨.text, i, ap⟩ = ⟨[.fetch i], .ok none⟩ := by
  rw [fmtStep, fetch, Logged.bind_of_ok rfl, h]
  rfl

theorem fmtStep_char (hp : fmt.getD i 0#8 ≠ chr '%') (hz : fmt.getD i 0#8 ≠ 0#8) :
    fmtStep m fmt args ⟨.text, i, ap⟩ =
      ⟨[.fetch i, .putch ((fmt.getD i 0#8).setWidth 32)], .ok (some ⟨.text, i + 1, ap⟩)⟩ := by
  rw [fmtStep, fetch, Logged.bind_of_ok rfl]
  simp only [if_neg hp, if_neg hz]
  rfl

theorem fmtStep_escape {f : FmtSpec} {l : List FmtEvent} {c : FmtConfig}
    (h : escapeStep m fmt args f (fmt.getD i 0#8) i ap = ⟨l, .ok c⟩) :
    fmtStep m fmt args ⟨.escape f, i, ap⟩ = ⟨.fetch i :: l, .ok (some c)⟩ := by
  rw [fmtStep, fetch, Logged.bind_of_ok rfl]
  simp only [h]
  change (⟨[.fetch i] ++ (l ++ []), _⟩ : Fmt (Option FmtConfig)) = _
  rw [List.append_nil]
  rfl

end Steps

/-! ### The run -/

/-- A run that returns, prints `out` and reads the format no further than its NUL. -/
structure Outputs (fmt : List Byte) (x : Fmt Unit) (out : List Word) : Prop where
  returns : x.result = .ok ()
  chars : putchars x.log = out
  fetches : ∀ i, .fetch i ∈ x.log → i ≤ fmt.length

/-- One step prints something, and the rest of the run the rest. -/
theorem Outputs.step {n : ℕ} {c c' : FmtConfig} {l : List FmtEvent} {out : List Word}
    (hstep : fmtStep m fmt args c = ⟨l, .ok (some c')⟩)
    (hl : ∀ i, .fetch i ∈ l → i ≤ fmt.length) (h : Outputs fmt (fmtRun m fmt args n c') out) :
    Outputs fmt (fmtRun m fmt args (n + 1) c) (putchars l ++ out) := by
  rw [fmtRun_next hstep]
  refine ⟨h.returns, ?_, ?_⟩
  · rw [putchars_append, h.chars]
  · intro i hi
    obtain hi | hi := List.mem_append.mp hi
    · exact hl i hi
    · exact h.fetches i hi

/-- The characters of the format from `s` to `i`. -/
def escaped (fmt : List Byte) (s i : ℕ) : List Byte := (fmt.drop s).take (i - s)

theorem escaped_self (fmt : List Byte) (i : ℕ) : escaped fmt i i = [] := by
  rw [escaped, Nat.sub_self, List.take_zero]

theorem escaped_succ {s i : ℕ} (hs : s ≤ i) (hi : i < fmt.length) :
    escaped fmt s (i + 1) = escaped fmt s i ++ [fmt.getD i 0#8] := by
  calc escaped fmt s (i + 1)
      = (fmt.drop s).take (i - s + 1) := by rw [escaped, Nat.succ_sub hs]
    _ = escaped fmt s i ++ fmt[i]?.toList := by
        rw [List.take_add_one, List.getElem?_drop, Nat.add_sub_cancel' hs, escaped]
    _ = escaped fmt s i ++ [fmt.getD i 0#8] := by
        rw [List.getElem?_eq_getElem hi, List.getD_eq_getElem _ _ hi, Option.toList_some]

theorem escaped_eq_cons {s i : ℕ} (hs : s < i) (hi : s < fmt.length) :
    escaped fmt s i = fmt.getD s 0#8 :: escaped fmt (s + 1) i := by
  rw [escaped, List.drop_eq_getElem_cons hi, show i - s = i - (s + 1) + 1 by omega,
    List.take_succ_cons, List.getD_eq_getElem _ _ hi]
  rfl

theorem putchars_rewind (fmt : List Byte) (i : ℕ) : putchars (rewind fmt i).log = [] := by
  refine List.filterMap_eq_nil_iff.mpr fun e he => ?_
  obtain ⟨j, -, rfl⟩ := rewind_log fmt i e he
  rfl

section Run

variable {i s n ap : ℕ} {f : FmtSpec}

theorem mem_singleton_fetch (hi : i ≤ fmt.length) :
    ∀ j, FmtEvent.fetch j ∈ [.fetch i] → j ≤ fmt.length := by
  intro j hj
  cases List.mem_singleton.mp hj
  exact hi

/-- One character of text. -/
theorem Outputs.char {out : List Word} (hp : fmt.getD i 0#8 ≠ chr '%') (hz : fmt.getD i 0#8 ≠ 0#8)
    (h : Outputs fmt (fmtRun m fmt args n ⟨.text, i + 1, ap⟩) out) :
    Outputs fmt (fmtRun m fmt args (n + 1) ⟨.text, i, ap⟩)
      ((fmt.getD i 0#8).setWidth 32 :: out) := by
  refine .step (fmtStep_char hp hz) ?_ h
  intro j hj
  rw [List.mem_cons, List.mem_singleton] at hj
  obtain hj | hj := hj
  · cases hj
    exact (lt_length_of_getD_ne hz).le
  · cases hj

/-- Characters that are neither `%` nor NUL are copied. -/
theorem Outputs.text {out : List Word} (hs : s ≤ i)
    (hflags : ∀ j, s ≤ j → j < i → fmt.getD j 0#8 ≠ chr '%' ∧ fmt.getD j 0#8 ≠ 0#8)
    (h : Outputs fmt (fmtRun m fmt args n ⟨.text, i, ap⟩) out) :
    Outputs fmt (fmtRun m fmt args (n + (i - s)) ⟨.text, s, ap⟩)
      ((escaped fmt s i).map (BitVec.setWidth 32) ++ out) := by
  induction i, hs using Nat.le_induction generalizing n out with
  | base =>
    rw [Nat.sub_self, escaped_self]
    exact h
  | succ i hs ih =>
    -- the last of them comes before what is printed after them
    obtain ⟨hp, hz⟩ := hflags i hs (Nat.lt_succ_self i)
    have hrest := ih (fun j hj hlt => hflags j hj (Nat.lt_succ_of_lt hlt)) (h.char hp hz)
    rw [escaped_succ hs (lt_length_of_getD_ne hz), List.map_append, List.append_assoc,
      show n + (i + 1 - s) = n + 1 + (i - s) by omega]
    exact hrest

/-- Where the code may be, and how many more steps it takes at most. In an escape it may
have to go back over its flags. -/
def Placed (fmt : List Byte) (s i n : ℕ) : FmtMode → Prop
  | .text => s = i ∧ 4 * (fmt.length - i) + 1 ≤ n
  | .escape _ => InEscape fmt s i ∧ 4 * (fmt.length - i) + (i - s) + 1 ≤ n
  | .number _ => InEscape fmt s i ∧ 4 * (fmt.length - i) + (i - s) + 2 ≤ n

/-- From index `i` on the code prints what the format says. -/
def OutputsFrom (m : Memory) (fmt : List Byte) (args : ℕ → Word) (i : ℕ) : Prop :=
  i ≤ fmt.length → ∀ ⦃s n ap : ℕ⦄ ⦃mode : FmtMode⦄, Placed fmt s i n mode →
    (∀ d ∈ fmtItems args (fmt.drop i) mode ap, (d.print m args).result = .ok ()) →
    Outputs fmt (fmtRun m fmt args n ⟨mode, i, ap⟩)
      (formatted m args (fmt.drop i) mode (escaped fmt s i) ap)

theorem outputsFrom_text (hnext : i < fmt.length → OutputsFrom m fmt args (i + 1))
    (hi : i ≤ fmt.length) (hplace : Placed fmt s i n .text)
    (hitems : ∀ d ∈ fmtItems args (fmt.drop i) .text ap, (d.print m args).result = .ok ()) :
    Outputs fmt (fmtRun m fmt args n ⟨.text, i, ap⟩)
      (formatted m args (fmt.drop i) .text (escaped fmt s i) ap) := by
  obtain ⟨rfl, hn⟩ := hplace
  obtain ⟨n, rfl⟩ := Nat.exists_eq_add_one_of_ne_zero (by omega : n ≠ 0)
  rw [formatted_drop]
  rw [fmtItems_drop] at hitems
  by_cases hp : fmt.getD s 0#8 = chr '%'
  · -- an escape starts
    have hlt : s < fmt.length := lt_length_of_getD_ne (by rw [hp]; decide)
    simp only [readChar, if_pos hp] at hitems ⊢
    have hesc : InEscape fmt s (s + 1) :=
      ⟨hp, Nat.lt_succ_self s, fun j hs hj => absurd hs (by omega)⟩
    rw [← escaped_succ (le_refl s) hlt]
    exact .step (fmtStep_percent hp) (mem_singleton_fetch hi)
      (hnext hlt hlt ⟨hesc, by omega⟩ hitems)
  by_cases hz : fmt.getD s 0#8 = 0#8
  · simp only [readChar, if_neg hp, if_pos hz, escaped_self]
    rw [fmtRun_return (fmtStep_nul hz)]
    exact ⟨rfl, rfl, mem_singleton_fetch hi⟩
  · have hlt : s < fmt.length := lt_length_of_getD_ne hz
    simp only [readChar, if_neg hp, if_neg hz] at hitems ⊢
    have hplace : Placed fmt (s + 1) (s + 1) n .text := ⟨rfl, by omega⟩
    have hrest := hnext hlt hlt hplace hitems
    rw [escaped_self] at hrest ⊢
    exact hrest.char hp hz

/-- At an escape that it does not know the code prints its `%`, goes back to it, and
copies the flags after it as text. It comes back to `ch` in the loop that copies text. -/
theorem outputsFrom_unknown (hnext : i < fmt.length → OutputsFrom m fmt args (i + 1))
    (hi : i ≤ fmt.length) (hesc : InEscape fmt s i)
    (hn : 4 * (fmt.length - i) + (i - s) + 1 ≤ n + 1) (hp : fmt.getD i 0#8 ≠ chr '%')
    (hread : escapeReading args f (fmt.getD i 0#8) ap =
      if fmt.getD i 0#8 = 0#8 then .stop else .literal)
    (hitems : ∀ d ∈ fmtItems args (fmt.drop i) (.escape f) ap, (d.print m args).result = .ok ()) :
    Outputs fmt (fmtRun m fmt args (n + 1) ⟨.escape f, i, ap⟩)
      (formatted m args (fmt.drop i) (.escape f) (escaped fmt s i) ap) := by
  -- in text the character stands for the same
  have htext : readChar args (fmt.getD i 0#8) ap .text =
      readChar args (fmt.getD i 0#8) ap (.escape f) := by
    simp only [readChar, if_neg hp, hread]
  have hitems' : fmtItems args (fmt.drop i) (.escape f) ap =
      fmtItems args (fmt.drop i) .text ap := by
    rw [fmtItems_drop, fmtItems_drop args fmt i .text, htext]
  have hformatted : formatted m args (fmt.drop i) (.escape f) (escaped fmt s i) ap =
      (escaped fmt s i).map (BitVec.setWidth 32) ++ formatted m args (fmt.drop i) .text [] ap := by
    rw [formatted_drop, formatted_drop m args fmt i .text, htext]
    simp only [readChar, hread]
    split_ifs
    · rw [List.map_nil, List.append_nil]
    · rw [List.map_append, List.append_assoc, List.nil_append]
  have hstep := escapeStep_eq m fmt args f (fmt.getD i 0#8) i ap
  have hback : escapeStep m fmt args f (fmt.getD i 0#8) i ap =
      ⟨.putch 0x25#32 :: (rewind fmt i).log, .ok ⟨.text, s + 1, ap⟩⟩ := by
    rw [hstep, hread]
    split_ifs
    all_goals
      rw [Logged.bind_of_ok rfl, Logged.bind_of_ok (rewind_escape hesc), Logged.log_pure,
        List.append_nil]
      rfl
  -- there is fuel for the characters it goes over a second time
  have hlt := hesc.lt
  obtain ⟨k, rfl⟩ := Nat.exists_eq_add_of_le' (show i - (s + 1) ≤ n by omega)
  have hrest := outputsFrom_text hnext hi (s := i) (n := k) ⟨rfl, by omega⟩ (hitems' ▸ hitems)
  rw [escaped_self] at hrest
  have hflags := hrest.text (s := s + 1) hlt fun j hs hj => hesc.flags j hs hj
  have hs : s < fmt.length := lt_of_lt_of_le hlt hi
  rw [hformatted, escaped_eq_cons hlt hs, hesc.percent, List.map_cons, List.cons_append]
  have hprinted : putchars (.fetch i :: .putch 0x25#32 :: (rewind fmt i).log) = [0x25#32] := by
    change 0x25#32 :: putchars (rewind fmt i).log = _
    rw [putchars_rewind]
  have hout := Outputs.step (fmtStep_escape hback) ?_ hflags
  · rwa [hprinted] at hout
  · intro j hj
    rw [List.mem_cons, List.mem_cons] at hj
    obtain hj | hj | hj := hj
    · cases hj
      exact hi
    · cases hj
    · obtain ⟨k, hk, hjk⟩ := rewind_log fmt i _ hj
      cases hjk
      omega

theorem outputsFrom_escape (hnext : i < fmt.length → OutputsFrom m fmt args (i + 1))
    (hi : i ≤ fmt.length) (hplace : Placed fmt s i n (.escape f))
    (hitems : ∀ d ∈ fmtItems args (fmt.drop i) (.escape f) ap, (d.print m args).result = .ok ()) :
    Outputs fmt (fmtRun m fmt args n ⟨.escape f, i, ap⟩)
      (formatted m args (fmt.drop i) (.escape f) (escaped fmt s i) ap) := by
  obtain ⟨hesc, hn⟩ := hplace
  obtain ⟨n, rfl⟩ := Nat.exists_eq_add_one_of_ne_zero (by omega : n ≠ 0)
  have hstep := escapeStep_eq m fmt args f (fmt.getD i 0#8) i ap
  obtain ⟨mode, ap', hread, hmode, hp, hz⟩ | ⟨d, ap', hread, hz⟩ | ⟨hp, hread⟩ :=
    escapeReading_cases args f (fmt.getD i 0#8) ap
  · -- a flag
    have hlt : i < fmt.length := lt_length_of_getD_ne hz
    have hplace' : Placed fmt s (i + 1) n mode := by
      cases mode with
      | text => exact absurd rfl hmode
      | escape f' => exact ⟨hesc.succ hp hz, by omega⟩
      | number f' => exact ⟨hesc.succ hp hz, by omega⟩
    rw [formatted_drop]
    rw [fmtItems_drop] at hitems
    simp only [readChar, hread] at hitems hstep ⊢
    rw [← escaped_succ hesc.lt.le hlt]
    exact .step (fmtStep_escape hstep) (mem_singleton_fetch hi) (hnext hlt hlt hplace' hitems)
  · -- a conversion
    have hlt : i < fmt.length := lt_length_of_getD_ne hz
    rw [formatted_drop]
    rw [fmtItems_drop] at hitems
    simp only [readChar, hread] at hitems hstep ⊢
    have hret := hitems d List.mem_cons_self
    rw [Logged.bind_of_ok hret, Logged.log_pure, List.append_nil] at hstep
    have hplace : Placed fmt (i + 1) (i + 1) n .text := ⟨rfl, by omega⟩
    have hrest := hnext hlt hlt hplace fun d hd => hitems d (List.mem_cons_of_mem _ hd)
    rw [escaped_self] at hrest
    change Outputs fmt _ (putchars (.fetch i :: (d.print m args).log) ++ _)
    refine .step (fmtStep_escape hstep) ?_ hrest
    intro j hj
    obtain hj | hj := List.mem_cons.mp hj
    · cases hj
      exact hi
    · exact absurd hj (Fmt.Quiet.item m args d j)
  · exact outputsFrom_unknown hnext hi hesc hn hp hread hitems

theorem outputsFrom_number (hnext : i < fmt.length → OutputsFrom m fmt args (i + 1))
    (hi : i ≤ fmt.length) (hplace : Placed fmt s i n (.number f))
    (hitems : ∀ d ∈ fmtItems args (fmt.drop i) (.number f) ap, (d.print m args).result = .ok ()) :
    Outputs fmt (fmtRun m fmt args n ⟨.number f, i, ap⟩)
      (formatted m args (fmt.drop i) (.number f) (escaped fmt s i) ap) := by
  obtain ⟨hesc, hn⟩ := hplace
  obtain ⟨n, rfl⟩ := Nat.exists_eq_add_one_of_ne_zero (by omega : n ≠ 0)
  by_cases hd : chr '0' ≤ fmt.getD i 0#8 ∧ fmt.getD i 0#8 ≤ chr '9'
  · -- one more digit: neither `%` nor the end
    have hp : fmt.getD i 0#8 ≠ chr '%' := by
      intro hc
      rw [hc] at hd
      exact absurd hd (by decide)
    have hz : fmt.getD i 0#8 ≠ 0#8 := by
      intro hc
      rw [hc] at hd
      exact absurd hd (by decide)
    have hstep : fmtStep m fmt args ⟨.number f, i, ap⟩ = ⟨[.fetch i], .ok (some
        ⟨.number { f with precision := f.precision * 10#32 + digitValue (fmt.getD i 0#8) },
          i + 1, ap⟩)⟩ := by
      rw [fmtStep, fetch, Logged.bind_of_ok rfl]
      simp only [if_pos hd]
      rfl
    have hlt := lt_length_of_getD_ne hz
    rw [formatted_drop]
    rw [fmtItems_drop] at hitems
    simp only [readChar, if_pos hd] at hitems ⊢
    rw [← escaped_succ hesc.lt.le hlt]
    exact .step hstep (mem_singleton_fetch hi)
      (hnext hlt hlt ⟨hesc.succ hp hz, by omega⟩ hitems)
  · -- the number is over, and the `switch` looks at the character once more
    have hstep : fmtStep m fmt args ⟨.number f, i, ap⟩ =
        ⟨[.fetch i], .ok (some ⟨.escape f.processPrecision, i, ap⟩)⟩ := by
      rw [fmtStep, fetch, Logged.bind_of_ok rfl]
      simp only [if_neg hd]
      rfl
    have hread : readChar args (fmt.getD i 0#8) ap (.number f) =
        readChar args (fmt.getD i 0#8) ap (.escape f.processPrecision) := by
      simp only [readChar, if_neg hd]
    rw [formatted_drop, hread, ← formatted_drop]
    rw [fmtItems_drop, hread, ← fmtItems_drop] at hitems
    exact .step hstep (mem_singleton_fetch hi)
      (outputsFrom_escape hnext hi ⟨hesc, by omega⟩ hitems)

/-- From every index on the code prints what the format says. -/
theorem outputsFrom (m : Memory) (fmt : List Byte) (args : ℕ → Word) (i : ℕ) :
    OutputsFrom m fmt args i := by
  have hnext : i < fmt.length → OutputsFrom m fmt args (i + 1) := fun _ => outputsFrom m fmt args _
  intro hi s n ap mode
  cases mode with
  | text => exact outputsFrom_text hnext hi
  | escape f => exact outputsFrom_escape hnext hi
  | number f => exact outputsFrom_number hnext hi
termination_by fmt.length - i

end Run

/-- When its conversions return, `vprintfmt` returns, and has printed its format. -/
theorem vprintfmt_outputs
    (h : ∀ d ∈ fmtItems args fmt .text 0, (d.print m args).result = .ok ()) :
    Outputs fmt (vprintfmt m fmt args) (formatted m args fmt .text [] 0) := by
  have hplace : Placed fmt 0 0 (4 * (fmt.length + 1)) .text := ⟨rfl, by omega⟩
  exact outputsFrom m fmt args 0 (Nat.zero_le _) hplace h

end Jos
