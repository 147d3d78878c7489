import Jos.Environment.Smp
import Jos.Kern.Syscall
import Jos.Memory.UserCheck
import Mathlib.Data.List.GetD

/-!
# What `sys_cputs` prints

`sys_cputs(s, len)` checks the user's bytes `[s, s + len)` and prints them with the
format `"%.*s"`. The loop of `%s` reads a character before it looks at the precision,
and stops at a NUL: it reads the byte after the string, or it prints less than the
string (`printStringLoop_past_or_short`). A null pointer is printed as `(null)` without
any read. So the call touches and prints exactly what was checked only in the odd case
that these happen to be the same: `sysCputs_exact_iff`.
-/

namespace Jos

variable {m : Memory} {f : FmtSpec}

/-! ### The format -/

theorem fmtRun_next {fmt : List Byte} {args : ℕ → Word} {c c' : FmtConfig} {l : List FmtEvent}
    (h : fmtStep m fmt args c = ⟨l, .ok (some c')⟩) (n : ℕ) :
    fmtRun m fmt args (n + 1) c =
      ⟨l ++ (fmtRun m fmt args n c').log, (fmtRun m fmt args n c').result⟩ := by
  rw [fmtRun, h]
  rfl

theorem fmtRun_return {fmt : List Byte} {args : ℕ → Word} {c : FmtConfig} {l : List FmtEvent}
    (h : fmtStep m fmt args c = ⟨l, .ok none⟩) (n : ℕ) :
    fmtRun m fmt args (n + 1) c = ⟨l, .ok ()⟩ := by
  rw [fmtRun, h]
  change (⟨l ++ [], .ok ()⟩ : Fmt Unit) = _
  rw [List.append_nil]

theorem fmtRun_abort {fmt : List Byte} {args : ℕ → Word} {c : FmtConfig} {l : List FmtEvent}
    {a : FmtAbort} (h : fmtStep m fmt args c = ⟨l, .error a⟩) (n : ℕ) :
    fmtRun m fmt args (n + 1) c = ⟨l, .error a⟩ := by
  rw [fmtRun, h]
  rfl

/-- `"%.*s"` prints its second argument with its first one as the precision. -/
theorem vprintfmt_precString (m : Memory) (args : ℕ → Word) :
    let p := if args 1 = 0#32 then .const (text "(null)") else .arg (args 1)
    let x := printString m { width := 0#32, precision := args 0 } p
    ∃ l, vprintfmt m (text "%.*s") args =
      ⟨[.fetch 0, .fetch 1, .fetch 2, .fetch 3] ++ x.log ++ l, x.result⟩ ∧ l ⊆ [.fetch 4] := by
  intro p x
  -- one step for each of the characters of the format, and one for its NUL
  have h₀ : fmtStep m (text "%.*s") args ⟨.text, 0, 0⟩ =
      ⟨[.fetch 0], .ok (some ⟨.escape {}, 1, 0⟩)⟩ := rfl
  have h₁ : fmtStep m (text "%.*s") args ⟨.escape {}, 1, 0⟩ =
      ⟨[.fetch 1], .ok (some ⟨.escape { width := 0#32 }, 2, 0⟩)⟩ := rfl
  have h₂ : fmtStep m (text "%.*s") args ⟨.escape { width := 0#32 }, 2, 0⟩ =
      ⟨[.fetch 2], .ok (some ⟨.escape { width := 0#32, precision := args 0 }, 3, 1⟩)⟩ := rfl
  have h₃ : fmtStep m (text "%.*s") args ⟨.escape { width := 0#32, precision := args 0 }, 3, 1⟩ =
      (⟨[.fetch 3], .ok (chr 's')⟩ : Fmt Byte) >>= fun _ =>
        (x >>= fun _ => pure ⟨.text, 4, 2⟩) >>= fun c => pure (some c) := rfl
  have h₄ : fmtStep m (text "%.*s") args ⟨.text, 4, 2⟩ = ⟨[.fetch 4], .ok none⟩ := rfl
  rw [show vprintfmt m (text "%.*s") args = fmtRun m (text "%.*s") args 20 ⟨.text, 0, 0⟩ from rfl,
    fmtRun_next h₀, fmtRun_next h₁, fmtRun_next h₂]
  obtain ⟨log, result⟩ := x
  cases result with
  | ok u =>
    -- the string is printed, and the format goes on to its end
    refine ⟨[.fetch 4], ?_, List.Subset.refl _⟩
    have h₃' : fmtStep m (text "%.*s") args
        ⟨.escape { width := 0#32, precision := args 0 }, 3, 1⟩ =
        ⟨.fetch 3 :: log, .ok (some ⟨.text, 4, 2⟩)⟩ := by
      rw [h₃]
      change (⟨[.fetch 3] ++ ((log ++ []) ++ []), _⟩ : Fmt (Option FmtConfig)) = _
      rw [List.append_nil, List.append_nil]
      rfl
    rw [fmtRun_next h₃', fmtRun_return h₄]
    simp
  | error a =>
    -- the string is not there, and the rest of the format is not read
    refine ⟨[], ?_, List.nil_subset _⟩
    have h₃' : fmtStep m (text "%.*s") args
        ⟨.escape { width := 0#32, precision := args 0 }, 3, 1⟩ = ⟨.fetch 3 :: log, .error a⟩ := h₃
    rw [fmtRun_abort h₃']
    simp

/-! ### The loop of `%s` -/

section Loop

variable {s : CString} {i fuel n : ℕ} {b : Byte} {l : List FmtEvent}

theorem printStringLoop_fault {precision : Word} {a : FmtAbort}
    (hread : s.read m i = ⟨l, .error a⟩) :
    printStringLoop m f s (fuel + 1) precision i = ⟨l, .error a⟩ := by
  rw [printStringLoop, hread]
  rfl

/-- The loop stops at a NUL. -/
theorem printStringLoop_nul {precision : Word} (hread : s.read m i = ⟨l, .ok 0#8⟩) :
    printStringLoop m f s (fuel + 1) precision i = ⟨l, .ok i⟩ := by
  rw [printStringLoop, hread]
  change (⟨l ++ [], .ok i⟩ : Fmt ℕ) = _
  rw [List.append_nil]

/-- At precision 0 a character is read and not printed. -/
theorem printStringLoop_zero (hread : s.read m i = ⟨l, .ok b⟩) :
    printStringLoop m f s (fuel + 1) 0#32 i = ⟨l, .ok i⟩ := by
  by_cases hb : b = 0#8
  · rw [hb] at hread
    exact printStringLoop_nul hread
  · rw [printStringLoop, hread, Logged.bind_of_ok rfl]
    have hneg : ((0#32 - 1#32).slt 0#32) = true := by decide
    have hpos : ((0#32).slt 0#32) = false := by decide
    simp only [if_neg hb, hpos, hneg, if_true, Bool.false_eq_true, if_false, Logged.log_pure,
      Logged.result_pure, List.append_nil]

theorem slt_zero_ofNat (hn : n < 2 ^ 31) : (BitVec.ofNat 32 n).slt 0#32 = false := by
  have hnat : (BitVec.ofNat 32 n).toNat = n := by
    rw [BitVec.toNat_ofNat]
    omega
  have hint : (BitVec.ofNat 32 n).toInt = n := by
    rw [BitVec.toInt_eq_toNat_of_lt (by omega), hnat]
  rw [BitVec.slt_eq_decide, decide_eq_false_iff_not, hint, show (0#32).toInt = 0 from rfl]
  omega

/-- At a positive precision it is printed. -/
theorem printStringLoop_succ (hread : s.read m i = ⟨l, .ok b⟩) (hb : b ≠ 0#8)
    (hn : n + 1 < 2 ^ 31) :
    printStringLoop m f s (fuel + 1) (BitVec.ofNat 32 (n + 1)) i =
      ⟨l ++ .putch (f.shown b) :: (printStringLoop m f s fuel (BitVec.ofNat 32 n) (i + 1)).log,
        (printStringLoop m f s fuel (BitVec.ofNat 32 n) (i + 1)).result⟩ := by
  have hpred : BitVec.ofNat 32 (n + 1) - 1#32 = BitVec.ofNat 32 n := by
    rw [BitVec.ofNat_add, BitVec.add_sub_cancel]
  rw [printStringLoop, hread, Logged.bind_of_ok rfl]
  simp only [if_neg hb, slt_zero_ofNat hn, hpred, slt_zero_ofNat (show n < 2 ^ 31 by omega),
    Bool.false_eq_true, if_false]
  rfl

end Loop

/-- With precision `n` the loop reads the character at `n`, or prints less than `n`
characters. -/
theorem printStringLoop_past_or_short (p : Word) {n fuel : ℕ} (hn : n < 2 ^ 31) (hfuel : n < fuel)
    (i : ℕ) :
    .load (p + BitVec.ofNat 32 (i + n)) ∈
        (printStringLoop m f (.arg p) fuel (BitVec.ofNat 32 n) i).log ∨
      (putchars (printStringLoop m f (.arg p) fuel (BitVec.ofNat 32 n) i).log).length < n := by
  obtain ⟨fuel, rfl⟩ := Nat.exists_eq_add_one_of_ne_zero (by omega : fuel ≠ 0)
  -- whatever the read returns, its address is in the log
  obtain ⟨r, hread⟩ : ∃ r, (CString.arg p).read m i = ⟨[.load (p + BitVec.ofNat 32 i)], r⟩ :=
    ⟨_, rfl⟩
  induction n generalizing fuel i r with
  | zero =>
    left
    cases r with
    | error a =>
      rw [printStringLoop_fault hread]
      exact List.mem_cons_self
    | ok b =>
      rw [printStringLoop_zero hread]
      exact List.mem_cons_self
  | succ n ih =>
    cases r with
    | error a =>
      right
      rw [printStringLoop_fault hread]
      exact Nat.succ_pos n
    | ok b =>
      by_cases hb : b = 0#8
      · -- a NUL ends the string early
        right
        rw [hb] at hread
        rw [printStringLoop_nul hread]
        exact Nat.succ_pos n
      · obtain ⟨fuel, rfl⟩ := Nat.exists_eq_add_one_of_ne_zero (by omega : fuel ≠ 0)
        rw [printStringLoop_succ hread hb hn]
        obtain hpast | hshort := ih (by omega) (i + 1) fuel (by omega) _ rfl
        · left
          rw [show i + (n + 1) = i + 1 + n by omega]
          exact List.mem_append_right _ (List.mem_cons_of_mem _ hpast)
        · right
          exact Nat.succ_lt_succ hshort

/-- A string constant is printed up to the precision, and nothing is read. -/
theorem printStringLoop_const {s : List Byte} (hs : 0#8 ∉ s) {n fuel : ℕ} (hn : n < 2 ^ 31)
    (hfuel : n < fuel) {i : ℕ} (hi : i ≤ s.length) :
    printStringLoop m f (.const s) fuel (BitVec.ofNat 32 n) i =
      ⟨((s.drop i).take n).map fun b => .putch (f.shown b), .ok (min (i + n) s.length)⟩ := by
  obtain ⟨fuel, rfl⟩ := Nat.exists_eq_add_one_of_ne_zero (by omega : fuel ≠ 0)
  have hread : (CString.const s).read m i = ⟨[], .ok (s.getD i 0#8)⟩ := rfl
  induction n generalizing fuel i with
  | zero =>
    rw [printStringLoop_zero hread, List.take_zero, Nat.add_zero, Nat.min_eq_left hi]
    rfl
  | succ n ih =>
    by_cases hlt : i < s.length
    · have hget : s.getD i 0#8 = s[i] := List.getD_eq_getElem _ _ hlt
      have hb : s[i] ≠ 0#8 := fun hc => hs (hc ▸ List.getElem_mem hlt)
      obtain ⟨fuel, rfl⟩ := Nat.exists_eq_add_one_of_ne_zero (by omega : fuel ≠ 0)
      rw [hget] at hread
      rw [printStringLoop_succ hread hb hn, ih (by omega) hlt fuel (by omega) rfl,
        List.drop_eq_getElem_cons hlt, List.take_succ_cons, List.map_cons,
        show i + 1 + n = i + (n + 1) by omega]
      rfl
    · -- the NUL at the end of the constant
      obtain rfl : i = s.length := by omega
      rw [List.getD_eq_default _ _ (le_refl _)] at hread
      rw [printStringLoop_nul hread, List.drop_length, List.take_nil, Nat.min_eq_right (by omega)]
      rfl

/-- The index at which the loop stops is at most the precision ahead. -/
theorem printStringLoop_le {s : CString} {n fuel i k : ℕ} (hn : n < 2 ^ 31) (hfuel : n < fuel)
    (hk : (printStringLoop m f s fuel (BitVec.ofNat 32 n) i).result = .ok k) : k ≤ i + n := by
  obtain ⟨fuel, rfl⟩ := Nat.exists_eq_add_one_of_ne_zero (by omega : fuel ≠ 0)
  obtain ⟨l, r, hread⟩ : ∃ l r, s.read m i = ⟨l, r⟩ := ⟨_, _, rfl⟩
  -- by induction on the precision, of which each character that is printed takes one
  induction n generalizing fuel i l r with
  | zero =>
    cases r with
    | error a =>
      rw [printStringLoop_fault hread] at hk
      cases hk
    | ok b =>
      rw [printStringLoop_zero hread] at hk
      exact (Except.ok.inj hk).ge
  | succ n ih =>
    cases r with
    | error a =>
      rw [printStringLoop_fault hread] at hk
      cases hk
    | ok b =>
      by_cases hb : b = 0#8
      · rw [hb] at hread
        rw [printStringLoop_nul hread] at hk
        have hik := Except.ok.inj hk
        omega
      · obtain ⟨fuel, rfl⟩ := Nat.exists_eq_add_one_of_ne_zero (by omega : fuel ≠ 0)
        rw [printStringLoop_succ hread hb hn] at hk
        have hle := ih (by omega) fuel (by omega) hk _ _ rfl
        omega

/-- A width that has been counted down pads nothing. -/
theorem pad_counted {k : ℕ} (hk : k < 2 ^ 31) (padc : Byte) :
    Fmt.pad padc (0#32 - BitVec.ofNat 32 k) = pure () := by
  have hnat : (BitVec.ofNat 32 k).toNat = k := by
    rw [BitVec.toNat_ofNat]
    omega
  have hint : (BitVec.ofNat 32 k).toInt = k := by
    rw [BitVec.toInt_eq_toNat_of_lt (by omega), hnat]
  have hneg : (0#32 - BitVec.ofNat 32 k).toInt = -k := by
    rw [BitVec.zero_sub, BitVec.toInt_neg, hint, Int.bmod_eq_of_le (by omega) (by omega)]
  rw [Fmt.pad, hneg, show (-(k : ℤ)).toNat = 0 by omega]
  rfl

/-- Without a width `%s` is its loop. -/
theorem printString_noWidth {s : CString} {n : ℕ} (hn : n < 2 ^ 31) (f : FmtSpec)
    (hw : f.width = 0#32) (hp : f.precision = BitVec.ofNat 32 n) :
    printString m f s =
      ⟨(printStringLoop m f s (2 ^ 32) (BitVec.ofNat 32 n) 0).log,
        (printStringLoop m f s (2 ^ 32) (BitVec.ofNat 32 n) 0).result.map fun _ => ()⟩ := by
  have hno : ¬((0#32).slt f.width ∧ f.padc ≠ chr '-') := by
    rw [hw]
    exact fun h => absurd h.1 (by decide)
  unfold printString
  rw [if_neg hno, Logged.pure_bind, hw, hp]
  beta_reduce
  cases hr : (printStringLoop m f s (2 ^ 32) (BitVec.ofNat 32 n) 0).result with
  | error a =>
    rw [Logged.bind_of_error hr]
    rfl
  | ok k =>
    have hk := printStringLoop_le hn (by omega) hr
    rw [Logged.bind_of_ok hr, pad_counted (by omega)]
    simp [Except.map]

/-- What `sys_cputs(s, len)` is for: it reads only the bytes that were checked, and
prints exactly them. -/
structure PrintsExactly (m : Memory) (s len : Word) (x : Fmt Word) : Prop where
  loads : ∀ a, .load a ∈ x.log → ∃ i < len.toNat, a = s + BitVec.ofNat 32 i
  chars : (putchars x.log).map (fun c => some (c.setWidth 8)) =
    (List.range len.toNat).map fun i => m (s + BitVec.ofNat 32 i)
  returns : ∃ cnt, x.result = .ok cnt

/-! ### `sys_cputs` -/

/-- The checked string as `sys_cputs` hands it to `%s`. -/
def cputsString (s : Word) : CString := if s = 0#32 then .const (text "(null)") else .arg s

/-- The format of `sys_cputs`. -/
def cputsSpec (len : Word) : FmtSpec := { width := 0#32, precision := len }

/-- What `cprintf("%.*s", len, s)` does is the loop of `%s`, and reads of the format. -/
theorem cprintf_precString (m : Memory) (s : Word) {len : Word} (hlen : len.toNat < 2 ^ 31) :
    let x := printStringLoop m (cputsSpec len) (cputsString s) (2 ^ 32) len 0
    (∀ a, .load a ∈ (cprintf m "%.*s" [len, s]).log ↔ .load a ∈ x.log) ∧
    putchars (cprintf m "%.*s" [len, s]).log = putchars x.log ∧
    ((∃ cnt, (cprintf m "%.*s" [len, s]).result = .ok cnt) ↔ ∃ k, x.result = .ok k) := by
  intro x
  have hlen' : BitVec.ofNat 32 len.toNat = len := by simp
  obtain ⟨l, hv, hl⟩ := vprintfmt_precString m fun i => [len, s].getD i 0#32
  have hstr := printString_noWidth (m := m) (s := cputsString s) hlen (cputsSpec len) rfl hlen'.symm
  rw [hlen'] at hstr
  have hrun : vprintfmt m (text "%.*s") (fun i => [len, s].getD i 0#32) =
      ⟨[.fetch 0, .fetch 1, .fetch 2, .fetch 3] ++ x.log ++ l, x.result.map fun _ => ()⟩ := by
    rw [hv]
    change (⟨_ ++ (printString m (cputsSpec len) (cputsString s)).log ++ l,
      (printString m (cputsSpec len) (cputsString s)).result⟩ : Fmt Unit) = _
    rw [hstr]
  have hlog : (cprintf m "%.*s" [len, s]).log =
      [.fetch 0, .fetch 1, .fetch 2, .fetch 3] ++ x.log ++ l := congrArg Logged.log hrun
  refine ⟨?_, ?_, ?_⟩
  · -- the reads of the format are not reads of memory
    intro a
    rw [hlog, List.mem_append, List.mem_append]
    constructor
    · rintro ((h | h) | h)
      · simp at h
      · exact h
      · exact absurd (hl h) (by simp)
    · exact fun h => Or.inl (Or.inr h)
  · have hnil : putchars l = [] := by
      apply List.filterMap_eq_nil_iff.mpr
      intro ev hev
      rw [List.mem_singleton.mp (hl hev)]
      rfl
    rw [hlog, putchars, List.filterMap_append, List.filterMap_append]
    change [] ++ putchars x.log ++ putchars l = _
    rw [hnil, List.append_nil, List.nil_append]
  · have hres : (cprintf m "%.*s" [len, s]).result =
        (x.result.map fun _ => ()).map fun _ => (putchars (cprintf m "%.*s" [len, s]).log).foldl
          kernPutch 0#32 := by
      rw [← show (vprintfmt m (text "%.*s") fun i => [len, s].getD i 0#32).result =
        x.result.map fun _ => () from congrArg Logged.result hrun]
      rfl
    rw [hres]
    cases x.result with
    | ok k => exact iff_of_true ⟨_, rfl⟩ ⟨k, rfl⟩
    | error a => exact iff_of_false (fun ⟨_, h⟩ => by cases h) fun ⟨_, h⟩ => by cases h

/-- A string that is not null is overread or printed short. -/
theorem not_printsExactly {m : Memory} {s len : Word} (hlen : len.toNat < 2 ^ 31)
    (hs : s ≠ 0#32) : ¬PrintsExactly m s len (cprintf m "%.*s" [len, s]) := by
  rintro ⟨hloads, hchars, -⟩
  obtain ⟨hload, hput, -⟩ := cprintf_precString m s hlen
  have hstr : cputsString s = .arg s := if_neg hs
  rw [hstr] at hload hput
  have hlen' : BitVec.ofNat 32 len.toNat = len := by simp
  obtain hpast | hshort := printStringLoop_past_or_short (m := m) (f := cputsSpec len) s hlen
    (show len.toNat < 2 ^ 32 by omega) 0
  · -- the byte after the string is none of the string
    rw [hlen', Nat.zero_add, ← hload] at hpast
    obtain ⟨i, hi, heq⟩ := hloads _ hpast
    have hnat := congrArg BitVec.toNat (add_left_cancel heq)
    rw [BitVec.toNat_ofNat, BitVec.toNat_ofNat] at hnat
    omega
  · -- less than the string was printed
    rw [hlen', ← hput] at hshort
    have hcount := congrArg List.length hchars
    rw [List.length_map, List.length_map, List.length_range] at hcount
    omega

theorem shown_byte {f : FmtSpec} (hf : f.altflag = false) (b : Byte) :
    (f.shown b).setWidth 8 = b := by
  rw [FmtSpec.shown, if_neg (by rw [hf]; simp)]
  ext k hk
  rw [BitVec.getElem_setWidth, BitVec.getLsbD_signExtend]
  simp [hk, Nat.lt_trans hk (show 8 < 32 by decide)]

/-- The characters of a prefix of a string are what is in memory exactly when memory
holds that prefix. -/
theorem take_eq_range_iff (t : List Byte) (g : ℕ → Option Byte) (n : ℕ) :
    (t.take n).map some = (List.range n).map g ↔
      n ≤ t.length ∧ ∀ i < n, g i = some (t.getD i 0#8) := by
  constructor
  · intro h
    -- the lengths give the bound, the elements the characters
    have hlen := congrArg List.length h
    rw [List.length_map, List.length_take, List.length_map, List.length_range] at hlen
    have hn : n ≤ t.length := by omega
    refine ⟨hn, ?_⟩
    intro i hi
    have hi' : i < t.length := by omega
    have hget := congrArg (fun l => l[i]?) h
    simp only [List.getElem?_map, List.getElem?_take, if_pos hi, List.getElem?_range hi,
      List.getElem?_eq_getElem hi', Option.map_some, Option.some.injEq] at hget
    rw [List.getD_eq_getElem _ _ hi', hget]
  · rintro ⟨hn, hg⟩
    apply List.ext_getElem (by simp; omega)
    intro i hi _
    have hi' : i < n := by
      rw [List.length_map, List.length_take] at hi
      omega
    rw [List.getElem_map, List.getElem_take, List.getElem_map, List.getElem_range, hg i hi',
      List.getD_eq_getElem _ _ (by omega)]

/-- A null pointer prints as `(null)`, as far as the length allows. -/
theorem printsExactly_null {m : Memory} {len : Word} (hlen : len.toNat < 2 ^ 31) :
    PrintsExactly m 0#32 len (cprintf m "%.*s" [len, 0#32]) ↔
      len.toNat ≤ 6 ∧
        ∀ i < len.toNat, m (BitVec.ofNat 32 i) = some ((text "(null)").getD i 0#8) := by
  obtain ⟨hload, hput, hres⟩ := cprintf_precString m 0#32 hlen
  have hlen' : BitVec.ofNat 32 len.toNat = len := by simp
  have hconst :=
    printStringLoop_const (m := m) (f := cputsSpec len) (s := text "(null)") (by decide)
    hlen (show len.toNat < 2 ^ 32 by omega) (Nat.zero_le _)
  rw [hlen', List.drop_zero] at hconst
  rw [show cputsString 0#32 = .const (text "(null)") from rfl, hconst] at hload hput hres
  have hchars : (putchars (cprintf m "%.*s" [len, 0#32]).log).map (fun c => some (c.setWidth 8)) =
      ((text "(null)").take len.toNat).map some := by
    have hmap : putchars (((text "(null)").take len.toNat).map fun b =>
        .putch ((cputsSpec len).shown b)) =
        ((text "(null)").take len.toNat).map (cputsSpec len).shown := by
      rw [putchars, List.filterMap_map]
      change List.filterMap (some ∘ (cputsSpec len).shown) _ = _
      rw [List.filterMap_eq_map]
    rw [hput, hmap, List.map_map]
    exact List.map_congr_left fun b _ => congrArg some (shown_byte rfl b)
  have hzero : ∀ i, m (0#32 + BitVec.ofNat 32 i) = m (BitVec.ofNat 32 i) := fun i => by
    rw [BitVec.zero_add]
  -- so the text must be what is in memory at address 0
  have hiff := take_eq_range_iff (text "(null)") (fun i => m (0#32 + BitVec.ofNat 32 i)) len.toNat
  rw [← hchars] at hiff
  simp only [hzero] at hiff
  constructor
  · intro h
    have hc := h.chars
    simp only [hzero] at hc
    exact hiff.mp hc
  · intro h
    refine ⟨?_, ?_, hres.mpr ⟨_, rfl⟩⟩
    · intro a ha
      obtain ⟨b, -, hb⟩ := List.mem_map.mp ((hload a).mp ha)
      cases hb
    · simp only [hzero]
      exact hiff.mpr h

section Call

variable {B : Boot} {σ σ' : State} {cpu : ℕ} {e : Fin nenv} {s len : Word}

/-- `user_mem_assert` comes back to its caller when the check accepts, with nothing
changed. -/
theorem userMemAssert_none_iff {perm : Word} :
    userMemAssert B cpu e s len perm σ = .ok (none, σ') ↔
      σ' = σ ∧ userMemCheck B e s len (perm ||| pteU) σ = .ok (0, σ) := by
  rw [userMemAssert, bind_eq_ok]
  constructor
  · rintro ⟨⟨r, σ₁⟩, hcheck, hrest⟩
    dsimp only at hrest
    split at hrest
    · obtain ⟨σ₂, -, hret⟩ := bind_eq_ok.mp hrest
      cases hret
    · next hr =>
      obtain ⟨rfl, rfl⟩ := userMemCheck_nonneg hcheck (not_lt.mp hr)
      cases hrest
      exact ⟨rfl, hcheck⟩
  · rintro ⟨rfl, hcheck⟩
    exact ⟨(0, σ'), hcheck, rfl⟩

/-- The string is printed when the check accepts it. -/
theorem sysCputs_printed_iff (hcur : σ.curenv cpu = some e) {x : Fmt Word} :
    sysCputs B cpu s len σ = .ok (.printed x σ') ↔
      userMemCheck B e s len (0#32 ||| pteU) σ = .ok (0, σ) ∧ σ' = σ ∧
        x = cprintf (userMemory σ e) "%.*s" [len, s] := by
  simp only [sysCputs, hcur]
  rw [bind_eq_ok]
  constructor
  · rintro ⟨⟨message, σ₁⟩, hassert, hrest⟩
    cases message with
    | some message => cases hrest
    | none =>
      obtain ⟨rfl, hcheck⟩ := userMemAssert_none_iff.mp hassert
      cases hrest
      exact ⟨hcheck, rfl, rfl⟩
  · rintro ⟨hcheck, rfl, rfl⟩
    exact ⟨(none, σ'), userMemAssert_none_iff.mpr ⟨rfl, hcheck⟩, rfl⟩

/-- An accepted string is read and printed exactly when it is the null pointer, and
what is mapped there starts like the text that is printed for it. -/
theorem sysCputs_exact_iff (hcur : σ.curenv cpu = some e) (hlen : len.toNat < 2 ^ 31)
    {x : Fmt Word} (hrun : sysCputs B cpu s len σ = .ok (.printed x σ')) :
    PrintsExactly (userMemory σ e) s len x ↔
      s = 0#32 ∧ len.toNat ≤ 6 ∧
        ∀ i < len.toNat,
          userMemory σ e (BitVec.ofNat 32 i) = some ((text "(null)").getD i 0#8) := by
  obtain ⟨-, -, rfl⟩ := (sysCputs_printed_iff hcur).mp hrun
  by_cases hs : s = 0#32
  · rw [hs, printsExactly_null hlen]
    exact ⟨fun h => ⟨rfl, h⟩, fun h => h.2⟩
  · exact iff_of_false (not_printsExactly hlen hs) fun h => hs h.1

end Call

/-- An empty string is accepted wherever it is. -/
theorem sysCputs_empty {B : Boot} {σ : State} {cpu : ℕ} {e : Fin nenv}
    (hcur : σ.curenv cpu = some e) {s : Word} (hs : pagesChecked s 0#32 = 0) :
    sysCputs B cpu s 0#32 σ = .ok (.printed (cprintf (userMemory σ e) "%.*s" [0#32, s]) σ) := by
  refine (sysCputs_printed_iff hcur).mpr ⟨?_, rfl, rfl⟩
  rw [userMemCheck_zero_iff, hs]
  exact ⟨rfl, fun k hk => absurd hk (Nat.not_lt_zero k)⟩

/-- The small machine runs its environment. -/
theorem smallMachine_running : ∃ σ free efree, MemInv smallMachine σ free efree ∧ Live σ 0 ∧
    σ.curenv 0 = some 0 := by
  obtain ⟨σ, free, efree, hinv, hr, hidle⟩ := smallMachine_runnable
  have hlive : Live σ 0 := fun hf => absurd (hr.symm.trans hf) (by decide)
  obtain ⟨σ', hrun, hsame⟩ := hinv.envRun hlive 0
  have ht := envRun_turn hrun
  refine ⟨σ', free, efree, hsame.memInv hinv, ?_, ?_⟩
  · intro hf
    have hrunning : σ'.status 0 = .running := by
      rw [ht.status]
      exact Function.update_self ..
    exact absurd (hrunning.symm.trans hf) (by decide)
  · rw [ht.cur, Function.update_self]

theorem sysCputs_exact_null : ∃ σ x, σ.curenv 0 = some 0 ∧
    sysCputs smallMachine 0 0#32 0#32 σ = .ok (.printed x σ) ∧
    PrintsExactly (userMemory σ 0) 0#32 0#32 x := by
  obtain ⟨σ, -, -, -, -, hcur⟩ := smallMachine_running
  have hrun := sysCputs_empty (B := smallMachine) hcur (s := 0#32) (by decide)
  refine ⟨σ, _, hcur, hrun, (sysCputs_exact_iff hcur (by decide) hrun).mpr ⟨rfl, by decide, ?_⟩⟩
  exact fun i hi => absurd hi (Nat.not_lt_zero i)

/-- An empty string at `0x800000` is read, though none of it was checked. -/
theorem sysCputs_overreads : ∃ σ free efree x, MemInv smallMachine σ free efree ∧ Live σ 0 ∧
    σ.curenv 0 = some 0 ∧
    sysCputs smallMachine 0 0x800000#32 0#32 σ = .ok (.printed x σ) ∧
    .load 0x800000#32 ∈ x.log ∧
    ¬PrintsExactly (userMemory σ 0) 0x800000#32 0#32 x := by
  obtain ⟨σ, free, efree, hinv, hlive, hcur⟩ := smallMachine_running
  refine ⟨σ, free, efree, _, hinv, hlive, hcur, sysCputs_empty hcur (by decide), ?_,
    not_printsExactly (by decide) (by decide)⟩
  rw [(cprintf_precString _ _ (by decide)).1]
  obtain hpast | hshort := printStringLoop_past_or_short (m := userMemory σ 0)
    (f := cputsSpec 0#32) 0x800000#32 (n := 0) (by decide) (show 0 < 2 ^ 32 by decide) 0
  · exact hpast
  · exact absurd hshort (Nat.not_lt_zero _)

end Jos
