import Jos.Console.Directive

/-!
# Strings with a width and a precision

`%*.*s` prints as much of a string as the precision allows and pads it to the width. The one
variable `width` serves three purposes: what the string leaves of it is padded on the left,
it is counted down by every character that is printed, and what remains is padded on the
right. When there was padding on the left, or none was needed, the characters are subtracted
twice. That does no harm as long as the `int` does not wrap around; once it has, it is
positive again and blanks are printed that nobody asked for. `vprintfmt_string_iff` says
exactly for which strings the output is right.
-/

namespace Jos

open Logged

variable {m : Memory} {f : FmtSpec} {p : CString} {s : List Byte}

/-! ### Strings in memory -/

/-- The characters of the string `p`, before its NUL. -/
structure CString.Holds (m : Memory) (p : CString) (s : List Byte) : Prop where
  char : ∀ i b, s[i]? = some b → (p.read m i).result = .ok b
  nonzero : ∀ b ∈ s, b ≠ 0#8
  nul : (p.read m s.length).result = .ok 0#8

/-- How many characters of a string of length `n` a precision lets through. -/
def limit (precision : Word) (n : ℕ) : ℕ :=
  if precision.slt 0#32 then n else min n precision.toNat

/-- How many `strnlen` counts: there a precision is a `size_t`. -/
def counted (precision : Word) (n : ℕ) : ℕ := min n precision.toNat

theorem limit_le (precision : Word) (n : ℕ) : limit precision n ≤ n := by
  rw [limit]
  split
  · exact le_rfl
  · exact min_le_left _ _

/-- A precision of 0 lets nothing through. -/
theorem limit_zero {precision : Word} (hneg : ¬precision.slt 0#32)
    (hlast : (precision - 1#32).slt 0#32) (n : ℕ) : limit precision n = 0 := by
  have hzero : precision = 0#32 := by
    rw [BitVec.slt_iff_toInt_lt, BitVec.toInt_eq_toNat_cond] at hneg hlast
    rw [BitVec.toNat_sub] at hlast
    have hlt := precision.isLt
    apply BitVec.eq_of_toNat_eq
    simp only [BitVec.toNat_ofNat, BitVec.toInt_zero] at hneg hlast ⊢
    split at hneg <;> split at hlast <;> omega
  rw [limit, if_neg hneg, hzero]
  exact Nat.min_zero n

/-- Any other one counts down. -/
theorem limit_succ {precision : Word} (hneg : ¬precision.slt 0#32)
    (hlast : ¬(precision - 1#32).slt 0#32) (n : ℕ) :
    limit precision (n + 1) = limit (precision - 1#32) n + 1 := by
  have hpred : precision.toNat = (precision - 1#32).toNat + 1 := by
    rw [BitVec.slt_iff_toInt_lt, BitVec.toInt_eq_toNat_cond] at hneg hlast
    rw [BitVec.toNat_sub] at hlast ⊢
    have hlt := precision.isLt
    simp only [BitVec.toNat_ofNat, BitVec.toInt_zero] at hneg hlast ⊢
    split at hneg <;> split at hlast <;> omega
  rw [limit, limit, if_neg hneg, if_neg hlast, hpred, Nat.add_min_add_right]

theorem chars_of_read (i : ℕ) : (p.read m i).chars = [] := by
  rw [Fmt.chars, putchars_read]
  rfl

/-- The loop of `%s` prints what the precision lets through. -/
theorem printStringLoop_holds (h : p.Holds m s) {fuel i : ℕ} (precision : Word)
    (hi : i ≤ s.length) (hfuel : s.length - i < fuel) :
    (printStringLoop m f p fuel precision i).result =
        .ok (i + limit precision (s.length - i)) ∧
      (printStringLoop m f p fuel precision i).chars =
        ((s.drop i).take (limit precision (s.length - i))).map
          fun b => (f.shown b).setWidth 8 := by
  induction fuel generalizing i precision with
  | zero => omega
  | succ fuel ih =>
    rw [printStringLoop]
    obtain rfl | hlt := eq_or_lt_of_le hi
    · -- the NUL ends the loop whatever the precision is
      rw [chars_bind h.nul, bind_of_ok h.nul, chars_of_read, if_pos rfl, Nat.sub_self]
      have hzero : limit precision 0 = 0 := Nat.le_zero.mp (limit_le precision 0)
      rw [hzero]
      exact ⟨rfl, rfl⟩
    · obtain ⟨b, hb⟩ : ∃ b, s[i]? = some b := ⟨_, List.getElem?_eq_getElem hlt⟩
      have hread := h.char i b hb
      have hdrop : s.drop i = b :: s.drop (i + 1) := by
        rw [List.drop_eq_getElem_cons hlt]
        rw [List.getElem?_eq_getElem hlt] at hb
        rw [Option.some.inj hb]
      rw [chars_bind hread, bind_of_ok hread, chars_of_read, hdrop,
        if_neg (h.nonzero b (List.mem_of_getElem? hb)), List.nil_append,
        show s.length - i = s.length - (i + 1) + 1 by omega]
      by_cases hneg : precision.slt 0#32
      · -- a negative precision is not counted down
        obtain ⟨hres, hchars⟩ := ih precision (show i + 1 ≤ s.length by omega) (by omega)
        have hlimit : limit precision (s.length - (i + 1) + 1) =
            limit precision (s.length - (i + 1)) + 1 := by
          rw [limit, limit, if_pos hneg, if_pos hneg]
        rw [if_pos hneg, hlimit, chars_bind rfl, bind_of_ok rfl, hchars]
        refine ⟨hres.trans (congrArg Except.ok (by omega)), rfl⟩
      by_cases hlast : (precision - 1#32).slt 0#32
      · rw [if_neg hneg, if_pos hlast, limit_zero hneg hlast]
        exact ⟨rfl, rfl⟩
      · obtain ⟨hres, hchars⟩ := ih (precision - 1#32) (show i + 1 ≤ s.length by omega) (by omega)
        rw [if_neg hneg, if_neg hlast, limit_succ hneg hlast, chars_bind rfl, bind_of_ok rfl,
          hchars]
        refine ⟨hres.trans (congrArg Except.ok (by omega)), rfl⟩

theorem strnlenLoop_holds (h : p.Holds m s) (size : ℕ) {i : ℕ} (hi : i ≤ s.length) :
    (strnlenLoop m p size i).result = .ok (min s.length (i + size)) ∧
      (strnlenLoop m p size i).chars = [] := by
  induction size generalizing i with
  | zero => exact ⟨congrArg Except.ok (by omega), rfl⟩
  | succ size ih =>
    rw [strnlenLoop]
    obtain rfl | hlt := eq_or_lt_of_le hi
    · rw [chars_bind h.nul, bind_of_ok h.nul, chars_of_read, if_pos rfl]
      exact ⟨congrArg Except.ok (by omega), rfl⟩
    · obtain ⟨b, hb⟩ : ∃ b, s[i]? = some b := ⟨_, List.getElem?_eq_getElem hlt⟩
      have hread := h.char i b hb
      obtain ⟨hres, hchars⟩ := ih (show i + 1 ≤ s.length by omega)
      rw [chars_bind hread, bind_of_ok hread, chars_of_read,
        if_neg (h.nonzero b (List.mem_of_getElem? hb)), hchars]
      exact ⟨hres.trans (congrArg Except.ok (by omega)), rfl⟩

theorem strnlen_holds (h : p.Holds m s) (size : Word) :
    (strnlen m p size).result = .ok (counted size s.length) ∧
      (strnlen m p size).chars = [] := by
  have := strnlenLoop_holds h size.toNat (Nat.zero_le s.length)
  rwa [Nat.zero_add] at this

/-! ### `%s` -/

/-- What `%s` prints of a string. -/
def FmtSpec.body (f : FmtSpec) (s : List Byte) : List Byte :=
  (s.take (limit f.precision s.length)).map fun b => (f.shown b).setWidth 8

theorem printStringLoop_body (h : p.Holds m s) (hlen : s.length < 2 ^ 32) :
    (printStringLoop m f p (2 ^ 32) f.precision 0).result = .ok (limit f.precision s.length) ∧
      (printStringLoop m f p (2 ^ 32) f.precision 0).chars = f.body s := by
  have hloop := printStringLoop_holds (f := f) h f.precision (Nat.zero_le s.length)
    (show s.length - 0 < 2 ^ 32 by omega)
  rwa [Nat.zero_add, Nat.sub_zero, List.drop_zero] at hloop

/-- The characters, and then what they leave of the width. -/
theorem printBody (h : p.Holds m s) (hlen : s.length < 2 ^ 32) (width : Word) :
    (printStringLoop m f p (2 ^ 32) f.precision 0 >>= fun n =>
        Fmt.pad (chr ' ') (width - BitVec.ofNat 32 n)).result = .ok () ∧
      (printStringLoop m f p (2 ^ 32) f.precision 0 >>= fun n =>
        Fmt.pad (chr ' ') (width - BitVec.ofNat 32 n)).chars = f.body s ++ List.replicate
          (width - BitVec.ofNat 32 (limit f.precision s.length)).toInt.toNat (chr ' ') := by
  obtain ⟨hres, hchars⟩ := printStringLoop_body (f := f) h hlen
  rw [chars_bind hres, bind_of_ok hres, hchars, chars_pad]
  exact ⟨rfl, rfl⟩

/-- Without padding on the left. -/
theorem printString_right (h : p.Holds m s) (hlen : s.length < 2 ^ 32)
    (hright : ¬((0#32).slt f.width ∧ f.padc ≠ chr '-')) :
    (printString m f p).result = .ok () ∧
      (printString m f p).chars = f.body s ++ List.replicate
        (f.width - BitVec.ofNat 32 (limit f.precision s.length)).toInt.toNat (chr ' ') := by
  rw [printString, if_neg hright, Logged.pure_bind]
  exact printBody h hlen f.width

/-- What the padding on the left leaves of the width. -/
def afterPadding (width : Word) : Word := if (0#32).slt width then 0#32 else width

/-- With padding on the left: `strnlen` says how much, and then the characters are counted
once more. -/
theorem printString_left (h : p.Holds m s) (hlen : s.length < 2 ^ 32)
    (hleft : (0#32).slt f.width ∧ f.padc ≠ chr '-') :
    (printString m f p).result = .ok () ∧
      (printString m f p).chars =
        List.replicate (f.width - BitVec.ofNat 32 (counted f.precision s.length)).toInt.toNat
          f.padc ++ (f.body s ++ List.replicate
            (afterPadding (f.width - BitVec.ofNat 32 (counted f.precision s.length)) -
              BitVec.ofNat 32 (limit f.precision s.length)).toInt.toNat (chr ' ')) := by
  obtain ⟨hlres, hlchars⟩ := strnlen_holds h f.precision
  obtain ⟨hres, hchars⟩ := printBody (f := f) h hlen
    (afterPadding (f.width - BitVec.ofNat 32 (counted f.precision s.length)))
  rw [printString, if_pos hleft]
  refine ⟨by rw [bind_of_ok hlres]; exact hres, ?_⟩
  rw [chars_bind hlres, hlchars, List.nil_append, chars_bind rfl, chars_pad]
  exact congrArg (_ ++ ·) hchars

theorem printString_ok (h : p.Holds m s) (hlen : s.length < 2 ^ 32) :
    (printString m f p).result = .ok () := by
  by_cases hleft : (0#32).slt f.width ∧ f.padc ≠ chr '-'
  · exact (printString_left h hlen hleft).1
  · exact (printString_right h hlen hleft).1

/-! ### The width as an `int` -/

theorem ofInt_sub_ofNat (z : ℤ) (k : ℕ) :
    BitVec.ofInt 32 z - BitVec.ofNat 32 k = BitVec.ofInt 32 (z - k) := by
  rw [← BitVec.ofInt_natCast, BitVec.sub_eq_add_neg, ← BitVec.ofInt_neg, ← BitVec.ofInt_add,
    ← Int.sub_eq_add_neg]

theorem slt_ofInt (z : ℤ) : (0#32).slt (BitVec.ofInt 32 z) ↔ 0 < z.bmod (2 ^ 32) := by
  rw [BitVec.slt_iff_toInt_lt, BitVec.toInt_ofInt]
  rfl

/-- What is counted once is right up to `2 ^ 31` characters more than the width. -/
theorem bmod_toNat_iff {w k : ℤ} (hw : 0 ≤ w) (hw' : w ≤ 1000) (hk : 0 ≤ k) (hk' : k < 2 ^ 32) :
    ((w - k).bmod (2 ^ 32)).toNat = (w - k).toNat ↔ k ≤ 2 ^ 31 + w := by
  by_cases hle : k ≤ 2 ^ 31 + w
  · have hmod : (w - k).bmod (2 ^ 32) = w - k := Int.bmod_eq_of_le (by omega) (by omega)
    rw [hmod]
    exact iff_of_true rfl hle
  · have hmod : (w - k).bmod (2 ^ 32) = w - k + 2 ^ 32 := by
      rw [← Int.add_bmod_right]
      exact Int.bmod_eq_of_le (by omega) (by omega)
    rw [hmod]
    omega

/-- The output is as the width and the precision say, when the string is padded on the
right. -/
theorem printString_right_iff (h : p.Holds m s) (hlen : s.length < 2 ^ 32) {w : ℤ} (hw : w ≤ 1000)
    (hwidth : f.width = BitVec.ofInt 32 (max w 0)) (hright : w ≤ 0 ∨ f.padc = chr '-') :
    (printString m f p).chars =
        f.body s ++ List.replicate (w - limit f.precision s.length).toNat (chr ' ') ↔
      (limit f.precision s.length : ℤ) ≤ 2 ^ 31 + max w 0 := by
  have hk := limit_le f.precision s.length
  -- nothing is padded on the left
  have hnot : ¬((0#32).slt f.width ∧ f.padc ≠ chr '-') := by
    rintro ⟨hpos, hpadc⟩
    obtain hle | heq := hright
    · rw [hwidth, slt_ofInt, max_eq_right hle] at hpos
      exact absurd hpos (by decide)
    · exact hpadc heq
  obtain ⟨-, hchars⟩ := printString_right h hlen hnot
  rw [hchars, hwidth, ofInt_sub_ofNat, BitVec.toInt_ofInt, List.append_cancel_left_eq,
    ← bmod_toNat_iff (le_max_right w 0) (by omega) (Int.natCast_nonneg _) (by omega)]
  rw [List.replicate_inj]
  constructor
  · rintro ⟨h, -⟩
    omega
  · intro h
    exact ⟨by omega, .inr rfl⟩

/-- `strnlen` and the loop agree on a string that is shorter than the width. -/
theorem limit_eq_of_lt {precision : Word} {n : ℕ} (h : limit precision n < 2 ^ 31) :
    counted precision n = limit precision n := by
  rw [counted]
  rw [limit] at h ⊢
  split at h
  · next hneg =>
    -- a negative precision is a large size
    rw [if_pos hneg, min_eq_left]
    rw [BitVec.slt_iff_toInt_lt, BitVec.toInt_eq_toNat_cond, BitVec.toInt_zero] at hneg
    split at hneg <;> omega
  · next hneg => rw [if_neg hneg]

/-- Characters around a string that should not be there. -/
theorem replicate_append_eq_self (a b : ℕ) (c d : Byte) (l : List Byte) :
    List.replicate a c ++ (l ++ List.replicate b d) = l ↔ a = 0 ∧ b = 0 := by
  constructor
  · intro h
    have hlen := congrArg List.length h
    rw [List.length_append, List.length_append, List.length_replicate,
      List.length_replicate] at hlen
    omega
  · rintro ⟨rfl, rfl⟩
    rw [List.replicate_zero, List.replicate_zero, List.nil_append, List.append_nil]

/-- And when it is padded on the left. -/
theorem printString_left_iff (h : p.Holds m s) (hlen : s.length < 2 ^ 32) {w : ℤ} (hpos : 0 < w)
    (hw : w ≤ 1000) (hwidth : f.width = BitVec.ofInt 32 w) (hpadc : f.padc ≠ chr '-') :
    (printString m f p).chars =
        List.replicate (w - limit f.precision s.length).toNat f.padc ++ f.body s ↔
      (limit f.precision s.length : ℤ) < w ∨
        (w - counted f.precision s.length).bmod (2 ^ 32) ≤ 0 ∧
          (w - counted f.precision s.length - limit f.precision s.length).bmod (2 ^ 32) ≤ 0 := by
  have hleft : (0#32).slt f.width ∧ f.padc ≠ chr '-' := by
    refine ⟨?_, hpadc⟩
    rw [hwidth, slt_ofInt, Int.bmod_eq_of_le (by omega) (by omega)]
    exact hpos
  obtain ⟨-, hchars⟩ := printString_left h hlen hleft
  rw [hchars, hwidth, ofInt_sub_ofNat, BitVec.toInt_ofInt]
  by_cases hlt : (limit f.precision s.length : ℤ) < w
  · -- what is padded is what remains
    refine iff_of_true ?_ (.inl hlt)
    rw [limit_eq_of_lt (by omega)]
    have hrest : (w - (limit f.precision s.length : ℤ)).bmod (2 ^ 32) =
        w - limit f.precision s.length := Int.bmod_eq_of_le (by omega) (by omega)
    have hback : ((0 : ℤ) - (limit f.precision s.length : ℤ)).bmod (2 ^ 32) =
        0 - limit f.precision s.length := Int.bmod_eq_of_le (by omega) (by omega)
    have hafter : afterPadding (BitVec.ofInt 32 (w - limit f.precision s.length)) =
        BitVec.ofInt 32 0 := by
      rw [afterPadding, if_pos ((slt_ofInt _).mpr (by omega))]
      rfl
    rw [hafter, ofInt_sub_ofNat, BitVec.toInt_ofInt, hrest, hback,
      show ((0 : ℤ) - (limit f.precision s.length : ℤ)).toNat = 0 by omega, List.replicate_zero,
      List.append_nil]
  · have hnone : (w - (limit f.precision s.length : ℤ)).toNat = 0 := by omega
    rw [hnone, List.replicate_zero, List.nil_append, replicate_append_eq_self, or_iff_right hlt,
      Int.toNat_eq_zero]
    refine and_congr_right fun hle => ?_
    have hafter : afterPadding (BitVec.ofInt 32 (w - counted f.precision s.length)) =
        BitVec.ofInt 32 (w - counted f.precision s.length) :=
      if_neg (mt (slt_ofInt _).mp (not_lt.mpr hle))
    rw [hafter, ofInt_sub_ofNat, BitVec.toInt_ofInt, Int.toNat_eq_zero]

/-! ### The directive -/

/-- A flag of `%s`. -/
def IsFlag (b : Byte) : Prop := b = chr '-' ∨ b = chr '0' ∨ b = chr '#'

/-- What a flag does. -/
def FmtSpec.flag (f : FmtSpec) (b : Byte) : FmtSpec :=
  if b = chr '-' then { f with padc := chr '-' }
  else if b = chr '0' then { f with padc := chr '0' }
  else { f with altflag := true }

/-- `"%*.*s"` with flags. -/
def stringFormat (flags : List Byte) : List Byte := chr '%' :: (flags ++ text "*.*s")

variable {fmt flags : List Byte} {args : ℕ → Word}

theorem parses_flags (hflags : ∀ b ∈ flags, IsFlag b) {rest : List Byte} {i ap : ℕ}
    (h : fmt.drop i = flags ++ rest) :
    Parses m fmt args flags.length ⟨.escape f, i, ap⟩
      ⟨.escape (flags.foldl FmtSpec.flag f), i + flags.length, ap⟩ := by
  induction flags generalizing f i with
  | nil => exact Parses.refl _
  | cons b flags ih =>
    have hch : fmt.getD i 0#8 = b := getD_of_drop (l := []) h
    have hdrop : fmt.drop (i + 1) = flags ++ rest := by
      rw [← List.drop_drop, h]
      rfl
    have hfirst : Parses m fmt args 1 ⟨.escape f, i, ap⟩ ⟨.escape (f.flag b), i + 1, ap⟩ := by
      refine Parses.flag hch ?_
      obtain rfl | rfl | rfl := hflags b List.mem_cons_self
      all_goals rfl
    have hrest := ih (fun b hb => hflags b (List.mem_cons_of_mem _ hb)) hdrop (f := f.flag b)
    rw [List.length_cons, List.foldl_cons, Nat.add_comm flags.length 1, ← Nat.add_assoc]
    exact hfirst.trans hrest

/-- Flags leave the width alone. -/
theorem foldl_flag_width (flags : List Byte) (f : FmtSpec) :
    (flags.foldl FmtSpec.flag f).width = f.width := by
  induction flags generalizing f with
  | nil => rfl
  | cons b flags ih =>
    rw [List.foldl_cons, ih, FmtSpec.flag]
    split
    · rfl
    split
    · rfl
    · rfl

/-- One padding flag at most: it decides. -/
theorem foldl_flag_padc (hone : ¬(chr '-' ∈ flags ∧ chr '0' ∈ flags)) (f : FmtSpec) :
    (flags.foldl FmtSpec.flag f).padc =
      if chr '-' ∈ flags then chr '-' else if chr '0' ∈ flags then chr '0' else f.padc := by
  induction flags generalizing f with
  | nil => rfl
  | cons b flags ih =>
    have hone' : ¬(chr '-' ∈ flags ∧ chr '0' ∈ flags) := fun h =>
      hone ⟨List.mem_cons_of_mem _ h.1, List.mem_cons_of_mem _ h.2⟩
    rw [List.foldl_cons, ih hone', FmtSpec.flag]
    -- a later flag of the same kind changes nothing, one of the other kind is excluded
    by_cases hminus : b = chr '-'
    · subst hminus
      have hzero : chr '0' ∉ flags := fun h => hone ⟨List.mem_cons_self, List.mem_cons_of_mem _ h⟩
      rw [if_pos rfl, if_neg hzero, if_pos List.mem_cons_self]
      exact ite_self _
    by_cases hzero : b = chr '0'
    · subst hzero
      have hminus' : chr '-' ∉ flags := fun h => hone ⟨List.mem_cons_of_mem _ h, List.mem_cons_self⟩
      have hminus'' : chr '-' ∉ chr '0' :: flags := fun h =>
        (List.mem_cons.mp h).elim (by decide) hminus'
      rw [if_neg hminus, if_pos rfl, if_neg hminus', if_neg hminus'', if_pos List.mem_cons_self]
      exact ite_self _
    · have hmem : ∀ c, b ≠ c → (c ∈ b :: flags ↔ c ∈ flags) := fun c hc =>
        ⟨fun h => (List.mem_cons.mp h).resolve_left (Ne.symm hc), List.mem_cons_of_mem _⟩
      rw [if_neg hminus, if_neg hzero]
      simp only [hmem _ hminus, hmem _ hzero]

theorem foldl_flag_altflag (hflags : ∀ b ∈ flags, IsFlag b) (f : FmtSpec) :
    (flags.foldl FmtSpec.flag f).altflag ↔ f.altflag ∨ chr '#' ∈ flags := by
  induction flags generalizing f with
  | nil => simp
  | cons b flags ih =>
    rw [List.foldl_cons, ih fun b hb => hflags b (List.mem_cons_of_mem _ hb), List.mem_cons]
    obtain rfl | rfl | rfl := hflags b List.mem_cons_self
    · have hne : ¬chr '#' = chr '-' := by decide
      rw [or_iff_right hne]
      rfl
    · have hne : ¬chr '#' = chr '0' := by decide
      rw [or_iff_right hne]
      rfl
    · exact iff_of_true (.inl rfl) (.inr (.inl rfl))

/-- What the formatter knows at the `s`. -/
def stringSpec (flags : List Byte) (width precision : Word) : FmtSpec :=
  { flags.foldl FmtSpec.flag {} with
    width := if width.slt 0#32 then 0#32 else width
    precision := precision }

/-- The string that is printed for an argument. -/
def stringArg (a : Word) : CString := if a = 0#32 then .const (text "(null)") else .arg a

theorem stringFormat_getD (flags : List Byte) (i : ℕ) :
    (stringFormat flags).getD (1 + flags.length + i) 0#8 = (text "*.*s").getD i 0#8 := by
  have hdrop : (stringFormat flags).drop (1 + flags.length) = text "*.*s" := by
    rw [stringFormat, Nat.add_comm, List.drop_succ_cons, List.drop_left]
  rw [List.getD_eq_getElem?_getD, ← List.getElem?_drop, hdrop, ← List.getD_eq_getElem?_getD]

theorem vprintfmt_string (m : Memory) (args : ℕ → Word) (hflags : ∀ b ∈ flags, IsFlag b) :
    (vprintfmt m (stringFormat flags) args).output =
      (printString m (stringSpec flags (args 0) (args 1)) (stringArg (args 2))).output := by
  have hchar := stringFormat_getD flags
  have hdrop : (stringFormat flags).drop 1 = flags ++ text "*.*s" := rfl
  have hparses : Parses m (stringFormat flags) args flags.length ⟨.escape {}, 1, 0⟩
      ⟨.escape (flags.foldl FmtSpec.flag {}), 1 + flags.length, 0⟩ := parses_flags hflags hdrop
  -- the first `*` is the width, which the `.` makes 0 if it is negative
  have hwidth : Parses m (stringFormat flags) args 1
      ⟨.escape (flags.foldl FmtSpec.flag {}), 1 + flags.length, 0⟩
      ⟨.escape { flags.foldl FmtSpec.flag {} with width := args 0, precision := -1#32 },
        1 + flags.length + 1, 1⟩ := by
    refine Parses.flag (hchar 0) ?_
    change pure (⟨.escape ({ flags.foldl FmtSpec.flag {} with
      precision := args 0 } : FmtSpec).processPrecision, _, _⟩ : FmtConfig) = _
    rw [FmtSpec.processPrecision, if_pos (by rw [foldl_flag_width]; decide)]
  have hdot : Parses m (stringFormat flags) args 1
      ⟨.escape { flags.foldl FmtSpec.flag {} with width := args 0, precision := -1#32 },
        1 + flags.length + 1, 1⟩
      ⟨.escape (stringSpec flags (args 0) (-1#32)), 1 + flags.length + 2, 1⟩ := by
    refine Parses.flag (hchar 1) ?_
    change pure (⟨.escape (if (args 0).slt 0#32 then _ else _), _, _⟩ : FmtConfig) = _
    rw [stringSpec]
    split
    · rfl
    · rfl
  -- the second one is the precision
  have hprecision : Parses m (stringFormat flags) args 1
      ⟨.escape (stringSpec flags (args 0) (-1#32)), 1 + flags.length + 2, 1⟩
      ⟨.escape (stringSpec flags (args 0) (args 1)), 1 + flags.length + 3, 2⟩ := by
    refine Parses.flag (hchar 2) ?_
    change pure (⟨.escape (stringSpec flags (args 0) (args 1)).processPrecision, _, _⟩ :
      FmtConfig) = _
    have hpos : ¬(stringSpec flags (args 0) (args 1)).width.slt 0#32 := by
      rw [stringSpec]
      dsimp only
      split
      · decide
      · assumption
    rw [FmtSpec.processPrecision, if_neg hpos]
  have hstep : escapeStep m (stringFormat flags) args (stringSpec flags (args 0) (args 1))
      ((stringFormat flags).getD (1 + flags.length + 3) 0#8) (1 + flags.length + 3) 2 =
      printString m (stringSpec flags (args 0) (args 1)) (stringArg (args 2)) >>=
        fun _ => pure ⟨.text, 1 + flags.length + 3 + 1, 3⟩ := by
    rw [hchar 3]
    rfl
  refine vprintfmt_directive rfl (((hparses.trans hwidth).trans hdot).trans hprecision) ?_ hstep
    (hchar 4)
  rw [stringFormat, List.length_cons, List.length_append]
  omega

/-! ### What is asked of it -/

/-- A NUL-terminated string in memory. -/
structure StringAt (m : Memory) (a : Word) (s : List Byte) : Prop where
  char : ∀ i b, s[i]? = some b → m (a + BitVec.ofNat 32 i) = some b
  nonzero : ∀ b ∈ s, b ≠ 0#8
  nul : m (a + BitVec.ofNat 32 s.length) = some 0#8

/-- The argument `a` of `%s` stands for the string `s`. -/
def StandsFor (m : Memory) (a : Word) (s : List Byte) : Prop :=
  a = 0#32 ∧ s = text "(null)" ∨ a ≠ 0#32 ∧ StringAt m a s

/-- Addresses repeat after `2 ^ 32` characters, and the NUL is among them. -/
theorem StringAt.length_lt {a : Word} (h : StringAt m a s) : s.length < 2 ^ 32 := by
  by_contra hle
  obtain ⟨b, hb⟩ : ∃ b, s[s.length - 2 ^ 32]? = some b :=
    ⟨_, List.getElem?_eq_getElem (by omega)⟩
  have hwrap : BitVec.ofNat 32 (s.length - 2 ^ 32) = BitVec.ofNat 32 s.length := by
    apply BitVec.eq_of_toNat_eq
    rw [BitVec.toNat_ofNat, BitVec.toNat_ofNat]
    omega
  have hread := h.char _ _ hb
  rw [hwrap, h.nul] at hread
  exact h.nonzero b (List.mem_of_getElem? hb) (Option.some.inj hread).symm

theorem StandsFor.holds {a : Word} (h : StandsFor m a s) :
    (stringArg a).Holds m s ∧ s.length < 2 ^ 32 := by
  obtain ⟨rfl, rfl⟩ | ⟨hne, hs⟩ := h
  · refine ⟨⟨fun i b hb => ?_, by decide, rfl⟩, by decide⟩
    rw [stringArg, if_pos rfl, CString.read, List.getD_eq_getElem?_getD, hb]
    rfl
  · refine ⟨⟨fun i b hb => ?_, hs.nonzero, ?_⟩, hs.length_lt⟩
    · rw [stringArg, if_neg hne, CString.read, hs.char i b hb]
    · rw [stringArg, if_neg hne, CString.read, hs.nul]

/-- A character as it should appear. -/
def shownChar (flags : List Byte) (b : Byte) : Byte :=
  if chr '#' ∈ flags ∧ ¬(chr ' ' ≤ b ∧ b ≤ chr '~') then chr '?' else b

/-- What the directive should print: the characters the precision lets through, and blanks or
zeros up to the width. -/
def stringText (flags : List Byte) (w : ℤ) (precision : Word) (s : List Byte) : List Byte :=
  let k := limit precision s.length
  let body := (s.take k).map (shownChar flags)
  if chr '-' ∈ flags then body ++ List.replicate (w - k).toNat (chr ' ')
  else List.replicate (w - k).toNat (if chr '0' ∈ flags then chr '0' else chr ' ') ++ body

/-- A character outside `' '` to `'~'` is negative, below the blank or above the tilde. -/
theorem shown_iff (b : Byte) :
    ((b.signExtend 32).slt 0x20#32 ∨ (0x7E#32).slt (b.signExtend 32)) ↔
      ¬(chr ' ' ≤ b ∧ b ≤ chr '~') := by
  have hb := b.isLt
  have hint := BitVec.toInt_eq_toNat_cond b
  have hlow : (0x20#32).toInt = 32 := rfl
  have hhigh : (0x7E#32).toInt = 126 := rfl
  have hblank : (chr ' ').toNat = 32 := rfl
  have htilde : (chr '~').toNat = 126 := rfl
  rw [BitVec.slt_iff_toInt_lt, BitVec.slt_iff_toInt_lt, BitVec.toInt_signExtend_of_le (by decide),
    BitVec.le_def, BitVec.le_def, hlow, hhigh, hblank, htilde]
  split at hint <;> omega

theorem stringSpec_body (hflags : ∀ b ∈ flags, IsFlag b) (width precision : Word)
    (s : List Byte) : (stringSpec flags width precision).body s =
      (s.take (limit precision s.length)).map (shownChar flags) := by
  have halt : (stringSpec flags width precision).altflag ↔ chr '#' ∈ flags := by
    rw [stringSpec, foldl_flag_altflag hflags]
    exact or_iff_right (by decide)
  refine List.map_congr_left fun b _ => ?_
  rw [FmtSpec.shown, shownChar]
  by_cases hshown : chr '#' ∈ flags ∧ ¬(chr ' ' ≤ b ∧ b ≤ chr '~')
  · rw [if_pos hshown, if_pos ⟨halt.mpr hshown.1, (shown_iff b).mpr hshown.2⟩]
    rfl
  · rw [if_neg hshown, if_neg fun h => hshown ⟨halt.mp h.1, (shown_iff b).mp h.2⟩]
    exact setWidth_signExtend b

/-- The counting does not go wrong. On the right the characters are subtracted once from the
width, or from 0. On the left those that `strnlen` counts are subtracted and then those that
are printed; neither result may be positive as an `int` when the string fills the width. -/
def WidthFits (flags : List Byte) (w : ℤ) (precision : Word) (n : ℕ) : Prop :=
  if chr '-' ∈ flags ∨ w ≤ 0 then (limit precision n : ℤ) ≤ 2 ^ 31 + max w 0
  else (limit precision n : ℤ) < w ∨
    (w - counted precision n).bmod (2 ^ 32) ≤ 0 ∧
      (w - counted precision n - limit precision n).bmod (2 ^ 32) ≤ 0

/-- The directive prints what it should. -/
def PrintsString (m : Memory) (flags : List Byte) (args : ℕ → Word) (s : List Byte) : Prop :=
  (vprintfmt m (stringFormat flags) args).result = .ok () ∧
    (vprintfmt m (stringFormat flags) args).chars =
      stringText flags (args 0).toInt (args 1) s

/-- The directive prints what it should exactly if the counting does not go wrong. -/
theorem vprintfmt_string_iff {s : List Byte} (hflags : ∀ b ∈ flags, IsFlag b)
    (hone : ¬(chr '-' ∈ flags ∧ chr '0' ∈ flags)) (hw : (args 0).toInt ≤ 1000)
    (hs : StandsFor m (args 2) s) :
    PrintsString m flags args s ↔ WidthFits flags (args 0).toInt (args 1) s.length := by
  obtain ⟨hholds, hlen⟩ := hs.holds
  have hout := vprintfmt_string m args hflags
  have hpadc := foldl_flag_padc hone {}
  have hbody := stringSpec_body hflags (args 0) (args 1) s
  have hwidth : (stringSpec flags (args 0) (args 1)).width =
      BitVec.ofInt 32 (max (args 0).toInt 0) := by
    rw [stringSpec]
    dsimp only
    split
    · next hneg =>
      rw [BitVec.slt_iff_toInt_lt, BitVec.toInt_zero] at hneg
      rw [max_eq_right hneg.le]
      rfl
    · next hneg =>
      rw [BitVec.slt_iff_toInt_lt, BitVec.toInt_zero] at hneg
      rw [max_eq_left (not_lt.mp hneg), BitVec.ofInt_toInt]
  rw [PrintsString, Fmt.result_of_output hout, Fmt.chars_of_output hout,
    and_iff_right (printString_ok hholds hlen), WidthFits, stringText, ← hbody]
  by_cases hminus : chr '-' ∈ flags
  · rw [if_pos hminus, if_pos (.inl hminus)]
    rw [if_pos hminus] at hpadc
    exact printString_right_iff hholds hlen hw hwidth (.inr hpadc)
  by_cases hle : (args 0).toInt ≤ 0
  · -- nothing is to be padded
    have hnone : ((args 0).toInt - (limit (args 1) s.length : ℤ)).toNat = 0 := by omega
    have hright := printString_right_iff hholds hlen hw hwidth (.inl hle)
    have hcase : chr '-' ∈ flags ∨ (args 0).toInt ≤ 0 := .inr hle
    rw [if_neg hminus, if_pos hcase, hnone, List.replicate_zero, List.nil_append]
    rwa [show (stringSpec flags (args 0) (args 1)).precision = args 1 from rfl, hnone,
      List.replicate_zero, List.append_nil] at hright
  · have hpadc' : (stringSpec flags (args 0) (args 1)).padc =
        if chr '0' ∈ flags then chr '0' else chr ' ' := hpadc.trans (if_neg hminus)
    rw [if_neg hminus, if_neg (not_or.mpr ⟨hminus, hle⟩), ← hpadc']
    rw [max_eq_left (not_le.mp hle).le] at hwidth
    refine printString_left_iff hholds hlen (not_le.mp hle) hw hwidth ?_
    rw [hpadc']
    split <;> decide

/-- The counting is right for every string of at most a gigabyte. -/
theorem widthFits_of_le {w : ℤ} {precision : Word} {n : ℕ} (hw : w ≤ 1000) (hn : n ≤ 2 ^ 30) :
    WidthFits flags w precision n := by
  have hk := limit_le precision n
  rw [WidthFits]
  split
  · omega
  · next hnot =>
    rw [not_or, not_le] at hnot
    rw [limit_eq_of_lt (show limit precision n < 2 ^ 31 by omega)]
    by_cases hlt : (limit precision n : ℤ) < w
    · exact .inl hlt
    · right
      rw [Int.bmod_eq_of_le (by omega) (by omega), Int.bmod_eq_of_le (by omega) (by omega)]
      omega

/-- A string of `n` times the letter `a` at `0x1000`. -/
def longString (n : ℕ) : Memory := fun a =>
  some (if (a - 0x1000#32).toNat < n then chr 'a' else 0#8)

theorem longString_stringAt {n : ℕ} (hn : n < 2 ^ 32) :
    StringAt (longString n) 0x1000#32 (List.replicate n (chr 'a')) := by
  have hoff : ∀ i < 2 ^ 32, (0x1000#32 + BitVec.ofNat 32 i - 0x1000#32).toNat = i := by
    intro i hi
    rw [BitVec.add_comm, BitVec.add_sub_cancel, BitVec.toNat_ofNat, Nat.mod_eq_of_lt hi]
  refine ⟨fun i b hb => ?_, fun b hb => ?_, ?_⟩
  · rw [List.getElem?_replicate] at hb
    split at hb
    · next hi =>
      cases hb
      rw [longString, hoff i (by omega), if_pos hi]
    · cases hb
  · rw [(List.mem_replicate.mp hb).2]
    decide
  · rw [longString, List.length_replicate, hoff n hn, if_neg (lt_irrefl n)]

theorem longString_misprinted {n : ℕ} (hn : 2 ^ 30 < n) (hn' : n < 2 ^ 31) :
    ¬PrintsString (longString n) [] (fun i => [1#32, -1#32, 0x1000#32].getD i 0#32)
      (List.replicate n (chr 'a')) := by
  rintro ⟨-, hchars⟩
  have hflags : ∀ b ∈ ([] : List Byte), IsFlag b := fun b hb => by cases hb
  obtain ⟨hholds, hlen⟩ := StandsFor.holds (a := 0x1000#32) (m := longString n)
    (.inr ⟨by decide, longString_stringAt (show n < 2 ^ 32 by omega)⟩)
  have hout := vprintfmt_string (longString n) (fun i => [1#32, -1#32, 0x1000#32].getD i 0#32)
    hflags
  rw [Fmt.chars_of_output hout] at hchars
  have hbody := stringSpec_body hflags 1#32 (-1#32) (List.replicate n (chr 'a'))
  have hlimit : limit (-1#32) n = n := if_pos (by decide)
  have hcounted : counted (-1#32) n = n := by
    have hsize : (-1#32 : Word).toNat = 2 ^ 32 - 1 := rfl
    exact min_eq_left (by omega)
  have hleft : (limit (-1#32) (List.replicate n (chr 'a')).length : ℤ) < 1 ∨
      (1 - (counted (-1#32) (List.replicate n (chr 'a')).length : ℤ)).bmod (2 ^ 32) ≤ 0 ∧
        (1 - (counted (-1#32) (List.replicate n (chr 'a')).length : ℤ) -
          limit (-1#32) (List.replicate n (chr 'a')).length).bmod (2 ^ 32) ≤ 0 := by
    refine (printString_left_iff (f := stringSpec [] 1#32 (-1#32)) hholds hlen (by decide)
      (by decide) rfl (by decide)).mp (hchars.trans ?_)
    rw [hbody]
    rfl
  rw [List.length_replicate, hlimit, hcounted] at hleft
  -- the last count has wrapped around
  have hwrap : (1 - (n : ℤ) - n).bmod (2 ^ 32) = 1 - n - n + 2 ^ 32 := by
    rw [← Int.add_bmod_right]
    exact Int.bmod_eq_of_le (by omega) (by omega)
  omega

/-- `printf("%*.*s", 1, -1, s)` for a string of `2 ^ 30 + 1` characters: the width is counted
down to `1 - 2 * (2 ^ 30 + 1)`, which is positive as an `int`. -/
theorem vprintfmt_long_string :
    StandsFor (longString (2 ^ 30 + 1)) 0x1000#32 (List.replicate (2 ^ 30 + 1) (chr 'a')) ∧
      ¬PrintsString (longString (2 ^ 30 + 1)) []
        (fun i => [1#32, -1#32, 0x1000#32].getD i 0#32)
        (List.replicate (2 ^ 30 + 1) (chr 'a')) :=
  ⟨.inr ⟨by decide, longString_stringAt (by decide)⟩,
    longString_misprinted (by decide) (by decide)⟩

/-- `printf("%*.*s", 8, 3, s)` for a string of ten characters. -/
theorem vprintfmt_string_short :
    StandsFor (longString 10) 0x1000#32 (List.replicate 10 (chr 'a')) ∧
      PrintsString (longString 10) [chr '0', chr '#']
        (fun i => [8#32, 3#32, 0x1000#32].getD i 0#32) (List.replicate 10 (chr 'a')) := by
  have hs : StandsFor (longString 10) 0x1000#32 (List.replicate 10 (chr 'a')) :=
    .inr ⟨by decide, longString_stringAt (by decide)⟩
  refine ⟨hs, (vprintfmt_string_iff ?_ (by decide) (by decide) hs).mpr
    (widthFits_of_le (by decide) (by decide))⟩
  rintro b (_ | ⟨_, _ | ⟨_, h⟩⟩)
  · exact .inr (.inl rfl)
  · exact .inr (.inr rfl)
  · cases h

end Jos
