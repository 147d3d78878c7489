import Jos.Console.Directive
import Jos.Lib.String

/-!
# Numbers, printed and read

`%o`, `%u` and `%x` print the digits of a number, padded on the left to the width. Padding of
either kind is read over by `strtol`: blanks are gobbled and zeros add nothing. So what was
printed is read back: `strtol_printed`.

The sign of a negative number is printed before the padding and does not count for the
width. A number with a sign is too long by one character whenever there is padding:
`signed_width_iff`.
-/

namespace Jos

open Logged

variable {m : Memory} {args : ℕ → Word}

/-! ### Directives with a width -/

/-- `"%<w>c"` or `"%0<w>c"`, with `c` the letters behind the width. -/
def numberFormat (zero : Bool) (w : ℕ) (c : List Byte) : List Byte :=
  chr '%' :: ((if zero then [chr '0'] else []) ++ numeral 10 w ++ c)

/-- What the formatter knows when it is behind the width. -/
def numberSpec (zero : Bool) (w : ℕ) : FmtSpec :=
  FmtSpec.literal { padc := if zero then chr '0' else chr ' ' } w

/-- Where it is then. -/
def numberStart (zero : Bool) (w : ℕ) : ℕ :=
  1 + (if zero then [chr '0'] else []).length + (numeral 10 w).length

theorem numberFormat_drop (zero : Bool) (w : ℕ) (c : List Byte) :
    (numberFormat zero w c).drop (numberStart zero w) = c := by
  rw [numberFormat, numberStart, Nat.add_assoc, Nat.add_comm, List.drop_succ_cons,
    ← List.length_append, List.drop_left]

theorem numberFormat_getD (zero : Bool) (w : ℕ) (c : List Byte) (i : ℕ) :
    (numberFormat zero w c).getD (numberStart zero w + i) 0#8 = c.getD i 0#8 := by
  rw [List.getD_eq_getElem?_getD, ← List.getElem?_drop, numberFormat_drop,
    ← List.getD_eq_getElem?_getD]

theorem numberFormat_length (zero : Bool) (w : ℕ) (c : List Byte) :
    (numeral 10 w).length + 1 + c.length ≤ (numberFormat zero w c).length := by
  rw [numberFormat, List.length_cons, List.length_append, List.length_append]
  omega

theorem parses_number (zero : Bool) (w : ℕ) {ch : Byte} (c : List Byte)
    (hch : ¬(chr '0' ≤ ch ∧ ch ≤ chr '9')) :
    ∃ k ≤ (numeral 10 w).length + 2, Parses m (numberFormat zero w (ch :: c)) args k
      ⟨.escape {}, 1, 0⟩ ⟨.escape (numberSpec zero w), numberStart zero w, 0⟩ := by
  cases zero with
  | false =>
    have hdrop : (numberFormat false w (ch :: c)).drop 1 = numeral 10 w ++ ch :: c := rfl
    obtain ⟨k, hk, hparses⟩ := parses_literal {} w hdrop hch
    exact ⟨k, by omega, hparses⟩
  | true =>
    have hdrop : (numberFormat true w (ch :: c)).drop 2 = numeral 10 w ++ ch :: c := rfl
    obtain ⟨k, hk, hparses⟩ := parses_literal { padc := chr '0' } w hdrop hch
    exact ⟨1 + k, by omega, Parses.trans (Parses.flag rfl rfl) hparses⟩

/-- A spec that pads on the left to `w` characters. -/
def FmtSpec.Pads (f : FmtSpec) (w : ℕ) (padc : Byte) : Prop :=
  f.width = -1#32 ∧ w = 0 ∨ f.width = BitVec.ofNat 32 w ∧ w < 2 ^ 31 ∧ f.padc = padc

/-- The width that is left when `k` characters have been printed. -/
theorem FmtSpec.Pads.left {f : FmtSpec} {w k : ℕ} {padc : Byte} (h : f.Pads w padc) (hk : k ≤ 64) :
    (f.width - BitVec.ofNat 32 k).toInt.toNat = w - k := by
  have hk' : (BitVec.ofNat 32 k).toInt = k := toInt_ofNat_of_lt (by omega)
  obtain ⟨hwidth, rfl⟩ | ⟨hwidth, hw, -⟩ := h
  · have hone : f.width.toInt = -1 := by
      rw [hwidth]
      rfl
    rw [BitVec.toInt_sub, hone, hk', Int.bmod_eq_of_le]
    all_goals omega
  · have hw' : f.width.toInt = w := by
      rw [hwidth]
      exact toInt_ofNat_of_lt hw
    rw [BitVec.toInt_sub, hw', hk', Int.bmod_eq_of_le]
    all_goals omega

theorem numberSpec_pads (zero : Bool) {w : ℕ} (hw : w < 2 ^ 31) (lflag : Word) :
    ({ numberSpec zero w with lflag := lflag } : FmtSpec).Pads w
      (if zero then chr '0' else chr ' ') := by
  by_cases h0 : w = 0
  · subst h0
    exact .inl ⟨rfl, rfl⟩
  · refine .inr ⟨?_, hw, ?_⟩
    all_goals
      dsimp only
      rw [numberSpec, FmtSpec.literal, if_neg h0]
      rfl

theorem numeral_length_le {base n : ℕ} (hbase : 2 ≤ base) (hn : n < 2 ^ 64) :
    (numeral base n).length ≤ 64 := by
  rw [numeral, List.length_map]
  exact Nat.toDigits_length base n 64 (by decide)
    (hn.trans_le (Nat.pow_le_pow_left hbase 64))

/-- A number: the padding is what the digits leave of the width. -/
theorem printNumber_chars {f : FmtSpec} {w base : ℕ} {padc : Byte} (h : f.Pads w padc)
    (hbase : 2 ≤ base) (hbase' : base ≤ 16) (num : BitVec 64) :
    (printNumber f num base).result = .ok () ∧
      (printNumber f num base).chars =
        List.replicate (w - (numeral base num.toNat).length) padc ++ numeral base num.toNat := by
  obtain ⟨hres, hchars⟩ := printnum_chars num.toNat hbase hbase' f.width f.padc
  refine ⟨hres, hchars.trans ?_⟩
  rw [h.left (numeral_length_le hbase num.isLt)]
  obtain ⟨-, rfl⟩ | ⟨-, -, rfl⟩ := h
  · -- without a width the padding character does not matter
    rw [Nat.zero_sub]
    rfl
  · rfl

/-! ### Unsigned numbers -/

/-- The conversions of unsigned numbers. -/
inductive Unsigned where
  | o | u | x
deriving DecidableEq, Repr

namespace Unsigned

/-- The letter of the conversion. -/
def char : Unsigned → Byte
  | .o => chr 'o'
  | .u => chr 'u'
  | .x => chr 'x'

/-- Its base. -/
def base : Unsigned → ℕ
  | .o => 8
  | .u => 10
  | .x => 16

theorem base_bounds (c : Unsigned) : 2 ≤ c.base ∧ c.base ≤ 16 := by
  cases c <;> decide

end Unsigned

/-- `%<w>c` and `%0<w>c`. -/
theorem vprintfmt_unsigned (m : Memory) (args : ℕ → Word) (c : Unsigned) (zero : Bool)
    {w : ℕ} (hw : w < 2 ^ 31) :
    (vprintfmt m (numberFormat zero w [c.char]) args).result = .ok () ∧
      (vprintfmt m (numberFormat zero w [c.char]) args).chars =
        List.replicate (w - (numeral c.base (args 0).toNat).length)
            (if zero then chr '0' else chr ' ') ++
          numeral c.base (args 0).toNat := by
  have hch : ¬(chr '0' ≤ c.char ∧ c.char ≤ chr '9') := by
    cases c <;> decide
  obtain ⟨k, hk, hparses⟩ := parses_number zero w [] hch
  -- the three conversions differ in the base only
  have hstep : escapeStep m (numberFormat zero w [c.char]) args (numberSpec zero w)
      ((numberFormat zero w [c.char]).getD (numberStart zero w) 0#8) (numberStart zero w) 0 =
      printNumber (numberSpec zero w) (getuint args 0 (numberSpec zero w).lflag).1 c.base >>=
        fun _ => pure ⟨.text, numberStart zero w + 1,
          (getuint args 0 (numberSpec zero w).lflag).2⟩ := by
    rw [← Nat.add_zero (numberStart zero w), numberFormat_getD]
    cases c <;> rfl
  have hlen := numberFormat_length zero w [c.char]
  have hend : (numberFormat zero w [c.char]).getD (numberStart zero w + 1) 0#8 = 0#8 :=
    numberFormat_getD zero w [c.char] 1
  have hout := vprintfmt_directive rfl hparses (by rw [List.length_singleton] at hlen; omega) hstep
    hend
  have hlflag : (numberSpec zero w).lflag = 0#32 := by
    rw [numberSpec, FmtSpec.literal]
    split <;> rfl
  obtain ⟨hb, hb'⟩ := c.base_bounds
  obtain ⟨hres, hchars⟩ := printNumber_chars (numberSpec_pads zero hw (numberSpec zero w).lflag)
    hb hb' ((args 0).setWidth 64)
  rw [hlflag] at hout
  refine ⟨(Fmt.result_of_output hout).trans hres,
    (Fmt.chars_of_output hout).trans (hchars.trans ?_)⟩
  rw [BitVec.toNat_setWidth_of_le (by decide)]

/-! ### Reading a number back -/

theorem strtolDigit_digit {d : ℕ} (hd : d < 16) :
    strtolDigit (chr d.digitChar) = some (BitVec.ofNat 32 d) := by
  obtain rfl | rfl | rfl | rfl | rfl | rfl | rfl | rfl | rfl | rfl | rfl | rfl | rfl | rfl | rfl |
      rfl : d = 0 ∨ d = 1 ∨ d = 2 ∨ d = 3 ∨ d = 4 ∨ d = 5 ∨ d = 6 ∨ d = 7 ∨ d = 8 ∨ d = 9 ∨
      d = 10 ∨ d = 11 ∨ d = 12 ∨ d = 13 ∨ d = 14 ∨ d = 15 := by omega
  all_goals decide

section Base

variable {base : ℕ}

/-- A digit of the base goes into the value. -/
theorem strtolDigits_cons {d : ℕ} (hbase : base ≤ 16) (hd : d < base) (s : List Byte) (val : Word) :
    strtolDigits (BitVec.ofNat 32 base) (chr d.digitChar :: s) val =
      strtolDigits (BitVec.ofNat 32 base) s (val * BitVec.ofNat 32 base + BitVec.ofNat 32 d) := by
  have hlt : ¬(BitVec.ofNat 32 base).sle (BitVec.ofNat 32 d) := by
    rw [BitVec.sle_iff_toInt_le, toInt_ofNat_of_lt (by omega), toInt_ofNat_of_lt (by omega)]
    omega
  rw [strtolDigits, strtolDigit_digit (by omega)]
  exact if_neg hlt

/-- Zeros in front do not change it. -/
theorem strtolDigits_zeros (hbase : 0 < base) (hbase' : base ≤ 16) (k : ℕ) (s : List Byte) :
    strtolDigits (BitVec.ofNat 32 base) (List.replicate k (chr '0') ++ s) 0#32 =
      strtolDigits (BitVec.ofNat 32 base) s 0#32 := by
  induction k with
  | zero => rfl
  | succ k ih =>
    have hcons := strtolDigits_cons hbase' hbase (List.replicate k (chr '0') ++ s) 0#32
    rw [List.replicate_succ, List.cons_append]
    refine hcons.trans ?_
    rw [BitVec.zero_mul, BitVec.add_zero, ih]

/-- The digits of a number give the number. -/
theorem strtolDigits_numeral (hbase : 2 ≤ base) (hbase' : base ≤ 16) (n : ℕ) (s : List Byte) :
    strtolDigits (BitVec.ofNat 32 base) (numeral base n ++ s) 0#32 =
      strtolDigits (BitVec.ofNat 32 base) s (BitVec.ofNat 32 n) := by
  induction n using Nat.strong_induction_on generalizing s with
  | _ n ih =>
    by_cases hlt : n < base
    · rw [numeral_of_lt hlt, List.singleton_append, strtolDigits_cons hbase' hlt, BitVec.zero_mul,
        BitVec.zero_add]
    · have hd := Nat.mod_lt n (show 0 < base by omega)
      -- all digits but the last are those of `n / base`
      have hless : n / base < n := Nat.div_lt_self (by omega) hbase
      calc strtolDigits (BitVec.ofNat 32 base) (numeral base n ++ s) 0#32
          = strtolDigits (BitVec.ofNat 32 base)
              (numeral base (n / base) ++ chr (n % base).digitChar :: s) 0#32 := by
            rw [numeral_of_le hbase (by omega), List.append_assoc, List.singleton_append]
        _ = strtolDigits (BitVec.ofNat 32 base) (chr (n % base).digitChar :: s)
              (BitVec.ofNat 32 (n / base)) := ih (n / base) hless _
        _ = strtolDigits (BitVec.ofNat 32 base) s
              (BitVec.ofNat 32 (n / base) * BitVec.ofNat 32 base + BitVec.ofNat 32 (n % base)) :=
            strtolDigits_cons hbase' hd _ _
        _ = strtolDigits (BitVec.ofNat 32 base) s (BitVec.ofNat 32 n) := by
            rw [← BitVec.ofNat_mul, ← BitVec.ofNat_add, Nat.div_add_mod']

/-- A character of a number: neither a blank nor a sign, nor the `x` of a prefix. -/
def DigitChar (b : Byte) : Prop := ∃ d < 16, b = chr d.digitChar

theorem DigitChar.ne {b c : Byte} (h : DigitChar b) (hc : strtolDigit c = none ∨ c = chr 'x') :
    b ≠ c := by
  rintro rfl
  obtain ⟨d, hd, rfl⟩ := h
  obtain hc | hc := hc
  · rw [strtolDigit_digit hd] at hc
    cases hc
  · have hdig := strtolDigit_digit hd
    rw [hc] at hdig
    have hval := congrArg BitVec.toNat (Option.some.inj hdig)
    rw [BitVec.toNat_ofNat, Nat.mod_eq_of_lt (by omega)] at hval
    have h33 : 33 = d := hval
    omega

theorem digitChar_of_mem (hbase : 2 ≤ base) (hbase' : base ≤ 16) {n : ℕ} {b : Byte}
    (h : b ∈ numeral base n) : DigitChar b := by
  induction n using Nat.strong_induction_on with
  | _ n ih =>
    by_cases hlt : n < base
    · rw [numeral_of_lt hlt, List.mem_singleton] at h
      exact ⟨n, by omega, h⟩
    · have hd := Nat.mod_lt n (show 0 < base by omega)
      rw [numeral_of_le hbase (by omega), List.mem_append, List.mem_singleton] at h
      obtain h | h := h
      · exact ih (n / base) (Nat.div_lt_self (by omega) hbase) h
      · exact ⟨n % base, by omega, h⟩

end Base

theorem gobble_blanks (k : ℕ) (s : List Byte) :
    gobble (List.replicate k (chr ' ') ++ s) = gobble s := by
  induction k with
  | zero => rfl
  | succ k ih =>
    rw [List.replicate_succ, List.cons_append, gobble, if_pos (.inl rfl), ih]

section Digits

variable {s : List Byte} {base : Word}

theorem gobble_digits (h : ∀ b ∈ s, DigitChar b) : gobble s = s := by
  cases s with
  | nil => rfl
  | cons ch s =>
    have hch := h ch List.mem_cons_self
    rw [gobble, if_neg]
    rintro (hblank | htab)
    · exact hch.ne (.inl (by decide)) hblank
    · exact hch.ne (.inl (by decide)) htab

theorem strtolSign_digits (h : ∀ b ∈ s, DigitChar b) : strtolSign s = (false, s) := by
  cases s with
  | nil => rfl
  | cons ch s =>
    have hch := h ch List.mem_cons_self
    rw [strtolSign, if_neg (hch.ne (.inl (by decide))), if_neg (hch.ne (.inl (by decide)))]

/-- No digit is the `x` of a prefix. -/
theorem strtolBase_digits (hbase : base ≠ 0#32) (h : ∀ b ∈ s, DigitChar b) :
    strtolBase base s = (base, s) := by
  have hx : s.getD 1 0#8 ≠ chr 'x' := by
    rw [List.getD_eq_getElem?_getD]
    cases hget : s[1]? with
    | none => decide
    | some b => exact (h b (List.mem_of_getElem? hget)).ne (.inr rfl)
  rw [strtolBase, if_neg (fun h => hx h.2.2), if_neg (fun h => hbase h.1), if_neg hbase]

theorem strtol_digits (hbase : base ≠ 0#32) (h : ∀ b ∈ s, DigitChar b) :
    strtol s base = strtolDigits base s 0#32 := by
  rw [strtol, gobble_digits h, strtolSign_digits h]
  dsimp only
  rw [strtolBase_digits hbase h]
  rfl

theorem strtol_neg_digits (hbase : base ≠ 0#32) (h : ∀ b ∈ s, DigitChar b) :
    strtol (chr '-' :: s) base = (-(strtolDigits base s 0#32).1, (strtolDigits base s 0#32).2) := by
  have hsign : strtolSign (gobble (chr '-' :: s)) = (true, s) := rfl
  rw [strtol, hsign]
  dsimp only
  rw [strtolBase_digits hbase h]
  rfl

end Digits

theorem strtolDigits_nil (base val : Word) : strtolDigits base [] val = (val, []) := rfl

/-- A padded number is read back, whatever it is padded with. -/
theorem strtol_padded {base : ℕ} (hbase : 2 ≤ base) (hbase' : base ≤ 16) (zero : Bool) (k n : ℕ) :
    strtol (List.replicate k (if zero then chr '0' else chr ' ') ++ numeral base n)
      (BitVec.ofNat 32 base) = (BitVec.ofNat 32 n, []) := by
  have hne : BitVec.ofNat 32 base ≠ 0#32 := by
    intro h
    have := congrArg BitVec.toNat h
    rw [BitVec.toNat_ofNat, BitVec.toNat_ofNat] at this
    omega
  have hdigits : ∀ b ∈ numeral base n, DigitChar b := fun b hb =>
    digitChar_of_mem hbase hbase' hb
  have hread : strtolDigits (BitVec.ofNat 32 base) (numeral base n) 0#32 =
      (BitVec.ofNat 32 n, []) := by
    have h := strtolDigits_numeral hbase hbase' n []
    rwa [List.append_nil, strtolDigits_nil] at h
  cases zero with
  | false =>
    calc strtol (List.replicate k (chr ' ') ++ numeral base n) (BitVec.ofNat 32 base)
        = strtol (numeral base n) (BitVec.ofNat 32 base) := by
          rw [strtol, gobble_blanks, ← strtol]
      _ = strtolDigits (BitVec.ofNat 32 base) (numeral base n) 0#32 := strtol_digits hne hdigits
      _ = (BitVec.ofNat 32 n, []) := hread
  | true =>
    -- the padding is part of the number, and zeros in front do not change it
    have hall : ∀ b ∈ List.replicate k (chr '0') ++ numeral base n, DigitChar b := by
      intro b hb
      obtain hb | hb := List.mem_append.mp hb
      · exact ⟨0, by decide, (List.mem_replicate.mp hb).2⟩
      · exact hdigits b hb
    calc strtol (List.replicate k (chr '0') ++ numeral base n) (BitVec.ofNat 32 base)
        = strtolDigits (BitVec.ofNat 32 base) (List.replicate k (chr '0') ++ numeral base n)
            0#32 := strtol_digits hne hall
      _ = strtolDigits (BitVec.ofNat 32 base) (numeral base n) 0#32 :=
          strtolDigits_zeros (by omega) hbase' k _
      _ = (BitVec.ofNat 32 n, []) := hread

/-! ### Signed numbers -/

/-- `%d` prints the sign and then the digits. -/
theorem printSigned_chars {f : FmtSpec} {w : ℕ} {padc : Byte} (h : f.Pads w padc)
    (num : BitVec 64) :
    (printSigned f num).result = .ok () ∧
      (printSigned f num).chars =
        (if num.toInt < 0 then [chr '-'] else []) ++
          (List.replicate (w - (numeral 10 num.toInt.natAbs).length) padc ++
            numeral 10 num.toInt.natAbs) := by
  have hlt := num.isLt
  have hint := BitVec.toInt_eq_toNat_cond num
  rw [printSigned]
  by_cases hneg : num.toInt < 0
  · -- the negated number is the absolute value also for the smallest one
    have habs : (-num).toNat = num.toInt.natAbs := by
      rw [BitVec.toNat_neg]
      split at hint <;> omega
    obtain ⟨hres, hchars⟩ := printNumber_chars h (show 2 ≤ 10 by decide) (by decide) (-num)
    rw [habs] at hchars
    rw [if_pos (BitVec.slt_iff_toInt_lt.mpr hneg), if_pos hneg]
    refine ⟨by rw [bind_of_ok rfl]; exact hres, ?_⟩
    rw [chars_bind rfl, hchars]
    rfl
  · have habs : num.toNat = num.toInt.natAbs := by
      split at hint <;> omega
    obtain ⟨hres, hchars⟩ := printNumber_chars h (show 2 ≤ 10 by decide) (by decide) num
    rw [habs] at hchars
    rw [if_neg (mt BitVec.slt_iff_toInt_lt.mp hneg), if_neg hneg]
    exact ⟨hres, hchars⟩

/-- `%d` without a width. -/
theorem vprintfmt_signed (m : Memory) (args : ℕ → Word) :
    (vprintfmt m (text "%d") args).result = .ok () ∧
      (vprintfmt m (text "%d") args).chars =
        (if (args 0).toInt < 0 then [chr '-'] else []) ++ numeral 10 (args 0).toInt.natAbs := by
  have hpads : ({} : FmtSpec).Pads 0 (chr ' ') := .inl ⟨rfl, rfl⟩
  obtain ⟨hres, hchars⟩ := printSigned_chars hpads ((args 0).signExtend 64)
  have hout : (vprintfmt m (text "%d") args).output =
      (printSigned {} ((args 0).signExtend 64)).output :=
    vprintfmt_directive rfl (Parses.refl _) (Nat.zero_le _) rfl rfl
  rw [BitVec.toInt_signExtend_of_le (by decide)] at hchars
  refine ⟨(Fmt.result_of_output hout).trans hres, (Fmt.chars_of_output hout).trans ?_⟩
  rw [hchars, Nat.zero_sub, List.replicate_zero, List.nil_append]

/-- The sign and the digits of a number are read back, also of the smallest number. -/
theorem strtol_signed (v : Word) :
    strtol ((if v.toInt < 0 then [chr '-'] else []) ++ numeral 10 v.toInt.natAbs) 10#32 =
      (v, []) := by
  have hread : strtolDigits 10#32 (numeral 10 v.toInt.natAbs) 0#32 =
      (BitVec.ofNat 32 v.toInt.natAbs, []) := by
    have h := strtolDigits_numeral (show 2 ≤ 10 by decide) (by decide) v.toInt.natAbs []
    rwa [List.append_nil, strtolDigits_nil] at h
  have hdigits : ∀ b ∈ numeral 10 v.toInt.natAbs, DigitChar b := fun b hb =>
    digitChar_of_mem (by decide) (by decide) hb
  have hv : BitVec.ofInt 32 v.toInt = v := BitVec.ofInt_toInt
  by_cases hneg : v.toInt < 0
  · have habs : v.toInt = -(v.toInt.natAbs : ℤ) := by omega
    -- this is so for the smallest number too, which is its own negation
    have hback : -BitVec.ofNat 32 v.toInt.natAbs = v := by
      calc -BitVec.ofNat 32 v.toInt.natAbs
          = BitVec.ofInt 32 (-(v.toInt.natAbs : ℤ)) := by
            rw [BitVec.ofInt_neg, BitVec.ofInt_natCast]
        _ = v := by rw [← habs, hv]
    rw [if_pos hneg, List.singleton_append, strtol_neg_digits (by decide) hdigits, hread, hback]
  · have habs : v.toInt = (v.toInt.natAbs : ℤ) := by omega
    rw [if_neg hneg, List.nil_append, strtol_digits (by decide) hdigits, hread,
      ← BitVec.ofInt_natCast, ← habs, hv]

/-- What was printed is read back: a number with any width, padded with blanks or zeros, in
the base of its conversion, and a signed number. -/
theorem strtol_printed :
    (∀ (c : Unsigned) (zero : Bool) (w : ℕ) (m : Memory) (args : ℕ → Word), w ≤ 1000 →
      (vprintfmt m (numberFormat zero w [c.char]) args).result = .ok () ∧
      (vprintfmt m (numberFormat zero w [c.char]) args).chars.length =
        max w (numeral c.base (args 0).toNat).length ∧
      strtol (vprintfmt m (numberFormat zero w [c.char]) args).chars (BitVec.ofNat 32 c.base) =
        (args 0, [])) ∧
    ∀ (m : Memory) (args : ℕ → Word),
      (vprintfmt m (text "%d") args).result = .ok () ∧
      strtol (vprintfmt m (text "%d") args).chars 10#32 = (args 0, []) := by
  refine ⟨fun c zero w m args hw => ?_, fun m args => ?_⟩
  · obtain ⟨hres, hchars⟩ := vprintfmt_unsigned m args c zero (show w < 2 ^ 31 by omega)
    obtain ⟨hb, hb'⟩ := c.base_bounds
    rw [hchars]
    refine ⟨hres, ?_, ?_⟩
    · rw [List.length_append, List.length_replicate]
      omega
    · -- `strtol` skips blanks, and leading zeros add nothing to the value
      rw [strtol_padded hb hb', BitVec.ofNat_toNat, BitVec.setWidth_eq]
  · obtain ⟨hres, hchars⟩ := vprintfmt_signed m args
    exact ⟨hres, by rw [hchars, strtol_signed]⟩

theorem strtol_printed_hex :
    strtol (vprintfmt (fun _ => none) (numberFormat true 8 [chr 'x']) fun _ => 0xBEEF#32).chars
      16#32 = (0xBEEF#32, []) :=
  (strtol_printed.1 .x true 8 (fun _ => none) (fun _ => 0xBEEF#32) (by decide)).2.2

/-! ### The width of a signed number -/

/-- A signed number with its digits. -/
def decimal (v : ℤ) : List Byte :=
  (if v < 0 then [chr '-'] else []) ++ numeral 10 v.natAbs

/-- `%<w>lld` and `%0<w>lld`. -/
theorem vprintfmt_lld (m : Memory) (args : ℕ → Word) (zero : Bool) {w : ℕ} (hw : w < 2 ^ 31) :
    (vprintfmt m (numberFormat zero w (text "lld")) args).result = .ok () ∧
      (vprintfmt m (numberFormat zero w (text "lld")) args).chars =
        (if (args 1 ++ args 0).toInt < 0 then [chr '-'] else []) ++
          (List.replicate (w - (numeral 10 (args 1 ++ args 0).toInt.natAbs).length)
              (if zero then chr '0' else chr ' ') ++
            numeral 10 (args 1 ++ args 0).toInt.natAbs) := by
  obtain ⟨k, hk, hparses⟩ : ∃ k ≤ (numeral 10 w).length + 2,
      Parses m (numberFormat zero w (text "lld")) args k ⟨.escape {}, 1, 0⟩
        ⟨.escape (numberSpec zero w), numberStart zero w, 0⟩ :=
    parses_number zero w (text "ld") (by decide)
  have hchar : ∀ i, (numberFormat zero w (text "lld")).getD (numberStart zero w + i) 0#8 =
      (text "lld").getD i 0#8 := numberFormat_getD zero w (text "lld")
  have hlflag : (numberSpec zero w).lflag = 0#32 := by
    rw [numberSpec, FmtSpec.literal]
    split <;> rfl
  -- the two flags
  have hlong : Parses m (numberFormat zero w (text "lld")) args (k + 1 + 1) ⟨.escape {}, 1, 0⟩
      ⟨.escape { numberSpec zero w with lflag := 2#32 }, numberStart zero w + 2, 0⟩ := by
    have hfirst : Parses m (numberFormat zero w (text "lld")) args 1
        ⟨.escape (numberSpec zero w), numberStart zero w, 0⟩
        ⟨.escape { numberSpec zero w with lflag := 1#32 }, numberStart zero w + 1, 0⟩ := by
      refine Parses.flag (hchar 0) ?_
      change pure (⟨.escape { numberSpec zero w with lflag := (numberSpec zero w).lflag + 1#32 }, _,
        _⟩ : FmtConfig) = _
      rw [hlflag]
      rfl
    exact (hparses.trans hfirst).trans (Parses.flag (hchar 1) rfl)
  have hlen := numberFormat_length zero w (text "lld")
  have hstep : escapeStep m (numberFormat zero w (text "lld")) args
      { numberSpec zero w with lflag := 2#32 }
      ((numberFormat zero w (text "lld")).getD (numberStart zero w + 2) 0#8)
      (numberStart zero w + 2) 0 =
      printSigned { numberSpec zero w with lflag := 2#32 } (args 1 ++ args 0) >>=
        fun _ => pure ⟨.text, numberStart zero w + 2 + 1, 2⟩ := by
    rw [hchar 2]
    rfl
  have hout := vprintfmt_directive rfl hlong (by omega) hstep (hchar 3)
  obtain ⟨hres, hchars⟩ := printSigned_chars (numberSpec_pads zero hw 2#32) (args 1 ++ args 0)
  exact ⟨(Fmt.result_of_output hout).trans hres, (Fmt.chars_of_output hout).trans hchars⟩

/-- The width counts the sign: blanks before the sign and the digits, or zeros between them,
fill up to `w` characters. -/
def WidthCountsSign (m : Memory) (args : ℕ → Word) (w : ℕ) : Prop :=
  (vprintfmt m (numberFormat false w (text "lld")) args).result = .ok () ∧
  (vprintfmt m (numberFormat false w (text "lld")) args).chars =
    List.replicate (w - (decimal (args 1 ++ args 0).toInt).length) (chr ' ') ++
      decimal (args 1 ++ args 0).toInt ∧
  (vprintfmt m (numberFormat true w (text "lld")) args).result = .ok () ∧
  (vprintfmt m (numberFormat true w (text "lld")) args).chars =
    (if (args 1 ++ args 0).toInt < 0 then [chr '-'] else []) ++
      (List.replicate (w - (decimal (args 1 ++ args 0).toInt).length) (chr '0') ++
        numeral 10 (args 1 ++ args 0).toInt.natAbs)

/-- It does for a number that is not negative, and otherwise if there is nothing to pad. -/
theorem signed_width_iff (m : Memory) (args : ℕ → Word) {w : ℕ} (hw : w ≤ 1000) :
    WidthCountsSign m args w ↔
      0 ≤ (args 1 ++ args 0).toInt ∨ w ≤ (numeral 10 (args 1 ++ args 0).toInt.natAbs).length := by
  obtain ⟨hres, hchars⟩ := vprintfmt_lld m args false (show w < 2 ^ 31 by omega)
  obtain ⟨hres', hchars'⟩ := vprintfmt_lld m args true (show w < 2 ^ 31 by omega)
  by_cases hneg : (args 1 ++ args 0).toInt < 0
  · have hlen : (decimal (args 1 ++ args 0).toInt).length =
        (numeral 10 (args 1 ++ args 0).toInt.natAbs).length + 1 := by
      rw [decimal, if_pos hneg, List.singleton_append, List.length_cons]
    constructor
    · rintro ⟨-, hspace, -⟩
      -- with padding there is one character too many
      right
      have hcount := congrArg List.length (hchars.symm.trans hspace)
      rw [if_pos hneg] at hcount
      simp only [List.length_append, List.length_replicate, List.length_singleton, hlen] at hcount
      omega
    · rintro (hpos | hle)
      · omega
      · have hnone : w - (numeral 10 (args 1 ++ args 0).toInt.natAbs).length = 0 := by omega
        have hnone' : w - (decimal (args 1 ++ args 0).toInt).length = 0 := by omega
        refine ⟨hres, ?_, hres', ?_⟩
        · rw [hchars, hnone, hnone', decimal]
          rfl
        · rw [hchars', hnone, hnone']
          rfl
  · have hdecimal : decimal (args 1 ++ args 0).toInt =
        numeral 10 (args 1 ++ args 0).toInt.natAbs := by
      rw [decimal, if_neg hneg, List.nil_append]
    refine iff_of_true ⟨hres, ?_, hres', ?_⟩ (.inl (by omega))
    · rw [hchars, hdecimal, if_neg hneg]
      rfl
    · rw [hchars', hdecimal]
      rfl

/-- The words of -5 as a `long long`. -/
def minusFive (i : ℕ) : Word := if i = 0 then -5#32 else -1#32

/-- `%4lld` of -5 prints `-   5`. -/
theorem signed_width_minus_five :
    (vprintfmt (fun _ => none) (numberFormat false 4 (text "lld")) minusFive).chars =
        text "-   5" ∧
      ¬WidthCountsSign (fun _ => none) minusFive 4 := by
  obtain ⟨-, hchars⟩ := vprintfmt_lld (fun _ => none) minusFive false (show 4 < 2 ^ 31 by decide)
  have hfive : numeral 10 (-5 : ℤ).natAbs = text "5" := numeral_of_lt (by decide)
  have hminus : decimal (-5) = text "-5" := by
    rw [decimal, hfive]
    rfl
  have hv : (minusFive 1 ++ minusFive 0).toInt = -5 := by decide
  rw [hv, hfive] at hchars
  refine ⟨hchars, ?_⟩
  rintro ⟨-, hspace, -⟩
  rw [hchars, hv, hminus] at hspace
  exact absurd hspace (by decide)

theorem signed_width_fits :
    4 ≤ 1000 ∧ WidthCountsSign (fun _ => none) (fun i => if i = 0 then 5#32 else 0#32) 4 :=
  ⟨by decide, (signed_width_iff _ _ (by decide)).mpr (.inl (by decide))⟩

end Jos
