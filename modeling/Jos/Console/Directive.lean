import Jos.Console.FrontEnds
import Mathlib.Data.Nat.Digits.Defs

/-!
# One directive

What `vprintfmt` prints for a format that consists of one directive. The flags and numbers
of the directive are read without printing anything (`Parses`), so the output is that of the
conversion at its end: `vprintfmt_directive`.

A number in the format and one given through `*` take different ways through the `switch`:
the first digit decides whether there is a number at all, as `0` is a flag
(`FmtSpec.literal`).
-/

namespace Jos

open Logged

/-- The digits of `n`, as characters. -/
def numeral (base n : ℕ) : List Byte := (Nat.toDigits base n).map chr

/-- What a piece of the formatter prints, and how it ends. -/
def Fmt.output {α : Type} (x : Fmt α) : List Word × Except FmtAbort α := (putchars x.log, x.result)

variable {m : Memory} {fmt : List Byte} {args : ℕ → Word}

/-! ### Parsing -/

/-- In `k` steps the code gets from `c` to `c'` and prints nothing. -/
def Parses (m : Memory) (fmt : List Byte) (args : ℕ → Word) (k : ℕ) (c c' : FmtConfig) : Prop :=
  ∀ n, (fmtRun m fmt args (n + k) c).output = (fmtRun m fmt args n c').output

namespace Parses

variable {k j : ℕ} {c c' c'' : FmtConfig}

theorem refl (c : FmtConfig) : Parses m fmt args 0 c c := fun _ => rfl

theorem trans (h : Parses m fmt args k c c') (h' : Parses m fmt args j c' c'') :
    Parses m fmt args (k + j) c c'' := by
  intro n
  rw [show n + (k + j) = n + j + k by omega, h, h']

theorem step {l : List FmtEvent} (h : fmtStep m fmt args c = ⟨l, .ok (some c')⟩)
    (hl : putchars l = []) : Parses m fmt args 1 c c' := by
  intro n
  rw [fmtRun, h, bind_of_ok rfl]
  simp only [Fmt.output, putchars_append, hl, List.nil_append]

/-- A flag, or `*`. -/
theorem flag {f f' : FmtSpec} {ch : Byte} {i ap ap' : ℕ} (hch : fmt.getD i 0#8 = ch)
    (h : escapeStep m fmt args f ch i ap = pure ⟨.escape f', i + 1, ap'⟩) :
    Parses m fmt args 1 ⟨.escape f, i, ap⟩ ⟨.escape f', i + 1, ap'⟩ := by
  subst hch
  exact step (fmtStep_escape (l := []) h) rfl

/-- One more digit of a number. -/
theorem number_digit {f : FmtSpec} {i ap : ℕ} {x : Word}
    (h : chr '0' ≤ fmt.getD i 0#8 ∧ fmt.getD i 0#8 ≤ chr '9')
    (hx : f.precision * 10#32 + digitValue (fmt.getD i 0#8) = x) :
    Parses m fmt args 1 ⟨.number f, i, ap⟩ ⟨.number { f with precision := x }, i + 1, ap⟩ := by
  refine step (l := [.fetch i]) ?_ rfl
  subst hx
  rw [fmtStep, fetch, bind_of_ok rfl]
  dsimp only
  rw [if_pos h]
  rfl

/-- The end of a number. -/
theorem number_end {f : FmtSpec} {i ap : ℕ}
    (h : ¬(chr '0' ≤ fmt.getD i 0#8 ∧ fmt.getD i 0#8 ≤ chr '9')) :
    Parses m fmt args 1 ⟨.number f, i, ap⟩ ⟨.escape f.processPrecision, i, ap⟩ := by
  refine step (l := [.fetch i]) ?_ rfl
  rw [fmtStep, fetch, bind_of_ok rfl]
  dsimp only
  rw [if_neg h]
  rfl

end Parses

theorem getD_of_drop {l r : List Byte} {i : ℕ} {b : Byte} (h : fmt.drop i = l ++ b :: r) :
    fmt.getD (i + l.length) 0#8 = b := by
  have hget : (fmt.drop i)[l.length]? = some b := by
    rw [h, List.getElem?_append_right le_rfl, Nat.sub_self]
    rfl
  rw [List.getElem?_drop] at hget
  rw [List.getD_eq_getElem?_getD, hget, Option.getD_some]

/-! ### Numbers -/

theorem numeral_of_lt {base n : ℕ} (h : n < base) : numeral base n = [chr n.digitChar] := by
  rw [numeral, Nat.toDigits_of_lt_base h]
  rfl

theorem numeral_of_le {base n : ℕ} (hb : 1 < base) (h : base ≤ n) :
    numeral base n = numeral base (n / base) ++ [chr (n % base).digitChar] := by
  rw [numeral, Nat.toDigits_of_base_le hb h, List.map_append]
  rfl

/-- The first digit of a number that is not zero puts the code into the loop that reads a
number. -/
theorem escapeStep_digit (f : FmtSpec) (i ap : ℕ) {d : ℕ} (h0 : 0 < d) (hd : d < 10) :
    escapeStep m fmt args f (chr d.digitChar) i ap =
      pure ⟨.number { f with precision := BitVec.ofNat 32 d }, i + 1, ap⟩ := by
  obtain rfl | rfl | rfl | rfl | rfl | rfl | rfl | rfl | rfl :
    d = 1 ∨ d = 2 ∨ d = 3 ∨ d = 4 ∨ d = 5 ∨ d = 6 ∨ d = 7 ∨ d = 8 ∨ d = 9 := by omega
  all_goals rfl

theorem digit_bounds {d : ℕ} (hd : d < 10) :
    chr '0' ≤ chr d.digitChar ∧ chr d.digitChar ≤ chr '9' ∧
      digitValue (chr d.digitChar) = BitVec.ofNat 32 d := by
  obtain rfl | rfl | rfl | rfl | rfl | rfl | rfl | rfl | rfl | rfl :
    d = 0 ∨ d = 1 ∨ d = 2 ∨ d = 3 ∨ d = 4 ∨ d = 5 ∨ d = 6 ∨ d = 7 ∨ d = 8 ∨ d = 9 := by omega
  all_goals decide

/-- The digits of a number that is not zero. -/
theorem parses_digits (f : FmtSpec) {n i ap : ℕ} {rest : List Byte} (hn : 0 < n)
    (h : fmt.drop i = numeral 10 n ++ rest) :
    Parses m fmt args (numeral 10 n).length ⟨.escape f, i, ap⟩
      ⟨.number { f with precision := BitVec.ofNat 32 n }, i + (numeral 10 n).length, ap⟩ := by
  induction n using Nat.strong_induction_on generalizing rest with
  | _ n ih =>
    by_cases hlt : n < 10
    · rw [numeral_of_lt hlt] at h ⊢
      have hch : fmt.getD i 0#8 = chr n.digitChar := getD_of_drop (l := []) h
      refine Parses.step (fmtStep_escape (l := []) ?_) rfl
      rw [hch]
      exact escapeStep_digit f i ap hn hlt
    · -- the last digit comes after those of `n / 10`
      have hd := Nat.mod_lt n (show 0 < 10 by decide)
      rw [numeral_of_le (by decide) (by omega), List.append_assoc, List.singleton_append] at h
      rw [numeral_of_le (by decide) (by omega), List.length_append, List.length_singleton]
      refine (ih (n / 10) (by omega) (by omega) h).trans ?_
      obtain ⟨hlow, hup, hval⟩ := digit_bounds hd
      have hch := getD_of_drop h
      refine Parses.number_digit (by rw [hch]; exact ⟨hlow, hup⟩) ?_
      rw [hch, hval, ← BitVec.ofNat_mul, ← BitVec.ofNat_add]
      congr 1
      omega

/-- A number written in the format: `0` is the flag, any other goes through
`process_precision`. -/
def FmtSpec.literal (f : FmtSpec) (n : ℕ) : FmtSpec :=
  if n = 0 then { f with padc := chr '0' }
  else { f with precision := BitVec.ofNat 32 n }.processPrecision

/-- A number given through `*`. -/
def FmtSpec.star (f : FmtSpec) (x : Word) : FmtSpec := { f with precision := x }.processPrecision

/-- A number in the format. -/
theorem parses_literal (f : FmtSpec) (n : ℕ) {i ap : ℕ} {ch : Byte} {rest : List Byte}
    (h : fmt.drop i = numeral 10 n ++ ch :: rest) (hch : ¬(chr '0' ≤ ch ∧ ch ≤ chr '9')) :
    ∃ k ≤ (numeral 10 n).length + 1, Parses m fmt args k ⟨.escape f, i, ap⟩
      ⟨.escape (f.literal n), i + (numeral 10 n).length, ap⟩ := by
  by_cases hn : n = 0
  · subst hn
    refine ⟨1, by omega, ?_⟩
    have hzero : fmt.getD i 0#8 = chr '0' := getD_of_drop (l := []) h
    exact Parses.flag hzero rfl
  · have hnext := getD_of_drop h
    refine ⟨(numeral 10 n).length + 1, le_rfl, ?_⟩
    rw [FmtSpec.literal, if_neg hn]
    exact (parses_digits f (by omega) h).trans (Parses.number_end (by rw [hnext]; exact hch))

/-! ### The conversion -/

/-- The conversion and the end of the format. -/
theorem fmtRun_conversion {x : Fmt Unit} {f : FmtSpec} {i ap ap' : ℕ} (n : ℕ)
    (h : escapeStep m fmt args f (fmt.getD i 0#8) i ap = x >>= fun _ => pure ⟨.text, i + 1, ap'⟩)
    (hend : fmt.getD (i + 1) 0#8 = 0#8) :
    (fmtRun m fmt args (n + 2) ⟨.escape f, i, ap⟩).output = x.output := by
  cases hx : x.result with
  | error e =>
    rw [bind_of_error hx] at h
    have hstep : fmtStep m fmt args ⟨.escape f, i, ap⟩ = ⟨.fetch i :: x.log, .error e⟩ := by
      rw [fmtStep, fetch, bind_of_ok rfl]
      dsimp only
      rw [h]
      rfl
    rw [fmtRun, hstep, bind_of_error rfl, Fmt.output, Fmt.output, hx]
    rfl
  | ok u =>
    rw [bind_of_ok hx] at h
    rw [fmtRun, fmtStep_escape h, bind_of_ok rfl]
    dsimp only
    rw [fmtRun, fmtStep_nul hend, bind_of_ok rfl, Fmt.output, Fmt.output, hx]
    -- fetching a character of the format prints nothing
    have hlog : ∀ l : List FmtEvent, putchars (.fetch i :: (l ++ []) ++ ([.fetch (i + 1)] ++ [])) =
        putchars l := by
      intro l
      rw [List.append_nil, List.append_nil, putchars_append]
      exact List.append_nil _
    exact congrArg (·, _) (hlog x.log)

/-- A format that is one directive prints what its conversion prints. -/
theorem vprintfmt_directive {x : Fmt Unit} {f : FmtSpec} {k i ap ap' : ℕ}
    (hpercent : fmt.getD 0 0#8 = chr '%')
    (hparses : Parses m fmt args k ⟨.escape {}, 1, 0⟩ ⟨.escape f, i, ap⟩)
    (hk : k ≤ 4 * fmt.length)
    (h : escapeStep m fmt args f (fmt.getD i 0#8) i ap = x >>= fun _ => pure ⟨.text, i + 1, ap'⟩)
    (hend : fmt.getD (i + 1) 0#8 = 0#8) :
    (vprintfmt m fmt args).output = x.output := by
  have hstart : Parses m fmt args 1 ⟨.text, 0, 0⟩ ⟨.escape {}, 1, 0⟩ :=
    Parses.step (fmtStep_percent hpercent) rfl
  have hfuel : 4 * (fmt.length + 1) = 4 * fmt.length - k + 1 + 2 + (1 + k) := by omega
  rw [vprintfmt, hfuel, hstart.trans hparses]
  exact fmtRun_conversion _ h hend

/-! ### What a number prints -/

/-- The characters a piece of the formatter prints. -/
def Fmt.chars {α : Type} (x : Fmt α) : List Byte := (putchars x.log).map (BitVec.setWidth 8)

theorem Fmt.chars_of_output {α : Type} {x y : Fmt α} (h : x.output = y.output) :
    x.chars = y.chars := by
  have hlog := congrArg Prod.fst h
  exact congrArg (List.map (BitVec.setWidth 8)) hlog

theorem Fmt.result_of_output {α : Type} {x y : Fmt α} (h : x.output = y.output) :
    x.result = y.result := congrArg Prod.snd h

theorem digit_eq {d : ℕ} (hd : d < 16) : digit d = chr d.digitChar := by
  obtain rfl | rfl | rfl | rfl | rfl | rfl | rfl | rfl | rfl | rfl | rfl | rfl | rfl | rfl | rfl |
      rfl : d = 0 ∨ d = 1 ∨ d = 2 ∨ d = 3 ∨ d = 4 ∨ d = 5 ∨ d = 6 ∨ d = 7 ∨ d = 8 ∨ d = 9 ∨
      d = 10 ∨ d = 11 ∨ d = 12 ∨ d = 13 ∨ d = 14 ∨ d = 15 := by omega
  all_goals decide

/-- A `char` that is passed as an `int` is the same `char` again. -/
theorem setWidth_signExtend (b : Byte) : (b.signExtend 32).setWidth 8 = b := by
  apply BitVec.eq_of_getLsbD_eq
  intro i hi
  rw [BitVec.getLsbD_setWidth, BitVec.getLsbD_signExtend]
  simp [hi, show i < 32 by omega]

theorem chars_pad (padc : Byte) (width : Word) :
    (Fmt.pad padc width).chars = List.replicate width.toInt.toNat padc := by
  have hputch : ∀ k : ℕ, putchars (List.replicate k (.putch (padc.signExtend 32))) =
      List.replicate k (padc.signExtend 32) := fun k => by
    rw [putchars, List.filterMap_replicate]
    rfl
  rw [Fmt.chars, Fmt.pad]
  change List.map _ (putchars (List.replicate _ _)) = _
  rw [hputch, List.map_replicate, setWidth_signExtend]

theorem chars_bind {α β : Type} {x : Fmt α} {a : α} (hx : x.result = .ok a) (g : α → Fmt β) :
    (x >>= g).chars = x.chars ++ (g a).chars := by
  rw [bind_of_ok hx, Fmt.chars, putchars_append, List.map_append]
  rfl

/-- `printnum` prints the digits, and before them what is left of the width in padding. -/
theorem printnum_chars (num : ℕ) {base : ℕ} (hbase : 2 ≤ base) (hbase' : base ≤ 16) (width : Word)
    (padc : Byte) :
    (printnum num base width padc).result = .ok () ∧
      (printnum num base width padc).chars =
        List.replicate (width - BitVec.ofNat 32 (numeral base num).length).toInt.toNat padc ++
          numeral base num := by
  induction num using Nat.strong_induction_on generalizing width with
  | _ num ih =>
    have hd : num % base < 16 := (Nat.mod_lt _ (by omega)).trans_le hbase'
    have hlast : (Fmt.putch ((digit (num % base)).signExtend 32)).chars =
        [chr (num % base).digitChar] := by
      rw [digit_eq hd]
      exact congrArg (fun b => [b]) (setWidth_signExtend _)
    by_cases hle : base ≤ num
    · -- the digits before the last one take their part of the width
      obtain ⟨hres, hchars⟩ := ih (num / base) (Nat.div_lt_self (by omega) hbase) (width - 1#32)
      rw [printnum, dif_pos ⟨hle, hbase⟩]
      refine ⟨by rw [bind_of_ok hres]; rfl, ?_⟩
      rw [chars_bind hres, hchars, hlast, numeral_of_le hbase hle, List.append_assoc,
        List.length_append, List.length_singleton, BitVec.ofNat_add, BitVec.sub_sub,
        BitVec.add_comm]
    · rw [printnum, dif_neg (fun h => hle h.1)]
      refine ⟨rfl, ?_⟩
      rw [chars_bind rfl, chars_pad, hlast, numeral_of_lt (by omega), Nat.mod_eq_of_lt (by omega)]
      rfl

end Jos
