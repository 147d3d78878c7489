import Jos.Console.Numbers
import Jos.Console.Strings

/-!
# Numbers in the format and numbers as arguments

A width or a precision can be written into the format, or `*` can stand for it and it is an
argument. Both end at `process_precision` with the same value in `precision`, unless the
number is 0: its digit is the flag that asks for padding with zeros. Where the number is the
width that makes no difference, as there is nothing to pad. But `"%.0s"` has no precision at
all and prints the whole string: `literal_eq_star_iff`.
-/

namespace Jos

open Logged

variable {m : Memory} {f : FmtSpec} {fmt : List Byte} {args : ℕ → Word}

/-! ### Conversions -/

/-- The conversions of one word. -/
inductive Conversion where
  | d | u | o | x | s
deriving DecidableEq, Repr

namespace Conversion

/-- The letter of the conversion. -/
def char : Conversion → Byte
  | .d => chr 'd'
  | .u => chr 'u'
  | .o => chr 'o'
  | .x => chr 'x'
  | .s => chr 's'

/-- What it prints for the argument `a`. -/
def print (m : Memory) (f : FmtSpec) (a : Word) : Conversion → Fmt Unit
  | .d => printSigned f (a.signExtend 64)
  | .u => printNumber f (a.setWidth 64) 10
  | .o => printNumber f (a.setWidth 64) 8
  | .x => printNumber f (a.setWidth 64) 16
  | .s => printString m f (stringArg a)

theorem char_not_digit (c : Conversion) : ¬(chr '0' ≤ c.char ∧ c.char ≤ chr '9') := by
  cases c <;> decide

/-- The step at the letter. -/
theorem escapeStep_char (c : Conversion) (hf : f.lflag = 0#32) (i ap : ℕ) :
    escapeStep m fmt args f c.char i ap =
      c.print m f (args ap) >>= fun _ => pure ⟨.text, i + 1, ap + 1⟩ := by
  have hint : getint args ap f.lflag = ((args ap).signExtend 64, ap + 1) := by
    rw [hf]
    rfl
  have huint : getuint args ap f.lflag = ((args ap).setWidth 64, ap + 1) := by
    rw [hf]
    rfl
  -- `%o` and `%x` are `%u` in another base
  have hunsigned : ∀ base, (printNumber f (getuint args ap f.lflag).1 base >>= fun _ =>
      pure (⟨.text, i + 1, (getuint args ap f.lflag).2⟩ : FmtConfig)) =
      printNumber f ((args ap).setWidth 64) base >>= fun _ => pure ⟨.text, i + 1, ap + 1⟩ := by
    intro base
    rw [huint]
  have hsigned : (printSigned f (getint args ap f.lflag).1 >>= fun _ =>
      pure (⟨.text, i + 1, (getint args ap f.lflag).2⟩ : FmtConfig)) =
      printSigned f ((args ap).signExtend 64) >>= fun _ => pure ⟨.text, i + 1, ap + 1⟩ := by
    rw [hint]
  cases c with
  | d =>
    refine Eq.trans ?_ hsigned
    rfl
  | u =>
    refine Eq.trans ?_ (hunsigned 10)
    rfl
  | o =>
    refine Eq.trans ?_ (hunsigned 8)
    rfl
  | x =>
    refine Eq.trans ?_ (hunsigned 16)
    rfl
  | s => rfl

end Conversion

/-- `"%.<n>c"`, or `"%<n>c"`. -/
def literalFormat (dot : Bool) (n : ℕ) (c : Conversion) : List Byte :=
  chr '%' :: ((if dot then [chr '.'] else []) ++ numeral 10 n ++ [c.char])

/-- `"%.*c"`, or `"%*c"`. -/
def starFormat (dot : Bool) (c : Conversion) : List Byte :=
  chr '%' :: ((if dot then [chr '.'] else []) ++ [chr '*', c.char])

/-- What the formatter knows before the number. -/
def dotSpec (dot : Bool) : FmtSpec := if dot then { width := 0#32 } else {}

theorem literal_lflag (n : ℕ) (f : FmtSpec) : (f.literal n).lflag = f.lflag := by
  rw [FmtSpec.literal]
  split
  · rfl
  · rw [FmtSpec.processPrecision]
    split <;> rfl

theorem star_lflag (x : Word) (f : FmtSpec) : (f.star x).lflag = f.lflag := by
  rw [FmtSpec.star, FmtSpec.processPrecision]
  split <;> rfl

theorem dotSpec_lflag (dot : Bool) : (dotSpec dot).lflag = 0#32 := by
  cases dot <;> rfl

theorem vprintfmt_literal (dot : Bool) (n : ℕ) (c : Conversion) (m : Memory) (args : ℕ → Word) :
    (vprintfmt m (literalFormat dot n c) args).output =
      (c.print m ((dotSpec dot).literal n) (args 0)).output := by
  have hlflag : ((dotSpec dot).literal n).lflag = 0#32 :=
    (literal_lflag n _).trans (dotSpec_lflag dot)
  -- behind the dot, if there is one
  obtain ⟨j, hj, hdot, hdrop⟩ : ∃ j ≤ 1,
      Parses m (literalFormat dot n c) args j ⟨.escape {}, 1, 0⟩ ⟨.escape (dotSpec dot), 1 + j, 0⟩ ∧
        (literalFormat dot n c).drop (1 + j) = numeral 10 n ++ [c.char] := by
    cases dot with
    | false => exact ⟨0, by decide, Parses.refl _, rfl⟩
    | true => exact ⟨1, le_rfl, Parses.flag rfl rfl, rfl⟩
  obtain ⟨k, hk, hnumber⟩ := parses_literal (dotSpec dot) n hdrop c.char_not_digit
  have hchar := getD_of_drop hdrop
  have hend : (literalFormat dot n c).getD (1 + j + (numeral 10 n).length + 1) 0#8 = 0#8 := by
    rw [List.getD_eq_getElem?_getD, List.getElem?_eq_none, Option.getD_none]
    have hlen := congrArg List.length hdrop
    rw [List.length_drop, List.length_append, List.length_singleton] at hlen
    omega
  refine vprintfmt_directive rfl (hdot.trans hnumber) ?_ (by
    rw [hchar]
    exact c.escapeStep_char hlflag _ _) hend
  have hlen := congrArg List.length hdrop
  rw [List.length_drop, List.length_append, List.length_singleton] at hlen
  omega

theorem vprintfmt_star (dot : Bool) (c : Conversion) (m : Memory) (args : ℕ → Word) :
    (vprintfmt m (starFormat dot c) args).output =
      (c.print m ((dotSpec dot).star (args 0)) (args 1)).output := by
  have hlflag : ((dotSpec dot).star (args 0)).lflag = 0#32 :=
    (star_lflag _ _).trans (dotSpec_lflag dot)
  cases dot with
  | false =>
    have hstar : Parses m (starFormat false c) args 1 ⟨.escape {}, 1, 0⟩
        ⟨.escape ((dotSpec false).star (args 0)), 2, 1⟩ := Parses.flag rfl rfl
    exact vprintfmt_directive rfl hstar (show 1 ≤ 4 * 3 by decide) (c.escapeStep_char hlflag 2 1)
      rfl
  | true =>
    have hdot : Parses m (starFormat true c) args 1 ⟨.escape {}, 1, 0⟩
        ⟨.escape (dotSpec true), 2, 0⟩ := Parses.flag rfl rfl
    have hstar : Parses m (starFormat true c) args 1 ⟨.escape (dotSpec true), 2, 0⟩
        ⟨.escape ((dotSpec true).star (args 0)), 3, 1⟩ := Parses.flag rfl rfl
    exact vprintfmt_directive rfl (hdot.trans hstar) (show 2 ≤ 4 * 4 by decide)
      (c.escapeStep_char hlflag 3 1) rfl

/-! ### The number 0 -/

/-- A number that is not 0 is the same in the format and as an argument. -/
theorem literal_eq_star {n : ℕ} (hn : n ≠ 0) (f : FmtSpec) :
    f.literal n = f.star (BitVec.ofNat 32 n) := if_neg hn

/-- Without a width to fill, the padding does not matter to a number. -/
theorem print_number_zero {c : Conversion} (hc : c ≠ .s) (dot : Bool) (m : Memory) (a : Word) :
    (c.print m ((dotSpec dot).literal 0) a).chars =
      (c.print m ((dotSpec dot).star 0#32) a).chars := by
  -- both ways leave a width that asks for no padding: `-1` or 0
  have hpads : ∀ f : FmtSpec, f.width = -1#32 ∨ f.width = 0#32 → f.Pads 0 f.padc := by
    rintro f (h | h)
    · exact .inl ⟨h, rfl⟩
    · exact .inr ⟨h, by decide, rfl⟩
  have hleft : ((dotSpec dot).literal 0).Pads 0 ((dotSpec dot).literal 0).padc :=
    hpads _ (by cases dot <;> decide)
  have hright : ((dotSpec dot).star 0#32).Pads 0 ((dotSpec dot).star 0#32).padc :=
    hpads _ (by cases dot <;> decide)
  have hnumber : ∀ {base : ℕ}, 2 ≤ base → base ≤ 16 → ∀ num : BitVec 64,
      (printNumber ((dotSpec dot).literal 0) num base).chars =
        (printNumber ((dotSpec dot).star 0#32) num base).chars := by
    intro base hbase hbase' num
    rw [(printNumber_chars hleft hbase hbase' num).2, (printNumber_chars hright hbase hbase' num).2,
      Nat.zero_sub]
    rfl
  cases c with
  | d =>
    change (printSigned _ _).chars = (printSigned _ _).chars
    rw [(printSigned_chars hleft _).2, (printSigned_chars hright _).2, Nat.zero_sub]
    rfl
  | u => exact hnumber (by decide) (by decide) _
  | o => exact hnumber (by decide) (by decide) _
  | x => exact hnumber (by decide) (by decide) _
  | s => exact absurd rfl hc

section Empty

variable {p : CString}

theorem printString_no_width (hw : f.width = -1#32 ∨ f.width = 0#32) :
    printString m f p = printStringLoop m f p (2 ^ 32) f.precision 0 >>= fun n =>
      Fmt.pad (chr ' ') (f.width - BitVec.ofNat 32 n) := by
  have hnot : ¬((0#32).slt f.width ∧ f.padc ≠ chr '-') := by
    rintro ⟨hpos, -⟩
    obtain hw | hw := hw
    · rw [hw] at hpos
      exact absurd hpos (by decide)
    · rw [hw] at hpos
      exact absurd hpos (by decide)
  rw [printString, if_neg hnot, Logged.pure_bind]

/-- `%s` without a width prints nothing if the first character ends it. -/
theorem printString_nothing (hw : f.width = -1#32 ∨ f.width = 0#32)
    (h : ∀ b, (p.read m 0).result = .ok b → b = 0#8 ∨ f.precision = 0#32) :
    (printString m f p).chars = [] := by
  obtain ⟨fuel, hfuel⟩ : ∃ fuel, 2 ^ 32 = fuel + 1 := ⟨2 ^ 32 - 1, by omega⟩
  rw [printString_no_width hw, hfuel]
  cases hread : (p.read m 0).result with
  | error e =>
    -- the first read faults, and nothing was printed before
    have hloop : printStringLoop m f p (fuel + 1) f.precision 0 = ⟨(p.read m 0).log, .error e⟩ := by
      rw [printStringLoop, bind_of_error hread]
    rw [hloop, bind_of_error rfl]
    exact chars_of_read 0
  | ok b =>
    have hloop : (printStringLoop m f p (fuel + 1) f.precision 0).result = .ok 0 ∧
        (printStringLoop m f p (fuel + 1) f.precision 0).chars = [] := by
      rw [printStringLoop, chars_bind hread, bind_of_ok hread, chars_of_read]
      by_cases hb : b = 0#8
      · rw [if_pos hb]
        exact ⟨rfl, rfl⟩
      · rw [if_neg hb, (h b hread).resolve_left hb, if_neg (by decide), if_pos (by decide)]
        exact ⟨rfl, rfl⟩
    rw [chars_bind hloop.1, hloop.2, chars_pad]
    obtain hw | hw := hw
    · rw [hw]
      rfl
    · rw [hw]
      rfl

/-- And something if it does not. -/
theorem printString_something {b : Byte} (hw : f.width = -1#32 ∨ f.width = 0#32)
    (hread : (p.read m 0).result = .ok b) (hb : b ≠ 0#8) (hp : f.precision ≠ 0#32) :
    (printString m f p).chars ≠ [] := by
  obtain ⟨fuel, hfuel⟩ : ∃ fuel, 2 ^ 32 = fuel + 1 := ⟨2 ^ 32 - 1, by omega⟩
  have hread' : p.read m 0 = ⟨(p.read m 0).log, .ok b⟩ := by
    rw [← hread]
  obtain ⟨precision, hloop⟩ := printStringLoop_print (f := f) fuel hread' hb hp
  have hne : (printStringLoop m f p (fuel + 1) f.precision 0).chars ≠ [] := by
    rw [hloop, Fmt.chars, putchars_append, List.map_append]
    exact fun h => List.cons_ne_nil _ _ (List.append_eq_nil_iff.mp h).2
  rw [printString_no_width hw, hfuel]
  cases hres : (printStringLoop m f p (fuel + 1) f.precision 0).result with
  | error e =>
    rw [bind_of_error hres]
    exact hne
  | ok n =>
    rw [chars_bind hres]
    exact fun h => hne (List.append_eq_nil_iff.mp h).1

end Empty

/-- The string that `a` points to is empty, or cannot be read at all. -/
def NothingAt (m : Memory) (a : Word) : Prop := a ≠ 0#32 ∧ ∀ b, m a = some b → b = 0#8

theorem stringArg_read_iff (a : Word) :
    (∀ b, ((stringArg a).read m 0).result = .ok b → b = 0#8) ↔ NothingAt m a := by
  by_cases ha : a = 0#32
  · refine iff_of_false (fun h => ?_) fun h => h.1 ha
    have hparen := h (chr '(') (by rw [stringArg, if_pos ha]; rfl)
    exact absurd hparen (by decide)
  · have hread : ∀ b, ((stringArg a).read m 0).result = .ok b ↔ m a = some b := by
      intro b
      rw [stringArg, if_neg ha, CString.read, BitVec.add_zero]
      cases m a with
      | none => exact iff_of_false (fun h => by cases h) fun h => by cases h
      | some b' => exact ⟨fun h => by cases h; rfl, fun h => by cases h; rfl⟩
    simp only [hread]
    exact (and_iff_right ha).symm

/-- `"%.0s"` and `"%.*s"` with 0. -/
theorem print_string_zero_iff (m : Memory) (a : Word) :
    (∀ dot, (Conversion.s.print m ((dotSpec dot).literal 0) a).chars =
      (Conversion.s.print m ((dotSpec dot).star 0#32) a).chars) ↔ NothingAt m a := by
  have hliteral : ∀ dot, ((dotSpec dot).literal 0).width = -1#32 ∨
      ((dotSpec dot).literal 0).width = 0#32 := fun dot => by cases dot <;> decide
  have hstar : ∀ dot, ((dotSpec dot).star 0#32).width = -1#32 ∨
      ((dotSpec dot).star 0#32).width = 0#32 := fun dot => by cases dot <;> decide
  rw [← stringArg_read_iff]
  constructor
  · -- as an argument the precision 0 prints nothing
    intro h b hread
    by_contra hb
    have hsome : (Conversion.s.print m ((dotSpec true).literal 0) a).chars ≠ [] :=
      printString_something (hliteral true) hread hb (by decide)
    have hnone : (Conversion.s.print m ((dotSpec true).star 0#32) a).chars = [] :=
      printString_nothing (hstar true) fun _ _ => .inr rfl
    exact hsome ((h true).trans hnone)
  · intro h dot
    have hnone : (Conversion.s.print m ((dotSpec dot).literal 0) a).chars = [] :=
      printString_nothing (hliteral dot) fun b hb => .inl (h b hb)
    have hnone' : (Conversion.s.print m ((dotSpec dot).star 0#32) a).chars = [] :=
      printString_nothing (hstar dot) fun b hb => .inl (h b hb)
    rw [hnone, hnone']

/-- A number means the same in the format and as an argument, as the width and as the
precision. -/
def LiteralIsStar (m : Memory) (n : ℕ) (c : Conversion) (a : Word) : Prop :=
  ∀ dot, (vprintfmt m (literalFormat dot n c) fun _ => a).chars =
    (vprintfmt m (starFormat dot c) fun i => if i = 0 then BitVec.ofNat 32 n else a).chars

/-- It does, but for the precision 0 of a string. -/
theorem literal_eq_star_iff (m : Memory) (n : ℕ) (c : Conversion) (a : Word) :
    LiteralIsStar m n c a ↔ n ≠ 0 ∨ c ≠ .s ∨ NothingAt m a := by
  have hout : ∀ dot, (vprintfmt m (literalFormat dot n c) fun _ => a).chars =
      (c.print m ((dotSpec dot).literal n) a).chars := fun dot =>
    Fmt.chars_of_output (vprintfmt_literal dot n c m _)
  have hout' : ∀ dot, (vprintfmt m (starFormat dot c) fun i =>
      if i = 0 then BitVec.ofNat 32 n else a).chars =
      (c.print m ((dotSpec dot).star (BitVec.ofNat 32 n)) a).chars := fun dot =>
    Fmt.chars_of_output (vprintfmt_star dot c m _)
  simp only [LiteralIsStar, hout, hout']
  by_cases hn : n ≠ 0
  · exact iff_of_true (fun dot => by rw [literal_eq_star hn]) (.inl hn)
  obtain rfl := not_not.mp hn
  by_cases hc : c ≠ .s
  · exact iff_of_true (fun dot => print_number_zero hc dot m a) (.inr (.inl hc))
  · obtain rfl := not_not.mp hc
    rw [or_iff_right hn, or_iff_right hc]
    exact print_string_zero_iff m a

/-- `"%.0s"` prints the string `a`, and `"%.*s"` with 0 nothing of it. -/
theorem literal_zero_differs :
    StringAt (longString 1) 0x1000#32 (text "a") ∧
      ¬LiteralIsStar (longString 1) 0 .s 0x1000#32 := by
  refine ⟨longString_stringAt (by decide), fun h => ?_⟩
  have hsame := h true
  rw [Fmt.chars_of_output (vprintfmt_literal true 0 .s (longString 1) _),
    Fmt.chars_of_output (vprintfmt_star true .s (longString 1) _)] at hsame
  have hread : ((stringArg 0x1000#32).read (longString 1) 0).result = .ok (chr 'a') := rfl
  have hsome :
      (Conversion.s.print (longString 1) ((dotSpec true).literal 0) 0x1000#32).chars ≠ [] :=
    printString_something (.inr rfl) hread (by decide) (by decide)
  have hnone :
      (Conversion.s.print (longString 1) ((dotSpec true).star 0#32) 0x1000#32).chars = [] :=
    printString_nothing (.inr rfl) fun _ _ => .inr rfl
  exact hsome (hsame.trans hnone)

end Jos
