import Jos.Console.Format
import Jos.Console.Numbers
import Jos.Console.Literal

/-!
# The parts of a format

A format is a list of parts: characters that stand for themselves, and conversions
(`fmtParts`). What `cprintf` prints is what its parts print, one after the other
(`prints_of_parts`). For a format that is a constant of the kernel the parts are found by
evaluation, so that only the arguments are left to be talked about; the lemmas after it say
what `%s`, `%.*s`, `%d`, `%x` and `%p` print for them.
-/

namespace Jos

open Logged

variable {m : Memory} {args : ℕ → Word}

/-- A part of a format. -/
inductive FmtPart where
  /-- Characters that stand for themselves. -/
  | plain (l : List Byte)
  | item (d : FmtItem)

namespace FmtPart

/-- Characters in front of the other parts. -/
def push : List Byte → List FmtPart → List FmtPart
  | [], ps => ps
  | l, .plain l' :: ps => .plain (l ++ l') :: ps
  | l, ps => .plain l :: ps

/-- The conversion, if it is one. -/
def item? : FmtPart → Option FmtItem
  | plain _ => none
  | item d => some d

/-- What a part prints. -/
def chars (m : Memory) (args : ℕ → Word) : FmtPart → List Byte
  | plain l => l
  | item d => (d.print m args).chars

/-- A part that can be printed, and prints `out`. -/
def Prints (m : Memory) (args : ℕ → Word) (out : List Byte) : FmtPart → Prop
  | plain l => l = out
  | item d => (d.print m args).result = .ok () ∧ (d.print m args).chars = out

/-- Parts that can be printed, one after the other. -/
theorem prints_all {ps : List FmtPart} {outs : List (List Byte)}
    (h : List.Forall₂ (Prints m args) outs ps) :
    (∀ d ∈ ps.filterMap item?, (d.print m args).result = .ok ()) ∧
      ps.flatMap (chars m args) = outs.flatten := by
  induction h with
  | nil => exact ⟨List.forall_mem_nil _, rfl⟩
  | @cons out p outs ps hp _ ih =>
    obtain ⟨hres, hchars⟩ := ih
    rw [List.flatMap_cons, List.flatten_cons, hchars]
    cases p with
    | plain l => exact ⟨hres, congrArg (· ++ _) hp⟩
    | item d => exact ⟨List.forall_mem_cons.mpr ⟨hp.1, hres⟩, congrArg (· ++ _) hp.2⟩

theorem push_chars (l : List Byte) (ps : List FmtPart) :
    (push l ps).flatMap (chars m args) = l ++ ps.flatMap (chars m args) := by
  unfold push
  split
  · rfl
  · simp only [List.flatMap_cons, chars, List.append_assoc]
  · rfl

theorem push_items (l : List Byte) (ps : List FmtPart) :
    (push l ps).filterMap item? = ps.filterMap item? := by
  unfold push
  split <;> rfl

end FmtPart

/-- The parts of a format; `esc` is what has been read of an escape, as for `formatted`. -/
def fmtParts (args : ℕ → Word) : List Byte → FmtMode → List Byte → ℕ → List FmtPart
  | [], _, esc, _ => FmtPart.push esc []
  | ch :: l, mode, esc, ap =>
    match readChar args ch ap mode with
    | .flag mode ap => fmtParts args l mode (esc ++ [ch]) ap
    | .item d ap => .item d :: fmtParts args l .text [] ap
    | .literal => FmtPart.push (esc ++ [ch]) (fmtParts args l .text [] ap)
    | .stop => FmtPart.push esc []

/-- A character that is printed as it stands in the format. -/
theorem map_setWidth_setWidth (l : List Byte) :
    (l.map (BitVec.setWidth 32)).map (BitVec.setWidth 8) = l := by
  rw [List.map_map]
  refine (List.map_congr_left fun b _ => ?_).trans (List.map_id l)
  exact BitVec.setWidth_setWidth_of_le b (by decide)

/-- What a format prints is what its parts print. -/
theorem formatted_chars (l : List Byte) (mode : FmtMode) (esc : List Byte) (ap : ℕ) :
    (formatted m args l mode esc ap).map (BitVec.setWidth 8) =
      (fmtParts args l mode esc ap).flatMap (FmtPart.chars m args) := by
  induction l generalizing mode esc ap with
  | nil =>
    rw [formatted, fmtParts, FmtPart.push_chars, map_setWidth_setWidth]
    exact (List.append_nil esc).symm
  | cons ch l ih =>
    rw [formatted, fmtParts]
    cases readChar args ch ap mode with
    | flag mode ap => exact ih mode _ ap
    | item d ap =>
      rw [List.map_append, ih]
      rfl
    | literal => rw [List.map_append, ih, map_setWidth_setWidth, FmtPart.push_chars]
    | stop =>
      rw [FmtPart.push_chars, map_setWidth_setWidth]
      exact (List.append_nil esc).symm

theorem fmtParts_items (l : List Byte) (mode : FmtMode) (esc : List Byte) (ap : ℕ) :
    (fmtParts args l mode esc ap).filterMap FmtPart.item? = fmtItems args l mode ap := by
  induction l generalizing mode esc ap with
  | nil =>
    rw [fmtParts, fmtItems, FmtPart.push_items]
    rfl
  | cons ch l ih =>
    rw [fmtParts, fmtItems]
    cases readChar args ch ap mode with
    | flag mode ap => exact ih mode _ ap
    | item d ap => exact congrArg (d :: ·) (ih .text [] ap)
    | literal => rw [FmtPart.push_items, ih]
    | stop =>
      rw [FmtPart.push_items]
      rfl

/-- `cprintf(fmt, ...)` returns, and has printed `out`. -/
structure Prints (m : Memory) (fmt : String) (args : List Word) (out : List Byte) : Prop where
  returns : ∃ cnt, (cprintf m fmt args).result = .ok cnt
  chars : (cprintf m fmt args).chars = out

/-- `cprintf` prints the parts of its format. -/
theorem prints_of_parts (m : Memory) {fmt : String} {args : List Word} {ps : List FmtPart}
    {outs : List (List Byte)}
    (hparts : fmtParts (fun i => args.getD i 0#32) (text fmt) .text [] 0 = ps)
    (h : List.Forall₂ (FmtPart.Prints m fun i => args.getD i 0#32) outs ps) :
    Prints m fmt args outs.flatten := by
  obtain ⟨hitems, hchars⟩ := FmtPart.prints_all h
  rw [← hparts, fmtParts_items] at hitems
  have hout := vprintfmt_outputs hitems
  constructor
  · have hres : (cprintf m fmt args).result =
        (vprintfmt m (text fmt) fun i => args.getD i 0#32).result.map fun _ =>
          (putchars (vprintfmt m (text fmt) fun i => args.getD i 0#32).log).foldl
            kernPutch 0#32 := rfl
    rw [hout.returns] at hres
    exact ⟨_, hres⟩
  · calc (cprintf m fmt args).chars
        = (formatted m (fun i => args.getD i 0#32) (text fmt) .text [] 0).map
            (BitVec.setWidth 8) := congrArg (List.map (BitVec.setWidth 8)) hout.chars
      _ = outs.flatten := by rw [formatted_chars, hparts, hchars]

/-! ### Conversions -/

/-- A word in hexadecimal. -/
def hex (w : Word) : List Byte := numeral 16 w.toNat

/-- Zeros in front, up to `k` characters. -/
def zeros (k : ℕ) (l : List Byte) : List Byte := List.replicate (k - l.length) (chr '0') ++ l

namespace FmtPart

/-- `%0<k>x`. -/
theorem prints_zeros {f : FmtSpec} {k : ℕ} (h : f.Pads k (chr '0')) (w : Word) :
    Prints m args (zeros k (hex w)) (.item (.unsigned f (w.setWidth 64) 16)) := by
  obtain ⟨hres, hchars⟩ := printNumber_chars h (show 2 ≤ 16 by decide) (by decide)
    (w.setWidth 64)
  rw [BitVec.toNat_setWidth_of_le (by decide)] at hchars
  exact ⟨hres, hchars⟩

/-- `%x`. -/
theorem prints_hex (w : Word) :
    Prints m args (hex w) (.item (.unsigned {} (w.setWidth 64) 16)) := by
  have hpads : ({} : FmtSpec).Pads 0 (chr '0') := .inl ⟨rfl, rfl⟩
  have hzeros : Prints m args (zeros 0 (hex w)) _ := prints_zeros hpads w
  rwa [zeros, Nat.zero_sub] at hzeros

/-- `%d`. -/
theorem prints_decimal (w : Word) :
    Prints m args (decimal w.toInt) (.item (.signed {} (w.signExtend 64))) := by
  have hpads : ({} : FmtSpec).Pads 0 (chr ' ') := .inl ⟨rfl, rfl⟩
  obtain ⟨hres, hchars⟩ := printSigned_chars hpads (w.signExtend 64)
  rw [BitVec.toInt_signExtend_of_le (by decide), Nat.zero_sub] at hchars
  exact ⟨hres, hchars⟩

/-- `%p`. -/
theorem prints_pointer {ap : ℕ} {w : Word} (hw : args ap = w) :
    Prints m args (text "0x" ++ hex w) (.item (.pointer {} ap)) := by
  subst hw
  have hpads : ({} : FmtSpec).Pads 0 (chr ' ') := .inl ⟨rfl, rfl⟩
  obtain ⟨hres, hchars⟩ := printNumber_chars hpads (show 2 ≤ 16 by decide) (by decide)
    ((args ap).setWidth 64)
  rw [BitVec.toNat_setWidth_of_le (by decide), Nat.zero_sub] at hchars
  refine ⟨hres, ?_⟩
  change (Fmt.putch 0x30#32 >>= fun _ => Fmt.putch 0x78#32 >>= fun _ => _).chars = _
  rw [chars_bind rfl, chars_bind rfl, hchars]
  rfl

/-- `%s` without a width prints the characters that the precision lets through. -/
theorem prints_string {f : FmtSpec} {ap : ℕ} {s : List Byte} (hs : StandsFor m (args ap) s)
    (hw : f.width = -1#32 ∨ f.width = 0#32) (halt : f.altflag = false)
    (hlen : s.length < 2 ^ 31) :
    Prints m args (s.take (limit f.precision s.length)) (.item (.string f ap)) := by
  obtain ⟨hholds, hlt⟩ := hs.holds
  obtain ⟨hres, hchars⟩ := printBody (f := f) hholds hlt f.width
  have hbody : f.body s = s.take (limit f.precision s.length) := by
    refine (List.map_congr_left fun b _ => ?_).trans (List.map_id _)
    rw [FmtSpec.shown, halt]
    exact setWidth_signExtend b
  -- the characters are taken off a width that is not positive, so nothing is padded
  have hpad : (f.width - BitVec.ofNat 32 (limit f.precision s.length)).toInt.toNat = 0 := by
    have hk := limit_le f.precision s.length
    have hint : (BitVec.ofNat 32 (limit f.precision s.length)).toInt =
        limit f.precision s.length := toInt_ofNat_of_lt (by omega)
    have hneg : -1 ≤ f.width.toInt ∧ f.width.toInt ≤ 0 := by
      obtain hw | hw := hw <;> rw [hw] <;> decide
    rw [BitVec.toInt_sub, hint, Int.bmod_eq_of_le (by omega) (by omega)]
    omega
  rw [hbody, hpad, List.replicate_zero, List.append_nil] at hchars
  rw [← printString_no_width hw] at hres hchars
  exact ⟨hres, hchars⟩

/-- `%s` prints its string. -/
theorem prints_whole {ap : ℕ} {s : List Byte} (hs : StandsFor m (args ap) s)
    (hlen : s.length < 2 ^ 31) : Prints m args s (.item (.string {} ap)) := by
  have hfull : s.take (limit (-1#32) s.length) = s := List.take_length
  have hprints : Prints m args (s.take (limit (-1#32) s.length)) (.item (.string {} ap)) :=
    prints_string hs (.inl rfl) rfl hlen
  rwa [hfull] at hprints

end FmtPart

/-- The spec of `%0<k>x`. -/
def zerosSpec (k : ℕ) : FmtSpec := { padc := chr '0', width := BitVec.ofNat 32 k }

theorem zerosSpec_pads {k : ℕ} (hk : k < 2 ^ 31) : (zerosSpec k).Pads k (chr '0') :=
  .inr ⟨rfl, hk, rfl⟩

/-- A format without a conversion. -/
theorem prints_constant {fmt : String}
    (h : fmtParts (fun i => [].getD i 0#32) (text fmt) .text [] 0 = [.plain (text fmt)]) :
    Prints m fmt [] (text fmt) := by
  have hprints := prints_of_parts m h (.cons rfl .nil)
  rwa [List.flatten_cons, List.flatten_nil, List.append_nil] at hprints

end Jos
