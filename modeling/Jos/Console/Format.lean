import Jos.Console.Strings

/-!
# Every format is printed

Whatever its format is, `vprintfmt` comes to its end, and prints what the format says when
it is read once from left to right: `vprintfmt_total`. A conversion returns when its
argument is what it asks for (`FmtItem.Supplied`), and then the rest is the reading of
`Console/Scan`.
-/

namespace Jos

variable {m : Memory} {fmt : List Byte} {args : ℕ → Word}

/-- What a conversion asks of its argument: `%s` takes a NUL-terminated string or the null
pointer, and `%e` an error code whose absolute value is an `int`. -/
def FmtItem.Supplied (m : Memory) (args : ℕ → Word) : FmtItem → Prop
  | .string _ ap => ∃ s, StandsFor m (args ap) s
  | .error ap => args ap ≠ 0x80000000#32
  | _ => True

/-- A conversion that has its argument returns. -/
theorem FmtItem.print_returns {d : FmtItem} (h : d.Supplied m args) :
    (d.print m args).result = .ok () := by
  cases d with
  | string f ap =>
    obtain ⟨s, hs⟩ := h
    obtain ⟨hholds, hlen⟩ := hs.holds
    exact printString_ok hholds hlen
  | error ap => exact (shows_printError _).returns
  | signed f num => exact (shows_printSigned f num).returns
  | unsigned f num base => exact (shows_printnum ..).returns
  | pointer f ap => exact (Shows.after rfl (Shows.after rfl (shows_printnum ..))).returns
  | char ap => rfl
  | percent => rfl

/-- `vprintfmt` returns when it has the arguments of its conversions. -/
theorem vprintfmt_returns (h : ∀ d ∈ fmtItems args fmt .text 0, d.Supplied m args) :
    (vprintfmt m fmt args).result = .ok () :=
  (vprintfmt_outputs fun d hd => FmtItem.print_returns (h d hd)).returns

/-- And so does `cprintf`. -/
theorem cprintf_returns {fmt : String} {args : List Word}
    (h : ∀ d ∈ fmtItems (fun i => args.getD i 0#32) (text fmt) .text 0,
      d.Supplied m fun i => args.getD i 0#32) : ∃ cnt, (cprintf m fmt args).result = .ok cnt := by
  have hret := vprintfmt_returns h
  have hres : (cprintf m fmt args).result =
      (vprintfmt m (text fmt) fun i => args.getD i 0#32).result.map fun _ =>
        (putchars (vprintfmt m (text fmt) fun i => args.getD i 0#32).log).foldl
          kernPutch 0#32 := rfl
  rw [hret] at hres
  exact ⟨_, hres⟩

/-- `vprintfmt` returns, reads its format at the indices up to that of the NUL, and prints
the format: the conversions of their arguments, and everything else as it stands, with the
escapes that are not known or not complete. -/
theorem vprintfmt_total (h : ∀ d ∈ fmtItems args fmt .text 0, d.Supplied m args) :
    (vprintfmt m fmt args).result = .ok () ∧
      (∀ i, .fetch i ∈ (vprintfmt m fmt args).log → i ≤ fmt.length) ∧
      putchars (vprintfmt m fmt args).log = formatted m args fmt .text [] 0 := by
  have hout := vprintfmt_outputs fun d hd => FmtItem.print_returns (h d hd)
  exact ⟨hout.returns, hout.fetches, hout.chars⟩

/-- An unknown escape with flags, a string, an error and an escape that the NUL cuts off. -/
theorem vprintfmt_total_cut :
    let args : ℕ → Word := fun i => [7#32, 0x1000#32, -4#32].getD i 0#32
    (∀ d ∈ fmtItems args (text "%-*q%s%e%.5") .text 0, d.Supplied (longString 2) args) ∧
      (vprintfmt (longString 2) (text "%-*q%s%e%.5") args).result = .ok () ∧
      putchars (vprintfmt (longString 2) (text "%-*q%s%e%.5") args).log =
        (text "%-*qaaout of memory%.5").map (BitVec.setWidth 32) := by
  intro args
  have hitems : fmtItems args (text "%-*q%s%e%.5") .text 0 = [.string {} 1, .error 2] := rfl
  have hsupplied : ∀ d ∈ fmtItems args (text "%-*q%s%e%.5") .text 0,
      d.Supplied (longString 2) args := by
    rw [hitems]
    intro d hd
    rw [List.mem_cons, List.mem_singleton] at hd
    obtain rfl | rfl := hd
    · exact ⟨_, .inr ⟨by decide, longString_stringAt (by decide)⟩⟩
    · change (-4#32 : Word) ≠ _
      decide
  obtain ⟨hret, -, hchars⟩ := vprintfmt_total hsupplied
  refine ⟨hsupplied, hret, hchars.trans ?_⟩
  decide +kernel

end Jos
