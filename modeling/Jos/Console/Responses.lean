import Jos.Console.Backtrace
import Jos.Console.Command
import Jos.Kern.Commands

/-!
# What the monitor answers

For each line `runcmd` prints nothing, or that there are too many words, or that there is no
such command (`runcmd_yields`), and the commands print their texts. The strings they print are
constants of the kernel: they are in memory at the addresses that `rodata` gives, apart from the
buffer of `readline` (`Literals`), so that neither the line that is read nor the NULs that
`runcmd` puts into it touch them.
-/

namespace Jos

open Logged

/-! ### `runcmd` -/

section Runcmd

variable {m : Memory} {buf : Word} {line : List Byte}

theorem Cmd.print_yields {fmt : String} {args : List Word} {out : List Byte}
    (h : Prints m fmt args out) : ∃ cnt, Yields CmdEvent.char? (Cmd.print m fmt args) cnt out := by
  obtain ⟨⟨cnt, hres⟩, hchars⟩ := h
  rw [Fmt.chars_eq] at hchars
  refine ⟨cnt, hres, ?_⟩
  rw [← hchars]
  exact List.filterMap_map

theorem unseen_deref (m : Memory) (p : Word) :
    Unseen CmdEvent.char? (Cmd.lift (deref m p)) := rfl

theorem gobbleSpace_unseen (n : ℕ) (m : Memory) (p : Word) :
    Unseen CmdEvent.char? (gobbleSpace n m p) := by
  induction n generalizing m p with
  | zero => rfl
  | succ n ih =>
    refine (unseen_deref m p).bind fun b => ?_
    split
    · -- the write of the NUL is an event, but nothing that is seen
      exact Unseen.bind rfl fun m => ih m _
    · rfl

theorem skipArg_unseen (m : Memory) (n : ℕ) (p : Word) :
    Unseen CmdEvent.char? (skipArg m n p) := by
  induction n generalizing p with
  | zero => rfl
  | succ n ih =>
    refine (unseen_deref m p).bind fun b => ?_
    split
    · exact ih _
    · rfl

theorem prints_tooMany (m : Memory) : Prints m "Too many arguments (max %d)\n"
    [BitVec.ofNat 32 maxargs] (text "Too many arguments (max 16)\n") := by
  have hparts : fmtParts (fun i => [BitVec.ofNat 32 maxargs].getD i 0#32)
      (text "Too many arguments (max %d)\n") .text [] 0 =
      [.plain (text "Too many arguments (max "), .item (.signed {} ((16#32).signExtend 64)),
        .plain (text ")\n")] := rfl
  exact prints_of_parts m hparts (.cons rfl (.cons (FmtPart.prints_decimal 16#32) (.cons rfl .nil)))

theorem prints_unknown {p : Word} {t : List Byte} (h : StandsFor m p t) (hlen : t.length < 2 ^ 31) :
    Prints m "Unknown command '%s'\n" [p] (text "Unknown command '" ++ t ++ text "'\n") := by
  have hparts : fmtParts (fun i => [p].getD i 0#32) (text "Unknown command '%s'\n") .text [] 0 =
      [.plain (text "Unknown command '"), .item (.string {} 0), .plain (text "'\n")] := rfl
  have hprints := prints_of_parts m hparts (.cons rfl
    (.cons (FmtPart.prints_whole h hlen) (.cons rfl .nil)))
  simpa only [List.flatten_cons, List.flatten_nil, List.append_nil, List.append_assoc]
    using hprints

/-- The parser prints something only if it gives up. -/
theorem parseArgs_yields {n argc : ℕ} {argv : ℕ → Word} {p : Word} {r : Option Parsed}
    (h : (parseArgs n m argc argv p).result = .ok r) :
    Yields CmdEvent.char? (parseArgs n m argc argv p) r
      (if r.isSome then [] else text "Too many arguments (max 16)\n") := by
  induction n generalizing m argc argv p with
  | zero => cases h
  | succ n ih =>
    rw [parseArgs] at h ⊢
    obtain ⟨⟨m₁, p₁⟩, hgobble, h⟩ := result_bind_eq_ok.mp h
    obtain ⟨b, hderef, h⟩ := result_bind_eq_ok.mp h
    refine Yields.after ?_ ⟨hgobble, gobbleSpace_unseen _ _ _⟩
    refine Yields.after ?_ ⟨hderef, unseen_deref m₁ p₁⟩
    by_cases hb : b = 0#8
    · -- the end of the line: the words have been found
      rw [if_pos hb] at h ⊢
      cases h
      exact .pure _
    rw [if_neg hb] at h ⊢
    by_cases hfull : argc = maxargs - 1
    · -- no room is left in `argv`, and the parser says so
      rw [if_pos hfull] at h ⊢
      obtain ⟨cnt, hprint⟩ := Cmd.print_yields (prints_tooMany m₁)
      rw [bind_of_ok hprint.returns] at h
      cases h
      exact hprint.bind_pure fun _ => none
    · rw [if_neg hfull] at h ⊢
      obtain ⟨argv₁, hargv, h⟩ := result_bind_eq_ok.mp h
      obtain ⟨p₂, hskip, h⟩ := result_bind_eq_ok.mp h
      refine Yields.after ?_ ⟨hargv, rfl⟩
      refine Yields.after ?_ ⟨hskip, skipArg_unseen _ _ _⟩
      exact ih h

/-- The parser on a line of memory: what it yields, the memory behind it, and what it prints. -/
theorem runcmdParse_yields (hline : StringAt m buf line) (argv : ℕ → Word) :
    (maxargs ≤ (tokens line).length → Yields CmdEvent.char? (runcmdParse m argv buf) none
      (text "Too many arguments (max 16)\n")) ∧
    ((tokens line).length < maxargs →
      ∃ p, Yields CmdEvent.char? (runcmdParse m argv buf) (some p) [] ∧
        Tokenised line buf p ∧ p.m = scanned m buf line line.length) := by
  -- the parser starts with the line as it is and no words
  obtain ⟨log, r, hrun, -, hadds⟩ := parseArgs_scanned (p := 0) hline maxargs
    (Function.update argv 0 0#32) (Nat.zero_le _) (by decide) rfl
  rw [scanned_zero, BitVec.add_zero] at hrun
  have hseen := (parseArgs_yields (congrArg Logged.result hrun)).seen
  rw [hrun] at hseen
  constructor
  · intro hmany
    obtain rfl : r = none := hadds.full (by rwa [List.drop_zero, Nat.zero_add])
    rw [runcmdParse_none hrun]
    exact ⟨rfl, hseen⟩
  · intro hfew
    obtain ⟨argv', rfl, -, -⟩ := hadds.args (by rwa [List.drop_zero, Nat.zero_add])
    obtain ⟨log', r', hparse, -, -, htok⟩ := runcmdParse_tokenises hline argv
    obtain ⟨p, rfl, hp⟩ := htok hfew
    have hsome := runcmdParse_some hrun
    have hres := congrArg Logged.result (hparse.symm.trans hsome)
    obtain rfl := Option.some.inj (Except.ok.inj hres)
    refine ⟨_, ⟨congrArg Logged.result hsome, ?_⟩, hp, rfl⟩
    rw [hsome]
    change (log ++ [_]).filterMap CmdEvent.char? = []
    -- the last event is the null pointer behind the arguments
    rw [List.filterMap_append, hseen]
    rfl

/-- The command that a line calls. -/
def calledCommand (ws : List (List Byte)) : Option Command :=
  if maxargs ≤ ws.length then none
  else ws.head?.bind fun t => commands.find? fun c => t = c.name

/-- What `runcmd` prints itself for a line of these words. -/
def complaint (ws : List (List Byte)) : List Byte :=
  if maxargs ≤ ws.length then text "Too many arguments (max 16)\n"
  else if ws = [] ∨ (calledCommand ws).isSome then []
  else text "Unknown command '" ++ ws.headD [] ++ text "'\n"

/-- `runcmd` calls the command that the line names, or returns 0. -/
theorem runcmd_yields (hline : StringAt m buf line) (hlen : line.length < 2 ^ 31)
    (hbuf : 0 < buf.toNat) (hfits : buf.toNat + line.length ≤ 2 ^ 32) (argv : ℕ → Word) :
    ∃ o, Yields CmdEvent.char? (runcmd m argv buf) o (complaint (tokens line)) ∧
      (calledCommand (tokens line) = none → o = .returned 0#32) ∧
      ∀ c, calledCommand (tokens line) = some c →
        ∃ p, o = .called c p ∧ p.m = scanned m buf line line.length := by
  obtain ⟨hmany, hfew⟩ := runcmdParse_yields hline argv
  by_cases hfull : maxargs ≤ (tokens line).length
  · rw [complaint, if_pos hfull, calledCommand, if_pos hfull, runcmd]
    exact ⟨.returned 0#32, (hmany hfull).bind (.pure _), fun _ => rfl, fun c hc => by cases hc⟩
  obtain ⟨p, hparse, htok, hmem⟩ := hfew (not_le.mp hfull)
  rw [complaint, if_neg hfull, runcmd]
  have hcalled : calledCommand (tokens line) =
      (tokens line).head?.bind fun t => commands.find? fun c => t = c.name := if_neg hfull
  cases htokens : tokens line with
  -- an empty line is no command, and nothing is said about it
  | nil =>
    have hargc : p.argc = 0 := by rw [htok.argc_eq, htokens]; rfl
    rw [htokens] at hcalled
    rw [if_pos (.inl rfl), hcalled]
    refine ⟨.returned 0#32, Yields.after ?_ hparse, fun _ => rfl, fun c hc => by cases hc⟩
    simp only [if_pos hargc]
    exact .pure _
  | cons t ts =>
    have hargc : p.argc ≠ 0 := by
      rw [htok.argc_eq, htokens]
      exact Nat.succ_ne_zero _
    -- the first word is looked up in `commands`
    obtain ⟨hstring, off, hoff, htoken⟩ := htok.arg 0 t (by rw [htokens]; rfl)
    have hfind : Yields CmdEvent.char? (findCommand p.m (p.argv 0) commands)
        (commands.find? fun c => t = c.name) [] := by
      rw [findCommand_eq hstring]
      exact ⟨rfl, rfl⟩
    rw [htokens, List.head?_cons, Option.bind_some] at hcalled
    rw [← hcalled] at hfind
    cases hname : calledCommand (t :: ts) with
    | some c =>
      rw [hname] at hfind
      rw [if_pos (.inr rfl)]
      refine ⟨.called c p, Yields.after ?_ hparse, (fun hc => by cases hc), ?_⟩
      · simp only [if_neg hargc]
        exact Yields.after (.pure _) hfind
      · intro c' hc'
        cases hc'
        exact ⟨p, rfl, hmem⟩
    | none =>
      rw [hname] at hfind
      obtain ⟨rest, hdrop, -⟩ := htoken.place
      have hlength := congrArg List.length hdrop
      have hpos := List.length_pos_iff.mpr htoken.nonempty
      rw [List.length_drop, List.length_append] at hlength
      -- the word is inside the buffer, so its address is not that of `"(null)"`
      have hne : p.argv 0 ≠ 0#32 := by
        intro hzero
        have htoNat := congrArg BitVec.toNat (hoff.symm.trans hzero)
        rw [BitVec.toNat_add, BitVec.toNat_ofNat, BitVec.toNat_zero] at htoNat
        omega
      obtain ⟨cnt, hprint⟩ := Cmd.print_yields (prints_unknown (.inr ⟨hne, hstring⟩) (by omega))
      rw [if_neg (by simp)]
      refine ⟨.returned 0#32, Yields.after ?_ hparse, fun _ => rfl, fun c hc => by cases hc⟩
      simp only [if_neg hargc]
      refine Yields.after ?_ hfind
      exact hprint.bind_pure fun _ => CmdOutcome.returned 0#32

end Runcmd

/-! ### The strings of the kernel -/

/-- The strings are in memory at the addresses that the kernel uses, and none of them is in the
buffer of `readline`. -/
structure Literals (K : KernelImage) (m : Memory) (l : List (List Byte)) : Prop where
  nonnull : ∀ s ∈ l, K.rodata s ≠ 0#32
  stored : ∀ s ∈ l, StringAt m (K.rodata s) s
  apart : ∀ s ∈ l, ∀ i ≤ s.length, buflen ≤ (K.rodata s + BitVec.ofNat 32 i - K.line).toNat

/-- The strings of the monitor. -/
def monitorLiterals : List (List Byte) :=
  text "K> " :: (commands.map Command.name ++ commands.map Command.desc)

/-- The strings of `print_trapframe` and `trapname`. -/
def trapLiterals : List (List Byte) :=
  excnames ++ [text "System call", text "Hardware Interrupt", text "(unknown trap)", text "user",
    text "kernel", text "write", text "read", text "protection", text "not-present"]

section Texts

variable {K : KernelImage} {m m' : Memory} {l : List (List Byte)}

theorem Literals.standsFor (h : Literals K m l) {s : List Byte} (hs : s ∈ l) :
    StandsFor m (K.rodata s) s := .inr ⟨h.nonnull s hs, h.stored s hs⟩

/-- What is written to the buffer leaves them alone. -/
theorem Literals.frame (h : Literals K m l)
    (hm : ∀ a, buflen ≤ (a - K.line).toNat → m' a = m a) : Literals K m' l := by
  refine ⟨h.nonnull, fun s hs => ?_, h.apart⟩
  obtain ⟨hchar, hnonzero, hnul⟩ := h.stored s hs
  -- no byte of a string, nor its NUL, is in the buffer
  refine ⟨fun i b hb => ?_, hnonzero, ?_⟩
  · have hi := (List.getElem?_eq_some_iff.mp hb).1
    rw [hm _ (h.apart s hs i hi.le)]
    exact hchar i b hb
  · rw [hm _ (h.apart s hs s.length le_rfl)]
    exact hnul

/-- What `help` prints. -/
def helpText : List Byte :=
  commands.flatMap fun c => c.name ++ text " - " ++ c.desc ++ text "\n"

theorem prints_command {name desc : Word} {c : Command} (hname : StandsFor m name c.name)
    (hdesc : StandsFor m desc c.desc) :
    Prints m "%s - %s\n" [name, desc] (c.name ++ text " - " ++ c.desc ++ text "\n") := by
  have hparts : fmtParts (fun i => [name, desc].getD i 0#32) (text "%s - %s\n") .text [] 0 =
      [.item (.string {} 0), .plain (text " - "), .item (.string {} 1), .plain (text "\n")] := rfl
  have hlen : c.name.length < 2 ^ 31 ∧ c.desc.length < 2 ^ 31 := by cases c <;> decide
  have hprints := prints_of_parts m hparts
    (.cons (FmtPart.prints_whole hname hlen.1) (.cons rfl
      (.cons (FmtPart.prints_whole hdesc hlen.2) (.cons rfl .nil))))
  simpa only [List.flatten_cons, List.flatten_nil, List.append_nil, List.append_assoc]
    using hprints

theorem monHelp_shows (h : Literals K m monitorLiterals) :
    Mon.Shows (monHelp m K.rodata) () helpText := by
  -- one line for each command
  refine Yields.forM fun c _ => Mon.Shows.print (prints_command (h.standsFor ?_) (h.standsFor ?_))
  all_goals cases c <;> simp [monitorLiterals, commands]

/-- The line for a symbol. -/
def symbolText (name : String) (a : Word) : List Byte :=
  text name ++ zeros 8 (hex a) ++ text " (virt)  " ++ zeros 8 (hex (a - kernbase)) ++
    text " (phys)\n"

/-- What `kerninfo` prints: at the end, how many kilobytes the kernel takes, rounded up. -/
def kerninfoText (K : KernelImage) : List Byte :=
  [text "Special kernel symbols:\n",
    text "  _start                  " ++ zeros 8 (hex K.start) ++ text " (phys)\n",
    symbolText "  entry  " K.entry, symbolText "  etext  " K.etext, symbolText "  edata  " K.edata,
    symbolText "  end    " K.ending, text "Kernel executable memory footprint: " ++
      decimal (((K.ending - K.entry).toNat + 1023) / 1024 : ℕ) ++ text "KB\n"].flatten

theorem prints_symbol {fmt name : String} {a : Word}
    (h : fmtParts (fun i => [a, a - kernbase].getD i 0#32) (text fmt) .text [] 0 =
      [.plain (text name), .item (.unsigned (zerosSpec 8) (a.setWidth 64) 16),
        .plain (text " (virt)  "),
        .item (.unsigned (zerosSpec 8) ((a - kernbase).setWidth 64) 16),
        .plain (text " (phys)\n")]) : Prints m fmt [a, a - kernbase] (symbolText name a) := by
  have hpads : (zerosSpec 8).Pads 8 (chr '0') := zerosSpec_pads (by decide)
  have hprints := prints_of_parts m h (.cons rfl (.cons (FmtPart.prints_zeros hpads a) (.cons rfl
    (.cons (FmtPart.prints_zeros hpads (a - kernbase)) (.cons rfl .nil)))))
  simpa only [List.flatten_cons, List.flatten_nil, List.append_nil, List.append_assoc, symbolText]
    using hprints

/-- The size is a small number, so the division is that of natural numbers. -/
theorem footprint_eq (K : KernelImage) :
    ((roundUp (K.ending - K.entry) 1024#32).sdiv 1024#32).toInt =
      (((K.ending - K.entry).toNat + 1023) / 1024 : ℕ) := by
  have hhigh := K.high
  have hordered := K.ordered
  have hlt := K.ending.isLt
  have hbase : kernbase.toNat = 0xF0000000 := rfl
  rw [BitVec.le_def] at hhigh hordered
  -- the kernel is above `KERNBASE`, so it takes less than 256 MB
  have hsize : (K.ending - K.entry).toNat < 2 ^ 28 := by
    rw [BitVec.toNat_sub]
    omega
  have hround : (roundUp (K.ending - K.entry) 1024#32).toNat =
      ((K.ending - K.entry).toNat + 1023) / 1024 * 1024 := by
    generalize K.ending - K.entry = d at hsize ⊢
    rw [roundUp, roundDown]
    have hkilo : (1024#32).toNat = 1024 := rfl
    have hone : (1#32).toNat = 1 := rfl
    simp only [BitVec.toNat_sub, BitVec.toNat_umod, BitVec.toNat_add, hkilo, hone]
    omega
  have hint : (roundUp (K.ending - K.entry) 1024#32).toInt =
      (((K.ending - K.entry).toNat + 1023) / 1024 * 1024 : ℕ) := by
    rw [BitVec.toInt_eq_toNat_of_lt, hround]
    rw [hround]
    omega
  generalize (K.ending - K.entry).toNat = d at hsize hint ⊢
  rw [BitVec.toInt_sdiv, hint, show (1024#32).toInt = 1024 from rfl, Nat.cast_mul, Nat.cast_ofNat,
    Int.mul_tdiv_cancel _ (by decide), Int.bmod_eq_of_le (by omega) (by omega)]

theorem monKerninfo_shows (m : Memory) (K : KernelImage) :
    Mon.Shows (monKerninfo m K) () (kerninfoText K) := by
  have hstart : Prints m "  _start                  %08x (phys)\n" [K.start]
      (text "  _start                  " ++ zeros 8 (hex K.start) ++ text " (phys)\n") := by
    have hparts : fmtParts (fun i => [K.start].getD i 0#32)
        (text "  _start                  %08x (phys)\n") .text [] 0 =
        [.plain (text "  _start                  "),
          .item (.unsigned (zerosSpec 8) (K.start.setWidth 64) 16),
          .plain (text " (phys)\n")] := rfl
    have hprints := prints_of_parts m hparts (.cons rfl
      (.cons (FmtPart.prints_zeros (zerosSpec_pads (k := 8) (by decide)) K.start) (.cons rfl .nil)))
    simpa only [List.flatten_cons, List.flatten_nil, List.append_nil, List.append_assoc]
      using hprints
  have hfoot : Prints m "Kernel executable memory footprint: %dKB\n"
      [(roundUp (K.ending - K.entry) 1024#32).sdiv 1024#32]
      (text "Kernel executable memory footprint: " ++
        decimal (((K.ending - K.entry).toNat + 1023) / 1024 : ℕ) ++ text "KB\n") := by
    have hparts : fmtParts
        (fun i => [(roundUp (K.ending - K.entry) 1024#32).sdiv 1024#32].getD i 0#32)
        (text "Kernel executable memory footprint: %dKB\n") .text [] 0 =
        [.plain (text "Kernel executable memory footprint: "), .item (.signed {}
            (((roundUp (K.ending - K.entry) 1024#32).sdiv 1024#32).signExtend 64)),
          .plain (text "KB\n")] := rfl
    have hprints := prints_of_parts m hparts (.cons rfl (.cons (FmtPart.prints_decimal _)
      (.cons rfl .nil)))
    rw [footprint_eq] at hprints
    simpa only [List.flatten_cons, List.flatten_nil, List.append_nil, List.append_assoc]
      using hprints
  simp only [kerninfoText, List.flatten_cons, List.flatten_nil, List.append_nil, monKerninfo]
  refine (Mon.Shows.print (prints_constant rfl)).bind ?_
  refine (Mon.Shows.print hstart).bind ?_
  refine (Mon.Shows.print (prints_symbol rfl)).bind ?_
  refine (Mon.Shows.print (prints_symbol rfl)).bind ?_
  refine (Mon.Shows.print (prints_symbol rfl)).bind ?_
  refine (Mon.Shows.print (prints_symbol rfl)).bind ?_
  exact Mon.Shows.print hfoot

/-! ### The trap frame -/

/-- A line with a value in hexadecimal. -/
def fieldText (label : String) (k : ℕ) (w : Word) : List Byte :=
  text label ++ zeros k (hex w) ++ text "\n"

theorem prints_field {fmt label : String} {k : ℕ} {w : Word} (hk : k < 2 ^ 31)
    (h : fmtParts (fun i => [w].getD i 0#32) (text fmt) .text [] 0 =
      [.plain (text label), .item (.unsigned (zerosSpec k) (w.setWidth 64) 16),
        .plain (text "\n")]) : Prints m fmt [w] (fieldText label k w) := by
  have hprints := prints_of_parts m h (.cons rfl
    (.cons (FmtPart.prints_zeros (zerosSpec_pads hk) w) (.cons rfl .nil)))
  simpa only [List.flatten_cons, List.flatten_nil, List.append_nil, List.append_assoc, fieldText]
    using hprints

/-- A line with a word in hexadecimal. -/
theorem prints_word {fmt label : String} {w : Word}
    (h : fmtParts (fun i => [w].getD i 0#32) (text fmt) .text [] 0 =
      [.plain (text label), .item (.unsigned (zerosSpec 8) (w.setWidth 64) 16),
        .plain (text "\n")]) : Prints m fmt [w] (fieldText label 8 w) :=
  prints_field (by decide) h

/-- The registers that `pusha` saves. -/
def regsText (regs : PushRegs) : List Byte :=
  [fieldText "  edi  0x" 8 regs.regEdi, fieldText "  esi  0x" 8 regs.regEsi,
    fieldText "  ebp  0x" 8 regs.regEbp, fieldText "  oesp 0x" 8 regs.regOesp,
    fieldText "  ebx  0x" 8 regs.regEbx, fieldText "  edx  0x" 8 regs.regEdx,
    fieldText "  ecx  0x" 8 regs.regEcx, fieldText "  eax  0x" 8 regs.regEax].flatten

theorem printRegs_shows (m : Memory) (regs : PushRegs) :
    Mon.Shows (printRegs m regs) () (regsText regs) := by
  simp only [regsText, List.flatten_cons, List.flatten_nil, List.append_nil, printRegs]
  refine (Mon.Shows.print (prints_word rfl)).bind ?_
  refine (Mon.Shows.print (prints_word rfl)).bind ?_
  refine (Mon.Shows.print (prints_word rfl)).bind ?_
  refine (Mon.Shows.print (prints_word rfl)).bind ?_
  refine (Mon.Shows.print (prints_word rfl)).bind ?_
  refine (Mon.Shows.print (prints_word rfl)).bind ?_
  refine (Mon.Shows.print (prints_word rfl)).bind ?_
  exact Mon.Shows.print (prints_word rfl)

/-- What the error code of a page fault says. -/
def errorText (tf : Trapframe) : List Byte :=
  if tf.tfTrapno = tPgflt then
    text " [" ++ (if tf.tfErr &&& 4#32 ≠ 0#32 then text "user" else text "kernel") ++ text ", " ++
      (if tf.tfErr &&& 2#32 ≠ 0#32 then text "write" else text "read") ++ text ", " ++
      (if tf.tfErr &&& 1#32 ≠ 0#32 then text "protection" else text "not-present") ++ text "]\n"
  else text "\n"

/-- What `print_trapframe` prints. -/
def trapframeText (place : TrapPlace) (tf : Trapframe) : List Byte :=
  [text "TRAP frame at " ++ (text "0x" ++ hex place.tf) ++ text " from CPU " ++
      decimal place.cpunum.toInt ++ text "\n",
    regsText tf.tfRegs, fieldText "  es   0x----" 4 (tf.tfEs.setWidth 32),
    fieldText "  ds   0x----" 4 (tf.tfDs.setWidth 32),
    text "  trap 0x" ++ zeros 8 (hex tf.tfTrapno) ++ text " " ++ trapname tf.tfTrapno ++ text "\n",
    if place.tf = place.lastTf ∧ tf.tfTrapno = tPgflt then
      fieldText "  cr2  0x" 8 place.cr2 else [],
    text "  err  0x" ++ zeros 8 (hex tf.tfErr), errorText tf, fieldText "  eip  0x" 8 tf.tfEip,
    fieldText "  cs   0x----" 4 (tf.tfCs.setWidth 32),
    fieldText "  flag 0x" 8 tf.tfEflags,
    if tf.tfCs &&& 3#16 ≠ 0#16 then
      fieldText "  esp  0x" 8 tf.tfEsp ++ fieldText "  ss   0x----" 4 (tf.tfSs.setWidth 32)
    else []].flatten

theorem Mon.Shows.when {c : Prop} [Decidable c] {x : Mon Unit} {out : List Byte}
    (h : Mon.Shows x () out) : Mon.Shows (Mon.when c x) () (if c then out else []) := by
  by_cases hc : c
  · rw [Mon.when, if_pos hc, if_pos hc]
    exact h
  · rw [Mon.when, if_neg hc, if_neg hc]
    exact .pure ()

theorem trapLiterals_length : ∀ s ∈ trapLiterals, s.length < 2 ^ 31 := by
  decide +kernel

theorem trapname_mem (trapno : Word) : trapname trapno ∈ trapLiterals := by
  rw [trapname]
  split_ifs with hexc
  · have hlt : trapno.toNat < excnames.length := hexc
    rw [List.getD_eq_getElem _ _ hlt]
    exact List.mem_append_left _ (List.getElem_mem hlt)
  all_goals simp [trapLiterals]

theorem printErrorCode_shows (h : Literals K m trapLiterals) (tf : Trapframe) :
    Mon.Shows (printErrorCode m K.rodata tf) () (errorText tf) := by
  rw [printErrorCode, errorText]
  by_cases hfault : tf.tfTrapno = tPgflt
  · rw [if_pos hfault, if_pos hfault]
    -- each of the three strings is one of two
    have hmem : ∀ (c : Prop) [Decidable c] (s t : List Byte), s ∈ trapLiterals →
        t ∈ trapLiterals → (if c then s else t) ∈ trapLiterals := by
      intro c _ s t hs ht
      split
      · exact hs
      · exact ht
    have hprints : ∀ a b c, a ∈ trapLiterals → b ∈ trapLiterals → c ∈ trapLiterals →
        Prints m " [%s, %s, %s]\n" [K.rodata a, K.rodata b, K.rodata c]
          (text " [" ++ a ++ text ", " ++ b ++ text ", " ++ c ++ text "]\n") := by
      intro a b c ha hb hc
      have hparts : fmtParts (fun i => [K.rodata a, K.rodata b, K.rodata c].getD i 0#32)
          (text " [%s, %s, %s]\n") .text [] 0 =
          [.plain (text " ["), .item (.string {} 0), .plain (text ", "), .item (.string {} 1),
            .plain (text ", "), .item (.string {} 2), .plain (text "]\n")] := rfl
      have hout := prints_of_parts m hparts (.cons rfl
        (.cons (FmtPart.prints_whole (h.standsFor ha) (trapLiterals_length a ha))
        (.cons rfl
        (.cons (FmtPart.prints_whole (h.standsFor hb) (trapLiterals_length b hb))
        (.cons rfl
        (.cons (FmtPart.prints_whole (h.standsFor hc) (trapLiterals_length c hc))
        (.cons rfl .nil)))))))
      simpa only [List.flatten_cons, List.flatten_nil, List.append_nil, List.append_assoc]
        using hout
    exact Mon.Shows.print (hprints _ _ _
      (hmem _ _ _ (by simp [trapLiterals]) (by simp [trapLiterals]))
      (hmem _ _ _ (by simp [trapLiterals]) (by simp [trapLiterals]))
      (hmem _ _ _ (by simp [trapLiterals]) (by simp [trapLiterals])))
  · rw [if_neg hfault, if_neg hfault]
    exact Mon.Shows.print (prints_constant rfl)

theorem printTrapframe_shows (h : Literals K m trapLiterals) (place : TrapPlace) (tf : Trapframe) :
    Mon.Shows (printTrapframe m K.rodata place tf) () (trapframeText place tf) := by
  have hhead : Prints m "TRAP frame at %p from CPU %d\n" [place.tf, place.cpunum]
      (text "TRAP frame at " ++ (text "0x" ++ hex place.tf) ++ text " from CPU " ++
        decimal place.cpunum.toInt ++ text "\n") := by
    have hparts : fmtParts (fun i => [place.tf, place.cpunum].getD i 0#32)
        (text "TRAP frame at %p from CPU %d\n") .text [] 0 =
        [.plain (text "TRAP frame at "), .item (.pointer {} 0), .plain (text " from CPU "),
          .item (.signed {} (place.cpunum.signExtend 64)), .plain (text "\n")] := rfl
    have hout := prints_of_parts m hparts (.cons rfl
      (.cons (FmtPart.prints_pointer (w := place.tf) rfl) (.cons rfl
        (.cons (FmtPart.prints_decimal place.cpunum) (.cons rfl .nil)))))
    simpa only [List.flatten_cons, List.flatten_nil, List.append_nil, List.append_assoc] using hout
  have herr : Prints m "  err  0x%08x" [tf.tfErr] (text "  err  0x" ++ zeros 8 (hex tf.tfErr)) := by
    have hparts : fmtParts (fun i => [tf.tfErr].getD i 0#32) (text "  err  0x%08x") .text [] 0 =
        [.plain (text "  err  0x"),
          .item (.unsigned (zerosSpec 8) (tf.tfErr.setWidth 64) 16)] := rfl
    have hout := prints_of_parts m hparts (.cons rfl
      (.cons (FmtPart.prints_zeros (zerosSpec_pads (by decide)) tf.tfErr) .nil))
    rwa [List.flatten_cons, List.flatten_cons, List.flatten_nil, List.append_nil] at hout
  have htrap : Prints m "  trap 0x%08x %s\n" [tf.tfTrapno, K.rodata (trapname tf.tfTrapno)]
      (text "  trap 0x" ++ zeros 8 (hex tf.tfTrapno) ++ text " " ++ trapname tf.tfTrapno ++
        text "\n") := by
    have hmem := trapname_mem tf.tfTrapno
    have hparts : fmtParts (fun i => [tf.tfTrapno, K.rodata (trapname tf.tfTrapno)].getD i 0#32)
        (text "  trap 0x%08x %s\n") .text [] 0 =
        [.plain (text "  trap 0x"), .item (.unsigned (zerosSpec 8) (tf.tfTrapno.setWidth 64) 16),
          .plain (text " "), .item (.string {} 1), .plain (text "\n")] := rfl
    have hout := prints_of_parts m hparts (.cons rfl
      (.cons (FmtPart.prints_zeros (zerosSpec_pads (by decide)) tf.tfTrapno) (.cons rfl
        (.cons (FmtPart.prints_whole (h.standsFor hmem) (trapLiterals_length _ hmem))
          (.cons rfl .nil)))))
    simpa only [List.flatten_cons, List.flatten_nil, List.append_nil, List.append_assoc]
      using hout
  -- the lines one after the other, two of them under a condition
  simp only [trapframeText, List.flatten_cons, List.flatten_nil, List.append_nil, printTrapframe]
  refine (Mon.Shows.print hhead).bind ?_
  refine (printRegs_shows m tf.tfRegs).bind ?_
  refine (Mon.Shows.print (prints_field (by decide) rfl)).bind ?_
  refine (Mon.Shows.print (prints_field (by decide) rfl)).bind ?_
  refine (Mon.Shows.print htrap).bind ?_
  refine (Mon.Shows.when (Mon.Shows.print (prints_word rfl))).bind ?_
  refine (Mon.Shows.print herr).bind ?_
  refine (printErrorCode_shows h tf).bind ?_
  refine (Mon.Shows.print (prints_word rfl)).bind ?_
  refine (Mon.Shows.print (prints_field (by decide) rfl)).bind ?_
  refine (Mon.Shows.print (prints_word rfl)).bind ?_
  exact Mon.Shows.when ((Mon.Shows.print (prints_word rfl)).bind
    (Mon.Shows.print (prints_field (by decide) rfl)))

end Texts

end Jos
