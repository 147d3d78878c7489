import Jos.Console.LineEdit
import Jos.Console.Responses

/-!
# A session with the monitor

The monitor prints its prompt, takes a line, and answers it; then it does so again. What is on the
console in the end is said here for every sequence of lines, byte for byte: the prompt, what the
keys are echoed as, and the answer (`Exchange.text`). A round leaves nothing behind that the next
one depends on but memory, and what it needs of memory is an assumption about each round
(`Exchange.Ready`): the strings of the kernel are there, and the stack is a chain of frames when it
is to be printed.

No command ever returns a negative number, so that the monitor is not left (`monitor_session`).
-/

namespace Jos

open Logged

/-! ### Reading a line -/

/-- The character that `cprintf` and `readline` put on the console. -/
def FmtEvent.shown? (e : FmtEvent) : Option Byte := e.char?.map (BitVec.setWidth 8)

section Read

variable {m : Memory} {prompt : Word} {p keys typed : List Byte} {e : Byte} {buf : ℕ → Byte}

/-- What is seen of `cputchar` is the characters. -/
theorem echoLog_seen (l : List Byte) : (echoLog l).filterMap FmtEvent.shown? = l := by
  rw [echoLog, List.filterMap_map]
  -- `cputchar` gets a byte as an `int`, and the console shows its lower byte
  refine (List.filterMap_congr fun c _ => ?_).trans List.filterMap_some
  exact congrArg some (BitVec.setWidth_setWidth_of_le c (by decide))

theorem readlinePrompt_yields (hnull : prompt ≠ 0#32) (hstr : StringAt m prompt p)
    (hlen : p.length < 2 ^ 31) : Yields FmtEvent.shown? (readlinePrompt m prompt) () p := by
  -- `cprintf("%s", prompt)`
  have hparts : fmtParts (fun i => [prompt].getD i 0#32) (text "%s") .text [] 0 =
      [.item (.string {} 0)] := rfl
  have hprints := prints_of_parts m hparts
    (.cons (FmtPart.prints_whole (.inr ⟨hnull, hstr⟩) hlen) .nil)
  have hchars := hprints.chars
  rw [Fmt.chars_eq, List.flatten_cons, List.flatten_nil, List.append_nil] at hchars
  refine ⟨readlinePrompt_returns (.inr ⟨p, hstr⟩), ?_⟩
  rw [readlinePrompt, if_pos hnull, log_bind_pure]
  exact hchars

/-- A line is read: the prompt and the echo are seen, and what was typed is in the buffer. -/
theorem readline_shows (buf : ℕ → Byte) (hnull : prompt ≠ 0#32) (hstr : StringAt m prompt p)
    (hlen : p.length < 2 ^ 31) (hkeys : ∀ k ∈ keys, k ≠ chr '\n' ∧ k ≠ chr '\r')
    (he : e = chr '\n' ∨ e = chr '\r') :
    ∃ buf', Mon.Shows (Mon.fmt (readline m prompt ((keys ++ [e]).map (BitVec.setWidth 32)) buf))
        (.returned (some buf')) (p ++ (echoed [] keys ++ text "\n")) ∧
      (∀ i b, (typedLine keys)[i]? = some b → buf' i = b) ∧
      buf' (typedLine keys).length = 0#8 := by
  obtain ⟨buf', hrun, hchar, hnul, -⟩ := readlineRun_line (m := m) buf hkeys he
  refine ⟨buf', Yields.translate ?_ fun _ => rfl, hchar, hnul⟩
  -- the prompt is printed first, and the loop reads and echoes the keys
  refine (readlinePrompt_yields hnull hstr hlen).bind ⟨congrArg result hrun, ?_⟩
  rw [iscons, hrun, echoLog_seen]
  rfl

/-- A line that is not finished. -/
theorem readline_waits (buf : ℕ → Byte) (hnull : prompt ≠ 0#32) (hstr : StringAt m prompt p)
    (hlen : p.length < 2 ^ 31) (hkeys : ∀ k ∈ keys, k ≠ chr '\n' ∧ k ≠ chr '\r') :
    ∃ buf', Mon.Shows (Mon.fmt (readline m prompt (keys.map (BitVec.setWidth 32)) buf))
      (.reading (typedLine keys).length buf') (p ++ echoed [] keys) := by
  have hempty : (List.range ([] : List Byte).length).map buf = [] := rfl
  obtain ⟨buf', hrun, -⟩ := readlineRun_keys (m := m) hkeys hempty
  refine ⟨buf', Yields.translate ?_ fun _ => rfl⟩
  refine (readlinePrompt_yields hnull hstr hlen).bind ⟨congrArg result hrun, ?_⟩
  exact (congrArg (fun x => x.log.filterMap FmtEvent.shown?) hrun).trans (echoLog_seen _)

/-- There is no NUL among the characters of a line. -/
theorem typedLine_nonzero (keys : List Byte) : ∀ b ∈ typedLine keys, b ≠ 0#8 := by
  -- a key takes the last character away, adds one, or does nothing
  induction keys using List.reverseRecOn with
  | nil => exact List.forall_mem_nil _
  | append_singleton keys k ih =>
    have hstep : typedLine (keys ++ [k]) = typeKey (typedLine keys) k := by
      rw [typedLine, List.foldl_append]
      rfl
    rw [hstep, typeKey]
    split_ifs with _ hadd
    · exact fun b hb => ih b (List.mem_of_mem_dropLast hb)
    · rw [List.forall_mem_append, List.forall_mem_singleton]
      refine ⟨ih, ?_⟩
      -- only characters from the space on are added
      rintro rfl
      exact absurd hadd.1 (by decide)
    · exact ih

/-- A line in the buffer is a string in memory. -/
theorem withLine_stringAt (m : Memory) (p : Word) (hlen : typed.length < buflen)
    (hnonzero : ∀ b ∈ typed, b ≠ 0#8) (hchar : ∀ i b, typed[i]? = some b → buf i = b)
    (hnul : buf typed.length = 0#8) : StringAt (withLine m p buf) p typed := by
  -- the line is shorter than the buffer, so all of it and the NUL are inside
  have hat (i : ℕ) (hi : i < buflen) : withLine m p buf (p + BitVec.ofNat 32 i) = some (buf i) := by
    have hoff := toNat_add_ofNat_sub p (hi.trans (by decide))
    rw [withLine, hoff, if_pos hi]
  refine ⟨fun i b hb => ?_, hnonzero, ?_⟩
  · have hi := (List.getElem?_eq_some_iff.mp hb).1
    rw [hat i (hi.trans hlen), hchar i b hb]
  · rw [hat _ hlen, hnul]

end Read

/-! ### A round -/

/-- The keys of a round up to the one that ends the line, what the round finds, and what
`backtrace` would have to print. -/
structure Exchange where
  keys : List Byte
  ending : Byte
  input : RoundInput
  frames : List Frame
  place : Frame → SourcePlace

namespace Exchange

variable (K : KernelImage) (cpu : ℕ)

/-- The words of the line. -/
def words (t : Exchange) : List (List Byte) := tokens (typedLine t.keys)

/-- What a command prints. -/
def answer (t : Exchange) : Option Command → List Byte
  | none => []
  | some .help => helpText
  | some .kerninfo => kerninfoText K
  | some .backtrace => t.frames.flatMap fun f => f.text ++ (t.place f).text

/-- What is on the console after a round. -/
def text (t : Exchange) : List Byte :=
  Jos.text "K> " ++ (echoed [] t.keys ++ Jos.text "\n") ++
    (complaint t.words ++ t.answer K (calledCommand t.words))

/-- What a round finds: the keys that are typed, the strings of the kernel, and the frames on the
stack if they are to be printed. -/
structure Ready (t : Exchange) : Prop where
  input : t.input.keys = (t.keys ++ [t.ending]).map (BitVec.setWidth 32)
  keys : ∀ k ∈ t.keys, k ≠ chr '\n' ∧ k ≠ chr '\r'
  ending : t.ending = chr '\n' ∨ t.ending = chr '\r'
  literals : Literals K (cpuMemory t.input.σ cpu) monitorLiterals
  frames : calledCommand t.words = some .backtrace →
    FramesFrom (cpuMemory t.input.σ cpu) t.input.ebp t.frames 0#32 ∧
    ∀ f ∈ t.frames, ∃ r, Described K.B K.linked cpu K.rodata t.input.σ f.eip r (t.place f)

end Exchange

section Session

variable {K : KernelImage} {cpu : ℕ} {t : Exchange} {m : Memory}

/-- A command prints its answer, and returns 0. -/
theorem callCommand_shows (h : t.Ready K cpu) (hm : Literals K m monitorLiterals) {c : Command}
    (hc : calledCommand t.words = some c) :
    Mon.Shows (callCommand K cpu t.input m c) 0#32 (t.answer K (some c)) := by
  cases c with
  | help => exact (monHelp_shows hm).bind_pure fun _ => 0#32
  | kerninfo => exact (monKerninfo_shows m K).bind_pure fun _ => 0#32
  | backtrace =>
    -- `backtrace` is the one that needs the stack to be as it is said to be
    obtain ⟨hfs, hp⟩ := h.frames hc
    obtain ⟨w, hloop⟩ := backtraceLoop_shows hfs hp hfs.length_lt t.input.σ.userMemCheckAddr
    rw [setCheckAddr_self] at hloop
    exact hloop.bind_pure fun _ => 0#32

/-- The line is run. -/
theorem runLine_shows (h : t.Ready K cpu) (hm : Literals K m monitorLiterals)
    (hline : StringAt m K.line (typedLine t.keys)) :
    Mon.Shows (runLine K cpu t.input m) 0#32
      (complaint t.words ++ t.answer K (calledCommand t.words)) := by
  have hlen := typedLine_length_le t.keys
  have hfits := K.line_fits
  have hbuflen : buflen = 1024 := rfl
  obtain ⟨o, hrun, hnone, hsome⟩ :=
    runcmd_yields hline (by omega) K.line_pos (by omega) t.input.argv
  have hrun : Mon.Shows ((runcmd m t.input.argv K.line).translate .cmd .fmt) o
      (complaint t.words) := hrun.translate fun _ => rfl
  rw [runLine]
  -- without a command `runcmd` returns 0 and has said all there is to say
  cases hcalled : calledCommand t.words with
  | none =>
    obtain rfl := hnone hcalled
    exact hrun.bind (.pure _)
  | some c =>
    obtain ⟨p, rfl, hpm⟩ := hsome c hcalled
    -- `runcmd` has written to the line only
    have hframe : ∀ a, buflen ≤ (a - K.line).toNat → p.m a = m a := by
      intro a ha
      rw [hpm, scanned]
      refine stored_outside m fun i hi hia => ?_
      rw [List.length_map, List.length_take] at hi
      rw [hia, toNat_add_ofNat_sub _ (by omega)] at ha
      omega
    exact hrun.bind (callCommand_shows h (hm.frame hframe) hcalled)

theorem KernelImage.memory_literals {σ : State} {l : List (List Byte)}
    (h : Literals K (cpuMemory σ cpu) l) (buf : ℕ → Byte) : Literals K (K.memory cpu σ buf) l :=
  h.frame fun _ ha => if_neg (not_lt.mpr ha)

/-- The prompt is among the strings of the monitor. -/
theorem Literals.prompt (h : Literals K m monitorLiterals) : K.rodata (text "K> ") ≠ 0#32 ∧
    StringAt m (K.rodata (text "K> ")) (text "K> ") :=
  ⟨h.nonnull _ List.mem_cons_self, h.stored _ List.mem_cons_self⟩

/-- A round of the loop. -/
theorem monitorRound_shows (h : t.Ready K cpu) :
    Mon.Shows (monitorRound K cpu t.input) .prompting (t.text K) := by
  -- the strings are outside the buffer, so they are there whatever is in it
  obtain ⟨hnull, hprompt⟩ := (KernelImage.memory_literals h.literals t.input.buf).prompt
  obtain ⟨buf', hread, hchar, hnul⟩ :=
    readline_shows t.input.buf hnull hprompt (by decide) h.keys h.ending
  rw [← h.input] at hread
  have hline : StringAt (K.memory cpu t.input.σ buf') K.line (typedLine t.keys) :=
    withLine_stringAt _ _ (Nat.lt_succ_of_le (typedLine_length_le t.keys))
      (typedLine_nonzero t.keys) hchar hnul
  have hrun := runLine_shows h (KernelImage.memory_literals h.literals buf') hline
  rw [monitorRound]
  -- `runcmd` has returned 0, which is not negative
  exact hread.bind
    (hrun.bind_pure fun v => if v.slt 0#32 then MonitorState.left else MonitorState.prompting)

/-- The last one, in which the line is not finished. -/
theorem monitorRound_waits {r : RoundInput} {keys : List Byte}
    (hinput : r.keys = keys.map (BitVec.setWidth 32))
    (hkeys : ∀ k ∈ keys, k ≠ chr '\n' ∧ k ≠ chr '\r')
    (h : Literals K (cpuMemory r.σ cpu) monitorLiterals) :
    Mon.Shows (monitorRound K cpu r) .reading (text "K> " ++ echoed [] keys) := by
  obtain ⟨hnull, hprompt⟩ := (KernelImage.memory_literals h r.buf).prompt
  obtain ⟨buf', hread⟩ := readline_waits r.buf hnull hprompt (by decide) hkeys
  rw [← hinput] at hread
  -- `readline` has not returned, and nothing comes after the echo
  have hround : Mon.Shows (monitorRound K cpu r) .reading
      (text "K> " ++ echoed [] keys ++ []) := hread.bind (.pure MonitorState.reading)
  rwa [List.append_nil] at hround

/-- The loop: what one round has printed is followed by what the next one prints. -/
theorem monitorLoop_shows {ts : List Exchange} (h : ∀ t ∈ ts, t.Ready K cpu)
    {rs : List RoundInput} {s : MonitorState} {out : List Byte}
    (hrest : Mon.Shows (monitorLoop K cpu rs) s out) :
    Mon.Shows (monitorLoop K cpu (ts.map Exchange.input ++ rs)) s
      (ts.flatMap (Exchange.text K) ++ out) := by
  -- a round ends with the prompt of the next one, whatever the line was
  induction ts with
  | nil => exact hrest
  | cons t ts ih =>
    obtain ⟨ht, hts⟩ := List.forall_mem_cons.mp h
    rw [List.map_cons, List.cons_append, monitorLoop, List.flatMap_cons, List.append_assoc]
    exact (monitorRound_shows ht).bind (ih hts)

/-- What the monitor prints when it is entered. -/
def welcome (tf : Option (TrapPlace × Trapframe)) : List Byte :=
  text "Welcome to the JOS kernel monitor!\n" ++ (text "Type 'help' for a list of commands.\n" ++
    tf.elim [] fun x => trapframeText x.1 x.2)

/-- Each line that is typed in the monitor is echoed and answered, and the next one is awaited. -/
theorem monitor_session {tf : Option (TrapPlace × Trapframe)}
    (hm : tf.isSome → Literals K m trapLiterals) {ts : List Exchange}
    (h : ∀ t ∈ ts, t.Ready K cpu) :
    Mon.Shows (monitor K cpu m tf (ts.map Exchange.input)) .prompting
      (welcome tf ++ ts.flatMap (Exchange.text K)) ∧
    ∀ (r : RoundInput) (keys : List Byte), r.keys = keys.map (BitVec.setWidth 32) →
      (∀ k ∈ keys, k ≠ chr '\n' ∧ k ≠ chr '\r') →
      Literals K (cpuMemory r.σ cpu) monitorLiterals →
      Mon.Shows (monitor K cpu m tf (ts.map Exchange.input ++ [r])) .reading
        (welcome tf ++ (ts.flatMap (Exchange.text K) ++ (text "K> " ++ echoed [] keys))) := by
  have henter {rs : List RoundInput} {s : MonitorState} {out : List Byte}
      (hloop : Mon.Shows (monitorLoop K cpu rs) s out) :
      Mon.Shows (monitor K cpu m tf rs) s (welcome tf ++ out) := by
    -- without a frame nothing is printed about it
    have htf : Mon.Shows (printTf m K.rodata tf) ()
        (tf.elim [] fun x => trapframeText x.1 x.2) := by
      cases tf with
      | none => exact .pure ()
      | some x => exact printTrapframe_shows (hm rfl) x.1 x.2
    rw [monitor, welcome, List.append_assoc, List.append_assoc]
    refine (Mon.Shows.print (prints_constant rfl)).bind ?_
    refine (Mon.Shows.print (prints_constant rfl)).bind ?_
    exact htf.bind hloop
  constructor
  · have hloop : Mon.Shows (monitorLoop K cpu (ts.map Exchange.input ++ [])) .prompting
        (ts.flatMap (Exchange.text K) ++ []) :=
      monitorLoop_shows h (.pure MonitorState.prompting)
    rw [List.append_nil, List.append_nil] at hloop
    exact henter hloop
  · intro r keys hkeys hchars hlit
    -- the last line is not finished, after the ones that are
    have hlast : Mon.Shows (monitorLoop K cpu [r]) .reading
        (text "K> " ++ echoed [] keys ++ []) :=
      (monitorRound_waits hkeys hchars hlit).bind (.pure MonitorState.reading)
    rw [List.append_nil] at hlast
    exact henter (monitorLoop_shows h hlast)

end Session

/-! ### The strings one after the other -/

/-- The strings with their NULs. -/
def pool (l : List (List Byte)) : List Byte := l.flatMap (· ++ [0#8])

/-- Where the first `s` begins. -/
def poolOffset (l : List (List Byte)) (s : List Byte) : ℕ := (pool (l.takeWhile (· ≠ s))).length

theorem pool_split {l : List (List Byte)} {s : List Byte} (hs : s ∈ l) :
    ∃ before after, pool l = before ++ (s ++ 0#8 :: after) ∧ before.length = poolOffset l s := by
  induction l with
  | nil => cases hs
  | cons x l ih =>
    -- the string is the first one, or behind it
    by_cases hx : x = s
    · subst hx
      refine ⟨[], pool l, ?_, ?_⟩
      · rw [pool, List.flatMap_cons, List.append_assoc]
        rfl
      · rw [poolOffset, List.takeWhile_cons_of_neg (by simp)]
        rfl
    · obtain ⟨before, after, hpool, hlen⟩ := ih ((List.mem_cons.mp hs).resolve_left (Ne.symm hx))
      refine ⟨x ++ [0#8] ++ before, after, ?_, ?_⟩
      · rw [pool, List.flatMap_cons, ← pool, hpool, ← List.append_assoc]
      · rw [poolOffset, List.takeWhile_cons_of_pos (by simpa using hx), pool, List.flatMap_cons,
          ← pool]
        simp only [List.length_append, hlen, poolOffset]

theorem poolOffset_lt {l : List (List Byte)} {s : List Byte} (hs : s ∈ l) :
    poolOffset l s + s.length < (pool l).length := by
  obtain ⟨before, after, hpool, hlen⟩ := pool_split hs
  rw [hpool, List.length_append, List.length_append, List.length_cons, hlen]
  omega

/-- A string of the pool is in memory where the pool is. -/
theorem pool_stringAt {m : Memory} {base : Word} {l : List (List Byte)}
    (hm : ∀ i b, (pool l)[i]? = some b → m (base + BitVec.ofNat 32 i) = some b)
    {s : List Byte} (hs : s ∈ l) (hnonzero : ∀ b ∈ s, b ≠ 0#8) :
    StringAt m (base + BitVec.ofNat 32 (poolOffset l s)) s := by
  obtain ⟨before, after, hpool, hlen⟩ := pool_split hs
  -- the bytes of the string and the NUL behind it, counted from where it begins
  have hat (i : ℕ) (b : Byte) (hb : (s ++ 0#8 :: after)[i]? = some b) :
      m (base + BitVec.ofNat 32 (poolOffset l s) + BitVec.ofNat 32 i) = some b := by
    rw [BitVec.add_assoc, ← BitVec.ofNat_add]
    refine hm _ b ?_
    rw [hpool, ← hlen, List.getElem?_append_right (Nat.le_add_right _ _), Nat.add_sub_cancel_left]
    exact hb
  refine ⟨fun i b hb => hat i b ?_, hnonzero, hat _ _ ?_⟩
  · rw [List.getElem?_append_left (List.getElem?_eq_some_iff.mp hb).1]
    exact hb
  · rw [List.getElem?_append_right le_rfl, Nat.sub_self]
    rfl

/-! ### An example -/

/-- The word `i` of a page that begins with these bytes. -/
def packed (l : List Byte) (i : ℕ) : Word :=
  l.getD (4 * i + 3) 0#8 ++ l.getD (4 * i + 2) 0#8 ++ l.getD (4 * i + 1) 0#8 ++ l.getD (4 * i) 0#8

/-- The bytes of a word that is put together from them. -/
theorem byteOf_append (a b c d : Byte) :
    byteOf (a ++ b ++ c ++ d) 0 = d ∧ byteOf (a ++ b ++ c ++ d) 1 = c ∧
      byteOf (a ++ b ++ c ++ d) 2 = b ∧ byteOf (a ++ b ++ c ++ d) 3 = a := by
  refine ⟨?_, ?_, ?_, ?_⟩
  -- bit by bit: which of the four bytes the bit comes from
  all_goals
    apply BitVec.eq_of_getLsbD_eq
    intro i hi
    simp only [byteOf, BitVec.getLsbD_setWidth, BitVec.getLsbD_ushiftRight, BitVec.getLsbD_append,
      hi, decide_true, Bool.true_and]
  · rw [if_pos (by omega), Nat.mul_zero, Nat.zero_add]
  · rw [if_neg (by omega), if_pos (by omega), Nat.mul_one, Nat.add_sub_cancel_left]
  · rw [if_neg (by omega), if_neg (by omega), if_pos (by omega)]
    congr 1
    omega
  · rw [if_neg (by omega), if_neg (by omega), if_neg (by omega)]
    congr 1
    omega

theorem byteOf_packed (l : List Byte) (i : ℕ) {k : ℕ} (hk : k < 4) :
    byteOf (packed l i) k = l.getD (4 * i + k) 0#8 := by
  obtain ⟨h0, h1, h2, h3⟩ := byteOf_append (l.getD (4 * i + 3) 0#8) (l.getD (4 * i + 2) 0#8)
    (l.getD (4 * i + 1) 0#8) (l.getD (4 * i) 0#8)
  obtain rfl | rfl | rfl | rfl : k = 0 ∨ k = 1 ∨ k = 2 ∨ k = 3 := by omega
  · exact h0
  · exact h1
  · exact h2
  · exact h3

/-- All strings of the monitor and of `print_trapframe`. -/
def sessionStrings : List (List Byte) := monitorLiterals ++ trapLiterals

/-- The kernel of the example, with its strings in the page at `0xF0111000`. -/
def sessionKernel : KernelImage where
  B := smallMachine
  linked := sixStabData
  rodata s := 0xF0111000#32 + BitVec.ofNat 32 (poolOffset sessionStrings s)
  line := 0xF0120000#32
  start := 0x0010000C#32
  entry := 0xF010000C#32
  etext := 0xF0105000#32
  edata := 0xF0110000#32
  ending := 0xF0130000#32
  high := by decide
  ordered := by decide
  line_pos := by decide
  line_fits := by decide

/-- The stack of `callState`, and the strings. -/
def sessionState : State :=
  { callState with
    mem := fun f i =>
      if f = 513 ∧ i = 0x111 then 0x203003#32
      else if f = 515 then packed (pool sessionStrings) i
      else callState.mem f i }

theorem sessionAddress_toNat {i : ℕ} (hi : i < 4096) :
    (0xF0111000#32 + BitVec.ofNat 32 i).toNat = 0xF0111000 + i := by
  rw [BitVec.toNat_add, BitVec.toNat_ofNat, BitVec.toNat_ofNat]
  omega

/-- The page with the strings is mapped. -/
theorem sessionState_page {i : ℕ} (hi : i < 4096) :
    cpuMemory sessionState 0 (0xF0111000#32 + BitVec.ofNat 32 i) =
      some (byteOf (packed (pool sessionStrings) (i / 4)) (i % 4)) := by
  have haddr := sessionAddress_toNat hi
  generalize 0xF0111000#32 + BitVec.ofNat 32 i = a at haddr
  -- the entry `0x111` of the page table for `KERNBASE`
  have hpdx : pdx a = 0x3C0 := Fin.ext (by rw [pdx_val, haddr]; change _ = 960; omega)
  have hptx : ptx a = 0x111 := Fin.ext (by rw [ptx_val, haddr]; change _ = 273; omega)
  have hoff : pgoff a = i := by rw [pgoff_eq, haddr]; omega
  have hwalk : x86Walk sessionState (pgnum (sessionState.cpus 0).cr3) 0x3C0 0x111 =
      some (3#12, 3#12, 515) := rfl
  have hword : (Fin.ofNat 1024 (i / 4)).val = i / 4 := Nat.mod_eq_of_lt (by omega)
  have hmem (j : Fin 1024) : sessionState.mem 515 j = packed (pool sessionStrings) j := rfl
  rw [cpuMemory, hpdx, hptx, hwalk, hoff, Option.map_some, hmem, hword]

theorem sessionPool_length : (pool sessionStrings).length < 4096 := by decide +kernel

theorem sessionState_pool (i : ℕ) (b : Byte) (hb : (pool sessionStrings)[i]? = some b) :
    cpuMemory sessionState 0 (0xF0111000#32 + BitVec.ofNat 32 i) = some b := by
  have hi := (List.getElem?_eq_some_iff.mp hb).1
  rw [sessionState_page (hi.trans sessionPool_length), byteOf_packed _ _ (Nat.mod_lt _ (by decide)),
    Nat.div_add_mod, List.getD_eq_getElem?_getD, hb]
  rfl

theorem sessionState_literals {l : List (List Byte)} (hl : l ⊆ sessionStrings) :
    Literals sessionKernel (cpuMemory sessionState 0) l := by
  have hall : sessionStrings.all fun s => s.all (· ≠ 0#8) := by decide +kernel
  have hnonzero (s : List Byte) (hs : s ∈ l) (b : Byte) (hb : b ∈ s) : b ≠ 0#8 :=
    of_decide_eq_true (List.all_eq_true.mp (List.all_eq_true.mp hall s (hl hs)) b hb)
  have hlt (s : List Byte) (hs : s ∈ l) : poolOffset sessionStrings s + s.length < 4096 :=
    (poolOffset_lt (hl hs)).trans sessionPool_length
  -- no pointer is null, because the page is not at 0
  refine ⟨fun s hs hzero => ?_, fun s hs => ?_, fun s hs i hi => ?_⟩
  · have hlt := hlt s hs
    have haddr := sessionAddress_toNat (show poolOffset sessionStrings s < 4096 by omega)
    rw [show 0xF0111000#32 + BitVec.ofNat 32 (poolOffset sessionStrings s) = 0#32 from hzero,
      BitVec.toNat_zero] at haddr
    omega
  · exact pool_stringAt sessionState_pool (hl hs) (hnonzero s hs)
  · -- the buffer is behind the page
    have hlt := hlt s hs
    have haddr := sessionAddress_toNat (show poolOffset sessionStrings s + i < 4096 by omega)
    rw [BitVec.ofNat_add, ← BitVec.add_assoc] at haddr
    have hline : sessionKernel.line.toNat = 0xF0120000 := rfl
    have hbuflen : buflen = 1024 := rfl
    change buflen ≤ (0xF0111000#32 + BitVec.ofNat 32 (poolOffset sessionStrings s) +
      BitVec.ofNat 32 i - sessionKernel.line).toNat
    rw [BitVec.toNat_sub, haddr, hline]
    omega

theorem sessionState_frames :
    FramesFrom (cpuMemory sessionState 0) 0xF0110080#32 [oneFrame] 0#32 := by
  refine ⟨rfl, ⟨by decide, rfl, by decide +kernel, fun i hi => ?_⟩, rfl⟩
  obtain rfl | rfl | rfl | rfl | rfl : i = 0 ∨ i = 1 ∨ i = 2 ∨ i = 3 ∨ i = 4 := by omega
  all_goals decide +kernel

theorem sessionState_name : StandsFor (cpuMemory sessionState 0) 0xF0110049#32 (text "f") := by
  refine .inr ⟨by decide, fun i b hb => ?_, by decide, by decide +kernel⟩
  obtain rfl : i = 0 := by
    have hi := (List.getElem?_eq_some_iff.mp hb).1
    exact Nat.lt_one_iff.mp hi
  obtain rfl := Option.some.inj hb
  decide +kernel

theorem sessionState_described : Described smallMachine sixStabData 0 sessionKernel.rodata
    sessionState 0xF0100002#32 0 placeOfCall := by
  refine ⟨⟨⟨.arg 0xF0110049#32, 5#32, .arg 0xF0110049#32, 1#32, 0xF0100000#32, 0#32⟩,
    sessionState, text "f", ?_, sessionState_name, by decide, sessionState_name, by decide, rfl,
    rfl, rfl⟩⟩
  rfl

/-- A user program has hit a breakpoint. -/
def sessionTf : Trapframe :=
  { tfTrapno := 3#32, tfEip := 0x800021#32, tfCs := 0x1B#16, tfEsp := 0xEEBFDFD0#32,
    tfSs := 0x23#16 }

def sessionPlace : TrapPlace := ⟨0xF01BE000#32, 0xF01BE000#32, 0#32, 0#32⟩

/-- What a round of the example finds. -/
def sessionInput (keys : List Byte) : RoundInput where
  keys := (keys ++ [chr '\n']).map (BitVec.setWidth 32)
  σ := sessionState
  buf _ := 0xFF#8
  argv _ := 0#32
  ebp := 0xF0110080#32

def sessionExchange (keys : List Byte) : Exchange where
  keys := keys
  ending := chr '\n'
  input := sessionInput keys
  frames := [oneFrame]
  place _ := placeOfCall

theorem sessionExchange_ready {keys : List Byte}
    (hkeys : ∀ k ∈ keys, k ≠ chr '\n' ∧ k ≠ chr '\r') :
    (sessionExchange keys).Ready sessionKernel 0 where
  input := rfl
  keys := hkeys
  ending := .inl rfl
  literals := sessionState_literals (List.subset_append_left _ _)
  frames _ := by
    refine ⟨sessionState_frames, List.forall_mem_singleton.mpr ⟨0, sessionState_described⟩⟩

/-- A mistake that is corrected, a command that walks the stack, and one that there is not. -/
theorem monitor_session_breakpoint :
    Mon.Shows (monitor sessionKernel 0 (cpuMemory sessionState 0)
        (some (sessionPlace, sessionTf))
        [sessionInput (text "helo" ++ [0x08#8] ++ text "p"), sessionInput (text "backtrace"),
          sessionInput (text "reboot now")]) .prompting
      (text "Welcome to the JOS kernel monitor!\nType 'help' for a list of commands.\n" ++
        trapframeText sessionPlace sessionTf ++
        text "K> helo" ++ [0x08#8] ++ text "p\nhelp - Display this list of commands\n" ++
        text "kerninfo - Display information about the kernel\n" ++
        text "backtrace - Display backtrace info\nK> backtrace\n" ++
        text "ebp f0110080 eip f0100002 args 00000001  00000002  00000003  00000004  00000005 \n" ++
        text "\tf:5: f+2\nK> reboot now\nUnknown command 'reboot'\n") := by
  -- each of the three lines is an exchange, and what they print is computed
  have hready : ∀ t ∈ [sessionExchange (text "helo" ++ [0x08#8] ++ text "p"),
      sessionExchange (text "backtrace"), sessionExchange (text "reboot now")],
      t.Ready sessionKernel 0 := by
    simp only [List.forall_mem_cons]
    exact ⟨sessionExchange_ready (by decide), sessionExchange_ready (by decide),
      sessionExchange_ready (by decide), List.forall_mem_nil _⟩
  have hshows : Mon.Shows (monitor sessionKernel 0 (cpuMemory sessionState 0)
      (some (sessionPlace, sessionTf)) _) .prompting _ :=
    (monitor_session (fun _ => sessionState_literals (List.subset_append_right _ _)) hready).1
  refine ⟨hshows.returns, hshows.seen.trans ?_⟩
  decide +kernel

end Jos
