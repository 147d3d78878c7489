import Jos.Console.Format
import Jos.Lib.Readline

/-!
# Editing a line

`readline` takes a backspace or a delete for the removal of the last character only if there
is one. On an empty line a backspace falls through all of its tests. A delete does not: its
code is above that of the blank, so it is taken for a character and stored. From then on the
line has a delete in front of what is typed, until the line has been erased altogether and
once more (`LineState`). `readline_edits_iff` says that the line is what it should be exactly
if no such delete is left at the end. The line that is returned, whichever it is, is always
what the echoed characters show, and never longer than the buffer.
-/

namespace Jos

/-! ### What is asked of it -/

/-- A key that removes the last character. -/
def IsErase (k : Byte) : Prop := k = 0x08#8 ∨ k = 0x7F#8

instance (k : Byte) : Decidable (IsErase k) := inferInstanceAs (Decidable (_ ∨ _))

/-- What a key should do to the line. -/
def editKey (line : List Byte) (k : Byte) : List Byte :=
  if IsErase k then line.dropLast
  else if chr ' ' ≤ k ∧ line.length < 1023 then line ++ [k]
  else line

/-- What the keys should leave. -/
def editedLine (keys : List Byte) : List Byte := keys.foldl editKey []

/-- A terminal on which a backspace erases the last character: what its line shows after one
more character. -/
def replayChar (line : List Byte) (c : Word) : List Byte :=
  if c = 0x08#32 then line.dropLast else if c = 0x0A#32 then line else line ++ [c.setWidth 8]

/-- The buffer holds a string. -/
structure BufHolds (buf : ℕ → Byte) (s : List Byte) : Prop where
  char : ∀ i b, s[i]? = some b → buf i = b
  nonzero : ∀ b ∈ s, b ≠ 0#8
  nul : buf s.length = 0#8

/-- `readline` edits: for the keys and then `e` it returns the edited line, which is what it
has echoed after its prompt, and its index stays in the buffer. -/
structure Edits (m : Memory) (prompt : Word) (buf : ℕ → Byte) (keys : List Byte) (e : Byte) :
    Prop where
  returns : ∃ buf',
    (readline m prompt ((keys ++ [e]).map (BitVec.setWidth 32)) buf).result =
      .ok (.returned (some buf')) ∧ BufHolds buf' (editedLine keys)
  index : ∀ ks, ks <+: keys → ∃ i buf',
    (readlineRun m (iscons 0) (ks.map (BitVec.setWidth 32)) (.reading 0 buf)).result =
      .ok (.reading i buf') ∧ i ≤ 1023
  echoed : ∃ l,
    (readline m prompt ((keys ++ [e]).map (BitVec.setWidth 32)) buf).log =
      (readlinePrompt m prompt).log ++ l ∧ (putchars l).foldl replayChar [] = editedLine keys

/-! ### What it does -/

/-- What a key does to the line: an empty line has nothing to erase, and then a delete is a
character like any other. -/
def typeKey (line : List Byte) (k : Byte) : List Byte :=
  if IsErase k ∧ line ≠ [] then line.dropLast
  else if chr ' ' ≤ k ∧ line.length < 1023 then line ++ [k]
  else line

/-- What the keys leave. -/
def typedLine (keys : List Byte) : List Byte := keys.foldl typeKey []

theorem typeKey_length_le {line : List Byte} (h : line.length ≤ 1023) (k : Byte) :
    (typeKey line k).length ≤ 1023 := by
  unfold typeKey
  split_ifs with _ happend
  · rw [List.length_dropLast]
    omega
  · rw [List.length_append]
    exact happend.2
  · exact h

theorem typedLine_length_le (keys : List Byte) : (typedLine keys).length ≤ 1023 := by
  induction keys using List.reverseRecOn with
  | nil => exact Nat.zero_le _
  | append_singleton keys k ih =>
    rw [typedLine, List.foldl_append]
    exact typeKey_length_le ih k

/-- What a key is answered with. -/
def echoKey (line : List Byte) (k : Byte) : List Byte :=
  if IsErase k ∧ line ≠ [] then [0x08#8]
  else if chr ' ' ≤ k ∧ line.length < 1023 then [k]
  else []

/-- What the keys are answered with. -/
def echoed : List Byte → List Byte → List Byte
  | _, [] => []
  | line, k :: keys => echoKey line k ++ echoed (typeKey line k) keys

/-- The log of `cputchar` for these characters. -/
def echoLog (l : List Byte) : List FmtEvent := l.map fun c => .putch (c.setWidth 32)

/-- A character is compared with the constants as it is returned by `getchar`. -/
theorem key_toWord (k : Byte) :
    (k.setWidth 32).slt 0#32 = false ∧
      (k.setWidth 32 = 0x08#32 ↔ k = 0x08#8) ∧ (k.setWidth 32 = 0x7F#32 ↔ k = 0x7F#8) ∧
      (k.setWidth 32 = 0x0A#32 ↔ k = chr '\n') ∧ (k.setWidth 32 = 0x0D#32 ↔ k = chr '\r') ∧
      (¬(k.setWidth 32).slt 0x20#32 ↔ chr ' ' ≤ k) ∧ (k.setWidth 32).setWidth 8 = k := by
  revert k
  decide +kernel

section Step

variable {m : Memory} {buf : ℕ → Byte} {line : List Byte} {k : Byte}

/-- One more character in the buffer. -/
theorem range_map_update (hbuf : (List.range line.length).map buf = line) (k : Byte) :
    (List.range (line.length + 1)).map (Function.update buf line.length k) = line ++ [k] := by
  have hold : (List.range line.length).map (Function.update buf line.length k) = line := by
    rw [← hbuf, List.length_map, List.length_range]
    apply List.map_congr_left
    intro i hi
    exact Function.update_of_ne (List.mem_range.mp hi).ne _ _
  rw [List.range_succ, List.map_append, hold, List.map_singleton, Function.update_self]

theorem range_map_dropLast (hbuf : (List.range line.length).map buf = line) :
    (List.range (line.length - 1)).map buf = line.dropLast := by
  conv_rhs => rw [← hbuf]
  rw [← List.map_dropLast, List.dropLast_eq_take, List.length_range, List.take_range,
    Nat.min_eq_left (Nat.sub_le _ _)]

/-- The step at a key that does not end the line. -/
theorem readlineStep_key (hk : k ≠ chr '\n' ∧ k ≠ chr '\r')
    (hbuf : (List.range line.length).map buf = line) :
    ∃ buf', readlineStep m true (k.setWidth 32) line.length buf =
        ⟨echoLog (echoKey line k), .ok (.reading (typeKey line k).length buf')⟩ ∧
      (List.range (typeKey line k).length).map buf' = typeKey line k ∧
      (putchars (echoLog (echoKey line k))).foldl replayChar line = typeKey line k := by
  obtain ⟨hneg, hbs, hdel, hlf, hcr, hblank, hbyte⟩ := key_toWord k
  have hback : ((k.setWidth 32 = 0x08#32 ∨ k.setWidth 32 = 0x7F#32) ∧ 0 < line.length) ↔
      IsErase k ∧ line ≠ [] := by
    rw [hbs, hdel, List.length_pos_iff]
    rfl
  have happend : (¬(k.setWidth 32).slt 0x20#32 ∧ line.length < buflen - 1) ↔
      chr ' ' ≤ k ∧ line.length < 1023 := by
    rw [hblank]
    rfl
  have hend : ¬(k.setWidth 32 = 0x0A#32 ∨ k.setWidth 32 = 0x0D#32) := by
    rw [hlf, hcr]
    exact not_or.mpr hk
  simp only [readlineStep, hneg, Bool.false_eq_true, if_false, hback, happend, if_neg hend]
  by_cases herase : IsErase k ∧ line ≠ []
  · have hline : typeKey line k = line.dropLast := if_pos herase
    rw [if_pos herase, echoKey, if_pos herase, hline, List.length_dropLast]
    exact ⟨buf, rfl, range_map_dropLast hbuf, rfl⟩
  rw [if_neg herase, echoKey, if_neg herase]
  by_cases hadd : chr ' ' ≤ k ∧ line.length < 1023
  · -- the character is shown as it is: it is neither a backspace nor a newline
    have hline : typeKey line k = line ++ [k] := by
      rw [typeKey, if_neg herase, if_pos hadd]
    have hshown : replayChar line (k.setWidth 32) = line ++ [k] := by
      have hnot : ¬k.setWidth 32 = 0x08#32 := by
        rw [hbs]
        rintro rfl
        exact absurd hadd.1 (by decide)
      rw [replayChar, if_neg hnot, if_neg (not_or.mp hend).1, hbyte]
    rw [if_pos hadd, if_pos hadd, hline, hbyte, List.length_append]
    exact ⟨_, rfl, range_map_update hbuf k, hshown⟩
  · have hline : typeKey line k = line := by
      rw [typeKey, if_neg herase, if_neg hadd]
    rw [if_neg hadd, if_neg hadd, hline]
    exact ⟨buf, rfl, hbuf, rfl⟩

/-- The step at the end of the line. -/
theorem readlineStep_end {e : Byte} (he : e = chr '\n' ∨ e = chr '\r') (i : ℕ) :
    readlineStep m true (e.setWidth 32) i buf =
      ⟨[.putch 0x0A#32], .ok (.returned (some (Function.update buf i 0#8)))⟩ := by
  obtain rfl | rfl := he
  · simp only [readlineStep]
    rfl
  · simp only [readlineStep]
    rfl

end Step

/-! ### The loop -/

section Loop

variable {m : Memory} {buf : ℕ → Byte} {keys : List Byte}

theorem echoLog_append (l₁ l₂ : List Byte) : echoLog (l₁ ++ l₂) = echoLog l₁ ++ echoLog l₂ :=
  List.map_append

/-- The keys before the end of the line leave what they type in the buffer and on the
terminal. -/
theorem readlineRun_keys (hkeys : ∀ k ∈ keys, k ≠ chr '\n' ∧ k ≠ chr '\r') {line : List Byte}
    (hbuf : (List.range line.length).map buf = line) :
    ∃ buf', readlineRun m true (keys.map (BitVec.setWidth 32)) (.reading line.length buf) =
        ⟨echoLog (echoed line keys), .ok (.reading (keys.foldl typeKey line).length buf')⟩ ∧
      (List.range (keys.foldl typeKey line).length).map buf' = keys.foldl typeKey line ∧
      (putchars (echoLog (echoed line keys))).foldl replayChar line = keys.foldl typeKey line := by
  induction keys generalizing buf line with
  | nil => exact ⟨buf, rfl, hbuf, rfl⟩
  | cons k keys ih =>
    obtain ⟨hk, hkeys⟩ := List.forall_mem_cons.mp hkeys
    obtain ⟨buf₁, hstep, hbuf₁, hshown₁⟩ := readlineStep_key (m := m) hk hbuf
    obtain ⟨buf₂, hrun, hbuf₂, hshown₂⟩ := ih hkeys hbuf₁
    refine ⟨buf₂, ?_, hbuf₂, ?_⟩
    · rw [List.map_cons, readlineRun, hstep, Logged.bind_of_ok rfl, hrun, echoed, echoLog_append]
      rfl
    · rw [echoed, echoLog_append, putchars_append, List.foldl_append, hshown₁]
      exact hshown₂

/-- The loop goes on with the keys that are left. -/
theorem readlineRun_append {echoing : Bool} {ks ks' : List Word} {s s' : ReadlineState}
    {l : List FmtEvent} (h : readlineRun m echoing ks s = ⟨l, .ok s'⟩) :
    readlineRun m echoing (ks ++ ks') s =
      ⟨l ++ (readlineRun m echoing ks' s').log, (readlineRun m echoing ks' s').result⟩ := by
  induction ks generalizing s l with
  | nil =>
    have hs : readlineRun m echoing [] s = pure s := by cases s <;> rfl
    rw [hs] at h
    cases h
    rfl
  | cons c ks ih =>
    cases s with
    | returned r =>
      -- the keys behind the line are for the next call
      cases h
      cases ks' <;> rfl
    | reading i buf =>
      rw [readlineRun] at h
      rw [List.cons_append, readlineRun]
      cases hx : (readlineStep m echoing c i buf).result with
      | error a =>
        rw [Logged.bind_of_error hx] at h
        cases h
      | ok s₁ =>
        rw [Logged.bind_of_ok hx] at h ⊢
        obtain ⟨rfl, hres⟩ := Logged.mk.inj h
        have hrun : readlineRun m echoing ks s₁ = ⟨(readlineRun m echoing ks s₁).log, .ok s'⟩ := by
          rw [← hres]
        rw [ih hrun, List.append_assoc]

/-- The keys and the end of the line: what was typed is in the buffer, with a NUL. -/
theorem readlineRun_line (buf : ℕ → Byte) (hkeys : ∀ k ∈ keys, k ≠ chr '\n' ∧ k ≠ chr '\r')
    {e : Byte} (he : e = chr '\n' ∨ e = chr '\r') :
    ∃ buf', readlineRun m true ((keys ++ [e]).map (BitVec.setWidth 32)) (.reading 0 buf) =
        ⟨echoLog (echoed [] keys ++ [chr '\n']), .ok (.returned (some buf'))⟩ ∧
      (∀ i b, (typedLine keys)[i]? = some b → buf' i = b) ∧ buf' (typedLine keys).length = 0#8 ∧
      (putchars (echoLog (echoed [] keys ++ [chr '\n']))).foldl replayChar [] =
        typedLine keys := by
  have hempty : (List.range ([] : List Byte).length).map buf = [] := rfl
  obtain ⟨buf₁, hrun, hbuf, hshown⟩ := readlineRun_keys (m := m) hkeys hempty
  -- the end of the line puts a NUL where the next character would have gone
  have hlast : ∀ i, readlineRun m true [e.setWidth 32] (.reading i buf₁) =
      ⟨[.putch 0x0A#32], .ok (.returned (some (Function.update buf₁ i 0#8)))⟩ := by
    intro i
    rw [readlineRun, readlineStep_end he]
    rfl
  rw [echoLog_append]
  refine ⟨Function.update buf₁ (typedLine keys).length 0#8, ?_, ?_, Function.update_self .., ?_⟩
  · rw [List.map_append, List.map_singleton]
    exact (readlineRun_append hrun).trans (by rw [← typedLine, hlast]; rfl)
  · intro i b hb
    have hi := (List.getElem?_eq_some_iff.mp hb).1
    rw [← typedLine] at hbuf
    rw [Function.update_of_ne hi.ne]
    rw [← hbuf, List.getElem?_map, List.getElem?_range hi] at hb
    exact Option.some.inj hb
  · rw [putchars_append, List.foldl_append, hshown]
    rfl

end Loop

/-- A prompt that is a string, or none, is printed. -/
theorem readlinePrompt_returns {m : Memory} {prompt : Word}
    (h : prompt = 0#32 ∨ ∃ s, StringAt m prompt s) : (readlinePrompt m prompt).result = .ok () := by
  by_cases hnull : prompt = 0#32
  · rw [readlinePrompt, if_neg (not_not.mpr hnull)]
    rfl
  · obtain ⟨s, hs⟩ := h.resolve_left hnull
    have hitems : ∀ d ∈ fmtItems (fun i => [prompt].getD i 0#32) (text "%s") .text 0,
        d.Supplied m fun i => [prompt].getD i 0#32 := by
      intro d hd
      obtain rfl : d = .string {} 0 := List.mem_singleton.mp hd
      exact ⟨s, .inr ⟨hnull, hs⟩⟩
    obtain ⟨cnt, hprint⟩ := cprintf_returns hitems
    rw [readlinePrompt, if_pos hnull, Logged.bind_of_ok hprint]
    rfl

/-! ### When the two lines are the same -/

/-- How many characters there are on the line, and whether a delete that was typed on an
empty line stands in front of them. -/
inductive LineState where
  | clean (n : ℕ)
  | stray (n : ℕ)
deriving DecidableEq

/-- What a key does to them. The delete in front is erased when nothing else is left. -/
def LineState.key : LineState → Byte → LineState
  | .clean n, k =>
    if n = 0 ∧ k = 0x7F#8 then .stray 0
    else if IsErase k then .clean (n - 1)
    else if chr ' ' ≤ k ∧ n < 1023 then .clean (n + 1)
    else .clean n
  | .stray n, k =>
    if n = 0 ∧ IsErase k then .clean 0
    else if IsErase k then .stray (n - 1)
    else if chr ' ' ≤ k ∧ n < 1022 then .stray (n + 1)
    else .stray n

/-- No delete that was typed on an empty line is left on the line at the end. -/
def NoStray (keys : List Byte) : Prop := ∃ n, keys.foldl LineState.key (.clean 0) = .clean n

/-- The line that is there and the line that should be there. Behind a delete in front there
is room for one character less, so the line can fall one behind. -/
def LineState.Relates (line line' : List Byte) : LineState → Prop
  | .clean n => line = line' ∧ line'.length = n
  | .stray n => ∃ l, line = 0x7F#8 :: l ∧ l.length = n ∧
      (line'.length = n ∨ line'.length = n + 1)

section Relates

variable {line line' : List Byte} {n : ℕ}

theorem relates_key_clean (h : (LineState.clean n).Relates line line') (k : Byte) :
    ((LineState.clean n).key k).Relates (typeKey line k) (editKey line' k) := by
  obtain ⟨rfl, rfl⟩ := h
  simp only [LineState.key]
  by_cases hstray : line.length = 0 ∧ k = 0x7F#8
  · -- a delete on an empty line
    obtain ⟨hempty, rfl⟩ := hstray
    obtain rfl := List.length_eq_zero_iff.mp hempty
    rw [if_pos ⟨hempty, rfl⟩]
    exact ⟨[], rfl, rfl, .inl rfl⟩
  rw [if_neg hstray]
  by_cases herase : IsErase k
  · have hedit : editKey line k = line.dropLast := if_pos herase
    have htype : typeKey line k = line.dropLast := by
      by_cases hempty : line = []
      · -- only a backspace is left here, and it does nothing
        obtain rfl : k = 0x08#8 :=
          herase.resolve_right fun hk => hstray ⟨List.length_eq_zero_iff.mpr hempty, hk⟩
        rw [hempty]
        rfl
      · exact if_pos ⟨herase, hempty⟩
    rw [if_pos herase, hedit, htype]
    exact ⟨rfl, List.length_dropLast⟩
  · have hsame : typeKey line k = editKey line k := by
      rw [typeKey, editKey, if_neg herase, if_neg fun h => herase h.1]
    rw [if_neg herase, hsame]
    by_cases hadd : chr ' ' ≤ k ∧ line.length < 1023
    · rw [if_pos hadd, editKey, if_neg herase, if_pos hadd]
      exact ⟨rfl, List.length_append⟩
    · rw [if_neg hadd, editKey, if_neg herase, if_neg hadd]
      exact ⟨rfl, rfl⟩

theorem relates_key_stray (h : (LineState.stray n).Relates line line') (k : Byte) :
    ((LineState.stray n).key k).Relates (typeKey line k) (editKey line' k) := by
  obtain ⟨l, rfl, rfl, hlen⟩ := h
  by_cases herase : IsErase k
  · have hedit : editKey line' k = line'.dropLast := if_pos herase
    have htype : typeKey (0x7F#8 :: l) k = (0x7F#8 :: l).dropLast :=
      if_pos ⟨herase, List.cons_ne_nil _ _⟩
    rw [hedit, htype]
    by_cases hempty : l.length = 0
    · -- the delete in front goes, and with it what the line was behind
      obtain rfl := List.length_eq_zero_iff.mp hempty
      rw [LineState.key, if_pos ⟨hempty, herase⟩]
      have hnil : line'.dropLast = [] := by
        apply List.length_eq_zero_iff.mp
        rw [List.length_dropLast]
        omega
      rw [hnil]
      exact ⟨rfl, rfl⟩
    · have hne : l ≠ [] := fun hc => hempty (List.length_eq_zero_iff.mpr hc)
      rw [LineState.key, if_neg fun hc => hempty hc.1, if_pos herase,
        List.dropLast_cons_of_ne_nil hne]
      refine ⟨l.dropLast, rfl, List.length_dropLast, ?_⟩
      rw [List.length_dropLast]
      omega
  · have htype : typeKey (0x7F#8 :: l) k =
        if chr ' ' ≤ k ∧ (0x7F#8 :: l).length < 1023 then 0x7F#8 :: l ++ [k] else 0x7F#8 :: l :=
      if_neg fun hc => herase hc.1
    have hedit : editKey line' k =
        if chr ' ' ≤ k ∧ line'.length < 1023 then line' ++ [k] else line' := if_neg herase
    have hkey : ((LineState.stray l.length).key k) =
        if chr ' ' ≤ k ∧ l.length < 1022 then .stray (l.length + 1) else .stray l.length := by
      rw [LineState.key, if_neg fun hc => herase hc.2, if_neg herase]
    by_cases hadd : chr ' ' ≤ k ∧ l.length < 1022
    · rw [if_pos ⟨hadd.1, Nat.succ_lt_succ hadd.2⟩] at htype
      rw [if_pos ⟨hadd.1, by omega⟩] at hedit
      rw [hkey, if_pos hadd, htype, hedit]
      refine ⟨l ++ [k], rfl, List.length_append, ?_⟩
      rw [List.length_append, List.length_singleton]
      omega
    · -- the buffer is full, and the line that should be there may have room for one more
      rw [if_neg fun hc => hadd ⟨hc.1, Nat.lt_of_succ_lt_succ hc.2⟩] at htype
      rw [hkey, if_neg hadd, htype, hedit]
      refine ⟨l, rfl, rfl, ?_⟩
      split_ifs with hroom
      · have hfull : ¬l.length < 1022 := fun hc => hadd ⟨hroom.1, hc⟩
        rw [List.length_append, List.length_singleton]
        omega
      · exact hlen

theorem relates_keys (keys : List Byte) :
    (keys.foldl LineState.key (.clean 0)).Relates (typedLine keys) (editedLine keys) := by
  induction keys using List.reverseRecOn with
  | nil => exact ⟨rfl, rfl⟩
  | append_singleton keys k ih =>
    rw [typedLine, editedLine, List.foldl_append, List.foldl_append, List.foldl_append]
    rw [typedLine, editedLine] at ih
    generalize keys.foldl LineState.key (.clean 0) = s at ih
    cases s with
    | clean n => exact relates_key_clean ih k
    | stray n => exact relates_key_stray ih k

end Relates

/-- The line that should be there holds neither deletes nor control characters. -/
theorem editedLine_chars (keys : List Byte) : ∀ b ∈ editedLine keys, chr ' ' ≤ b ∧ b ≠ 0x7F#8 := by
  induction keys using List.reverseRecOn with
  | nil => exact List.forall_mem_nil _
  | append_singleton keys k ih =>
    rw [editedLine, List.foldl_append]
    change ∀ b ∈ editKey (editedLine keys) k, _
    unfold editKey
    split_ifs with herase hadd
    · exact fun b hb => ih b (List.mem_of_mem_dropLast hb)
    · rw [List.forall_mem_append, List.forall_mem_singleton]
      exact ⟨ih, hadd.1, fun hk => herase (.inr hk)⟩
    · exact ih

/-- A line that begins with a delete is not the line that should be there. -/
theorem not_bufHolds_editedLine {buf : ℕ → Byte} (h : buf 0 = 0x7F#8) (keys : List Byte) :
    ¬BufHolds buf (editedLine keys) := by
  intro hholds
  have hchars := editedLine_chars keys
  generalize editedLine keys = line at hholds hchars
  cases line with
  | nil =>
    have hnul : buf 0 = 0#8 := hholds.nul
    rw [h] at hnul
    exact absurd hnul (by decide)
  | cons b line =>
    have hfirst := hholds.char 0 b rfl
    rw [h] at hfirst
    exact (hchars b List.mem_cons_self).2 hfirst.symm

section Main

variable {m : Memory} {prompt : Word} {keys : List Byte} {e : Byte}

/-- The line that `readline` returns and echoes behind its prompt. -/
theorem readline_line (buf : ℕ → Byte) (hprompt : prompt = 0#32 ∨ ∃ s, StringAt m prompt s)
    (hkeys : ∀ k ∈ keys, k ≠ chr '\n' ∧ k ≠ chr '\r') (he : e = chr '\n' ∨ e = chr '\r') :
    ∃ buf', readline m prompt ((keys ++ [e]).map (BitVec.setWidth 32)) buf =
        ⟨(readlinePrompt m prompt).log ++ echoLog (echoed [] keys ++ [chr '\n']),
          .ok (.returned (some buf'))⟩ ∧
      (∀ i b, (typedLine keys)[i]? = some b → buf' i = b) ∧ buf' (typedLine keys).length = 0#8 ∧
      (putchars (echoLog (echoed [] keys ++ [chr '\n']))).foldl replayChar [] =
        typedLine keys := by
  obtain ⟨buf', hrun, hchar, hnul, hshown⟩ := readlineRun_line (m := m) buf hkeys he
  refine ⟨buf', ?_, hchar, hnul, hshown⟩
  rw [readline, Logged.bind_of_ok (readlinePrompt_returns hprompt), iscons, hrun]

/-- The index stays in the buffer. -/
theorem readlineRun_index (buf : ℕ → Byte) (hkeys : ∀ k ∈ keys, k ≠ chr '\n' ∧ k ≠ chr '\r')
    {ks : List Byte} (hks : ks <+: keys) :
    ∃ i buf', (readlineRun m (iscons 0) (ks.map (BitVec.setWidth 32)) (.reading 0 buf)).result =
      .ok (.reading i buf') ∧ i ≤ 1023 := by
  have hempty : (List.range ([] : List Byte).length).map buf = [] := rfl
  obtain ⟨buf', hrun, -⟩ :=
    readlineRun_keys (m := m) (fun k hk => hkeys k (hks.subset hk)) hempty
  exact ⟨_, buf', congrArg Logged.result hrun, typedLine_length_le ks⟩

/-- `readline` edits the line exactly if no delete that was typed on an empty line is left at
the end. -/
theorem readline_edits_iff {buf : ℕ → Byte}
    (hprompt : prompt = 0#32 ∨ ∃ s, StringAt m prompt s)
    (hkeys : ∀ k ∈ keys, k ≠ chr '\n' ∧ k ≠ chr '\r') (he : e = chr '\n' ∨ e = chr '\r') :
    Edits m prompt buf keys e ↔ NoStray keys := by
  obtain ⟨buf', hline, hchar, hnul, hshown⟩ := readline_line buf hprompt hkeys he
  have hrel := relates_keys keys
  constructor
  · intro hedits
    cases hstate : keys.foldl LineState.key (.clean 0) with
    | clean n => exact ⟨n, hstate⟩
    | stray n =>
      -- the buffer begins with the delete
      rw [hstate] at hrel
      obtain ⟨l', htyped, -⟩ := hrel
      obtain ⟨buf₁, hret, hholds⟩ := hedits.returns
      rw [hline] at hret
      cases hret
      have hfirst : buf' 0 = 0x7F#8 := hchar 0 _ (by rw [htyped]; rfl)
      exact absurd hholds (not_bufHolds_editedLine hfirst keys)
  · rintro ⟨n, hstate⟩
    rw [hstate] at hrel
    obtain ⟨hsame, -⟩ := hrel
    rw [hsame] at hchar hnul hshown
    refine ⟨⟨buf', congrArg Logged.result hline, hchar, ?_, hnul⟩,
      fun ks hks => readlineRun_index buf hkeys hks, ⟨_, congrArg Logged.log hline, hshown⟩⟩
    intro b hb hz
    obtain ⟨hblank, -⟩ := editedLine_chars keys b hb
    rw [hz] at hblank
    exact absurd hblank (by decide)

end Main

/-- A delete, and then a newline: the line should be empty, and it holds the delete. -/
theorem readline_keeps_delete :
    editedLine [0x7F#8] = [] ∧
      (∃ buf, (readline (fun _ => none) 0#32 [0x7F#32, 0x0A#32] fun _ => 0#8).result =
        .ok (.returned (some buf)) ∧ BufHolds buf [0x7F#8]) ∧
      ¬Edits (fun _ => none) 0#32 (fun _ => 0#8) [0x7F#8] (chr '\n') := by
  have hbuf : (readline (fun _ => none) 0#32 [0x7F#32, 0x0A#32] fun _ => 0#8).result = .ok
      (.returned (some (Function.update (Function.update (fun _ => 0#8) 0 0x7F#8) 1 0#8))) := rfl
  refine ⟨rfl, ⟨_, hbuf, ?_, by decide, rfl⟩, ?_⟩
  · intro i b hb
    obtain ⟨hi, hget⟩ := List.getElem?_eq_some_iff.mp hb
    obtain rfl : i = 0 := Nat.lt_one_iff.mp hi
    exact hget
  · intro h
    obtain ⟨buf, hret, hholds⟩ := h.returns
    rw [show ([0x7F#8] ++ [chr '\n']).map (BitVec.setWidth 32) = [0x7F#32, 0x0A#32] from rfl,
      hbuf] at hret
    cases hret
    exact not_bufHolds_editedLine rfl _ hholds

/-- A backspace on the empty line, a delete, a delete that erases it, and two letters. -/
theorem readline_edits_recovered :
    NoStray [0x08#8, 0x7F#8, 0x7F#8, chr 'o', chr 'k'] ∧
      Edits (fun _ => none) 0#32 (fun _ => 0#8) [0x08#8, 0x7F#8, 0x7F#8, chr 'o', chr 'k']
        (chr '\r') := by
  have hclean : NoStray [0x08#8, 0x7F#8, 0x7F#8, chr 'o', chr 'k'] := ⟨2, by decide⟩
  exact ⟨hclean, (readline_edits_iff (.inl rfl) (by decide) (.inr rfl)).mpr hclean⟩

end Jos
