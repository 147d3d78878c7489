import Jos.Console.Format
import Jos.Kern.Monitor
import Jos.Library.Stored

/-!
# Commands of the monitor

`runcmd` cuts its line into arguments in place: it overwrites each blank with a NUL when it
comes upon it, and an argument ends at the first blank behind it, which is overwritten later
than the pointer to the argument is stored, or at the NUL of the line. Behind position `p`
the line is as it was, and before it the blanks are gone (`scanned`), so what is left of the
line decides what the parser still does (`parseArgs_scanned`). In the end the arguments are
the words of the line: `runcmd_tokenises`.
-/

namespace Jos

/-! ### Words -/

/-- A character of `WHITESPACE`. -/
def isSpace (c : Byte) : Bool := decide (c ∈ whitespace)

/-- The maximal runs of characters that are no blanks. -/
def tokens (line : List Byte) : List (List Byte) := (line.splitOnP isSpace).filter (· ≠ [])

theorem strchr_isSome (s : List Byte) (c : Byte) : (strchr s c).isSome ↔ c ∈ s := by
  induction s with
  | nil => simp [strchr]
  | cons ch s ih =>
    rw [strchr, List.mem_cons]
    split_ifs with h
    · exact iff_of_true rfl (.inl h.symm)
    · rw [Option.isSome_map, ih]
      exact ⟨.inr, fun hc => hc.resolve_left fun h' => h h'.symm⟩

theorem tokens_nil : tokens [] = [] := by
  rw [tokens, List.splitOnP_nil]
  rfl

/-- A blank in front belongs to no word. -/
theorem tokens_space {c : Byte} (hc : isSpace c) (l : List Byte) : tokens (c :: l) = tokens l := by
  have hsplit := List.splitOnP_append_cons [] l (p := isSpace) hc
  rw [List.nil_append, List.splitOnP_nil] at hsplit
  rw [tokens, tokens, hsplit, List.singleton_append, List.filter_cons_of_neg (by decide)]

theorem tokens_spaces {ws : List Byte} (hws : ∀ c ∈ ws, isSpace c) (l : List Byte) :
    tokens (ws ++ l) = tokens l := by
  induction ws with
  | nil => rfl
  | cons c ws ih =>
    obtain ⟨hc, hws⟩ := List.forall_mem_cons.mp hws
    rw [List.cons_append, tokens_space hc, ih hws]

/-- A run of other characters is a word, up to the blank behind it or the end. -/
theorem tokens_word {t l : List Byte} (hne : t ≠ []) (ht : ∀ c ∈ t, isSpace c = false)
    (hl : ∀ c ∈ l.head?, isSpace c) : tokens (t ++ l) = t :: tokens l := by
  cases l with
  | nil =>
    rw [List.append_nil, tokens, List.splitOnP_eq_singleton ht, tokens_nil]
    exact List.filter_cons_of_pos (by simpa using hne)
  | cons c l =>
    have hc : isSpace c := hl c rfl
    rw [tokens, List.splitOnP_append_cons_of_forall_mem ht c hc, tokens_space hc,
      List.filter_cons_of_pos (by simpa using hne)]
    rfl

/-! ### The line in memory -/

/-- Memory when the blanks of the line have been overwritten up to position `p`. -/
def scanned (m : Memory) (buf : Word) (line : List Byte) (p : ℕ) : Memory :=
  stored m buf ((line.take p).map fun c => some (if isSpace c then 0#8 else c))

/-- What `runcmd` may do: write to the line and to the entries of `argv`, and print. -/
def CmdEvent.Allowed (buf : Word) (line : List Byte) : CmdEvent → Prop
  | .store a => ∃ i < line.length, a = buf + BitVec.ofNat 32 i
  | .argv k => k < maxargs
  | .console _ => True

section Scan

variable {m : Memory} {buf : Word} {line : List Byte} {p : ℕ}

theorem scanned_zero : scanned m buf line 0 = m := rfl

/-- From `p` on the line is as it was. -/
theorem scanned_at (hline : StringAt m buf line) {i : ℕ} (hp : p ≤ i) (hi : i ≤ line.length) :
    scanned m buf line p (buf + BitVec.ofNat 32 i) = some (line.getD i 0#8) := by
  have hlt := hline.length_lt
  rw [scanned, stored_outside]
  · obtain hi | rfl := Nat.lt_or_eq_of_le hi
    · rw [List.getD_eq_getElem _ _ hi, hline.char i _ (List.getElem?_eq_getElem hi)]
    · rw [List.getD_eq_default _ _ le_rfl, hline.nul]
  · intro j hj hc
    have hdist : (buf + BitVec.ofNat 32 i - buf).toNat = (buf + BitVec.ofNat 32 j - buf).toNat := by
      rw [hc]
    rw [List.length_map, List.length_take] at hj
    rw [toNat_add_ofNat_sub buf (by omega), toNat_add_ofNat_sub buf (by omega)] at hdist
    omega

theorem deref_scanned (hline : StringAt m buf line) {i : ℕ} (hp : p ≤ i) (hi : i ≤ line.length) :
    deref (scanned m buf line p) (buf + BitVec.ofNat 32 i) = .ok (line.getD i 0#8) := by
  rw [deref, scanned_at hline hp hi]

theorem take_succ_map (hp : p < line.length) :
    (line.take (p + 1)).map (fun c => some (if isSpace c then 0#8 else c)) =
      (line.take p).map (fun c => some (if isSpace c then 0#8 else c)) ++
        [some (if isSpace (line.getD p 0#8) then 0#8 else line.getD p 0#8)] := by
  rw [List.take_add_one, List.map_append, List.getElem?_eq_getElem hp, List.getD_eq_getElem _ _ hp]
  rfl

theorem length_take_map (hp : p ≤ line.length) :
    ((line.take p).map fun c => some (if isSpace c then 0#8 else c)).length = p := by
  rw [List.length_map, List.length_take, Nat.min_eq_left hp]

/-- A blank is overwritten. -/
theorem update_scanned (hline : StringAt m buf line) (hp : p < line.length)
    (hspace : isSpace (line.getD p 0#8)) :
    Function.update (scanned m buf line p) (buf + BitVec.ofNat 32 p) (some 0#8) =
      scanned m buf line (p + 1) := by
  have hlt := hline.length_lt
  have hlen := length_take_map hp.le
  have hupdate := update_stored m buf (lt_of_eq_of_lt hlen (by omega)) (some 0#8)
  rw [hlen] at hupdate
  rw [scanned, scanned, take_succ_map hp, if_pos hspace, hupdate]

/-- Any other character stays. -/
theorem scanned_succ (hline : StringAt m buf line) (hp : p < line.length)
    (hspace : ¬isSpace (line.getD p 0#8)) :
    scanned m buf line (p + 1) = scanned m buf line p := by
  have hlt := hline.length_lt
  have hlen := length_take_map hp.le
  have hself := stored_append_self m buf (lt_of_eq_of_lt hlen (by omega))
  rw [hlen] at hself
  have hchar : m (buf + BitVec.ofNat 32 p) = some (line.getD p 0#8) :=
    scanned_at (p := 0) hline (Nat.zero_le p) hp.le
  rw [scanned, scanned, take_succ_map hp, if_neg hspace, ← hchar, hself]

theorem drop_eq_cons {c : Byte} {l : List Byte} (h : line.drop p = c :: l) :
    p < line.length ∧ line.getD p 0#8 = c ∧ line.drop (p + 1) = l := by
  have hp : p < line.length := by
    by_contra hge
    rw [List.drop_eq_nil_of_le (not_lt.mp hge)] at h
    cases h
  rw [List.drop_eq_getElem_cons hp] at h
  obtain ⟨hc, hl⟩ := List.cons.inj h
  exact ⟨hp, (List.getD_eq_getElem _ _ hp).trans hc, hl⟩

theorem nonzero_of_drop (hline : StringAt m buf line) {c : Byte} {l : List Byte}
    (h : line.drop p = c :: l) : c ≠ 0#8 := by
  have hmem : c ∈ line.drop p := by
    rw [h]
    exact List.mem_cons_self
  exact hline.nonzero c (List.mem_of_mem_drop hmem)

/-- At the end of what is left of the line there is no character to skip. -/
theorem getD_eq_headD {l : List Byte} (h : line.drop p = l) : line.getD p 0#8 = l.headD 0#8 := by
  cases l with
  | nil => exact List.getD_eq_default _ _ (List.drop_eq_nil_iff.mp h)
  | cons c l => exact (drop_eq_cons h).2.1

theorem ofNat_succ_add (buf : Word) (p : ℕ) :
    buf + BitVec.ofNat 32 p + 1#32 = buf + BitVec.ofNat 32 (p + 1) := by
  rw [BitVec.add_assoc, ← BitVec.ofNat_add]

/-- Blanks are overwritten up to the next argument. -/
theorem gobbleSpace_scanned (hline : StringAt m buf line) {ws rest : List Byte} {n : ℕ}
    (hdrop : line.drop p = ws ++ rest) (hp : p ≤ line.length) (hws : ∀ c ∈ ws, isSpace c)
    (hrest : ∀ c ∈ rest.head?, isSpace c = false) (hn : ws.length < n) :
    ∃ log, gobbleSpace n (scanned m buf line p) (buf + BitVec.ofNat 32 p) =
        ⟨log, .ok (scanned m buf line (p + ws.length),
          buf + BitVec.ofNat 32 (p + ws.length))⟩ ∧
      ∀ e ∈ log, e.Allowed buf line := by
  induction ws generalizing p n with
  | nil =>
    obtain ⟨n, rfl⟩ := Nat.exists_eq_add_one_of_ne_zero hn.ne'
    -- the NUL of the line ends the loop, and so does a character of a word
    have hstop : ¬(line.getD p 0#8 ≠ 0#8 ∧ (strchr whitespace (line.getD p 0#8)).isSome) := by
      rw [getD_eq_headD hdrop, strchr_isSome]
      cases rest with
      | nil => exact fun hc => hc.1 rfl
      | cons c rest => exact fun hc => of_decide_eq_false (hrest c rfl) hc.2
    refine ⟨[], ?_, List.forall_mem_nil _⟩
    rw [gobbleSpace, deref_scanned hline le_rfl hp, Cmd.lift, Logged.bind_of_ok rfl, if_neg hstop]
    rfl
  | cons c ws ih =>
    obtain ⟨n, rfl⟩ := Nat.exists_eq_add_one_of_ne_zero (Nat.ne_zero_of_lt hn)
    obtain ⟨hlt, hc, hdrop'⟩ := drop_eq_cons hdrop
    obtain ⟨hspace, hws⟩ := List.forall_mem_cons.mp hws
    have hgo : line.getD p 0#8 ≠ 0#8 ∧ (strchr whitespace (line.getD p 0#8)).isSome := by
      rw [hc, strchr_isSome]
      exact ⟨nonzero_of_drop hline hdrop, of_decide_eq_true hspace⟩
    obtain ⟨log, hrun, hlog⟩ := ih hdrop' hlt hws (Nat.lt_of_succ_lt_succ hn)
    -- the blank becomes a NUL, which is one more position scanned
    have hstore : Cmd.store (scanned m buf line p) (buf + BitVec.ofNat 32 p) 0#8 =
        ⟨[.store (buf + BitVec.ofNat 32 p)], .ok (scanned m buf line (p + 1))⟩ := by
      rw [Cmd.store, scanned_at hline le_rfl hp, update_scanned hline hlt (hc ▸ hspace)]
    refine ⟨.store (buf + BitVec.ofNat 32 p) :: log, ?_, ?_⟩
    · rw [gobbleSpace, deref_scanned hline le_rfl hp, Cmd.lift, Logged.bind_of_ok rfl, if_pos hgo,
        hstore, Logged.bind_of_ok rfl, ofNat_succ_add, hrun, List.length_cons,
        show p + (ws.length + 1) = p + 1 + ws.length by omega]
      rfl
    · exact List.forall_mem_cons.mpr ⟨⟨p, hlt, rfl⟩, hlog⟩

/-- An argument is skipped up to the blank behind it. -/
theorem skipArg_scanned (hline : StringAt m buf line) {q : ℕ} {t rest : List Byte} {n : ℕ}
    (hdrop : line.drop p = t ++ rest) (hq : q ≤ p) (hp : p ≤ line.length)
    (ht : ∀ c ∈ t, isSpace c = false) (hrest : ∀ c ∈ rest.head?, isSpace c) (hn : t.length < n) :
    skipArg (scanned m buf line q) n (buf + BitVec.ofNat 32 p) =
      ⟨[], .ok (buf + BitVec.ofNat 32 (p + t.length))⟩ := by
  induction t generalizing p n with
  | nil =>
    obtain ⟨n, rfl⟩ := Nat.exists_eq_add_one_of_ne_zero hn.ne'
    -- the word ends at the terminator of the line or before a blank
    have hstop : ¬(line.getD p 0#8 ≠ 0#8 ∧ ¬(strchr whitespace (line.getD p 0#8)).isSome) := by
      rw [getD_eq_headD hdrop, strchr_isSome]
      cases rest with
      | nil => exact fun hc => hc.1 rfl
      | cons c rest => exact fun hc => hc.2 (of_decide_eq_true (hrest c rfl))
    rw [skipArg, deref_scanned hline hq hp, Cmd.lift, Logged.bind_of_ok rfl, if_neg hstop]
    rfl
  | cons c t ih =>
    obtain ⟨n, rfl⟩ := Nat.exists_eq_add_one_of_ne_zero (Nat.ne_zero_of_lt hn)
    obtain ⟨hlt, hc, hdrop'⟩ := drop_eq_cons hdrop
    obtain ⟨hchar, ht⟩ := List.forall_mem_cons.mp ht
    -- blanks are overwritten only before `q`, so this is the line's own character
    have hgo : line.getD p 0#8 ≠ 0#8 ∧ ¬(strchr whitespace (line.getD p 0#8)).isSome := by
      rw [hc, strchr_isSome]
      exact ⟨nonzero_of_drop hline hdrop, of_decide_eq_false hchar⟩
    rw [skipArg, deref_scanned hline hq hp, Cmd.lift, Logged.bind_of_ok rfl, if_pos hgo,
      ofNat_succ_add, ih hdrop' (by omega) hlt ht (Nat.lt_of_succ_lt_succ hn), List.length_cons,
      show p + (t.length + 1) = p + 1 + t.length by omega]
    rfl

/-- An argument leaves memory as it is. -/
theorem scanned_word (hline : StringAt m buf line) {t rest : List Byte}
    (hdrop : line.drop p = t ++ rest) (ht : ∀ c ∈ t, isSpace c = false) :
    scanned m buf line (p + t.length) = scanned m buf line p := by
  induction t generalizing p with
  | nil => rfl
  | cons c t ih =>
    obtain ⟨hlt, hc, hdrop'⟩ := drop_eq_cons hdrop
    obtain ⟨hchar, ht⟩ := List.forall_mem_cons.mp ht
    rw [List.length_cons, show p + (t.length + 1) = p + 1 + t.length by omega, ih hdrop' ht]
    exact scanned_succ hline hlt (by rw [hc, hchar]; decide)

/-! ### Arguments -/

/-- The word `t` stands at position `off` of the line. -/
structure TokenAt (line : List Byte) (off : ℕ) (t : List Byte) : Prop where
  nonempty : t ≠ []
  word : ∀ c ∈ t, isSpace c = false
  place : ∃ rest, line.drop off = t ++ rest ∧ ∀ c ∈ rest.head?, isSpace c

/-- When all blanks are overwritten, a word is a string. -/
theorem TokenAt.stringAt (hline : StringAt m buf line) {off : ℕ} {t : List Byte}
    (h : TokenAt line off t) :
    StringAt (scanned m buf line line.length) (buf + BitVec.ofNat 32 off) t := by
  obtain ⟨hne, hword, rest, hdrop, hrest⟩ := h
  have hlt := hline.length_lt
  have hlen := length_take_map (le_refl line.length)
  -- what the line holds from `off` on, with its blanks gone
  have hstored : ∀ i b, (t ++ rest)[i]? = some b → scanned m buf line line.length
      (buf + BitVec.ofNat 32 off + BitVec.ofNat 32 i) = some (if isSpace b then 0#8 else b) := by
    intro i b hb
    rw [BitVec.add_assoc, ← BitVec.ofNat_add]
    refine stored_getElem m buf (hlen.trans_le hlt.le) ?_
    rw [List.take_length, List.getElem?_map, ← List.getElem?_drop, hdrop, hb]
    rfl
  refine ⟨?_, ?_, ?_⟩
  · intro i b hb
    have hi : i < t.length := (List.getElem?_eq_some_iff.mp hb).1
    have hmem := hword b (List.mem_of_getElem? hb)
    rw [hstored i b (by rw [List.getElem?_append_left hi, hb]), hmem]
    rfl
  · intro b hb
    refine hline.nonzero b (List.mem_of_mem_drop (i := off) ?_)
    rw [hdrop]
    exact List.mem_append_left _ hb
  · cases rest with
    | nil =>
      -- the word ends at the NUL of the line
      have hend : off + t.length = line.length := by
        have hpos := List.length_pos_iff.mpr hne
        have hlen' := congrArg List.length hdrop
        rw [List.length_drop, List.append_nil] at hlen'
        omega
      rw [BitVec.add_assoc, ← BitVec.ofNat_add, hend, scanned_at hline le_rfl le_rfl,
        List.getD_eq_default _ _ le_rfl]
    | cons c rest =>
      have hc : isSpace c := hrest c rfl
      rw [hstored t.length c (by rw [List.getElem?_append_right le_rfl, Nat.sub_self]; rfl),
        if_pos hc]

/-- A list begins with a run of characters of one kind. -/
theorem exists_run (f : Byte → Bool) (l : List Byte) :
    ∃ t rest, l = t ++ rest ∧ (∀ c ∈ t, f c) ∧ ∀ c ∈ rest.head?, f c = false := by
  induction l with
  | nil => exact ⟨[], [], rfl, List.forall_mem_nil _, fun c hc => by cases hc⟩
  | cons c l ih =>
    cases hc : f c with
    | false => exact ⟨[], c :: l, rfl, List.forall_mem_nil _, fun c' hc' => by cases hc'; exact hc⟩
    | true =>
      obtain ⟨t, rest, rfl, ht, hrest⟩ := ih
      exact ⟨c :: t, rest, rfl, List.forall_mem_cons.mpr ⟨hc, ht⟩, hrest⟩

/-- A character that is no blank begins a word. -/
theorem exists_word {c : Byte} (hc : isSpace c = false) (l : List Byte) :
    ∃ t rest, c :: l = t ++ rest ∧ t ≠ [] ∧ (∀ c ∈ t, isSpace c = false) ∧
      ∀ c ∈ rest.head?, isSpace c := by
  obtain ⟨t, rest, rfl, ht, hrest⟩ := exists_run (fun c => !isSpace c) l
  refine ⟨c :: t, rest, rfl, List.cons_ne_nil _ _, ?_, fun c hc => by simpa using hrest c hc⟩
  exact List.forall_mem_cons.mpr ⟨hc, fun c hc => by simpa using ht c hc⟩

/-- A message returns, and does not write to the line. -/
theorem print_returns {m : Memory} {fmt : String} {args : List Word} (buf : Word)
    (line : List Byte)
    (hitems : ∀ d ∈ fmtItems (fun i => args.getD i 0#32) (text fmt) .text 0,
      d.Supplied m fun i => args.getD i 0#32) :
    ∃ log cnt, Cmd.print m fmt args = ⟨log, .ok cnt⟩ ∧ ∀ e ∈ log, e.Allowed buf line := by
  obtain ⟨cnt, hcnt⟩ := cprintf_returns hitems
  refine ⟨_, cnt, by rw [Cmd.print, hcnt], ?_⟩
  intro e he
  obtain ⟨e', -, rfl⟩ := List.mem_map.mp he
  trivial

theorem print_tooMany (buf : Word) (line : List Byte) (m : Memory) :
    ∃ log cnt, Cmd.print m "Too many arguments (max %d)\n" [BitVec.ofNat 32 maxargs] =
      ⟨log, .ok cnt⟩ ∧ ∀ e ∈ log, e.Allowed buf line := by
  refine print_returns buf line fun d hd => ?_
  obtain rfl : d = .signed {} 16#64 := List.mem_singleton.mp hd
  trivial

end Scan

/-! ### The parser -/

section Round

variable {m m' : Memory} {n argc : ℕ} {argv : ℕ → Word} {buf buf' : Word} {log : List CmdEvent}
  {b : Byte}

/-- At the end of the line the parser is done. -/
theorem parseArgs_end (hgobble : gobbleSpace (2 ^ 32) m buf = ⟨log, .ok (m', buf')⟩)
    (hb : deref m' buf' = .ok 0#8) :
    parseArgs (n + 1) m argc argv buf = ⟨log, .ok (some ⟨m', argc, argv⟩)⟩ := by
  rw [parseArgs, hgobble, Logged.bind_of_ok rfl]
  simp only [hb, Cmd.lift]
  rw [Logged.bind_of_ok rfl, if_pos rfl]
  simp

/-- One argument too many. -/
theorem parseArgs_full (hgobble : gobbleSpace (2 ^ 32) m buf = ⟨log, .ok (m', buf')⟩)
    (hb : deref m' buf' = .ok b) (hnul : b ≠ 0#8) (hargc : argc = maxargs - 1)
    {log' : List CmdEvent} {cnt : Word}
    (hprint : Cmd.print m' "Too many arguments (max %d)\n" [BitVec.ofNat 32 maxargs] =
      ⟨log', .ok cnt⟩) :
    parseArgs (n + 1) m argc argv buf = ⟨log ++ log', .ok none⟩ := by
  rw [parseArgs, hgobble, Logged.bind_of_ok rfl]
  simp only [hb, Cmd.lift]
  rw [Logged.bind_of_ok rfl, if_neg hnul, if_pos hargc, hprint, Logged.bind_of_ok rfl]
  simp

/-- An argument is added. -/
theorem parseArgs_add (n : ℕ) (argv : ℕ → Word)
    (hgobble : gobbleSpace (2 ^ 32) m buf = ⟨log, .ok (m', buf')⟩)
    (hb : deref m' buf' = .ok b) (hnul : b ≠ 0#8) (hargc : argc ≠ maxargs - 1) {buf₂ : Word}
    (hskip : skipArg m' (2 ^ 32) buf' = ⟨[], .ok buf₂⟩) :
    parseArgs (n + 1) m argc argv buf =
      ⟨log ++ .argv argc ::
          (parseArgs n m' (argc + 1) (Function.update argv argc buf') buf₂).log,
        (parseArgs n m' (argc + 1) (Function.update argv argc buf') buf₂).result⟩ := by
  rw [parseArgs, hgobble, Logged.bind_of_ok rfl]
  simp only [hb, Cmd.lift]
  rw [Logged.bind_of_ok rfl, if_neg hnul, if_neg hargc, Logged.bind_of_ok rfl, hskip,
    Logged.bind_of_ok rfl]
  rfl

end Round

section Parser

variable {m : Memory} {buf : Word} {line : List Byte} {p : ℕ}

/-- What the parser has added behind position `p`, when `argc` arguments were there. -/
structure Adds (m : Memory) (buf : Word) (line : List Byte) (p argc : ℕ) (argv : ℕ → Word)
    (r : Option Parsed) : Prop where
  full : maxargs ≤ argc + (tokens (line.drop p)).length → r = none
  args : argc + (tokens (line.drop p)).length < maxargs → ∃ argv',
    r = some ⟨scanned m buf line line.length, argc + (tokens (line.drop p)).length, argv'⟩ ∧
    (∀ k < argc, argv' k = argv k) ∧
    ∀ k t, (tokens (line.drop p))[k]? = some t →
      ∃ off, argv' (argc + k) = buf + BitVec.ofNat 32 off ∧ TokenAt line off t

/-- An argument and then those behind it. -/
theorem Adds.cons {argc : ℕ} {argv : ℕ → Word} {r : Option Parsed} {q off : ℕ} {t : List Byte}
    (htoken : TokenAt line off t) (htokens : tokens (line.drop p) = t :: tokens (line.drop q))
    (h : Adds m buf line q (argc + 1) (Function.update argv argc (buf + BitVec.ofNat 32 off)) r) :
    Adds m buf line p argc argv r := by
  -- the word that was stored is one argument more and one token less
  have hlen : argc + (tokens (line.drop p)).length =
      argc + 1 + (tokens (line.drop q)).length := by
    rw [htokens, List.length_cons]
    omega
  refine ⟨fun hfull => h.full (hlen ▸ hfull), fun hroom => ?_⟩
  obtain ⟨argv', hr, hold, hnew⟩ := h.args (hlen ▸ hroom)
  refine ⟨argv', hlen ▸ hr, ?_, ?_⟩
  · intro k hk
    rw [hold k (by omega), Function.update_of_ne hk.ne]
  · intro k t' hk
    rw [htokens] at hk
    cases k with
    | zero =>
      cases hk
      exact ⟨off, by rw [Nat.add_zero, hold argc (by omega), Function.update_self], htoken⟩
    | succ k =>
      rw [show argc + (k + 1) = argc + 1 + k by omega]
      exact hnew k t' hk

theorem parseArgs_scanned (hline : StringAt m buf line) (n : ℕ) {argc : ℕ} (argv : ℕ → Word)
    (hp : p ≤ line.length) (hargc : argc < maxargs) (hn : argc + n = maxargs) :
    ∃ log r, parseArgs n (scanned m buf line p) argc argv (buf + BitVec.ofNat 32 p) =
        ⟨log, .ok r⟩ ∧ (∀ e ∈ log, e.Allowed buf line) ∧ Adds m buf line p argc argv r := by
  induction n generalizing p argc argv with
  | zero => omega
  | succ n ih =>
    have hlt := hline.length_lt
    -- the blanks in front of the next argument
    obtain ⟨ws, rest, hdrop, hws, hrest⟩ := exists_run isSpace (line.drop p)
    have hlen : p + ws.length + rest.length = line.length := by
      have hlen' := congrArg List.length hdrop
      rw [List.length_drop, List.length_append] at hlen'
      omega
    have hdrop₁ : line.drop (p + ws.length) = rest := by
      rw [← List.drop_drop, hdrop, List.drop_left]
    have htokens : tokens (line.drop p) = tokens rest := by
      rw [hdrop, tokens_spaces hws]
    obtain ⟨log₁, hgobble, hlog₁⟩ := gobbleSpace_scanned hline (n := 2 ^ 32) hdrop hp hws hrest
      (by omega)
    have hchar := deref_scanned hline (le_refl (p + ws.length)) (by omega)
    rw [getD_eq_headD hdrop₁] at hchar
    cases rest with
    | nil =>
      -- the end of the line
      have hend : p + ws.length = line.length := by simpa using hlen
      refine ⟨_, _, parseArgs_end hgobble hchar, hlog₁, ?_, ?_⟩
      · rw [htokens, tokens_nil]
        exact fun hc => absurd hc (not_le.mpr hargc)
      · intro _
        rw [htokens, tokens_nil, hend]
        exact ⟨argv, rfl, fun k _ => rfl, fun k t hk => by cases hk⟩
    | cons c rest =>
      have hnul : c ≠ 0#8 := nonzero_of_drop hline hdrop₁
      obtain ⟨t, rest', hrest', hne, ht, hspace⟩ := exists_word (hrest c rfl) rest
      have hplace : line.drop (p + ws.length) = t ++ rest' := hdrop₁.trans hrest'
      have htoken : TokenAt line (p + ws.length) t := ⟨hne, ht, rest', hplace, hspace⟩
      have hend : p + ws.length + t.length ≤ line.length := by
        rw [hrest', List.length_append] at hlen
        omega
      have hdrop₂ : line.drop (p + ws.length + t.length) = rest' := by
        rw [← List.drop_drop, hplace, List.drop_left]
      have hword : tokens (line.drop p) = t :: tokens rest' := by
        rw [htokens, hrest', tokens_word hne ht hspace]
      by_cases hfull : argc = maxargs - 1
      · -- there is no room for it
        obtain ⟨log₂, cnt, hprint, hlog₂⟩ :=
          print_tooMany buf line (scanned m buf line (p + ws.length))
        refine ⟨_, _, parseArgs_full hgobble hchar hnul hfull hprint,
          List.forall_mem_append.mpr ⟨hlog₁, hlog₂⟩, fun _ => rfl, ?_⟩
        rw [hword, List.length_cons]
        intro hc
        omega
      · have hskip := skipArg_scanned hline (n := 2 ^ 32) hplace le_rfl (by omega) ht hspace
          (by omega)
        obtain ⟨log₂, r, hrun, hlog₂, hadds⟩ := ih
          (Function.update argv argc (buf + BitVec.ofNat 32 (p + ws.length))) hend
          (show argc + 1 < maxargs by omega) (by omega)
        rw [scanned_word hline hplace ht] at hrun
        have hround := parseArgs_add n argv hgobble hchar hnul hfull hskip
        rw [hrun] at hround
        refine ⟨_, r, hround, ?_, hadds.cons htoken (hdrop₂ ▸ hword)⟩
        exact List.forall_mem_append.mpr ⟨hlog₁, List.forall_mem_cons.mpr ⟨hargc, hlog₂⟩⟩

end Parser

/-! ### The commands -/

theorem StringAt.tail {m : Memory} {p : Word} {b : Byte} {t : List Byte}
    (h : StringAt m p (b :: t)) : StringAt m (p + 1#32) t := by
  have hadd : ∀ i, p + 1#32 + BitVec.ofNat 32 i = p + BitVec.ofNat 32 (i + 1) := by
    intro i
    rw [Nat.add_comm i 1, BitVec.ofNat_add, BitVec.add_assoc]
  refine ⟨?_, fun c hc => h.nonzero c (List.mem_cons_of_mem _ hc), ?_⟩
  · intro i c hc
    rw [hadd]
    exact h.char (i + 1) c hc
  · rw [hadd]
    exact h.nul

/-- `*p` of a string. -/
theorem StringAt.deref {m : Memory} {p : Word} {t : List Byte} (h : StringAt m p t) :
    Jos.deref m p = .ok (t.headD 0#8) := by
  have hread : m p = some (t.headD 0#8) := by
    cases t with
    | nil => simpa using h.nul
    | cons b t => simpa using h.char 0 b rfl
  rw [Jos.deref, hread]

/-- Two bytes are equal if their difference as `int`s is zero. -/
theorem sub_setWidth_eq_zero (b c : Byte) : b.setWidth 32 - c.setWidth 32 = 0#32 ↔ b = c := by
  rw [BitVec.sub_eq_iff_eq_add, BitVec.zero_add]
  refine ⟨fun h => ?_, fun h => by rw [h]⟩
  have hbytes := congrArg (BitVec.setWidth 8) h
  simpa using hbytes

/-- `strcmp` returns zero for equal strings, and only for them. -/
theorem strcmp_eq_zero {m : Memory} {p : Word} {t q : List Byte} (h : StringAt m p t)
    (hq : ∀ c ∈ q, c ≠ 0#8) : ∃ r, strcmp m p q = .ok r ∧ (r = 0#32 ↔ t = q) := by
  induction q generalizing p t with
  | nil =>
    refine ⟨(t.headD 0#8).setWidth 32 - 0#32, by rw [strcmp, h.deref]; rfl, ?_⟩
    refine (sub_setWidth_eq_zero (t.headD 0#8) 0#8).trans ?_
    cases t with
    | nil => exact iff_of_true rfl rfl
    | cons b t => exact iff_of_false (h.nonzero b List.mem_cons_self) (List.cons_ne_nil _ _)
  | cons c q ih =>
    obtain ⟨hc, hq'⟩ := List.forall_mem_cons.mp hq
    by_cases hgo : t.headD 0#8 ≠ 0#8 ∧ t.headD 0#8 = c
    · -- the first characters agree
      cases t with
      | nil => exact absurd rfl hgo.1
      | cons b t =>
        obtain rfl : b = c := hgo.2
        obtain ⟨r, hr, hiff⟩ := ih h.tail hq'
        refine ⟨r, ?_, by rw [hiff, List.cons.injEq, and_iff_right rfl]⟩
        rw [strcmp, h.deref]
        exact (if_pos hgo).trans hr
    · refine ⟨(t.headD 0#8).setWidth 32 - c.setWidth 32, ?_, ?_⟩
      · rw [strcmp, h.deref]
        exact if_neg hgo
      · rw [sub_setWidth_eq_zero]
        refine iff_of_false (fun hc' => hgo ⟨hc' ▸ hc, hc'⟩) ?_
        rintro rfl
        exact hgo ⟨hc, rfl⟩

theorem Command.name_nonzero (c : Command) : ∀ b ∈ c.name, b ≠ 0#8 := by
  cases c <;> decide

/-- The command is found by its name. -/
theorem findCommand_eq {m : Memory} {p : Word} {t : List Byte} (h : StringAt m p t)
    (cs : List Command) :
    findCommand m p cs = ⟨[], .ok (cs.find? fun c => t = c.name)⟩ := by
  induction cs with
  | nil => rfl
  | cons c cs ih =>
    obtain ⟨r, hr, hiff⟩ := strcmp_eq_zero h c.name_nonzero
    rw [findCommand, hr, Cmd.lift, Logged.bind_of_ok rfl]
    by_cases hname : t = c.name
    · rw [if_pos (hiff.mpr hname), List.find?_cons_of_pos (by simpa using hname)]
      rfl
    · rw [if_neg fun hc => hname (hiff.mp hc), List.find?_cons_of_neg (by simpa using hname), ih]
      rfl

theorem find_commands {t : List Byte} {c : Command} :
    commands.find? (fun c => t = c.name) = some c ↔ t = c.name := by
  refine ⟨fun h => by simpa using List.find?_some h, ?_⟩
  rintro rfl
  cases c <;> decide

/-- What the parser yields: the words of the line as strings, in order and in place, and then
the null pointer. -/
structure Tokenised (line : List Byte) (buf : Word) (p : Parsed) : Prop where
  argc_eq : p.argc = (tokens line).length
  arg : ∀ k t, (tokens line)[k]? = some t → StringAt p.m (p.argv k) t ∧
    ∃ off, p.argv k = buf + BitVec.ofNat 32 off ∧ TokenAt line off t
  null : p.argv p.argc = 0#32

section Main

variable {m : Memory} {buf : Word} {line : List Byte}

theorem runcmdParse_none {argv : ℕ → Word} {log : List CmdEvent}
    (h : parseArgs maxargs m 0 (Function.update argv 0 0#32) buf = ⟨log, .ok none⟩) :
    runcmdParse m argv buf = ⟨.argv 0 :: log, .ok none⟩ := by
  rw [runcmdParse, Logged.bind_of_ok (a := Function.update argv 0 0#32) rfl, h,
    Logged.bind_of_ok rfl, Logged.log_pure, List.append_nil]
  rfl

theorem runcmdParse_some {argv : ℕ → Word} {log : List CmdEvent} {p : Parsed}
    (h : parseArgs maxargs m 0 (Function.update argv 0 0#32) buf = ⟨log, .ok (some p)⟩) :
    runcmdParse m argv buf =
      ⟨.argv 0 :: (log ++ [.argv p.argc]),
        .ok (some { p with argv := Function.update p.argv p.argc 0#32 })⟩ := by
  rw [runcmdParse, Logged.bind_of_ok (a := Function.update argv 0 0#32) rfl, h,
    Logged.bind_of_ok rfl]
  rfl

/-- The parser yields the words of the line, unless there are too many. -/
theorem runcmdParse_tokenises (hline : StringAt m buf line) (argv : ℕ → Word) :
    ∃ log r, runcmdParse m argv buf = ⟨log, .ok r⟩ ∧ (∀ e ∈ log, e.Allowed buf line) ∧
      (maxargs ≤ (tokens line).length → r = none) ∧
      ((tokens line).length < maxargs → ∃ p, r = some p ∧ Tokenised line buf p) := by
  obtain ⟨log, r, hrun, hlog, hfull, hargs⟩ := parseArgs_scanned (p := 0) hline maxargs
    (Function.update argv 0 0#32) (Nat.zero_le _) (by decide) rfl
  rw [scanned_zero, BitVec.add_zero] at hrun
  rw [List.drop_zero, Nat.zero_add] at hfull hargs
  have hzero : CmdEvent.Allowed buf line (.argv 0) := show 0 < maxargs by decide
  by_cases hmany : maxargs ≤ (tokens line).length
  · obtain rfl := hfull hmany
    exact ⟨_, none, runcmdParse_none hrun, List.forall_mem_cons.mpr ⟨hzero, hlog⟩, fun _ => rfl,
      fun hc => absurd hc (not_lt.mpr hmany)⟩
  · obtain ⟨argv', rfl, -, hnew⟩ := hargs (not_le.mp hmany)
    refine ⟨_, _, runcmdParse_some hrun, ?_, fun hc => absurd hc hmany,
      fun _ => ⟨_, rfl, rfl, ?_, Function.update_self ..⟩⟩
    · rw [List.forall_mem_cons, List.forall_mem_append, List.forall_mem_singleton]
      exact ⟨hzero, hlog, not_le.mp hmany⟩
    · -- the null pointer behind the last argument leaves the arguments alone
      intro k t hk
      have hlt : k < (tokens line).length := (List.getElem?_eq_some_iff.mp hk).1
      obtain ⟨off, hoff, htoken⟩ := hnew k t hk
      rw [Nat.zero_add] at hoff
      have hargv : Function.update argv' (tokens line).length 0#32 k =
          buf + BitVec.ofNat 32 off := by
        rw [Function.update_of_ne hlt.ne, hoff]
      have hstring := htoken.stringAt hline
      rw [← hargv] at hstring
      exact ⟨hstring, off, hargv, htoken⟩

theorem print_unknown {p : Word} {t : List Byte} (h : StringAt m p t) (buf : Word)
    (line : List Byte) :
    ∃ log cnt, Cmd.print m "Unknown command '%s'\n" [p] = ⟨log, .ok cnt⟩ ∧
      ∀ e ∈ log, e.Allowed buf line := by
  refine print_returns buf line fun d hd => ?_
  obtain rfl : d = .string {} 0 := List.mem_singleton.mp hd
  by_cases hnull : p = 0#32
  · exact ⟨_, .inl ⟨hnull, rfl⟩⟩
  · exact ⟨t, .inr ⟨hnull, h⟩⟩

/-- What `runcmd` does with the arguments. -/
theorem runcmd_parsed {argv : ℕ → Word} {log : List CmdEvent} {p : Parsed}
    (hparse : runcmdParse m argv buf = ⟨log, .ok (some p)⟩) (hp : Tokenised line buf p) :
    ∃ log', runcmd m argv buf = ⟨log ++ log', .ok
        (match (tokens line).head?.bind fun t => commands.find? fun c => t = c.name with
        | some c => .called c p
        | none => .returned 0#32)⟩ ∧ ∀ e ∈ log', e.Allowed buf line := by
  rw [runcmd, hparse, Logged.bind_of_ok rfl]
  cases htokens : tokens line with
  | nil =>
    have hargc : p.argc = 0 := by
      rw [hp.argc_eq, htokens]
      rfl
    refine ⟨[], ?_, List.forall_mem_nil _⟩
    simp only [if_pos hargc]
    rfl
  | cons t ts =>
    have hargc : p.argc ≠ 0 := by
      rw [hp.argc_eq, htokens]
      exact Nat.succ_ne_zero _
    -- `argv[0]` is the first word, so the search is for its name
    obtain ⟨hstring, -⟩ := hp.arg 0 t (by rw [htokens]; rfl)
    simp only [if_neg hargc, findCommand_eq hstring, List.head?_cons, Option.bind_some]
    cases hfind : commands.find? fun c => t = c.name with
    | some c =>
      refine ⟨[], ?_, List.forall_mem_nil _⟩
      rw [Logged.bind_of_ok rfl]
      rfl
    | none =>
      obtain ⟨log', cnt, hprint, hlog'⟩ := print_unknown hstring buf line
      refine ⟨log', ?_, hlog'⟩
      rw [Logged.bind_of_ok rfl]
      simp only [hprint]
      rw [Logged.bind_of_ok rfl, Logged.log_pure, List.append_nil]
      rfl

/-- The arguments of a command are the words of its line, and the command is the one whose
name the first of them is. More than 15 words are none. -/
theorem runcmd_tokenises (hline : StringAt m buf line) (argv : ℕ → Word) :
    (∀ e ∈ (runcmd m argv buf).log, e.Allowed buf line) ∧
    ((tokens line).length ≤ 15 → ∃ p, (runcmdParse m argv buf).result = .ok (some p) ∧
      Tokenised line buf p ∧
      (∀ c p', (runcmd m argv buf).result = .ok (.called c p') ↔
        (tokens line).head? = some c.name ∧ p' = p) ∧
      ((∀ c : Command, (tokens line).head? ≠ some c.name) →
        (runcmd m argv buf).result = .ok (.returned 0#32))) ∧
    (15 < (tokens line).length → (runcmd m argv buf).result = .ok (.returned 0#32)) := by
  obtain ⟨log, r, hparse, hlog, hfull, hargs⟩ := runcmdParse_tokenises hline argv
  by_cases hmany : maxargs ≤ (tokens line).length
  · -- the parser has given up, and `runcmd` returns
    obtain rfl := hfull hmany
    have hrun : runcmd m argv buf = ⟨log, .ok (.returned 0#32)⟩ := by
      rw [runcmd, hparse, Logged.bind_of_ok rfl, Logged.log_pure, List.append_nil]
      rfl
    rw [hrun]
    exact ⟨hlog, fun hc => absurd hmany (by rw [maxargs]; omega), fun _ => rfl⟩
  · obtain ⟨p, rfl, hp⟩ := hargs (not_le.mp hmany)
    obtain ⟨log', hrun, hlog'⟩ := runcmd_parsed hparse hp
    -- no two commands have one name
    have hcommand : ∀ c : Command,
        ((tokens line).head?.bind fun t => commands.find? fun c => t = c.name) = some c ↔
          (tokens line).head? = some c.name := by
      intro c
      cases (tokens line).head? with
      | none => simp
      | some t => rw [Option.bind_some, find_commands, Option.some.injEq]
    rw [hrun, hparse]
    refine ⟨List.forall_mem_append.mpr ⟨hlog, hlog'⟩, fun _ => ⟨p, rfl, hp, ?_, ?_⟩,
      fun hc => absurd hc (by rw [maxargs] at hmany; omega)⟩
    · intro c p'
      rw [← hcommand]
      split
      · next c' hc' =>
        rw [hc', Except.ok.injEq, CmdOutcome.called.injEq, Option.some.injEq]
        exact and_congr_right' eq_comm
      · next hnone =>
        rw [hnone]
        exact iff_of_false (fun hc => by cases hc) fun hc => by cases hc.1
    · intro hother
      split
      · next c hc => exact absurd ((hcommand c).mp hc) (hother c)
      · rfl

end Main

/-- The line `" help  me\n"` at `0x1000`. -/
def helpLine : Memory := stored (fun _ => none) 0x1000#32 ((text " help  me\n" ++ [0#8]).map some)

theorem helpLine_stringAt : StringAt helpLine 0x1000#32 (text " help  me\n") := by
  refine ⟨?_, by decide, ?_⟩
  · intro i b hb
    refine stored_getElem _ _ (by decide) ?_
    rw [List.getElem?_map, List.getElem?_append_left (List.getElem?_eq_some_iff.mp hb).1, hb]
    rfl
  · exact stored_getElem _ _ (by decide) rfl

/-- `help` is called with two arguments. -/
theorem runcmd_help : StringAt helpLine 0x1000#32 (text " help  me\n") ∧
    ∃ p, (runcmd helpLine (fun _ => 0#32) 0x1000#32).result = .ok (.called .help p) ∧
      p.argc = 2 ∧ StringAt p.m (p.argv 1) (text "me") ∧ p.argv 2 = 0#32 := by
  have htokens : tokens (text " help  me\n") = [text "help", text "me"] := by decide
  obtain ⟨-, hfew, -⟩ := runcmd_tokenises helpLine_stringAt fun _ => 0#32
  rw [htokens] at hfew
  obtain ⟨p, -, ⟨hargc, harg, hnull⟩, hcalled, -⟩ := hfew (by decide)
  rw [htokens] at hargc harg
  have htwo : p.argc = 2 := hargc
  refine ⟨helpLine_stringAt, p, (hcalled .help p).mpr ⟨rfl, rfl⟩, htwo, (harg 1 _ rfl).1, ?_⟩
  rw [← htwo, hnull]

end Jos
