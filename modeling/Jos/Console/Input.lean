import Jos.Kern.Console

/-!
# The input buffer is a queue

Interrupts put bytes into the ring of `kern/console.c` and `cons_getc` takes them out. While
at most 511 are in it, the ring is a queue: `cons_fifo`. There is no check for that. The
512th byte brings the index of the next write back to the index of the next read, and then
the ring looks empty: `cons_looks_empty`. In a run in which that does not happen a byte that
has come in can be read: `cons_readable`.
-/

namespace Jos

/-! ### Runs -/

/-- What happens to the input buffer. -/
inductive ConsOp where
  /-- An interrupt of the serial port. -/
  | serial (data : List Byte)
  /-- An interrupt of the keyboard. -/
  | kbd (data : List Byte)
  /-- A call of `cons_getc`, and what it finds at the two devices. -/
  | getc (port keys : List Byte)

/-- The bytes that are no NULs. -/
def nonzero (data : List Byte) : List Byte := data.filter (· ≠ 0#8)

/-- The bytes that an operation puts into the buffer. -/
def ConsOp.bytes (serialExists : Bool) : ConsOp → List Byte
  | .serial data => if serialExists then nonzero data else []
  | .kbd data => nonzero data
  | .getc port keys => (if serialExists then nonzero port else []) ++ nonzero keys

/-- The buffer, and what has happened to it: the bytes that were received, what `cons_getc`
has returned, and the bytes that were stored since it last returned 0 or emptied the
buffer. -/
structure ConsRun where
  cons : Cons := consInit
  received : List Byte := []
  returned : List Byte := []
  waiting : List Byte := []

/-- One operation. -/
def ConsRun.step (serialExists : Bool) (t : ConsRun) (op : ConsOp) : ConsRun :=
  let bytes := op.bytes serialExists
  match op with
  | .serial data =>
    { cons := serialIntr serialExists data t.cons, received := t.received ++ bytes,
      returned := t.returned, waiting := t.waiting ++ bytes }
  | .kbd data =>
    { cons := kbdIntr data t.cons, received := t.received ++ bytes, returned := t.returned,
      waiting := t.waiting ++ bytes }
  | .getc port keys =>
    let (c, cons) := consGetc serialExists port keys t.cons
    { cons := cons, received := t.received ++ bytes, returned := t.returned ++ [c],
      waiting := if c = 0#8 ∨ cons.rpos = cons.wpos then [] else t.waiting ++ bytes }

/-- The operations one after the other. -/
def consRun (serialExists : Bool) (ops : List ConsOp) : ConsRun :=
  ops.foldl (ConsRun.step serialExists) {}

/-- The bytes that have been received and not yet returned. -/
def ConsRun.pending (t : ConsRun) : List Byte := t.received.drop (nonzero t.returned).length

/-! ### Steps -/

section Steps

variable {e : Bool} {cons : Cons} {q data : List Byte} {t : ConsRun}

theorem consPut_eq (cons : Cons) (c : Byte) : consPut cons c = cons.put consbufsize c := by
  simp only [consPut, Ring.put, Ring.next]
  split_ifs <;> rfl

/-- `cons_intr` queues the bytes that are no NULs. -/
theorem consIntr_holds (h : cons.Holds consbufsize q)
    (hroom : (q ++ nonzero data).length < consbufsize) :
    (consIntr data cons).Holds consbufsize (q ++ nonzero data) := by
  induction data generalizing cons q with
  | nil => rwa [nonzero, List.filter_nil, List.append_nil]
  | cons c data ih =>
    rw [consIntr]
    by_cases hc : c = 0#8
    · -- a NUL is not stored
      have hskip : nonzero (c :: data) = nonzero data := List.filter_cons_of_neg (by simpa using hc)
      rw [hskip] at hroom ⊢
      rw [if_pos hc]
      exact ih h hroom
    · have hkeep : q ++ nonzero (c :: data) = q ++ [c] ++ nonzero data := by
        rw [nonzero, List.filter_cons_of_pos (by simpa using hc), List.append_assoc]
        rfl
      rw [hkeep] at hroom ⊢
      rw [if_neg hc, consPut_eq]
      refine ih (h.put ?_ c) hroom
      rw [List.length_append, List.length_append, List.length_singleton] at hroom
      omega

/-- `cons_getc` queues what it finds at the devices, and then takes one byte. -/
theorem consGetc_eq (e : Bool) (port keys : List Byte) (cons : Cons) :
    consGetc e port keys cons =
      let r := (kbdIntr keys (serialIntr e port cons)).get consbufsize
      (r.1.getD 0#8, r.2) := by
  simp only [consGetc, Ring.get, Ring.next]
  split_ifs <;> rfl

theorem serialIntr_holds (h : cons.Holds consbufsize q)
    (hroom : (q ++ (ConsOp.serial data).bytes e).length < consbufsize) :
    (serialIntr e data cons).Holds consbufsize (q ++ (ConsOp.serial data).bytes e) := by
  cases e with
  | true => exact consIntr_holds h hroom
  | false => rwa [ConsOp.bytes, if_neg (by decide), List.append_nil]

theorem polled_holds {port keys : List Byte} (h : cons.Holds consbufsize q)
    (hroom : (q ++ (ConsOp.getc port keys).bytes e).length < consbufsize) :
    (kbdIntr keys (serialIntr e port cons)).Holds consbufsize
      (q ++ (ConsOp.getc port keys).bytes e) := by
  have hbytes : q ++ (ConsOp.getc port keys).bytes e =
      q ++ (ConsOp.serial port).bytes e ++ nonzero keys := by
    rw [List.append_assoc]
    rfl
  rw [hbytes] at hroom ⊢
  refine consIntr_holds (serialIntr_holds h ?_) hroom
  rw [List.length_append] at hroom
  omega

/-- The bytes that an operation puts into the buffer are no NULs. -/
theorem ConsOp.bytes_nonzero (e : Bool) (op : ConsOp) : ∀ b ∈ op.bytes e, b ≠ 0#8 := by
  have hfilter : ∀ (data : List Byte), ∀ b ∈ nonzero data, b ≠ 0#8 := by
    intro data b hb
    simpa using (List.mem_filter.mp hb).2
  intro b hb
  cases op with
  | serial data =>
    rw [ConsOp.bytes] at hb
    split_ifs at hb
    · exact hfilter data b hb
    · cases hb
  | kbd data => exact hfilter data b hb
  | getc port keys =>
    obtain hb | hb := List.mem_append.mp hb
    · split_ifs at hb
      · exact hfilter port b hb
      · cases hb
    · exact hfilter keys b hb

end Steps

/-! ### The invariant -/

/-- The buffer holds the queue `q` of the bytes that have not been returned, and something is
waiting only if the queue is not empty. -/
structure ConsRun.Queues (t : ConsRun) (q : List Byte) : Prop where
  holds : t.cons.Holds consbufsize q
  received : t.received = nonzero t.returned ++ q
  bytes : ∀ b ∈ q, b ≠ 0#8
  waiting : t.waiting ≠ [] → q ≠ []

section Queues

variable {e : Bool} {t : ConsRun} {q : List Byte}

theorem ConsRun.Queues.pending (h : t.Queues q) : t.pending = q := by
  rw [ConsRun.pending, h.received, List.drop_left]

/-- An interrupt: its bytes are behind the others. -/
theorem queues_intr (h : t.Queues q) {op : ConsOp} {cons : Cons}
    (hcons : cons.Holds consbufsize (q ++ op.bytes e)) :
    ConsRun.Queues ⟨cons, t.received ++ op.bytes e, t.returned, t.waiting ++ op.bytes e⟩
      (q ++ op.bytes e) := by
  refine ⟨hcons, ?_, ?_, ?_⟩
  · change t.received ++ op.bytes e = _
    rw [h.received, List.append_assoc]
  · exact List.forall_mem_append.mpr ⟨h.bytes, op.bytes_nonzero e⟩
  · intro hwait hempty
    obtain ⟨hq, hop⟩ := List.append_eq_nil_iff.mp hempty
    rw [hop] at hwait
    exact h.waiting (fun hc => hwait (by rw [hc]; rfl)) hq

/-- A call of `cons_getc`: it returns the first byte of the queue, or 0. -/
theorem queues_getc (h : t.Queues q) {port keys : List Byte}
    (hroom : (q ++ (ConsOp.getc port keys).bytes e).length < consbufsize) :
    (consGetc e port keys t.cons).1 = (q ++ (ConsOp.getc port keys).bytes e).headD 0#8 ∧
      (t.step e (.getc port keys)).Queues (q ++ (ConsOp.getc port keys).bytes e).tail := by
  have hpolled := polled_holds h.holds hroom
  have hreceived : t.received ++ (ConsOp.getc port keys).bytes e =
      nonzero t.returned ++ (q ++ (ConsOp.getc port keys).bytes e) := by
    rw [h.received, List.append_assoc]
  have hbytes : ∀ b ∈ q ++ (ConsOp.getc port keys).bytes e, b ≠ 0#8 :=
    List.forall_mem_append.mpr ⟨h.bytes, (ConsOp.getc port keys).bytes_nonzero e⟩
  simp only [ConsRun.step, consGetc_eq]
  generalize q ++ (ConsOp.getc port keys).bytes e = q' at hpolled hreceived hbytes
  cases q' with
  | nil =>
    rw [hpolled.get_nil]
    refine ⟨rfl, hpolled, ?_, hbytes, ?_⟩
    · change t.received ++ _ = nonzero (t.returned ++ [0#8]) ++ []
      rw [hreceived, nonzero, nonzero, List.filter_append, List.append_assoc]
      rfl
    · exact fun hwait => absurd hwait (by simp)
  | cons b q' =>
    obtain ⟨hb, hq'⟩ := List.forall_mem_cons.mp hbytes
    obtain ⟨hget, hrest⟩ := hpolled.get_cons
    rw [hget]
    refine ⟨rfl, hrest, ?_, hq', ?_⟩
    · change t.received ++ _ = nonzero (t.returned ++ [b]) ++ q'
      rw [hreceived, nonzero, nonzero, List.filter_append, List.append_assoc,
        List.filter_cons_of_pos (by simpa using hb)]
      rfl
    · -- a queue that is empty now has nothing waiting
      intro hwait hempty
      exact hwait (if_pos (.inr (hrest.rpos_eq_wpos_iff.mpr hempty)))

/-- Every operation keeps a queue for which there is room. -/
theorem queues_step (h : t.Queues q) {op : ConsOp}
    (hroom : (q ++ op.bytes e).length < consbufsize) : ∃ q', (t.step e op).Queues q' := by
  cases op with
  | serial data => exact ⟨_, queues_intr h (serialIntr_holds h.holds hroom)⟩
  | kbd data => exact ⟨_, queues_intr h (consIntr_holds h.holds hroom)⟩
  | getc port keys => exact ⟨_, (queues_getc h hroom).2⟩

end Queues

theorem consRun_append (e : Bool) (ops : List ConsOp) (op : ConsOp) :
    consRun e (ops ++ [op]) = (consRun e ops).step e op := by
  rw [consRun, List.foldl_append]
  rfl

/-- While there is room for what comes, the buffer holds a queue. -/
theorem consRun_queues {e : Bool} {ops pre : List ConsOp}
    (hroom : ∀ pre op, pre ++ [op] <+: ops → ∀ q, (consRun e pre).Queues q →
      (q ++ op.bytes e).length < consbufsize) (hpre : pre <+: ops) :
    ∃ q, (consRun e pre).Queues q := by
  induction pre using List.reverseRecOn with
  | nil =>
    have hpos : 0 < consbufsize := by decide
    exact ⟨[], ⟨hpos, hpos, rfl, fun i a ha => by cases ha⟩, rfl, List.forall_mem_nil _,
      fun hc => absurd rfl hc⟩
  | append_singleton pre op ih =>
    obtain ⟨q, hq⟩ := ih ((List.prefix_append _ _).trans hpre)
    rw [consRun_append]
    exact queues_step hq (hroom pre op hpre q hq)

/-! ### A queue -/

/-- What the calls of `cons_getc` have returned is a prefix of what was received, a call
returns 0 exactly when everything has been returned, and the indices stay in the buffer. -/
structure ConsFifo (e : Bool) (ops : List ConsOp) : Prop where
  inOrder : ∀ pre, pre <+: ops →
    nonzero (consRun e pre).returned <+: (consRun e pre).received
  empty : ∀ pre port keys, pre ++ [ConsOp.getc port keys] <+: ops →
    ((consGetc e port keys (consRun e pre).cons).1 = 0#8 ↔
      nonzero (consRun e pre).returned =
        (consRun e (pre ++ [ConsOp.getc port keys])).received)
  indices : ∀ pre, pre <+: ops →
    (consRun e pre).cons.rpos < consbufsize ∧ (consRun e pre).cons.wpos < consbufsize

theorem headD_eq_zero_iff {q : List Byte} (h : ∀ b ∈ q, b ≠ 0#8) :
    q.headD 0#8 = 0#8 ↔ q = [] := by
  cases q with
  | nil => exact iff_of_true rfl rfl
  | cons b q => exact iff_of_false (h b List.mem_cons_self) (List.cons_ne_nil b q)

/-- `cons_getc` returns 0 exactly when the queue is empty and it has polled nothing. -/
theorem consGetc_eq_zero_iff {e : Bool} {t : ConsRun} {q port keys : List Byte}
    (h : t.Queues q) (hroom : (q ++ (ConsOp.getc port keys).bytes e).length < consbufsize) :
    (consGetc e port keys t.cons).1 = 0#8 ↔ q ++ (ConsOp.getc port keys).bytes e = [] := by
  rw [(queues_getc h hroom).1]
  exact headD_eq_zero_iff
    (List.forall_mem_append.mpr ⟨h.bytes, (ConsOp.getc port keys).bytes_nonzero e⟩)

/-- The input buffer is a first-in first-out queue, in every interleaving of interrupts and
of calls of `cons_getc` in which at most 511 bytes are waiting to be returned. -/
theorem cons_fifo (e : Bool) (ops : List ConsOp)
    (hroom : ∀ pre op, pre ++ [op] <+: ops →
      ((consRun e pre).received ++ op.bytes e).length ≤
        (nonzero (consRun e pre).returned).length + 511) :
    ConsFifo e ops := by
  -- the number of bytes that were not yet returned is the length of the queue
  have hqueue : ∀ pre op, pre ++ [op] <+: ops → ∀ q, (consRun e pre).Queues q →
      (q ++ op.bytes e).length < consbufsize := by
    intro pre op hpre q hq
    have hlen := hroom pre op hpre
    rw [hq.received, List.append_assoc, List.length_append] at hlen
    exact Nat.lt_succ_of_le (Nat.le_of_add_le_add_left hlen)
  refine ⟨fun pre hpre => ?_, fun pre port keys hpre => ?_, fun pre hpre => ?_⟩
  · obtain ⟨q, hq⟩ := consRun_queues hqueue hpre
    rw [hq.received]
    exact List.prefix_append _ _
  · obtain ⟨q, hq⟩ := consRun_queues hqueue ((List.prefix_append _ _).trans hpre)
    rw [consGetc_eq_zero_iff hq (hqueue pre _ hpre q hq), consRun_append]
    change _ ↔ _ = (consRun e pre).received ++ _
    rw [hq.received, List.append_assoc, List.self_eq_append_right]
  · obtain ⟨q, hq⟩ := consRun_queues hqueue hpre
    exact ⟨hq.holds.rpos_lt, hq.holds.wpos_lt⟩

theorem step_of_two {pre : List ConsOp} {op first second : ConsOp}
    (h : pre ++ [op] <+: [first, second]) :
    (pre = [] ∧ op = first) ∨ (pre = [first] ∧ op = second) := by
  obtain ⟨rest, hrest⟩ := h
  rcases pre with _ | ⟨a, _ | ⟨b, pre⟩⟩
  · exact .inl ⟨rfl, (List.cons.inj hrest).1⟩
  · obtain ⟨rfl, htail⟩ := List.cons.inj hrest
    exact .inr ⟨rfl, (List.cons.inj htail).1⟩
  · exact absurd (List.cons.inj (List.cons.inj hrest).2).2 (by simp)

/-- Two keys and a read that finds a third byte at the serial port. -/
theorem cons_fifo_three : ConsFifo true [.kbd [97#8, 0#8, 98#8], .getc [99#8] []] := by
  refine cons_fifo true _ fun pre op hpre => ?_
  obtain ⟨rfl, rfl⟩ | ⟨rfl, rfl⟩ := step_of_two hpre <;> decide

/-! ### A burst -/

/-- What `n` calls of `cons_getc` return when nothing more comes in. -/
def consReads (e : Bool) : ℕ → Cons → List Byte
  | 0, _ => []
  | n + 1, cons =>
    let (c, cons) := consGetc e [] [] cons
    c :: consReads e n cons

/-- The 511 oldest of the bytes that have not been returned can still be read, or the 511
newest. -/
def ConsRun.Readable (e : Bool) (t : ConsRun) : Prop :=
  t.pending.take 511 <:+: consReads e t.pending.length t.cons ∨
    t.pending.drop (t.pending.length - 511) <:+: consReads e t.pending.length t.cons

/-- A run in which the buffer never looks empty: a call of `cons_getc` does not return 0 when
a byte has been stored since the buffer was last found or made empty, and 511 bytes, or all
if there are fewer, can be read in every state. -/
structure NeverLooksEmpty (e : Bool) (ops : List ConsOp) : Prop where
  getc : ∀ pre port keys, pre ++ [ConsOp.getc port keys] <+: ops →
    (consRun e pre).waiting ++ (ConsOp.getc port keys).bytes e ≠ [] →
    (consGetc e port keys (consRun e pre).cons).1 ≠ 0#8
  readable : ∀ pre, pre <+: ops → (consRun e pre).Readable e

/-- A queue can be read. -/
theorem consReads_queue {e : Bool} {cons : Cons} {q : List Byte}
    (h : cons.Holds consbufsize q) : consReads e q.length cons = q := by
  have hidle : kbdIntr [] (serialIntr e [] cons) = cons := by cases e <;> rfl
  induction q generalizing cons with
  | nil => rfl
  | cons b q ih =>
    obtain ⟨hget, hrest⟩ := h.get_cons
    simp only [List.length_cons, consReads, consGetc_eq, hidle, hget]
    rw [ih hrest (by cases e <;> rfl)]
    rfl

/-- In every run in which no operation puts more bytes into the buffer than it has room for,
given the distance of its indices, the buffer never looks empty. -/
theorem cons_readable (e : Bool) (ops : List ConsOp)
    (hroom : ∀ pre op, pre ++ [op] <+: ops →
      ((consRun e pre).cons.wpos + consbufsize - (consRun e pre).cons.rpos) % consbufsize +
        (op.bytes e).length ≤ 511) :
    NeverLooksEmpty e ops := by
  have hqueue : ∀ pre op, pre ++ [op] <+: ops → ∀ q, (consRun e pre).Queues q →
      (q ++ op.bytes e).length < consbufsize := by
    intro pre op hpre q hq
    rw [List.length_append, hq.holds.length_eq]
    exact Nat.lt_succ_of_le (hroom pre op hpre)
  refine ⟨fun pre port keys hpre hwait hzero => ?_, fun pre hpre => ?_⟩
  · obtain ⟨q, hq⟩ := consRun_queues hqueue ((List.prefix_append _ _).trans hpre)
    rw [consGetc_eq_zero_iff hq (hqueue pre _ hpre q hq)] at hzero
    obtain ⟨hempty, hbytes⟩ := List.append_eq_nil_iff.mp hzero
    rw [hbytes, List.append_nil] at hwait
    exact hq.waiting hwait hempty
  · -- at most 511 bytes are pending, so the oldest 511 are all of them
    obtain ⟨q, hq⟩ := consRun_queues hqueue hpre
    left
    rw [hq.pending, consReads_queue hq.holds]
    exact (List.take_prefix _ _).isInfix

/-- Two keys and a read. -/
theorem cons_readable_two : NeverLooksEmpty true [.kbd [97#8, 98#8], .getc [] []] := by
  refine cons_readable true _ fun pre op hpre => ?_
  obtain ⟨rfl, rfl⟩ | ⟨rfl, rfl⟩ := step_of_two hpre <;> decide

/-- `cons_intr` moves the index of the next write by the number of bytes, modulo the size of
the buffer, and leaves the other where it is. -/
theorem consIntr_indices {cons : Cons} (h : cons.wpos < consbufsize) (data : List Byte) :
    (consIntr data cons).rpos = cons.rpos ∧
      (consIntr data cons).wpos = (cons.wpos + (nonzero data).length) % consbufsize := by
  induction data generalizing cons with
  | nil => exact ⟨rfl, (Nat.mod_eq_of_lt h).symm⟩
  | cons c data ih =>
    rw [consIntr, nonzero, List.filter_cons]
    by_cases hc : c = 0#8
    · rw [if_pos hc, if_neg (by simpa using hc)]
      exact ih h
    · rw [if_neg hc, if_pos (by simpa using hc), consPut_eq]
      have hnext : (cons.put consbufsize c).wpos = (cons.wpos + 1) % consbufsize :=
        Ring.next_eq_mod h
      obtain ⟨hrpos, hwpos⟩ := ih (hnext ▸ Nat.mod_lt _ (by decide))
      refine ⟨hrpos, ?_⟩
      calc (consIntr data (cons.put consbufsize c)).wpos
          = ((cons.wpos + 1) % consbufsize + (nonzero data).length) % consbufsize := by
            rw [hwpos, hnext]
        _ = (cons.wpos + 1 + (nonzero data).length) % consbufsize := Nat.mod_add_mod ..
        _ = (cons.wpos + (c :: nonzero data).length) % consbufsize := by
            rw [List.length_cons, Nat.add_right_comm, ← Nat.add_assoc]

/-- A burst that fills the buffer makes it look empty. -/
theorem consGetc_full {e : Bool} {cons : Cons} {q data : List Byte}
    (h : cons.Holds consbufsize q) (hfull : (q ++ nonzero data).length = consbufsize) :
    (consGetc e [] [] (kbdIntr data cons)).1 = 0#8 := by
  obtain ⟨hrpos, hwpos⟩ := consIntr_indices h.wpos_lt data
  have hidle : kbdIntr [] (serialIntr e [] (kbdIntr data cons)) = consIntr data cons := by
    cases e <;> rfl
  rw [List.length_append] at hfull
  have hsame : (consIntr data cons).wpos = (consIntr data cons).rpos := by
    calc (consIntr data cons).wpos
        = (cons.wpos + (nonzero data).length) % consbufsize := hwpos
      _ = (cons.rpos + (q.length + (nonzero data).length)) % consbufsize := by
          rw [h.wpos_eq, Nat.mod_add_mod, Nat.add_assoc]
      _ = cons.rpos := by rw [hfull, Nat.add_mod_right, Nat.mod_eq_of_lt h.rpos_lt]
      _ = (consIntr data cons).rpos := hrpos.symm
  rw [consGetc_eq, hidle, Ring.get, if_neg (not_not.mpr hsame.symm)]
  rfl

/-- As many keys as the buffer has cells, and the read behind them returns 0. -/
theorem full_looks_empty (e : Bool) {data : List Byte}
    (hfull : (nonzero data).length = consbufsize) :
    ¬ NeverLooksEmpty e [.kbd data, .getc [] []] := by
  intro h
  have hinit : consInit.Holds consbufsize [] :=
    ⟨by decide, by decide, rfl, fun i a ha => by cases ha⟩
  refine h.getc [.kbd data] [] [] (List.prefix_refl _) ?_ (consGetc_full hinit hfull)
  change nonzero data ++ _ ≠ []
  refine List.append_ne_nil_of_left_ne_nil (fun hempty => ?_) _
  rw [hempty] at hfull
  exact absurd hfull (by decide)

/-- A burst of 512 keys. -/
theorem cons_looks_empty :
    ¬ NeverLooksEmpty true [.kbd (List.replicate 512 97#8), .getc [] []] := by
  refine full_looks_empty true ?_
  rw [nonzero, List.filter_replicate_of_pos (by decide), List.length_replicate]
  rfl

end Jos
