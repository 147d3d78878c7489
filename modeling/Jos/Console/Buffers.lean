import Jos.Console.Numbers
import Jos.Console.Format
import Jos.Library.Stored

/-!
# Buffers of the front ends

`vsnprintf` stores the characters of `vprintfmt` as long as there is room for the NUL behind
them, and counts all of them: `vsnprintf_truncates`. The `vcprintf` of user programs collects
them and gives them to `sys_cputs` when 255 are there, so nothing is lost or out of order:
`userVcprintf_flushes`. Both are a fold over the characters, and what it has done so far is
known after each of them (`foldl_sprintputch`, `foldl_userPutch_room`).

The count is an `int`. It is the number of characters as long as that is one, and
`userVcprintf_wraps` is a format of fourteen characters whose output is too long.
-/

namespace Jos

variable {m : Memory} {fmt : List Byte} {args : ℕ → Word}

/-! ### `vsnprintf` -/

/-- What a character leaves in memory. -/
def storedByte (ch : Word) : Option Byte := some (ch.setWidth 8)

/-- What `sprintputch` has stored and counted after the characters `l`, with room for `k`. -/
theorem foldl_sprintputch (m : Memory) {buf : Word} {k : ℕ} (hk : buf.toNat + k < 2 ^ 32)
    (l : List Word) :
    l.foldl sprintputch ⟨buf, buf + BitVec.ofNat 32 k, 0#32, m⟩ =
      ⟨buf + BitVec.ofNat 32 (min l.length k), buf + BitVec.ofNat 32 k,
        BitVec.ofNat 32 l.length, stored m buf ((l.map storedByte).take k)⟩ := by
  induction l using List.reverseRecOn with
  | nil => simp [stored_nil]
  | append_singleton l ch ih =>
    have hcnt : BitVec.ofNat 32 l.length + 1#32 = BitVec.ofNat 32 (l.length + 1) := by
      rw [BitVec.ofNat_add]
    have haddr : ∀ j ≤ k, (buf + BitVec.ofNat 32 j).toNat = buf.toNat + j := by
      intro j hj
      rw [BitVec.toNat_add, BitVec.toNat_ofNat]
      omega
    rw [List.foldl_append, ih, List.foldl_cons, List.foldl_nil, sprintputch, hcnt,
      List.length_append, List.length_singleton]
    by_cases hroom : l.length < k
    · -- there is room, and the character goes behind the others
      have hlt : buf + BitVec.ofNat 32 (min l.length k) < buf + BitVec.ofNat 32 k := by
        rw [BitVec.lt_def, haddr _ (min_le_right _ _), haddr k le_rfl]
        omega
      have htake : (l.map storedByte).take k = l.map storedByte :=
        List.take_of_length_le (by rw [List.length_map]; exact hroom.le)
      have hnew : ((l ++ [ch]).map storedByte).take k =
          l.map storedByte ++ [storedByte ch] := by
        rw [List.map_append, List.take_of_length_le]
        · rfl
        · rw [List.length_append, List.length_map]
          exact hroom
      have hmem := update_stored m buf (l := l.map storedByte)
        (by rw [List.length_map]; omega) (storedByte ch)
      rw [List.length_map] at hmem
      rw [if_pos hlt, htake, hnew, Nat.min_eq_left hroom.le, Nat.min_eq_left hroom, ← hmem,
        BitVec.add_assoc, ← BitVec.ofNat_add]
      rfl
    · have hge : ¬buf + BitVec.ofNat 32 (min l.length k) < buf + BitVec.ofNat 32 k := by
        rw [BitVec.lt_def, haddr _ (min_le_right _ _), haddr k le_rfl]
        omega
      have hsame : ((l ++ [ch]).map storedByte).take k =
          (l.map storedByte).take k := by
        rw [List.map_append, List.take_append_of_le_length]
        rw [List.length_map]
        exact not_lt.mp hroom
      rw [if_neg hge, hsame, Nat.min_eq_right (not_lt.mp hroom), Nat.min_eq_right (by omega)]

/-- A buffer of `n` bytes at `buf`. -/
structure IsBuffer (buf n : Word) : Prop where
  nonnull : buf ≠ 0#32
  pos : 1 ≤ n.toInt
  fits : buf.toNat + n.toNat ≤ 2 ^ 32

/-- What `vsnprintf` is for: it returns how many characters there are, and the buffer holds
those for which there is room, as a string. -/
def Truncates (m : Memory) (fmt : List Byte) (args : ℕ → Word) (out : List Byte) (buf n : Word)
    (mem : Memory) : Prop :=
  (∃ cnt, (vsnprintf m buf n fmt args).result = .ok (cnt, mem) ∧ cnt.toInt = out.length) ∧
    StringAt mem buf (out.take (min (n.toNat - 1) out.length)) ∧
    ∀ a, (∀ i < n.toNat, a ≠ buf + BitVec.ofNat 32 i) → mem a = m a

section Vsnprintf

variable {buf n : Word}

/-- A size that is an `int` of at least 1 is the room for characters and the NUL. -/
theorem IsBuffer.toNat_pos (h : IsBuffer buf n) : 1 ≤ n.toNat ∧ n.toNat < 2 ^ 31 := by
  have hpos := h.pos
  have hlt := n.isLt
  rw [BitVec.toInt_eq_toNat_cond] at hpos
  split at hpos <;> omega

/-- What `vsnprintf` leaves: the characters for which there is room, and a NUL. -/
theorem vsnprintf_stored (hret : (vprintfmt m fmt args).result = .ok ()) (hb : IsBuffer buf n) :
    (vsnprintf m buf n fmt args).result =
      .ok (BitVec.ofNat 32 (vprintfmt m fmt args).chars.length,
        stored m buf (((vprintfmt m fmt args).chars.take (n.toNat - 1) ++ [0#8]).map some)) := by
  obtain ⟨hpos, hlt⟩ := hb.toNat_pos
  have hfits := hb.fits
  have hcheck : ¬(buf = 0#32 ∨ n.slt 1#32) := by
    rintro (hc | hc)
    · exact hb.nonnull hc
    · have hpos := hb.pos
      rw [BitVec.slt_iff_toInt_lt] at hc
      exact absurd hpos (not_le.mpr hc)
  -- `b.ebuf` is where the NUL goes at the latest
  have hebuf : buf + n - 1#32 = buf + BitVec.ofNat 32 (n.toNat - 1) := by
    apply BitVec.eq_of_toNat_eq
    simp only [BitVec.toNat_sub, BitVec.toNat_add, BitVec.toNat_ofNat]
    omega
  have hroom : buf.toNat + (n.toNat - 1) < 2 ^ 32 := by omega
  have hfold := foldl_sprintputch m hroom (putchars (vprintfmt m fmt args).log)
  have hbytes : ((putchars (vprintfmt m fmt args).log).map storedByte).take (n.toNat - 1) =
      ((vprintfmt m fmt args).chars.take (n.toNat - 1)).map some := by
    rw [Fmt.chars, List.map_take, List.map_map]
    rfl
  have hlen : (((vprintfmt m fmt args).chars.take (n.toNat - 1)).map some).length =
      min (putchars (vprintfmt m fmt args).log).length (n.toNat - 1) := by
    rw [List.length_map, List.length_take, Fmt.chars, List.length_map, min_comm]
  -- the NUL is written behind the last character that was stored
  have hnul := update_stored m buf (by omega : (((vprintfmt m fmt args).chars.take
    (n.toNat - 1)).map some).length < 2 ^ 32) (some 0#8)
  rw [hlen] at hnul
  simp only [vsnprintf, if_neg hcheck, hret, hebuf, hfold, hbytes]
  rw [List.map_append, List.map_singleton, ← hnul, Fmt.chars, List.length_map]
  rfl

theorem vsnprintf_truncated (hret : (vprintfmt m fmt args).result = .ok ())
    (hlen : (vprintfmt m fmt args).chars.length < 2 ^ 31)
    (hnul : 0#8 ∉ (vprintfmt m fmt args).chars) (hb : IsBuffer buf n) :
    Truncates m fmt args (vprintfmt m fmt args).chars buf n
      (stored m buf (((vprintfmt m fmt args).chars.take (n.toNat - 1) ++ [0#8]).map some)) := by
  obtain ⟨hpos, hlt⟩ := hb.toNat_pos
  rw [Truncates, ← List.take_eq_take_min]
  generalize hout : (vprintfmt m fmt args).chars.take (n.toNat - 1) = out
  have hroom : out.length ≤ n.toNat - 1 := by
    rw [← hout]
    exact List.length_take_le _ _
  have hsize : ((out ++ [0#8]).map some).length = out.length + 1 := by
    rw [List.length_map, List.length_append, List.length_singleton]
  refine ⟨⟨_, hout ▸ vsnprintf_stored hret hb, toInt_ofNat_of_lt hlen⟩, ?_, ?_⟩
  · refine ⟨?_, ?_, ?_⟩
    · intro i b hb
      have hi := (List.getElem?_eq_some_iff.mp hb).1
      refine stored_getElem m buf (by omega) ?_
      rw [List.getElem?_map, List.getElem?_append_left hi, hb]
      rfl
    · rintro b hb rfl
      rw [← hout] at hb
      exact hnul (List.mem_of_mem_take hb)
    · refine stored_getElem m buf (by omega) ?_
      rw [List.getElem?_map, List.getElem?_concat_length]
      rfl
  · -- the block is not longer than the buffer
    intro a ha
    refine stored_outside m fun i hi => ha i ?_
    omega

/-- `vsnprintf` truncates: a shorter buffer holds a prefix of what a longer one holds, and the
count is the same. -/
theorem vsnprintf_truncates (hret : (vprintfmt m fmt args).result = .ok ())
    (hlen : (vprintfmt m fmt args).chars.length < 2 ^ 31)
    (hnul : 0#8 ∉ (vprintfmt m fmt args).chars) :
    (∀ buf n, IsBuffer buf n →
      ∃ mem, Truncates m fmt args (vprintfmt m fmt args).chars buf n mem) ∧
    ∀ buf n buf' n', IsBuffer buf n → IsBuffer buf' n' → n.toNat ≤ n'.toNat →
      ∃ cnt mem mem' s s', (vsnprintf m buf n fmt args).result = .ok (cnt, mem) ∧
        (vsnprintf m buf' n' fmt args).result = .ok (cnt, mem') ∧
        StringAt mem buf s ∧ StringAt mem' buf' s' ∧ s <+: s' := by
  refine ⟨fun buf n hb => ⟨_, vsnprintf_truncated hret hlen hnul hb⟩, ?_⟩
  intro buf n buf' n' hb hb' hle
  obtain ⟨-, hs, -⟩ := vsnprintf_truncated hret hlen hnul hb
  obtain ⟨-, hs', -⟩ := vsnprintf_truncated hret hlen hnul hb'
  refine ⟨_, _, _, _, _, vsnprintf_stored hret hb, vsnprintf_stored hret hb', hs, hs', ?_⟩
  exact List.take_prefix_take_left (by omega)

/-- With the arguments that the format asks for `vsnprintf` returns, and truncates. -/
theorem vsnprintf_supplied (h : ∀ d ∈ fmtItems args fmt .text 0, d.Supplied m args)
    (hlen : (vprintfmt m fmt args).chars.length < 2 ^ 31)
    (hnul : 0#8 ∉ (vprintfmt m fmt args).chars) (hb : IsBuffer buf n) :
    ∃ mem, Truncates m fmt args (vprintfmt m fmt args).chars buf n mem :=
  ⟨_, vsnprintf_truncated (vprintfmt_returns h) hlen hnul hb⟩

end Vsnprintf

/-- `snprintf(buf, 3, "hello")` leaves `he` in the buffer. -/
theorem vsnprintf_truncates_hello :
    IsBuffer 0x1000#32 3#32 ∧ ∃ mem,
      Truncates (fun _ => none) (text "hello") (fun _ => 0#32) (text "hello") 0x1000#32 3#32 mem ∧
      StringAt mem 0x1000#32 (text "he") := by
  have hchars : (vprintfmt (fun _ => none) (text "hello") fun _ => 0#32).chars = text "hello" := rfl
  have hb : IsBuffer 0x1000#32 3#32 := ⟨by decide, by decide, by decide⟩
  have hret : (vprintfmt (fun _ => none) (text "hello") fun _ => 0#32).result = .ok () := rfl
  have hall := vsnprintf_truncates hret (by rw [hchars]; decide) (by rw [hchars]; decide)
  obtain ⟨mem, hmem⟩ := hall.1 _ _ hb
  rw [hchars] at hmem
  exact ⟨hb, mem, hmem, hmem.2.1⟩

/-! ### `vcprintf` of user programs -/

/-- Between characters there is room in the buffer, and what was flushed was full. -/
theorem foldl_userPutch_room (l : List Word) :
    (l.foldl userPutch {}).idx < 255 ∧ ∀ c ∈ (l.foldl userPutch {}).cputs, c.length = 255 := by
  induction l using List.reverseRecOn with
  | nil => exact ⟨by decide, List.forall_mem_nil _⟩
  | append_singleton l ch ih =>
    obtain ⟨hidx, hfull⟩ := ih
    rw [List.foldl_append, List.foldl_cons, List.foldl_nil]
    generalize l.foldl userPutch {} = b at hidx hfull ⊢
    have hpush : (b.push ch).idx = b.idx + 1 := rfl
    by_cases hflush : (b.push ch).idx = 256 - 1
    · -- the buffer is full now
      have hcputs : (userPutch b ch).cputs =
          b.cputs ++ [(List.range (b.push ch).idx).map (b.push ch).buf] := by
        simp only [userPutch, if_pos hflush]
        rfl
      refine ⟨by simp only [userPutch, if_pos hflush]; decide, ?_⟩
      rw [hcputs, List.forall_mem_append, List.forall_mem_singleton, List.length_map,
        List.length_range]
      exact ⟨hfull, hflush⟩
    · simp only [userPutch, if_neg hflush]
      exact ⟨by omega, hfull⟩

/-- What `vcprintf` returns: the count as an `int`, and the output in pieces. -/
theorem userVcprintf_result (hret : (vprintfmt m fmt args).result = .ok ()) :
    (userVcprintf m fmt args).result =
      .ok (BitVec.ofNat 32 (vprintfmt m fmt args).chars.length,
        ((putchars (vprintfmt m fmt args).log).foldl userPutch {}).sysCputs.cputs) ∧
    ((putchars (vprintfmt m fmt args).log).foldl userPutch {}).sysCputs.cputs.flatten =
      (vprintfmt m fmt args).chars := by
  have hres : (userVcprintf m fmt args).result =
      .ok (BitVec.ofNat 32 (vprintfmt m fmt args).chars.length,
        ((putchars (vprintfmt m fmt args).log).foldl userPutch {}).sysCputs.cputs) := by
    have hcnt := foldl_userPutch_cnt (putchars (vprintfmt m fmt args).log) {}
    rw [Fmt.chars, List.length_map, ← BitVec.zero_add (BitVec.ofNat 32 _), ← hcnt]
    simp only [userVcprintf, hret]
    rfl
  exact ⟨hres, userVcprintf_written hres⟩

/-- The buffers of `vcprintf` are the output cut into pieces of 255 characters and a rest. -/
theorem userVcprintf_flushes (hret : (vprintfmt m fmt args).result = .ok ()) :
    ∃ cnt cputs, (userVcprintf m fmt args).result = .ok (cnt, cputs) ∧
      cputs.flatten = (vprintfmt m fmt args).chars ∧
      (∀ c ∈ cputs, c.length ≤ 255) ∧ (∀ c ∈ cputs.dropLast, c.length = 255) ∧
      (∀ l, l <+: putchars (vprintfmt m fmt args).log → (l.foldl userPutch {}).idx < 255) ∧
      cnt = BitVec.ofNat 32 (vprintfmt m fmt args).chars.length := by
  obtain ⟨hidx, hfull⟩ := foldl_userPutch_room (putchars (vprintfmt m fmt args).log)
  obtain ⟨hres, hflat⟩ := userVcprintf_result hret
  refine ⟨_, _, hres, hflat, ?_, ?_, ?_, rfl⟩
  · rw [Printbuf.sysCputs, List.forall_mem_append, List.forall_mem_singleton, List.length_map,
      List.length_range]
    exact ⟨fun c hc => (hfull c hc).le, hidx.le⟩
  · rw [Printbuf.sysCputs, List.dropLast_concat]
    exact hfull
  · intro l _
    exact (foldl_userPutch_room l).1

/-- With the arguments that the format asks for `vcprintf` returns, and has written all of the
output. -/
theorem userVcprintf_supplied (h : ∀ d ∈ fmtItems args fmt .text 0, d.Supplied m args) :
    ∃ cputs, (userVcprintf m fmt args).result =
        .ok (BitVec.ofNat 32 (vprintfmt m fmt args).chars.length, cputs) ∧
      cputs.flatten = (vprintfmt m fmt args).chars :=
  ⟨_, userVcprintf_result (vprintfmt_returns h)⟩

/-- `cprintf("%300lld", -5)` prints the sign in front of a field of 300 characters. -/
theorem wide_length :
    (vprintfmt (fun _ => none) (numberFormat false 300 (text "lld")) minusFive).chars.length =
      301 := by
  rw [(vprintfmt_lld (fun _ => none) minusFive false (show 300 < 2 ^ 31 by decide)).2]
  have hneg : (minusFive 1 ++ minusFive 0).toInt = -5 := by decide
  have hdigits : (numeral 10 (-5 : ℤ).natAbs).length = 1 := by decide
  simp only [hneg, List.length_append, List.length_replicate, hdigits]
  decide

/-- This is more than fits into the buffer, so there are two flushes. -/
theorem userVcprintf_flushes_wide :
    let fmt := numberFormat false 300 (text "lld")
    (vprintfmt (fun _ => none) fmt minusFive).result = .ok () ∧
      ∃ first rest, (userVcprintf (fun _ => none) fmt minusFive).result =
          .ok (301#32, [first, rest]) ∧ first.length = 255 ∧ rest.length = 46 ∧
        first ++ rest = (vprintfmt (fun _ => none) fmt minusFive).chars := by
  intro fmt
  have hret := (vprintfmt_lld (fun _ => none) minusFive false (show 300 < 2 ^ 31 by decide)).1
  obtain ⟨cnt, cputs, hres, hflat, hle, hfull, -, rfl⟩ := userVcprintf_flushes hret
  have hsize := congrArg List.length hflat
  rw [wide_length] at hres hsize
  refine ⟨hret, ?_⟩
  -- one flush is too short, and three are too long
  match cputs with
  | [] => cases hsize
  | [first] =>
    have hfirst := hle first List.mem_cons_self
    rw [List.flatten_singleton] at hsize
    omega
  | [first, rest] =>
    have hfirst := hfull first List.mem_cons_self
    rw [List.flatten_cons, List.flatten_singleton, List.length_append] at hsize
    refine ⟨first, rest, hres, hfirst, by omega, ?_⟩
    rw [← hflat, List.flatten_cons, List.flatten_singleton]
  | first :: second :: third :: cputs =>
    have hfirst := hfull first (by simp)
    have hsecond := hfull second (by simp)
    rw [List.flatten_cons, List.flatten_cons, List.length_append, List.length_append] at hsize
    omega

/-- `cprintf("%2147483647lld", -5)` prints `2 ^ 31` characters, and returns a negative number. -/
theorem userVcprintf_wraps :
    let fmt := numberFormat false 2147483647 (text "lld")
    (vprintfmt (fun _ => none) fmt minusFive).result = .ok () ∧
      (vprintfmt (fun _ => none) fmt minusFive).chars.length = 2 ^ 31 ∧
      ∃ cnt cputs, (userVcprintf (fun _ => none) fmt minusFive).result = .ok (cnt, cputs) ∧
        cputs.flatten = (vprintfmt (fun _ => none) fmt minusFive).chars ∧
        cnt.toInt = -2 ^ 31 := by
  intro fmt
  obtain ⟨hret, hchars⟩ := vprintfmt_lld (fun _ => none) minusFive false
    (show 2147483647 < 2 ^ 31 by decide)
  have hlen : (vprintfmt (fun _ => none) fmt minusFive).chars.length = 2 ^ 31 := by
    rw [hchars]
    -- the padding fills the field but for the two characters of the number
    have hneg : (minusFive 1 ++ minusFive 0).toInt = -5 := by decide
    have hdigits : (numeral 10 (-5 : ℤ).natAbs).length = 1 := by decide
    simp only [hneg, List.length_append, List.length_replicate, hdigits]
    decide
  obtain ⟨hres, hflat⟩ := userVcprintf_result hret
  refine ⟨hret, hlen, _, _, hres, hflat, ?_⟩
  rw [hlen]
  decide

end Jos
