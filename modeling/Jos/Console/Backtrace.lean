import Jos.Console.Parts
import Jos.Console.SourceLine
import Jos.Kern.Backtrace
import Jos.Library.Chain

/-!
# The frames of the stack

The frames on the stack are a list that is linked by the saved `%ebp`s (`FramesFrom`), and
the walks of the stack are walks of this list. `mon_backtrace` comes to an end exactly on a
list that ends with a null pointer, and prints two lines for each of its frames
(`monBacktrace_prints`). `get_caller_pcs` stops after 10 frames, and at the first that is not
in the kernel (`callerPcs_recorded`).

What `debuginfo_eip` says about an address does not depend on `user_mem_check_addr`, which is
all it changes, so it says the same wherever it is asked about a frame (`SameInfo`).
-/

namespace Jos

open Logged

/-! ### What is on the stack -/

/-- A stack frame: where it is, and what is in it. -/
structure Frame where
  ebp : Word
  saved : Word
  eip : Word
  args : ℕ → Word

/-- The frame is in memory. -/
structure FrameAt (m : Memory) (f : Frame) : Prop where
  nonnull : f.ebp ≠ 0#32
  saved : readWord m f.ebp = some f.saved
  eip : readWord m (f.ebp + 4#32) = some f.eip
  args : ∀ i < 5, readWord m (f.ebp + 8#32 + BitVec.ofNat 32 (4 * i)) = some (f.args i)

/-- The frames that are linked from `ebp` on, up to `last`. -/
def FramesFrom (m : Memory) : Word → List Frame → Word → Prop
  | ebp, [], last => ebp = last
  | ebp, f :: fs, last => ebp = f.ebp ∧ FrameAt m f ∧ FramesFrom m f.saved fs last

/-- A pointer that may be null. -/
def pointer (w : Word) : Option Word := if w = 0#32 then none else some w

/-- The link of a frame. -/
def savedEbp (m : Memory) (ebp : Word) : Option Word := (readWord m ebp).bind pointer

variable {m : Memory} {ebp last : Word} {fs : List Frame}

/-- A stack that ends with a null pointer is a linked list. -/
theorem FramesFrom.chain (h : FramesFrom m ebp fs 0#32) :
    Chain (savedEbp m) (pointer ebp) (fs.map Frame.ebp) := by
  induction fs generalizing ebp with
  | nil =>
    obtain rfl : ebp = 0#32 := h
    exact .nil
  | cons f fs ih =>
    obtain ⟨rfl, hf, hfs⟩ := h
    -- the link of a frame is the `%ebp` that it has saved
    have hlink : savedEbp m f.ebp = pointer f.saved := by rw [savedEbp, hf.saved, Option.bind_some]
    rw [pointer, if_neg hf.nonnull]
    refine .cons ?_
    rw [hlink]
    exact ih hfs

/-- Words that are different are not more than there are. -/
theorem nodup_words_length {l : List Word} (h : l.Nodup) : l.length ≤ 2 ^ 32 := by
  -- different words are different numbers below `2 ^ 32`
  have hsub : (l.map BitVec.toNat).toFinset ⊆ Finset.range (2 ^ 32) := by
    intro n hn
    obtain ⟨w, -, rfl⟩ := List.mem_map.mp (List.mem_toFinset.mp hn)
    exact Finset.mem_range.mpr w.isLt
  have hcard := Finset.card_le_card hsub
  have hnodup := h.map fun _ _ => BitVec.eq_of_toNat_eq
  rwa [List.toFinset_card_of_nodup hnodup, Finset.card_range, List.length_map] at hcard

theorem FramesFrom.frameAt (h : FramesFrom m ebp fs last) : ∀ f ∈ fs, FrameAt m f := by
  induction fs generalizing ebp with
  | nil => exact List.forall_mem_nil _
  | cons f fs ih => exact List.forall_mem_cons.mpr ⟨h.2.1, ih h.2.2⟩

/-- So its frames are at different addresses, none of which is null. -/
theorem FramesFrom.length_lt (h : FramesFrom m ebp fs 0#32) : fs.length < 2 ^ 32 := by
  -- together with the null pointer these are still different words
  have hnull : (0#32 : Word) ∉ fs.map Frame.ebp := by
    rw [List.mem_map]
    rintro ⟨f, hf, hzero⟩
    exact (h.frameAt f hf).nonnull hzero
  have hlen := nodup_words_length (List.nodup_cons.mpr ⟨hnull, h.chain.nodup⟩)
  rwa [List.length_cons, List.length_map] at hlen

/-! ### What does not depend on `user_mem_check_addr` -/

/-- Another value of `user_mem_check_addr`. -/
def State.setCheckAddr (σ : State) (v : Word) : State := { σ with userMemCheckAddr := v }

theorem setCheckAddr_self (σ : State) : σ.setCheckAddr σ.userMemCheckAddr = σ := rfl

section SameInfo

variable {B : Boot} {linked : UserStabData} {cpu : ℕ} {σ σ' : State} {addr v : Word}

theorem pgdirWalk_setCheckAddr (B : Boot) (pgdir va : Word) (σ : State) (v : Word) :
    pgdirWalk B pgdir va false (σ.setCheckAddr v) =
      (pgdirWalk B pgdir va false σ).map fun r => (r.1, r.2.setCheckAddr v) := by
  simp only [pgdirWalk, Bool.false_eq_true, if_false]
  change (if present (σ.load (pgdir, pdx va)) then
    walkTable B (σ.load (pgdir, pdx va)) va (σ.setCheckAddr v) else _) = _
  -- the walk returns the entry of the page table, or there is none
  by_cases hp : present (σ.load (pgdir, pdx va))
  · rw [if_pos hp, if_pos hp, walkTable, walkTable]
    cases kaddr B (pteAddr (σ.load (pgdir, pdx va))) <;> rfl
  · rw [if_neg hp, if_neg hp]
    rfl

/-- The check does not look at the address that it sets. -/
theorem userMemCheckLoop_setCheckAddr {pgdir va perm begin : Word} {n : ℕ} {r : ℤ}
    (h : userMemCheckLoop B pgdir va perm n begin σ = .ok (r, σ')) (v : Word) :
    (∃ w, σ' = σ.setCheckAddr w) ∧
      ∃ w, userMemCheckLoop B pgdir va perm n begin (σ.setCheckAddr v) =
        .ok (r, σ.setCheckAddr w) := by
  induction n generalizing begin with
  | zero =>
    cases h
    exact ⟨⟨_, (setCheckAddr_self σ).symm⟩, v, rfl⟩
  | succ n ih =>
    rw [userMemCheckLoop, bind_eq_ok] at h
    obtain ⟨⟨pte, σ₁⟩, hwalk, hrest⟩ := h
    -- without `create` the walk changes nothing
    obtain rfl := pgdirWalk_false hwalk
    rw [userMemCheckLoop, pgdirWalk_setCheckAddr, hwalk]
    rcases ite_eq_iff.mp hrest with ⟨hbad, hret⟩ | ⟨hgood, hrest⟩
    · -- the page is not good: this is where `user_mem_check_addr` is set
      cases hret
      refine ⟨⟨_, rfl⟩, _, if_pos hbad⟩
    · obtain ⟨hstate, w, hloop⟩ := ih hrest
      exact ⟨hstate, w, (if_neg hgood).trans hloop⟩

/-- Wherever the first returns, it has only set `user_mem_check_addr`, and the second returns
the same. -/
def SameInfo (σ : State) (x y : Debug (ℤ × Eipdebuginfo × State)) : Prop :=
  ∀ r info σ', x.result = .ok (r, info, σ') →
    (∃ w, σ' = σ.setCheckAddr w) ∧ ∃ w, y.result = .ok (r, info, σ.setCheckAddr w)

theorem SameInfo.ret {r : ℤ} {info : Eipdebuginfo} (v : Word) :
    SameInfo σ (pure (r, info, σ)) (pure (r, info, σ.setCheckAddr v)) := by
  intro r' info' σ' h
  cases h
  exact ⟨⟨_, (setCheckAddr_self σ).symm⟩, v, rfl⟩

/-- Both do the same before they go on. -/
theorem SameInfo.bind {α : Type} {x : Debug α} {f f' : α → Debug (ℤ × Eipdebuginfo × State)}
    (hf : ∀ a, SameInfo σ (f a) (f' a)) : SameInfo σ (x >>= f) (x >>= f') := by
  intro r info σ' h
  obtain ⟨a, ha, hfa⟩ := result_bind_eq_ok.mp h
  obtain ⟨hstate, w, hw⟩ := hf a r info σ' hfa
  exact ⟨hstate, w, result_bind_eq_ok.mpr ⟨a, ha, hw⟩⟩

theorem SameInfo.ifValid {e : Fin nenv} {va len : Word} {info : Eipdebuginfo}
    {k : State → Debug (ℤ × Eipdebuginfo × State)}
    (hk : SameInfo σ (k σ) (k (σ.setCheckAddr v))) :
    SameInfo σ (Jos.ifValid B e va len info σ k)
      (Jos.ifValid B e va len info (σ.setCheckAddr v) k) := by
  intro r info' σ' h
  rw [Jos.ifValid] at h ⊢
  cases hcheck : userMemCheck B e va len pteU σ with
  | error p =>
    rw [hcheck] at h
    cases h
  | ok u =>
    obtain ⟨n, σ₁⟩ := u
    -- the check gives the same result in both states
    obtain ⟨⟨w₁, rfl⟩, w, hcheck'⟩ := userMemCheckLoop_setCheckAddr hcheck v
    have hother : userMemCheck B e va len pteU (σ.setCheckAddr v) = .ok (n, σ.setCheckAddr w) :=
      hcheck'
    rw [hcheck] at h
    rw [hother]
    by_cases hn : n ≠ 0
    · -- the range is refused, and both return -1
      simp only [if_pos hn] at h ⊢
      cases h
      exact ⟨⟨w₁, rfl⟩, w, rfl⟩
    · -- the range is accepted, and both go on in the state they were in
      obtain rfl := not_not.mp hn
      have hsame := (userMemCheck_nonneg hcheck le_rfl).2
      have hsame' := (userMemCheck_nonneg hother le_rfl).2
      rw [hsame] at h
      rw [hsame']
      simp only [if_neg hn] at h ⊢
      obtain ⟨hstate, w', hw'⟩ := hk r info' σ' h
      exact ⟨hstate, w', hw'⟩

/-- `debuginfo_eip` does not look at `user_mem_check_addr`. -/
theorem debuginfoEip_sameInfo (B : Boot) (linked : UserStabData) (cpu : ℕ) (addr v : Word)
    (σ : State) : SameInfo σ (debuginfoEip B linked cpu addr σ)
      (debuginfoEip B linked cpu addr (σ.setCheckAddr v)) := by
  unfold debuginfoEip
  by_cases haddr : ulim ≤ addr
  · -- the tables of the kernel, without any check
    rw [if_pos haddr, if_pos haddr]
    exact .bind fun _ => .ret v
  · -- the tables of the user program, after three checks
    rw [if_neg haddr, if_neg haddr]
    have hcurenv : (σ.setCheckAddr v).curenv cpu = σ.curenv cpu := rfl
    rw [hcurenv]
    cases σ.curenv cpu with
    | none => exact fun r info σ' h => by cases h
    | some e =>
      exact .ifValid (.bind fun t => .ifValid (.ifValid (.bind fun _ => .ret v)))

end SameInfo

/-! ### What is printed -/

/-- The character that `runcmd` gives to the console. -/
def CmdEvent.char? : CmdEvent → Option Byte
  | .console e => e.char?.map (BitVec.setWidth 8)
  | _ => none

/-- The character that appears on the console. -/
def MonEvent.char? : MonEvent → Option Byte
  | .console e => e.char?.map (BitVec.setWidth 8)
  | .cmd e => e.char?
  | _ => none

/-- `x` ends with `a` and prints `out`. -/
abbrev Mon.Shows {α : Type} (x : Mon α) (a : α) (out : List Byte) : Prop :=
  Yields MonEvent.char? x a out

theorem Fmt.chars_eq {α : Type} (x : Fmt α) :
    x.chars = x.log.filterMap fun e => e.char?.map (BitVec.setWidth 8) :=
  List.map_filterMap

/-- `cprintf` in the monitor. -/
theorem Mon.Shows.print {fmt : String} {args : List Word} {out : List Byte}
    (h : Prints m fmt args out) : Mon.Shows (Mon.print m fmt args) () out := by
  obtain ⟨⟨cnt, hres⟩, hchars⟩ := h
  rw [Fmt.chars_eq] at hchars
  have hfmt : Mon.Shows (Mon.fmt (cprintf m fmt args)) cnt out :=
    Yields.translate ⟨hres, hchars⟩ fun _ => rfl
  exact hfmt.bind_pure fun _ => ()

theorem Mon.Shows.load {a w : Word} (h : readWord m a = some w) :
    Mon.Shows (Mon.load m a) w [] := by
  rw [Mon.load, h]
  exact ⟨rfl, rfl⟩

/-- The line that is printed for a frame. -/
def Frame.text (f : Frame) : List Byte :=
  Jos.text "ebp " ++ hex f.ebp ++ Jos.text " eip " ++ hex f.eip ++ Jos.text " args" ++
    ((List.range 5).flatMap fun i => Jos.text " " ++ zeros 8 (hex (f.args i)) ++ Jos.text " ") ++
    Jos.text "\n"

/-- What the debug information says about a return address. -/
structure SourcePlace where
  file : List Byte
  line : Word
  function : List Byte
  offset : Word

/-- The line that is printed for it. -/
def SourcePlace.text (p : SourcePlace) : List Byte :=
  Jos.text "\t" ++ p.file ++ Jos.text ":" ++ decimal p.line.toInt ++ Jos.text ": " ++ p.function ++
    Jos.text "+" ++ decimal p.offset.toInt ++ Jos.text "\n"

/-- `debuginfo_eip` returns `r` and the place, with its names in memory. Of the name of the
function only the first `eip_fn_namelen` characters count. -/
structure Described (B : Boot) (linked : UserStabData) (cpu : ℕ) (rodata : List Byte → Word)
    (σ : State) (eip : Word) (r : ℤ) (p : SourcePlace) : Prop where
  found : ∃ info σ' name, (debuginfoEip B linked cpu eip σ).result = .ok (r, info, σ') ∧
    StandsFor (cpuMemory σ cpu) (info.eipFile.address rodata) p.file ∧ p.file.length < 2 ^ 31 ∧
    StandsFor (cpuMemory σ cpu) (info.eipFnName.address rodata) name ∧ name.length < 2 ^ 31 ∧
    p.function = name.take (limit info.eipFnNamelen name.length) ∧
    p.line = info.eipLine ∧ p.offset = eip - info.eipFnAddr

theorem prints_frame (m : Memory) (ebp eip : Word) : Prints m "ebp %x eip %x args" [ebp, eip]
    (text "ebp " ++ hex ebp ++ text " eip " ++ hex eip ++ text " args") := by
  have hparts : fmtParts (fun i => [ebp, eip].getD i 0#32) (text "ebp %x eip %x args") .text [] 0 =
      [.plain (text "ebp "), .item (.unsigned {} (ebp.setWidth 64) 16), .plain (text " eip "),
        .item (.unsigned {} (eip.setWidth 64) 16), .plain (text " args")] := rfl
  have hprints := prints_of_parts m hparts (.cons rfl (.cons (FmtPart.prints_hex ebp)
    (.cons rfl (.cons (FmtPart.prints_hex eip) (.cons rfl .nil)))))
  simpa only [List.flatten_cons, List.flatten_nil, List.append_nil, List.append_assoc] using hprints

theorem prints_arg (m : Memory) (argi : Word) :
    Prints m " %08x " [argi] (text " " ++ zeros 8 (hex argi) ++ text " ") := by
  have hpads : (zerosSpec 8).Pads 8 (chr '0') := zerosSpec_pads (by decide)
  have hparts : fmtParts (fun i => [argi].getD i 0#32) (text " %08x ") .text [] 0 =
      [.plain (text " "),
        .item (.unsigned (zerosSpec 8) (argi.setWidth 64) 16),
        .plain (text " ")] := rfl
  have hprints := prints_of_parts m hparts (.cons rfl (.cons (FmtPart.prints_zeros hpads argi)
    (.cons rfl .nil)))
  simpa only [List.flatten_cons, List.flatten_nil, List.append_nil, List.append_assoc] using hprints

theorem prints_place {file fn namelen line offset : Word} {p : SourcePlace} {name : List Byte}
    (hfile : StandsFor m file p.file) (hflen : p.file.length < 2 ^ 31) (hfn : StandsFor m fn name)
    (hnlen : name.length < 2 ^ 31) (hname : p.function = name.take (limit namelen name.length))
    (hline : p.line = line) (hoffset : p.offset = offset) :
    Prints m "\t%s:%d: %.*s+%d\n" [file, line, namelen, fn, offset] p.text := by
  have hparts : fmtParts (fun i => [file, line, namelen, fn, offset].getD i 0#32)
      (text "\t%s:%d: %.*s+%d\n") .text [] 0 =
      [.plain (text "\t"), .item (.string {} 0), .plain (text ":"),
        .item (.signed {} (line.signExtend 64)), .plain (text ": "),
        .item (.string { width := 0#32, precision := namelen } 3), .plain (text "+"),
        .item (.signed {} (offset.signExtend 64)), .plain (text "\n")] := rfl
  have hprints := prints_of_parts m hparts (.cons rfl
    (.cons (FmtPart.prints_whole hfile hflen)
      (.cons rfl (.cons (FmtPart.prints_decimal line) (.cons rfl
        (.cons (FmtPart.prints_string hfn (.inr rfl) rfl hnlen) (.cons rfl
          (.cons (FmtPart.prints_decimal offset) (.cons rfl .nil)))))))))
  rw [SourcePlace.text, hname, hline, hoffset]
  simpa only [List.flatten_cons, List.flatten_nil, List.append_nil, List.append_assoc]
    using hprints

/-! ### `mon_backtrace` -/

section Backtrace

variable {B : Boot} {linked : UserStabData} {cpu : ℕ} {rodata : List Byte → Word} {σ σ' : State}
  {f : Frame} {r : ℤ} {p : SourcePlace}

theorem printArgs_shows (hf : FrameAt m f) : Mon.Shows (printArgs m (f.ebp + 8#32)) ()
    ((List.range 5).flatMap fun i => text " " ++ zeros 8 (hex (f.args i)) ++ text " ") := by
  refine Yields.forM fun i hi => ?_
  have hload := Mon.Shows.load (hf.args i (List.mem_range.mp hi))
  exact hload.bind (Mon.Shows.print (prints_arg m (f.args i)))

/-- The debug information of an address is found without printing anything, whatever
`user_mem_check_addr` is. -/
theorem debuginfoEip_shows {eip : Word} {info : Eipdebuginfo}
    (h : (debuginfoEip B linked cpu eip σ).result = .ok (r, info, σ')) (v : Word) :
    ∃ w, Mon.Shows ((debuginfoEip B linked cpu eip (σ.setCheckAddr v)).translate .debug .debug)
      (r, info, σ.setCheckAddr w) [] := by
  obtain ⟨-, w, hinfo⟩ := debuginfoEip_sameInfo B linked cpu eip v σ r info σ' h
  refine ⟨w, ?_⟩
  rw [translate_of_ok _ _ hinfo]
  refine ⟨rfl, ?_⟩
  rw [List.filterMap_map]
  -- the search reads memory, and prints nothing
  exact List.filterMap_eq_nil_iff.mpr fun _ _ => rfl

/-- A frame is printed with its place. -/
theorem backtraceFrame_shows (hf : FrameAt (cpuMemory σ cpu) f)
    (hp : Described B linked cpu rodata σ f.eip r p) (v : Word) :
    ∃ w, Mon.Shows (backtraceFrame B linked cpu rodata f.ebp (σ.setCheckAddr v))
      (f.saved, σ.setCheckAddr w) (f.text ++ p.text) := by
  obtain ⟨info, σ', name, hinfo, hfile, hflen, hfn, hnlen, hname, hline, hoffset⟩ := hp.found
  obtain ⟨w, hdebug⟩ := debuginfoEip_shows hinfo v
  -- what is printed, in the order of the statements
  have hout : f.text ++ p.text = [] ++ (text "ebp " ++ hex f.ebp ++ text " eip " ++ hex f.eip ++
      text " args" ++ (((List.range 5).flatMap fun i => text " " ++ zeros 8 (hex (f.args i)) ++
        text " ") ++ (text "\n" ++ ([] ++ (p.text ++ ([] ++ [])))))) := by
    simp only [Frame.text, List.nil_append, List.append_nil, List.append_assoc]
  refine ⟨w, ?_⟩
  rw [backtraceFrame, hout]
  refine (Mon.Shows.load hf.eip).bind ?_
  refine (Mon.Shows.print (prints_frame _ f.ebp f.eip)).bind ?_
  refine (printArgs_shows hf).bind ?_
  refine (Mon.Shows.print (prints_constant rfl)).bind ?_
  refine hdebug.bind ?_
  refine (Mon.Shows.print (prints_place hfile hflen hfn hnlen hname hline hoffset)).bind ?_
  exact (Mon.Shows.load hf.saved).bind (.pure (f.saved, σ.setCheckAddr w))

/-- The loop prints the frames. -/
theorem backtraceLoop_shows {fs : List Frame} {ebp : Word} {place : Frame → SourcePlace}
    (hfs : FramesFrom (cpuMemory σ cpu) ebp fs 0#32)
    (hp : ∀ f ∈ fs, ∃ r, Described B linked cpu rodata σ f.eip r (place f)) {fuel : ℕ}
    (hfuel : fs.length < fuel) (v : Word) :
    ∃ w, Mon.Shows (backtraceLoop B linked cpu rodata fuel ebp (σ.setCheckAddr v))
      (σ.setCheckAddr w) (fs.flatMap fun f => f.text ++ (place f).text) := by
  -- one round for each frame, and there is fuel for one more than there are frames
  induction fs generalizing ebp v fuel with
  | nil =>
    obtain rfl : ebp = 0#32 := hfs
    obtain ⟨n, rfl⟩ := Nat.exists_eq_add_one_of_ne_zero (Nat.ne_zero_of_lt hfuel)
    rw [backtraceLoop, if_pos rfl]
    exact ⟨v, .pure _⟩
  | cons f fs ih =>
    obtain ⟨rfl, hf, hrest⟩ := hfs
    obtain ⟨⟨r, hpf⟩, hp⟩ := List.forall_mem_cons.mp hp
    obtain ⟨n, rfl⟩ := Nat.exists_eq_add_one_of_ne_zero (Nat.ne_zero_of_lt hfuel)
    obtain ⟨w, hframe⟩ := backtraceFrame_shows hf hpf v
    obtain ⟨w', hloop⟩ := ih hrest hp (Nat.lt_of_succ_lt_succ hfuel) w
    rw [backtraceLoop, if_neg hf.nonnull, List.flatMap_cons]
    exact ⟨w', hframe.bind hloop⟩

theorem readWord_of_load {a w : Word} (h : (Mon.load m a).result = .ok w) :
    readWord m a = some w := by
  simp only [Mon.load] at h
  cases hw : readWord m a with
  | none =>
    rw [hw] at h
    cases h
  | some w' =>
    rw [hw] at h
    exact congrArg some (Except.ok.inj h)

/-- A frame that has been printed is in memory. -/
theorem backtraceFrame_frame {ebp ebp' : Word} (hne : ebp ≠ 0#32)
    (h : (backtraceFrame B linked cpu rodata ebp σ).result = .ok (ebp', σ')) :
    (∃ w, σ' = σ.setCheckAddr w) ∧
      ∃ f, f.ebp = ebp ∧ f.saved = ebp' ∧ FrameAt (cpuMemory σ cpu) f := by
  simp only [backtraceFrame, result_bind_eq_ok] at h
  obtain ⟨eip, heip, _, -, _, hargs, _, -, ⟨r, info, σ₁⟩, hinfo, _, -, next, hnext, hret⟩ := h
  rw [result_translate_eq_ok] at hinfo
  obtain ⟨⟨w, rfl⟩, -⟩ := debuginfoEip_sameInfo B linked cpu eip 0#32 σ r info σ₁ hinfo
  cases hret
  refine ⟨⟨w, rfl⟩, ⟨ebp, ebp', eip,
    fun i => (readWord (cpuMemory σ cpu) (ebp + 8#32 + BitVec.ofNat 32 (4 * i))).getD 0#32⟩,
    rfl, rfl, hne, readWord_of_load hnext, readWord_of_load heip, fun i hi => ?_⟩
  -- the arguments have been loaded, so they are in memory too
  have harg := result_forM_eq_ok hargs i (List.mem_range.mpr hi)
  obtain ⟨argi, hload, -⟩ := result_bind_eq_ok.mp harg
  simp only [readWord_of_load hload, Option.getD_some]

/-- A loop that comes to an end has followed a stack that ends. -/
theorem backtraceLoop_frames {fuel : ℕ} {ebp : Word}
    (h : (backtraceLoop B linked cpu rodata fuel ebp σ).result = .ok σ') :
    ∃ fs, FramesFrom (cpuMemory σ cpu) ebp fs 0#32 := by
  induction fuel generalizing ebp σ with
  | zero => cases h
  | succ fuel ih =>
    -- the loop ends at a null pointer only
    by_cases hnull : ebp = 0#32
    · exact ⟨[], hnull⟩
    · rw [backtraceLoop, if_neg hnull] at h
      obtain ⟨⟨ebp', σ₁⟩, hframe, hrest⟩ := result_bind_eq_ok.mp h
      obtain ⟨⟨w, rfl⟩, f, rfl, rfl, hf⟩ := backtraceFrame_frame hnull hframe
      obtain ⟨fs, hfs⟩ := ih hrest
      exact ⟨f :: fs, rfl, hf, hfs⟩

/-- `mon_backtrace` comes to an end only on a stack that ends with a null pointer. There it
prints two lines for each frame, in order, and changes nothing but `user_mem_check_addr`. -/
theorem monBacktrace_prints (B : Boot) (linked : UserStabData) (cpu : ℕ)
    (rodata : List Byte → Word) (ebp : Word) (σ : State) :
    (∀ σ', (monBacktrace B linked cpu rodata ebp σ).result = .ok σ' →
      ∃ fs, FramesFrom (cpuMemory σ cpu) ebp fs 0#32) ∧
    ∀ (fs : List Frame) (place : Frame → SourcePlace), FramesFrom (cpuMemory σ cpu) ebp fs 0#32 →
      (∀ f ∈ fs, ∃ r, Described B linked cpu rodata σ f.eip r (place f)) →
      ∃ w, Mon.Shows (monBacktrace B linked cpu rodata ebp σ) (σ.setCheckAddr w)
        (fs.flatMap fun f => f.text ++ (place f).text) := by
  refine ⟨fun σ' h => backtraceLoop_frames h, fun fs place hfs hp => ?_⟩
  exact backtraceLoop_shows hfs hp hfs.length_lt σ.userMemCheckAddr

end Backtrace

/-- A stack of one frame, in the page of the stabs of `stabState`. -/
def oneFrame : Frame where
  ebp := 0xF0110080#32
  saved := 0#32
  eip := 0xF0100002#32
  args i := BitVec.ofNat 32 (i + 1)

def callState : State :=
  { stabState with
    mem := fun f i =>
      if f = 514 ∧ 32 ≤ i.val then
        [0#32, 0xF0100002#32, 1#32, 2#32, 3#32, 4#32, 5#32].getD (i.val - 32) 0#32
      else stabState.mem f i }

theorem callState_frames :
    FramesFrom (cpuMemory callState 0) 0xF0110080#32 [oneFrame] 0#32 := by
  refine ⟨rfl, ⟨by decide, rfl, rfl, fun i hi => ?_⟩, rfl⟩
  obtain rfl | rfl | rfl | rfl | rfl : i = 0 ∨ i = 1 ∨ i = 2 ∨ i = 3 ∨ i = 4 := by omega
  all_goals rfl

/-- Two bytes into the function `f`, on line 5 of the file `f`. -/
def placeOfCall : SourcePlace := ⟨text "f", 5#32, text "f", 2#32⟩

theorem callState_name : StandsFor (cpuMemory callState 0) 0xF0110049#32 (text "f") := by
  refine .inr ⟨by decide, fun i b hb => ?_, by decide, rfl⟩
  obtain rfl : i = 0 := by
    have hi := (List.getElem?_eq_some_iff.mp hb).1
    exact Nat.lt_one_iff.mp hi
  obtain rfl := Option.some.inj hb
  rfl

theorem callState_described :
    Described smallMachine sixStabData 0 (fun _ => 0#32) callState 0xF0100002#32 0 placeOfCall := by
  refine ⟨⟨⟨.arg 0xF0110049#32, 5#32, .arg 0xF0110049#32, 1#32, 0xF0100000#32, 0#32⟩, callState,
    text "f", rfl, callState_name, by decide, callState_name, by decide, rfl, rfl, rfl⟩⟩

/-- The two lines of a frame. -/
theorem monBacktrace_prints_oneFrame :
    ∃ w, Mon.Shows (monBacktrace smallMachine sixStabData 0 (fun _ => 0#32) 0xF0110080#32 callState)
      (callState.setCheckAddr w)
      (text "ebp f0110080 eip f0100002 args 00000001  00000002  00000003  00000004  00000005 \n" ++
        text "\tf:5: f+2\n") := by
  have hp : ∀ f ∈ [oneFrame], ∃ r,
      Described smallMachine sixStabData 0 (fun _ => 0#32) callState f.eip r placeOfCall :=
    List.forall_mem_singleton.mpr ⟨0, callState_described⟩
  exact (monBacktrace_prints smallMachine sixStabData 0 (fun _ => 0#32) 0xF0110080#32
    callState).2 [oneFrame] (fun _ => placeOfCall) callState_frames hp

/-! ### `get_caller_pcs` -/

/-- The first `n` frames of a stack, up to the first that is not in the kernel. -/
def recorded (n : ℕ) (fs : List Frame) : List Frame := (fs.takeWhile (ulim ≤ ·.ebp)).take n

/-- On a stack that ends the walk returns the addresses of these frames, and zeros. -/
theorem callerPcs_recorded (n : ℕ) (h : FramesFrom m ebp fs 0#32) :
    (callerPcs m n ebp).result = .ok ((recorded n fs).map Frame.eip ++
      List.replicate (n - (recorded n fs).length) 0#32) := by
  -- over the frames; the walk stops at their end, at `n`, or outside the kernel
  induction fs generalizing ebp n with
  | nil =>
    obtain rfl : ebp = 0#32 := h
    cases n <;> rfl
  | cons f fs ih =>
    obtain ⟨rfl, hf, hrest⟩ := h
    cases n with
    | zero => rfl
    | succ n =>
      by_cases hk : ulim ≤ f.ebp
      · have hrec : recorded (n + 1) (f :: fs) = f :: recorded n fs := by
          rw [recorded, List.takeWhile_cons_of_pos (by simpa using hk), List.take_succ_cons]
          rfl
        have hgo : ¬(f.ebp = 0#32 ∨ f.ebp < ulim) := not_or.mpr ⟨hf.nonnull, BitVec.not_lt.mpr hk⟩
        rw [callerPcs, if_neg hgo, Mon.load, hf.eip, mk_bind, Mon.load, hf.saved, mk_bind,
          bind_of_ok (ih n hrest), hrec, List.map_cons, List.length_cons, Nat.add_sub_add_right]
        rfl
      · have hrec : recorded (n + 1) (f :: fs) = [] := by
          rw [recorded, List.takeWhile_cons_of_neg (by simpa using hk), List.take_nil]
        rw [callerPcs, if_pos (.inr (BitVec.not_le.mp hk)), hrec]
        rfl

/-! ### The report of `spin_unlock` -/

section Report

variable {B : Boot} {linked : UserStabData} {cpu : ℕ} {rodata : List Byte → Word} {σ σ' : State}

/-- The line for a return address. -/
def pcText (pc : Word) : Option SourcePlace → List Byte
  | some p => text "  " ++ zeros 8 (hex pc) ++ text " " ++ p.file ++ text ":" ++
      decimal p.line.toInt ++ text ": " ++ p.function ++ text "+" ++ hex p.offset ++ text "\n"
  | none => text "  " ++ zeros 8 (hex pc) ++ text "\n"

/-- What `debuginfo_eip` says about a return address: its place, or that there is none. -/
def Reported (B : Boot) (linked : UserStabData) (cpu : ℕ) (rodata : List Byte → Word)
    (σ : State) (pc : Word) : Option SourcePlace → Prop
  | some p => ∃ r, 0 ≤ r ∧ Described B linked cpu rodata σ pc r p
  | none => ∃ r info σ', r < 0 ∧ (debuginfoEip B linked cpu pc σ).result = .ok (r, info, σ')

theorem prints_pc (m : Memory) (pc : Word) :
    Prints m "  %08x\n" [pc] (text "  " ++ zeros 8 (hex pc) ++ text "\n") := by
  have hpads : (zerosSpec 8).Pads 8 (chr '0') := zerosSpec_pads (by decide)
  have hparts : fmtParts (fun i => [pc].getD i 0#32) (text "  %08x\n") .text [] 0 =
      [.plain (text "  "), .item (.unsigned (zerosSpec 8) (pc.setWidth 64) 16),
        .plain (text "\n")] := rfl
  have hprints := prints_of_parts m hparts (.cons rfl (.cons (FmtPart.prints_zeros hpads pc)
    (.cons rfl .nil)))
  simpa only [List.flatten_cons, List.flatten_nil, List.append_nil, List.append_assoc] using hprints

theorem prints_pc_place {file fn namelen line offset pc : Word} {p : SourcePlace} {name : List Byte}
    (hfile : StandsFor m file p.file) (hflen : p.file.length < 2 ^ 31) (hfn : StandsFor m fn name)
    (hnlen : name.length < 2 ^ 31) (hname : p.function = name.take (limit namelen name.length))
    (hline : p.line = line) (hoffset : p.offset = offset) :
    Prints m "  %08x %s:%d: %.*s+%x\n" [pc, file, line, namelen, fn, offset]
      (pcText pc (some p)) := by
  have hpads : (zerosSpec 8).Pads 8 (chr '0') := zerosSpec_pads (by decide)
  have hparts : fmtParts (fun i => [pc, file, line, namelen, fn, offset].getD i 0#32)
      (text "  %08x %s:%d: %.*s+%x\n") .text [] 0 =
      [.plain (text "  "), .item (.unsigned (zerosSpec 8) (pc.setWidth 64) 16),
        .plain (text " "), .item (.string {} 1), .plain (text ":"),
        .item (.signed {} (line.signExtend 64)), .plain (text ": "),
        .item (.string { width := 0#32, precision := namelen } 4), .plain (text "+"),
        .item (.unsigned {} (offset.setWidth 64) 16), .plain (text "\n")] := rfl
  have hprints := prints_of_parts m hparts (.cons rfl (.cons (FmtPart.prints_zeros hpads pc)
    (.cons rfl (.cons (FmtPart.prints_whole hfile hflen)
      (.cons rfl (.cons (FmtPart.prints_decimal line) (.cons rfl
        (.cons (FmtPart.prints_string hfn (.inr rfl) rfl hnlen) (.cons rfl
          (.cons (FmtPart.prints_hex offset) (.cons rfl .nil)))))))))))
  rw [pcText, hname, hline, hoffset]
  simpa only [List.flatten_cons, List.flatten_nil, List.append_nil, List.append_assoc]
    using hprints

theorem reportPc_shows {pc : Word} {place : Option SourcePlace}
    (hp : Reported B linked cpu rodata σ pc place) (v : Word) :
    ∃ w, Mon.Shows (reportPc B linked cpu rodata pc (σ.setCheckAddr v)) (σ.setCheckAddr w)
      (pcText pc place) := by
  cases place with
  | none =>
    obtain ⟨r, info, σ', hr, hinfo⟩ := hp
    obtain ⟨w, hdebug⟩ := debuginfoEip_shows hinfo v
    refine ⟨w, ?_⟩
    -- a negative result: only the address is printed
    rw [reportPc]
    refine hdebug.bind ?_
    simp only [if_neg (not_le.mpr hr)]
    exact (Mon.Shows.print (prints_pc _ pc)).bind_pure fun _ => σ.setCheckAddr w
  | some p =>
    obtain ⟨r, hr, ⟨info, σ', name, hinfo, hfile, hflen, hfn, hnlen, hname, hline, hoffset⟩⟩ := hp
    obtain ⟨w, hdebug⟩ := debuginfoEip_shows hinfo v
    refine ⟨w, ?_⟩
    rw [reportPc]
    refine hdebug.bind ?_
    simp only [if_pos hr]
    exact (Mon.Shows.print (prints_pc_place hfile hflen hfn hnlen hname hline hoffset)).bind_pure
      fun _ => σ.setCheckAddr w

/-- The addresses are printed up to the first that is zero. -/
theorem reportPcs_shows {pcs : List Word} {place : Word → Option SourcePlace}
    (hp : ∀ pc ∈ pcs.takeWhile (· ≠ 0#32), Reported B linked cpu rodata σ pc (place pc))
    (v : Word) :
    ∃ w, Mon.Shows (reportPcs B linked cpu rodata pcs (σ.setCheckAddr v)) (σ.setCheckAddr w)
      ((pcs.takeWhile (· ≠ 0#32)).flatMap fun pc => pcText pc (place pc)) := by
  induction pcs generalizing v with
  | nil => exact ⟨v, .pure _⟩
  | cons pc pcs ih =>
    -- `pcs[i]` ends the loop when it is 0
    by_cases hzero : pc = 0#32
    · rw [reportPcs, if_pos hzero, List.takeWhile_cons_of_neg (by simpa using hzero)]
      exact ⟨v, .pure _⟩
    · rw [List.takeWhile_cons_of_pos (by simpa using hzero)] at hp ⊢
      obtain ⟨hpc, hp⟩ := List.forall_mem_cons.mp hp
      obtain ⟨w, hline⟩ := reportPc_shows hpc v
      obtain ⟨w', hrest⟩ := ih hp w
      rw [reportPcs, if_neg hzero, List.flatMap_cons]
      exact ⟨w', hline.bind hrest⟩

theorem prints_cannotRelease {cpunum name : Word} {lk : List Byte} (hname : StandsFor m name lk)
    (hlen : lk.length < 2 ^ 31) (id : Byte) :
    Prints m "CPU %d cannot release %s: held by CPU %d\nAcquired at:" [cpunum, name, id.setWidth 32]
      (text "CPU " ++ decimal cpunum.toInt ++ text " cannot release " ++ lk ++
        text ": held by CPU " ++ decimal id.toNat ++ text "\nAcquired at:") := by
  have hparts : fmtParts (fun i => [cpunum, name, id.setWidth 32].getD i 0#32)
      (text "CPU %d cannot release %s: held by CPU %d\nAcquired at:") .text [] 0 =
      [.plain (text "CPU "), .item (.signed {} (cpunum.signExtend 64)),
        .plain (text " cannot release "), .item (.string {} 1), .plain (text ": held by CPU "),
        .item (.signed {} ((id.setWidth 32).signExtend 64)), .plain (text "\nAcquired at:")] := rfl
  -- the number of a processor is an unsigned byte
  have hid : (id.setWidth 32).toInt = id.toNat := by
    have hlt := id.isLt
    rw [BitVec.toInt_eq_toNat_of_lt, BitVec.toNat_setWidth_of_le (by decide)]
    rw [BitVec.toNat_setWidth_of_le (by decide)]
    omega
  have hprints := prints_of_parts m hparts (.cons rfl (.cons (FmtPart.prints_decimal cpunum)
    (.cons rfl (.cons (FmtPart.prints_whole hname hlen) (.cons rfl
      (.cons (FmtPart.prints_decimal (id.setWidth 32)) (.cons rfl .nil)))))))
  rw [hid] at hprints
  simpa only [List.flatten_cons, List.flatten_nil, List.append_nil, List.append_assoc]
    using hprints

theorem Mon.Shows.loadByte {a : Word} {b : Byte} (h : m a = some b) :
    Mon.Shows (Mon.loadByte m a) b [] := by
  rw [Mon.loadByte, h]
  exact ⟨rfl, rfl⟩

/-- The zeros behind the recorded addresses end the report. -/
theorem takeWhile_zeros (l : List Word) (k : ℕ) :
    (l ++ List.replicate k 0#32).takeWhile (· ≠ 0#32) = l.takeWhile (· ≠ 0#32) := by
  induction l with
  | nil => cases k <;> rfl
  | cons w l ih =>
    by_cases hw : w = 0#32
    · rw [List.cons_append, List.takeWhile_cons_of_neg (by simpa using hw),
        List.takeWhile_cons_of_neg (by simpa using hw)]
    · rw [List.cons_append, List.takeWhile_cons_of_pos (by simpa using hw),
        List.takeWhile_cons_of_pos (by simpa using hw), ih]

/-- The frames of a stack are recorded when a lock is acquired, and reported when a processor
that does not hold the lock releases it: the return addresses of at most 10 frames, up to the
first frame that is not in the kernel and the first address that is zero. -/
theorem unlockReport_recorded {m₀ : Memory} {ebp : Word} {fs : List Frame} {pcs : List Word}
    (hfs : FramesFrom m₀ ebp fs 0#32) (hpcs : (getCallerPcs m₀ ebp).result = .ok pcs)
    {cpunum name lkCpu : Word} {lk : List Byte} {id : Byte} {place : Word → Option SourcePlace}
    (hname : StandsFor (cpuMemory σ cpu) name lk) (hlen : lk.length < 2 ^ 31)
    (hid : cpuMemory σ cpu lkCpu = some id)
    (hp : ∀ pc ∈ ((recorded 10 fs).map Frame.eip).takeWhile (· ≠ 0#32),
      Reported B linked cpu rodata σ pc (place pc)) :
    ∃ w, Mon.Shows (unlockReport B linked cpu rodata cpunum name lkCpu pcs σ) (σ.setCheckAddr w)
      (text "CPU " ++ decimal cpunum.toInt ++ text " cannot release " ++ lk ++
        text ": held by CPU " ++ decimal id.toNat ++ text "\nAcquired at:" ++
        (((recorded 10 fs).map Frame.eip).takeWhile (· ≠ 0#32)).flatMap fun pc =>
          pcText pc (place pc)) := by
  -- what the lock has recorded is known from the stack at that time
  rw [getCallerPcs, callerPcs_recorded 10 hfs] at hpcs
  obtain rfl := Except.ok.inj hpcs
  rw [← takeWhile_zeros _ (10 - (recorded 10 fs).length)] at hp
  obtain ⟨w, hreport⟩ := reportPcs_shows hp σ.userMemCheckAddr
  rw [takeWhile_zeros] at hreport
  refine ⟨w, ?_⟩
  rw [unlockReport]
  refine (Mon.Shows.loadByte hid).bind ?_
  exact (Mon.Shows.print (prints_cannotRelease hname hlen id)).bind hreport

end Report

theorem unlockReport_recorded_oneFrame :
    ∃ w, Mon.Shows (unlockReport smallMachine sixStabData 0 (fun _ => 0#32) 0#32 0xF0110049#32
        0xF0110088#32 (0xF0100002#32 :: List.replicate 9 0#32) callState) (callState.setCheckAddr w)
      (text "CPU 0 cannot release f: held by CPU 1\nAcquired at:" ++
        text "  f0100002 f:5: f+2\n") := by
  have hid : cpuMemory callState 0 0xF0110088#32 = some 1#8 := rfl
  have hp : ∀ pc ∈ ((recorded 10 [oneFrame]).map Frame.eip).takeWhile (· ≠ 0#32),
      Reported smallMachine sixStabData 0 (fun _ => 0#32) callState pc (some placeOfCall) :=
    List.forall_mem_singleton.mpr ⟨0, le_rfl, callState_described⟩
  exact unlockReport_recorded callState_frames rfl callState_name (by decide) hid hp

end Jos
