import Jos.Kern.Trapentry

/-!
# A trap and the return from it

The words that a trap leaves on the kernel stack are pushed by three parties: the processor, the
stub of the vector, and `_alltraps`. `enterKernel_stacked` has them all. If the processor and the
stub together push exactly one error code they are a `struct Trapframe` with the registers of the
user, and `env_pop_tf` brings all of these back (`popTrapframe_spec`).

Two stubs are wrong: `handler7` expects an error code that the processor does not push, and
`handler8` pushes a second one. `trap_roundTrip_iff` says that all the others are right.
-/

namespace Jos

/-- A processor in user mode. -/
structure UserMachine extends Machine where
  ring3 : cs &&& 3#16 = 3#16

/-- The words `ws` are on the stack. -/
def OnStack (s : Machine) (ws : List Word) : Prop := Stacked s.mem s.esp ws

variable {s : Machine} {ws : List Word}

theorem OnStack.push (h : OnStack s ws) (w : Word) (hlen : ws.length ≤ 100) :
    OnStack (s.push w) (w :: ws) :=
  Stacked.push h w (by omega)

/-- The stack is found in memory at the stack pointer. -/
theorem OnStack.of_eq {s' : Machine} (h : OnStack s ws) (hmem : s'.mem = s.mem)
    (hesp : s'.esp = s.esp) : OnStack s' ws := by
  rw [OnStack, hmem, hesp]
  exact h

/-- `pushal` pushes eight words. -/
theorem OnStack.pushal (h : OnStack s ws) (hlen : ws.length ≤ 50) :
    OnStack s.pushal
      (s.edi :: s.esi :: s.ebp :: s.esp :: s.ebx :: s.edx :: s.ecx :: s.eax :: ws) := by
  have h₁ := h.push s.eax (by omega)
  have h₂ := h₁.push s.ecx (by simp only [List.length_cons]; omega)
  have h₃ := h₂.push s.edx (by simp only [List.length_cons]; omega)
  have h₄ := h₃.push s.ebx (by simp only [List.length_cons]; omega)
  have h₅ := h₄.push s.esp (by simp only [List.length_cons]; omega)
  have h₆ := h₅.push s.ebp (by simp only [List.length_cons]; omega)
  have h₇ := h₆.push s.esi (by simp only [List.length_cons]; omega)
  exact h₇.push s.edi (by simp only [List.length_cons]; omega)

/-- The words that a stub pushes. -/
def Stub.words : Stub → List Word
  | .traphandler num => [num]
  | .traphandlerNoec num => [num, 0#32]

theorem OnStack.stub (h : OnStack s ws) (hlen : ws.length ≤ 50) (g : Stub) :
    OnStack (g.run s) (g.words ++ ws) := by
  cases g with
  | traphandler num => exact h.push num (by omega)
  | traphandlerNoec num =>
    exact (h.push 0#32 (by omega)).push num (by simp only [List.length_cons]; omega)

/-- The registers that `_alltraps` is to push are the same. -/
structure KeepsRegs (s s' : Machine) : Prop where
  edi : s'.edi = s.edi
  esi : s'.esi = s.esi
  ebp : s'.ebp = s.ebp
  ebx : s'.ebx = s.ebx
  edx : s'.edx = s.edx
  ecx : s'.ecx = s.ecx
  eax : s'.eax = s.eax
  es : s'.es = s.es
  ds : s'.ds = s.ds

theorem Stub.keepsRegs (g : Stub) (s : Machine) : KeepsRegs s (g.run s) := by
  cases g <;> exact ⟨rfl, rfl, rfl, rfl, rfl, rfl, rfl, rfl, rfl⟩

/-- The words that the processor pushes. -/
def hardwareWords (vector : ℕ) (err : Word) (pad : Padding) (u : Machine) : List Word :=
  (if PushesError vector then [err] else []) ++
    [u.eip, pad.cs ++ u.cs, u.eflags, u.esp, pad.ss ++ u.ss]

theorem trapEntry_onStack (vector : ℕ) (err : Word) (pad : Padding) (esp0 : Word) (u : Machine) :
    OnStack (trapEntry vector err pad esp0 u) (hardwareWords vector err pad u) := by
  have h₀ : OnStack { u with esp := esp0, ss := gdKD } [] := trivial
  have h₁ := h₀.push (pad.ss ++ u.ss) (by simp)
  have h₂ := h₁.push u.esp (by simp)
  have h₃ := h₂.push u.eflags (by simp)
  have h₄ := h₃.push (pad.cs ++ u.cs) (by simp)
  have h₅ := h₄.push u.eip (by simp)
  rw [trapEntry, hardwareWords]
  by_cases herr : PushesError vector
  · rw [if_pos herr, if_pos herr]
    exact (h₅.push err (by simp)).of_eq rfl rfl
  · rw [if_neg herr, if_neg herr]
    exact h₅.of_eq rfl rfl

theorem trapEntry_keepsRegs (vector : ℕ) (err : Word) (pad : Padding) (esp0 : Word)
    (u : Machine) : KeepsRegs u (trapEntry vector err pad esp0 u) := by
  by_cases herr : PushesError vector
  · constructor <;> simp only [trapEntry, if_pos herr, Machine.push]
  · constructor <;> simp only [trapEntry, if_neg herr, Machine.push]

/-- `_alltraps` pushes ten words, and calls `trap` with their address. -/
theorem alltraps_stacked (h : OnStack s ws) (hlen : ws.length ≤ 40) (pad : Padding) (ret : Word) :
    ∃ oesp, Stacked (alltraps pad ret s).2.mem (alltraps pad ret s).1
      (s.edi :: s.esi :: s.ebp :: oesp :: s.ebx :: s.edx :: s.ecx :: s.eax ::
        (pad.es ++ s.es) :: (pad.ds ++ s.ds) :: ws) := by
  have h₁ := h.push (pad.ds ++ s.ds) (by omega)
  have h₂ := h₁.push (pad.es ++ s.es) (by simp only [List.length_cons]; omega)
  have h₃ := h₂.pushal (by simp only [List.length_cons]; omega)
  set k := ((s.push (pad.ds ++ s.ds)).push (pad.es ++ s.es)).pushal with hk
  have h₄ : OnStack { k with eax := k.eax.extractLsb' 16 16 ++ gdKD, ds := gdKD, es := gdKD } _ :=
    h₃.of_eq rfl rfl
  -- the argument and the return address go below
  have h₅ := (h₄.push k.esp (by simp only [List.length_cons]; omega)).push ret
    (by simp only [List.length_cons]; omega)
  have htf : k.esp - 4#32 - 4#32 + 4#32 + 4#32 = k.esp := by
    rw [BitVec.sub_add_cancel, BitVec.sub_add_cancel]
  have htail := h₅.tail.tail
  exact ⟨_, htf ▸ htail⟩

/-- The words a trap leaves on the kernel stack, from the address that `trap` is called with. -/
theorem enterKernel_stacked (vector : ℕ) (gate : Gate) (err : Word) (pad : Padding)
    (esp0 ret : Word) (u : Machine) :
    ∃ oesp, Stacked (enterKernel vector gate err pad esp0 ret u).2.mem
      (enterKernel vector gate err pad esp0 ret u).1
      (u.edi :: u.esi :: u.ebp :: oesp :: u.ebx :: u.edx :: u.ecx :: u.eax ::
        (pad.es ++ u.es) :: (pad.ds ++ u.ds) ::
        (gate.off.stub.words ++ hardwareWords vector err pad u)) := by
  have hlen : (hardwareWords vector err pad u).length ≤ 6 := by
    unfold hardwareWords
    split <;> simp
  have hstub : gate.off.stub.words.length ≤ 2 := by
    cases gate.off.stub <;> simp [Stub.words]
  have h := (trapEntry_onStack vector err pad esp0 u).stub (by omega) gate.off.stub
  obtain ⟨oesp, hst⟩ := alltraps_stacked h (by rw [List.length_append]; omega) pad ret
  -- up to here the registers are those of the user
  have hproc := trapEntry_keepsRegs vector err pad esp0 u
  have hrun := gate.off.stub.keepsRegs (trapEntry vector err pad esp0 u)
  rw [hrun.edi, hrun.esi, hrun.ebp, hrun.ebx, hrun.edx, hrun.ecx, hrun.eax, hrun.es, hrun.ds,
    hproc.edi, hproc.esi, hproc.ebp, hproc.ebx, hproc.edx, hproc.ecx, hproc.eax, hproc.es,
    hproc.ds] at hst
  exact ⟨oesp, hst⟩

/-- The low half of a pushed selector. -/
@[simp] theorem setWidth_padded (hi lo : BitVec 16) : (hi ++ lo).setWidth 16 = lo := by
  ext i hlt
  rw [BitVec.getElem_setWidth, BitVec.getLsbD_append, if_pos hlt, BitVec.getLsbD_eq_getElem hlt]

/-- The words of a `struct Trapframe` with the registers of `u`. -/
def frameWords (u : Machine) (pad : Padding) (oesp trapno err : Word) : List Word :=
  [u.edi, u.esi, u.ebp, oesp, u.ebx, u.edx, u.ecx, u.eax, pad.es ++ u.es, pad.ds ++ u.ds, trapno,
    err, u.eip, pad.cs ++ u.cs, u.eflags, u.esp, pad.ss ++ u.ss]

/-- The `struct Trapframe` with the registers of `u`. -/
def savedFrame (u : Machine) (oesp trapno err : Word) : Trapframe where
  tfRegs :=
    { regEdi := u.edi, regEsi := u.esi, regEbp := u.ebp, regOesp := oesp, regEbx := u.ebx,
      regEdx := u.edx, regEcx := u.ecx, regEax := u.eax }
  tfEs := u.es
  tfDs := u.ds
  tfTrapno := trapno
  tfErr := err
  tfEip := u.eip
  tfCs := u.cs
  tfEflags := u.eflags
  tfEsp := u.esp
  tfSs := u.ss

theorem decodeTrapframe_frameWords {m : ByteMem} {tf : Word} {u : Machine} {pad : Padding}
    {oesp trapno err : Word} (h : Stacked m tf (frameWords u pad oesp trapno err)) :
    decodeTrapframe m tf = savedFrame u oesp trapno err := by
  have at_ (i : ℕ) (w : Word) (hi : (frameWords u pad oesp trapno err)[i]? = some w) :
      load32 m (tf + BitVec.ofNat 32 (4 * i)) = w := h.get hi
  unfold decodeTrapframe savedFrame
  simp only [load16_eq]
  rw [show load32 m tf = u.edi from h.head, at_ 1 _ rfl, at_ 2 _ rfl, at_ 3 _ rfl, at_ 4 _ rfl,
    at_ 5 _ rfl, at_ 6 _ rfl, at_ 7 _ rfl, at_ 8 _ rfl, at_ 9 _ rfl, at_ 10 _ rfl, at_ 11 _ rfl,
    at_ 12 _ rfl, at_ 13 _ rfl, at_ 14 _ rfl, at_ 15 _ rfl, at_ 16 _ rfl]
  simp only [setWidth_padded]

/-- `env_pop_tf` brings back the registers. -/
theorem popTrapframe_spec {m : ByteMem} {tf : Word} {u : UserMachine} {pad : Padding}
    {oesp trapno err : Word} (h : Stacked m tf (frameWords u.toMachine pad oesp trapno err))
    (hs : s.cs = gdKT) :
    popTrapframe tf { s with mem := m } = { u.toMachine with mem := m } := by
  have hskip (x : Word) : x + 8#32 = x + 4#32 + 4#32 := by
    rw [BitVec.add_assoc]
    rfl
  have hring : (gdKT &&& 3#16) < u.cs &&& 3#16 := by
    rw [u.ring3]
    decide
  simp only [frameWords, Stacked] at h
  obtain ⟨hedi, hesi, hebp, -, hebx, hedx, hecx, heax, hes, hds, -, -, heip, hcs, hflags, hesp,
    hss, -⟩ := h
  simp only [popTrapframe, Machine.popal, Machine.pop, Machine.iret, hs, hskip, hedi, hesi, hebp,
    hebx, hedx, hecx, heax, hes, hds, heip, hcs, hflags, hesp, hss, setWidth_padded, if_pos hring]

/-! ### The round trip -/

/-- The error code of a trap. -/
def errorCode (vector : ℕ) (err : Word) : Word := if PushesError vector then err else 0#32

/-- A trap from user mode and the return from it are inverse: `trap` is called with the address of
a `struct Trapframe` that holds the registers of the user, and `env_pop_tf` on a copy of it brings
all of them back. -/
structure RoundTrip (vector : ℕ) (gate : Gate) (err : Word) (pad : Padding) (esp0 ret : Word)
    (u : UserMachine) : Prop where
  entry : ∃ oesp, decodeTrapframe (enterKernel vector gate err pad esp0 ret u.toMachine).2.mem
      (enterKernel vector gate err pad esp0 ret u.toMachine).1 =
    savedFrame u.toMachine oesp (BitVec.ofNat 32 vector) (errorCode vector err)
  return_ : ∀ (m : ByteMem) (copy : Word) (s : Machine), s.cs = gdKT →
    (∀ k < sizeofTrapframe, m (copy + BitVec.ofNat 32 k) =
      (enterKernel vector gate err pad esp0 ret u.toMachine).2.mem
        ((enterKernel vector gate err pad esp0 ret u.toMachine).1 + BitVec.ofNat 32 k)) →
    popTrapframe copy { s with mem := m } = { u.toMachine with mem := m }

/-- The stub and the processor push one error code, except for two vectors. -/
theorem stub_words {vector : ℕ} {gate : Gate} (hgate : idt vector = some gate)
    (h7 : vector ≠ 7) (h8 : vector ≠ 8) (err : Word) (pad : Padding) (u : Machine) :
    gate.off.stub.words ++ hardwareWords vector err pad u =
      [BitVec.ofNat 32 vector, errorCode vector err, u.eip, pad.cs ++ u.cs, u.eflags, u.esp,
        pad.ss ++ u.ss] := by
  unfold idt at hgate
  split at hgate
  all_goals first
    | exact absurd rfl h7
    | exact absurd rfl h8
    | cases hgate
  all_goals rfl

/-- With `handler7` the frame lacks an error code: every field from `tf_err` on has the value of
the next one. -/
theorem not_roundTrip_device (err : Word) (pad : Padding) (esp0 ret : Word) (u : UserMachine) :
    ¬RoundTrip 7 ⟨.handler7, 0⟩ err pad esp0 ret u := by
  rintro ⟨⟨oesp', hframe⟩, -⟩
  obtain ⟨oesp, hst⟩ := enterKernel_stacked 7 ⟨.handler7, 0⟩ err pad esp0 ret u.toMachine
  have herr := (hst.get (i := 11) rfl).symm.trans (congrArg Trapframe.tfErr hframe)
  have heip := (hst.get (i := 12) rfl).symm.trans (congrArg Trapframe.tfEip hframe)
  -- `tf_eip` would be the code segment, and is `tf_err`
  have hzero : u.eip = 0#32 := herr
  have hcs : pad.cs ++ u.cs = u.eip := heip
  have hlow := congrArg (BitVec.setWidth 16) hcs
  rw [setWidth_padded, hzero] at hlow
  have hring := u.ring3
  rw [hlow] at hring
  exact absurd hring (by decide)

/-- With `handler8` the frame has a second error code: every field from `tf_eip` on has the value
of the one before. -/
theorem not_roundTrip_doubleFault (err : Word) (pad : Padding) (esp0 ret : Word)
    (u : UserMachine) : ¬RoundTrip 8 ⟨.handler8, 0⟩ err pad esp0 ret u := by
  rintro ⟨⟨oesp', hframe⟩, -⟩
  obtain ⟨oesp, hst⟩ := enterKernel_stacked 8 ⟨.handler8, 0⟩ err pad esp0 ret u.toMachine
  have herr := (hst.get (i := 11) rfl).symm.trans (congrArg Trapframe.tfErr hframe)
  have heip := (hst.get (i := 12) rfl).symm.trans (congrArg Trapframe.tfEip hframe)
  have hcs := congrArg Trapframe.tfCs hframe
  have hzero : 0#32 = err := herr
  have heip : err = u.eip := heip
  have hword : load32 (enterKernel 8 ⟨.handler8, 0⟩ err pad esp0 ret u.toMachine).2.mem
      ((enterKernel 8 ⟨.handler8, 0⟩ err pad esp0 ret u.toMachine).1 + 52#32) = u.eip :=
    hst.get (i := 13) rfl
  -- `tf_cs` would be the low half of `tf_eip`, and this is the error code
  have hlow : (u.eip.setWidth 16 : BitVec 16) = u.cs := by
    rw [← hword, ← load16_eq]
    exact hcs
  have hring := u.ring3
  rw [← hlow, ← heip, ← hzero] at hring
  exact absurd hring (by decide)

/-- For every vector that `trap_init` installs, every error code and every user: the trap and the
return are inverse if and only if the vector is neither `T_DEVICE` nor `T_DBLFLT`. -/
theorem trap_roundTrip_iff {vector : ℕ} {gate : Gate} (hgate : idt vector = some gate) (err : Word)
    (pad : Padding) (esp0 ret : Word) (u : UserMachine) :
    RoundTrip vector gate err pad esp0 ret u ↔ vector ≠ 7 ∧ vector ≠ 8 := by
  constructor
  · intro h
    constructor
    · rintro rfl
      obtain rfl := Option.some.inj hgate
      exact not_roundTrip_device err pad esp0 ret u h
    · rintro rfl
      obtain rfl := Option.some.inj hgate
      exact not_roundTrip_doubleFault err pad esp0 ret u h
  · rintro ⟨h7, h8⟩
    obtain ⟨oesp, hst⟩ := enterKernel_stacked vector gate err pad esp0 ret u.toMachine
    rw [stub_words hgate h7 h8] at hst
    refine ⟨⟨oesp, decodeTrapframe_frameWords hst⟩, ?_⟩
    intro m copy s hs hcopy
    exact popTrapframe_spec (hst.copy hcopy) hs

/-- A user. -/
def someUser : UserMachine where
  eax := 0#32
  ecx := 1#32
  edx := 2#32
  ebx := 3#32
  esp := 0xEEBFE000#32
  ebp := 5#32
  esi := 6#32
  edi := 7#32
  eip := 0x800020#32
  eflags := 0x202#32
  cs := 0x1B#16
  ss := 0x23#16
  ds := 0x23#16
  es := 0x23#16
  mem := fun _ => 0#8
  ring3 := by decide

theorem trap_roundTrip_pageFault :
    RoundTrip 14 ⟨.handler14, 0⟩ 6#32 ⟨0, 0, 0, 0⟩ 0xF0000000#32 0#32 someUser :=
  (trap_roundTrip_iff (show idt 14 = some ⟨.handler14, 0⟩ from rfl) 6#32 ⟨0, 0, 0, 0⟩
    0xF0000000#32 0#32 someUser).mpr (by decide)

/-- A device-not-available trap leaves a frame in which `tf_err` is the user's `eip`. -/
theorem trap_frame_shifted : idt 7 = some ⟨.handler7, 0⟩ ∧
    ¬RoundTrip 7 ⟨.handler7, 0⟩ 0#32 ⟨0, 0, 0, 0⟩ 0xF0000000#32 0#32 someUser :=
  ⟨rfl, not_roundTrip_device _ _ _ _ _⟩

end Jos
