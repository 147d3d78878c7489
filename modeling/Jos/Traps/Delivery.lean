import Jos.Kern.Idt
import Jos.Traps.RoundTrip

/-!
# From the instruction `int` to `trap`

What a user program can make the processor do, with the tables that `trap_init` has made. The
gates that it has set are found in the bytes of `idt`, with the privilege levels that it gave them,
and lead to the entry points; everything else a program asks for is a general protection fault,
whose gate is one of them. So all ways into the kernel end in `trap`, on the stack at `KSTACKTOP`,
with a `struct Trapframe` of the user's registers (`trap_taken`).

Paging is left out: the stack below `KSTACKTOP`, the tables and the text of the kernel are taken to
be mapped, although `mem_init` maps nothing but the array `envs`. All processors load the same `ts`,
and so the same stack; that only one of them is on it is taken for granted as well.

`TablesReady` is what the processor reads in the tables. It is shown once, for the boot processor
and for the ones that follow it.
-/

namespace Jos

/-! ### The tables -/

/-- The gate for a vector, as `trap_init` leaves it. -/
def gateOf (entry : Handler → Word) (n : ℕ) : Gatedesc :=
  match idt n with
  | some gate => setgate false gdKT (entry gate.off) (BitVec.ofNat 2 gate.dpl)
  | none => gateNull

/-- The task segment of a processor that has set itself up. -/
def taskSegment (tsAddr : Word) : SegView :=
  { base := tsAddr, limit := 103#32, type := stsT32A, system := true, dpl := 0, present := true }

/-- What the processor needs of the tables. -/
structure TablesReady (entry : Handler → Word) (tsAddr : Word) (t : Tables) : Prop where
  text : t.gdt 1 = gdtImage 1
  data : t.gdt 2 = gdtImage 2
  idt : ∀ n, t.idt n = gateOf entry n
  tsAddr_eq : t.tsAddr = tsAddr
  stack : t.ts.tsEsp0 = kstacktop ∧ t.ts.tsSs0 = gdKD
  gdtLimit : t.gdtLimit = some 103
  idtLimit : t.idtLimit = some 2047
  tr : t.tr = some (taskSegment tsAddr)

variable {entry : Handler → Word} {tsAddr : Word} {t : Tables}

theorem trapInitPercpu_eq (h : t.gdtLimit = some 103) :
    ∃ t', trapInitPercpu t = some t' ∧ t'.gdt 1 = t.gdt 1 ∧ t'.gdt 2 = t.gdt 2 ∧
      t'.idt = t.idt ∧ t'.tsAddr = t.tsAddr ∧
      (t'.ts.tsEsp0 = kstacktop ∧ t'.ts.tsSs0 = gdKD) ∧ t'.gdtLimit = some 103 ∧
      t'.idtLimit = some 2047 ∧ t'.tr = some (taskSegment t.tsAddr) := by
  -- the limit of the task segment fits into 16 bits, so the descriptor says all of it
  have hsmall : (103#32 : Word).toNat < 2 ^ 16 := by decide
  have hview := segView_system hsmall stsT32A t.tsAddr 0
  have hindex : (gdTSS0 >>> 3).toNat = 5 := by decide
  have hlim : BitVec.ofNat 32 sizeofTaskstate - 1#32 = 103#32 := by decide
  -- `ltr` finds the descriptor that has just been written
  simp only [trapInitPercpu, ltr, hindex, hlim, Function.update_self, hview, h]
  refine ⟨_, rfl, ?_, ?_, rfl, rfl, ⟨rfl, rfl⟩, rfl, rfl, rfl⟩
  · simp
  · simp

/-- The sixteen gates, set one after the other. -/
theorem setGates_idt (entry : Handler → Word) (t : Tables) (h : ∀ n, t.idt n = gateNull) (n : ℕ) :
    (setGates entry t).idt n = gateOf entry n := by
  unfold gateOf
  -- a vector that is in none of the sixteen calls keeps the zeros of the image
  cases hidt : idt n with
  | none =>
    unfold idt at hidt
    split at hidt
    all_goals simp_all [setGates, Tables.setgate, Function.update]
  | some gate =>
    unfold idt at hidt
    split at hidt
    all_goals cases hidt
    all_goals simp [setGates, Tables.setgate, Function.update]

theorem setGates_fields (entry : Handler → Word) (t : Tables) :
    (setGates entry t).gdt = t.gdt ∧ (setGates entry t).tsAddr = t.tsAddr ∧
      (setGates entry t).gdtLimit = t.gdtLimit := by
  simp [setGates, Tables.setgate]

theorem SetUp.ready (h : SetUp entry tsAddr t) : TablesReady entry tsAddr t := by
  induction h with
  -- one case for the boot processor, one for a processor that sets itself up after another
  | bsp hinit =>
    -- `trap_init` fills `idt` and leaves the other tables alone
    obtain ⟨hgdt, haddr, hlimit⟩ :=
      setGates_fields entry (envInitPercpu (tablesImage tsAddr))
    have hidt := setGates_idt entry (envInitPercpu (tablesImage tsAddr)) fun _ => rfl
    obtain ⟨t', hpercpu, htext, hdata, hidt', haddr', hstack, hgdtl, hidtl, htr⟩ :=
      trapInitPercpu_eq hlimit
    obtain rfl := Option.some.inj (hinit.symm.trans hpercpu)
    rw [haddr] at htr haddr'
    rw [hgdt] at htext hdata
    exact ⟨htext, hdata, fun n => (congrFun hidt' n).trans (hidt n), haddr', hstack, hgdtl, hidtl,
      htr⟩
  | ap _ hinit ih =>
    obtain ⟨t', hpercpu, htext, hdata, hidt', haddr', hstack, hgdtl, hidtl, htr⟩ :=
      trapInitPercpu_eq (t := envInitPercpu _) rfl
    obtain rfl := Option.some.inj (hinit.symm.trans hpercpu)
    -- `gdt`, `idt` and `ts` are shared: what the processor before it left is still there
    refine ⟨htext.trans ih.text, hdata.trans ih.data, fun n => ?_, haddr'.trans ih.tsAddr_eq,
      hstack, hgdtl, hidtl, htr.trans ?_⟩
    · exact (congrFun hidt' n).trans (ih.idt n)
    · exact congrArg (fun a => some (taskSegment a)) ih.tsAddr_eq

/-! ### What the processor reads -/

/-- A segment that is all of the address space. -/
def flatSegment (type : BitVec 4) : SegView :=
  { base := 0#32, limit := 0xFFFFFFFF#32, type := type, system := false, dpl := 0
    present := true }

theorem segment_text (h : TablesReady entry tsAddr t) :
    t.segment gdKT = some (flatSegment (staX ||| staR)) := by
  -- the selector is element 1 of the `gdt`, below the limit
  have hindex : (gdKT >>> 3).toNat = 1 := by decide
  have hti : gdKT.getLsbD 2 = false := by decide
  have hlimit : t.gdtLimit.any (8 * (gdKT >>> 3).toNat + 7 ≤ ·) = true := by
    rw [hindex, h.gdtLimit]
    decide
  rw [Tables.segment, if_pos ⟨hti, hlimit⟩, hindex, h.text]
  exact congrArg some (segView_seg (staX ||| staR) 0x0#32 0xFFFFFFFF#32 0)

theorem segment_data (h : TablesReady entry tsAddr t) :
    t.segment gdKD = some (flatSegment staW) := by
  -- the selector is element 2 of the `gdt`, below the limit
  have hindex : (gdKD >>> 3).toNat = 2 := by decide
  have hti : gdKD.getLsbD 2 = false := by decide
  have hlimit : t.gdtLimit.any (8 * (gdKD >>> 3).toNat + 7 ≤ ·) = true := by
    rw [hindex, h.gdtLimit]
    decide
  rw [Tables.segment, if_pos ⟨hti, hlimit⟩, hindex, h.data]
  exact congrArg some (segView_seg staW 0x0#32 0xFFFFFFFF#32 0)

theorem innerStack_eq (h : TablesReady entry tsAddr t) (ext : Word) :
    t.innerStack 0 ext = .ok (kstacktop, gdKD) := by
  -- the task register has the base of `ts`, so `esp0` and `ss0` are read there
  obtain ⟨hesp, hss⟩ := h.stack
  unfold Tables.innerStack Taskstate.stack
  simp only [h.tr, h.tsAddr_eq, hesp, hss, if_true, taskSegment]
  rw [segment_data h]
  simp [flatSegment, gdKD, staX, staW]

/-! ### Events in user mode -/

/-- The gate that an event is taken through: its number, and the error code. What a program may
not ask for, and what there is no gate for, is a general protection fault. -/
def landing (ev : Event) : BitVec 8 × Word :=
  match idt ev.vector.toNat with
  | some gate =>
    if ev.isSoft ∧ gate.dpl < 3 then (13#8, ev.gateError)
    else (ev.vector, ev.error?.getD 0#32)
  | none => (13#8, ev.gateError)

/-- What `trapEntry` leaves, at the entry point of `gate`. -/
def enteredAt (entry : Handler → Word) (gate : Gate) (vector : BitVec 8) (err : Word)
    (pad : Padding) (u : Machine) : Machine :=
  { trapEntry vector.toNat err pad kstacktop u with eip := entry gate.off }

theorem gateView_gateOf {n : ℕ} {gate : Gate} (h : idt n = some gate) :
    gateView (gateOf entry n).bits =
      { offset := entry gate.off, sel := gdKT, type := stsIG32, system := true
        dpl := BitVec.ofNat 2 gate.dpl, present := true } := by
  rw [gateOf, h]
  exact gateView_setgate _ _ _ _

theorem gateView_gateNull : (gateView gateNull.bits).type = 0#4 := by decide

theorem setWidth_ring3 (u : UserMachine) : (u.cs.setWidth 2 : BitVec 2) = 3#2 := by
  -- the level is in the lower two bits of the selector
  have hlow : ((u.cs &&& 3#16).setWidth 2 : BitVec 2) = u.cs.setWidth 2 := by
    have hones : BitVec.setWidth 2 3#16 = BitVec.allOnes 2 := by decide
    rw [BitVec.setWidth_and, hones, BitVec.and_allOnes]
  rw [← hlow, u.ring3]
  decide

theorem idtLimit_any (h : TablesReady entry tsAddr t) (n : BitVec 8) :
    t.idtLimit.any (8 * n.toNat + 7 ≤ ·) = true := by
  rw [h.idtLimit]
  have hn := n.isLt
  exact decide_eq_true (by omega)

/-- The gates that a program may use itself. -/
theorem idt_dpl {n : ℕ} {gate : Gate} (h : idt n = some gate) :
    (gate.dpl = 3 ∧ (n = 3 ∨ n = 48)) ∨ gate.dpl = 0 := by
  -- only `T_BRKPT` and `T_SYSCALL` have a gate of level 3
  unfold idt at h
  split at h
  all_goals cases h
  all_goals simp

/-- Whether there is an error code depends on the vector only. -/
theorem error?_eq {ev : Event} (hev : ev.Proper) {gate : Gate}
    (hgate : idt ev.vector.toNat = some gate) (hdpl : ev.isSoft = true → gate.dpl = 3) :
    ev.error? = if PushesError ev.vector.toNat then some (ev.error?.getD 0#32) else none := by
  -- an exception pushes one or not, an instruction or a device never does
  cases ev with
  | exception n err =>
    by_cases herr : PushesError n.toNat
    · simp [Event.error?, Event.vector, herr]
    · simp [Event.error?, Event.vector, herr]
  | soft n =>
    -- an instruction that may use its gate is `int 3` or `int 48`
    have hn : n.toNat = 3 ∨ n.toNat = 48 := by
      obtain ⟨-, hn⟩ | hzero := idt_dpl hgate
      · exact hn
      · exact absurd (hzero.symm.trans (hdpl rfl)) (by decide)
    refine (if_neg ?_).symm
    unfold PushesError Event.vector
    dsimp only
    omega
  | external n =>
    -- the vectors of devices are above those of exceptions
    have hn : 32 ≤ n.toNat := hev
    refine (if_neg ?_).symm
    unfold PushesError Event.vector
    dsimp only
    omega

/-- The processor has pushed what `trapEntry` pushes. -/
theorem enter_eq {ev : Event} (hev : ev.Proper) (pad : Padding) (u : Machine) {gate : Gate}
    (hgate : idt ev.vector.toNat = some gate) (hdpl : ev.isSoft = true → gate.dpl = 3) :
    ev.enter pad u (entry gate.off) gdKT gateMask
        (({ u with esp := kstacktop, ss := gdKD }.push (pad.ss ++ u.ss)).push u.esp) =
      enteredAt entry gate ev.vector (ev.error?.getD 0#32) pad u := by
  have herror := error?_eq hev hgate hdpl
  unfold Event.enter enteredAt trapEntry
  -- with an error code and without
  by_cases herr : PushesError ev.vector.toNat
  · rw [if_pos herr] at herror ⊢
    rw [herror]
    rfl
  · rw [if_neg herr] at herror ⊢
    rw [herror]
    rfl

/-- A gate that the event may use. -/
theorem deliver_gate (h : TablesReady entry tsAddr t) (pad : Padding) {ev : Event}
    (hev : ev.Proper) (u : UserMachine) {gate : Gate} (hgate : idt ev.vector.toNat = some gate)
    (hdpl : ev.isSoft = true → gate.dpl = 3) :
    deliver t pad ev u.toMachine =
      .ok (enteredAt entry gate ev.vector (ev.error?.getD 0#32) pad u.toMachine) := by
  -- the gate is one that the program may use
  have hsoft : (ev.isSoft && decide (BitVec.ofNat 2 gate.dpl < 3#2)) = false := by
    cases hs : ev.isSoft with
    | false => rfl
    | true =>
      rw [hdpl hs]
      decide
  -- the code segment of the gate is there, it is code, and not conforming
  have hsel : gdKT &&& ~~~3#16 ≠ 0#16 := by decide
  have hcode : (staX ||| staR).getLsbD 3 = true ∧ (staX ||| staR).getLsbD 2 = false := by decide
  unfold deliver
  simp only [idtLimit_any h, h.idt, gateView_gateOf hgate, setWidth_ring3, hsoft, if_neg hsel,
    segment_text h, flatSegment, hcode.1, hcode.2]
  -- the level changes from 3 to 0, so the stack is the one that `ts` names
  have hlevel : (0 : BitVec 2) ≠ 3#2 := by decide
  have hlimit : ¬0xFFFFFFFF#32 < entry gate.off := by
    rw [BitVec.not_lt, BitVec.le_def]
    exact Nat.le_of_lt_succ (entry gate.off).isLt
  have hprivilege : decide ((3#2 : BitVec 2) < 0) = false := by decide
  have hcs : (gdKT &&& ~~~3#16) ||| BitVec.setWidth 16 (0 : BitVec 2) = gdKT := by decide
  simp only [Bool.not_true, Bool.false_eq_true, if_false, if_true, beq_self_eq_true,
    Bool.true_or, Bool.or_self, hprivilege, if_neg hlimit, if_neg hlevel, innerStack_eq h, hcs,
    BitVec.zero_add]
  exact congrArg Except.ok (enter_eq hev pad u.toMachine hgate hdpl)

/-- An event without a gate, or with one that it may not use. -/
theorem deliver_fault (h : TablesReady entry tsAddr t) (pad : Padding) (ev : Event)
    (u : UserMachine) (hgate : ∀ gate, idt ev.vector.toNat = some gate → ev.isSoft = true ∧
      gate.dpl = 0) :
    deliver t pad ev u.toMachine = .error ⟨13#8, ev.gateError⟩ := by
  unfold deliver
  simp only [idtLimit_any h, h.idt, setWidth_ring3]
  -- a gate that is all zeros is of no type, and a gate of level 0 is not for `int n`
  cases hidt : idt ev.vector.toNat with
  | none =>
    rw [gateOf, hidt]
    simp [gateView_gateNull, stsIG32, stsTG32]
  | some gate =>
    obtain ⟨hs, hdpl⟩ := hgate gate hidt
    simp [gateView_gateOf hidt, hs, hdpl]

theorem contributory_gate {n : BitVec 8} (h : contributory n = true) :
    (idt n.toNat).isSome = true := by
  revert n
  decide

/-- Every event is taken, through one gate. -/
theorem takeEvent_eq (h : TablesReady entry tsAddr t) (pad : Padding) {ev : Event}
    (hev : ev.Proper) (u : UserMachine) :
    ∃ gate, idt (landing ev).1.toNat = some gate ∧ takeEvent t pad ev u.toMachine =
      some (enteredAt entry gate (landing ev).1 (landing ev).2 pad u.toMachine) := by
  by_cases hgate : ∃ gate, idt ev.vector.toNat = some gate ∧ (ev.isSoft = true → gate.dpl = 3)
  · -- it has its own gate
    obtain ⟨gate, hgate, hdpl⟩ := hgate
    have hland : landing ev = (ev.vector, ev.error?.getD 0#32) := by
      rw [landing, hgate]
      refine if_neg fun hc => ?_
      rw [hdpl hc.1] at hc
      exact absurd hc.2 (by decide)
    rw [hland]
    refine ⟨gate, hgate, ?_⟩
    rw [takeEvent, deliver_gate h pad hev u hgate hdpl]
  · -- a general protection fault comes instead, and that has a gate
    have hbad : ∀ gate, idt ev.vector.toNat = some gate → ev.isSoft = true ∧ gate.dpl = 0 := by
      intro gate hg
      have hno : ¬(ev.isSoft = true → gate.dpl = 3) := fun hdpl => hgate ⟨gate, hg, hdpl⟩
      obtain ⟨hsoft, hdpl⟩ := Classical.not_imp.mp hno
      exact ⟨hsoft, (idt_dpl hg).resolve_left fun hc => hdpl hc.1⟩
    have hland : landing ev = (13#8, ev.gateError) := by
      rw [landing]
      cases hg : idt ev.vector.toNat with
      | none => rfl
      | some gate =>
        obtain ⟨hsoft, hdpl⟩ := hbad gate hg
        exact if_pos ⟨hsoft, by rw [hdpl]; decide⟩
    have h13 : idt (13#8 : BitVec 8).toNat = some ⟨.handler13, 0⟩ := rfl
    have hproper : (Event.exception 13#8 ev.gateError).Proper := by simp [Event.Proper]
    have hagain := deliver_gate h pad hproper u h13
      (fun hc => by cases hc)
    rw [hland]
    refine ⟨_, h13, ?_⟩
    rw [takeEvent, deliver_fault h pad ev u hbad]
    dsimp only
    rw [hagain]
    cases ev with
    | soft n => rfl
    | external n => rfl
    | exception n e =>
      -- an exception without a gate is not one that makes a double fault
      have hnone : idt n.toNat = none := by
        cases hg : idt n.toNat with
        | none => rfl
        | some gate => exact absurd (hbad gate hg).1 (by simp [Event.isSoft])
      have h8 : n ≠ 8#8 := fun hc => by rw [hc] at hnone; cases hnone
      have hcon : ¬contributory n = true := fun hc => by
        have hsome := contributory_gate hc
        rw [hnone] at hsome
        cases hsome
      dsimp only
      rw [if_neg h8, if_neg hcon]
      rfl

/-! ### What `trap` is called with -/

/-- A trap from user mode has arrived at an entry point. -/
structure TrapTaken (entry : Handler → Word) (vector : BitVec 8) (err : Word) (pad : Padding)
    (ret : Word) (u : UserMachine) (m : Machine) : Prop where
  /-- The processor runs kernel code on a kernel stack, with interrupts disabled. -/
  kernel : m.cs = gdKT ∧ m.ss = gdKD ∧ m.eflags = u.eflags &&& ~~~gateMask
  /-- The entry point calls `trap` with the registers of the user. Two of them are wrong. -/
  frame : ∃ gate, idt vector.toNat = some gate ∧ m.eip = entry gate.off ∧
    (vector ≠ 7#8 → vector ≠ 8#8 →
      (alltraps pad ret (gate.off.stub.run m)).1 =
        kstacktop - BitVec.ofNat 32 sizeofTrapframe ∧
      ∃ oesp, decodeTrapframe (alltraps pad ret (gate.off.stub.run m)).2.mem
        (alltraps pad ret (gate.off.stub.run m)).1 =
          savedFrame u.toMachine oesp (vector.setWidth 32) (errorCode vector.toNat err))

theorem push_esp (s : Machine) (w : Word) : (s.push w).esp = s.esp - 4#32 := rfl

theorem sub_ofNat_sub (x : Word) (a b : ℕ) :
    x - BitVec.ofNat 32 a - BitVec.ofNat 32 b = x - BitVec.ofNat 32 (a + b) := by
  rw [sub_sub, ← BitVec.ofNat_add]

theorem stub_esp (g : Stub) (s : Machine) :
    (g.run s).esp = s.esp - BitVec.ofNat 32 (4 * g.words.length) := by
  -- `TRAPHANDLER` pushes the vector, `TRAPHANDLER_NOEC` a 0 before it
  cases g with
  | traphandler num => rfl
  | traphandlerNoec num => exact sub_ofNat_sub s.esp 4 4

theorem trapEntry_esp (vector : ℕ) (err : Word) (pad : Padding) (esp0 : Word) (u : Machine) :
    (trapEntry vector err pad esp0 u).esp =
      esp0 - BitVec.ofNat 32 (4 * (hardwareWords vector err pad u).length) := by
  -- five words, and the error code as a sixth
  have h20 : esp0 - 4#32 - 4#32 - 4#32 - 4#32 - 4#32 = esp0 - 20#32 := by
    simp only [sub_ofNat_sub, Nat.reduceAdd]
  have h24 : esp0 - 20#32 - 4#32 = esp0 - 24#32 := sub_ofNat_sub esp0 20 4
  rw [trapEntry, hardwareWords]
  by_cases herr : PushesError vector
  · rw [if_pos herr, if_pos herr, push_esp]
    exact (congrArg (· - 4#32) h20).trans h24
  · rw [if_neg herr, if_neg herr]
    exact h20

theorem pushal_esp (s : Machine) : s.pushal.esp = s.esp - 32#32 := by
  simp only [Machine.pushal, push_esp, sub_ofNat_sub, Nat.reduceAdd]

theorem alltraps_fst (pad : Padding) (ret : Word) (s : Machine) :
    (alltraps pad ret s).1 = s.esp - 40#32 := by
  have h : (alltraps pad ret s).1 = ((s.push (pad.ds ++ s.ds)).push (pad.es ++ s.es)).pushal.esp :=
    rfl
  rw [h, pushal_esp, push_esp, push_esp, sub_ofNat_sub, sub_ofNat_sub]

/-- Where the code is does not matter to what is pushed. -/
theorem push_eip (s : Machine) (eip w : Word) :
    ({ s with eip := eip } : Machine).push w = { s.push w with eip := eip } := rfl

theorem pushal_eip (s : Machine) (eip : Word) :
    ({ s with eip := eip } : Machine).pushal = { s.pushal with eip := eip } := by
  simp only [Machine.pushal, push_eip]

theorem alltraps_eip (pad : Padding) (ret eip : Word) (s : Machine) :
    (alltraps pad ret { s with eip := eip }).1 = (alltraps pad ret s).1 ∧
      (alltraps pad ret { s with eip := eip }).2.mem = (alltraps pad ret s).2.mem := by
  simp only [alltraps, push_eip, pushal_eip]
  exact ⟨trivial, rfl⟩

theorem stub_eip (g : Stub) (s : Machine) (eip : Word) :
    g.run { s with eip := eip } = { g.run s with eip := eip } := by
  cases g <;> rfl

theorem trapEntry_kernel (vector : ℕ) (err : Word) (pad : Padding) (esp0 : Word) (u : Machine) :
    (trapEntry vector err pad esp0 u).cs = gdKT ∧ (trapEntry vector err pad esp0 u).ss = gdKD ∧
      (trapEntry vector err pad esp0 u).eflags = u.eflags &&& ~~~gateMask := by
  rw [trapEntry]
  split_ifs <;> exact ⟨rfl, rfl, rfl⟩

theorem trapTaken_enteredAt {vector : BitVec 8} {gate : Gate} (hgate : idt vector.toNat = some gate)
    (err : Word) (pad : Padding) (ret : Word) (u : UserMachine) :
    TrapTaken entry vector err pad ret u (enteredAt entry gate vector err pad u.toMachine) where
  kernel := trapEntry_kernel _ _ _ _ _
  frame := by
    refine ⟨gate, hgate, rfl, fun h7 h8 => ?_⟩
    -- 7 and 8 are the vectors whose entry points use the wrong macro
    have hne : vector.toNat ≠ 7 ∧ vector.toNat ≠ 8 :=
      ⟨fun hc => h7 (BitVec.eq_of_toNat_eq hc), fun hc => h8 (BitVec.eq_of_toNat_eq hc)⟩
    have hwords := stub_words hgate hne.1 hne.2 err pad u.toMachine
    obtain ⟨hfst, hmem⟩ := alltraps_eip pad ret (entry gate.off)
      (gate.off.stub.run (trapEntry vector.toNat err pad kstacktop u.toMachine))
    obtain ⟨oesp, hst⟩ := enterKernel_stacked vector.toNat gate err pad kstacktop ret u.toMachine
    rw [hwords] at hst
    -- what is pushed does not depend on `eip`
    rw [enteredAt, stub_eip, hfst, hmem]
    refine ⟨?_, oesp, ?_⟩
    · -- the words of the processor, of the entry point and of `_alltraps` are one `Trapframe`
      have hlen := congrArg List.length hwords
      rw [List.length_append] at hlen
      have hadd : 4 * (hardwareWords vector.toNat err pad u.toMachine).length +
          (4 * gate.off.stub.words.length + 40) = sizeofTrapframe := by
        simp only [List.length_cons, List.length_nil] at hlen
        simp only [sizeofTrapframe]
        omega
      rw [alltraps_fst, stub_esp, trapEntry_esp, sub_ofNat_sub, sub_ofNat_sub, hadd]
    · have hvec : (vector.setWidth 32 : Word) = BitVec.ofNat 32 vector.toNat :=
        (BitVec.ofNat_toNat 32 vector).symm
      rw [hvec]
      exact decodeTrapframe_frameWords hst

/-- The gate for `int n`. -/
theorem landing_soft (n : BitVec 8) :
    landing (.soft n) = if n = 3#8 ∨ n = 48#8 then (n, 0#32)
      else (13#8, n.setWidth 32 * 8#32 + 2#32) := by
  revert n
  decide

/-- The gate for an interrupt of a device. -/
theorem landing_external (n : Fin 16) :
    landing (.external (BitVec.ofNat 8 (32 + n))) =
      (13#8, BitVec.ofNat 32 (8 * (32 + n) + 3)) := by
  revert n
  decide

/-- Whatever happens while a user program runs, on whichever processor: the event is taken, through
one of the gates that `trap_init` has set, and `trap` is called on the stack at `KSTACKTOP` with
the registers of the program. Of the instructions `int n` only `int 3` and `int 48` get their own
gates; the others, and the interrupts of devices, are general protection faults. The stack, the
tables and the text of the kernel are taken to be mapped, and no other processor to be on the
stack. -/
theorem trap_taken (h : SetUp entry tsAddr t) (pad : Padding) (ret : Word) {ev : Event}
    (hev : ev.Proper) (u : UserMachine) :
    (∃ m, takeEvent t pad ev u.toMachine = some m ∧
      TrapTaken entry (landing ev).1 (landing ev).2 pad ret u m) ∧
    (∀ n, ev = .soft n → landing ev =
      if n = 3#8 ∨ n = 48#8 then (n, 0#32) else (13#8, n.setWidth 32 * 8#32 + 2#32)) ∧
    (∀ n : Fin 16, ev = .external (BitVec.ofNat 8 (32 + n)) →
      landing ev = (13#8, BitVec.ofNat 32 (8 * (32 + n) + 3))) ∧
    ∀ n err, ev = .exception n err → ∀ gate, idt n.toNat = some gate →
      landing ev = (n, errorCode n.toNat err) := by
  obtain ⟨gate, hgate, htake⟩ := takeEvent_eq h.ready pad hev u
  refine ⟨⟨_, htake, trapTaken_enteredAt hgate _ _ _ _⟩, ?_, ?_, ?_⟩
  · rintro n rfl
    exact landing_soft n
  · rintro n rfl
    exact landing_external n
  · rintro n err rfl gate hg
    -- an exception may use its gate whatever the level of the gate is
    have hland : landing (.exception n err) = (n, (Event.exception n err).error?.getD 0#32) := by
      simp [landing, Event.vector, hg, Event.isSoft]
    rw [hland, errorCode, Event.error?]
    split_ifs <;> rfl

/-- A program that tries `int 128`. -/
theorem trap_taken_int128 : ∃ t m, SetUp (fun _ => 0xF0104000#32) 0xF0200000#32 t ∧
    takeEvent t ⟨0, 0, 0, 0⟩ (.soft 128#8) someUser.toMachine = some m ∧
    TrapTaken (fun _ => 0xF0104000#32) 13#8 0x402#32 ⟨0, 0, 0, 0⟩ 0#32 someUser m := by
  obtain ⟨t, ht, -⟩ := trapInitPercpu_eq
    (t := setGates (fun _ => 0xF0104000#32) (envInitPercpu (tablesImage 0xF0200000#32))) rfl
  have hsetup : SetUp (fun _ => 0xF0104000#32) 0xF0200000#32 t := .bsp ht
  obtain ⟨⟨m, htake, htaken⟩, hsoft, -⟩ :=
    trap_taken hsetup ⟨0, 0, 0, 0⟩ 0#32 (show (Event.soft 128#8).Proper from trivial) someUser
  rw [hsoft 128#8 rfl] at htaken
  exact ⟨t, m, hsetup, htake, htaken⟩

end Jos
